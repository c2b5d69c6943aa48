import EnhancedXv6.Log.Admission
import EnhancedXv6.Memory.Counts
import EnhancedXv6.Alarm.Frames
import EnhancedXv6.Memory.Fault
import EnhancedXv6.OpenFile.References
import EnhancedXv6.Virtio.Completion
import EnhancedXv6.Shell.Accepts
import EnhancedXv6.InodeTable.Consistency
import EnhancedXv6.Scheduler.Fcfs
import EnhancedXv6.Scheduler.Priority
import EnhancedXv6.Scheduler.Aging
import EnhancedXv6.Scheduler.Fifo
import EnhancedXv6.Alarm.Period
import EnhancedXv6.Process.Kill
import EnhancedXv6.Scheduler.Handover
import EnhancedXv6.Memory.Sbrk
import EnhancedXv6.Process.Fork
import EnhancedXv6.Memory.Arguments
import EnhancedXv6.FileSystem.Budget
import EnhancedXv6.Console.Discipline
import EnhancedXv6.FileSystem.DirectoryMap
import EnhancedXv6.FileSystem.UserRead
import EnhancedXv6.Pipe.Delivery
import EnhancedXv6.Pipe.Fifo
import EnhancedXv6.Process.KillSleep
import EnhancedXv6.Scheduler.PidCalls
import EnhancedXv6.Syscall.ReadCount
import EnhancedXv6.Syscall.SleepTime
import EnhancedXv6.Umalloc.Requests
import EnhancedXv6.Grep.Buffer
import EnhancedXv6.Library.Memmove
import EnhancedXv6.Spinlock.Nesting
import EnhancedXv6.Spinlock.Sleeplock
