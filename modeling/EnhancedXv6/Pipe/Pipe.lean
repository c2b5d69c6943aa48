import EnhancedXv6.Foundation.Ring
import EnhancedXv6.Foundation.Run

/-! One pipe of `pipe.c` with any number of processes at its two ends. A step is a round
of a loop under `pi->lock`, or the section of `fileclose` or `pipeclose`. -/

namespace EnhancedXv6.Pipe

open Foundation

def pipesize : Nat := 512

/-- `struct pipe` without its lock; the counters are of type `uint`. -/
structure PipeBuffer where
  data : Nat → UInt8
  nread : Nat
  nwrite : Nat
  readopen : Bool
  writeopen : Bool

def PipeBuffer.buffered (pi : PipeBuffer) : List UInt8 :=
  ringItems pi.data pipesize (2 ^ 32) pi.nread pi.nwrite

/-- The file at each end of the pipe; `write` is the writable one. -/
inductive End
  | read
  | write
  deriving DecidableEq, Repr

inductive Chan
  | nread
  | nwrite
  deriving DecidableEq, Repr

/-- A process waits for `pi->lock`, holds it, or sleeps. -/
inductive Stage
  | acquire
  | locked
  | asleep (chan : Chan)
  deriving DecidableEq, Repr

/-- What a process is doing with the pipe. `pipewrite` has copied `i` of `n` bytes; `piperead`
is in its first loop or has copied `i` of `n` bytes. -/
inductive Phase
  | idle
  | writing (stage : Stage) (i n : Int)
  | waiting (stage : Stage) (n : Int)
  | reading (i n : Int)
  | closing (file : End)
  | freeing
  deriving DecidableEq, Repr

/-- The processes that have a descriptor of an end are listed, so `f->ref` is the length of
the list. `accepted` and `delivered` are the bytes that have gone through the pipe. -/
structure State where
  pipe : PipeBuffer
  lock : Option Nat
  owners : End → List Nat
  phase : Nat → Phase
  killed : Nat → Bool
  freed : Nat
  accepted : List UInt8
  delivered : List UInt8

def State.goto (s : State) (p : Nat) (next : Phase) : State :=
  { s with phase := Function.update s.phase p next }

def Phase.wake (chan : Chan) : Phase → Phase
  | .writing (.asleep c) i n => if c = chan then .writing .acquire i n else .writing (.asleep c) i n
  | .waiting (.asleep c) n => if c = chan then .waiting .acquire n else .waiting (.asleep c) n
  | phase => phase

def State.wakeup (s : State) (chan : Chan) : State :=
  { s with phase := fun p => (s.phase p).wake chan }

def State.acquire (s : State) (p : Nat) (next : Phase) : Option State :=
  if s.lock = none then some { s.goto p next with lock := some p } else none

/-- The process releases the lock and goes on, or goes to sleep. -/
def State.release (s : State) (p : Nat) (next : Phase) : State :=
  { s.goto p next with lock := none }

/-- A round of the loop of `pipewrite`, with the byte that `copyin` delivers if it succeeds. -/
def State.writeRound (s : State) (p : Nat) (i n : Int) (ch : UInt8) (copied : Bool) : State :=
  if i < n then
    if s.pipe.readopen = false ∨ s.killed p = true then
      s.release p .idle
    else if s.pipe.nwrite = (s.pipe.nread + pipesize) % 2 ^ 32 then
      (s.wakeup .nread).release p (.writing (.asleep .nwrite) i n)
    else if copied = false then
      (s.wakeup .nread).release p .idle
    else
      { s.goto p (.writing .locked (i + 1) n) with
        pipe := { s.pipe with
          data := Function.update s.pipe.data (s.pipe.nwrite % pipesize) ch
          nwrite := (s.pipe.nwrite + 1) % 2 ^ 32 }
        accepted := s.accepted ++ [ch] }
  else
    (s.wakeup .nread).release p .idle

/-- A round of the first loop of `piperead`. -/
def State.waitRound (s : State) (p : Nat) (n : Int) : State :=
  if s.pipe.nread = s.pipe.nwrite ∧ s.pipe.writeopen = true then
    if s.killed p = true then
      s.release p .idle
    else
      s.release p (.waiting (.asleep .nread) n)
  else
    s.goto p (.reading 0 n)

/-- A round of the second loop of `piperead`. A byte whose `copyout` fails has left the pipe. -/
def State.readRound (s : State) (p : Nat) (i n : Int) (copied : Bool) : State :=
  if i < n ∧ s.pipe.nread ≠ s.pipe.nwrite then
    let pipe := { s.pipe with nread := (s.pipe.nread + 1) % 2 ^ 32 }
    if copied = true then
      { s.goto p (.reading (i + 1) n) with
        pipe := pipe
        delivered := s.delivered ++ [s.pipe.data (s.pipe.nread % pipesize)] }
    else
      { (s.wakeup .nwrite).release p .idle with pipe := pipe }
  else
    (s.wakeup .nwrite).release p .idle

/-- The flag of an end and its `wakeup`, in `pipeclose`. -/
def State.shut (s : State) : End → State
  | .write => { s with pipe := { s.pipe with writeopen := false } }.wakeup .nread
  | .read => { s with pipe := { s.pipe with readopen := false } }.wakeup .nwrite

/-- `pipeclose` up to the release of the lock. -/
def State.pipeclose (s : State) (p : Nat) (file : End) : State :=
  let t := s.shut file
  if t.pipe.readopen = false ∧ t.pipe.writeopen = false then t.goto p .freeing else t.goto p .idle

def State.advance (s : State) (p : Nat) (ch : UInt8) (copied : Bool) : Option State :=
  match s.phase p with
  | .idle => none
  | .writing .acquire i n => s.acquire p (.writing .locked i n)
  | .writing .locked i n => some (s.writeRound p i n ch copied)
  | .writing (.asleep _) _ _ => none
  | .waiting .acquire n => s.acquire p (.waiting .locked n)
  | .waiting .locked n => some (s.waitRound p n)
  | .waiting (.asleep _) _ => none
  | .reading i n => some (s.readRound p i n copied)
  | .closing file => if s.lock = none then some (s.pipeclose p file) else none
  | .freeing => some { s.goto p .idle with freed := s.freed + 1 }

/-- `fileclose` up to its call of `pipeclose`. -/
def State.fileclose (s : State) (p : Nat) (file : End) : State :=
  let left := (s.owners file).erase p
  { s.goto p (if left = [] then .closing file else .idle) with
    owners := Function.update s.owners file left }

/-- `kill` also ends a sleep. -/
def State.kill (s : State) (p : Nat) : State :=
  { s with
    killed := Function.update s.killed p true
    phase := Function.update s.phase p (((s.phase p).wake .nread).wake .nwrite) }

/-- The system calls of a process that is not inside the pipe's code, `kill` of any process, and the
steps of the calls, with the outcome of `copyin` or `copyout`. `filedup` gives a descriptor to the
caller or to its child. -/
inductive Event
  | write (p : Nat) (n : Int)
  | read (p : Nat) (n : Int)
  | filedup (p : Nat) (file : End) (child : Nat)
  | fileclose (p : Nat) (file : End)
  | kill (p : Nat)
  | advance (p : Nat) (ch : UInt8) (copied : Bool)

def State.step (s : State) : Event → Option State
  | .write p n =>
    if s.phase p = .idle ∧ p ∈ s.owners .write then
      some (s.goto p (.writing .acquire 0 n))
    else
      none
  | .read p n =>
    if s.phase p = .idle ∧ p ∈ s.owners .read then some (s.goto p (.waiting .acquire n)) else none
  | .filedup p file child =>
    if s.phase p = .idle ∧ p ∈ s.owners file then
      some { s with owners := Function.update s.owners file (child :: s.owners file) }
    else none
  | .fileclose p file =>
    if s.phase p = .idle ∧ p ∈ s.owners file then some (s.fileclose p file) else none
  | .kill p => some (s.kill p)
  | .advance p ch copied => s.advance p ch copied

/-- The pipe after `pipealloc` by a process, in a page with any contents. -/
def State.boot (creator : Nat) (page : Nat → UInt8) : State :=
  { pipe := ⟨page, 0, 0, true, true⟩
    lock := none
    owners := fun _ => [creator]
    phase := fun _ => .idle
    killed := fun _ => false
    freed := 0
    accepted := []
    delivered := [] }

end EnhancedXv6.Pipe
