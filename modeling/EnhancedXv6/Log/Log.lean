import EnhancedXv6.Foundation.Run
import EnhancedXv6.Foundation.Replay

/-! The write-ahead log of `log.c` over the buffer cache and the disk. Every step
makes at most one block durable, in program order, and a crash may come between
any two steps; it keeps the disk and nothing else. -/

namespace EnhancedXv6.Log

open Foundation

abbrev Block := Nat → Nat

abbrev Disk := Nat → Block

def maxopblocks : Nat := 10

def logsize : Nat := maxopblocks * 3

/-- `log.start` and `log.size`, taken from the superblock by `initlog`; the log has
at least its header block. -/
structure Layout where
  start : Nat
  size : Nat
  header : 0 < size

def Layout.Holds (layout : Layout) (blockno : Nat) : Prop :=
  layout.start ≤ blockno ∧ blockno < layout.start + layout.size

instance (layout : Layout) (blockno : Nat) : Decidable (layout.Holds blockno) :=
  inferInstanceAs (Decidable (_ ∧ _))

/-- `log.start + tail + 1`, the block of the log that holds copy `tail`. -/
def Layout.copy (layout : Layout) (tail : Nat) : Nat := layout.start + tail + 1

/-- `read_head`: the block numbers that a header block lists (`n`, then `block[]`). -/
def readHead (header : Block) : List Nat :=
  (List.range (header 0)).map fun i => header (i + 1)

/-- `write_head`: the header block with `n` and the first `n` block numbers set;
its other words stay. -/
def writeHead (blocks : List Nat) (header : Block) : Block
  | 0 => blocks.length
  | i + 1 => blocks.getD i (header (i + 1))

/-- One `log_write`: the operation that made it and the contents it logged. -/
structure Write where
  op : Nat
  blockno : Nat
  data : Block

abbrev Group := List Write

def Group.apply (group : Group) (disk : Disk) : Disk :=
  replay (group.map fun write => (write.blockno, write.data)) disk

def applyAll (groups : List Group) (disk : Disk) : Disk :=
  groups.foldl (fun disk group => group.apply disk) disk

/-- The next thing that the process in `end_op`, or the booting one in
`recover_from_log`, does: `writeLog tail` and `install tail` are the loops of
`commit`, each followed by a `write_head`, and `unlock` is the end of `end_op`. -/
inductive Phase where
  | running
  | writeLog (tail : Nat)
  | install (tail : Nat)
  | unlock
  | readHead
  | recover (tail : Nat)
  deriving DecidableEq, Repr

/-- Whether the machine is still in `initlog`, before the first system call. -/
def Phase.recovering : Phase → Bool
  | .readHead | .recover _ => true
  | _ => false

def Phase.committing : Phase → Bool
  | .writeLog _ | .install _ => true
  | _ => false

/-- Disk, buffer cache and `struct log`. `active` pairs the processes between
`begin_op` and `end_op` with the number of their operation. The last four fields
are the history of the log: `current` is the group being filled or committed,
`completed` are the groups whose commit has ended, and `interrupted` is the group
that was being committed at the last crash. -/
structure State where
  disk : Disk
  cached : Nat → Option Block
  pins : List Nat
  lh : List Nat
  outstanding : Nat
  committing : Bool
  phase : Phase
  active : List (Nat × Nat)
  nextOp : Nat
  current : Group
  completed : List Group
  interrupted : Option Group

def State.bread (s : State) (blockno : Nat) : Block := (s.cached blockno).getD (s.disk blockno)

def State.bwrite (s : State) (blockno : Nat) (data : Block) : State :=
  { s with
    disk := Function.update s.disk blockno data
    cached := Function.update s.cached blockno (some data) }

def State.writeHead (s : State) (layout : Layout) : State :=
  s.bwrite layout.start (Log.writeHead s.lh (s.bread layout.start))

/-- The calls of any number of processes and the steps of the machine. `logWrite`
comes with the contents that its caller has put into the locked buffer; `recycle`
is the reuse by `bget` of a buffer that nobody references or pins; `commit` and
`recover` do the next step of their phase. -/
inductive Call where
  | beginOp (process : Nat)
  | logWrite (process blockno : Nat) (data : Block)
  | endOp (process : Nat)
  | bread (blockno : Nat)
  | recycle (blockno : Nat)
  | commit
  | recover
  | crash

/-- `begin_op`, once it does not have to sleep. -/
def State.beginOp (s : State) (process : Nat) : Option State :=
  if s.phase.recovering ∨ s.committing ∨
      logsize < s.lh.length + (s.outstanding + 1) * maxopblocks ∨
      process ∈ s.active.map Prod.fst then none
  else some { s with
    outstanding := s.outstanding + 1
    active := (process, s.nextOp) :: s.active
    nextOp := s.nextOp + 1 }

/-- `log_write` on a buffer of the file system, unless it panics. The block is
appended to the header and pinned only if the header does not list it yet. -/
def State.logWrite (s : State) (layout : Layout) (process blockno : Nat) (data : Block) :
    Option State :=
  match s.active.lookup process with
  | none => none
  | some op =>
    if layout.Holds blockno then none
    else if logsize ≤ s.lh.length ∨ layout.size - 1 ≤ s.lh.length then none
    else if s.outstanding < 1 then none
    else some { s with
      cached := Function.update s.cached blockno (some data)
      lh := if blockno ∈ s.lh then s.lh else s.lh ++ [blockno]
      pins := if blockno ∈ s.lh then s.pins else blockno :: s.pins
      current := s.current ++ [⟨op, blockno, data⟩] }

/-- `end_op` up to its call of `commit`, which does nothing on an empty header. -/
def State.endOp (s : State) (process : Nat) : Option State :=
  match s.active.lookup process with
  | none => none
  | some op =>
    let outstanding := s.outstanding - 1
    let active := s.active.erase (process, op)
    if s.committing then none
    else if outstanding = 0 then
      some { s with
        outstanding := outstanding, active := active, committing := true
        phase := if s.lh = [] then .unlock else .writeLog 0 }
    else some { s with outstanding := outstanding, active := active }

/-- The next block write of `commit`, or the section of `end_op` after it. -/
def State.commitStep (s : State) (layout : Layout) : Option State :=
  match s.phase with
  | .writeLog tail =>
    match s.lh[tail]? with
    | some blockno =>
      some { s.bwrite (layout.copy tail) (s.bread blockno) with phase := .writeLog (tail + 1) }
    | none => some { s.writeHead layout with phase := .install 0 }
  | .install tail =>
    match s.lh[tail]? with
    | some blockno =>
      some { s.bwrite blockno (s.bread (layout.copy tail)) with
        phase := .install (tail + 1)
        pins := s.pins.erase blockno }
    | none =>
      some { { s with lh := [] }.writeHead layout with
        phase := .unlock
        current := []
        completed := s.completed ++ [s.current] }
  | .unlock => some { s with committing := false, phase := .running }
  | _ => none

/-- The next block write of `recover_from_log`. The history takes the interrupted
group as completed if the header listed its blocks, and drops it otherwise. -/
def State.recoverStep (s : State) (layout : Layout) : Option State :=
  match s.phase with
  | .readHead =>
    some { s with
      cached := Function.update s.cached layout.start (some (s.bread layout.start))
      lh := Log.readHead (s.bread layout.start)
      phase := .recover 0 }
  | .recover tail =>
    match s.lh[tail]? with
    | some blockno =>
      some { s.bwrite blockno (s.bread (layout.copy tail)) with phase := .recover (tail + 1) }
    | none =>
      some { { s with lh := [] }.writeHead layout with
        phase := .running
        completed := if s.lh = [] then s.completed else s.completed ++ s.interrupted.toList
        interrupted := none }
  | _ => none

/-- A crash: the machine boots again with nothing but its disk. -/
def State.crash (s : State) : State :=
  { disk := s.disk
    cached := fun _ => none
    pins := []
    lh := []
    outstanding := 0
    committing := false
    phase := .readHead
    active := []
    nextOp := s.nextOp
    current := []
    completed := s.completed
    interrupted :=
      if s.phase.committing then some s.current
      else if s.phase.recovering then s.interrupted
      else none }

def State.step (layout : Layout) (s : State) : Call → Option State
  | .beginOp process => s.beginOp process
  | .logWrite process blockno data => s.logWrite layout process blockno data
  | .endOp process => s.endOp process
  | .bread blockno =>
    some { s with cached := Function.update s.cached blockno (some (s.bread blockno)) }
  | .recycle blockno =>
    if blockno ∈ s.pins then none
    else some { s with cached := Function.update s.cached blockno none }
  | .commit => s.commitStep layout
  | .recover => s.recoverStep layout
  | .crash => some s.crash

def State.boot (image : Disk) : State :=
  { disk := image
    cached := fun _ => none
    pins := []
    lh := []
    outstanding := 0
    committing := false
    phase := .readHead
    active := []
    nextOp := 0
    current := []
    completed := []
    interrupted := none }

end EnhancedXv6.Log
