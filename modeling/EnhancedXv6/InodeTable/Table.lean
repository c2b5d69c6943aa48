import EnhancedXv6.FileSystem.Format
import EnhancedXv6.Foundation.Run

/-! The inode table of `fs.c`. A section under `itable.lock` that is never left in between
is one step, and so is an access to an inode in its buffer. A process uses an entry only
while it has a reference to it, changes fields only while it has the entry locked, calls
`iupdate` before it unlocks, and does not put the reference that its lock rests on. -/

namespace EnhancedXv6.InodeTable

open EnhancedXv6.FileSystem Foundation

def ninode : Nat := 50

inductive Panic where
  | igetNoInodes
  | ilock
  | ilockNoType
  | iunlock
  | schedLocks
  deriving DecidableEq, Repr

/-- What the holder of a sleep lock does with the inode. The stages of `iput` carry the
number of references there were when it looked. -/
inductive Stage where
  | loading
  | held
  | trunc (refs : Nat)
  | truncUpdate (refs : Nat)
  | clear (refs : Nat)
  | clearUpdate (refs : Nat)
  | invalidate (refs : Nat)
  | unlock (refs : Nat)
  deriving DecidableEq, Repr

/-- `struct inode`. The last three fields are not in the source: the references that each
process has, what the last `iupdate` or read left on the disk, and the changes since then
with the processes that made them. -/
structure Entry (n : Nat) where
  dev : Nat
  inum : Nat
  ref : Nat
  valid : Bool
  lock : Option (Fin n × Stage)
  fields : Dinode
  refs : Fin n → Nat
  synced : Dinode
  pending : List (Fin n × (Dinode → Dinode))

def Entry.key (e : Entry n) : Nat × Nat := (e.dev, e.inum)

def Entry.holder (e : Entry n) : Option (Fin n) := e.lock.map Prod.fst

/-- Where a process is: outside of the functions, in the loop of `ialloc`, before the
section of `iget`, waiting in `ilock`, between steps with an entry locked, before the first
section of `iput`, or before its last one. -/
inductive Pc where
  | idle
  | scan (dev type inum : Nat)
  | get (dev inum : Nat)
  | lockWait (i : Fin ninode)
  | inside (i : Fin ninode)
  | put (i : Fin ninode)
  | drop (i : Fin ninode)
  deriving DecidableEq, Repr

/-- An inode that `iput` has freed: what was on the disk before, and the number of
references when it looked. -/
structure Freed where
  before : Dinode
  refs : Nat

structure State (n : Nat) where
  ninodes : Nat
  entry : Fin ninode → Entry n
  disk : Nat × Nat → Dinode
  pc : Fin n → Pc
  freed : List Freed

variable {n : Nat}

def State.goto (s : State n) (p : Fin n) (pc : Pc) : State n :=
  { s with pc := Function.update s.pc p pc }

/-- Process `p` goes on with entry `i` changed. -/
def State.set (s : State n) (p : Fin n) (pc : Pc) (i : Fin ninode) (e : Entry n) : State n :=
  { s.goto p pc with entry := Function.update s.entry i e }

def Entry.addRef (e : Entry n) (p : Fin n) : Entry n :=
  { e with ref := e.ref + 1, refs := Function.update e.refs p (e.refs p + 1) }

def Entry.dropRef (e : Entry n) (p : Fin n) : Entry n :=
  { e with ref := e.ref - 1, refs := Function.update e.refs p (e.refs p - 1) }

def Entry.change (e : Entry n) (p : Fin n) (stage : Stage) (f : Dinode → Dinode) : Entry n :=
  { e with fields := f e.fields, pending := e.pending ++ [(p, f)], lock := some (p, stage) }

def Entry.sync (e : Entry n) (p : Fin n) (stage : Stage) (d : Dinode) : Entry n :=
  { e with fields := d, synced := d, pending := [], lock := some (p, stage) }

def State.iupdate (s : State n) (p : Fin n) (pc : Pc) (i : Fin ninode) (stage : Stage) : State n :=
  { s.set p pc i ((s.entry i).sync p stage (s.entry i).fields) with
    disk := Function.update s.disk (s.entry i).key (s.entry i).fields }

/-- The loop of `iget` finds the inode, or a slot that is empty. -/
def State.iget (s : State n) (p : Fin n) (dev inum : Nat) : Except Panic (State n) :=
  match (List.finRange ninode).find? fun i => 0 < (s.entry i).ref ∧
    (s.entry i).key = (dev, inum) with
  | some i => .ok (s.set p .idle i ((s.entry i).addRef p))
  | none =>
    match (List.finRange ninode).find? fun i => (s.entry i).ref = 0 with
    | none => .error .igetNoInodes
    | some i =>
      .ok
        (s.set p .idle i
          ({ s.entry i with dev := dev, inum := inum, ref := 0, valid := false }.addRef p))

def truncate (d : Dinode) : Dinode := { d with addrs := fun _ => 0, size := 0 }

/-- The step of a process that has entry `i` locked, in `ilock` or in `iput`. -/
def State.inside (s : State n) (p : Fin n) (i : Fin ninode) :
    Stage → Option (Except Panic (State n))
  | .held => none
  | .loading =>
    let e := s.entry i
    if e.valid then some (.ok (s.set p .idle i { e with lock := some (p, .held) }))
    else if (s.disk e.key).type = 0 then some (.error .ilockNoType)
    else some (.ok (s.set p .idle i { e.sync p .held (s.disk e.key) with valid := true }))
  | .trunc refs =>
    some (.ok (s.set p (.inside i) i ((s.entry i).change p (.truncUpdate refs) truncate)))
  | .truncUpdate refs => some (.ok (s.iupdate p (.inside i) i (.clear refs)))
  | .clear refs =>
    some (.ok
      (s.set p (.inside i) i
        ((s.entry i).change p (.clearUpdate refs) fun d => { d with type := 0 })))
  | .clearUpdate refs =>
    some (.ok { s.iupdate p (.inside i) i (.invalidate refs) with
      freed := s.freed ++ [{ before := s.disk (s.entry i).key, refs := refs }] })
  | .invalidate refs =>
    some (.ok
      (s.set p (.inside i) i { s.entry i with valid := false, lock := some (p, .unlock refs) }))
  | .unlock _ => some (.ok (s.set p (.drop i) i { s.entry i with lock := none }))

/-- The first section of `iput`. A sleep lock that is taken would make it sleep with
`itable.lock` held. -/
def State.iput (s : State n) (p : Fin n) (i : Fin ninode) : Except Panic (State n) :=
  let e := s.entry i
  if e.ref = 1 ∧ e.valid = true ∧ e.fields.nlink = 0 then
    match e.lock with
    | none => .ok (s.set p (.inside i) i { e with lock := some (p, .trunc (∑ q, e.refs q)) })
    | some _ => .error .schedLocks
  else .ok (s.set p .idle i (e.dropRef p))

/-- The next step of a process inside one of the functions. -/
def State.proceed (s : State n) (p : Fin n) : Option (Except Panic (State n)) :=
  match s.pc p with
  | .idle => none
  | .scan dev type inum =>
    if s.ninodes ≤ inum then some (.ok (s.goto p .idle))
    else if (s.disk (dev, inum)).type = 0 then
      some (.ok { s.goto p (.get dev inum) with
        disk := Function.update s.disk (dev, inum) { type := type } })
    else some (.ok (s.goto p (.scan dev type (inum + 1))))
  | .get dev inum => some (s.iget p dev inum)
  | .lockWait i =>
    match (s.entry i).lock with
    | some _ => none
    | none => some (.ok (s.set p (.inside i) i { s.entry i with lock := some (p, .loading) }))
  | .inside i =>
    match (s.entry i).lock with
    | none => none
    | some (q, stage) => if q = p then s.inside p i stage else none
  | .put i => some (s.iput p i)
  | .drop i => some (.ok (s.set p .idle i ((s.entry i).dropRef p)))

/-- The holder of a reference can do without it: its lock, if it has it, rests on another. -/
def Entry.Spare (e : Entry n) (p : Fin n) : Prop :=
  0 < e.refs p ∧ (e.holder = some p → 2 ≤ e.refs p)

instance decidableSpare (e : Entry n) (p : Fin n) : Decidable (e.Spare p) :=
  inferInstanceAs (Decidable (_ ∧ _))

/-- Calls of the functions, steps inside them, and what a process does with an inode that
it has locked. Nothing but `iput` changes `type`. A reference can pass to another process,
with an open file or a directory. -/
inductive Event (n : Nat) where
  | ialloc (p : Fin n) (dev type : Nat)
  | iget (p : Fin n) (dev inum : Nat)
  | idup (p : Fin n) (i : Fin ninode)
  | ilock (p : Fin n) (i : Fin ninode)
  | change (p : Fin n) (i : Fin ninode) (f : Dinode → Dinode)
  | iupdate (p : Fin n) (i : Fin ninode)
  | iunlock (p : Fin n) (i : Fin ninode)
  | iput (p : Fin n) (i : Fin ninode)
  | pass (p q : Fin n) (i : Fin ninode)
  | proceed (p : Fin n)

def Event.process : Event n → Fin n
  | .ialloc p _ _ | .iget p _ _ | .idup p _ | .ilock p _ | .change p _ _ | .iupdate p _
  | .iunlock p _ | .iput p _ | .pass p _ _ | .proceed p => p

def State.call (s : State n) : Event n → Option (Except Panic (State n))
  | .ialloc p dev type => some (.ok (s.goto p (.scan dev type 1)))
  | .iget p dev inum => some (.ok (s.goto p (.get dev inum)))
  | .idup p i =>
    if 0 < (s.entry i).refs p then some (.ok (s.set p .idle i ((s.entry i).addRef p))) else none
  | .ilock p i =>
    if 0 < (s.entry i).refs p then
      some (if (s.entry i).ref < 1 then .error .ilock else .ok (s.goto p (.lockWait i)))
    else none
  | .change p i f =>
    if (s.entry i).lock = some (p, .held) then
      some (.ok (s.set p .idle i ((s.entry i).change p .held fun d => { f d with type := d.type })))
    else none
  | .iupdate p i =>
    if (s.entry i).lock = some (p, .held) then some (.ok (s.iupdate p .idle i .held)) else none
  | .iunlock p i =>
    if (s.entry i).lock = some (p, .held) ∧ (s.entry i).pending.isEmpty then
      some (if (s.entry i).ref < 1 then .error .iunlock
        else .ok (s.set p .idle i { s.entry i with lock := none }))
    else none
  | .iput p i => if (s.entry i).Spare p then some (.ok (s.goto p (.put i))) else none
  | .pass p q i =>
    if (s.entry i).Spare p ∧ p ≠ q then
      let refs := Function.update (s.entry i).refs p ((s.entry i).refs p - 1)
      some (.ok (s.set p .idle i { s.entry i with refs := Function.update refs q (refs q + 1) }))
    else none
  | .proceed _ => none

def State.step (s : State n) : Event n → Option (Except Panic (State n))
  | .proceed p => s.proceed p
  | event => if s.pc event.process = .idle then s.call event else none

def step : Except Panic (State n) → Event n → Option (Except Panic (State n))
  | .error _, _ => none
  | .ok s, event => s.step event

/-- After `iinit`, with any disk. -/
def boot (n ninodes : Nat) (disk : Nat × Nat → Dinode) : State n where
  ninodes := ninodes
  entry _ := { dev := 0, inum := 0, ref := 0, valid := false, lock := none, fields := {}
               refs := fun _ => 0, synced := {}, pending := [] }
  disk := disk
  pc _ := .idle
  freed := []

end EnhancedXv6.InodeTable
