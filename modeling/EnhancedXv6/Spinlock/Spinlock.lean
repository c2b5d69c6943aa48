import EnhancedXv6.Process.Proc

/-! `push_off` and `pop_off` of `spinlock.c` under the locks and switches of any number of
CPUs and processes. A step is one of these functions, one try of the loop of `acquire`, or
one side of a `swtch`; what runs in between does not matter here. -/

namespace EnhancedXv6.Spinlock

open EnhancedXv6.Process (ProcState)

inductive Lock (P L : Type) where
  | own (p : P)
  | other (l : L)
  deriving DecidableEq, Repr

/-- The kernel threads: one for each process, and the loop of `scheduler` on each CPU. -/
inductive Tid (C P : Type) where
  | scheduler (c : C)
  | proc (p : P)
  deriving DecidableEq, Repr

inductive Panic where
  | popOffInterruptible
  | popOff
  | acquire
  | release
  | schedLock
  | schedLocks
  | schedRunning
  | schedInterruptible
  deriving DecidableEq, Repr

/-- Where a thread is: in code of its own, in the loop of `acquire`, in the `swtch` of `sched`
with its local `intena`, in the `swtch` of `scheduler`, or before its first step. -/
inductive Place (P L : Type) where
  | normal
  | spinning (lk : Lock P L)
  | sched (intena : Bool)
  | scheduler
  | forkret
  deriving DecidableEq, Repr

/-- The locks that a thread has acquired or was handed at a switch, and its calls of `push_off`
outside of `acquire` that it has not undone. `enabled` is history: whether interrupts were
enabled at its last `push_off` that was not inside another one. -/
structure Thread (P L : Type) where
  place : Place P L
  held : List (Lock P L)
  bare : Nat
  enabled : Option Bool
  deriving DecidableEq, Repr

structure Cpu (C P : Type) where
  proc : Option P
  noff : Int
  intena : Bool
  /-- `sstatus.SIE`. -/
  intr : Bool
  /-- The thread whose stack the CPU is on. -/
  current : Tid C P
  deriving DecidableEq, Repr

structure Machine (C P L : Type) where
  cpu : C → Cpu C P
  thread : Tid C P → Thread P L
  /-- The CPU that holds a lock. -/
  lock : Lock P L → Option C
  state : P → ProcState
  panic : Option Panic

inductive Act (P L : Type) where
  /-- `intr_on()` or `intr_off()`, also by a trap and by the return from it. -/
  | setIntr (on : Bool)
  | pushOff
  | popOff
  | acquire (lk : Lock P L)
  | spin
  | release (lk : Lock P L)
  /-- `p->state = state`, for a process that does not run. -/
  | setState (p : P) (state : ProcState)
  /-- `allocproc` gives a slot a new context. -/
  | allocproc (p : P)
  /-- `p->state = state; sched();` by the process itself. -/
  | sched (state : ProcState)
  /-- `scheduler` runs a process. -/
  | dispatch (p : P)
  /-- What follows `swtch`. -/
  | resume
  deriving DecidableEq, Repr

structure Event (C P L : Type) where
  cpu : C
  act : Act P L
  deriving DecidableEq, Repr

variable {C P L : Type}

/-- The `push_off`s that a thread has not undone yet. A lock counts for the thread that gets it
at a switch as for the one that took it. -/
def Thread.unmatched (t : Thread P L) : Nat :=
  t.held.length + t.bare + match t.place with
    | .spinning _ => 1
    | _ => 0

def Cpu.pushOff (c : Cpu C P) : Cpu C P :=
  { c with
    intr := false
    intena := if c.noff = 0 then c.intr else c.intena
    noff := c.noff + 1 }

def Cpu.popOff (c : Cpu C P) : Except Panic (Cpu C P) :=
  if c.intr then .error .popOffInterruptible
  else if c.noff < 1 then .error .popOff
  else .ok { c with noff := c.noff - 1, intr := decide (c.noff - 1 = 0) && c.intena }

/-- The history of a thread at a `push_off`. -/
def Thread.pushing (t : Thread P L) (intr : Bool) : Thread P L :=
  { t with enabled := if t.unmatched = 0 then some intr else t.enabled }

/-- A process that has got its context from `allocproc`; `scheduler` will hand it its lock. -/
def Thread.fresh (p : P) : Thread P L := ⟨.forkret, [.own p], 0, none⟩

section

variable [DecidableEq C] [DecidableEq P] [DecidableEq L]

def Machine.running (s : Machine C P L) (c : C) : Thread P L := s.thread (s.cpu c).current

def Machine.put (s : Machine C P L) (c : C) (cpu : Cpu C P) (t : Thread P L) : Machine C P L :=
  { s with
    cpu := Function.update s.cpu c cpu
    thread := Function.update s.thread (s.cpu c).current t }

def Machine.setLock (s : Machine C P L) (lk : Lock P L) (holder : Option C) : Machine C P L :=
  { s with lock := Function.update s.lock lk holder }

def Machine.setState (s : Machine C P L) (p : P) (state : ProcState) : Machine C P L :=
  { s with state := Function.update s.state p state }

/-- `pop_off` by a thread that is `t` afterwards. -/
def Machine.popOff (s : Machine C P L) (c : C) (t : Thread P L) : Machine C P L :=
  match (s.cpu c).popOff with
  | .ok cpu => s.put c cpu t
  | .error e => { s with panic := some e }

/-- `acquire` up to its loop. -/
def Machine.acquire (s : Machine C P L) (c : C) (lk : Lock P L) : Machine C P L :=
  let cpu := s.cpu c
  if s.lock lk = some c then { s with panic := some .acquire }
  else s.put c cpu.pushOff { (s.running c).pushing cpu.intr with place := .spinning lk }

def Machine.release (s : Machine C P L) (c : C) (lk : Lock P L) : Machine C P L :=
  let t := s.running c
  if s.lock lk ≠ some c then { s with panic := some .release }
  else (s.setLock lk none).popOff c { t with held := t.held.erase lk }

/-- `sched` by the process `p` of a CPU, up to its `swtch`. -/
def Machine.sched (s : Machine C P L) (c : C) (p : P) : Machine C P L :=
  let cpu := s.cpu c
  if s.lock (.own p) ≠ some c then { s with panic := some .schedLock }
  else if cpu.noff ≠ 1 then { s with panic := some .schedLocks }
  else if s.state p = .running then { s with panic := some .schedRunning }
  else if cpu.intr then { s with panic := some .schedInterruptible }
  else s.put c { cpu with current := .scheduler c } { s.running c with place := .sched cpu.intena }

/-- The body of `scheduler` for a process that it can run, up to its `swtch`. -/
def Machine.dispatch (s : Machine C P L) (c : C) (p : P) : Machine C P L :=
  (s.setState p .running).put c { s.cpu c with proc := some p, current := .proc p }
    { s.running c with place := .scheduler }

/-- The steps of the machine. Threads undo the `push_off`s that they have made, give up the CPU
with just their own lock held and their state changed, and change the state of another process
only with its lock held and while it does not run. -/
def Machine.step (s : Machine C P L) (e : Event C P L) : Option (Machine C P L) :=
  let c := e.cpu
  let cpu := s.cpu c
  let t := s.running c
  if s.panic ≠ none then none
  else match e.act with
    | .setIntr on =>
      if t.place = .normal ∧ t.unmatched = 0 then some (s.put c { cpu with intr := on } t) else none
    | .pushOff =>
      if t.place = .normal then
        some (s.put c cpu.pushOff { t.pushing cpu.intr with bare := t.bare + 1 })
      else none
    | .popOff =>
      if t.place = .normal ∧ 0 < t.bare then
        some (s.popOff c { t with bare := t.bare - 1 })
      else
        none
    | .acquire lk =>
      if t.place = .normal ∧ lk ∉ t.held then some (s.acquire c lk) else none
    | .spin =>
      match t.place with
      | .spinning lk =>
        if s.lock lk = none then
          some ((s.setLock lk (some c)).put c cpu { t with place := .normal, held := lk :: t.held })
        else none
      | _ => none
    | .release lk => if t.place = .normal ∧ lk ∈ t.held then some (s.release c lk) else none
    | .setState p state =>
      if t.place = .normal ∧ .own p ∈ t.held ∧ s.state p ≠ .running ∧ state ≠ .running then
        some (s.setState p state)
      else none
    | .allocproc p =>
      if t.place = .normal ∧ .own p ∈ t.held ∧ s.state p = .unused then
        some { s with thread := Function.update s.thread (.proc p) (.fresh p) }
      else none
    | .sched state =>
      match cpu.proc with
      | some p =>
        if cpu.current = .proc p ∧ t.place = .normal ∧ t.held = [.own p] ∧ t.bare = 0 ∧
            state ≠ .running then
          some ((s.setState p state).sched c p)
        else none
      | none => none
    | .dispatch p =>
      if cpu.current = .scheduler c ∧ t.place = .normal ∧ t.held = [.own p] ∧ t.bare = 0 ∧
          s.state p = .runnable then some (s.dispatch c p)
      else none
    | .resume =>
      match t.place with
      | .sched intena => some (s.put c { cpu with intena := intena } { t with place := .normal })
      | .scheduler => some (s.put c { cpu with proc := none } { t with place := .normal })
      | .forkret => some (s.put c cpu { t with place := .normal })
      | _ => none

end

/-- Every CPU is about to run `scheduler`, with interrupts as they happen to be. -/
def Machine.boot (intr intena : C → Bool) : Machine C P L where
  cpu c := ⟨none, 0, intena c, intr c, .scheduler c⟩
  thread
    | .scheduler _ => ⟨.normal, [], 0, none⟩
    | .proc p => .fresh p
  lock _ := none
  state _ := .unused
  panic := none

end EnhancedXv6.Spinlock
