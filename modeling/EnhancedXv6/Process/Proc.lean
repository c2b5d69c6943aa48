import Mathlib

/-! The process table of `proc.h` and the field assignments of `allocproc` and
`freeproc`. A C `int` is an integer and a C `uint` a natural number; the places
where the source converts or subtracts them modulo `2 ^ 32` say so. -/

namespace EnhancedXv6.Process

inductive ProcState where
  | unused
  | used
  | sleeping
  | runnable
  | running
  | zombie
  deriving DecidableEq, Repr

/-- What a process can sleep on: the address of a slot of the process table, of
the tick counter, or of some other kernel object. -/
inductive Chan where
  | proc (slot : Nat)
  | ticks
  | object (address : Nat)
  deriving DecidableEq, Repr

structure Proc where
  state : ProcState := .unused
  chan : Option Chan := none
  killed : Int := 0
  xstate : Int := 0
  pid : Int := 0
  parent : Option Nat := none
  sz : Nat := 0
  pagetable : Nat := 0
  trapframe : Nat := 0
  rtime : Nat := 0
  ctime : Nat := 0
  etime : Nat := 0
  ticks : Int := 0
  currentTicks : Int := 0
  sigalarm : Nat := 0
  handler : Nat := 0
  tickCtr : Int := 0
  queueLevel : Int := 0
  lastExec : Int := 0
  inTime : Int := 0
  runTime : Int := 0
  waitTime : Int := 0
  sleepTime : Int := 0
  priority : Int := 0
  dynamicPriority : Int := 0
  numShed : Int := 0
  deriving DecidableEq, Repr

/-- `struct proc proc[NPROC]`, for a table of any length. -/
abbrev Table (n : Nat) := Fin n → Proc

def nproc : Nat := 64

def firstSlot : Fin nproc := ⟨0, by decide⟩

/-- A `uint` stored in an `int`. -/
def asInt (value : Nat) : Int := if value < 2 ^ 31 then value else (value : Int) - 2 ^ 32

def uintDiff (left : Nat) (right : Int) : Int := ((left : Int) - right) % 2 ^ 32

/-- The assignments that `allocproc` makes both when it has found a slot and when
it has built the page table. -/
def Proc.resetCounters (p : Proc) (ticks : Nat) : Proc :=
  { p with
    tickCtr := 0, queueLevel := 0, lastExec := asInt ticks
    ticks := 0, handler := 0, sigalarm := 0, currentTicks := 0
    waitTime := 0, runTime := 0, priority := 50, dynamicPriority := 0
    sleepTime := 0, numShed := 0 }

/-- `allocproc` at its label `found`. -/
def Proc.found (p : Proc) (pid : Int) (ticks : Nat) : Proc :=
  { p with pid := pid, state := .used }.resetCounters ticks

/-- The end of `allocproc`, once trapframe and page table exist. -/
def Proc.started (p : Proc) (ticks : Nat) : Proc :=
  { p with rtime := 0, etime := 0, ctime := ticks }.resetCounters ticks

/-- The assignments of `freeproc`; `in_time`, `rtime`, `ctime` and `etime` keep
the values of the process that used the slot. -/
def Proc.freed (p : Proc) (ticks : Nat) : Proc :=
  { p with
    trapframe := 0, pagetable := 0, sz := 0, pid := 0, parent := none
    chan := none, killed := 0, xstate := 0, state := .unused
    tickCtr := 0, ticks := 0, handler := 0, sigalarm := 0, currentTicks := 0
    queueLevel := 0, lastExec := asInt ticks, waitTime := 0, runTime := 0
    priority := 0, dynamicPriority := 0, sleepTime := 0, numShed := 0 }

/-- What `wakeup` and `kill` write into a process that they take from its sleep. -/
def Proc.roused (p : Proc) (ticks : Nat) : Proc :=
  { p with state := .runnable, lastExec := asInt ticks, tickCtr := 0, inTime := asInt ticks }

/-- One critical section of the loop of `wakeup`, on a slot that is not the caller's. -/
def Proc.wakeupOn (p : Proc) (chan : Chan) (ticks : Nat) : Proc :=
  if p.state = .sleeping ∧ p.chan = some chan then p.roused ticks else p

/-- The critical section of `kill` on the slot whose pid matches. -/
def Proc.killedBy (p : Proc) (ticks : Nat) : Proc :=
  if p.state = .sleeping then { p with killed := 1 }.roused ticks else { p with killed := 1 }

end EnhancedXv6.Process
