import EnhancedXv6.Foundation.Ring
import EnhancedXv6.Foundation.Run

/-! The disk driver of `virtio_disk.c` and its device. A caller of `virtio_disk_rw` is
known by its buffer, which it has locked. The steps of the driver are those between
which the device, a caller or the interrupt handler can act: sections under
`vdisk_lock`, cut where the device could look at what they have written. -/

namespace EnhancedXv6.Virtio

open Foundation

/-- `NUM`, and the range of a `uint16`. -/
def num : Nat := 8

def wrap : Nat := 2 ^ 16

inductive Addr where
  | null
  | op (i : Nat)
  | data (b : Nat)
  | status (i : Nat)
  deriving DecidableEq, Repr

structure Desc where
  addr : Addr := .null
  flagNext : Bool := false
  flagWrite : Bool := false
  next : Nat := 0
  deriving DecidableEq, Repr

structure Request where
  write : Bool
  sector : Nat
  deriving DecidableEq, Repr

structure Info where
  b : Option Nat := none
  status : Nat := 0
  deriving DecidableEq, Repr

inductive Panic where
  | freeDesc1
  | freeDesc2
  | intrStatus
  | nullBuf
  | badChain
  deriving DecidableEq, Repr

/-- Where a caller of `virtio_disk_rw` is: outside of it, before or in its first loop,
with three descriptors to fill, with a filled chain that the device does not see yet, or
in its second loop. -/
inductive Pc where
  | idle
  | start (r : Request)
  | alloc (r : Request)
  | sleepFree (r : Request)
  | format (r : Request) (i j k : Nat)
  | publish (r : Request) (i j k : Nat)
  | check (r : Request) (i j k : Nat)
  | asleep (r : Request) (i j k : Nat)
  | wake (r : Request) (i j k : Nat)
  | finish (r : Request) (i j k : Nat)
  deriving DecidableEq, Repr

inductive Holder where
  | caller (b : Nat)
  | intr
  deriving DecidableEq, Repr

/-- `struct disk`, the rings, and the device: `devIdx` is how far it has read the avail
ring, `working` the chains it has found there, `done` those it has executed. The last
four fields count: requests published, transfers of the device, completions that the
interrupt handler has seen, and chains freed. -/
structure State where
  desc : Nat → Desc
  free : Nat → Bool
  ops : Nat → Request
  info : Nat → Info
  availIdx : Nat
  availRing : Nat → Nat
  usedIdx : Nat
  usedRing : Nat → Nat
  seenIdx : Nat
  devIdx : Nat
  working : List Nat
  done : List Nat
  busy : Nat → Bool
  pc : Nat → Pc
  lock : Option Holder
  issued : Nat → List Request
  served : Nat → List Request
  handled : Nat → Nat
  freed : Nat → Nat

/-- `wakeup(&disk.free[0])`. -/
def Pc.wakeFree : Pc → Pc
  | .sleepFree r => .start r
  | pc => pc

/-- `wakeup(b)`. -/
def Pc.wakeBuf : Pc → Pc
  | .asleep r i j k => .wake r i j k
  | pc => pc

def State.goto (s : State) (b : Nat) (pc : Pc) (lock : Option Holder) : State :=
  { s with pc := Function.update s.pc b pc, lock := lock }

def allocDesc (s : State) : Option (Nat × State) :=
  ((List.range num).find? s.free).map fun i =>
    (i, { s with free := Function.update s.free i false })

def freeDesc (s : State) (i : Nat) : Except Panic State :=
  if num ≤ i then .error .freeDesc1
  else if s.free i then .error .freeDesc2
  else .ok { s with
    desc := Function.update s.desc i {}
    free := Function.update s.free i true
    pc := fun b => (s.pc b).wakeFree }

/-- `free_chain`. Every round frees a descriptor, so `num + 1` rounds are never over
without a panic. -/
def freeChain : Nat → State → Nat → Except Panic State
  | 0, s, _ => .ok s
  | rounds + 1, s, i =>
    (freeDesc s i).bind fun t =>
      if (s.desc i).flagNext then freeChain rounds t (s.desc i).next else .ok t

/-- `alloc3_desc`, which gives back what it has if it cannot get all three. -/
def alloc3Desc (s : State) : Except Panic (State × Option (Nat × Nat × Nat)) :=
  match allocDesc s with
  | none => .ok (s, none)
  | some (i, s) =>
    match allocDesc s with
    | none => (freeDesc s i).map fun s => (s, none)
    | some (j, s) =>
      match allocDesc s with
      | none => ((freeDesc s i).bind fun s => freeDesc s j).map fun s => (s, none)
      | some (k, s) => .ok (s, some (i, j, k))

/-- The assignments of `virtio_disk_rw` up to the entry in the avail ring. -/
def State.format (s : State) (b : Nat) (r : Request) (i j k : Nat) : State :=
  let desc := Function.update s.desc i { addr := .op i, flagNext := true, next := j }
  let desc := Function.update desc j
    { addr := .data b, flagNext := true, flagWrite := !r.write, next := k }
  let desc := Function.update desc k { addr := .status i, flagWrite := true }
  { s with
    ops := Function.update s.ops i r
    desc := desc
    info := Function.update s.info i { b := some b, status := 0xff }
    busy := Function.update s.busy b true
    availRing := Function.update s.availRing (s.availIdx % num) i }

def State.caller (s : State) (b : Nat) : Option (Except Panic State) :=
  match s.pc b with
  | .idle | .sleepFree _ | .asleep _ _ _ _ => none
  | .start r => if s.lock = none then some (.ok (s.goto b (.alloc r) (some (.caller b)))) else none
  | .alloc r =>
    some ((alloc3Desc s).map fun result =>
      match result.2 with
      | none => result.1.goto b (.sleepFree r) none
      | some (i, j, k) => result.1.goto b (.format r i j k) s.lock)
  | .format r i j k => some (.ok ((s.format b r i j k).goto b (.publish r i j k) s.lock))
  | .publish r i j k =>
    some (.ok { s.goto b (.check r i j k) s.lock with
      availIdx := (s.availIdx + 1) % wrap
      issued := Function.update s.issued b (s.issued b ++ [r]) })
  | .check r i j k =>
    if s.busy b then some (.ok (s.goto b (.asleep r i j k) none))
    else some (.ok (s.goto b (.finish r i j k) s.lock))
  | .wake r i j k =>
    if s.lock = none then some (.ok (s.goto b (.check r i j k) (some (.caller b)))) else none
  | .finish _ i _ _ =>
    some ((freeChain (num + 1)
      { s with info := Function.update s.info i { s.info i with b := none } } i).map
      fun t => { t.goto b .idle none with freed := Function.update t.freed b (t.freed b + 1) })

/-- A round of the loop of `virtio_disk_intr`, or the release of the lock at its end. -/
def State.intrRound (s : State) : Except Panic State :=
  if s.seenIdx = s.usedIdx then .ok { s with lock := none }
  else
    let id := s.usedRing (s.seenIdx % num)
    if (s.info id).status ≠ 0 then .error .intrStatus
    else match (s.info id).b with
      | none => .error .nullBuf
      | some b => .ok { s with
          busy := Function.update s.busy b false
          pc := Function.update s.pc b (s.pc b).wakeBuf
          seenIdx := (s.seenIdx + 1) % wrap
          handled := Function.update s.handled b (s.handled b + 1) }

/-- The device executes the chain at `i`: the transfer that its header asks for, on the
buffer of its second descriptor, and status 0. -/
def State.serve (s : State) (i : Nat) : Except Panic State :=
  let header := s.desc i
  let data := s.desc header.next
  let status := s.desc data.next
  match header.addr, data.addr, status.addr with
  | .op o, .data b, .status t => .ok { s with
      info := Function.update s.info t { s.info t with status := 0 }
      served := Function.update s.served b (s.served b ++ [s.ops o])
      working := s.working.erase i
      done := s.done ++ [i] }
  | _, _, _ => .error .badChain

/-- Calls, steps of callers, interrupts, and the three actions of the device: it finds a
chain in the avail ring, executes one, and enters one in the used ring. -/
inductive Event where
  | call (b : Nat) (r : Request)
  | caller (b : Nat)
  | intr
  | intrRound
  | fetch
  | serve (i : Nat)
  | complete (i : Nat)

def State.step (s : State) : Event → Option (Except Panic State)
  | .call b r => if s.pc b = .idle then some (.ok (s.goto b (.start r) s.lock)) else none
  | .caller b => s.caller b
  | .intr => if s.lock = none then some (.ok { s with lock := some .intr }) else none
  | .intrRound => if s.lock = some .intr then some s.intrRound else none
  | .fetch =>
    if s.devIdx = s.availIdx then none
    else some (.ok { s with
      working := s.working ++ [s.availRing (s.devIdx % num)]
      devIdx := (s.devIdx + 1) % wrap })
  | .serve i => if i ∈ s.working then some (s.serve i) else none
  | .complete i =>
    if i ∈ s.done then some (.ok { s with
      usedRing := Function.update s.usedRing (s.usedIdx % num) i
      usedIdx := (s.usedIdx + 1) % wrap
      done := s.done.erase i })
    else none

def step : Except Panic State → Event → Option (Except Panic State)
  | .error _, _ => none
  | .ok s, event => s.step event

/-- After `virtio_disk_init`. -/
def boot : State :=
  { desc := fun _ => {}, free := fun i => i < num, ops := fun _ => ⟨false, 0⟩, info := fun _ => {}
    availIdx := 0, availRing := fun _ => 0, usedIdx := 0, usedRing := fun _ => 0, seenIdx := 0
    devIdx :=
      0, working := [], done := [], busy := fun _ => false, pc := fun _ => .idle, lock := none
    issued := fun _ => [], served := fun _ => [], handled := fun _ => 0, freed := fun _ => 0 }

end EnhancedXv6.Virtio
