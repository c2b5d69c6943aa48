import EnhancedXv6.Memory.Space

/-! The alarms of processes: `sys_sigalarm` and `sys_sigreturn` of `sysproc.c`, and what `usertrap`
does at a timer interrupt. -/

namespace EnhancedXv6.Alarm

open Foundation EnhancedXv6.Memory

def int32 (n : Int) : Int :=
  (n + 2 ^ 31) % 2 ^ 32 - 2 ^ 31

structure AlarmState where
  ticks : Int
  currentTicks : Int
  handler : Nat
  /-- The saved trapframe, where 0 is the null pointer. -/
  sigalarm : Nat
  deriving DecidableEq

/-- What `allocproc` and `freeproc` leave in the fields. -/
def AlarmState.unset : AlarmState :=
  ⟨0, 0, 0, 0⟩

def AlarmState.tick (a : AlarmState) : AlarmState :=
  if a.ticks > 0 then { a with currentTicks := int32 (a.currentTicks + 1) } else a

/-- A tick with an alarm, for which the trapframe is saved in a page if there is one. -/
def AlarmState.fired (a : AlarmState) (frame : Nat) : AlarmState :=
  { a with currentTicks := int32 (a.currentTicks + 1), sigalarm := frame }

/-- `usertrap` delivers the alarm at the next timer interrupt. -/
def AlarmState.Due (a : AlarmState) : Prop :=
  a.ticks ≠ 0 ∧ a.currentTicks = int32 (a.ticks + 1)

instance (a : AlarmState) : Decidable a.Due :=
  inferInstanceAs (Decidable (_ ∧ _))

section Trap

/-- The place of the first register of the user in a `struct trapframe`. -/
def tfRa : Nat := 40

/-- The program counter and the registers of a user that traps into the kernel. -/
structure Context where
  epc : Nat
  regs : Nat → UInt8

/-- `uservec` and the first lines of `usertrap`. -/
def saveContext (tf : Nat) (user : Context) : KM Unit := do
  modify
    fun s => { s with mem := Foundation.copy s.mem (tf + tfRa) (trapframeBytes - tfRa) user.regs }
  storeWord (tf + tfEpc) user.epc

def sysSigalarm (a : AlarmState) (n : Int) (handler : Nat) : AlarmState :=
  { a with currentTicks := 0, ticks := int32 n, handler := handler }

def sysSigreturn (tf : Nat) (a : AlarmState) : KM (AlarmState × Nat) := do
  if a.sigalarm = 0 then
    throw .kernelFault
  else
    memmove tf a.sigalarm pgsize
    kfree a.sigalarm
    return ({ a with currentTicks := 0 }, ← loadWord (tf + tfA0))

/-- `usertrap` for a system call, with `syscall`. -/
def usertrapSyscall (tf : Nat) (user : Context) (call : KM (AlarmState × Nat)) : KM AlarmState := do
  saveContext tf user
  storeWord (tf + tfEpc) (user.epc + 4)
  let (a, result) ← call
  storeWord (tf + tfA0) result
  return a

/-- `usertrap` for a timer interrupt. -/
def usertrapTimer (tf : Nat) (user : Context) (a : AlarmState) : KM AlarmState := do
  saveContext tf user
  if a.ticks ≠ 0 then
    if a.currentTicks = int32 (a.ticks + 1) then
      let frame ← kalloc
      if frame ≠ 0 then
        memset frame 0 pgsize
        memmove frame tf pgsize
        storeWord (tf + tfEpc) a.handler
        return a.fired frame
      else
        return a.fired 0
    else
      return a.tick
  else
    return a

end Trap

section State

structure Handler where
  /-- How many timer interrupts may come before the next alarm is delivered, if one ever is. -/
  grace : Option Nat

/-- The system with the alarms of its processes. The last two fields are not in the kernel: the
handlers in progress, and the frames that were allocated for the alarm of a process and not freed.
-/
structure State where
  system : System
  alarm : Nat → AlarmState
  handling : Nat → Option Handler
  ledger : List (Nat × Nat)

inductive Event
  | system (event : Memory.Event)
  | sigalarm (p : Nat) (user : Context) (n : Int) (handler : Nat)
  | sigreturn (p : Nat) (user : Context)
  | timer (p : Nat) (user : Context)

/-- The interrupts before the next alarm once `sigalarm` has been called. -/
def graceOf (n : Int) : Option Nat :=
  if n > 0 then some (n.toNat + 1) else if n = -1 then some 0 else none

/-- The interrupts before the next alarm once one has been delivered: the counter has to overflow.
-/
def graceAfter (n : Int) : Option Nat :=
  if n > 0 then some (2 ^ 32 - 1) else none

/-- Other parts of the kernel use their own pages and not those of the alarms. -/
def State.Allows (s : State) : Event → Prop
  | .system (.kfree pa) | .system (.fill pa _ _) => ∀ entry ∈ s.ledger, entry.2 ≠ pa
  | _ => True

instance State.decidableAllows (s : State) : (event : Event) → Decidable (s.Allows event)
  | .system (.kfree pa) | .system (.fill pa _ _) =>
    inferInstanceAs (Decidable (∀ entry ∈ s.ledger, entry.2 ≠ pa))
  | .system .kalloc | .system (.userinit _ _) | .system (.fork _ _) | .system (.exec _ _ _)
  | .system (.sbrk _ _) | .system (.reap _) | .system (.store _ _ _ _) | .system (.copyout _ _ _ _)
  | .sigalarm _ _ _ _ | .sigreturn _ _ | .timer _ _ => .isTrue trivial

def cleared : Memory.Event → Option Nat
  | .userinit p _ | .fork _ p | .reap p => some p
  | _ => none

def State.afterSystem (s : State) (event : Memory.Event) (t : System) : State :=
  match cleared event with
  | some p =>
    { s with
      system := t
      alarm := Function.update s.alarm p .unset
      handling := Function.update s.handling p none }
  | none => { s with system := t }

def State.onAlarm (s : State) (p : Nat) (program : Nat → AlarmState → KM AlarmState)
    (next : AlarmState → Kmem → State) : Except Panic (Option State) :=
  match s.system.procs p with
  | none => .ok none
  | some q => (program q.trapframe (s.alarm p) s.system.kmem).map fun (a, k) => some (next a k)

def State.afterSigalarm (s : State) (p : Nat) (a : AlarmState) (k : Kmem) : State :=
  { s with
    system := { s.system with kmem := k }
    alarm := Function.update s.alarm p a
    handling := Function.update s.handling p ((s.handling p).map fun _ => ⟨graceOf a.ticks⟩) }

def State.afterSigreturn (s : State) (p : Nat) (a : AlarmState) (k : Kmem) : State where
  system := { s.system with kmem := k, pages := s.system.pages.erase a.sigalarm }
  alarm := Function.update s.alarm p a
  handling := Function.update s.handling p none
  ledger := s.ledger.filter fun entry => entry ≠ (p, a.sigalarm)

def State.afterTick (s : State) (p : Nat) (a : AlarmState) (k : Kmem) : State :=
  { s with
    system := { s.system with kmem := k }
    alarm := Function.update s.alarm p a
    handling := Function.update s.handling p ((s.handling p).map fun h => ⟨h.grace.map (· - 1)⟩) }

def State.afterAlarm (s : State) (p : Nat) (a : AlarmState) (k : Kmem) : State where
  system := { s.system with kmem := k, pages := a.sigalarm :: s.system.pages }
  alarm := Function.update s.alarm p a
  handling := Function.update s.handling p (some ⟨graceAfter a.ticks⟩)
  ledger := (p, a.sigalarm) :: s.ledger

def State.afterMiss (s : State) (p : Nat) (a : AlarmState) (k : Kmem) : State :=
  { s with
    system := { s.system with kmem := k }
    alarm := Function.update s.alarm p a
    handling := Function.update s.handling p ((s.handling p).map fun _ => ⟨graceAfter a.ticks⟩) }

/-- The state after an event, or the panic that it ends with. -/
def State.perform (layout : Layout) (s : State) : Event → Except Panic (Option State)
  | .system event =>
    if s.system.Allows event then
      (s.system.perform layout event).map fun next => next.map (s.afterSystem event)
    else
      .ok none
  | .sigalarm p user n handler =>
    s.onAlarm p (fun tf a => usertrapSyscall tf user (pure (sysSigalarm a n handler, 0)))
      (s.afterSigalarm p)
  | .sigreturn p user =>
    s.onAlarm p (fun tf a => usertrapSyscall tf user (sysSigreturn tf a)) (s.afterSigreturn p)
  | .timer p user =>
    s.onAlarm p (fun tf a => usertrapTimer tf user a) fun a k =>
      if (s.alarm p).Due then
        if a.sigalarm ≠ 0 then s.afterAlarm p a k else s.afterMiss p a k
      else
        s.afterTick p a k

def State.step (layout : Layout) (s : State) (event : Event) : Option State :=
  if s.Allows event then
    match s.perform layout event with
    | .ok next => next
    | .error _ => none
  else
    none

def State.start (k : Kmem) : State :=
  ⟨System.start k, fun _ => .unset, fun _ => none, []⟩

end State

section Steps

variable {layout : Layout} {s s' : State} {k : Kmem} {tf : Nat} {user : Context} {a a' : AlarmState}

theorem usertrapSyscall_result {call : KM (AlarmState × Nat)}
    (calls : ∀ k, Meets call k (fun result _ => result.1 = a') fun _ => True)
    (ran : usertrapSyscall tf user call k = .ok (a, k')) : a = a' := by
  have meets :
      Meets (usertrapSyscall tf user call) k (fun result _ => result = a') fun _ => True := by
    rw [usertrapSyscall]
    refine meets_any.bind fun _ k₁ _ => meets_any.bind fun _ k₂ _ => (calls k₂).bind
      fun result k₃ same => ?_
    exact meets_any.bind fun _ k₄ _ => meets_pure.mpr same
  exact meets.result ran

theorem sysSigreturn_result :
    Meets (sysSigreturn tf a) k (fun result _ => result.1 = { a with currentTicks := 0 })
    fun _ => True := by
  rw [sysSigreturn]
  split
  · exact meets_throw.mpr trivial
  · exact meets_any.bind fun _ k₁ _ => meets_any.bind fun _ k₂ _ => meets_any.bind
      fun _ k₃ _ => meets_pure.mpr rfl

theorem usertrapTimer_tick (due : ¬ a.Due) (ran : usertrapTimer tf user a k = .ok (a', k')) :
    a' = a.tick := by
  have meets :
      Meets (usertrapTimer tf user a) k (fun result _ => result = a.tick) fun _ => True := by
    rw [usertrapTimer]
    refine meets_any.bind fun _ k₁ _ => ?_
    split
    · rename_i set
      rw [if_neg fun now => due ⟨set, now⟩]
      exact meets_pure.mpr rfl
    · rename_i zero
      rw [meets_pure, AlarmState.tick, if_neg (by omega)]
  exact meets.result ran

theorem usertrapTimer_fired (due : a.Due) (ran : usertrapTimer tf user a k = .ok (a', k')) :
    ∃ frame, a' = a.fired frame := by
  have meets : Meets (usertrapTimer tf user a) k (fun result _ => ∃ frame, result = a.fired frame)
      fun _ => True := by
    rw [usertrapTimer, if_pos due.1, if_pos due.2]
    refine meets_any.bind fun _ k₁ _ => meets_any.bind fun frame k₂ _ => ?_
    split
    · exact meets_any.bind fun _ k₃ _ => meets_any.bind fun _ k₄ _ => meets_any.bind fun _ k₅ _ =>
        meets_pure.mpr ⟨frame, rfl⟩
    · exact meets_pure.mpr ⟨0, rfl⟩
  exact meets.result ran

/-- What the events do, with the programs that have run. -/
inductive State.Steps (layout : Layout) (s : State) : Event → State → Prop
  | system {event t} (allowed : s.Allows (.system event))
      (taken : s.system.step layout event = some t) :
      s.Steps layout (.system event) (s.afterSystem event t)
  | sigalarm {p q user n handler k} (here : s.system.procs p = some q)
      (ran : usertrapSyscall q.trapframe user
        (pure (sysSigalarm (s.alarm p) n handler, 0)) s.system.kmem =
        .ok (sysSigalarm (s.alarm p) n handler, k)) :
      s.Steps layout (.sigalarm p user n handler)
        (s.afterSigalarm p (sysSigalarm (s.alarm p) n handler) k)
  | sigreturn {p q user k} (here : s.system.procs p = some q)
      (ran : usertrapSyscall q.trapframe user (sysSigreturn q.trapframe (s.alarm p)) s.system.kmem =
        .ok ({ s.alarm p with currentTicks := 0 }, k)) :
      s.Steps layout (.sigreturn p user) (s.afterSigreturn p { s.alarm p with currentTicks := 0 } k)
  | tick {p q user k} (here : s.system.procs p = some q) (due : ¬ (s.alarm p).Due)
      (ran : usertrapTimer q.trapframe user (s.alarm p) s.system.kmem = .ok ((s.alarm p).tick, k)) :
      s.Steps layout (.timer p user) (s.afterTick p (s.alarm p).tick k)
  | alarm {p q user frame k} (here : s.system.procs p = some q) (due : (s.alarm p).Due)
      (real : frame ≠ 0)
      (ran : usertrapTimer q.trapframe user (s.alarm p) s.system.kmem =
        .ok ((s.alarm p).fired frame, k)) :
      s.Steps layout (.timer p user) (s.afterAlarm p ((s.alarm p).fired frame) k)
  | miss {p q user k} (here : s.system.procs p = some q) (due : (s.alarm p).Due)
      (ran :
        usertrapTimer q.trapframe user (s.alarm p) s.system.kmem = .ok ((s.alarm p).fired 0, k)) :
      s.Steps layout (.timer p user) (s.afterMiss p ((s.alarm p).fired 0) k)

theorem State.onAlarm_some {program : Nat → AlarmState → KM AlarmState}
    {next : AlarmState → Kmem → State} (done : s.onAlarm p program next = .ok (some s')) :
    ∃ q a k, s.system.procs p = some q ∧
      program q.trapframe (s.alarm p) s.system.kmem = .ok (a, k) ∧
      s' = next a k := by
  unfold onAlarm at done
  split at done
  · cases done
  · rename_i q here
    cases ran : program q.trapframe (s.alarm p) s.system.kmem with
    | error e =>
      rw [ran] at done
      cases done
    | ok result =>
      rw [ran] at done
      cases done
      exact ⟨q, result.1, result.2, here, ran, rfl⟩

theorem State.steps_of_step {event : Event} (taken : s.step layout event = some s') :
    s.Steps layout event s' := by
  unfold step at taken
  split at taken
  case isFalse => cases taken
  rename_i allowed
  split at taken
  case h_2 => cases taken
  rename_i outcome done
  subst taken
  cases event with
  | system event =>
    rw [perform] at done
    split at done
    · rename_i fine
      cases ended : s.system.perform layout event with
      | error e =>
        rw [ended] at done
        cases done
      | ok next =>
        rw [ended] at done
        obtain ⟨t, rfl, rfl⟩ := Option.map_eq_some_iff.mp (Except.ok.inj done)
        refine .system allowed ?_
        rw [System.step, if_pos fine, ended]
    · cases done
  | sigalarm p user n handler =>
    rw [perform] at done
    obtain ⟨q, a, k, here, ran, rfl⟩ := onAlarm_some done
    obtain rfl := usertrapSyscall_result (fun _ => meets_pure.mpr rfl) ran
    exact .sigalarm here ran
  | sigreturn p user =>
    rw [perform] at done
    obtain ⟨q, a, k, here, ran, rfl⟩ := onAlarm_some done
    obtain rfl := usertrapSyscall_result (fun _ => sysSigreturn_result) ran
    exact .sigreturn here ran
  | timer p user =>
    rw [perform] at done
    obtain ⟨q, a, k, here, ran, rfl⟩ := onAlarm_some done
    by_cases due : (s.alarm p).Due
    · obtain ⟨frame, rfl⟩ := usertrapTimer_fired due ran
      rw [if_pos due]
      by_cases real : frame ≠ 0
      · rw [if_pos (show ((s.alarm p).fired frame).sigalarm ≠ 0 from real)]
        exact .alarm here due real ran
      · obtain rfl := not_not.mp real
        exact .miss here due ran
    · obtain rfl := usertrapTimer_tick due ran
      rw [if_neg due]
      exact .tick here due ran

end Steps

section Boot

def bootState (layout : Layout) (events : List Event) : Option State :=
  (kinit layout ⟨fun _ => 0, fun _ => 0, 0⟩).toOption.bind fun booted =>
    exec (State.step layout) (State.start booted.2) events

theorem bootState_some {layout : Layout} {events : List Event} {s : State}
    (ended : bootState layout events = some s) :
    ∃ k, kinit layout ⟨fun _ => 0, fun _ => 0, 0⟩ = .ok ((), k) ∧
      exec (State.step layout) (State.start k) events = some s := by
  unfold bootState at ended
  cases booted : kinit layout ⟨fun _ => 0, fun _ => 0, 0⟩ with
  | error e =>
    rw [booted] at ended
    cases ended
  | ok result =>
    rw [booted] at ended
    exact ⟨result.2, rfl, ended⟩

end Boot

end EnhancedXv6.Alarm
