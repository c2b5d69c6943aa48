import EnhancedXv6.Scheduler.Dispatch
import EnhancedXv6.Scheduler.Moves

/-! One CPU that runs `scheduler`. It scans the table slot by slot with interrupts on between
two slots, so that the clock and the devices wake processes while it scans; the calls of a
process come from the one that it has switched to. -/

namespace EnhancedXv6.Scheduler

open Foundation Process Option

variable {n : Nat}

structure Uniprocessor (n : Nat) where
  kernel : Mlfq n
  cpu : Cpu n

/-- `interrupt` is a device interrupt that wakes the sleepers on a channel. -/
inductive UniCall (n : Nat) where
  | begin
  | scan
  | dispatch
  | call (call : MlfqCall n)
  | interrupt (chan : Chan)
  | tick

/-- What the process in a slot can call: the sections of others come from the scheduler and
from the clock, and `mlfq_yield` exists in one build only. -/
def MlfqCall.by (policy : Policy) (caller : Fin n) : MlfqCall n → Bool
  | .allocproc _ | .runnable _ | .freeproc _ | .kill _ => true
  | .mlfqYield slot => policy == .mlfq && slot == caller
  | .yield slot | .sleep slot _ | .exit slot _ => slot == caller
  | .wakeup slot _ => slot == some caller
  | .tick | .dispatch _ => false

/-- The CPU goes on with its process unless that one has given it up. -/
def Cpu.resume (cpu : Cpu n) (kernel : Mlfq n) (caller : Fin n) : Cpu n :=
  if (kernel.proc caller).state = .running then cpu else {}

/-- One scan round, or the dispatch after the last one. -/
def Uniprocessor.schedule (policy : Policy) (s : Uniprocessor n) : Option (Uniprocessor n) :=
  match s.cpu.pc with
  | .scan next selected =>
    if inside : next < n then
      some { s with
        cpu := { s.cpu with
          pc := .scan (next + 1) (policy.select s.kernel.proc ⟨next, inside⟩ selected) } }
    else none
  | _ => none

def Uniprocessor.dispatch (s : Uniprocessor n) : Option (Uniprocessor n) :=
  match s.cpu.pc with
  | .scan next selected =>
    if next = n then
      match selected with
      | none => some { s with cpu := { s.cpu with pc := .start } }
      | some slot =>
        some { kernel := s.kernel.set slot { s.kernel.proc slot with state := .running }
               cpu := { proc := some slot, pc := .swtched } }
    else none
  | _ => none

def Uniprocessor.step (policy : Policy) (beyond : Int → Int) (s : Uniprocessor n) :
    UniCall n → Option (Uniprocessor n)
  | .begin =>
    if s.cpu.pc = .start then
      some { s with cpu := { s.cpu with pc := .scan 0 (policy.initial s.cpu) } }
    else
      none
  | .scan => s.schedule policy
  | .dispatch => s.dispatch
  | .call call =>
    match s.cpu.proc with
    | none => none
    | some caller =>
      if call.by policy caller then
        (s.kernel.step beyond call).map fun kernel =>
          { kernel := kernel, cpu := s.cpu.resume kernel caller }
      else none
  | .interrupt chan =>
    (s.kernel.step beyond (.wakeup s.cpu.proc chan)).map fun kernel => { s with kernel := kernel }
  | .tick => some { s with kernel := clockintr s.kernel }

/-- The process that `userinit` makes in cleared memory. -/
def initProc : Proc := { (({} : Proc).found 1 0).started 0 with state := .runnable }

/-- The CPU as it enters `scheduler`, with the process of `userinit` in the table. -/
def Uniprocessor.boot (first : Fin n) : Uniprocessor n where
  kernel := { (Mlfq.boot n).set first initProc with nextpid := 2 }
  cpu := {}

theorem Uniprocessor.boot_proc (first slot : Fin n) :
    (boot first).kernel.proc slot = if slot = first then initProc else {} :=
  Mlfq.set_proc _ _ _ _

def wholePass : List (UniCall nproc) :=
  .begin :: (List.replicate nproc .scan ++ [.dispatch])

def secondSlot : Fin nproc := ⟨1, by decide⟩

def thirdSlot : Fin nproc := ⟨2, by decide⟩

/-- The steps, one case for each way that the CPU can go on. -/
inductive Uniprocessor.Steps (policy : Policy) (beyond : Int → Int) (s : Uniprocessor n) :
    UniCall n → Uniprocessor n → Prop where
  | begin : s.cpu.pc = .start →
    Steps policy beyond s .begin
      { s with cpu := { s.cpu with pc := .scan 0 (policy.initial s.cpu) } }
  | scan : s.cpu.pc = .scan slot.val selected → Steps policy beyond s .scan
    { s with
      cpu := { s.cpu with pc := .scan (slot.val + 1) (policy.select s.kernel.proc slot selected) } }
  | idle : s.cpu.pc = .scan n none →
    Steps policy beyond s .dispatch { s with cpu := { s.cpu with pc := .start } }
  | dispatch : s.cpu.pc = .scan n (some slot) → Steps policy beyond s .dispatch
    { kernel := s.kernel.set slot { s.kernel.proc slot with state := .running }
      cpu := { proc := some slot, pc := .swtched } }
  | call : s.cpu.proc = some caller → call.by policy caller = true →
    s.kernel.step beyond call = some after →
    Steps policy beyond s (.call call) { kernel := after, cpu := s.cpu.resume after caller }
  | interrupt : s.kernel.step beyond (.wakeup s.cpu.proc chan) = some after →
    Steps policy beyond s (.interrupt chan) { s with kernel := after }
  | tick : Steps policy beyond s .tick { s with kernel := clockintr s.kernel }

theorem Uniprocessor.steps_of_step {s t : Uniprocessor n} {call : UniCall n}
    (taken : s.step policy beyond call = some t) : Uniprocessor.Steps policy beyond s call t := by
  cases call with
  | begin =>
    obtain ⟨start, begun⟩ := ite_none_right_eq_some.mp taken
    cases begun
    exact .begin start
  | scan =>
    simp only [step, schedule] at taken
    split at taken
    next next selected pc =>
      split at taken
      next inside =>
        cases taken
        have here : s.cpu.pc = .scan (⟨next, inside⟩ : Fin n).val selected := pc
        exact .scan here
      next => cases taken
    next => cases taken
  | dispatch =>
    simp only [step, dispatch] at taken
    split at taken
    next next selected pc =>
      split at taken
      next last =>
        subst next
        cases selected with
        | none =>
          cases taken
          exact .idle pc
        | some slot =>
          cases taken
          exact .dispatch pc
      next => cases taken
    next => cases taken
  | call call =>
    simp only [step] at taken
    split at taken
    next => cases taken
    next caller runs =>
      obtain ⟨allowed, made⟩ := ite_none_right_eq_some.mp taken
      obtain ⟨kernel, called, rfl⟩ := map_eq_some_iff.mp made
      exact .call runs allowed called
  | interrupt chan =>
    rw [step] at taken
    obtain ⟨kernel, woken, rfl⟩ := map_eq_some_iff.mp taken
    exact .interrupt woken
  | tick =>
    cases taken
    exact .tick

/-- A CPU that has switched to a process is not in the scheduler. -/
def Uniprocessor.Placed (s : Uniprocessor n) : Prop :=
  s.cpu.proc ≠ none → s.cpu.pc = .swtched

theorem Uniprocessor.Placed.step {s t : Uniprocessor n} {call : UniCall n} (placed : s.Placed)
    (steps : Uniprocessor.Steps policy beyond s call t) : t.Placed := by
  have nobody : s.cpu.pc ≠ .swtched → s.cpu.proc = none :=
    fun elsewhere => by_contra fun runs => elsewhere (placed runs)
  cases steps with
  | interrupt | tick => exact placed
  | begin pc | scan pc | idle pc => exact fun runs => absurd (nobody (by simp [pc])) runs
  | dispatch => exact fun _ => rfl
  | call =>
    unfold Cpu.resume
    split
    · exact placed
    · exact fun runs => absurd rfl runs

theorem Uniprocessor.Placed.initial {s : Uniprocessor n} {policy : Policy} (placed : s.Placed)
    (start : s.cpu.pc = .start) : policy.initial s.cpu = none := by
  cases policy with
  | mlfq => rfl
  | fcfs => exact by_contra fun runs => absurd (placed runs) (by simp [start])

section Scan

variable {α : Type*} [LinearOrder α] {key : Fin n → α} {late : Fin n → Prop}

/-- Of the waiting processes whose slots a scan has passed, the selected one is the least by
some key, apart from those that came too late for it. -/
structure Selects (key : Fin n → α) (late : Fin n → Prop) (table : Table n) (next : Nat)
    (selected : Option (Fin n)) : Prop where
  chosen : ∀ best, selected = some best → (table best).state = .runnable ∧ best.val < next
  covers : ∀ other : Fin n, other.val < next → (table other).state = .runnable →
    late other ∨ ∃ best, selected = some best ∧ key best ≤ key other

theorem selects_start (table : Table n) : Selects key late table 0 none where
  chosen := fun _ none => absurd none (by simp)
  covers := fun _ below => absurd below (Nat.not_lt_zero _)

/-- One round of the scan, with a comparison that agrees with the key. -/
theorem Selects.scan {policy : Policy} {table : Table n} {slot : Fin n}
    (selects : Selects key late table slot.val selected)
    (compares : ∀ best, best < slot → (table best).state = .runnable →
      (table slot).state = .runnable →
      (policy.better (table slot) (table best) = true ↔ key slot < key best)) :
    Selects key late table (slot.val + 1) (policy.select table slot selected) := by
  obtain ⟨chosen, covers⟩ := selects
  have within : ∀ other : Fin n, other.val < slot.val + 1 →
      other.val < slot.val ∨ other = slot := by
    intro other below
    rw [← Fin.val_inj]
    omega
  cases selected with
  | none =>
    have nobody : ∀ other : Fin n, other.val < slot.val → (table other).state = .runnable →
        late other := by
      intro other below waits
      obtain came | ⟨_, absent, _⟩ := covers other below waits
      · exact came
      · cases absent
    by_cases waits : (table slot).state = .runnable
    · rw [Policy.select, if_pos waits]
      refine ⟨fun best same => ?_, fun other below waiting => ?_⟩
      · cases same
        exact ⟨waits, Nat.lt_succ_self _⟩
      · obtain less | same := within other below
        · exact .inl (nobody other less waiting)
        · exact .inr ⟨slot, rfl, by rw [same]⟩
    · rw [Policy.select, if_neg waits]
      refine ⟨fun best absent => absurd absent (by simp), fun other below waiting => ?_⟩
      obtain less | same := within other below
      · exact .inl (nobody other less waiting)
      · exact absurd (same ▸ waiting) waits
  | some best =>
    obtain ⟨waited, before⟩ := chosen best rfl
    have least : ∀ other : Fin n, other.val < slot.val → (table other).state = .runnable →
        late other ∨ key best ≤ key other := by
      intro other below waits
      obtain came | ⟨_, same, less⟩ := covers other below waits
      · exact .inl came
      · cases same
        exact .inr less
    by_cases better : (table slot).state = .runnable ∧
      policy.better (table slot) (table best) = true
    · have smaller := (compares best before waited better.1).mp better.2
      rw [Policy.select, if_pos better]
      refine ⟨fun best same => ?_, fun other below waiting => ?_⟩
      · cases same
        exact ⟨better.1, Nat.lt_succ_self _⟩
      · obtain less | same := within other below
        · obtain came | above := least other less waiting
          · exact .inl came
          · exact .inr ⟨slot, rfl, smaller.le.trans above⟩
        · exact .inr ⟨slot, rfl, by rw [same]⟩
    · rw [Policy.select, if_neg better]
      refine ⟨fun other same => ?_, fun other below waiting => ?_⟩
      · cases same
        exact ⟨waited, Nat.lt_succ_of_lt before⟩
      · obtain less | same := within other below
        · obtain came | above := least other less waiting
          · exact .inl came
          · exact .inr ⟨best, rfl, above⟩
        · subst other
          refine .inr ⟨best, rfl, le_of_not_gt fun smaller => ?_⟩
          exact better ⟨waiting, (compares best before waited waiting).mpr smaller⟩

end Scan

end EnhancedXv6.Scheduler
