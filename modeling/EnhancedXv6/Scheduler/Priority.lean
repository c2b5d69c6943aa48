import EnhancedXv6.Scheduler.Clock

namespace EnhancedXv6.Scheduler

open Foundation Process Option

variable {n : Nat} {s t : Mlfq n} {slot : Fin n}

def FitsInt (value : Int) : Prop := -2 ^ 31 ≤ value ∧ value < 2 ^ 31

theorem wrapInt_eq (fits : FitsInt value) : wrapInt value = value :=
  Int.bmod_eq_of_le (by have := fits.1; omega) (by have := fits.2; omega)

theorem fitsInt_wrapInt (value : Int) : FitsInt (wrapInt value) := by
  have lower : -((2 ^ 32 : Nat) / 2 : Int) ≤ wrapInt value := Int.le_bmod (by decide)
  have upper : wrapInt value < ((2 ^ 32 : Nat) + 1) / 2 := Int.bmod_lt (by decide)
  exact ⟨by omega, by omega⟩

section Arithmetic

def exactBehaviour (p : Proc) : Int :=
  (50 * (3 * p.runTime - p.waitTime - p.sleepTime)).tdiv (p.runTime + p.waitTime + p.sleepTime + 1)

def exactPriority (p : Proc) : Int :=
  min (max (exactBehaviour p) 0 + p.priority) 100

/-- The results of the operations of `sched_pbs`, over the integers. -/
def intermediates (p : Proc) : List Int :=
  [3 * p.runTime, 3 * p.runTime - p.waitTime, 3 * p.runTime - p.waitTime - p.sleepTime,
    50 * (3 * p.runTime - p.waitTime - p.sleepTime), p.runTime + p.waitTime,
    p.runTime + p.waitTime + p.sleepTime, p.runTime + p.waitTime + p.sleepTime + 1,
    exactBehaviour p, max (exactBehaviour p) 0 + p.priority]

/-- The computation for a process is the one over the integers. -/
structure ComputesExactly (p : Proc) : Prop where
  fits : ∀ value ∈ intermediates p, FitsInt value
  divides : p.runTime + p.waitTime + p.sleepTime + 1 ≠ 0
  exact : dynamicPriority p = exactPriority p
  range : 0 ≤ dynamicPriority p ∧ dynamicPriority p ≤ 100

/-- The ticks of running that the product has room for. -/
def runRoom : Int := 14316557

/-- The ticks of waiting and sleeping that it has room for. -/
def waitRoom : Int := 42949672

structure Counted (p : Proc) : Prop where
  run : 0 ≤ p.runTime
  wait : 0 ≤ p.waitTime
  sleep : 0 ≤ p.sleepTime
  ran : p.runTime ≤ runRoom
  waited : p.waitTime + p.sleepTime ≤ waitRoom

def PriorityInside (p : Proc) : Prop := 0 ≤ p.priority ∧ p.priority ≤ 100

theorem recentBehaviour_eq (fits : ∀ value ∈ intermediates p, FitsInt value)
    (divides : p.runTime + p.waitTime + p.sleepTime + 1 ≠ 0) :
    recentBehaviour p = exactBehaviour p := by
  simp only [intermediates, List.forall_mem_cons] at fits
  obtain ⟨triple, less, lesser, product, two, three, divisor, quotient, -⟩ := fits
  rw [recentBehaviour, wrapInt_eq triple, wrapInt_eq less, wrapInt_eq lesser, wrapInt_eq two,
    wrapInt_eq three, wrapInt_eq divisor, Int.mul_comm _ 50, wrapInt_eq product, divw,
    if_neg divides]
  exact wrapInt_eq quotient

theorem dynamicPriority_eq (fits : ∀ value ∈ intermediates p, FitsInt value)
    (divides : p.runTime + p.waitTime + p.sleepTime + 1 ≠ 0) :
    dynamicPriority p = exactPriority p := by
  have sum : FitsInt (max (exactBehaviour p) 0 + p.priority) := fits _ (by simp [intermediates])
  have raised :
      (if exactBehaviour p < 0 then 0 else exactBehaviour p) = max (exactBehaviour p) 0 := by
    split <;> omega
  rw [dynamicPriority, recentBehaviour_eq fits divides, raised, wrapInt_eq sum, exactPriority]
  split <;> omega

theorem tdiv_within (positive : 0 < d) (low : -(l * d) ≤ x) (high : x ≤ h * d) (least : 0 ≤ l)
    (most : 0 ≤ h) : -l ≤ Int.tdiv x d ∧ Int.tdiv x d ≤ h := by
  obtain nonneg | negative := le_total 0 x
  · rw [Int.tdiv_eq_ediv_of_nonneg nonneg]
    have := Int.ediv_nonneg nonneg positive.le
    exact ⟨by omega, Int.ediv_le_of_le_mul positive high⟩
  · have opposite : 0 ≤ -x := by omega
    have bound : -x / d ≤ l := Int.ediv_le_of_le_mul positive (by omega)
    have := Int.ediv_nonneg opposite positive.le
    rw [← neg_neg x, Int.neg_tdiv, Int.tdiv_eq_ediv_of_nonneg opposite]
    omega

theorem Counted.quotient (counted : Counted p) :
    -50 ≤ exactBehaviour p ∧ exactBehaviour p ≤ 150 := by
  obtain ⟨run, wait, sleep, -, -⟩ := counted
  exact tdiv_within (by omega) (by omega) (by omega) (by decide) (by decide)

theorem Counted.fits (counted : Counted p) (inside : PriorityInside p) :
    ∀ value ∈ intermediates p, FitsInt value := by
  obtain ⟨lower, upper⟩ := counted.quotient
  obtain ⟨run, wait, sleep, ran, waited⟩ := counted
  obtain ⟨least, most⟩ := inside
  unfold runRoom at ran
  unfold waitRoom at waited
  simp only [intermediates, List.forall_mem_cons, List.not_mem_nil, false_implies, implies_true,
    and_true, FitsInt]
  omega

theorem Counted.computesExactly (counted : Counted p) (inside : PriorityInside p) :
    ComputesExactly p := by
  have fits := counted.fits inside
  have divides : p.runTime + p.waitTime + p.sleepTime + 1 ≠ 0 := by
    have := counted.run
    have := counted.wait
    have := counted.sleep
    omega
  have exact := dynamicPriority_eq fits divides
  refine ⟨fits, divides, exact, ?_⟩
  have := inside.1
  rw [exact, exactPriority]
  omega

end Arithmetic

section Runs

/-- Every static priority is one of the documented numbers, and the computation for every
process that waits is exact. -/
def Priced (s : Mlfq n) : Prop :=
  ∀ slot, PriorityInside (s.proc slot) ∧
    ((s.proc slot).state = .runnable → ComputesExactly (s.proc slot))

/-- A tick that the times of the process have room for. -/
def HasRoom (p : Proc) : Prop :=
  (p.state = .running → p.runTime < runRoom) ∧
    (p.state = .sleeping ∨ p.state = .runnable → p.waitTime + p.sleepTime < waitRoom)

instance decidableHasRoom (p : Proc) : Decidable (HasRoom p) :=
  inferInstanceAs (Decidable ((p.state = .running → p.runTime < runRoom) ∧
    (p.state = .sleeping ∨ p.state = .runnable → p.waitTime + p.sleepTime < waitRoom)))

/-- Priorities are set to documented numbers, and no process runs, or waits and sleeps, for more
ticks between two dispatches than there is room for. -/
def Moderate (s : Mlfq n) : PbsCall n → Prop
  | .setPriority _ priority pid => (slotOfPid s.proc pid).isSome → 0 ≤ priority ∧ priority ≤ 100
  | .tick => ∀ slot, HasRoom (s.proc slot)
  | .call _ | .schedPbs => True

/-- What every step keeps of a process: its times were counted, and its priority is inside. -/
def Moderated (s : Mlfq n) : Prop :=
  ∀ slot, Counted (s.proc slot) ∧ PriorityInside (s.proc slot)

theorem moderated_congr (same : behaviour q = behaviour p) (holds : Counted p ∧ PriorityInside p) :
    Counted q ∧ PriorityInside q := by
  simp only [behaviour, Prod.mk.injEq] at same
  obtain ⟨run, wait, sleep, priority⟩ := same
  obtain ⟨⟨_, _, _, _, _⟩, least, most⟩ := holds
  exact ⟨⟨by omega, by omega, by omega, by omega, by omega⟩, by omega, by omega⟩

theorem moderated_fresh (fresh : behaviour q = (0, 0, 0, priority)) (least : 0 ≤ priority)
    (most : priority ≤ 100) : Counted q ∧ PriorityInside q := by
  simp only [behaviour, Prod.mk.injEq] at fresh
  obtain ⟨run, wait, sleep, rfl⟩ := fresh
  exact ⟨⟨by omega, by omega, by omega, by simp [run, runRoom], by simp [wait, sleep, waitRoom]⟩,
    least, most⟩

theorem counted_clocked (counted : Counted p) (room : HasRoom p) : Counted (clocked p) := by
  obtain ⟨run, wait, sleep, ran, waited⟩ := counted
  obtain ⟨runs, waits⟩ := room
  unfold runRoom waitRoom at *
  unfold clocked
  split
  next state =>
    have counts : wrapInt (p.runTime + 1) = p.runTime + 1 := wrapInt_eq ⟨by omega, by omega⟩
    have := runs state
    exact ⟨by simp only; omega, wait, sleep, by simp only [runRoom]; omega, waited⟩
  next state =>
    have counts : wrapInt (p.waitTime + 1) = p.waitTime + 1 := wrapInt_eq ⟨by omega, by omega⟩
    have := waits (.inl state)
    exact ⟨run, by simp only; omega, sleep, ran, by simp only [waitRoom]; omega⟩
  next state =>
    have counts : wrapInt (p.sleepTime + 1) = p.sleepTime + 1 := wrapInt_eq ⟨by omega, by omega⟩
    have := waits (.inr state)
    exact ⟨run, wait, by simp only; omega, ran, by simp only [waitRoom]; omega⟩
  all_goals exact ⟨run, wait, sleep, ran, waited⟩

theorem priority_clocked (p : Proc) : (clocked p).priority = p.priority := by
  unfold clocked
  split <;> rfl

theorem Moderated.step {call : PbsCall n} (holds : Moderated s) (moderate : Moderate s call)
    (taken : pbsStep s call = some t) : Moderated t := by
  intro slot
  cases call with
  | call call =>
    obtain ⟨shared, stepped⟩ := ite_none_right_eq_some.mp taken
    obtain same | ⟨_, fresh⟩ | ⟨_, fresh⟩ := behaviour_shared shared stepped slot
    · exact moderated_congr same (holds slot)
    · exact moderated_fresh fresh (by decide) (by decide)
    · exact moderated_fresh fresh (by decide) (by decide)
  | tick =>
    cases taken
    have inside : PriorityInside (clocked (s.proc slot)) := by
      rw [PriorityInside, priority_clocked]
      exact (holds slot).2
    exact moderated_congr (behaviour_wakeupOn _ _ _)
      ⟨counted_clocked (holds slot).1 (moderate slot), inside⟩
  | schedPbs =>
    obtain ⟨scan, passes, rfl⟩ := map_eq_some_iff.mp taken
    obtain same | ⟨_, fresh⟩ := behaviour_pass passes slot
    · exact moderated_congr same (holds slot)
    · exact moderated_fresh fresh (holds slot).2.1 (holds slot).2.2
  | setPriority caller priority pid =>
    obtain ⟨_, stepped⟩ := ite_none_right_eq_some.mp taken
    cases stepped
    have assigned := behaviour_setPriority s caller priority pid slot
    by_cases found : slotOfPid s.proc pid = some slot
    · rw [if_pos found] at assigned
      simp only [behaviour, Prod.mk.injEq] at assigned
      obtain ⟨run, wait, sleep, prio⟩ := assigned
      obtain ⟨⟨_, _, _, _, _⟩, _⟩ := holds slot
      obtain ⟨least, most⟩ := moderate (by rw [found]; rfl)
      refine ⟨⟨by omega, by omega, by omega, by omega, by omega⟩, ?_⟩
      rw [PriorityInside, prio]
      exact ⟨least, most⟩
    · rw [if_neg found] at assigned
      exact moderated_congr assigned (holds slot)

theorem Moderated.priced (holds : Moderated s) : Priced s :=
  fun slot => ⟨(holds slot).2, fun _ => (holds slot).1.computesExactly (holds slot).2⟩

theorem moderated_boot : Moderated (Mlfq.boot n) := by
  intro slot
  have zeroed : behaviour ((Mlfq.boot n).proc slot) = (0, 0, 0, 0) := rfl
  exact moderated_fresh zeroed le_rfl (by decide)

/-- Along every moderate run the priorities stay in their range, and the computation of
`sched_pbs` is the documented one. -/
theorem priced_of_moderate (calls : List (PbsCall n))
    (moderate : Along pbsStep Moderate (Mlfq.boot n) calls) :
    Throughout pbsStep Priced (Mlfq.boot n) calls :=
  (throughout_of_along
    (fun _ _ _ holds met taken => holds.step met taken) moderated_boot moderate).mono
    fun _ holds => holds.priced

instance decidableModerate (s : Mlfq n) : (call : PbsCall n) → Decidable (Moderate s call)
  | .setPriority _ priority pid =>
    inferInstanceAs (Decidable ((slotOfPid s.proc pid).isSome → 0 ≤ priority ∧ priority ≤ 100))
  | .tick => inferInstanceAs (Decidable (∀ slot, HasRoom (s.proc slot)))
  | .call _ | .schedPbs => .isTrue trivial

/-- The first process runs for a tick and sets its own priority. -/
def ownPriorityRun (priority : Int) : List (PbsCall nproc) :=
  [.call (.allocproc firstSlot), .call (.runnable firstSlot), .schedPbs, .tick,
    .setPriority firstSlot priority 1]

theorem priced_ownPriorityRun : Throughout pbsStep Priced (Mlfq.boot nproc) (ownPriorityRun 30) :=
  priced_of_moderate (ownPriorityRun 30) (by decide +kernel)

/-- `sys_set_priority` does not look at the number. -/
theorem not_priced_ownPriorityRun :
    ¬ Throughout pbsStep Priced (Mlfq.boot nproc) (ownPriorityRun 1000) := by
  intro holds
  have ends : (exec pbsStep (Mlfq.boot nproc) (ownPriorityRun 1000)).map
      (fun s => (s.proc firstSlot).priority) = some 1000 := by decide +kernel
  obtain ⟨last, ran, priority⟩ := map_eq_some_iff.mp ends
  have most := (holds.final ran firstSlot).1.2
  omega

end Runs

section Reset

/-- The call leaves the process in the slot where it is, lets no time pass, and is not a
pass that compares it. -/
def Undisturbed (slot : Fin n) (s : Mlfq n) : PbsCall n → Prop
  | .call call => call ≠ .allocproc slot ∧ call ≠ .freeproc slot
  | .tick => False
  | .schedPbs => (s.proc slot).state ≠ .runnable
  | .setPriority _ _ pid => slotOfPid s.proc pid ≠ some slot

theorem behaviour_undisturbed {call : PbsCall n} (undisturbed : Undisturbed slot s call)
    (taken : pbsStep s call = some t) : behaviour (t.proc slot) = behaviour (s.proc slot) := by
  cases call with
  | call call =>
    obtain ⟨shared, stepped⟩ := ite_none_right_eq_some.mp taken
    obtain same | ⟨found, _⟩ | ⟨freed, _⟩ := behaviour_shared shared stepped slot
    · exact same
    · exact absurd found undisturbed.1
    · exact absurd freed undisturbed.2
  | tick => exact undisturbed.elim
  | schedPbs =>
    obtain ⟨scan, passes, rfl⟩ := map_eq_some_iff.mp taken
    obtain same | ⟨waits, _⟩ := behaviour_pass passes slot
    · exact same
    · exact absurd waits undisturbed
  | setPriority caller priority pid =>
    obtain ⟨_, stepped⟩ := ite_none_right_eq_some.mp taken
    cases stepped
    rw [behaviour_setPriority, if_neg undisturbed]

theorem behaviour_undisturbed_run {calls : List (PbsCall n)}
    (undisturbed : Along pbsStep (Undisturbed slot) s calls)
    (ran : exec pbsStep s calls = some t) : behaviour (t.proc slot) = behaviour (s.proc slot) := by
  have kept : Throughout pbsStep
      (fun state => behaviour (state.proc slot) = behaviour (s.proc slot)) s calls :=
    throughout_of_along
      (fun _ _ _ same met taken => (behaviour_undisturbed met taken).trans same) rfl undisturbed
  exact kept.final ran

/-- A pass compares a process that waits with the priority that it computes. -/
theorem dynamicPriority_pass (taken : pbsStep s .schedPbs = some t)
    (waits : (s.proc slot).state = .runnable) :
    (t.proc slot).dynamicPriority = dynamicPriority (s.proc slot) := by
  obtain ⟨scan, passes, rfl⟩ := map_eq_some_iff.mp taken
  obtain rfl := some.inj ((schedPbs_eq s.proc).symm.trans passes)
  simp only [passed, waits, if_true]
  split <;> rfl

theorem compared_undisturbed {u : Mlfq n} {calls : List (PbsCall n)}
    (undisturbed : Along pbsStep (Undisturbed slot) s calls) (ran : exec pbsStep s calls = some t)
    (waits : (t.proc slot).state = .runnable) (compares : pbsStep t .schedPbs = some u) :
    (u.proc slot).dynamicPriority = dynamicPriority (s.proc slot) :=
  (dynamicPriority_pass compares waits).trans
    (dynamicPriority_congr (behaviour_undisturbed_run undisturbed ran))

theorem fitsInt_recentBehaviour (p : Proc) : FitsInt (recentBehaviour p) := by
  unfold recentBehaviour divw
  split
  · exact ⟨by decide, by decide⟩
  · exact fitsInt_wrapInt _

/-- The counters of the process already give what a reset would. -/
def AlreadyReset (p : Proc) (priority : Int) : Prop :=
  max (recentBehaviour p) 0 = 25 ∨
    75 ≤ priority ∧ 100 ≤ max (recentBehaviour p) 0 + priority ∧
    max (recentBehaviour p) 0 + priority < 2 ^ 31

theorem dynamicPriority_reset_iff (least : 0 ≤ p.priority) (most : p.priority ≤ 100) :
    dynamicPriority p = min (p.priority + 25) 100 ↔ AlreadyReset p p.priority := by
  have raised :
      (if recentBehaviour p < 0 then 0 else recentBehaviour p) = max (recentBehaviour p) 0 := by
    split <;> omega
  obtain ⟨_, below⟩ := fitsInt_recentBehaviour p
  simp only [dynamicPriority, raised, AlreadyReset]
  generalize rise : max (recentBehaviour p) 0 = r
  have nonneg : 0 ≤ r := by omega
  have small : r < 2 ^ 31 := by omega
  by_cases fits : r + p.priority < 2 ^ 31
  · rw [wrapInt_eq ⟨by omega, fits⟩]
    split <;> omega
  · -- the sum wraps round to a negative number
    have negative : wrapInt (r + p.priority) < 0 := by
      rw [wrapInt, Int.bmod_def]
      split <;> omega
    split <;> omega

/-- `set_priority` and the creation of a process store the reset value, and the next pass
computes another one from the counters, which they leave or clear. -/
theorem compared_with_reset_iff :
    (∀ (s t u v : Mlfq n) (caller slot : Fin n) (priority pid : Int) (calls : List (PbsCall n)),
      (s.proc slot).state ≠ .unused → slotOfPid s.proc pid = some slot → 0 ≤ priority →
      priority ≤ 100 →
      pbsStep s (.setPriority caller priority pid) = some t →
      Along pbsStep (Undisturbed slot) t calls → exec pbsStep t calls = some u →
      (u.proc slot).state = .runnable → pbsStep u .schedPbs = some v →
      ((v.proc slot).dynamicPriority = min (priority + 25) 100 ↔
        AlreadyReset (s.proc slot) priority)) ∧
    ∀ (s t u v : Mlfq n) (slot : Fin n) (calls : List (PbsCall n)),
      pbsStep s (.call (.allocproc slot)) = some t →
      Along pbsStep (Undisturbed slot) t calls → exec pbsStep t calls = some u →
      (u.proc slot).state = .runnable → pbsStep u .schedPbs = some v →
      (v.proc slot).dynamicPriority = 50 := by
  constructor
  · intro s t u v caller slot priority pid calls _ found least most sets undisturbed ran
      waits compares
    obtain ⟨_, stepped⟩ := ite_none_right_eq_some.mp sets
    cases stepped
    have assigned := behaviour_setPriority s caller priority pid slot
    rw [if_pos found] at assigned
    simp only [behaviour, Prod.mk.injEq] at assigned
    obtain ⟨run, wait, sleep, prio⟩ := assigned
    have reset := dynamicPriority_reset_iff (prio.symm ▸ least) (prio.symm ▸ most)
    have recent : recentBehaviour ((setPriority s caller priority pid).proc slot) =
        recentBehaviour (s.proc slot) := by
      simp only [recentBehaviour, run, wait, sleep]
    rw [prio, AlreadyReset, recent] at reset
    rw [compared_undisturbed undisturbed ran waits compares]
    exact reset
  · intro s t u v slot calls created undisturbed ran waits compares
    rw [compared_undisturbed undisturbed ran waits compares]
    obtain ⟨_, stepped⟩ := ite_none_right_eq_some.mp created
    cases stepped
    have cleared : behaviour
        ((s.set slot (((s.proc slot).found s.nextpid s.ticks).started s.ticks)).proc slot) =
        behaviour { priority := 50 } := by
      rw [Mlfq.set_proc, if_pos rfl]
      rfl
    exact (dynamicPriority_congr cleared).trans (by decide +kernel)

/-- A first process that has run and waited for some ticks since its last dispatch. -/
def ranFor (run wait : Int) : Mlfq nproc where
  proc slot :=
    if slot = firstSlot then
      { state := .running, pid := 1, priority := 50, runTime := run, sleepTime := wait }
    else
      {}
  ticks := 0
  nextpid := 2

theorem compared_with_reset_after_two_of_five :
    (∃ t v, pbsStep (ranFor 2 3) (.setPriority firstSlot 40 1) = some t ∧
      pbsStep t .schedPbs = some v ∧
      (v.proc firstSlot).dynamicPriority = 65) ∧
    ∃ t u v, pbsStep (Mlfq.boot nproc) (.call (.allocproc firstSlot)) = some t ∧
      pbsStep t (.call (.runnable firstSlot)) = some u ∧ pbsStep u .schedPbs = some v ∧
      (v.proc firstSlot).dynamicPriority = 50 := by
  have passes : ∀ s : Mlfq nproc, ∃ t, pbsStep s .schedPbs = some t := fun s =>
    ⟨{ s with proc := passed s.proc (leastWaiting s.proc) }, by rw [pbsStep, schedPbs_eq]; rfl⟩
  constructor
  · obtain ⟨v, pass⟩ := passes (setPriority (ranFor 2 3) firstSlot 40 1)
    refine ⟨_, v, rfl, pass, ?_⟩
    exact (compared_with_reset_iff.1 (ranFor 2 3) _ _ v firstSlot firstSlot 40 1 [] (by decide)
      (by decide +kernel)
      (by decide) (by decide) rfl trivial rfl (by decide +kernel) pass).mpr
        (.inl (by decide +kernel))
  · have ready : ∃ t u, pbsStep (Mlfq.boot nproc) (.call (.allocproc firstSlot)) = some t ∧
        pbsStep t (.call (.runnable firstSlot)) = some u ∧ (u.proc firstSlot).state = .runnable :=
      ⟨_, _, rfl, rfl, by decide⟩
    obtain ⟨t, u, created, made, waits⟩ := ready
    obtain ⟨v, pass⟩ := passes u
    refine ⟨t, u, v, created, made, pass, ?_⟩
    exact compared_with_reset_iff.2 _ t u v firstSlot [.call (.runnable firstSlot)] created
      ⟨⟨nofun, nofun⟩, fun _ _ => trivial⟩ (by rw [exec, made]; rfl) waits pass

/-- A process that was just dispatched is compared with its static priority. -/
theorem compared_with_static_priority :
    (exec pbsStep (ranFor 0 0) [.setPriority firstSlot 40 1, .schedPbs]).map
      (fun s => (s.proc firstSlot).dynamicPriority) = some 40 ∧ (40 : Int) ≠ min (40 + 25) 100 := by
  constructor <;> decide +kernel

end Reset

end EnhancedXv6.Scheduler
