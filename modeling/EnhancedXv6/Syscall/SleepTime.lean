import EnhancedXv6.Foundation.Run

/-! `sys_sleep` and the clock. The loop of `sys_sleep` tests `ticks` and goes to sleep with
`tickslock` held, and so does `clockintr` change `ticks` and wake the sleepers, so each of
them is one step. -/

namespace EnhancedXv6.Syscall

open Foundation List

inductive Rest where
  | asleep
  | ready
  | returned (value : Int)
  deriving DecidableEq, Repr

/-- A call of `sys_sleep`. `elapsed` counts the ticks since the call, and `runs` has for each time
that the process ran in the loop the ticks that had elapsed and whether it left the loop. -/
structure Sleeper where
  ticks : Nat
  ticks0 : Nat
  killed : Bool
  rest : Rest
  elapsed : Nat
  runs : List (Nat × Bool)
  deriving DecidableEq, Repr

/-- `ticks - ticks0 < n`, a comparison of a `uint` with an `int`. -/
def Sleeper.early (s : Sleeper) (n : Int) : Bool :=
  (s.ticks + 2 ^ 32 - s.ticks0) % 2 ^ 32 < (n % 2 ^ 32).toNat

/-- A round of the loop of `sys_sleep`. -/
def Sleeper.round (s : Sleeper) (n : Int) : Sleeper :=
  if s.early n then
    if s.killed then { s with rest := .returned (-1), runs := (s.elapsed, true) :: s.runs }
    else { s with rest := .asleep, runs := (s.elapsed, false) :: s.runs }
  else { s with rest := .returned 0, runs := (s.elapsed, true) :: s.runs }

/-- The call of `sys_sleep`, up to the first sleep or the return. -/
def sysSleep (n : Int) (ticks : Nat) : Sleeper :=
  Sleeper.round
    { ticks := ticks, ticks0 := ticks, killed := false, rest := .ready, elapsed := 0, runs := [] } n

def Sleeper.wakeup (s : Sleeper) : Sleeper :=
  { s with rest := if s.rest = .asleep then .ready else s.rest }

/-- `clockintr`, another `wakeup` of the channel, `kill`, and the dispatch of the process. -/
inductive SleepEvent where
  | tick
  | wakeup
  | kill
  | dispatch
  deriving DecidableEq, Repr

def Sleeper.step (n : Int) (s : Sleeper) : SleepEvent → Option Sleeper
  | .tick => some { s with ticks := (s.ticks + 1) % 2 ^ 32, elapsed := s.elapsed + 1 }.wakeup
  | .wakeup => some s.wakeup
  | .kill => some { s with killed := true }.wakeup
  | .dispatch => if s.rest = .ready then some (s.round n) else none

/-- A run at which the process leaves the loop if and only if it has slept for `n` ticks, and not at
all if `n` is negative. -/
def OnTime (n : Int) (run : Nat × Bool) : Prop := run.2 = true ↔ max n 0 ≤ run.1

/-- Every time that the process ran, it returned 0 if the time had come, and slept on otherwise. -/
def Sleeper.Punctual (s : Sleeper) (n : Int) : Prop :=
  (∀ run ∈ s.runs, OnTime n run) ∧ ∀ value, s.rest = .returned value → value = 0

/-- The process is not dispatched at a time that the counter cannot tell from an earlier one. -/
def Told (n : Int) (s : Sleeper) : SleepEvent → Prop
  | .dispatch => n ≤ s.elapsed → n ≤ (s.elapsed % 2 ^ 32 : Nat)
  | _ => True

instance decidableTold (n : Int) (s : Sleeper) : (event : SleepEvent) → Decidable (Told n s event)
  | .dispatch => inferInstanceAs (Decidable (_ → _))
  | .tick => .isTrue trivial
  | .wakeup => .isTrue trivial
  | .kill => .isTrue trivial

section Run

variable {s t : Sleeper} {n : Int}

/-- `ticks` is as many steps ahead as have elapsed, and the process has not been killed. -/
structure Sleeper.Valid (s : Sleeper) : Prop where
  start : s.ticks0 < 2 ^ 32
  ticks : s.ticks = (s.ticks0 + s.elapsed) % 2 ^ 32
  alive : s.killed = false
  zero : ∀ value, s.rest = .returned value → value = 0

theorem Sleeper.Valid.early (valid : s.Valid) (n : Int) :
    s.early n = decide (s.elapsed % 2 ^ 32 < (n % 2 ^ 32).toNat) := by
  have difference : (s.ticks + 2 ^ 32 - s.ticks0) % 2 ^ 32 = s.elapsed % 2 ^ 32 := by
    have start := valid.start
    have ticks := valid.ticks
    omega
  rw [Sleeper.early, difference]

theorem Sleeper.Valid.round (valid : s.Valid) (n : Int) :
    (s.round n).Valid ∧ (s.round n).runs = (s.elapsed, !s.early n) :: s.runs := by
  unfold Sleeper.round
  by_cases early : s.early n = true
  · rw [if_pos early, if_neg (by rw [valid.alive]; exact Bool.false_ne_true), early]
    exact ⟨⟨valid.start, valid.ticks, valid.alive, fun value same => Rest.noConfusion same⟩, rfl⟩
  · rw [if_neg early, Bool.eq_false_of_not_eq_true early]
    exact ⟨⟨valid.start, valid.ticks, valid.alive, fun value same => (Rest.returned.inj same).symm⟩,
      rfl⟩

theorem Sleeper.Valid.wakeup (valid : s.Valid) : s.wakeup.Valid := by
  refine ⟨valid.start, valid.ticks, valid.alive, fun value same => ?_⟩
  change (if s.rest = .asleep then Rest.ready else s.rest) = .returned value at same
  split at same
  · cases same
  · exact valid.zero value same

/-- For a request that is not negative a run is on time unless the counter has come around. -/
theorem onTime_iff (positive : 0 ≤ n) (bounded : n < 2 ^ 31) (elapsed : Nat) :
    OnTime n (elapsed, !decide (elapsed % 2 ^ 32 < (n % 2 ^ 32).toNat)) ↔
      (n ≤ elapsed → n ≤ (elapsed % 2 ^ 32 : Nat)) := by
  have same : ((n % 2 ^ 32).toNat : Int) = n := by omega
  unfold OnTime
  rw [max_eq_left positive]
  simp only [Bool.not_eq_true', decide_eq_false_iff_not, not_lt]
  omega

/-- One step adds a run where it is a dispatch, and nothing else changes the runs. -/
theorem step_runs {event : SleepEvent} (positive : 0 ≤ n) (bounded : n < 2 ^ 31) (valid : s.Valid)
    (spared : event ≠ .kill) (taken : s.step n event = some t) :
    t.Valid ∧
    ((∀ run ∈ t.runs, OnTime n run) ↔ (∀ run ∈ s.runs, OnTime n run) ∧ Told n s event) := by
  cases event with
  | kill => exact absurd rfl spared
  | tick =>
    cases taken
    refine ⟨Sleeper.Valid.wakeup ⟨valid.start, ?_, valid.alive, valid.zero⟩,
      (and_iff_left trivial).symm⟩
    change (s.ticks + 1) % 2 ^ 32 = (s.ticks0 + (s.elapsed + 1)) % 2 ^ 32
    rw [valid.ticks, Nat.mod_add_mod, Nat.add_assoc]
  | wakeup =>
    cases taken
    exact ⟨valid.wakeup, (and_iff_left trivial).symm⟩
  | dispatch =>
    obtain ⟨_, same⟩ := Option.ite_none_right_eq_some.mp taken
    cases same
    obtain ⟨after, runs⟩ := valid.round n
    refine ⟨after, ?_⟩
    rw [runs, forall_mem_cons, valid.early, onTime_iff positive bounded, and_comm]
    exact Iff.rfl

theorem run_told (events : List SleepEvent) (positive : 0 ≤ n) (bounded : n < 2 ^ 31)
    (valid : s.Valid)
    (spared : ∀ event ∈ events, event ≠ .kill) (run : exec (Sleeper.step n) s events = some t) :
    t.Valid ∧ ((∀ run ∈ t.runs, OnTime n run) ↔
      (∀ run ∈ s.runs, OnTime n run) ∧ Along (Sleeper.step n) (Told n) s events) := by
  induction events generalizing s with
  | nil =>
    cases run
    exact ⟨valid, (and_iff_left trivial).symm⟩
  | cons event rest ih =>
    obtain ⟨next, taken, remaining⟩ := exec_cons run
    rw [forall_mem_cons] at spared
    obtain ⟨valid', first⟩ := step_runs positive bounded valid spared.1 taken
    obtain ⟨final, later⟩ := ih valid' spared.2 remaining
    refine ⟨final, later.trans ?_⟩
    rw [first, and_assoc]
    refine and_congr_right fun _ => and_congr_right
      fun _ => ⟨fun along other same => ?_, fun along => along next taken⟩
    cases taken.symm.trans same
    exact along

theorem run_kept (events : List SleepEvent) (run : exec (Sleeper.step n) s events = some t) :
    s.runs ⊆ t.runs := by
  induction events generalizing s with
  | nil =>
    cases run
    exact List.Subset.refl _
  | cons event rest ih =>
    obtain ⟨next, taken, remaining⟩ := exec_cons run
    refine List.Subset.trans ?_ (ih remaining)
    cases event with
    | tick | wakeup | kill =>
      cases taken
      exact List.Subset.refl _
    | dispatch =>
      obtain ⟨_, same⟩ := Option.ite_none_right_eq_some.mp taken
      cases same
      unfold Sleeper.round
      split
      · split <;> exact subset_cons_self _ _
      · exact subset_cons_self _ _

end Run

/-- `sys_sleep` ends in time in exactly the runs with a request that is not negative in which the
process is never dispatched so late that the counter has come around. -/
theorem sys_sleep_punctual_iff (n : Int) (low : -2 ^ 31 ≤ n) (high : n < 2 ^ 31) (ticks : Nat)
    (small : ticks < 2 ^ 32) (events : List SleepEvent) (spared : ∀ event ∈ events, event ≠ .kill)
    (t : Sleeper) (run : exec (Sleeper.step n) (sysSleep n ticks) events = some t) :
    t.Punctual n ↔ 0 ≤ n ∧ Along (Sleeper.step n) (Told n) (sysSleep n ticks) events := by
  have start : Sleeper.Valid ⟨ticks, ticks, false, .ready, 0, []⟩ :=
    ⟨small, (Nat.mod_eq_of_lt small).symm, rfl, fun _ same => Rest.noConfusion same⟩
  obtain ⟨valid, runs⟩ := start.round n
  rw [start.early] at runs
  by_cases positive : 0 ≤ n
  · have first : ∀ run ∈ (sysSleep n ticks).runs, OnTime n run := by
      rw [sysSleep, runs, forall_mem_cons, onTime_iff positive high]
      exact ⟨fun _ => by simpa using ‹n ≤ _›, fun _ none => absurd none not_mem_nil⟩
    obtain ⟨final, iff⟩ := run_told (s := sysSleep n ticks) events positive high valid spared run
    unfold Sleeper.Punctual
    rw [iff, and_iff_left final.zero, and_iff_right first, and_iff_right positive]
  · -- the first round already sleeps, although no tick has to pass
    refine iff_of_false (fun punctual => ?_) fun both => positive both.1
    have member : (0, !decide (0 % 2 ^ 32 < (n % 2 ^ 32).toNat)) ∈ t.runs := by
      refine run_kept events run ?_
      rw [sysSleep, runs]
      exact mem_cons_self
    have late := (punctual.1 _ member).mpr (by dsimp only; omega)
    simp only [Bool.not_eq_true', decide_eq_false_iff_not, not_lt] at late
    omega

/-- A sleep of two ticks across the wrap of the counter. -/
theorem sys_sleep_punctual_wrap : ∃ t, exec (Sleeper.step 2) (sysSleep 2 (2 ^ 32 - 1))
    [.tick, .dispatch, .wakeup, .dispatch, .tick, .dispatch] = some t ∧ t.rest = .returned 0 ∧
    t.Punctual 2 := by
  refine ⟨_, rfl, rfl, ?_⟩
  refine (sys_sleep_punctual_iff 2 (by decide) (by decide) (2 ^ 32 - 1) (by decide)
    [.tick, .dispatch, .wakeup, .dispatch, .tick, .dispatch] (by decide) _ rfl).mpr ⟨by decide, ?_⟩
  decide

/-- `sys_sleep(-1)` goes to sleep. -/
theorem sys_sleep_negative :
    (sysSleep (-1) 0).rest = .asleep ∧ ¬ (sysSleep (-1) 0).Punctual (-1) := by
  refine ⟨by decide, fun punctual => ?_⟩
  have early := (punctual.1 (0, false) (by decide)).mpr (by decide)
  cases early

end EnhancedXv6.Syscall
