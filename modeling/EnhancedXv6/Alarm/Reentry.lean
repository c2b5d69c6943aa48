import EnhancedXv6.Alarm.Alarm
import EnhancedXv6.Memory.Extent

namespace EnhancedXv6.Alarm

open Function Option
open Foundation EnhancedXv6.Memory

variable {layout : Layout} {s s' : State} {p : Nat} {a : AlarmState} {grace : Option Nat}
  {event : Event}

def AlarmState.Ranged (a : AlarmState) : Prop :=
  (-2 ^ 31 ≤ a.ticks ∧ a.ticks < 2 ^ 31) ∧ -2 ^ 31 ≤ a.currentTicks ∧ a.currentTicks < 2 ^ 31

/-- How many timer interrupts the counters are away from the next alarm. -/
def AlarmState.Awaits (a : AlarmState) : Option Nat → Prop
  | none => a.ticks = 0 ∨ a.ticks < 0 ∧ a.currentTicks ≠ int32 (a.ticks + 1)
  | some g => a.ticks > 0 ∧ g < 2 ^ 32 ∧ int32 (a.currentTicks + g) = int32 (a.ticks + 1) ∨
      a.ticks = -1 ∧ a.currentTicks = 0 ∧ g = 0

section Counters

theorem int32_ranged (n : Int) : -2 ^ 31 ≤ int32 n ∧ int32 n < 2 ^ 31 := by
  unfold int32
  omega

theorem zero_ranged : (-2 ^ 31 : Int) ≤ 0 ∧ (0 : Int) < 2 ^ 31 := by
  decide

theorem AlarmState.Ranged.tick (ranged : a.Ranged) : a.tick.Ranged := by
  unfold AlarmState.tick
  split
  · exact ⟨ranged.1, int32_ranged _⟩
  · exact ranged

theorem AlarmState.Awaits.due_iff (awaits : a.Awaits grace) (ranged : a.Ranged) :
    a.Due ↔ grace = some 0 := by
  obtain ⟨_, low, high⟩ := ranged
  unfold AlarmState.Due
  cases grace with
  | none =>
    constructor
    · rintro ⟨set, now⟩
      rcases awaits with zero | ⟨_, other⟩
      · exact absurd zero set
      · exact absurd now other
    · intro absurd
      cases absurd
  | some g =>
    rw [some_inj]
    rcases awaits with ⟨positive, small, away⟩ | ⟨minus, zero, now⟩
    · unfold int32 at away ⊢
      omega
    · unfold int32
      omega

theorem AlarmState.Awaits.tick (awaits : a.Awaits grace) (ranged : a.Ranged) (due : ¬ a.Due) :
    a.tick.Awaits (grace.map (· - 1)) := by
  have later := (awaits.due_iff ranged).not.mp due
  unfold AlarmState.tick
  cases grace with
  | none =>
    rw [if_neg (by rcases awaits with zero | ⟨negative, _⟩ <;> omega)]
    exact awaits
  | some g =>
    have positive : g ≠ 0 := fun zero => later (by rw [zero])
    rcases awaits with ⟨set, small, away⟩ | ⟨_, _, now⟩
    · rw [if_pos set]
      refine .inl ⟨set, by dsimp only; omega, ?_⟩
      dsimp only
      unfold int32 at away ⊢
      omega
    · exact absurd now positive

theorem awaits_sigalarm (a : AlarmState) (n : Int) (handler : Nat) :
    (sysSigalarm a n handler).Awaits (graceOf (sysSigalarm a n handler).ticks) := by
  unfold sysSigalarm graceOf
  dsimp only
  have := int32_ranged n
  generalize int32 n = ticks at this
  split
  · refine .inl ⟨by assumption, by omega, ?_⟩
    dsimp only
    unfold int32
    omega
  · split
    · exact .inr ⟨by assumption, rfl, rfl⟩
    · by_cases zero : ticks = 0
      · exact .inl zero
      · refine .inr ⟨by dsimp only; omega, ?_⟩
        dsimp only
        unfold int32
        omega

theorem awaits_fired (ranged : a.Ranged) (due : a.Due) (frame : Nat) :
    (a.fired frame).Awaits (graceAfter (a.fired frame).ticks) := by
  obtain ⟨set, now⟩ := due
  obtain ⟨⟨low, high⟩, _⟩ := ranged
  unfold AlarmState.fired graceAfter
  dsimp only
  split
  · refine .inl ⟨by assumption, by omega, ?_⟩
    dsimp only
    rw [now]
    unfold int32
    omega
  · refine .inr ⟨by dsimp only; omega, ?_⟩
    dsimp only
    rw [now]
    unfold int32
    omega

end Counters

section Runs

/-- The alarms count in the range of an `int`, and the grace of each handler is what its counters
say. -/
structure State.Counts (s : State) : Prop where
  ranged : ∀ p, (s.alarm p).Ranged
  awaits : ∀ p h, s.handling p = some h → (s.alarm p).Awaits h.grace

theorem State.Counts.update (counts : s.Counts) {handler : Option Handler}
    (alarm : s'.alarm = update s.alarm p a) (handling : s'.handling = update s.handling p handler)
    (ranged : a.Ranged) (awaits : ∀ h, handler = some h → a.Awaits h.grace) : s'.Counts := by
  constructor
  · intro c
    rw [alarm]
    by_cases same : c = p
    · rw [same, update_self]
      exact ranged
    · rw [update_of_ne same]
      exact counts.ranged c
  · intro c h there
    rw [handling] at there
    rw [alarm]
    by_cases same : c = p
    · rw [same, update_self] at there ⊢
      exact awaits h there
    · rw [update_of_ne same] at there ⊢
      exact counts.awaits c h there

theorem State.Counts.step (counts : s.Counts) (taken : s.step layout event = some s') :
    s'.Counts := by
  cases steps_of_step taken with
  | system allowed taken =>
    unfold afterSystem
    split
    · exact counts.update rfl rfl (by unfold AlarmState.Ranged; decide)
        fun h absurd => by cases absurd
    · exact ⟨counts.ranged, counts.awaits⟩
  | sigalarm here ran =>
    refine counts.update rfl rfl ⟨int32_ranged _, zero_ranged⟩ fun h there => ?_
    obtain ⟨_, _, rfl⟩ := map_eq_some_iff.mp there
    exact awaits_sigalarm _ _ _
  | sigreturn here ran =>
    exact counts.update rfl rfl ⟨(counts.ranged _).1, zero_ranged⟩ fun h absurd => by cases absurd
  | tick here due ran =>
    refine counts.update rfl rfl (counts.ranged _).tick fun h there => ?_
    obtain ⟨h', before, rfl⟩ := map_eq_some_iff.mp there
    exact (counts.awaits _ h' before).tick (counts.ranged _) due
  | alarm here due real ran =>
    refine counts.update rfl rfl ⟨(counts.ranged _).1, int32_ranged _⟩ fun h there => ?_
    cases there
    exact awaits_fired (counts.ranged _) due _
  | miss here due ran =>
    refine counts.update rfl rfl ⟨(counts.ranged _).1, int32_ranged _⟩ fun h there => ?_
    obtain ⟨_, _, rfl⟩ := map_eq_some_iff.mp there
    exact awaits_fired (counts.ranged _) due _

theorem State.Counts.start (k : Kmem) : (start k).Counts := by
  constructor
  · intro p
    exact ⟨zero_ranged, zero_ranged⟩
  · intro p h there
    cases there

/-- A timer interrupt inside a handler does not find the alarm due, and as long as the handler has
not returned the process keeps its saved trapframe. -/
def State.Undisturbed (layout : Layout) (s : State) (event : Event) : Prop :=
  (∀ p user, event = .timer p user → (s.handling p).isSome → ¬ (s.alarm p).Due) ∧
    ∀ s' p, s.step layout event = some s' → (s.handling p).isSome → (s'.handling p).isSome →
      (s'.alarm p).sigalarm = (s.alarm p).sigalarm

/-- A timer interrupt inside a handler comes within its grace: the interval of a `sigalarm` that the
handler has called, or else 2^32 - 1 interrupts. -/
def State.InGrace (s : State) : Event → Prop
  | .timer p _ => ∀ h, s.handling p = some h → h.grace ≠ some 0
  | _ => True

theorem State.Counts.due_iff (counts : s.Counts) {h : Handler} (there : s.handling p = some h) :
    (s.alarm p).Due ↔ h.grace = some 0 :=
  (counts.awaits p h there).due_iff (counts.ranged p)

/-- The pointer to the saved trapframe is changed by an alarm only. -/
theorem State.kept_of_not_due (taken : s.step layout event = some s')
    (quiet : ∀ p user, event = .timer p user → (s.handling p).isSome → ¬ (s.alarm p).Due)
    (before : (s.handling p).isSome) (after : (s'.handling p).isSome) :
    (s'.alarm p).sigalarm = (s.alarm p).sigalarm := by
  have change {c : Nat} {a : AlarmState} (same : a.sigalarm = (s.alarm c).sigalarm) :
      (update s.alarm c a p).sigalarm = (s.alarm p).sigalarm := by
    by_cases here : p = c
    · rw [here, update_self, same]
    · rw [update_of_ne here]
  have other {c : Nat} {a : AlarmState} (apart : p ≠ c) :
      (update s.alarm c a p).sigalarm = (s.alarm p).sigalarm := by
    rw [update_of_ne apart]
  cases steps_of_step taken with
  | @system event t allowed taken =>
    unfold afterSystem at after ⊢
    split
    · rename_i c cleared
      rw [cleared] at after
      refine other ?_
      rintro rfl
      dsimp only at after
      rw [update_self] at after
      cases after
    · rfl
  | sigalarm | sigreturn => exact change rfl
  | tick here due ran =>
    refine change ?_
    unfold AlarmState.tick
    split <;> rfl
  | alarm here due real ran | miss here due ran =>
    refine other ?_
    rintro rfl
    exact quiet _ _ rfl before due

theorem State.Counts.undisturbed_iff (counts : s.Counts) :
    s.Undisturbed layout event ↔ s.InGrace event := by
  have quiet_iff (p : Nat) : ((s.handling p).isSome → ¬ (s.alarm p).Due) ↔
      ∀ h, s.handling p = some h → h.grace ≠ some 0 := by
    constructor
    · intro quiet h there
      rw [Ne, ← counts.due_iff there]
      exact quiet (by rw [there]; rfl)
    · intro grace inside
      obtain ⟨h, there⟩ := isSome_iff_exists.mp inside
      rw [counts.due_iff there]
      exact grace h there
  have all : (∀ p user, event = .timer p user → (s.handling p).isSome → ¬ (s.alarm p).Due) ↔
      s.InGrace event := by
    cases event with
    | timer c user =>
      refine ⟨fun quiet => (quiet_iff c).mp (quiet c user rfl), fun grace p user same => ?_⟩
      cases same
      exact (quiet_iff c).mpr grace
    | system | sigalarm | sigreturn =>
      exact ⟨fun _ => trivial, fun _ p user same => by cases same⟩
  refine ⟨fun undisturbed => all.mp undisturbed.1, fun grace => ⟨all.mpr grace, ?_⟩⟩
  intro s' p taken before after
  exact kept_of_not_due taken (all.mpr grace) before after

/-- In every run, alarms are not delivered inside a handler exactly if every timer interrupt inside
a handler comes within its grace. -/
theorem alarm_not_reentered_iff (layout : Layout) (k : Kmem) (events : List Event) :
    Along (State.step layout) (State.Undisturbed layout) (State.start k) events ↔
      Along (State.step layout) State.InGrace (State.start k) events :=
  along_congr (fun _ _ _ counts taken => State.Counts.step counts taken)
    (fun _ _ counts => State.Counts.undisturbed_iff counts) (State.Counts.start k)

/-- A process sets an alarm and its handler sets it again. -/
def rearmed : List Event :=
  let user : Context := ⟨0, fun _ => 0⟩
  [.system (.userinit 0 []), .sigalarm 0 user 1 8, .timer 0 user, .timer 0 user, .timer 0 user,
    .sigalarm 0 user 1 8, .timer 0 user, .timer 0 user]

/-- The next timer interrupt delivers a second alarm and the first saved trapframe is lost. -/
theorem alarm_reentered :
    ∃ k s s', kinit smallLayout ⟨fun _ => 0, fun _ => 0, 0⟩ = .ok ((), k) ∧
      exec (State.step smallLayout) (State.start k) rearmed = some s ∧
      s.step smallLayout (.timer 0 ⟨0, fun _ => 0⟩) = some s' ∧ (s.handling 0).isSome ∧
      (s.alarm 0).Due ∧
      (s'.handling 0).isSome ∧ (s'.alarm 0).sigalarm ≠ 0 ∧
      (s'.alarm 0).sigalarm ≠ (s.alarm 0).sigalarm := by
  have computed : ((bootState smallLayout rearmed).bind fun s =>
      (s.step smallLayout (.timer 0 ⟨0, fun _ => 0⟩)).map fun s' =>
        (((s.handling 0).isSome, decide (s.alarm 0).Due, (s'.handling 0).isSome),
          (s.alarm 0).sigalarm, (s'.alarm 0).sigalarm)) =
      some ((true, true, true), phystop - 8 * pgsize, phystop - 9 * pgsize) := by decide +kernel
  obtain ⟨s, ended, rest⟩ := bind_eq_some_iff.mp computed
  obtain ⟨s', taken, facts⟩ := map_eq_some_iff.mp rest
  simp only [Prod.mk.injEq, decide_eq_true_eq] at facts
  obtain ⟨⟨inside, due, again⟩, first, second⟩ := facts
  obtain ⟨k, booted, run⟩ := bootState_some ended
  refine ⟨k, s, s', booted, run, taken, inside, due, again, ?_, ?_⟩
  · rw [second]
    decide
  · rw [first, second]
    decide

end Runs

end EnhancedXv6.Alarm
