import EnhancedXv6.Scheduler.Uniprocessor

namespace EnhancedXv6.Scheduler

open Foundation Process

variable {n : Nat}

/-- What the observer knows of the process in a slot. `yielded` is cleared by the next stamp. -/
structure Trail where
  stamp : Nat := 0
  ran : Option Nat := none
  yielded : Option Nat := none

/-- `last_exec` is written: at the wakeup from a sleep, and with a new level. -/
def Restarts (p q : Proc) : Prop :=
  p.state = .sleeping ∧ q.state = .runnable ∨ p.state = .runnable ∧ q.queueLevel ≠ p.queueLevel

instance decidableRestarts (p q : Proc) : Decidable (Restarts p q) :=
  inferInstanceAs (Decidable (p.state = .sleeping ∧ q.state = .runnable ∨
    p.state = .runnable ∧ q.queueLevel ≠ p.queueLevel))

/-- What the observer writes down when a call turns `p` into `q`. -/
def Trail.observe (d : Trail) (time : Nat) (p q : Proc) : Trail :=
  if p.state = .unused ∧ q.state ≠ .unused then { stamp := time }
  else if Restarts p q then { d with stamp := time, yielded := none }
  else if p.state = .running ∧ q.state = .runnable then
    { d with ran := some time, yielded := some time }
  else if p.state = .running ∨ q.state = .running then { d with ran := some time }
  else d

structure Aging (n : Nat) where
  kernel : Mlfq n
  time : Nat
  trails : Fin n → Trail

inductive AgingCall (n : Nat) where
  | call (call : MlfqCall n)
  | tick

def Aging.observe (s : Aging n) (time : Nat) (kernel : Mlfq n) : Aging n where
  kernel := kernel
  time := time
  trails slot := (s.trails slot).observe time (s.kernel.proc slot) (kernel.proc slot)

def Aging.step (beyond : Int → Int) (s : Aging n) : AgingCall n → Option (Aging n)
  | .call .tick => none
  | .call call => (s.kernel.step beyond call).map (s.observe s.time)
  | .tick => some (s.observe (s.time + 1) (clockintr s.kernel))

def Aging.boot (n : Nat) : Aging n := { kernel := Mlfq.boot n, time := 0, trails := fun _ => {} }

/-- `mlfq_yield` of the process in a slot moves another one to a better queue. -/
def Promotes (beyond : Int → Int) (s : Mlfq n) (current slot : Fin n) : Prop :=
  (s.proc current).state = .running ∧
    (mlfqYield beyond s.ticks current s.proc slot).queueLevel < (s.proc slot).queueLevel

/-- Only processes are promoted that were not RUNNING in the last 30 ticks. -/
def StarvedOnly (beyond : Int → Int) (s : Aging n) : AgingCall n → Prop
  | .call (.mlfqYield current) => ∀ slot, Promotes beyond s.kernel current slot →
      ∀ ran ∈ (s.trails slot).ran, ran + 30 < s.time
  | _ => True

/-- The test of `mlfq_yield` on a process. -/
def Starving (ticks : Nat) (p : Proc) : Prop :=
  p.state = .runnable ∧ 0 < p.queueLevel ∧ 30 < uintDiff ticks p.lastExec

/-- No process that passes the test has given up the CPU by a yield in the last 30 ticks without a
write to `last_exec` since then. -/
def NotJustYielded (s : Aging n) : AgingCall n → Prop
  | .call (.mlfqYield current) => (s.kernel.proc current).state = .running →
      ∀ slot, Starving s.kernel.ticks (s.kernel.proc slot) →
        ∀ yielded ∈ (s.trails slot).yielded, yielded + 30 < s.time
  | _ => True

structure Trailed (time : Nat) (p : Proc) (d : Trail) : Prop where
  stamp : p.lastExec = asInt (d.stamp % 2 ^ 32)
  past : d.stamp ≤ time
  ran : ∀ ran, d.ran = some ran → ran ≤ time
  used : p.state = .used → d.ran = none ∧ d.yielded = none
  yielded : p.state = .runnable → ∀ yielded, d.yielded = some yielded → d.ran = some yielded
  waits : p.state = .runnable → d.yielded = none → ∀ ran, d.ran = some ran → ran ≤ d.stamp

theorem uintDiff_asInt (past : earlier ≤ time) :
    uintDiff (time % 2 ^ 32) (asInt (earlier % 2 ^ 32)) =
      ((time - earlier : Nat) : Int) % 2 ^ 32 := by
  unfold uintDiff asInt
  split <;> omega

theorem promotes_iff {s : Mlfq n} (runs : (s.proc current).state = .running) :
    Promotes beyond s current slot ↔ Starving s.ticks (s.proc slot) := by
  rw [Promotes, and_iff_right runs]
  by_cases same : slot = current
  · subst slot
    rw [mlfqYield_current_level beyond s.ticks s.proc runs]
    constructor
    · intro less
      split at less <;> omega
    · intro starving
      simp [Starving, runs] at starving
  · rw [mlfqYield_other beyond s.ticks s.proc same]
    by_cases waits : (s.proc slot).state = .runnable
    · rw [if_pos waits, Starving, and_iff_right waits, age]
      split
      next starving => exact ⟨fun _ => starving, fun _ => by simp⟩
      next fed => exact ⟨fun less => absurd less (lt_irrefl _), fun starving => absurd starving fed⟩
    · rw [if_neg waits]
      exact ⟨fun less => absurd less (lt_irrefl _), fun starving => absurd starving.1 waits⟩

section Observed

variable {d : Trail}

section

variable (trailed : Trailed time p d)

include trailed

theorem Trailed.idle (live : p.state ≠ .unused) (state : q.state = p.state)
    (exec : q.lastExec = p.lastExec) (level : p.state = .runnable → q.queueLevel = p.queueLevel) :
    Trailed time q (d.observe time p q) := by
  obtain ⟨stamp, past, ran, used, yielded, waits⟩ := trailed
  have same : ¬ Restarts p q := by
    rintro (⟨sleeps, wakes⟩ | ⟨waits, moves⟩)
    · simp [state, sleeps] at wakes
    · exact moves (level waits)
  rw [Trail.observe, if_neg (by simp [live]), if_neg same]
  by_cases runs : p.state = .running
  · rw [if_neg (by simp [state, runs]), if_pos (.inl runs)]
    refine ⟨exec.trans stamp, past, ?_, ?_, ?_, ?_⟩
    · intro last now
      cases now
      exact le_rfl
    all_goals simp [state, runs]
  · rw [if_neg (by simp [runs]), if_neg (by simp [state, runs])]
    exact ⟨exec.trans stamp, past, ran, state ▸ used, state ▸ yielded, state ▸ waits⟩

/-- The process starts to wait or to run, or ends, at a moment when it was RUNNING. -/
theorem Trailed.ran_now (exec : q.lastExec = p.lastExec) (used : q.state ≠ .used)
    (waits : q.state ≠ .runnable) : Trailed time q { d with ran := some time } := by
  refine ⟨exec.trans trailed.stamp, trailed.past, ?_, fun state => absurd state used,
    fun state => absurd state waits, fun state => absurd state waits⟩
  intro last now
  cases now
  exact le_rfl

theorem Trailed.gives_up (runs : p.state = .running) (waits : q.state = .runnable)
    (exec : q.lastExec = p.lastExec) : Trailed time q (d.observe time p q) := by
  have same : ¬ Restarts p q := by simp [Restarts, runs]
  rw [Trail.observe, if_neg (by simp [runs]), if_neg same, if_pos ⟨runs, waits⟩]
  refine ⟨exec.trans trailed.stamp, trailed.past, ?_, by simp [waits], ?_, by simp⟩
  · intro last now
    cases now
    exact le_rfl
  · exact fun _ last now => now

theorem Trailed.restarts (live : p.state ≠ .unused) (restarts : Restarts p q)
    (waits : q.state = .runnable) (exec : q.lastExec = asInt (time % 2 ^ 32)) :
    Trailed time q (d.observe time p q) := by
  rw [Trail.observe, if_neg (by simp [live]), if_pos restarts]
  exact ⟨exec, le_rfl, trailed.ran, by simp [waits], by simp, fun _ _ => trailed.ran⟩

end

theorem demote_lastExec (ticks : Nat) (p : Proc) : (demote ticks p).lastExec = p.lastExec := by
  unfold demote
  simp only
  split <;> rfl

theorem Trailed.moved (trailed : p.state ≠ .unused → Trailed time p d)
    (moved : Moved call slot (time % 2 ^ 32) nextpid p q) :
    q.state ≠ .unused → Trailed time q (d.observe time p q) := by
  intro live
  cases moved with
  | kept | killed => exact (trailed live).idle live rfl rfl fun _ => rfl
  | created _ unused =>
    rw [Trail.observe, if_pos ⟨unused, live⟩]
    exact ⟨rfl, le_rfl, by simp, fun _ => ⟨rfl, rfl⟩, by simp, by simp⟩
  | forked _ used =>
    have old := trailed (by simp [used])
    obtain ⟨never, unyielded⟩ := old.used used
    rw [Trail.observe, if_neg (by simp [used]), if_neg (by simp [Restarts, used]),
      if_neg (by simp [used]), if_neg (by simp [used])]
    exact ⟨old.stamp, old.past, old.ran, nofun, by simp [unyielded], by simp [never]⟩
  | freed => exact absurd rfl live
  | aged waits =>
    have started : p.state ≠ .unused := by simp [waits]
    by_cases starved : 0 < p.queueLevel ∧ 30 < uintDiff (time % 2 ^ 32) p.lastExec
    · rw [age, if_pos starved]
      exact (trailed started).restarts started (.inr ⟨waits, by simp⟩) waits rfl
    · rw [age, if_neg starved]
      exact (trailed started).idle started rfl rfl fun _ => rfl
  | counted runs =>
    have started : p.state ≠ .unused := by simp [runs]
    exact (trailed started).idle started rfl rfl fun _ => rfl
  | demoted runs => exact (trailed (by simp [runs])).gives_up runs rfl (demote_lastExec _ _)
  | preempted runs | yielded _ runs => exact (trailed (by simp [runs])).gives_up runs rfl rfl
  | dispatched waits =>
    rw [Trail.observe, if_neg (by simp [waits]), if_neg (by simp [Restarts, waits]),
      if_neg (by simp [waits]), if_pos (.inr rfl)]
    exact (trailed (by simp [waits])).ran_now rfl nofun nofun
  | slept runs | exited runs =>
    rw [Trail.observe, if_neg (by simp [runs]), if_neg (by simp [Restarts, runs]), if_neg (by simp),
      if_pos (.inl runs)]
    exact (trailed (by simp [runs])).ran_now rfl nofun nofun
  | roused sleeps =>
    have started : p.state ≠ .unused := by simp [sleeps]
    exact (trailed started).restarts started (.inl ⟨sleeps, rfl⟩) rfl rfl

theorem Trailed.later (trailed : Trailed time p d) (later : time ≤ time') : Trailed time' p d where
  stamp := trailed.stamp
  past := trailed.past.trans later
  ran := fun ran last => (trailed.ran ran last).trans later
  used := trailed.used
  yielded := trailed.yielded
  waits := trailed.waits

theorem Trailed.clock (trailed : Trailed time p d) (live : p.state ≠ .unused) :
    Trailed time ((clocked p).wakeupOn .ticks (time % 2 ^ 32))
      (d.observe time p ((clocked p).wakeupOn .ticks (time % 2 ^ 32))) := by
  unfold Proc.wakeupOn
  split
  next sleeps =>
    rw [clocked_state] at sleeps
    exact trailed.restarts live (.inl ⟨sleeps.1, rfl⟩) rfl rfl
  next =>
    exact trailed.idle live (clocked_state p) (clocked_lastExec p) fun _ => clocked_queueLevel p

end Observed

structure Aging.Agrees (s : Aging n) : Prop where
  ticks : s.kernel.ticks = s.time % 2 ^ 32
  trailed : ∀ slot, (s.kernel.proc slot).state ≠ .unused →
    Trailed s.time (s.kernel.proc slot) (s.trails slot)

theorem Aging.agrees_step {s t : Aging n} {call : AgingCall n} (agrees : s.Agrees)
    (taken : s.step beyond call = some t) : t.Agrees := by
  cases call with
  | tick =>
    cases taken
    have now : (s.kernel.ticks + 1) % 2 ^ 32 = (s.time + 1) % 2 ^ 32 := by
      have := agrees.ticks
      omega
    refine ⟨now, fun slot live => ?_⟩
    simp only [Aging.observe, clockintr, now, ne_eq, wakeupOn_unused, clocked_state] at live ⊢
    exact ((agrees.trailed slot live).later (Nat.le_succ _)).clock live
  | call call =>
    have other : call ≠ .tick := by
      intro same
      subst call
      cases taken
    have stepped : (s.kernel.step beyond call).map (s.observe s.time) = some t := by
      cases call <;> first | exact taken | exact absurd rfl other
    obtain ⟨kernel, called, rfl⟩ := Option.map_eq_some_iff.mp stepped
    refine ⟨(ticks_step called other).trans agrees.ticks, fun slot => ?_⟩
    have moved := moved_step called slot
    rw [agrees.ticks] at moved
    exact Trailed.moved (agrees.trailed slot) moved

/-- The last run of a process that passes the test ended in its last yield, or before its stamp. -/
theorem Aging.Agrees.rested_iff {s : Aging n} (agrees : s.Agrees)
    (starving : Starving s.kernel.ticks (s.kernel.proc slot)) :
    (∀ ran ∈ (s.trails slot).ran, ran + 30 < s.time) ↔
      ∀ yielded ∈ (s.trails slot).yielded, yielded + 30 < s.time := by
  obtain ⟨waits, _, starved⟩ := starving
  have trailed := agrees.trailed slot (by simp [waits])
  cases last : (s.trails slot).yielded with
  | some yielded => rw [trailed.yielded waits yielded last]
  | none =>
    have past := trailed.past
    rw [agrees.ticks, trailed.stamp, uintDiff_asInt past] at starved
    refine ⟨fun _ => by simp, fun _ ran now => ?_⟩
    have := trailed.waits waits last ran now
    omega

theorem Aging.boot_agrees (n : Nat) : (Aging.boot n).Agrees :=
  ⟨rfl, fun _ live => absurd rfl live⟩

/-- `last_exec` does not see the runs that end in a yield, and misses nothing else. -/
theorem starved_only_iff (beyond : Int → Int) (calls : List (AgingCall n)) :
    Along (Aging.step beyond) (StarvedOnly beyond) (Aging.boot n) calls ↔
      Along (Aging.step beyond) NotJustYielded (Aging.boot n) calls := by
  apply along_congr (fun _ _ _ agrees taken => Aging.agrees_step agrees taken) _
    (Aging.boot_agrees n)
  intro s call agrees
  cases call with
  | tick => exact Iff.rfl
  | call call =>
    cases call with
    | mlfqYield current =>
      simp only [StarvedOnly, NotJustYielded]
      constructor
      · intro starved runs slot starving
        exact (agrees.rested_iff starving).mp (starved slot ((promotes_iff runs).mpr starving))
      · intro rested slot promotes
        have starving := (promotes_iff promotes.1).mp promotes
        exact (agrees.rested_iff starving).mpr (rested promotes.1 slot starving)
    | _ => exact Iff.rfl

instance decidablePromotes (beyond : Int → Int) (s : Mlfq n) (current slot : Fin n) :
    Decidable (Promotes beyond s current slot) :=
  inferInstanceAs (Decidable ((s.proc current).state = .running ∧
    (mlfqYield beyond s.ticks current s.proc slot).queueLevel < (s.proc slot).queueLevel))

instance decidableStarvedOnly (beyond : Int → Int) (s : Aging n) (call : AgingCall n) :
    Decidable (StarvedOnly beyond s call) := by
  unfold StarvedOnly
  split <;> infer_instance

/-- The process in a slot is dispatched and runs for some ticks. -/
def slice (slot : Fin nproc) (ticks : Nat) : List (AgingCall nproc) :=
  .call (.dispatch slot) :: (List.replicate ticks [.tick, .call (.mlfqYield slot)]).flatten

/-- Two processes that compute, from the tick that creates them on. -/
def twoBusy : List (AgingCall nproc) :=
  [.call (.allocproc firstSlot), .call (.runnable firstSlot), .call (.allocproc secondSlot),
    .call (.runnable secondSlot)] ++
  slice firstSlot 1 ++ slice secondSlot 1 ++ slice firstSlot 3 ++ slice secondSlot 3 ++
  slice firstSlot 9 ++ slice secondSlot 9 ++ slice firstSlot 5

/-- In tick 31 the second process is promoted, which ran until tick 26. -/
theorem not_starved_only_twoBusy :
    ¬ Along (Aging.step fun _ => 0) (StarvedOnly fun _ => 0) (Aging.boot nproc) twoBusy := by
  decide +kernel

end EnhancedXv6.Scheduler
