import EnhancedXv6.Scheduler.Moves

namespace EnhancedXv6.Scheduler

open Foundation Process

variable {n : Nat}

/-- When the process was created and ended, and the number of ticks at which it was RUNNING. -/
structure Dates where
  born : Nat := 0
  ran : Nat := 0
  died : Nat := 0

/-- What the observer writes down when a call turns `p` into `q`. -/
def Dates.observe (d : Dates) (time : Nat) (p q : Proc) : Dates :=
  if p.state = .unused ∧ q.state ≠ .unused then { d with born := time, ran := 0 }
  else if p.state ≠ .zombie ∧ q.state = .zombie then { d with died := time }
  else d

def Dates.tick (d : Dates) (p : Proc) : Dates :=
  if p.state = .running then { d with ran := d.ran + 1 } else d

/-- The ticks from the creation of a process to its end, or to now. -/
def Dates.lifetime (d : Dates) (time : Nat) (p : Proc) : Nat :=
  (if p.state = .zombie then d.died else time) - d.born

def waitxWtime (p : Proc) : Nat :=
  (((p.etime : Int) - p.ctime - p.rtime) % 2 ^ 32).toNat

/-- What `waitx` stores for a child, and what the observer has for it. -/
structure Report where
  rtime : Nat
  wtime : Nat
  ran : Nat
  lifetime : Nat

structure Timed (n : Nat) where
  kernel : Mlfq n
  time : Nat
  dates : Fin n → Dates
  reports : List Report

/-- Everything between two ticks is a call; `waitx` is its section on the child that it reaps. -/
inductive TimedCall (n : Nat) where
  | call (call : MlfqCall n)
  | tick
  | waitx (child : Fin n)

def Timed.observe (s : Timed n) (kernel : Mlfq n) : Timed n :=
  { s with
    kernel := kernel
    dates := fun slot => (s.dates slot).observe s.time (s.kernel.proc slot) (kernel.proc slot) }

def Timed.report (s : Timed n) (child : Fin n) : Report where
  rtime := (s.kernel.proc child).rtime
  wtime := waitxWtime (s.kernel.proc child)
  ran := (s.dates child).ran
  lifetime := (s.dates child).lifetime s.time (s.kernel.proc child)

def Timed.step (beyond : Int → Int) (s : Timed n) : TimedCall n → Option (Timed n)
  | .call .tick => none
  | .call call => (s.kernel.step beyond call).map s.observe
  | .tick =>
    some { s with
      kernel := clockintr s.kernel
      time := s.time + 1
      dates := fun slot => (s.dates slot).tick (s.kernel.proc slot) }
  | .waitx child =>
    if (s.kernel.proc child).state = .zombie then
      (s.kernel.step beyond (.freeproc child)).map fun kernel =>
        { s.observe kernel with reports := s.reports ++ [s.report child] }
    else none

def Timed.boot (n : Nat) : Timed n :=
  { kernel := Mlfq.boot n, time := 0, dates := fun _ => {}, reports := [] }

/-- The counters of a process are the dates of the observer modulo 2³². -/
structure Dated (time : Nat) (p : Proc) (d : Dates) : Prop where
  ctime : p.ctime = d.born % 2 ^ 32
  rtime : p.rtime = d.ran % 2 ^ 32
  etime : p.state = .zombie → p.etime = d.died % 2 ^ 32
  inside : d.born + d.ran ≤ if p.state = .zombie then d.died else time

open Dates

/-- A call that neither creates nor ends the process leaves its counters alone. -/
theorem Dated.congr (dated : Dated time p d) (live : p.state ≠ .unused)
    (ends : q.state = .zombie ↔ p.state = .zombie)
    (times : q.ctime = p.ctime ∧ q.rtime = p.rtime ∧ q.etime = p.etime) :
    Dated time q (d.observe time p q) := by
  have same : d.observe time p q = d := by
    rw [observe, if_neg (by simp [live]), if_neg (by simp [ends])]
  obtain ⟨ctime, rtime, etime⟩ := times
  rw [same]
  refine ⟨ctime.trans dated.ctime, rtime.trans dated.rtime, fun zombie => ?_, ?_⟩
  · exact etime.trans (dated.etime (ends.mp zombie))
  · simpa only [ends] using dated.inside

theorem Dated.moved (dated : p.state ≠ .unused → Dated time p d)
    (moved : Moved call slot (time % 2 ^ 32) nextpid p q) :
    q.state ≠ .unused → Dated time q (d.observe time p q) := by
  intro live
  cases moved with
  | created _ unused =>
    rw [observe, if_pos ⟨unused, live⟩]
    exact ⟨rfl, rfl, nofun, le_rfl⟩
  | freed => exact absurd rfl live
  | exited runs =>
    have old := dated (by simp [runs])
    rw [observe, if_neg (by simp [runs]), if_pos ⟨by simp [runs], rfl⟩]
    refine ⟨old.ctime, old.rtime, fun _ => rfl, ?_⟩
    simpa [runs] using old.inside
  | kept | killed => exact (dated live).congr live Iff.rfl ⟨rfl, rfl, rfl⟩
  | aged waits =>
    have started : p.state ≠ .unused := by simp [waits]
    unfold age
    split
    · exact (dated started).congr started Iff.rfl ⟨rfl, rfl, rfl⟩
    · exact (dated started).congr started Iff.rfl ⟨rfl, rfl, rfl⟩
  | demoted runs =>
    have started : p.state ≠ .unused := by simp [runs]
    apply (dated started).congr started (by simp [runs])
    unfold demote
    simp only
    split <;> exact ⟨rfl, rfl, rfl⟩
  | forked _ state | yielded _ state | counted state | preempted state | dispatched state
  | slept state | roused state =>
    have started : p.state ≠ .unused := by simp [state]
    exact (dated started).congr started (by simp [state, Proc.roused]) ⟨rfl, rfl, rfl⟩

theorem Dated.ticked (dated : Dated time p d) : Dated (time + 1) (clocked p) (d.tick p) := by
  obtain ⟨ctime, rtime, etime, inside⟩ := dated
  unfold clocked tick
  cases state : p.state with
  | running =>
    simp only [state, reduceCtorEq, if_false] at inside
    refine ⟨ctime, ?_, ?_, ?_⟩
    · simp only [if_true, rtime]
      omega
    · simp
    · simp
      omega
  | zombie => exact ⟨ctime, rtime, etime, by simpa [state] using inside⟩
  | unused | used | sleeping | runnable =>
    simp only [state, reduceCtorEq, if_false] at inside
    refine ⟨ctime, rtime, by simp [state], ?_⟩
    simp [state]
    omega

theorem Dated.awake (dated : Dated time p d) : Dated time (p.wakeupOn chan ticks) d := by
  unfold Proc.wakeupOn
  split
  next waits =>
    refine ⟨dated.ctime, dated.rtime, nofun, ?_⟩
    simpa [Proc.roused, waits.1] using dated.inside
  next => exact dated

structure Timed.Agrees (s : Timed n) : Prop where
  ticks : s.kernel.ticks = s.time % 2 ^ 32
  dated : ∀ slot, (s.kernel.proc slot).state ≠ .unused →
    Dated s.time (s.kernel.proc slot) (s.dates slot)

theorem Timed.Agrees.observe {s : Timed n} {kernel : Mlfq n} (agrees : s.Agrees)
    (taken : s.kernel.step beyond call = some kernel) (other : call ≠ .tick) :
    (s.observe kernel).Agrees := by
  refine ⟨(ticks_step taken other).trans agrees.ticks, fun slot => ?_⟩
  have moved := moved_step taken slot
  rw [agrees.ticks] at moved
  exact Dated.moved (agrees.dated slot) moved

theorem Timed.Agrees.tick {s : Timed n} (agrees : s.Agrees) : Timed.Agrees { s with
      kernel := clockintr s.kernel
      time := s.time + 1
      dates := fun slot => (s.dates slot).tick (s.kernel.proc slot) } := by
  constructor
  · simp only [clockintr, agrees.ticks]
    omega
  · intro slot live
    simp only [clockintr, ne_eq, wakeupOn_unused, clocked_state] at live
    exact (agrees.dated slot live).ticked.awake

/-- What the times of a process are, if it has lived for fewer than 2³² ticks. -/
structure Accounted (ticks time : Nat) (p : Proc) (d : Dates) : Prop where
  counted : p.rtime = d.ran
  inside : p.rtime ≤ d.lifetime time p
  elapsed : p.state ≠ .zombie → uintDiff ticks p.ctime = d.lifetime time p
  lived : p.state = .zombie → uintDiff p.etime p.ctime = d.lifetime time p
  waited : p.state = .zombie → waitxWtime p = d.lifetime time p - d.ran

theorem Dated.accounted (dated : Dated time p d) (bounded : d.lifetime time p < 2 ^ 32) :
    Accounted (time % 2 ^ 32) time p d := by
  obtain ⟨ctime, rtime, etime, inside⟩ := dated
  unfold lifetime at bounded
  have counted : p.rtime = d.ran := by omega
  refine ⟨counted, ?_, fun live => ?_, fun zombie => ?_, fun zombie => ?_⟩
  · rw [lifetime, counted]
    omega
  · rw [if_neg live] at inside bounded
    rw [uintDiff, lifetime, if_neg live, ctime]
    omega
  · rw [if_pos zombie] at inside bounded
    rw [uintDiff, lifetime, if_pos zombie, ctime, etime zombie]
    omega
  · rw [if_pos zombie] at inside bounded
    rw [waitxWtime, lifetime, if_pos zombie, ctime, etime zombie, counted]
    omega

/-- The report of a child that lived for fewer than 2³² ticks is right. -/
def Report.Right (r : Report) : Prop :=
  r.lifetime < 2 ^ 32 → r.rtime = r.ran ∧ r.ran ≤ r.lifetime ∧ r.wtime = r.lifetime - r.ran ∧
    r.rtime + r.wtime = r.lifetime

theorem Timed.Agrees.report {s : Timed n} (agrees : s.Agrees)
    (zombie : (s.kernel.proc child).state = .zombie) : (s.report child).Right := by
  intro bounded
  have accounted := (agrees.dated child (by simp [zombie])).accounted bounded
  have waited := accounted.waited zombie
  have inside := accounted.inside
  have counted := accounted.counted
  simp only [Timed.report] at bounded ⊢
  omega

/-- Every process that has lived for fewer than 2³² ticks is accounted for, and so was every
child that `waitx` has reaped. -/
def Timed.Accounts (s : Timed n) : Prop :=
  (∀ slot, (s.kernel.proc slot).state ≠ .unused →
    (s.dates slot).lifetime s.time (s.kernel.proc slot) < 2 ^ 32 →
    Accounted s.kernel.ticks s.time (s.kernel.proc slot) (s.dates slot)) ∧
  ∀ r ∈ s.reports, r.Right

theorem Timed.boot_agrees (n : Nat) : (Timed.boot n).Agrees :=
  ⟨rfl, fun _ live => absurd rfl live⟩

theorem Timed.agrees_step {s t : Timed n} {call : TimedCall n}
    (agrees : s.Agrees ∧ ∀ r ∈ s.reports, r.Right)
    (taken : s.step beyond call = some t) : t.Agrees ∧ ∀ r ∈ t.reports, r.Right := by
  cases call with
  | tick =>
    cases taken
    exact ⟨agrees.1.tick, agrees.2⟩
  | waitx child =>
    obtain ⟨zombie, stepped⟩ := Option.ite_none_right_eq_some.mp taken
    obtain ⟨kernel, freed, rfl⟩ := Option.map_eq_some_iff.mp stepped
    have after := agrees.1.observe freed nofun
    refine ⟨⟨after.ticks, after.dated⟩, fun r member => ?_⟩
    obtain old | new := List.mem_append.mp member
    · exact agrees.2 r old
    · rw [List.mem_singleton.mp new]
      exact agrees.1.report zombie
  | call call =>
    have other : call ≠ .tick := by
      intro same
      subst call
      cases taken
    have stepped : (s.kernel.step beyond call).map s.observe = some t := by
      cases call <;> first | exact taken | exact absurd rfl other
    obtain ⟨kernel, called, rfl⟩ := Option.map_eq_some_iff.mp stepped
    exact ⟨agrees.1.observe called other, agrees.2⟩

theorem Timed.Agrees.accounts {s : Timed n} (agrees : s.Agrees)
    (right : ∀ r ∈ s.reports, r.Right) : s.Accounts := by
  refine ⟨fun slot live bounded => ?_, right⟩
  rw [agrees.ticks]
  exact (agrees.dated slot live).accounted bounded

/-- Over every run, with any calls between the ticks and any reuse of slots, the times of a
process are those that it lived and ran. -/
theorem times_accounted (beyond : Int → Int) (calls : List (TimedCall n)) :
    Throughout (Timed.step beyond) Timed.Accounts (Timed.boot n) calls := by
  have invariant : Throughout (Timed.step beyond) (fun s => s.Agrees ∧ ∀ r ∈ s.reports, r.Right)
      (Timed.boot n) calls :=
    throughout_of_preserved (fun _ _ _ agrees taken => Timed.agrees_step agrees taken)
      ⟨Timed.boot_agrees n, by simp [Timed.boot]⟩
  exact invariant.mono fun _ holds => holds.1.accounts holds.2

end EnhancedXv6.Scheduler
