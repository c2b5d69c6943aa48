import EnhancedXv6.Scheduler.Clock

namespace EnhancedXv6.Scheduler

open Foundation Process Option Function

variable {n : Nat} {s t : Mlfq n} {call : MlfqCall n}

inductive Moved (call : MlfqCall n) (slot : Fin n) (ticks : Nat)
    (nextpid : Int) : Proc → Proc → Prop where
  | kept : Moved call slot ticks nextpid p p
  | created : call = .allocproc slot → p.state = .unused →
    Moved call slot ticks nextpid p ((p.found nextpid ticks).started ticks)
  | forked : call = .runnable slot → p.state = .used →
    Moved call slot ticks nextpid p { p with state := .runnable }
  | freed : p.state = .zombie ∨ p.state = .used → Moved call slot ticks nextpid p (p.freed ticks)
  | aged : p.state = .runnable → Moved call slot ticks nextpid p (age ticks p)
  | counted : p.state = .running →
    Moved call slot ticks nextpid p { p with tickCtr := p.tickCtr + 1 }
  | demoted : p.state = .running → Moved call slot ticks nextpid p
    { demote ticks { p with tickCtr := p.tickCtr + 1 } with state := .runnable }
  | preempted : p.state = .running →
    Moved call slot ticks nextpid p
      { p with tickCtr := 0, inTime := asInt ticks, state := .runnable }
  | dispatched : p.state = .runnable → Moved call slot ticks nextpid p { p with state := .running }
  | yielded : call = .yield slot → p.state = .running →
    Moved call slot ticks nextpid p { p with state := .runnable }
  | slept : p.state = .running →
    Moved call slot ticks nextpid p { p with chan := some chan, state := .sleeping }
  | exited : p.state = .running →
    Moved call slot ticks nextpid p { p with xstate := status, state := .zombie, etime := ticks }
  | roused : p.state = .sleeping →
    Moved call slot ticks nextpid p ({ p with killed := killed }.roused ticks)
  | killed : Moved call slot ticks nextpid p { p with killed := 1 }

theorem moved_wakeupOn (p : Proc) (chan : Chan) (ticks : Nat) :
    Moved call slot ticks nextpid p (p.wakeupOn chan ticks) := by
  unfold Proc.wakeupOn
  split
  next waits => exact .roused waits.1
  next => exact .kept

theorem wakeupOn_unused (p : Proc) (chan : Chan) (ticks : Nat) :
    (p.wakeupOn chan ticks).state = .unused ↔ p.state = .unused := by
  unfold Proc.wakeupOn
  split
  next waits => simp [Proc.roused, waits.1]
  next => exact Iff.rfl

theorem moved_killedBy (p : Proc) (ticks : Nat) :
    Moved call slot ticks nextpid p (p.killedBy ticks) := by
  unfold Proc.killedBy
  split
  next sleeps => exact .roused sleeps
  next => exact .killed

/-- What `mlfq_yield` does to the process that it interrupts. -/
theorem moved_mlfqYield (beyond : Int → Int) (ticks : Nat) {table : Table n} {current : Fin n}
    (runs : (table current).state = .running) :
    Moved call slot ticks nextpid (table current)
      (mlfqYield beyond ticks current table current) := by
  let counted : Proc := { table current with tickCtr := (table current).tickCtr + 1 }
  have own : (agingLoop ticks current (update table current counted)).1 current = counted := by
    rw [agingLoop_at, update_self, if_neg]
    simp [counted, runs]
  simp only [mlfqYield]
  rw [own]
  split
  · rw [update_self]
    exact .demoted runs
  · split
    · rw [update_self]
      exact .preempted runs
    · rw [own]
      exact .counted runs

theorem moved_set (moved : Moved call slot s.ticks s.nextpid (s.proc slot) p) (other : Fin n) :
    Moved call other s.ticks s.nextpid (s.proc other) ((s.set slot p).proc other) := by
  rw [Mlfq.set_proc]
  split
  next same => exact same ▸ moved
  next => exact .kept

theorem moved_step (taken : s.step beyond call = some t) (slot : Fin n) :
    Moved call slot s.ticks s.nextpid (s.proc slot) (t.proc slot) := by
  cases call with
  | allocproc other =>
    obtain ⟨unused, stepped⟩ := ite_none_right_eq_some.mp taken
    cases stepped
    exact moved_set (.created rfl unused) slot
  | runnable other =>
    obtain ⟨used, stepped⟩ := ite_none_right_eq_some.mp taken
    cases stepped
    exact moved_set (.forked rfl used) slot
  | freeproc other =>
    obtain ⟨ended, stepped⟩ := ite_none_right_eq_some.mp taken
    cases stepped
    exact moved_set (.freed ended) slot
  | tick =>
    cases taken
    exact .kept
  | mlfqYield current =>
    obtain ⟨runs, stepped⟩ := ite_none_right_eq_some.mp taken
    cases stepped
    by_cases same : slot = current
    · subst slot
      exact moved_mlfqYield beyond s.ticks runs
    · simp only [mlfqYield_other beyond s.ticks s.proc same]
      split
      next waits => exact .aged waits
      next => exact .kept
  | dispatch other =>
    obtain ⟨waits, stepped⟩ := ite_none_right_eq_some.mp taken
    cases stepped
    exact moved_set (.dispatched waits) slot
  | yield other =>
    obtain ⟨runs, stepped⟩ := ite_none_right_eq_some.mp taken
    cases stepped
    exact moved_set (.yielded rfl runs) slot
  | sleep other chan =>
    obtain ⟨runs, stepped⟩ := ite_none_right_eq_some.mp taken
    cases stepped
    exact moved_set (.slept runs) slot
  | exit other status =>
    obtain ⟨runs, stepped⟩ := ite_none_right_eq_some.mp taken
    cases stepped
    exact moved_set (.exited runs) slot
  | wakeup caller chan =>
    cases taken
    simp only
    split
    · exact .kept
    · exact moved_wakeupOn _ _ _
  | kill pid =>
    simp only [Mlfq.step] at taken
    split at taken <;> cases taken
    · exact .kept
    · exact moved_set (moved_killedBy _ _) slot

theorem allocproc_step (taken : s.step beyond (.allocproc slot) = some t) :
    (s.proc slot).state = .unused ∧ t.proc slot =
      ((s.proc slot).found s.nextpid s.ticks).started s.ticks ∧
      (∀ other, other ≠ slot → t.proc other = s.proc other) ∧ t.ticks = s.ticks ∧
      t.nextpid = s.nextpid + 1 := by
  obtain ⟨unused, stepped⟩ := ite_none_right_eq_some.mp taken
  cases stepped
  refine ⟨unused, ?_, fun other apart => ?_, rfl, rfl⟩
  · simp only [Mlfq.set_proc, if_true]
  · simp only [Mlfq.set_proc, if_neg apart]

theorem ticks_step (taken : s.step beyond call = some t)
    (other : call ≠ .tick) : t.ticks = s.ticks := by
  cases call with
  | tick => exact absurd rfl other
  | wakeup => cases some.inj taken; rfl
  | kill pid =>
    simp only [Mlfq.step] at taken
    split at taken <;> cases some.inj taken <;> rfl
  | _ =>
    obtain ⟨_, stepped⟩ := ite_none_right_eq_some.mp taken
    cases stepped
    rfl

theorem nextpid_step (taken : s.step beyond call = some t)
    (other : ∀ slot, call ≠ .allocproc slot) : t.nextpid = s.nextpid := by
  cases call with
  | allocproc slot => exact absurd rfl (other slot)
  | wakeup | tick => cases some.inj taken; rfl
  | kill pid =>
    simp only [Mlfq.step] at taken
    split at taken <;> cases some.inj taken <;> rfl
  | _ =>
    obtain ⟨_, stepped⟩ := ite_none_right_eq_some.mp taken
    cases stepped
    rfl

theorem unused_step (taken : s.step beyond call = some t) (other : call ≠ .allocproc slot)
    (unused : (s.proc slot).state = .unused) : (t.proc slot).state = .unused := by
  have moved := moved_step taken slot
  generalize t.proc slot = q at moved ⊢
  cases moved with
  | created takes => exact absurd takes other
  | kept | killed => exact unused
  | freed => rfl
  | aged state | counted state | demoted state | preempted state => simp [unused] at state
  | dispatched state | slept state | exited state | roused state => simp [unused] at state
  | forked _ state | yielded _ state => simp [unused] at state

end EnhancedXv6.Scheduler
