import EnhancedXv6.Scheduler.Selection
import EnhancedXv6.Scheduler.Uniprocessor

namespace EnhancedXv6.Scheduler

open Foundation Process

variable {n : Nat} {before after : Table n}

def Enters (p q : Proc) : Prop :=
  q.state = .runnable ∧ (p.state ≠ .runnable ∨ q.queueLevel ≠ p.queueLevel)

instance decidableEnters (p q : Proc) : Decidable (Enters p q) :=
  inferInstanceAs
    (Decidable (q.state = .runnable ∧ (p.state ≠ .runnable ∨ q.queueLevel ≠ p.queueLevel)))

/-- `time` are the ticks since boot, and `entered` says in which of them a process entered. -/
structure Fifo (n : Nat) where
  machine : Uniprocessor n
  time : Nat
  entered : Fin n → Nat

def UniCall.later : UniCall n → Nat → Nat
  | .tick, time => time + 1
  | _, time => time

def enter (time : Nat) (before after : Table n) (entered : Fin n → Nat) (slot : Fin n) : Nat :=
  if Enters (before slot) (after slot) then time else entered slot

def Fifo.step (beyond : Int → Int) (s : Fifo n) (call : UniCall n) : Option (Fifo n) :=
  (s.machine.step .mlfq beyond call).map fun machine =>
    { machine := machine, time := call.later s.time
      entered := enter (call.later s.time) s.machine.kernel.proc machine.kernel.proc s.entered }

def Fifo.boot (first : Fin n) : Fifo n :=
  { machine := Uniprocessor.boot first, time := 0, entered := fun _ => 0 }

/-- Nobody who entered the same queue in an earlier tick is waiting at a dispatch. -/
def FirstIn (s : Fifo n) : UniCall n → Prop
  | .dispatch => ∀ slot, s.machine.cpu.pc = .scan n (some slot) →
      ∀ other, (s.machine.kernel.proc other).state = .runnable →
        (s.machine.kernel.proc other).queueLevel = (s.machine.kernel.proc slot).queueLevel →
        s.entered slot ≤ s.entered other
  | _ => True

/-- The stamps put the first process before the second one. -/
def Ahead (table : Table n) (left right : Fin n) : Prop :=
  (table left).inTime < (table right).inTime ∨
    (table left).inTime = (table right).inTime ∧ left < right

/-- The stamp that the process in the slot has is behind those of all who entered its queue in
earlier ticks. -/
def JoinsBehind (table : Table n) (entered : Fin n → Nat) (time : Nat) (slot : Fin n) : Prop :=
  ∀ other, other ≠ slot → (table other).state = .runnable →
    (table other).queueLevel = (table slot).queueLevel →
    entered other < time → Ahead table other slot

section Stamps

/-- What a step can do to the stamp of a process. The entry of a stale process leaves it. -/
structure Restamped (stale : Prop) (ticks : Nat) (p q : Proc) : Prop where
  stamp : q.inTime = p.inTime ∨ q.inTime = asInt ticks
  waits : q.state = .runnable →
    (p.state = .runnable ∧ q.queueLevel = p.queueLevel ∧ q.inTime = p.inTime) ∨
    Enters p q ∧
    (q.inTime = asInt ticks ∨ stale ∧ q.queueLevel = p.queueLevel ∧ q.inTime = p.inTime)

theorem Restamped.keeps
    (same : q.state = .runnable → p.state = .runnable ∧ q.queueLevel = p.queueLevel)
    (stamp : q.inTime = p.inTime) : Restamped stale ticks p q :=
  ⟨.inl stamp, fun waits => .inl ⟨(same waits).1, (same waits).2, stamp⟩⟩

theorem Restamped.entry (elsewhere : p.state ≠ .runnable) (stamp : q.inTime = asInt ticks) :
    Restamped stale ticks p q :=
  ⟨.inr stamp, fun waits => .inr ⟨⟨waits, .inl elsewhere⟩, .inl stamp⟩⟩

theorem Restamped.unstamped {stale : Prop} (elsewhere : p.state ≠ .runnable) (holds : stale)
    (same : q.queueLevel = p.queueLevel ∧ q.inTime = p.inTime) : Restamped stale ticks p q :=
  ⟨.inl same.2, fun waits => .inr ⟨⟨waits, .inl elsewhere⟩, .inr ⟨holds, same⟩⟩⟩

theorem demote_inTime (ticks : Nat) (p : Proc) : (demote ticks p).inTime = asInt ticks := by
  unfold demote
  simp only
  split <;> rfl

theorem restamped_of_moved (moved : Moved call slot ticks nextpid p q) :
    Restamped (call = .runnable slot ∨ call = .yield slot) ticks p q := by
  cases moved with
  | kept | killed => exact .keeps (fun waits => ⟨waits, rfl⟩) rfl
  | created | freed | dispatched | slept | exited => exact .keeps nofun rfl
  | counted runs => exact .keeps (fun waits => by simp [runs] at waits) rfl
  | forked call state => exact .unstamped (by simp [state]) (.inl call) ⟨rfl, rfl⟩
  | yielded call state => exact .unstamped (by simp [state]) (.inr call) ⟨rfl, rfl⟩
  | demoted state => exact .entry (by simp [state]) (demote_inTime _ _)
  | preempted state | roused state => exact .entry (by simp [state]) rfl
  | aged waits =>
    unfold age
    split
    next => exact ⟨.inr rfl, fun _ => .inr ⟨⟨waits, .inr (by simp)⟩, .inl rfl⟩⟩
    next => exact .keeps (fun _ => ⟨waits, rfl⟩) rfl

theorem restamped_clock (p : Proc) (ticks : Nat) :
    Restamped False ticks p ((clocked p).wakeupOn .ticks ticks) := by
  unfold Proc.wakeupOn
  split
  next sleeps => exact .entry (by rw [← clocked_state, sleeps.1]; exact nofun) rfl
  next => exact .keeps (by simp) (by simp)

/-- The stamps of the waiting processes agree with their entries. -/
structure Stamped (time : Nat) (table : Table n) (entered : Fin n → Nat) : Prop where
  bound : ∀ slot, (table slot).inTime ≤ time
  entry : ∀ slot, (table slot).state = .runnable →
    (table slot).inTime ≤ entered slot ∧ entered slot ≤ time
  queue : ∀ left right, (table left).state = .runnable → (table right).state = .runnable →
    (table left).queueLevel = (table right).queueLevel → entered left < entered right →
    Ahead table left right

theorem asInt_small (small : ticks < 2 ^ 31) : asInt ticks = ticks := if_pos small

theorem Stamped.step {stale : Fin n → Prop} (stamped : Stamped time before entered)
    (later : time ≤ time') (small : time' < 2 ^ 31)
    (rows : ∀ slot, Restamped (stale slot) time' (before slot) (after slot))
    (joins : ∀ slot, stale slot → JoinsBehind before entered time' slot) :
    Stamped time' after (enter time' before after entered) := by
  have now := asInt_small small
  have bound : ∀ slot, (after slot).inTime ≤ time' := by
    intro slot
    have := stamped.bound slot
    obtain same | new := (rows slot).stamp
    · omega
    · omega
  refine ⟨bound, fun slot waits => ?_, fun left right waits waits' level less => ?_⟩
  · obtain ⟨waited, same, stamp⟩ | ⟨enters, _⟩ := (rows slot).waits waits
    · have := stamped.entry slot waited
      rw [enter, if_neg (fun enters => enters.2.elim (absurd waited) (absurd same))]
      omega
    · have := bound slot
      rw [enter, if_pos enters]
      omega
  · obtain ⟨waited, same, stamp⟩ | ⟨enters, _⟩ := (rows left).waits waits
    · rw [enter, if_neg (fun enters => enters.2.elim (absurd waited) (absurd same))] at less
      have early := stamped.entry left waited
      obtain ⟨waited', same', stamp'⟩ | ⟨enters', new⟩ := (rows right).waits waits'
      · -- both were there before
        rw [enter, if_neg (fun enters => enters.2.elim (absurd waited') (absurd same'))] at less
        simpa only [Ahead, stamp, stamp'] using stamped.queue left right waited waited'
          (by omega) less
      · rw [enter, if_pos enters'] at less
        obtain new | ⟨stale, same', stamp'⟩ := new
        · exact .inl (by omega)
        · have apart : left ≠ right := by
            intro same
            subst right
            exact enters'.2.elim (absurd waited) (absurd same')
          simpa only [Ahead, stamp, stamp'] using joins right stale left apart waited
            (by omega) less
    · -- the left one enters now, and nobody enters later
      rw [enter, if_pos enters] at less
      have : enter time' before after entered right ≤ time' := by
        unfold enter
        split
        · exact le_rfl
        · next old =>
          obtain ⟨waited, _, _⟩ | ⟨enters', _⟩ := (rows right).waits waits'
          · exact (stamped.entry right waited).2.trans later
          · exact absurd enters' old
      omega

end Stamps

section Runs

/-- The selected process comes before all the waiting ones that the scan has passed. -/
def SchedPc.Settled (table : Table n) : SchedPc n → Prop
  | .scan next selected => ∀ other : Fin n, other.val < next → (table other).state = .runnable →
      ∃ best, selected = some best ∧ rank table best ≤ rank table other
  | .start => True
  | .swtched => True

/-- A process that `fork` or the `yield` of `sys_set_priority` puts into a queue has a stamp
behind those who wait there since an earlier tick, no stamp is negative, and no clock tick comes
between the wakeup of a process that a scan has passed and the end of that scan. -/
def Unhurried (s : Fifo n) : UniCall n → Prop
  | .call (.runnable slot) => JoinsBehind s.machine.kernel.proc s.entered s.time slot
  | .call (.yield slot) => JoinsBehind s.machine.kernel.proc s.entered s.time slot
  | .tick => s.time + 1 < 2 ^ 31 ∧ s.machine.cpu.pc.Settled s.machine.kernel.proc
  | _ => True

structure Fifo.Queued (s : Fifo n) : Prop where
  placed : s.machine.Placed
  ticks : s.machine.kernel.ticks = s.time
  small : s.time < 2 ^ 31
  stamped : Stamped s.time s.machine.kernel.proc s.entered
  selects : ∀ next selected, s.machine.cpu.pc = .scan next selected →
    Selects (rank s.machine.kernel.proc)
      (fun other => s.entered other = s.time) s.machine.kernel.proc next selected

/-- Whoever is ahead by the stamps has the smaller rank in its level. -/
theorem Ahead.rank_lt {table : Table n} (ahead : Ahead table left right)
    (level : (table left).queueLevel = (table right).queueLevel) :
    rank table left < rank table right := by
  simp only [rank, Prod.Lex.toLex_lt_toLex, level, lt_irrefl, true_and, false_or]
  exact ahead

theorem Fifo.Queued.firstIn {s : Fifo n} (queued : s.Queued) : FirstIn s call := by
  cases call with
  | dispatch =>
    intro slot pc other waits level
    have selects := queued.selects n (some slot) pc
    have waited := (selects.chosen slot rfl).1
    obtain late | ⟨best, same, least⟩ := selects.covers other other.isLt waits
    · have := (queued.stamped.entry slot waited).2
      omega
    · cases same
      apply le_of_not_gt
      intro earlier
      have ahead := queued.stamped.queue other slot waits waited level earlier
      exact absurd (ahead.rank_lt level) least.not_gt
  | _ => trivial

theorem enter_same (time : Nat) (table : Table n) (entered : Fin n → Nat) :
    enter time table table entered = entered := by
  funext slot
  exact if_neg fun enters => enters.2.elim (absurd enters.1) (absurd rfl)

theorem enter_of_waiting (waited : (before slot).state = .runnable)
    (level : (after slot).queueLevel = (before slot).queueLevel) :
    enter time before after entered slot = entered slot :=
  if_neg fun enters => enters.2.elim (absurd waited) (absurd level)

theorem enter_of_entry (elsewhere : (before slot).state ≠ .runnable)
    (waits : (after slot).state = .runnable) : enter time before after entered slot = time :=
  if_pos ⟨waits, .inl elsewhere⟩

theorem Stamped.called {s after : Mlfq n} {call : MlfqCall n}
    (stamped : Stamped time s.proc entered) (ticks : s.ticks = time) (small : time < 2 ^ 31)
    (taken : s.step beyond call = some after)
    (joins : ∀ slot, call = .runnable slot ∨ call = .yield slot →
      JoinsBehind s.proc entered time slot) :
    Stamped time after.proc (enter time s.proc after.proc entered) := by
  subst ticks
  exact stamped.step le_rfl small (fun slot => restamped_of_moved (moved_step taken slot)) joins

/-- A wakeup leaves the scan where it is, and whoever comes forward is late. -/
theorem Selects.woken {late late' : Fin n → Prop}
    (selects : Selects (rank before) late before next selected)
    (kept : ∀ slot, (before slot).state = .runnable → (after slot).state = .runnable ∧
      (after slot).queueLevel = (before slot).queueLevel ∧
      (after slot).inTime = (before slot).inTime)
    (still : ∀ slot, (before slot).state = .runnable → late slot → late' slot)
    (comes : ∀ slot, (before slot).state ≠ .runnable →
      (after slot).state = .runnable → late' slot) :
    Selects (rank after) late' after next selected := by
  have same : ∀ slot, (before slot).state = .runnable → rank after slot = rank before slot := by
    intro slot waits
    obtain ⟨_, level, stamp⟩ := kept slot waits
    rw [rank, rank, level, stamp]
  refine ⟨fun best chosen => ?_, fun other below waits => ?_⟩
  · obtain ⟨waited, passed⟩ := selects.chosen best chosen
    exact ⟨(kept best waited).1, passed⟩
  · by_cases waited : (before other).state = .runnable
    · obtain late | ⟨best, chosen, least⟩ := selects.covers other below waited
      · exact .inl (still other waited late)
      · refine .inr ⟨best, chosen, ?_⟩
        rw [same best (selects.chosen best chosen).1, same other waited]
        exact least
    · exact .inl (comes other waited waits)

theorem wakeupOn_waiting {p : Proc} (waits : p.state = .runnable) : p.wakeupOn chan ticks = p :=
  if_neg (by simp [waits])

/-- A tick during a scan, if the selected process comes before those that were passed. -/
theorem SchedPc.Settled.selects {s : Uniprocessor n} (settled : s.cpu.pc.Settled s.kernel.proc)
    (pc : s.cpu.pc = .scan next selected)
    (selects : Selects (rank s.kernel.proc) late s.kernel.proc next selected) :
    Selects (rank s.kernel.proc) (fun _ => False) s.kernel.proc next selected := by
  rw [pc] at settled
  exact ⟨selects.chosen, fun other below waits => .inr (settled other below waits)⟩

theorem Fifo.Queued.step {s t : Fifo n} {call : UniCall n} (queued : s.Queued)
    (unhurried : Unhurried s call) (taken : s.step beyond call = some t) : t.Queued := by
  obtain ⟨machine, moved, rfl⟩ := Option.map_eq_some_iff.mp taken
  have steps := Uniprocessor.steps_of_step moved
  have placed := queued.placed.step steps
  obtain ⟨old, ticks, small, stamped, selects⟩ := queued
  cases steps with
  | begin start =>
    refine ⟨placed, ticks, small, ?_, ?_⟩
    · simp only [enter_same]
      exact stamped
    · rintro _ _ ⟨⟩
      rw [old.initial start]
      exact selects_start _
  | scan pc =>
    refine ⟨placed, ticks, small, ?_, ?_⟩
    · simp only [enter_same]
      exact stamped
    · rintro _ _ ⟨⟩
      simp only [enter_same]
      apply (selects _ _ pc).scan
      exact fun best before _ _ => better_iff_rank before
  | idle =>
    refine ⟨placed, ticks, small, ?_, nofun⟩
    simp only [enter_same]
    exact stamped
  | @dispatch slot pc =>
    have waits := ((selects _ _ pc).chosen slot rfl).1
    have stepped : s.machine.kernel.step beyond (.dispatch slot) =
        some (s.machine.kernel.set slot { s.machine.kernel.proc slot with state := .running }) :=
          if_pos waits
    exact ⟨placed, ticks, small, stamped.called ticks small stepped (by simp), nofun⟩
  | @call caller call after runs allowed stepped =>
    have timeless : call ≠ .tick := by
      intro same
      subst call
      cases allowed
    refine ⟨placed, (ticks_step stepped timeless).trans ticks, small, ?_, ?_⟩
    · apply stamped.called ticks small stepped
      rintro slot (rfl | rfl) <;> exact unhurried
    · intro next selected pc
      have switched := old (by simp [runs])
      simp only [Cpu.resume] at pc
      split at pc
      · simp [switched] at pc
      · cases pc
  | @interrupt chan after stepped =>
    refine ⟨placed, (ticks_step stepped nofun).trans ticks, small,
      stamped.called ticks small stepped (by simp), ?_⟩
    · intro next selected pc
      have nobody : s.machine.cpu.proc = none := by
        by_contra runs
        simp [old runs] at pc
      rw [nobody] at stepped
      cases stepped
      apply (selects next selected pc).woken
      · intro slot waits
        simp [wakeupOn_waiting waits, waits]
      · intro slot waits late
        exact (enter_of_waiting waits (by simp [wakeupOn_waiting waits])).trans late
      · exact fun slot elsewhere waits => enter_of_entry elsewhere waits
  | tick =>
    obtain ⟨room, settled⟩ := unhurried
    have now : (s.machine.kernel.ticks + 1) % 2 ^ 32 = s.time + 1 := by omega
    refine ⟨placed, now, room, ?_, ?_⟩
    · have rows : ∀ slot, Restamped False (s.time + 1) (s.machine.kernel.proc slot)
          ((clockintr s.machine.kernel).proc slot) := by
        intro slot
        simpa only [clockintr, now] using restamped_clock (s.machine.kernel.proc slot) (s.time + 1)
      exact stamped.step (Nat.le_succ _) room rows fun _ => False.elim
    · intro next selected pc
      apply (settled.selects pc (selects next selected pc)).woken
      · intro slot waits
        have same :
          (clocked (s.machine.kernel.proc slot)).state = .runnable := by rw [clocked_state, waits]
        simp [clockintr, wakeupOn_waiting same, waits]
      · exact fun _ _ => False.elim
      · exact fun slot elsewhere waits => enter_of_entry elsewhere waits

theorem Fifo.boot_queued (first : Fin n) : (Fifo.boot first).Queued where
  placed := fun runs => absurd rfl runs
  ticks := rfl
  small := Nat.two_pow_pos 31
  stamped := by
    have zero : ∀ slot, ((Fifo.boot first).machine.kernel.proc slot).inTime = 0 := by
      intro slot
      simp only [Fifo.boot, Uniprocessor.boot_proc]
      split <;> rfl
    exact ⟨fun slot => (zero slot).le, fun slot _ => ⟨(zero slot).le, le_rfl⟩,
      fun _ _ _ _ _ less => absurd less (lt_irrefl _)⟩
  selects := nofun

/-- Along every unhurried run of the MLFQ build the queues are first-in first-out. -/
theorem first_in_of_unhurried (beyond : Int → Int) (first : Fin n) (calls : List (UniCall n))
    (unhurried : Along (Fifo.step beyond) Unhurried (Fifo.boot first) calls) :
    Along (Fifo.step beyond) FirstIn (Fifo.boot first) calls := by
  have queued : Throughout (Fifo.step beyond) Fifo.Queued (Fifo.boot first) calls :=
    throughout_of_along (fun _ _ _ queued met taken => queued.step met taken)
      (Fifo.boot_queued first) unhurried
  exact queued.along fun _ _ queued => queued.firstIn

end Runs

instance decidableAhead (table : Table n) (left right : Fin n) :
    Decidable (Ahead table left right) :=
  inferInstanceAs (Decidable ((table left).inTime < (table right).inTime ∨
    (table left).inTime = (table right).inTime ∧ left < right))

instance decidableJoinsBehind (table : Table n) (entered : Fin n → Nat) (time : Nat)
    (slot : Fin n) : Decidable (JoinsBehind table entered time slot) :=
  inferInstanceAs (Decidable (∀ other, other ≠ slot → (table other).state = .runnable →
    (table other).queueLevel = (table slot).queueLevel → entered other < time →
    Ahead table other slot))

instance decidableSettled (table : Table n) : (pc : SchedPc n) → Decidable (pc.Settled table)
  | .scan next selected => inferInstanceAs (Decidable (∀ other : Fin n, other.val < next →
      (table other).state = .runnable → ∃ best, selected = some best ∧
      rank table best ≤ rank table other))
  | .start => .isTrue trivial
  | .swtched => .isTrue trivial

instance decidableUnhurried (s : Fifo n) : (call : UniCall n) → Decidable (Unhurried s call)
  | .call (.runnable slot) =>
    inferInstanceAs (Decidable (JoinsBehind s.machine.kernel.proc s.entered s.time slot))
  | .call (.yield slot) =>
    inferInstanceAs (Decidable (JoinsBehind s.machine.kernel.proc s.entered s.time slot))
  | .tick =>
    inferInstanceAs
      (Decidable (s.time + 1 < 2 ^ 31 ∧ s.machine.cpu.pc.Settled s.machine.kernel.proc))
  | .begin | .scan | .dispatch | .interrupt _ => .isTrue trivial
  | .call (.allocproc _) | .call (.freeproc _) | .call .tick | .call
    (.mlfqYield _) | .call (.dispatch _)
  | .call (.sleep _ _) | .call (.exit _ _) | .call (.wakeup _ _) | .call (.kill _) =>
    .isTrue trivial

instance decidableFirstIn (s : Fifo n) : (call : UniCall n) → Decidable (FirstIn s call)
  | .dispatch => inferInstanceAs (Decidable (∀ slot, s.machine.cpu.pc = .scan n (some slot) →
      ∀ other, (s.machine.kernel.proc other).state = .runnable →
        (s.machine.kernel.proc other).queueLevel = (s.machine.kernel.proc slot).queueLevel →
        s.entered slot ≤ s.entered other))
  | .begin | .scan | .call _ | .interrupt _ | .tick => .isTrue trivial

/-- The first process forks twice and sleeps. The children run and sleep on the disk. A tick wakes
the first process; the disk then wakes both children, and the next tick ends the slice of the first
process. -/
def bothWoken : List (UniCall nproc) :=
  wholePass ++
    [.call (.allocproc secondSlot), .call (.runnable secondSlot), .call (.allocproc thirdSlot),
      .call (.runnable thirdSlot), .call (.sleep firstSlot .ticks)] ++
    wholePass ++ [.call (.sleep secondSlot (.object 0))] ++
    wholePass ++ [.call (.sleep thirdSlot (.object 0)), .tick] ++
    wholePass ++ [.interrupt (.object 0), .tick, .call (.mlfqYield firstSlot)] ++
    wholePass

theorem first_in_both_woken :
    Along (Fifo.step fun _ => 0) FirstIn (Fifo.boot firstSlot) bothWoken :=
  first_in_of_unhurried _ firstSlot bothWoken (by decide +kernel)

def fourthSlot : Fin nproc := ⟨3, by decide⟩

def forkOvertakes : List (UniCall nproc) :=
  bothWoken ++
    [.call (.allocproc fourthSlot), .call (.runnable fourthSlot),
      .call (.sleep secondSlot .ticks)] ++
    wholePass

/-- The new process, which never got a stamp, is dispatched before the one that was woken. -/
theorem not_first_in_forkOvertakes :
    ¬ Along (Fifo.step fun _ => 0) FirstIn (Fifo.boot firstSlot) forkOvertakes := by
  decide +kernel

end EnhancedXv6.Scheduler
