import EnhancedXv6.Foundation.Run
import EnhancedXv6.Process.Proc

namespace EnhancedXv6.Scheduler

open Foundation Process Option

def numq : Int := 4

/-- `ticklim[4]`, read at any index. `beyond` is whatever memory holds around the
array, which is what an index outside it reads. -/
def ticklim (beyond : Int → Int) (level : Int) : Int :=
  match level with
  | 0 => 1
  | 1 => 3
  | 2 => 9
  | 3 => 15
  | other => beyond other

variable {n : Nat}

/-- Aging of one waiting process in `mlfq_yield`. -/
def age (ticks : Nat) (p : Proc) : Proc :=
  if 0 < p.queueLevel ∧ 30 < uintDiff ticks p.lastExec then
    { p with
      lastExec := asInt ticks, inTime := asInt ticks, queueLevel := p.queueLevel - 1 }
  else p

/-- One round of the loop of `mlfq_yield`, with its counter `ti` of the waiting
processes that are in a better queue than the current one. -/
def agingRound (ticks : Nat) (current : Fin n) (scan : Table n × Nat) (slot : Fin n) :
    Table n × Nat :=
  if (scan.1 slot).state ≠ .runnable then scan
  else
    let table := Function.update scan.1 slot (age ticks (scan.1 slot))
    (table, if (table slot).queueLevel < (table current).queueLevel then scan.2 + 1 else scan.2)

def agingLoop (ticks : Nat) (current : Fin n) (table : Table n) : Table n × Nat :=
  (List.finRange n).foldl (agingRound ticks current) (table, 0)

/-- The demotion of `mlfq_yield` once the slice of its level is used up. -/
def demote (ticks : Nat) (p : Proc) : Proc :=
  let p := { p with tickCtr := 0, inTime := asInt ticks }
  if p.queueLevel < numq then { p with queueLevel := p.queueLevel + 1 } else p

/-- `mlfq_yield` on the process that runs in slot `current`. -/
def mlfqYield (beyond : Int → Int) (ticks : Nat) (current : Fin n) (table : Table n) : Table n :=
  let counted := { table current with tickCtr := (table current).tickCtr + 1 }
  let (table, ti) := agingLoop ticks current (Function.update table current counted)
  let p := table current
  if ticklim beyond p.queueLevel ≤ p.tickCtr then
    Function.update table current { demote ticks p with state := .runnable }
  else if 0 < ti then
    Function.update table current
      { p with tickCtr := 0, inTime := asInt ticks, state := .runnable }
  else table

/-- The slot that `kill` acts on: the first one that holds the pid. -/
def slotOfPid (table : Table n) (pid : Int) : Option (Fin n) :=
  (List.finRange n).find? fun slot => (table slot).pid = pid

structure Mlfq (n : Nat) where
  proc : Table n
  ticks : Nat
  /-- An `int` of the source that has not overflowed. -/
  nextpid : Int

/-- The calls that read or write the fields of the queue. `runnable` is the last section of `fork`,
`tick` the `ticks++` of `clockintr` without the rest of it, `dispatch` the choice of `sched_mlfq`,
`yield` the call of `sys_set_priority`, and the caller of `wakeup` is absent in an interrupt that no
process was running under. -/
inductive MlfqCall (n : Nat) where
  | allocproc (slot : Fin n)
  | runnable (slot : Fin n)
  | freeproc (slot : Fin n)
  | tick
  | mlfqYield (slot : Fin n)
  | dispatch (slot : Fin n)
  | yield (slot : Fin n)
  | sleep (slot : Fin n) (chan : Chan)
  | exit (slot : Fin n) (status : Int)
  | wakeup (caller : Option (Fin n)) (chan : Chan)
  | kill (pid : Int)

def Mlfq.set (s : Mlfq n) (slot : Fin n) (p : Proc) : Mlfq n :=
  { s with proc := Function.update s.proc slot p }

def Mlfq.step (beyond : Int → Int) (s : Mlfq n) : MlfqCall n → Option (Mlfq n)
  | .allocproc slot =>
    if (s.proc slot).state = .unused then
      some { s.set slot (((s.proc slot).found s.nextpid s.ticks).started s.ticks) with
        nextpid := s.nextpid + 1 }
    else none
  | .runnable slot =>
    if (s.proc slot).state = .used then some (s.set slot { s.proc slot with state := .runnable })
    else none
  | .freeproc slot =>
    if (s.proc slot).state = .zombie ∨ (s.proc slot).state = .used then
      some (s.set slot ((s.proc slot).freed s.ticks))
    else none
  | .tick => some { s with ticks := (s.ticks + 1) % 2 ^ 32 }
  | .mlfqYield slot =>
    if (s.proc slot).state = .running then
      some { s with proc := Scheduler.mlfqYield beyond s.ticks slot s.proc }
    else none
  | .dispatch slot =>
    if (s.proc slot).state = .runnable then some (s.set slot { s.proc slot with state := .running })
    else none
  | .yield slot =>
    if (s.proc slot).state = .running then some (s.set slot { s.proc slot with state := .runnable })
    else none
  | .sleep slot chan =>
    if (s.proc slot).state = .running then
      some (s.set slot { s.proc slot with chan := some chan, state := .sleeping })
    else none
  | .exit slot status =>
    if (s.proc slot).state = .running then
      some (s.set slot { s.proc slot with xstate := status, state := .zombie, etime := s.ticks })
    else none
  | .wakeup caller chan =>
    some { s with proc := fun slot =>
      if caller = some slot then s.proc slot else (s.proc slot).wakeupOn chan s.ticks }
  | .kill pid =>
    match slotOfPid s.proc pid with
    | none => some s
    | some slot => some (s.set slot ((s.proc slot).killedBy s.ticks))

/-- The process table as it is in the zeroed memory of a booted kernel. -/
def Mlfq.boot (n : Nat) : Mlfq n := { proc := fun _ => {}, ticks := 0, nextpid := 1 }

def Mlfq.LevelsInside (s : Mlfq n) : Prop :=
  ∀ slot, 0 ≤ (s.proc slot).queueLevel ∧ (s.proc slot).queueLevel < 4

/-- The tick does not use up the slice of a process of the last level. -/
def Mlfq.KeepsLastSlice (s : Mlfq n) : MlfqCall n → Prop
  | .mlfqYield slot => (s.proc slot).state = .running → (s.proc slot).queueLevel = 3 →
      (s.proc slot).tickCtr + 1 < 15
  | _ => True

private theorem agingRound_at (ticks : Nat) (current slot other : Fin n) (scan : Table n × Nat) :
    (agingRound ticks current scan slot).1 other =
      if other = slot ∧ (scan.1 slot).state = .runnable then age ticks (scan.1 slot)
      else scan.1 other := by
  unfold agingRound
  by_cases same : other = slot
  · subst other
    by_cases waiting : (scan.1 slot).state = .runnable <;> simp [waiting]
  · by_cases waiting : (scan.1 slot).state = .runnable <;> simp [waiting, same]

private theorem agingFold_at (ticks : Nat) (current other : Fin n) (slots : List (Fin n))
    (distinct : slots.Nodup) (scan : Table n × Nat) :
    (slots.foldl (agingRound ticks current) scan).1 other =
      if other ∈ slots ∧ (scan.1 other).state = .runnable then age ticks (scan.1 other)
      else scan.1 other := by
  induction slots generalizing scan with
  | nil => simp
  | cons slot rest ih =>
    obtain ⟨absent, restDistinct⟩ := List.nodup_cons.mp distinct
    rw [List.foldl_cons, ih restDistinct, agingRound_at]
    by_cases same : other = slot
    · subst other
      simp [absent]
    · simp [same]

/-- The loop of `mlfq_yield` ages exactly the waiting processes. -/
theorem agingLoop_at (ticks : Nat) (current other : Fin n) (table : Table n) :
    (agingLoop ticks current table).1 other =
      if (table other).state = .runnable then age ticks (table other) else table other := by
  unfold agingLoop
  rw [agingFold_at ticks current other _ (List.nodup_finRange n)]
  simp

theorem age_level (ticks : Nat) (p : Proc) (low : 0 ≤ p.queueLevel) :
    0 ≤ (age ticks p).queueLevel ∧ (age ticks p).queueLevel ≤ p.queueLevel := by
  unfold age
  split
  · rename_i starved
    exact ⟨by simp only; omega, by simp⟩
  · exact ⟨low, le_refl _⟩

theorem mlfqYield_other (beyond : Int → Int) (ticks : Nat) {current other : Fin n}
    (table : Table n) (distinct : other ≠ current) :
    (mlfqYield beyond ticks current table) other =
      if (table other).state = .runnable then age ticks (table other) else table other := by
  unfold mlfqYield
  simp only
  split
  · simp [distinct, agingLoop_at]
  · split <;> simp [distinct, agingLoop_at]

/-- The level of the interrupted process after the tick: one more if its slice is
used up and the level is below `numq`, unchanged otherwise. -/
theorem mlfqYield_current_level (beyond : Int → Int) (ticks : Nat) {current : Fin n}
    (table : Table n) (runs : (table current).state = .running) :
    (mlfqYield beyond ticks current table current).queueLevel =
      if ticklim beyond (table current).queueLevel ≤ (table current).tickCtr + 1 ∧
          (table current).queueLevel < numq then
        (table current).queueLevel + 1
      else (table current).queueLevel := by
  unfold mlfqYield
  simp only [agingLoop_at, Function.update_self, runs, reduceCtorEq, if_false]
  by_cases expired : ticklim beyond (table current).queueLevel ≤ (table current).tickCtr + 1
  · by_cases below : (table current).queueLevel < numq <;> simp [expired, below, demote]
  · simp only [expired, if_false, false_and]
    split <;> simp [agingLoop_at]

private theorem ticklim_below (beyond : Int → Int) (low : 0 ≤ level) (high : level < 4) :
    ticklim beyond level ≤ 15 ∧ (level = 3 → ticklim beyond level = 15) := by
  have cases : level = 0 ∨ level = 1 ∨ level = 2 ∨ level = 3 := by omega
  rcases cases with rfl | rfl | rfl | rfl <;> simp [ticklim]

private theorem levels_set {s : Mlfq n} (inside : s.LevelsInside)
    (own : 0 ≤ p.queueLevel ∧ p.queueLevel < 4) : (s.set slot p).LevelsInside := by
  intro other
  by_cases same : other = slot
  · subst other
    simpa [Mlfq.set] using own
  · simpa [Mlfq.set, same] using inside other

open Mlfq

private theorem levels_yield {s : Mlfq n} (inside : s.LevelsInside)
    (runs : (s.proc slot).state = .running)
    (kept : (s.proc slot).queueLevel = 3 → (s.proc slot).tickCtr + 1 < 15) :
    LevelsInside { s with proc := mlfqYield beyond s.ticks slot s.proc } := by
  intro other
  obtain ⟨low, high⟩ := inside other
  by_cases same : other = slot
  · subst other
    simp only [mlfqYield_current_level beyond s.ticks s.proc runs]
    obtain ⟨_, last⟩ := ticklim_below beyond low high
    split
    · rename_i moved
      refine ⟨by omega, ?_⟩
      by_cases top : (s.proc slot).queueLevel = 3
      · have short := kept top
        have limit := last top
        omega
      · omega
    · exact ⟨low, high⟩
  · simp only [mlfqYield_other beyond s.ticks s.proc same]
    split
    · obtain ⟨nonneg, bounded⟩ := age_level s.ticks (s.proc other) low
      exact ⟨nonneg, by omega⟩
    · exact ⟨low, high⟩

private theorem wakeupOn_level (p : Proc) (chan : Chan) (ticks : Nat) :
    (p.wakeupOn chan ticks).queueLevel = p.queueLevel := by
  unfold Proc.wakeupOn
  split <;> rfl

private theorem killedBy_level (p : Proc) (ticks : Nat) :
    (p.killedBy ticks).queueLevel = p.queueLevel := by
  unfold Proc.killedBy
  split <;> rfl

/-- One call keeps every level inside the table unless it is a tick that ends a
slice of the last level. -/
theorem levels_step {s t : Mlfq n} (inside : s.LevelsInside) (kept : s.KeepsLastSlice call)
    (taken : s.step beyond call = some t) : t.LevelsInside := by
  cases call with
  | allocproc slot =>
    simp only [step, ite_none_right_eq_some, some.injEq] at taken
    obtain ⟨_, rfl⟩ := taken
    exact levels_set inside (by simp [Proc.started, Proc.resetCounters])
  | runnable slot | dispatch slot | yield slot | sleep slot chan | exit slot status =>
    simp only [step, ite_none_right_eq_some, some.injEq] at taken
    obtain ⟨_, rfl⟩ := taken
    exact levels_set inside (inside slot)
  | freeproc slot =>
    simp only [step, ite_none_right_eq_some, some.injEq] at taken
    obtain ⟨_, rfl⟩ := taken
    exact levels_set inside (by simp [Proc.freed])
  | tick =>
    cases taken
    exact inside
  | mlfqYield slot =>
    simp only [step, ite_none_right_eq_some, some.injEq] at taken
    obtain ⟨runs, rfl⟩ := taken
    exact levels_yield inside runs (kept runs)
  | wakeup caller chan =>
    cases taken
    intro slot
    simp only
    split
    · exact inside slot
    · simpa only [wakeupOn_level] using inside slot
  | kill pid =>
    simp only [step] at taken
    split at taken <;> cases taken
    · exact inside
    · exact levels_set inside (by simpa only [killedBy_level] using inside _)

/-- A tick that ends a slice of the last level takes the process out of the table. -/
theorem levels_left {s t : Mlfq n} (after : t.LevelsInside)
    (taken : s.step beyond call = some t) : s.KeepsLastSlice call := by
  cases call with
  | mlfqYield slot =>
    intro runs top
    simp only [step, runs, if_true, some.injEq] at taken
    subst taken
    by_contra ended
    obtain ⟨_, high⟩ := after slot
    simp only [mlfqYield_current_level beyond s.ticks s.proc runs, top, ticklim, numq] at high
    split at high <;> omega
  | allocproc | runnable | freeproc | tick | dispatch | yield | sleep | exit | wakeup | kill =>
    trivial

/-- The levels of a run stay inside `ticklim` exactly as long as no tick ends a
slice of a process of level 3: the guard of `mlfq_yield` compares with `numq`, so
such a tick raises the level to 4. -/
theorem mlfq_levels_inside_iff (beyond : Int → Int) (n : Nat) (calls : List (MlfqCall n)) :
    Throughout (Mlfq.step beyond) Mlfq.LevelsInside (Mlfq.boot n) calls ↔
      Along (Mlfq.step beyond) Mlfq.KeepsLastSlice (Mlfq.boot n) calls := by
  constructor
  · apply along_of_throughout
    · intro s call t _ after taken
      exact levels_left after taken
    · intro s call refused
      cases call with
      | mlfqYield slot =>
        intro runs
        simp [Mlfq.step, runs] at refused
      | allocproc | runnable | freeproc | tick | dispatch | yield | sleep | exit | wakeup
      | kill =>
        trivial
  · apply throughout_of_along
    · intro s call t inside kept taken
      exact levels_step inside kept taken
    · intro slot
      simp [Mlfq.boot]

/-- The first process, computing without a pause: it falls from level 0 to level 4
at the last of twenty-eight ticks. -/
def busyLoop : List (MlfqCall nproc) :=
  let slice (length : Nat) : List (MlfqCall nproc) :=
    .dispatch firstSlot :: List.replicate length (.mlfqYield firstSlot)
  [.allocproc firstSlot, .runnable firstSlot] ++ slice 1 ++ slice 3 ++ slice 9 ++ slice 15

private theorem busyLoop_level : (exec (step fun _ => numq) (boot nproc) busyLoop).map
      (fun s => (s.proc firstSlot).queueLevel) = some 4 := by
  decide +kernel

/-- The busy loop leaves the table: its process ends at level 4, where `ticklim`
has no entry. -/
theorem mlfq_level_four_reached :
    ¬ Throughout (Mlfq.step fun _ => numq) Mlfq.LevelsInside (Mlfq.boot nproc) busyLoop := by
  intro inside
  obtain ⟨s, reached, level⟩ := map_eq_some_iff.mp busyLoop_level
  obtain ⟨_, high⟩ := inside.final reached firstSlot
  omega

end EnhancedXv6.Scheduler
