import EnhancedXv6.Scheduler.Mlfq

/-! `sched_fcfs` and `sched_mlfq` on several CPUs. Both scan the table and lock
one slot at a time, and only after the scan lock the slot they have selected. A
step is one section under one process lock; the section that dispatches a process
ends where that process, running again, releases its own lock. -/

namespace EnhancedXv6.Scheduler

open Foundation Process Option

/-- The two builds whose schedulers release every lock between scan and dispatch. -/
inductive Policy where
  | fcfs
  | mlfq
  deriving DecidableEq, Repr

/-- Whether the loop replaces the process selected so far by the one it looks at. -/
def Policy.better : Policy → Proc → Proc → Bool
  | .fcfs, p, selected => p.ctime < selected.ctime
  | .mlfq, p, selected =>
    p.queueLevel < selected.queueLevel ||
      (p.queueLevel == selected.queueLevel && p.inTime < selected.inTime)

/-- Where a CPU is: before its next call of the scheduler function, in the scan
with the slot it looks at next and the slot selected so far, or switched into the
context of `c->proc`. -/
inductive SchedPc (n : Nat) where
  | start
  | scan (next : Nat) (selected : Option (Fin n))
  | swtched
  deriving DecidableEq, Repr

def SchedPc.selection : SchedPc n → Option (Fin n)
  | .scan _ selected => selected
  | _ => none

structure Cpu (n : Nat) where
  proc : Option (Fin n) := none
  pc : SchedPc n := .start
  deriving DecidableEq, Repr

/-- `sched_fcfs` starts from `c->proc`, `sched_mlfq` from null. -/
def Policy.initial (policy : Policy) (c : Cpu n) : Option (Fin n) :=
  match policy with
  | .fcfs => c.proc
  | .mlfq => none

/-- One round of the scan, on the slot it has just locked. -/
def Policy.select (policy : Policy) (table : Table n) (slot : Fin n) :
    Option (Fin n) → Option (Fin n)
  | none => if (table slot).state = .runnable then some slot else none
  | some selected =>
    if (table slot).state = .runnable ∧ policy.better (table slot) (table selected) then some slot
    else some selected

structure Machine (n m : Nat) where
  proc : Table n
  cpus : Fin m → Cpu n
  ticks : Nat
  /-- An `int` of the source that has not overflowed. -/
  nextpid : Int

/-- One section under a process lock. `begin`, `scan` and `dispatch` are those of
the scheduler function of a CPU; `yield`, `sleep` and `exit` are those of the
process it has switched to; the remaining ones come from whatever process or
interrupt runs on some CPU, `tick` being the `ticks++` of `clockintr`. -/
inductive Section (n m : Nat) where
  | begin (c : Fin m)
  | scan (c : Fin m)
  | dispatch (c : Fin m)
  | yield (c : Fin m)
  | sleep (c : Fin m) (chan : Chan)
  | exit (c : Fin m) (status : Int)
  | wakeup (slot : Fin n) (chan : Chan)
  | kill (slot : Fin n)
  | wait (slot : Fin n)
  | allocproc (slot : Fin n)
  | runnable (slot : Fin n)
  | age (slot : Fin n)
  | demote (c : Fin m)
  | tick

variable {n m : Nat}

def Machine.setProc (s : Machine n m) (slot : Fin n) (p : Proc) : Machine n m :=
  { s with proc := Function.update s.proc slot p }

def Machine.setCpu (s : Machine n m) (c : Fin m) (cpu : Cpu n) : Machine n m :=
  { s with cpus := Function.update s.cpus c cpu }

/-- The process that runs on a CPU changes its state under its lock and switches
back to the scheduler, which clears `c->proc` and releases the lock. -/
def Machine.giveUp (s : Machine n m) (c : Fin m) (change : Proc → Proc) : Option (Machine n m) :=
  match (s.cpus c).proc with
  | none => none
  | some slot => some ((s.setProc slot (change (s.proc slot))).setCpu c {})

def Machine.step (policy : Policy) (s : Machine n m) : Section n m → Option (Machine n m)
  | .begin c =>
    match (s.cpus c).pc with
    | .start => some (s.setCpu c { s.cpus c with pc := .scan 0 (policy.initial (s.cpus c)) })
    | _ => none
  | .scan c =>
    match (s.cpus c).pc with
    | .scan next selected =>
      if inside : next < n then
        some (s.setCpu c { s.cpus c with
          pc := .scan (next + 1) (policy.select s.proc ⟨next, inside⟩ selected) })
      else none
    | _ => none
  | .dispatch c =>
    match (s.cpus c).pc with
    | .scan next (some slot) =>
      if next = n then
        some ((s.setProc slot { s.proc slot with state := .running }).setCpu c
          { proc := some slot, pc := .swtched })
      else none
    | .scan next none => if next = n then some (s.setCpu c { s.cpus c with pc := .start }) else none
    | _ => none
  | .yield c => s.giveUp c fun p => { p with state := .runnable }
  | .sleep c chan => s.giveUp c fun p => { p with chan := some chan, state := .sleeping }
  | .exit c status =>
    s.giveUp c fun p => { p with xstate := status, state := .zombie, etime := s.ticks }
  | .wakeup slot chan => some (s.setProc slot ((s.proc slot).wakeupOn chan s.ticks))
  | .kill slot => some (s.setProc slot ((s.proc slot).killedBy s.ticks))
  | .wait slot =>
    if (s.proc slot).state = .zombie then some (s.setProc slot ((s.proc slot).freed s.ticks))
    else none
  | .allocproc slot =>
    if (s.proc slot).state = .unused then
      some { s.setProc slot (((s.proc slot).found s.nextpid s.ticks).started s.ticks) with
        nextpid := s.nextpid + 1 }
    else none
  | .runnable slot =>
    if (s.proc slot).state = .used then
      some (s.setProc slot { s.proc slot with state := .runnable })
    else none
  | .age slot =>
    if (s.proc slot).state = .runnable then
      some (s.setProc slot (Scheduler.age s.ticks (s.proc slot)))
    else none
  | .demote c =>
    match (s.cpus c).proc with
    | none => none
    | some slot => some (s.setProc slot (Scheduler.demote s.ticks (s.proc slot)))
  | .tick => some { s with ticks := (s.ticks + 1) % 2 ^ 32 }

/-- No process yet and every CPU about to call the scheduler function. -/
def Machine.boot (n m : Nat) : Machine n m :=
  { proc := fun _ => {}, cpus := fun _ => {}, ticks := 0, nextpid := 1 }

def Machine.DispatchesRunnable (s : Machine n m) : Section n m → Prop
  | .dispatch c => ∀ slot, (s.cpus c).pc = .scan n (some slot) → (s.proc slot).state = .runnable
  | _ => True

instance (s : Machine n m) (label : Section n m) : Decidable (s.DispatchesRunnable label) := by
  cases label <;> unfold Machine.DispatchesRunnable <;> infer_instance

def Machine.Exclusive (s : Machine n m) : Prop :=
  ∀ c d slot, (s.cpus c).proc = some slot → (s.cpus d).proc = some slot → c = d

/-- At a dispatch, no other CPU has the same process as its selection. -/
def Machine.SoleSelector (s : Machine n m) : Section n m → Prop
  | .dispatch c => ∀ slot, (s.cpus c).pc = .scan n (some slot) →
      ∀ d, d ≠ c → (s.cpus d).pc.selection ≠ some slot
  | _ => True

instance (s : Machine n m) (label : Section n m) : Decidable (s.SoleSelector label) := by
  cases label <;> unfold Machine.SoleSelector <;> infer_instance

/-- What holds as long as selections do not collide: a selected process is still
RUNNABLE, and `c->proc` is RUNNING and on that CPU alone. -/
structure Machine.Coherent (s : Machine n m) : Prop where
  selected : ∀ c next slot, (s.cpus c).pc = .scan next (some slot) →
    (s.proc slot).state = .runnable
  running : ∀ c slot, (s.cpus c).proc = some slot →
    (s.cpus c).pc = .swtched ∧ (s.proc slot).state = .running
  exclusive : s.Exclusive

theorem Machine.boot_coherent (n m : Nat) : (boot n m).Coherent where
  selected := by simp [boot]
  running := by simp [boot]
  exclusive := by simp [Machine.Exclusive, boot]

/-- A slot that is neither waiting nor running is free to change, any other one as
long as its state stays. -/
private theorem Machine.Coherent.setProc {s : Machine n m} (coherent : s.Coherent)
    (safe : p.state = (s.proc slot).state ∨
      ((s.proc slot).state ≠ .runnable ∧ (s.proc slot).state ≠ .running)) :
    (s.setProc slot p).Coherent where
  selected := by
    intro c next other chosen
    have waits := coherent.selected c next other chosen
    by_cases same : other = slot
    · subst other
      rcases safe with kept | ⟨idle, _⟩
      · simpa [Machine.setProc, kept] using waits
      · exact absurd waits idle
    · simpa [Machine.setProc, same] using waits
  running := by
    intro c other current
    obtain ⟨switched, runs⟩ := coherent.running c other current
    refine ⟨switched, ?_⟩
    by_cases same : other = slot
    · subst other
      rcases safe with kept | ⟨_, idle⟩
      · simpa [Machine.setProc, kept] using runs
      · exact absurd runs idle
    · simpa [Machine.setProc, same] using runs
  exclusive := coherent.exclusive

/-- A CPU that runs no process may move inside the scheduler function. -/
private theorem Machine.Coherent.setPc {s : Machine n m} (coherent : s.Coherent)
    (vacant : (s.cpus c).proc = none)
    (chosen : ∀ next slot, pc = .scan next (some slot) → (s.proc slot).state = .runnable) :
    (s.setCpu c { s.cpus c with pc := pc }).Coherent where
  selected := by
    intro d next slot
    by_cases same : d = c
    · subst d
      simpa [setCpu] using chosen next slot
    · simpa [setCpu, same] using coherent.selected d next slot
  running := by
    intro d slot
    by_cases same : d = c
    · subst d
      simp [setCpu, vacant]
    · simpa [setCpu, same] using coherent.running d slot
  exclusive := by
    intro d e slot
    by_cases first : d = c
    · subst d
      simp [setCpu, vacant]
    · by_cases second : e = c
      · subst e
        simp [setCpu, vacant]
      · simpa [setCpu, first, second] using coherent.exclusive d e slot

private theorem Machine.Coherent.vacant {s : Machine n m} (coherent : s.Coherent)
    (scanning : (s.cpus c).pc ≠ .swtched) : (s.cpus c).proc = none := by
  cases current : (s.cpus c).proc with
  | none => rfl
  | some slot => exact absurd (coherent.running c slot current).1 scanning

private theorem Machine.Coherent.giveUp {s t : Machine n m} (coherent : s.Coherent)
    (left : s.giveUp c change = some t) : t.Coherent := by
  unfold Machine.giveUp at left
  split at left
  · cases left
  · rename_i slot current
    cases left
    obtain ⟨_, runs⟩ := coherent.running c slot current
    refine ⟨?_, ?_, ?_⟩
    · intro d next other chosen
      by_cases own : d = c
      · subst d
        simp [Machine.setCpu] at chosen
      · have waits := coherent.selected d next other
          (by simpa [Machine.setCpu, Machine.setProc, own] using chosen)
        -- the process that leaves was RUNNING, so no scan has it as its selection
        have different : other ≠ slot := by
          intro same
          rw [same, runs] at waits
          cases waits
        simpa [Machine.setCpu, Machine.setProc, different] using waits
    · intro d other running
      by_cases own : d = c
      · subst d
        simp [Machine.setCpu] at running
      · have elsewhere : (s.cpus d).proc = some other := by
          simpa [Machine.setCpu, Machine.setProc, own] using running
        have different : other ≠ slot := by
          intro same
          exact own (coherent.exclusive d c slot (same ▸ elsewhere) current)
        simpa [Machine.setCpu, Machine.setProc, own, different] using
          coherent.running d other elsewhere
    · intro d e other
      by_cases first : d = c
      · subst d
        simp [Machine.setCpu]
      · by_cases second : e = c
        · subst e
          simp [Machine.setCpu]
        · simpa [Machine.setCpu, Machine.setProc, first, second] using
            coherent.exclusive d e other

private theorem Machine.Coherent.dispatch {s : Machine n m} (coherent : s.Coherent)
    (chosen : (s.cpus c).pc = .scan n (some slot))
    (sole : ∀ d, d ≠ c → (s.cpus d).pc.selection ≠ some slot) :
    ((s.setProc slot { s.proc slot with state := .running }).setCpu c
      { proc := some slot, pc := .swtched }).Coherent := by
  have waits := coherent.selected c n slot chosen
  have unused : ∀ d, (s.cpus d).proc ≠ some slot := by
    intro d current
    have runs := (coherent.running d slot current).2
    rw [waits] at runs
    cases runs
  refine ⟨?_, ?_, ?_⟩
  · intro d next other picked
    by_cases own : d = c
    · subst d
      simp [Machine.setCpu] at picked
    · have before : (s.cpus d).pc = .scan next (some other) := by
        simpa [Machine.setCpu, Machine.setProc, own] using picked
      have different : other ≠ slot := by
        intro same
        exact sole d own (by simp [before, same, SchedPc.selection])
      simpa [Machine.setCpu, Machine.setProc, different] using
        coherent.selected d next other before
  · intro d other current
    by_cases own : d = c
    · subst d
      have same : slot = other := by simpa [Machine.setCpu] using current
      subst other
      simp [Machine.setCpu, Machine.setProc]
    · have before : (s.cpus d).proc = some other := by
        simpa [Machine.setCpu, Machine.setProc, own] using current
      have different : other ≠ slot := by
        intro same
        exact unused d (same ▸ before)
      simpa [Machine.setCpu, Machine.setProc, own, different] using
        coherent.running d other before
  · intro d e other
    by_cases first : d = c
    · subst d
      by_cases second : e = c
      · intro _ _
        exact second.symm
      · intro own elsewhere
        have same : slot = other := by simpa [Machine.setCpu] using own
        subst other
        exact absurd (by simpa [Machine.setCpu, Machine.setProc, second] using elsewhere) (unused e)
    · by_cases second : e = c
      · subst e
        intro elsewhere own
        have same : slot = other := by simpa [Machine.setCpu] using own
        subst other
        exact absurd (by simpa [Machine.setCpu, Machine.setProc, first] using elsewhere) (unused d)
      · simpa [Machine.setCpu, Machine.setProc, first, second] using coherent.exclusive d e other

private theorem select_runnable {policy : Policy} {table : Table n}
    (before : ∀ slot, selected = some slot → (table slot).state = .runnable)
    (chosen : policy.select table looked selected = some slot) :
    (table slot).state = .runnable := by
  cases selected with
  | none =>
    simp only [Policy.select, ite_none_right_eq_some, some.injEq] at chosen
    obtain ⟨waits, rfl⟩ := chosen
    exact waits
  | some other =>
    simp only [Policy.select] at chosen
    split at chosen
    · rename_i taken
      cases chosen
      exact taken.1
    · cases chosen
      exact before _ rfl

private theorem Machine.Coherent.scan {s t : Machine n m} (coherent : s.Coherent)
    (taken : s.step policy (.scan c) = some t) : t.Coherent := by
  simp only [Machine.step] at taken
  split at taken
  · rename_i next selected scanning
    split at taken
    · cases taken
      refine coherent.setPc (coherent.vacant (by simp [scanning])) ?_
      intro after slot chosen
      simp only [SchedPc.scan.injEq] at chosen
      exact select_runnable (fun other picked =>
        coherent.selected c next other (picked ▸ scanning)) chosen.2
    · cases taken
  · cases taken

/-- Every section keeps the machine coherent, a dispatch if no other CPU has
selected the same process. -/
theorem Machine.Coherent.step {s t : Machine n m} (coherent : s.Coherent)
    (sole : s.SoleSelector label) (taken : s.step policy label = some t) : t.Coherent := by
  cases label with
  | begin c =>
    simp only [Machine.step] at taken
    split at taken
    · rename_i atStart
      cases taken
      have vacant := coherent.vacant (c := c) (by simp [atStart])
      refine coherent.setPc vacant ?_
      intro next slot entered
      cases policy <;> simp [Policy.initial, vacant] at entered
    · cases taken
  | scan c => exact coherent.scan taken
  | dispatch c =>
    simp only [Machine.step] at taken
    split at taken
    · rename_i next slot scanning
      split at taken
      · rename_i finished
        subst finished
        cases taken
        exact coherent.dispatch scanning (sole slot scanning)
      · cases taken
    · rename_i next scanning
      split at taken
      · cases taken
        exact coherent.setPc (coherent.vacant (by simp [scanning])) (by simp)
      · cases taken
    · cases taken
  | yield c | sleep c chan | exit c status =>
    simp only [Machine.step] at taken
    exact coherent.giveUp taken
  | wakeup slot chan =>
    cases taken
    apply coherent.setProc
    unfold Proc.wakeupOn
    split
    · rename_i asleep
      exact .inr (by simp [asleep.1])
    · exact .inl rfl
  | kill slot =>
    cases taken
    apply coherent.setProc
    unfold Proc.killedBy
    split
    · rename_i asleep
      exact .inr (by simp [asleep])
    · exact .inl rfl
  | wait slot | runnable slot =>
    simp only [Machine.step, ite_none_right_eq_some, some.injEq] at taken
    obtain ⟨idle, rfl⟩ := taken
    exact coherent.setProc (.inr (by simp [idle]))
  | allocproc slot =>
    simp only [Machine.step, ite_none_right_eq_some, some.injEq] at taken
    obtain ⟨idle, rfl⟩ := taken
    have kept :
        (s.setProc slot (((s.proc slot).found s.nextpid s.ticks).started s.ticks)).Coherent :=
      coherent.setProc (.inr (by simp [idle]))
    exact ⟨kept.selected, kept.running, kept.exclusive⟩
  | age slot =>
    simp only [Machine.step, ite_none_right_eq_some, some.injEq] at taken
    obtain ⟨_, rfl⟩ := taken
    apply coherent.setProc
    unfold age
    split <;> exact .inl rfl
  | demote c =>
    simp only [Machine.step] at taken
    split at taken
    · cases taken
    · cases taken
      apply coherent.setProc
      unfold demote
      simp only
      split <;> exact .inl rfl
  | tick =>
    cases taken
    exact ⟨coherent.selected, coherent.running, coherent.exclusive⟩

theorem Machine.Coherent.dispatchesRunnable {s : Machine n m} (coherent : s.Coherent)
    (label : Section n m) : s.DispatchesRunnable label := by
  cases label with
  | dispatch c => exact fun slot chosen => coherent.selected c n slot chosen
  | begin | scan | yield | sleep | exit | wakeup | kill | wait | allocproc | runnable | age
  | demote | tick => trivial

/-- Under `sched_fcfs` and under `sched_mlfq`, on any number of CPUs: if at every
dispatch no other CPU has selected the same process, then every dispatch takes a
RUNNABLE process and no process is ever `c->proc` of two CPUs. -/
theorem dispatch_safe_of_sole_selector (policy : Policy) (labels : List (Section n m))
    (sole : Along (Machine.step policy) Machine.SoleSelector (Machine.boot n m) labels) :
    Along (Machine.step policy) Machine.DispatchesRunnable (Machine.boot n m) labels ∧
      Throughout (Machine.step policy) Machine.Exclusive (Machine.boot n m) labels := by
  have coherent : Throughout (Machine.step policy) Machine.Coherent (Machine.boot n m) labels :=
    throughout_of_along (fun s label t holds met taken => holds.step met taken)
      (Machine.boot_coherent n m) sole
  refine ⟨?_, coherent.mono fun s holds => holds.exclusive⟩
  exact coherent.along fun s label holds => holds.dispatchesRunnable label

/-- The first process becomes RUNNABLE, and the CPUs of the list then scan the
whole table one after the other. -/
def scansBy (cpus : List (Fin 2)) : List (Section nproc 2) :=
  let pass (c : Fin 2) : List (Section nproc 2) := .begin c :: List.replicate nproc (.scan c)
  [.allocproc firstSlot, .runnable firstSlot] ++ cpus.flatMap pass

def dispatchInTurn : List (Section nproc 2) :=
  scansBy [0] ++ .dispatch 0 :: .begin 1 :: List.replicate nproc (.scan 1) ++ [.dispatch 1]

theorem dispatch_safe_in_turn :
    Along (Machine.step .mlfq) Machine.DispatchesRunnable (Machine.boot nproc 2) dispatchInTurn ∧
      Throughout (Machine.step .mlfq) Machine.Exclusive (Machine.boot nproc 2) dispatchInTurn :=
  dispatch_safe_of_sole_selector .mlfq dispatchInTurn (by decide +kernel)

def dispatchTwice : List (Section nproc 2) :=
  scansBy [0, 1] ++ [.dispatch 0, .dispatch 1]

private theorem dispatchTwice_shares (policy : Policy) :
    (exec (Machine.step policy) (Machine.boot nproc 2) dispatchTwice).map
      (fun s => ((s.cpus 0).proc, (s.cpus 1).proc)) =
      some (some firstSlot, some firstSlot) := by
  cases policy <;> decide +kernel

private theorem dispatchTwice_not_exclusive (policy : Policy) :
    ¬ Throughout (Machine.step policy) Machine.Exclusive (Machine.boot nproc 2) dispatchTwice := by
  intro exclusive
  obtain ⟨s, reached, shared⟩ := map_eq_some_iff.mp (dispatchTwice_shares policy)
  obtain ⟨first, second⟩ := Prod.mk.inj shared
  cases exclusive.final reached 0 1 _ first second

/-- Two CPUs that scan before either dispatches both switch into the only RUNNABLE
process, the second one when it is already RUNNING. -/
theorem dispatch_race :
    (¬ Along (Machine.step .fcfs) Machine.DispatchesRunnable (Machine.boot nproc 2) dispatchTwice ∧
      ¬ Throughout (Machine.step .fcfs) Machine.Exclusive (Machine.boot nproc 2) dispatchTwice) ∧
    (¬ Along (Machine.step .mlfq) Machine.DispatchesRunnable (Machine.boot nproc 2) dispatchTwice ∧
      ¬ Throughout (Machine.step .mlfq) Machine.Exclusive (Machine.boot nproc 2) dispatchTwice) :=
  ⟨⟨by decide +kernel, dispatchTwice_not_exclusive .fcfs⟩,
    by decide +kernel, dispatchTwice_not_exclusive .mlfq⟩

end EnhancedXv6.Scheduler
