import EnhancedXv6.Scheduler.Pbs

namespace EnhancedXv6.Scheduler

open Foundation Process Option Mlfq

variable {n : Nat}

/-- What `update_time` and the loop of `clockintr` count for a process. -/
def clocked (p : Proc) : Proc :=
  match p.state with
  | .running => { p with rtime := (p.rtime + 1) % 2 ^ 32, runTime := wrapInt (p.runTime + 1) }
  | .sleeping => { p with waitTime := wrapInt (p.waitTime + 1) }
  | .runnable => { p with sleepTime := wrapInt (p.sleepTime + 1) }
  | .unused | .used | .zombie => p

@[simp]
theorem clocked_state (p : Proc) : (clocked p).state = p.state := by
  unfold clocked
  split <;> rfl

@[simp]
theorem clocked_chan (p : Proc) : (clocked p).chan = p.chan := by
  unfold clocked
  split <;> rfl

@[simp]
theorem clocked_pid (p : Proc) : (clocked p).pid = p.pid := by
  unfold clocked
  split <;> rfl

@[simp]
theorem clocked_ctime (p : Proc) : (clocked p).ctime = p.ctime := by
  unfold clocked
  split <;> rfl

@[simp]
theorem clocked_queueLevel (p : Proc) : (clocked p).queueLevel = p.queueLevel := by
  unfold clocked
  split <;> rfl

@[simp]
theorem clocked_inTime (p : Proc) : (clocked p).inTime = p.inTime := by
  unfold clocked
  split <;> rfl

@[simp]
theorem clocked_lastExec (p : Proc) : (clocked p).lastExec = p.lastExec := by
  unfold clocked
  split <;> rfl

/-- `clockintr`, with the `wakeup` at its end. -/
def clockintr (s : Mlfq n) : Mlfq n :=
  let ticks := (s.ticks + 1) % 2 ^ 32
  { s with ticks := ticks, proc := fun slot => (clocked (s.proc slot)).wakeupOn .ticks ticks }

/-- The calls that all builds have; the queues, the clock and the dispatch are not among them. -/
def MlfqCall.shared : MlfqCall n → Bool
  | .tick | .mlfqYield _ | .dispatch _ => false
  | _ => true

/-- `sys_set_priority` up to its `yield`, on the slot that it finds. -/
def Proc.prioritize (p : Proc) (priority : Int) : Proc :=
  { p with dynamicPriority := wrapInt (priority + 25), priority := priority }

inductive PbsCall (n : Nat) where
  | call (call : MlfqCall n)
  | tick
  | schedPbs
  | setPriority (caller : Fin n) (priority pid : Int)

/-- `sys_set_priority`, which yields if the priority number goes down. -/
def setPriority (s : Mlfq n) (caller : Fin n) (priority pid : Int) : Mlfq n :=
  match slotOfPid s.proc pid with
  | none => s
  | some slot =>
    let t := s.set slot (Proc.prioritize (s.proc slot) priority)
    if priority < (s.proc slot).priority then
      t.set caller { t.proc caller with state := .runnable }
    else
      t

def pbsStep (s : Mlfq n) : PbsCall n → Option (Mlfq n)
  | .call call => if call.shared then s.step (fun _ => 0) call else none
  | .tick => some (clockintr s)
  | .schedPbs => (schedPbs s.proc).map fun scan => { s with proc := scan.table }
  | .setPriority caller priority pid =>
    if (s.proc caller).state = .running then some (setPriority s caller priority pid) else none

/-- The fields of a process that its dynamic priority is made of. -/
def behaviour (p : Proc) : Int × Int × Int × Int := (p.runTime, p.waitTime, p.sleepTime, p.priority)

theorem dynamicPriority_congr (same : behaviour p = behaviour q) :
    dynamicPriority p = dynamicPriority q := by
  simp only [behaviour, Prod.mk.injEq] at same
  obtain ⟨run, wait, sleep, priority⟩ := same
  have recent : recentBehaviour p = recentBehaviour q := by
    simp only [recentBehaviour, run, wait, sleep]
  rw [dynamicPriority, dynamicPriority, recent, priority]

@[simp]
theorem behaviour_wakeupOn (p : Proc) (chan : Chan) (ticks : Nat) :
    behaviour (p.wakeupOn chan ticks) = behaviour p := by
  unfold Proc.wakeupOn
  split <;> rfl

@[simp]
theorem behaviour_killedBy (p : Proc) (ticks : Nat) :
    behaviour (p.killedBy ticks) = behaviour p := by
  unfold Proc.killedBy
  split <;> rfl

theorem Mlfq.set_proc (s : Mlfq n) (slot other : Fin n) (p : Proc) :
    (s.set slot p).proc other = if other = slot then p else s.proc other := by
  simp only [Mlfq.set, Function.update_apply]

/-- What a shared call makes of the fields: `allocproc` and `freeproc` set them, nothing else
touches them. -/
theorem behaviour_shared {s t : Mlfq n} {call : MlfqCall n} (shared : call.shared = true)
    (taken : s.step beyond call = some t) (slot : Fin n) :
    behaviour (t.proc slot) = behaviour (s.proc slot) ∨
      call = .allocproc slot ∧ behaviour (t.proc slot) = (0, 0, 0, 50) ∨
      call = .freeproc slot ∧ behaviour (t.proc slot) = (0, 0, 0, 0) := by
  cases call with
  | tick | mlfqYield | dispatch => cases shared
  | allocproc other =>
    simp only [step, ite_none_right_eq_some, some.injEq] at taken
    obtain ⟨_, rfl⟩ := taken
    by_cases same : slot = other
    · subst other
      exact .inr (.inl ⟨rfl, by simp [Mlfq.set, behaviour, Proc.started, Proc.resetCounters]⟩)
    · exact .inl (by simp [Mlfq.set, same])
  | freeproc other =>
    simp only [step, ite_none_right_eq_some, some.injEq] at taken
    obtain ⟨_, rfl⟩ := taken
    by_cases same : slot = other
    · subst other
      exact .inr (.inr ⟨rfl, by simp [Mlfq.set, behaviour, Proc.freed]⟩)
    · exact .inl (by simp [Mlfq.set, same])
  | runnable other | yield other | sleep other chan | exit other status =>
    simp only [step, ite_none_right_eq_some, some.injEq] at taken
    obtain ⟨_, rfl⟩ := taken
    left
    rw [set_proc]
    split
    next same => subst other; rfl
    next => rfl
  | wakeup caller chan =>
    cases taken
    left
    simp only
    split
    · rfl
    · exact behaviour_wakeupOn _ _ _
  | kill pid =>
    left
    simp only [step] at taken
    split at taken <;> cases taken
    · rfl
    · rw [set_proc]
      split
      next same => subst slot; exact behaviour_killedBy _ _
      next => rfl

/-- What a pass makes of the fields: the dispatched process starts anew. -/
theorem behaviour_pass {table : Table n} {scan : PbsScan n} (passes : schedPbs table = some scan)
    (slot : Fin n) :
    behaviour (scan.table slot) = behaviour (table slot) ∨
      (table slot).state = .runnable ∧ behaviour (scan.table slot) =
        (0, 0, 0, (table slot).priority) := by
  obtain rfl := some.inj ((schedPbs_eq table).symm.trans passes)
  simp only [passed]
  split
  next chosen => exact .inr ⟨(leastWaiting_eq_some.mp chosen).1, rfl⟩
  next =>
    split
    · exact .inl rfl
    · exact .inl rfl

theorem behaviour_setPriority (s : Mlfq n) (caller : Fin n) (priority pid : Int) (slot : Fin n) :
    behaviour ((setPriority s caller priority pid).proc slot) =
      if slotOfPid s.proc pid = some slot then
        ((s.proc slot).runTime, (s.proc slot).waitTime, (s.proc slot).sleepTime, priority)
      else behaviour (s.proc slot) := by
  unfold setPriority
  cases found : slotOfPid s.proc pid with
  | none => simp
  | some target =>
    have yields (t : Mlfq n) :
        behaviour ((t.set caller { t.proc caller with state := .runnable }).proc slot) =
        behaviour (t.proc slot) := by
      rw [set_proc]
      split
      next same => subst slot; rfl
      next => rfl
    have assigned :
        behaviour ((s.set target (Proc.prioritize (s.proc target) priority)).proc slot) =
        if some target = some slot then
          ((s.proc slot).runTime, (s.proc slot).waitTime, (s.proc slot).sleepTime, priority)
        else behaviour (s.proc slot) := by
      rw [set_proc]
      by_cases same : slot = target
      · subst target
        simp [behaviour, Proc.prioritize]
      · simp [same, Ne.symm same]
    simp only
    split
    · rw [yields, assigned]
    · exact assigned

end EnhancedXv6.Scheduler
