import EnhancedXv6.Scheduler.Uniprocessor

namespace EnhancedXv6.Scheduler

open Foundation Process Uniprocessor

variable {n : Nat} {s : Uniprocessor n}

def Live (p : Proc) : Prop := p.state ≠ .unused ∧ p.state ≠ .zombie

instance decidableLive (p : Proc) : Decidable (Live p) :=
  inferInstanceAs (Decidable (p.state ≠ .unused ∧ p.state ≠ .zombie))

theorem live_of_runnable (waits : p.state = .runnable) : Live p := by
  simp [Live, waits]

theorem Live.moved (moved : Moved call slot ticks nextpid p q) (live : Live q)
    (started : p.state ≠ .unused) : Live p ∧ q.pid = p.pid ∧ q.ctime = p.ctime := by
  cases moved with
  | created _ unused => exact absurd unused started
  | freed => exact absurd rfl live.1
  | exited => exact absurd rfl live.2
  | kept | killed => exact ⟨live, rfl, rfl⟩
  | aged waits =>
    refine ⟨live_of_runnable waits, ?_⟩
    unfold age
    split <;> exact ⟨rfl, rfl⟩
  | demoted runs =>
    refine ⟨by simp [Live, runs], ?_⟩
    unfold demote
    simp only
    split <;> exact ⟨rfl, rfl⟩
  | forked _ state | yielded _ state | counted state | preempted state | dispatched state
  | slept state | roused state =>
    exact ⟨by simp [Live, state], rfl, rfl⟩

/-- The order in which `sched_fcfs` takes two waiting processes. -/
def Precedes (table : Table n) (left right : Fin n) : Prop :=
  (table left).ctime < (table right).ctime ∨ (table left).ctime = (table right).ctime ∧ left < right

/-- The order of the scheduler is the order of the pids. -/
structure Ordered (s : Mlfq n) : Prop where
  first : 0 < s.nextpid
  pid : ∀ slot, Live (s.proc slot) → 0 < (s.proc slot).pid ∧ (s.proc slot).pid < s.nextpid
  ctime : ∀ slot, Live (s.proc slot) → (s.proc slot).ctime ≤ s.ticks
  order : ∀ left right, Live (s.proc left) → Live (s.proc right) → left ≠ right →
    (s.proc left).pid < (s.proc right).pid ∧ Precedes s.proc left right ∨
    (s.proc right).pid < (s.proc left).pid ∧ Precedes s.proc right left

theorem Ordered.keep {s t : Mlfq n} (ordered : Ordered s) (ticks : s.ticks ≤ t.ticks)
    (nextpid : s.nextpid ≤ t.nextpid)
    (same : ∀ slot, Live (t.proc slot) → Live (s.proc slot) ∧
      (t.proc slot).pid = (s.proc slot).pid ∧
      (t.proc slot).ctime = (s.proc slot).ctime) : Ordered t := by
  refine ⟨ordered.first.trans_le nextpid, fun slot live => ?_, fun slot live => ?_,
    fun left right first second apart => ?_⟩
  · obtain ⟨old, pid, _⟩ := same slot live
    have := ordered.pid slot old
    omega
  · obtain ⟨old, _, ctime⟩ := same slot live
    have := ordered.ctime slot old
    omega
  · obtain ⟨before, pid, ctime⟩ := same left first
    obtain ⟨before', pid', ctime'⟩ := same right second
    have := ordered.order left right before before' apart
    simpa only [Precedes, pid, pid', ctime, ctime'] using this

theorem Ordered.called {s t : Mlfq n} {call : MlfqCall n} (ordered : Ordered s)
    (taken : s.step beyond call = some t)
    (timeless : call ≠ .tick) (other : ∀ slot, call ≠ .allocproc slot) : Ordered t := by
  apply ordered.keep (ticks_step taken timeless).ge (nextpid_step taken other).ge
  intro slot live
  apply live.moved (moved_step taken slot)
  exact fun unused => live.1 (unused_step taken (other slot) unused)

/-- A new process comes behind those that were created in the same tick. -/
def Behind (s : Mlfq n) (slot : Fin n) : Prop :=
  ∀ other, Live (s.proc other) → (s.proc other).ctime = s.ticks → other < slot

theorem Ordered.created {s t : Mlfq n} (ordered : Ordered s) (behind : Behind s slot)
    (taken : s.step beyond (.allocproc slot) = some t) : Ordered t := by
  obtain ⟨_, own, rest, ticks, nextpid⟩ := allocproc_step taken
  have pid : (t.proc slot).pid = s.nextpid := by rw [own]; rfl
  have ctime : (t.proc slot).ctime = s.ticks := by rw [own]; rfl
  have last : ∀ other, other ≠ slot → Live (t.proc other) →
      (t.proc other).pid < (t.proc slot).pid ∧ Precedes t.proc other slot := by
    intro other apart live
    rw [rest other apart] at live
    rw [Precedes, rest other apart, pid, ctime]
    refine ⟨(ordered.pid other live).2, ?_⟩
    obtain less | same := Nat.lt_or_eq_of_le (ordered.ctime other live)
    · exact .inl less
    · exact .inr ⟨same, behind other live same⟩
  have first := ordered.first
  refine ⟨by omega, fun other live => ?_, fun other live => ?_,
    fun left right live live' apart => ?_⟩
  · by_cases same : other = slot
    · subst other
      omega
    · rw [rest other same] at live ⊢
      have := ordered.pid other live
      omega
  · by_cases same : other = slot
    · subst other
      omega
    · rw [rest other same] at live ⊢
      have := ordered.ctime other live
      omega
  · by_cases same : left = slot
    · subst left
      exact .inr (last right apart.symm live')
    · by_cases same' : right = slot
      · subst right
        exact .inl (last left same live)
      · rw [rest left same] at live
        rw [rest right same'] at live'
        simpa only [Precedes, rest left same, rest right same']
          using ordered.order left right live live' apart

theorem Ordered.ticked {s : Mlfq n} (ordered : Ordered s) (room : s.ticks + 1 < 2 ^ 32) :
    Ordered (clockintr s) := by
  have ticks : (clockintr s).ticks = s.ticks + 1 := Nat.mod_eq_of_lt room
  have nextpid : (clockintr s).nextpid = s.nextpid := rfl
  apply ordered.keep (by omega) nextpid.ge
  intro slot live
  simp only [clockintr] at live ⊢
  have moved : Moved .tick slot ((s.ticks + 1) % 2 ^ 32) s.nextpid (clocked (s.proc slot)) _ :=
    moved_wakeupOn _ .ticks _
  have woken := live.moved moved fun unused => live.1 ((wakeupOn_unused _ _ _).mpr unused)
  simpa only [Live, clocked_state, clocked_pid, clocked_ctime] using woken

/-- What a scan has selected is the oldest of the waiting processes that it has passed. -/
def Uniprocessor.Oldest (s : Uniprocessor n) : Prop :=
  ∀ next selected, s.cpu.pc = .scan next selected →
    Selects (fun slot => (s.kernel.proc slot).pid) (fun _ => False) s.kernel.proc next selected

/-- Nobody is woken whom the scan has passed, unless an older process is selected. -/
def WakesBehind (s : Uniprocessor n) (chan : Chan) : Prop :=
  match s.cpu.pc with
  | .scan next selected =>
    ∀ slot : Fin n, slot.val < next → (s.kernel.proc slot).state = .sleeping →
      (s.kernel.proc slot).chan = some chan →
      ∃ best, selected = some best ∧ (s.kernel.proc best).pid ≤ (s.kernel.proc slot).pid
  | _ => True

/-- The tick counter does not wrap, a process is created in a slot behind those of the same
tick, and no scan is overtaken by a wakeup. -/
def Orderly (s : Uniprocessor n) : UniCall n → Prop
  | .call (.allocproc slot) => Behind s.kernel slot
  | .tick => s.kernel.ticks + 1 < 2 ^ 32 ∧ WakesBehind s .ticks
  | .interrupt chan => WakesBehind s chan
  | _ => True

/-- A dispatch takes the process with the smallest pid. -/
def FirstCome (s : Uniprocessor n) : UniCall n → Prop
  | .dispatch => ∀ slot, s.cpu.pc = .scan n (some slot) →
      ∀ other, (s.kernel.proc other).state = .runnable →
      (s.kernel.proc slot).pid ≤ (s.kernel.proc other).pid
  | _ => True

theorem Uniprocessor.Oldest.firstCome (oldest : s.Oldest) : FirstCome s call := by
  cases call with
  | dispatch =>
    intro slot pc other waits
    obtain late | ⟨best, same, least⟩ := (oldest n (some slot) pc).covers other other.isLt waits
    · exact late.elim
    · cases same
      exact least
  | _ => trivial

/-- The comparison of the loop, which looks at a slot after the one that it has selected. -/
theorem Ordered.earlier_iff {s : Mlfq n} (ordered : Ordered s) (live : Live (s.proc slot))
    (live' : Live (s.proc best)) (passed : best < slot) :
    (s.proc slot).ctime < (s.proc best).ctime ↔ (s.proc slot).pid < (s.proc best).pid := by
  obtain ⟨pid, less | ⟨_, before⟩⟩ | ⟨pid, less | ⟨same, _⟩⟩ :=
    ordered.order slot best live live' passed.ne'
  · exact ⟨fun _ => pid, fun _ => less⟩
  · exact absurd before passed.asymm
  · exact ⟨fun more => absurd more less.asymm, fun more => absurd more pid.asymm⟩
  · exact ⟨fun more => absurd more same.not_gt, fun more => absurd more pid.asymm⟩

theorem Uniprocessor.Oldest.scanned {slot : Fin n} (oldest : s.Oldest) (ordered : Ordered s.kernel)
    (pc : s.cpu.pc = .scan slot.val selected) : Oldest
      { s with
        cpu := { s.cpu with
          pc := .scan (slot.val + 1) (Policy.select .fcfs s.kernel.proc slot selected) } } := by
  rintro _ _ ⟨⟩
  apply (oldest _ _ pc).scan
  intro best before waited waits
  have younger := ordered.earlier_iff (live_of_runnable waits) (live_of_runnable waited) before
  simpa [Policy.better] using younger

/-- A wakeup leaves the scan where it is, and nobody comes forward whom the selected process
does not precede. -/
theorem Uniprocessor.Oldest.woken {after : Mlfq n} (oldest : s.Oldest)
    (behind : WakesBehind s chan)
    (kept : ∀ slot, (after.proc slot).pid = (s.kernel.proc slot).pid)
    (waits : ∀ slot, (after.proc slot).state = .runnable ↔ (s.kernel.proc slot).state = .runnable ∨
      (s.kernel.proc slot).state = .sleeping ∧ (s.kernel.proc slot).chan = some chan) :
    Oldest { s with kernel := after } := by
  intro next selected pc
  obtain ⟨chosen, covers⟩ := oldest next selected pc
  rw [WakesBehind, pc] at behind
  simp only [kept]
  refine ⟨fun best same => ?_, fun other below waiting => ?_⟩
  · obtain ⟨runnable, before⟩ := chosen best same
    exact ⟨(waits best).mpr (.inl runnable), before⟩
  · obtain waited | ⟨slept, on⟩ := (waits other).mp waiting
    · exact covers other below waited
    · exact .inr (behind other below slept on)

theorem wakeupOn_runnable (p : Proc) (chan : Chan) (ticks : Nat) :
    (p.wakeupOn chan ticks).state = .runnable ↔
      p.state = .runnable ∨ p.state = .sleeping ∧ p.chan = some chan := by
  unfold Proc.wakeupOn
  split
  next sleeps => simp [Proc.roused, sleeps]
  next awake => simp [awake]

theorem wakeupOn_pid (p : Proc) (chan : Chan) (ticks : Nat) :
    (p.wakeupOn chan ticks).pid = p.pid := by
  unfold Proc.wakeupOn
  split <;> rfl

theorem Uniprocessor.oldest_elsewhere
    (elsewhere : ∀ next selected, s.cpu.pc ≠ .scan next selected) :
    s.Oldest := fun next selected pc => absurd pc (elsewhere next selected)

structure Uniprocessor.Queues (s : Uniprocessor n) : Prop where
  placed : s.Placed
  ordered : Ordered s.kernel
  oldest : s.Oldest

theorem Uniprocessor.Queues.called {call : MlfqCall n} {after : Mlfq n} (queues : s.Queues)
    (orderly : Orderly s (.call call)) (allowed : call.by policy caller = true)
    (taken : s.kernel.step beyond call = some after) : Ordered after := by
  cases call with
  | allocproc slot => exact queues.ordered.created orderly taken
  | tick | dispatch => cases allowed
  | _ => exact queues.ordered.called taken nofun nofun

theorem Uniprocessor.Queues.step {t : Uniprocessor n} {call : UniCall n} (queues : s.Queues)
    (orderly : Orderly s call) (steps : Steps .fcfs beyond s call t) : t.Queues := by
  have placed := queues.placed.step steps
  obtain ⟨old, ordered, oldest⟩ := queues
  cases steps with
  | begin start =>
    refine ⟨placed, ordered, ?_⟩
    rintro _ _ ⟨⟩
    rw [old.initial start]
    exact selects_start _
  | scan pc => exact ⟨placed, ordered, oldest.scanned ordered pc⟩
  | idle => exact ⟨placed, ordered, oldest_elsewhere nofun⟩
  | @dispatch slot pc =>
    have waits := ((oldest _ _ pc).chosen slot rfl).1
    have taken : s.kernel.step beyond (.dispatch slot) =
        some (s.kernel.set slot { s.kernel.proc slot with state := .running }) := if_pos waits
    exact ⟨placed, ordered.called taken nofun nofun, oldest_elsewhere nofun⟩
  | @call _ _ caller runs allowed taken =>
    refine ⟨placed, called ⟨old, ordered, oldest⟩ orderly allowed taken, ?_⟩
    apply oldest_elsewhere
    intro next selected pc
    have switched := old (by simp [runs])
    unfold Cpu.resume at pc
    split at pc
    · simp [switched] at pc
    · cases pc
  | @interrupt chan after taken =>
    refine ⟨placed, ordered.called taken nofun nofun, ?_⟩
    cases runs : s.cpu.proc with
    | some caller =>
      apply oldest_elsewhere
      intro next selected pc
      simp [old (by simp [runs])] at pc
    | none =>
      rw [runs] at taken
      cases taken
      apply oldest.woken orderly
      · intro slot
        simp [wakeupOn_pid]
      · intro slot
        simp [wakeupOn_runnable]
  | tick =>
    refine ⟨placed, ordered.ticked orderly.1,
      oldest.woken orderly.2 (fun slot => ?_) fun slot => ?_⟩
    · simp [clockintr, wakeupOn_pid]
    · simp [clockintr, wakeupOn_runnable]

theorem live_boot (live : Live ((boot first).kernel.proc slot)) : slot = first := by
  by_contra apart
  rw [boot_proc, if_neg apart] at live
  exact live.1 rfl

theorem Uniprocessor.boot_queues (first : Fin n) : (boot first).Queues where
  placed := fun runs => absurd rfl runs
  ordered := by
    refine ⟨zero_lt_two, fun slot live => ?_, fun slot live => ?_,
      fun left right live live' apart => ?_⟩
    · rw [boot_proc, if_pos (live_boot live)]
      exact ⟨one_pos, one_lt_two⟩
    · rw [boot_proc, if_pos (live_boot live)]
      exact le_rfl
    · exact absurd ((live_boot live).trans (live_boot live').symm) apart
  oldest := oldest_elsewhere nofun

/-- Along every orderly run of the FCFS build the process with the smallest pid is dispatched. -/
theorem first_come_of_orderly (beyond : Int → Int) (first : Fin n) (calls : List (UniCall n))
    (orderly : Along (Uniprocessor.step .fcfs beyond) Orderly (Uniprocessor.boot first) calls) :
    Along (Uniprocessor.step .fcfs beyond) FirstCome (Uniprocessor.boot first) calls := by
  have queues : Throughout (Uniprocessor.step .fcfs beyond) Uniprocessor.Queues
      (Uniprocessor.boot first) calls :=
    throughout_of_along
      (fun _ _ _ queues met taken => queues.step met (Uniprocessor.steps_of_step taken))
      (Uniprocessor.boot_queues first) orderly
  exact queues.along fun _ _ queues => queues.oldest.firstCome

instance decidableBehind (s : Mlfq n) (slot : Fin n) : Decidable (Behind s slot) :=
  inferInstanceAs
    (Decidable (∀ other, Live (s.proc other) → (s.proc other).ctime = s.ticks → other < slot))

instance decidableWakesBehind (s : Uniprocessor n) (chan : Chan) :
    Decidable (WakesBehind s chan) := by
  unfold WakesBehind
  split <;> infer_instance

instance decidableOrderly (s : Uniprocessor n) (call : UniCall n) : Decidable (Orderly s call) := by
  unfold Orderly
  split <;> infer_instance

instance decidableFirstCome (s : Uniprocessor n) (call : UniCall n) :
    Decidable (FirstCome s call) := by
  unfold FirstCome
  split <;> infer_instance

/-- The first process forks two children and sleeps, and the first child exits. -/
def twoChildren : List (UniCall nproc) :=
  wholePass ++
    [.call (.allocproc secondSlot), .call (.runnable secondSlot), .call (.allocproc thirdSlot),
      .call (.runnable thirdSlot), .call (.sleep firstSlot .ticks)] ++
    wholePass ++ [.call (.exit secondSlot 0)] ++ wholePass

theorem first_come_two_children :
    Along (Uniprocessor.step .fcfs fun _ => 0) FirstCome
      (Uniprocessor.boot firstSlot) twoChildren :=
  first_come_of_orderly _ firstSlot twoChildren (by decide +kernel)

/-- The first process forks a child while an older one that has exited still has its slot, reaps
that one, and forks again in the same tick. -/
def slotReused : List (UniCall nproc) :=
  wholePass ++
    [.call (.allocproc secondSlot), .call (.runnable secondSlot),
      .call (.sleep firstSlot .ticks)] ++
    wholePass ++ [.call (.exit secondSlot 0), .tick] ++
    wholePass ++
    [.call (.allocproc thirdSlot), .call (.runnable thirdSlot), .call (.freeproc secondSlot),
      .call (.allocproc secondSlot), .call (.runnable secondSlot),
      .call (.sleep firstSlot (.proc 0))] ++
    wholePass

/-- The younger child is dispatched, because its slot comes first. -/
theorem not_first_come_slotReused :
    ¬ Along (Uniprocessor.step .fcfs fun _ => 0) FirstCome
      (Uniprocessor.boot firstSlot) slotReused := by
  decide +kernel

end EnhancedXv6.Scheduler
