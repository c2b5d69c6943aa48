import EnhancedXv6.Scheduler.Uniprocessor

namespace EnhancedXv6.Scheduler

open Foundation Process Function Option Mlfq

variable {n : Nat} {slot : Fin n} {table : Table n} {pid : Int}

def tableStep (beyond : Int → Int) (s : Mlfq n) : PbsCall n → Option (Mlfq n)
  | .call call => s.step beyond call
  | .tick => pbsStep s .tick
  | .schedPbs => pbsStep s .schedPbs
  | .setPriority caller priority pid => pbsStep s (.setPriority caller priority pid)

def kill (s : Mlfq n) (pid : Int) : Int × Mlfq n :=
  match slotOfPid s.proc pid with
  | none => (-1, s)
  | some slot => (0, s.set slot ((s.proc slot).killedBy s.ticks))

theorem kill_step (beyond : Int → Int) (s : Mlfq n) (pid : Int) :
    tableStep beyond s (.call (.kill pid)) = some (kill s pid).2 := by
  simp only [tableStep, step, kill]
  cases slotOfPid s.proc pid with
  | none => rfl
  | some slot => rfl

/-- `sys_set_priority` up to its `yield`: the old priority, or `none` where it prints that there is
no such process and returns -1. -/
def sysSetPriority (s : Mlfq n) (priority pid : Int) : Option Int × Mlfq n :=
  match slotOfPid s.proc pid with
  | none => (none, s)
  | some slot => (some (s.proc slot).priority, s.set slot (Proc.prioritize (s.proc slot) priority))

theorem setPriority_eq (s : Mlfq n) (caller : Fin n) (priority pid : Int) :
    setPriority s caller priority pid =
      if (sysSetPriority s priority pid).1.any (priority < ·) then
        (sysSetPriority s priority pid).2.set caller
          { (sysSetPriority s priority pid).2.proc caller with state := .runnable }
      else (sysSetPriority s priority pid).2 := by
  unfold setPriority sysSetPriority
  cases slotOfPid s.proc pid with
  | none => rfl
  | some slot => simp

/-- A call that succeeds if and only if a process in use has the pid, and changes that process only.
-/
structure LiveOnly (s t : Mlfq n) (pid : Int) (success : Prop) : Prop where
  found : success ↔ ∃ slot, (s.proc slot).state ≠ .unused ∧ (s.proc slot).pid = pid
  others : success → ∃ slot, (s.proc slot).state ≠ .unused ∧ (s.proc slot).pid = pid ∧
    ∀ other, other ≠ slot → t.proc other = s.proc other
  kept : ¬ success → t = s

/-- `kill` is not given the pid 0 while a slot is free. -/
def Addressed (s : Mlfq n) (call : PbsCall n) : Prop :=
  ∀ pid, call = .call (.kill pid) → pid ≠ 0 ∨ ∀ slot, (s.proc slot).state ≠ .unused

section Standing

/-- The fields of a slot that a search by pid reads or `kill` writes. -/
def standing (p : Proc) : Int × Int × Bool := (p.pid, p.killed, decide (p.state = .unused))

variable {p : Proc}

theorem standing_live (live : p.state ≠ .unused) : standing p = (p.pid, p.killed, false) := by
  unfold standing
  rw [decide_eq_false live]

theorem standing_wakeupOn (p : Proc) (chan : Chan) (ticks : Nat) :
    standing (p.wakeupOn chan ticks) = standing p := by
  unfold Proc.wakeupOn
  split
  · rename_i asleep
    rw [standing_live (p := p) (by rw [asleep.1]; decide)]
    rfl
  · rfl

theorem standing_clocked (p : Proc) : standing (clocked p) = standing p := by
  unfold standing
  rw [clocked_state, clocked_pid]
  unfold clocked
  split <;> rfl

theorem standing_killedBy (p : Proc) (ticks : Nat) :
    standing (p.killedBy ticks) = (p.pid, 1, decide (p.state = .unused)) := by
  unfold Proc.killedBy
  split
  · rename_i asleep
    rw [asleep]
    rfl
  · rfl

theorem standing_age (ticks : Nat) (p : Proc) : standing (age ticks p) = standing p := by
  unfold age
  split <;> rfl

theorem standing_set {s : Mlfq n} {q : Proc} (same : standing q = standing (s.proc slot))
    (other : Fin n) : standing ((s.set slot q).proc other) = standing (s.proc other) := by
  rw [set_proc]
  split
  · rename_i here
    rw [here, same]
  · rfl

theorem standing_mlfqYield (beyond : Int → Int) (ticks : Nat) {current : Fin n} (table : Table n)
    (runs : (table current).state = .running) (other : Fin n) :
    standing (mlfqYield beyond ticks current table other) = standing (table other) := by
  by_cases here : other = current
  · subst here
    have live : (table other).state ≠ .unused := by
      rw [runs]
      decide
    rw [standing_live live]
    unfold mlfqYield
    simp only [agingLoop_at, update_self, runs, reduceCtorEq, if_false]
    split
    · rw [update_self]
      unfold demote
      dsimp only
      split <;> rfl
    · split
      · rw [update_self]
        rfl
      · rw [agingLoop_at, update_self, if_neg (by simp)]
        rfl
  · rw [mlfqYield_other beyond ticks table here]
    split
    · exact standing_age ticks _
    · rfl

theorem standing_pass {scan : PbsScan n} (passes : schedPbs table = some scan) (slot : Fin n) :
    standing (scan.table slot) = standing (table slot) := by
  obtain rfl := some.inj ((schedPbs_eq table).symm.trans passes)
  simp only [passed]
  split
  · rename_i chosen
    have waits := (leastWaiting_eq_some.mp chosen).1
    rw [standing_live (p := table slot) (by rw [waits]; decide)]
    rfl
  · split <;> rfl

theorem standing_setPriority (s : Mlfq n) {caller : Fin n} (runs : (s.proc caller).state = .running)
    (priority pid : Int) (slot : Fin n) :
    standing ((setPriority s caller priority pid).proc slot) = standing (s.proc slot) := by
  have assigned (other : Fin n) :
      standing ((sysSetPriority s priority pid).2.proc other) = standing (s.proc other) := by
    unfold sysSetPriority
    cases slotOfPid s.proc pid with
    | none => rfl
    | some target => exact standing_set (by rfl) other
  rw [setPriority_eq]
  split
  · rw [standing_set _ slot, assigned]
    have same := assigned caller
    have live : (s.proc caller).state ≠ .unused := by
      rw [runs]
      decide
    rw [standing_live live] at same
    rw [same]
    simp only [standing, Prod.mk.injEq] at same ⊢
    exact ⟨same.1, same.2.1, rfl⟩
  · exact assigned slot

end Standing

section Step

variable {beyond : Int → Int} {s t : Mlfq n} {call : PbsCall n}

theorem standing_step (taken : tableStep beyond s call = some t) (slot : Fin n) :
    standing (t.proc slot) = standing (s.proc slot) ∨
      (call = .call (.allocproc slot) ∧ (s.proc slot).state = .unused ∧
        standing (t.proc slot) = (s.nextpid, (s.proc slot).killed, false)) ∨
      (call = .call (.freeproc slot) ∧ standing (t.proc slot) = (0, 0, true)) ∨
      ∃ pid, call = .call (.kill pid) ∧ slotOfPid s.proc pid = some slot ∧
        standing (t.proc slot) =
          ((s.proc slot).pid, 1, decide ((s.proc slot).state = .unused)) := by
  cases call with
  | tick =>
    cases taken
    exact .inl ((standing_wakeupOn _ _ _).trans (standing_clocked _))
  | schedPbs =>
    obtain ⟨scan, passes, rfl⟩ := map_eq_some_iff.mp taken
    exact .inl (standing_pass passes slot)
  | setPriority caller priority pid =>
    obtain ⟨runs, same⟩ := ite_none_right_eq_some.mp taken
    cases same
    exact .inl (standing_setPriority s runs priority pid slot)
  | call call =>
    cases call with
    | tick =>
      cases taken
      exact .inl rfl
    | allocproc other =>
      obtain ⟨free, same⟩ := ite_none_right_eq_some.mp taken
      cases same
      by_cases here : slot = other
      · subst here
        refine .inr (.inl ⟨rfl, free, ?_⟩)
        change standing ((s.set slot _).proc slot) = _
        rw [set_proc, if_pos rfl]
        rfl
      · refine .inl ?_
        change standing ((s.set other _).proc slot) = _
        rw [set_proc, if_neg here]
    | freeproc other =>
      obtain ⟨_, same⟩ := ite_none_right_eq_some.mp taken
      cases same
      by_cases here : slot = other
      · subst here
        refine .inr (.inr (.inl ⟨rfl, ?_⟩))
        rw [set_proc, if_pos rfl]
        rfl
      · refine .inl ?_
        rw [set_proc, if_neg here]
    | mlfqYield other =>
      obtain ⟨runs, same⟩ := ite_none_right_eq_some.mp taken
      cases same
      exact .inl (standing_mlfqYield beyond s.ticks s.proc runs slot)
    | runnable other | dispatch other | yield other | sleep other chan | exit other status =>
      obtain ⟨busy, same⟩ := ite_none_right_eq_some.mp taken
      cases same
      refine .inl (standing_set ?_ slot)
      rw [standing_live (p := s.proc other) (by rw [busy]; decide)]
      rfl
    | wakeup caller chan =>
      cases taken
      refine .inl ?_
      dsimp only
      split
      · rfl
      · exact standing_wakeupOn _ _ _
    | kill pid =>
      rw [kill_step] at taken
      cases taken
      unfold kill
      cases found : slotOfPid s.proc pid with
      | none => exact .inl rfl
      | some target =>
        by_cases here : slot = target
        · subst here
          refine .inr (.inr (.inr ⟨pid, rfl, found, ?_⟩))
          dsimp only
          rw [set_proc, if_pos rfl]
          exact standing_killedBy _ _
        · refine .inl ?_
          dsimp only
          rw [set_proc, if_neg here]

theorem nextpid_kept (taken : tableStep beyond s call = some t) : s.nextpid ≤ t.nextpid := by
  cases call with
  | tick =>
    cases taken
    exact le_rfl
  | schedPbs =>
    obtain ⟨scan, _, rfl⟩ := map_eq_some_iff.mp taken
    exact le_rfl
  | setPriority caller priority pid =>
    obtain ⟨_, same⟩ := ite_none_right_eq_some.mp taken
    cases same
    unfold setPriority
    cases slotOfPid s.proc pid with
    | none => exact le_rfl
    | some slot =>
      dsimp only
      split
      · exact le_refl s.nextpid
      · exact le_refl s.nextpid
  | call call =>
    by_cases fresh : ∃ slot, call = .allocproc slot
    · obtain ⟨slot, rfl⟩ := fresh
      obtain ⟨_, same⟩ := ite_none_right_eq_some.mp taken
      cases same
      exact (Int.lt_succ s.nextpid).le
    · exact (nextpid_step taken fun slot same => fresh ⟨slot, same⟩).ge

/-- Slots that are not in use have the pid 0, and the others have not. -/
structure Numbered (s : Mlfq n) : Prop where
  next : 1 ≤ s.nextpid
  unused : ∀ slot, (s.proc slot).state = .unused → (s.proc slot).pid = 0
  live : ∀ slot, (s.proc slot).state ≠ .unused → 1 ≤ (s.proc slot).pid

theorem Numbered.step (numbered : Numbered s) (taken : tableStep beyond s call = some t) :
    Numbered t := by
  have slots (slot : Fin n) : ((t.proc slot).state = .unused → (t.proc slot).pid = 0) ∧
      ((t.proc slot).state ≠ .unused → 1 ≤ (t.proc slot).pid) := by
    have unused := numbered.unused slot
    have live := numbered.live slot
    rcases standing_step taken slot with same | ⟨_, _, same⟩ | ⟨_, same⟩ | ⟨_, _, _, same⟩
    all_goals
      simp only [standing, Prod.mk.injEq] at same
      obtain ⟨pid, _, use⟩ := same
    · rw [decide_eq_decide] at use
      rw [pid]
      exact ⟨fun free => unused (use.mp free), fun busy => live (mt use.mpr busy)⟩
    · rw [pid]
      exact ⟨fun free => absurd free (of_decide_eq_false use), fun _ => numbered.next⟩
    · rw [pid]
      exact ⟨fun _ => rfl, fun busy => absurd (of_decide_eq_true use) busy⟩
    · rw [decide_eq_decide] at use
      rw [pid]
      exact ⟨fun free => unused (use.mp free), fun busy => live (mt use.mpr busy)⟩
  exact ⟨numbered.next.trans (nextpid_kept taken), fun slot => (slots slot).1,
    fun slot => (slots slot).2⟩

theorem slotOfPid_eq_some (found : slotOfPid table pid = some slot) : (table slot).pid = pid := by
  have holds := List.find?_some found
  exact of_decide_eq_true holds

theorem slotOfPid_isSome (holds : (table slot).pid = pid) :
    ∃ first, slotOfPid table pid = some first := by
  have some : (slotOfPid table pid).isSome := by
    rw [slotOfPid, List.find?_isSome]
    exact ⟨slot, List.mem_finRange slot, decide_eq_true holds⟩
  exact isSome_iff_exists.mp some

/-- A slot that `kill` finds is in use if the call is addressed well. -/
theorem Numbered.found_live (numbered : Numbered s)
    (addressed : pid ≠ 0 ∨ ∀ slot, (s.proc slot).state ≠ .unused)
    (found : slotOfPid s.proc pid = some slot) : (s.proc slot).state ≠ .unused := by
  rcases addressed with real | full
  · intro free
    exact real ((slotOfPid_eq_some found).symm.trans (numbered.unused slot free))
  · exact full slot

def Spared (s : Mlfq n) : Prop := ∀ slot, (s.proc slot).state = .unused → (s.proc slot).killed = 0

theorem Spared.step (spared : Spared s) (numbered : Numbered s) (addressed : Addressed s call)
    (taken : tableStep beyond s call = some t) : Spared t := by
  intro slot free
  rcases standing_step taken slot with same | ⟨_, _, same⟩ | ⟨_, same⟩ | ⟨pid, rfl, found, same⟩
  all_goals
    simp only [standing, Prod.mk.injEq] at same
    obtain ⟨_, flag, use⟩ := same
  · rw [decide_eq_decide] at use
    rw [flag]
    exact spared slot (use.mp free)
  · exact absurd free (of_decide_eq_false use)
  · exact flag
  · rw [decide_eq_decide] at use
    exact absurd (use.mp free) (numbered.found_live (addressed pid rfl) found)

theorem Numbered.liveOnly_iff (numbered : Numbered s) {success : Prop}
    (finds : success ↔ ∃ slot, slotOfPid s.proc pid = some slot)
    (changes : ∀ slot, slotOfPid s.proc pid = some slot → ∀ other, other ≠ slot →
      t.proc other = s.proc other)
    (kept : slotOfPid s.proc pid = none → t = s) :
    LiveOnly s t pid success ↔ pid ≠ 0 ∨ ∀ slot, (s.proc slot).state ≠ .unused := by
  constructor
  · intro only
    by_contra neither
    push Not at neither
    obtain ⟨rfl, slot, free⟩ := neither
    obtain ⟨other, live, zero⟩ :=
      only.found.mp (finds.mpr (slotOfPid_isSome (numbered.unused slot free)))
    have positive := numbered.live other live
    omega
  · intro addressed
    have there (slot : Fin n) (found : slotOfPid s.proc pid = some slot) :
        (s.proc slot).state ≠ .unused ∧ (s.proc slot).pid = pid :=
      ⟨numbered.found_live addressed found, slotOfPid_eq_some found⟩
    refine ⟨finds.trans ⟨?_, ?_⟩, fun success => ?_, fun fails => kept ?_⟩
    · rintro ⟨slot, found⟩
      exact ⟨slot, there slot found⟩
    · rintro ⟨slot, _, holds⟩
      exact slotOfPid_isSome holds
    · obtain ⟨slot, found⟩ := finds.mp success
      exact ⟨slot, (there slot found).1, (there slot found).2, changes slot found⟩
    · by_contra other
      exact fails (finds.mpr (ne_none_iff_exists'.mp other))

theorem Numbered.kill_iff (numbered : Numbered s) (pid : Int) :
    LiveOnly s (kill s pid).2 pid ((kill s pid).1 = 0) ↔
      pid ≠ 0 ∨ ∀ slot, (s.proc slot).state ≠ .unused := by
  refine numbered.liveOnly_iff ?_ (fun slot found other apart => ?_) fun none => ?_
  · unfold kill
    cases slotOfPid s.proc pid <;> simp
  · unfold kill
    rw [found]
    exact update_of_ne apart _ _
  · unfold kill
    rw [none]

theorem Numbered.setPriority_iff (numbered : Numbered s) (priority pid : Int) :
    LiveOnly s (sysSetPriority s priority pid).2 pid
      ((sysSetPriority s priority pid).1.isSome = true) ↔
      pid ≠ 0 ∨ ∀ slot, (s.proc slot).state ≠ .unused := by
  refine numbered.liveOnly_iff ?_ (fun slot found other apart => ?_) fun none => ?_
  · unfold sysSetPriority
    cases slotOfPid s.proc pid <;> simp
  · unfold sysSetPriority
    rw [found]
    exact update_of_ne apart _ _
  · unfold sysSetPriority
    rw [none]

end Step

theorem boot_numbered (n : Nat) : Numbered (boot n) :=
  ⟨le_rfl, fun _ _ => rfl, fun _ live => absurd rfl live⟩

theorem run_numbered (beyond : Int → Int) (calls : List (PbsCall n)) {s : Mlfq n}
    (run : exec (tableStep beyond) (boot n) calls = some s) : Numbered s :=
  (throughout_of_preserved (fun _ _ _ numbered taken => numbered.step taken)
    (boot_numbered n)).final run

/-- In every reached table the calls touch only processes in use exactly if they are not given the
pid 0 while a slot is free, and after runs in which `kill` was never given it then, a new process
has not been killed. -/
theorem pid_calls_live_iff (n : Nat) (beyond : Int → Int) (calls : List (PbsCall n)) (s : Mlfq n)
    (run : exec (tableStep beyond) (Mlfq.boot n) calls = some s) :
    (∀ pid priority, LiveOnly s (kill s pid).2 pid ((kill s pid).1 = 0) ∧
        LiveOnly s (sysSetPriority s priority pid).2 pid
          ((sysSetPriority s priority pid).1.isSome = true) ↔
      pid ≠ 0 ∨ ∀ slot, (s.proc slot).state ≠ .unused) ∧
    (Along (tableStep beyond) Addressed (Mlfq.boot n) calls → ∀ slot t,
      tableStep beyond s (.call (.allocproc slot)) = some t → (t.proc slot).killed = 0) := by
  have numbered := run_numbered beyond calls run
  refine ⟨fun pid priority => ?_, fun addressed slot t taken => ?_⟩
  · rw [numbered.kill_iff, numbered.setPriority_iff, and_self_iff]
  · have initial : Numbered (Mlfq.boot n) ∧ Spared (Mlfq.boot n) :=
      ⟨boot_numbered n, fun _ _ => rfl⟩
    have kept (state : Mlfq n) (call : PbsCall n) (next : Mlfq n)
        (both : Numbered state ∧ Spared state)
        (met : Addressed state call) (taken : tableStep beyond state call = some next) :
        Numbered next ∧ Spared next := ⟨both.1.step taken, both.2.step both.1 met taken⟩
    have both := (throughout_of_along kept initial addressed).final run
    obtain ⟨free, same⟩ := ite_none_right_eq_some.mp taken
    cases same
    change ((s.set slot _).proc slot).killed = 0
    rw [Mlfq.set_proc, if_pos rfl]
    exact both.2 slot free

/-- The table after the first process has been started. -/
theorem pid_calls_live_started : ∃ s : Mlfq nproc,
    exec (tableStep fun _ => 0) (Mlfq.boot nproc)
      [.call (.allocproc firstSlot), .call (.runnable firstSlot)] = some s ∧
      LiveOnly s (kill s 1).2 1 ((kill s 1).1 = 0) := by
  refine ⟨_, rfl, ?_⟩
  exact (((pid_calls_live_iff nproc (fun _ => 0)
    [.call (.allocproc firstSlot), .call (.runnable firstSlot)] _ rfl).1
    1 0).mpr (.inl (by decide))).1

/-- `kill(0)` marks a free slot, and the next process in it is born killed. -/
theorem kill_zero_marks_free : ∃ s t : Mlfq nproc,
    exec (tableStep fun _ => 0) (Mlfq.boot nproc)
      [.call (.allocproc firstSlot), .call (.runnable firstSlot),
        .call (.dispatch firstSlot)] = some s ∧
    (kill s 0).1 = 0 ∧ ¬ LiveOnly s (kill s 0).2 0 ((kill s 0).1 = 0) ∧
    tableStep (fun _ => 0) (kill s 0).2 (.call (.allocproc secondSlot)) = some t ∧
    (t.proc secondSlot).killed = 1 := by
  refine ⟨_, _, rfl, by decide +kernel, fun only => ?_, rfl, by decide +kernel⟩
  have numbered := run_numbered (fun _ => 0)
    [.call (.allocproc firstSlot), .call (.runnable firstSlot), .call (.dispatch firstSlot)] rfl
  rcases (numbered.kill_iff 0).mp only with real | full
  · exact real rfl
  · exact full secondSlot (by decide +kernel)

end EnhancedXv6.Scheduler
