import EnhancedXv6.Alarm.Reentry

namespace EnhancedXv6.Alarm

open Function Option State
open Foundation EnhancedXv6.Memory

section Counting

variable {layout : Layout} {s s' : State} {p handler count : Nat} {n : Int} {a : AlarmState}
  {event : Event}

/-- A call after which the alarm of the process counts anew. -/
def Arms (s : State) (p : Nat) (n : Int) (handler : Nat) : Event → Prop
  | .sigalarm c _ m address => c = p ∧ m = n ∧ address = handler
  | .sigreturn c _ => c = p ∧ (s.alarm p).ticks = n ∧ (s.alarm p).handler = handler
  | _ => False

/-- The process goes on, without another `sigalarm` or `sigreturn`. -/
def GoesOn (p : Nat) : Event → Prop
  | .sigalarm c _ _ _ => c ≠ p
  | .sigreturn c _ => c ≠ p
  | .system event => cleared event ≠ some p
  | .timer _ _ => True

def isTimer (p : Nat) : Event → Bool
  | .timer c _ => c == p
  | _ => false

/-- The number of timer interrupts that the process takes from user mode. -/
def timers (p : Nat) (events : List Event) : Nat :=
  events.countP (isTimer p)

structure Counting (n : Int) (handler count : Nat) (a : AlarmState) : Prop where
  ticks : a.ticks = n
  handled : a.handler = handler
  current : a.currentTicks = int32 count

theorem int32_succ (count : Nat) : int32 (int32 count + 1) = int32 ((count + 1 : Nat) : Int) := by
  unfold int32
  omega

theorem Counting.tick (counting : Counting n handler count a) (positive : 0 < n) :
    Counting n handler (count + 1) a.tick := by
  rw [AlarmState.tick, if_pos (counting.ticks ▸ positive)]
  exact ⟨counting.ticks, counting.handled, by simp only [counting.current, int32_succ]⟩

theorem Counting.fired (counting : Counting n handler count a) (frame : Nat) :
    Counting n handler (count + 1) (a.fired frame) :=
  ⟨counting.ticks, counting.handled, by simp only [AlarmState.fired, counting.current, int32_succ]⟩

section

variable (counting : Counting n handler count (s.alarm p))

include counting

/-- A change of the alarm of one process, seen from a process that may be another one. -/
theorem Counting.update {c : Nat} (own : c = p → Counting n handler (count + 1) a) :
    Counting n handler (count + if c = p then 1 else 0) (update s.alarm c a p) := by
  by_cases same : c = p
  · subst c
    rw [update_self, if_pos rfl]
    exact own rfl
  · rw [update_of_ne (Ne.symm same), if_neg same]
    exact counting

theorem Counting.step (positive : 0 < n) (goes : GoesOn p event)
    (taken : s.step layout event = some s') :
    Counting n handler (count + if isTimer p event then 1 else 0) (s'.alarm p) := by
  cases steps_of_step taken with
  | @system event t allowed taken =>
    simp only [isTimer, afterSystem]
    cases target : cleared event with
    | none => exact counting
    | some c =>
      have other : p ≠ c := fun same => goes (same ▸ target)
      simpa [update_of_ne other] using counting
  | sigalarm here ran =>
    simpa [isTimer, afterSigalarm, update_of_ne (Ne.symm goes)] using counting
  | sigreturn here ran =>
    simpa [isTimer, afterSigreturn, update_of_ne (Ne.symm goes)] using counting
  | tick here due ran =>
    simpa [isTimer, afterTick] using counting.update fun same => same ▸ counting.tick positive
  | alarm here due real ran =>
    simpa [isTimer, afterAlarm] using counting.update fun same => same ▸ counting.fired _
  | miss here due ran =>
    simpa [isTimer, afterMiss] using counting.update fun same => same ▸ counting.fired _

theorem Counting.run {events : List Event} (positive : 0 < n)
    (goes : ∀ event ∈ events, GoesOn p event) (ran : exec (State.step layout) s events = some s') :
    Counting n handler (count + timers p events) (s'.alarm p) := by
  induction events generalizing s count with
  | nil =>
    cases ran
    exact counting
  | cons event events ih =>
    obtain ⟨next, taken, rest⟩ := exec_cons ran
    have first := counting.step positive (goes event List.mem_cons_self) taken
    have all := ih first (fun later member => goes later (List.mem_cons_of_mem event member)) rest
    rw [timers, List.countP_cons, ← timers]
    simpa only [add_assoc, add_comm] using all

end

theorem Counting.armed (arms : Arms s p n handler event) (small : 0 < n ∧ n < 2 ^ 31)
    (taken : s.step layout event = some s') : Counting n handler 0 (s'.alarm p) := by
  cases steps_of_step taken with
  | sigalarm here ran =>
    obtain ⟨rfl, rfl, rfl⟩ := arms
    simp only [afterSigalarm, update_self]
    refine ⟨?_, rfl, rfl⟩
    simp only [sysSigalarm, int32]
    omega
  | sigreturn here ran =>
    obtain ⟨rfl, ticks, handled⟩ := arms
    simp only [afterSigreturn, update_self]
    exact ⟨ticks, handled, rfl⟩
  | system | tick | alarm | miss => exact arms.elim

theorem Counting.due_iff (counting : Counting n handler count a) (small : 0 < n ∧ n < 2 ^ 31) :
    a.Due ↔ ((count + 1 : Nat) : Int) % 2 ^ 32 = (n + 2) % 2 ^ 32 := by
  rw [AlarmState.Due, counting.ticks, counting.current]
  unfold int32
  omega

end Counting

section Entry

variable {layout : Layout} {s s' : State} {p handler : Nat} {a : AlarmState}

/-- The interrupt saves the trapframe in a page of its own and lets the process go on at the
handler. -/
def Enters (s s' : State) (p handler : Nat) : Prop :=
  ∃ q frame, s.system.procs p = some q ∧ frame ≠ 0 ∧ s'.ledger = (p, frame) :: s.ledger ∧
    (s'.alarm p).sigalarm = frame ∧ load s'.system.kmem.mem (q.trapframe + tfEpc) 8 =
      handler % 2 ^ 64

/-- With a page on the free list an alarm that is due is delivered. -/
theorem usertrapTimer_enters {k : Kmem} {tf : Nat} {user : Context} (due : a.Due)
    (free : k.freelist ≠ 0) :
    Meets (usertrapTimer tf user a) k (fun result t => result = a.fired k.freelist ∧
      load t.mem (tf + tfEpc) 8 = a.handler % 2 ^ 64) fun _ => True := by
  have first : ∀ t : Kmem, Meets kalloc t (fun pa _ => pa = t.freelist) fun _ => True :=
    fun _ => kalloc_first
  rw [usertrapTimer, saveContext, if_pos due.1, if_pos due.2, meets_bind, meets_bind, meets_modify,
    meets_storeWord, meets_bind]
  refine (first _).mono (fun frame t head => ?_) fun _ _ => trivial
  rw [if_pos (by rw [head]; exact free)]
  refine meets_any.bind fun _ t₁ _ => meets_any.bind fun _ t₂ _ => ?_
  rw [meets_bind, meets_storeWord, meets_pure]
  refine ⟨by rw [head], ?_⟩
  rw [load_store_mod]
  norm_num

theorem enters_of_due {user : Context} (due : (s.alarm p).Due) (free : s.system.kmem.freelist ≠ 0)
    (taken : s.step layout (.timer p user) = some s') : Enters s s' p (s.alarm p).handler := by
  cases steps_of_step taken with
  | tick here late ran => exact absurd due late
  | @alarm _ q _ frame k here _ real ran =>
    obtain ⟨_, epc⟩ := (usertrapTimer_enters due free).result ran
    exact ⟨q, frame, here, real, rfl, by simp [afterAlarm, AlarmState.fired], epc⟩
  | miss here _ ran =>
    obtain ⟨same, _⟩ := (usertrapTimer_enters due free).result ran
    exact absurd (congrArg AlarmState.sigalarm same).symm free

theorem due_of_enters {user : Context} (enters : Enters s s' p handler)
    (taken : s.step layout (.timer p user) = some s') : (s.alarm p).Due := by
  obtain ⟨_, frame, _, _, ledger, _⟩ := enters
  cases steps_of_step taken with
  | tick => exact absurd ledger.symm (List.cons_ne_self _ _)
  | alarm _ due | miss _ due => exact due

/-- After `sigalarm(n, handler)` or the return from that handler, the timer interrupts that enter
the handler are the one with number n + 2 and every 2³²-th after it, and never the one with number
n. -/
theorem alarm_entered_iff (layout : Layout) {s₀ s₁ s₂ s₃ : State} {p handler : Nat} {n : Int}
    {call : Event} {events : List Event} {user : Context} (interval : 0 < n ∧ n < 2 ^ 31)
    (arms : Arms s₀ p n handler call) (armed : s₀.step layout call = some s₁)
    (goes : ∀ event ∈ events, GoesOn p event) (ran : exec (State.step layout) s₁ events = some s₂)
    (free : s₂.system.kmem.freelist ≠ 0) (interrupt : s₂.step layout (.timer p user) = some s₃) :
    (Enters s₂ s₃ p handler ↔ ((timers p events + 1 : Nat) : Int) % 2 ^ 32 = (n + 2) % 2 ^ 32) ∧
      (((timers p events + 1 : Nat) : Int) = n → ¬ Enters s₂ s₃ p handler) := by
  have counting := (Counting.armed arms interval armed).run interval.1 goes ran
  rw [Nat.zero_add] at counting
  have entry : Enters s₂ s₃ p handler ↔
      ((timers p events + 1 : Nat) : Int) % 2 ^ 32 = (n + 2) % 2 ^ 32 := by
    rw [← counting.due_iff interval]
    constructor
    · exact fun enters => due_of_enters enters interrupt
    · intro due
      have enters := enters_of_due due free interrupt
      rwa [counting.handled] at enters
  refine ⟨entry, fun nth => ?_⟩
  rw [entry]
  omega

/-- With an interval of one tick the third interrupt enters the handler. -/
theorem alarm_entered_third :
    ∃ k s₀ s₁ s₂ s₃, kinit smallLayout ⟨fun _ => 0, fun _ => 0, 0⟩ = .ok ((), k) ∧
      exec (State.step smallLayout) (State.start k) [.system (.userinit 0 [])] = some s₀ ∧
      s₀.step smallLayout (.sigalarm 0 ⟨0, fun _ => 0⟩ 1 8) = some s₁ ∧
      exec (State.step smallLayout) s₁
      [.timer 0 ⟨0, fun _ => 0⟩, .timer 0 ⟨0, fun _ => 0⟩] = some s₂ ∧
      s₂.step smallLayout (.timer 0 ⟨0, fun _ => 0⟩) = some s₃ ∧ Enters s₂ s₃ 0 8 := by
  have computed : ((bootState smallLayout [.system (.userinit 0 [])]).bind fun s₀ =>
      (s₀.step smallLayout (.sigalarm 0 ⟨0, fun _ => 0⟩ 1 8)).bind fun s₁ =>
        (exec (State.step smallLayout) s₁ [.timer 0 ⟨0, fun _ => 0⟩, .timer 0 ⟨0, fun _ => 0⟩]).bind
            fun s₂ =>
          (s₂.step smallLayout (.timer 0 ⟨0, fun _ => 0⟩)).map fun _ => s₂.system.kmem.freelist) =
      some (phystop - 8 * pgsize) := by decide +kernel
  obtain ⟨s₀, ended, rest⟩ := bind_eq_some_iff.mp computed
  obtain ⟨s₁, armed, rest⟩ := bind_eq_some_iff.mp rest
  obtain ⟨s₂, ran, rest⟩ := bind_eq_some_iff.mp rest
  obtain ⟨s₃, interrupt, head⟩ := map_eq_some_iff.mp rest
  obtain ⟨k, booted, run⟩ := bootState_some ended
  refine ⟨k, s₀, s₁, s₂, s₃, booted, run, armed, ran, interrupt, ?_⟩
  have arms : Arms s₀ 0 1 8 (.sigalarm 0 ⟨0, fun _ => 0⟩ 1 8) := ⟨rfl, rfl, rfl⟩
  have free : s₂.system.kmem.freelist ≠ 0 := by
    rw [head]
    decide
  exact (alarm_entered_iff smallLayout (by decide) arms armed
    (by simp [GoesOn]) ran free interrupt).1.mpr (by decide)

/-- The first interrupt after `sigalarm(1, handler)` does not enter the handler. -/
theorem alarm_late :
    ∃ k s₁ s₂, kinit smallLayout ⟨fun _ => 0, fun _ => 0, 0⟩ = .ok ((), k) ∧
      exec (State.step smallLayout) (State.start k)
        [.system (.userinit 0 []), .sigalarm 0 ⟨0, fun _ => 0⟩ 1 8] = some s₁ ∧
      s₁.system.kmem.freelist ≠ 0 ∧ s₁.step smallLayout (.timer 0 ⟨0, fun _ => 0⟩) = some s₂ ∧
      ¬ Enters s₁ s₂ 0 8 := by
  have computed :
    ((bootState smallLayout [.system (.userinit 0 []), .sigalarm 0 ⟨0, fun _ => 0⟩ 1 8]).bind
      fun s₁ =>
      (s₁.step smallLayout (.timer 0 ⟨0, fun _ => 0⟩)).map
        fun s₂ => (s₁.system.kmem.freelist, s₂.ledger)) =
      some (phystop - 8 * pgsize, []) := by decide +kernel
  obtain ⟨s₁, ended, rest⟩ := bind_eq_some_iff.mp computed
  obtain ⟨s₂, interrupt, facts⟩ := map_eq_some_iff.mp rest
  obtain ⟨head, ledger⟩ := Prod.mk.inj facts
  obtain ⟨k, booted, run⟩ := bootState_some ended
  refine ⟨k, s₁, s₂, booted, run, by rw [head]; decide, interrupt, ?_⟩
  rintro ⟨_, _, _, _, saved, _⟩
  rw [ledger] at saved
  cases saved

end Entry

end EnhancedXv6.Alarm
