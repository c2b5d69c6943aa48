import EnhancedXv6.Console.Editor

namespace EnhancedXv6.Console

open Foundation Function List Option

variable {s t : State} {a b : Editor} {p q call target : Nat} {n : Int} {copied : Bool}
  {event : Event} {α : Type}

def State.front (s : State) : UInt8 := s.cons.buf (s.cons.r % inputBufSize)

def State.take (s : State) (call : Nat) : State :=
  { s with
    cons := { s.cons with r := (s.cons.r + 1) % 2 ^ 32 }
    taken := s.taken ++ [(call, s.front)] }

/-- A call takes the character, and its caller gets it. -/
def State.deliver (s : State) (call : Nat) : State :=
  { s.take call with delivered := s.delivered ++ [(call, s.front)] }

inductive Round (s : State) (p call target : Nat) (n : Int) (copied : Bool) : State → Prop
  | done (last : ¬ 0 < n) : Round s p call target n copied (s.finish p call (int32 (target - n)))
  | killed (more : 0 < n) (empty : s.cons.r = s.cons.w) :
      Round s p call target n copied (s.finish p call (-1))
  | sleep (more : 0 < n) (empty : s.cons.r = s.cons.w) :
    Round s p call target n copied { s.goto p (.reading .asleep call target n) with lock := none }
  | saved (more : 0 < n) (full : s.cons.r ≠ s.cons.w) (found : s.front = ctrlD)
      (later : n.toNat < target) :
    Round s p call target n copied (s.finish p call (int32 (target - n)))
  | eof (more : 0 < n) (full : s.cons.r ≠ s.cons.w) (found : s.front = ctrlD)
      (first : ¬ n.toNat < target) :
    Round s p call target n copied ((s.take call).finish p call (int32 (target - n)))
  | fault (more : 0 < n) (full : s.cons.r ≠ s.cons.w) (failed : copied = false) :
    Round s p call target n copied ((s.take call).finish p call (int32 (target - n)))
  | line (more : 0 < n) (full : s.cons.r ≠ s.cons.w) (plain : s.front ≠ ctrlD)
      (success : copied = true) :
    Round s p call target n copied ((s.deliver call).finish p call (int32 (target - (n - 1))))
  | next (more : 0 < n) (full : s.cons.r ≠ s.cons.w) (plain : s.front ≠ ctrlD)
      (success : copied = true) :
    Round s p call target n copied ((s.deliver call).goto p (.reading .locked call target (n - 1)))

theorem readRound_cases (word : s.cons.r < 2 ^ 32) :
    Round s p call target n copied (s.readRound p call target n copied) := by
  unfold State.readRound
  split
  · rename_i more
    split
    · rename_i empty
      split
      · exact .killed more empty
      · exact .sleep more empty
    · rename_i full
      dsimp only
      split
      · rename_i found
        split
        · rename_i later
          have back : ((s.cons.r + 1) % 2 ^ 32 + (2 ^ 32 - 1)) % 2 ^ 32 = s.cons.r := by omega
          rw [back]
          exact .saved more full found later
        · rename_i first
          exact .eof more full found first
      · rename_i plain
        split
        · rename_i failed
          exact .fault more full failed
        · rename_i success
          split
          · exact .line more full plain (Bool.eq_true_of_not_eq_false success)
          · exact .next more full plain (Bool.eq_true_of_not_eq_false success)
  · rename_i last
    exact .done last

inductive Moves (s : State) : Event → State → Prop
  | intr (ch : UInt8) (free : s.lock = none) : Moves s (.intr ch) (s.intr ch)
  | read (p : Nat) (n : Int) (idle : s.phase p = .idle) (int : -2 ^ 31 ≤ n ∧ n < 2 ^ 31) :
    Moves s (.read p n) (s.consoleread p n)
  | acquire (p call target : Nat) (n : Int) (copied : Bool)
      (here : s.phase p = .reading .acquire call target n)
      (free : s.lock = none) :
    Moves s (.advance p copied) { s.goto p (.reading .locked call target n) with lock := some p }
  | round (p call target : Nat) (n : Int) (copied : Bool)
      (here : s.phase p = .reading .locked call target n) :
    Moves s (.advance p copied) (s.readRound p call target n copied)
  | kill (p : Nat) : Moves s (.kill p) (s.kill p)

theorem step_moves (taken : s.step event = some t) : Moves s event t := by
  cases event with
  | intr ch =>
    obtain ⟨free, ⟨⟩⟩ := ite_none_right_eq_some.mp taken
    exact .intr ch free
  | read p n =>
    obtain ⟨⟨idle, int⟩, ⟨⟩⟩ := ite_none_right_eq_some.mp taken
    exact .read p n idle int
  | advance p copied =>
    change s.advance p copied = some t at taken
    unfold State.advance at taken
    split at taken
    · cases taken
    · rename_i here
      obtain ⟨free, ⟨⟩⟩ := ite_none_right_eq_some.mp taken
      exact .acquire p _ _ _ copied here free
    · rename_i here
      cases taken
      exact .round p _ _ _ copied here
    · cases taken
  | kill p =>
    cases taken
    exact .kill p

section Refinement

def Event.typed : Event → Option UInt8
  | .intr ch => some ch
  | _ => none

def Edit.typed : Edit → Option UInt8
  | .type ch => some ch
  | .take => none

structure State.Shows (s : State) (a : Editor) : Prop where
  cons : s.cons.Shows a
  taken : a.taken = s.taken.map Prod.snd

theorem State.Shows.take (shows : s.Shows a) (more : s.cons.r ≠ s.cons.w) (call : Nat) :
    ∃ b, a.step .take = some b ∧ (s.take call).Shows b := by
  obtain ⟨b, taken, cons, last⟩ := shows.cons.take more
  refine ⟨b, taken, cons, ?_⟩
  change b.taken = (s.taken ++ [(call, s.front)]).map Prod.snd
  rw [last, shows.taken, map_append]
  rfl

/-- A step of the editor that stands for a step of the console. -/
def Matches (a : Editor) (event : Event) (t : State) : Prop :=
  ∃ edits b, exec Editor.step a edits = some b ∧ t.Shows b ∧
    edits.filterMap Edit.typed = [event].filterMap Event.typed

theorem State.Shows.still (shows : s.Shows a) (cons : t.cons = s.cons) (taken : t.taken = s.taken)
    (silent : event.typed = none) : Matches a event t := by
  refine ⟨[], a, rfl, ⟨cons ▸ shows.cons, taken ▸ shows.taken⟩, ?_⟩
  rw [filterMap_cons, silent]
  rfl

theorem State.Shows.round (shows : s.Shows a) (round : Round s p call target n copied t) :
    Matches a (.advance p copied) t := by
  have took (more : s.cons.r ≠ s.cons.w) {u : State} (cons : u.cons = (s.take call).cons)
      (taken : u.taken = (s.take call).taken) : Matches a (.advance p copied) u := by
    obtain ⟨b, step, after⟩ := shows.take more call
    refine ⟨[.take], b, ?_, ⟨cons ▸ after.cons, taken ▸ after.taken⟩, rfl⟩
    rw [exec, step]
    rfl
  cases round with
  | done | killed | sleep | saved => exact shows.still rfl rfl rfl
  | eof _ full | fault _ full | line _ full | next _ full => exact took full rfl rfl

theorem State.Shows.step (shows : s.Shows a) (taken : s.step event = some t) :
    Matches a event t := by
  cases step_moves taken with
  | intr ch free =>
    exact ⟨[.type ch], a.type ch, rfl,
      ⟨shows.cons.consoleintr ch, (a.type_taken ch).trans shows.taken⟩, rfl⟩
  | read | acquire | kill => exact shows.still rfl rfl rfl
  | round p call target n copied here => exact shows.round (readRound_cases shows.cons.good.r)

/-- The editor follows the console through a run, with the characters that were typed. -/
theorem State.Shows.run {events : List Event} (shows : s.Shows a)
    (run : exec State.step s events = some t) :
    ∃ edits b, exec Editor.step a edits = some b ∧ t.Shows b ∧
      edits.filterMap Edit.typed = events.filterMap Event.typed := by
  induction events generalizing s a with
  | nil =>
    cases run
    exact ⟨[], a, rfl, shows, rfl⟩
  | cons event rest ih =>
    obtain ⟨u, taken, later⟩ := exec_cons run
    obtain ⟨first, c, begins, middle, typed⟩ := shows.step taken
    obtain ⟨edits, b, ends, last, typed'⟩ := ih middle later
    refine ⟨first ++ edits, b, by rw [exec_append, begins, bind_some, ends], last, ?_⟩
    rw [filterMap_append, typed, typed', ← filterMap_append]
    rfl

end Refinement

section Calls

/-- The call that a process is in, with `target` and `n`. -/
def Phase.job : Phase → Option (Nat × Nat × Int)
  | .idle => none
  | .reading _ call target n => some (call, target, n)

theorem Phase.wake_job (phase : Phase) : phase.wake.job = phase.job := by
  cases phase with
  | idle => rfl
  | reading stage call target n => cases stage <;> rfl

def own {α : Type} (call : Nat) (log : List (Nat × α)) : List (Nat × α) :=
  log.filter fun x => x.1 = call

theorem own_self (call : Nat) (log : List (Nat × α)) (x : α) :
    own call (log ++ [(call, x)]) = own call log ++ [(call, x)] := by
  rw [own, own, filter_append, filter_singleton]
  simp

theorem own_other {c call : Nat} (other : c ≠ call) (log : List (Nat × α)) (x : α) :
    own call (log ++ [(c, x)]) = own call log := by
  rw [own, own, filter_append, filter_singleton]
  simp [other]

theorem own_new {calls : Nat} {log : List (Nat × α)} (old : ∀ x ∈ log, x.1 < calls) :
    own calls log =
    [] := by
  refine filter_eq_nil_iff.mpr fun x member same => ?_
  have less := old x member
  rw [of_decide_eq_true same] at less
  exact Nat.lt_irrefl _ less

theorem mem_own {call : Nat} {log : List (Nat × α)} {x : α} : (call, x) ∈ own call log ↔
    (call, x) ∈ log := by
  rw [own, mem_filter]
  simp

/-- A call that has not returned has taken no `C('D')`, and it has taken nothing if it has all its
bytes to go. -/
structure Job (s : State) (call target : Nat) (n : Int) : Prop where
  started : call < s.calls
  running : own call s.returns = []
  plain : ∀ x ∈ own call s.taken, x.2 ≠ ctrlD
  left : 0 < n → n.toNat ≤ target
  first : 0 < n → n.toNat = target → own call s.taken = []

/-- Calls have their own numbers, and a call that has taken a `C('D')` took nothing else and
returned 0. -/
structure Orderly (s : State) : Prop where
  taken : ∀ x ∈ s.taken, x.1 < s.calls
  returned : ∀ x ∈ s.returns, x.1 < s.calls
  jobs : ∀ p call target n, (s.phase p).job = some (call, target, n) → Job s call target n
  apart : ∀ p q call target n target' n', (s.phase p).job = some (call, target, n) →
    (s.phase q).job = some (call, target', n') → p = q
  delivered : s.delivered = s.taken.filter fun x => x.2 ≠ ctrlD
  eof : ∀ call, (call, ctrlD) ∈ s.taken → own call s.taken = [(call, ctrlD)] ∧
    own call s.returns = [(call, 0)]

theorem Orderly.still (orderly : Orderly s) (jobs : ∀ p, (t.phase p).job = (s.phase p).job)
    (calls : t.calls = s.calls) (taken : t.taken = s.taken) (delivered : t.delivered = s.delivered)
    (returns : t.returns = s.returns) : Orderly t := by
  obtain ⟨old, returned, active, apart, given, eof⟩ := orderly
  refine ⟨?_, ?_, fun p call target n job => ?_, fun p q call target n target' n' => ?_, ?_, ?_⟩
  · rwa [taken, calls]
  · rwa [returns, calls]
  · obtain ⟨started, running, plain, left, first⟩ := active p call target n (jobs p ▸ job)
    exact ⟨calls ▸ started, returns ▸ running, taken ▸ plain, left, taken ▸ first⟩
  · rw [jobs, jobs]
    exact apart p q call target n target' n'
  · rw [delivered, taken, given]
  · rwa [taken, returns]

theorem goto_same (s : State) (p : Nat) (next : Phase) : (s.goto p next).phase p = next := by
  change update s.phase p next p = next
  exact update_self ..

theorem goto_other (s : State) (next : Phase) (other : q ≠ p) :
    (s.goto p next).phase q = s.phase q := by
  change update s.phase p next q = s.phase q
  exact update_of_ne other ..

theorem Orderly.other (orderly : Orderly s) {call' target' : Nat} {n' : Int}
    (job : (s.phase p).job = some (call, target, n))
    (job' : (s.phase q).job = some (call', target', n')) (other : q ≠ p) : call ≠ call' := by
  rintro rfl
  exact other (orderly.apart q p call target' n' target n job' job)

theorem Orderly.not_eof (orderly : Orderly s) {call' : Nat}
    (job : (s.phase p).job = some (call, target, n))
    (eof : (call', ctrlD) ∈ s.taken) : call ≠ call' := by
  rintro rfl
  exact (orderly.jobs p call target n job).plain _ (mem_own.mpr eof) rfl

theorem Job.frame (job : Job s call target n) (calls : s.calls ≤ t.calls)
    (taken : own call t.taken = own call s.taken)
    (returns : own call t.returns = own call s.returns) : Job t call target n :=
  ⟨job.started.trans_le calls, returns.trans job.running, taken ▸ job.plain, job.left,
      fun more same =>
    taken.trans (job.first more same)⟩

section

variable (orderly : Orderly s)

include orderly

/-- One process does something: the jobs of the others and what belongs to their calls stay. -/
theorem Orderly.change (elsewhere : ∀ q, q ≠ p → (t.phase q).job = (s.phase q).job)
    (calls : s.calls ≤ t.calls) (taken : ∀ x ∈ t.taken, x.1 < t.calls)
    (returned : ∀ x ∈ t.returns, x.1 < t.calls)
    (mine : ∀ call target n, (t.phase p).job = some (call, target, n) → Job t call target n ∧
      ∀ q target' n', q ≠ p → (s.phase q).job ≠ some (call, target', n'))
    (frame : ∀ q call target n, q ≠ p → (s.phase q).job = some (call, target, n) →
      own call t.taken = own call s.taken ∧ own call t.returns = own call s.returns)
    (delivered : t.delivered = t.taken.filter fun x => x.2 ≠ ctrlD)
    (eof : ∀ call, (call, ctrlD) ∈ t.taken →
      own call t.taken = [(call, ctrlD)] ∧ own call t.returns = [(call, 0)]) :
    Orderly t := by
  refine ⟨taken, returned, fun q call target n job => ?_,
    fun q q' call target n target' n' job job' => ?_, delivered, eof⟩
  · by_cases same : q = p
    · subst same
      exact (mine call target n job).1
    · rw [elsewhere q same] at job
      obtain ⟨sameTaken, sameReturns⟩ := frame q call target n same job
      exact (orderly.jobs q call target n job).frame calls sameTaken sameReturns
  · by_cases one : q = p
    · by_cases two : q' = p
      · exact one.trans two.symm
      · subst one
        rw [elsewhere q' two] at job'
        exact absurd job' ((mine call target n job).2 q' target' n' two)
    · rw [elsewhere q one] at job
      by_cases two : q' = p
      · subst two
        exact absurd job ((mine call target' n' job').2 q target n one)
      · rw [elsewhere q' two] at job'
        exact orderly.apart q q' call target n target' n' job job'

theorem Orderly.consoleread (int : -2 ^ 31 ≤ n ∧ n < 2 ^ 31) : Orderly (s.consoleread p n) := by
  have newTaken := own_new orderly.taken
  have newReturns := own_new orderly.returned
  refine orderly.change (p := p) (fun q other => congrArg Phase.job (goto_other s _ other))
    (Nat.le_succ _)
    (fun x member => (orderly.taken x member).trans (Nat.lt_succ_self _))
    (fun x member => (orderly.returned x member).trans (Nat.lt_succ_self _))
    (fun call target m job => ?_)
      (fun q call target m other job => ⟨rfl, rfl⟩) orderly.delivered orderly.eof
  have same : (s.calls, (n % 2 ^ 32).toNat, n) = (call, target, m) :=
    some.inj ((congrArg Phase.job (goto_same s p _)).symm.trans job)
  cases same
  refine ⟨⟨Nat.lt_succ_self _, newReturns, ?_, fun more => ?_, fun _ _ => newTaken⟩,
    fun q target' n' _ job' => ?_⟩
  · change ∀ x ∈ own s.calls s.taken, x.2 ≠ ctrlD
    rw [newTaken]
    exact fun x member => absurd member not_mem_nil
  · omega
  · exact absurd (orderly.jobs q _ _ _ job').started (Nat.lt_irrefl _)

section

variable (here : (s.phase p).job = some (call, target, n))

include here

theorem Orderly.finish (result : Int) : Orderly (s.finish p call result) := by
  have running := orderly.jobs p call target n here
  refine orderly.change (p := p)
    (fun q other => congrArg Phase.job (goto_other s _ other)) le_rfl orderly.taken
    (fun x member => ?_) (fun call' target' n' job => ?_)
    (fun q call' target' n' other job => ⟨rfl, ?_⟩)
    orderly.delivered fun call' eof => ?_
  · rcases mem_append.mp member with old | new
    · exact orderly.returned x old
    · rw [mem_singleton.mp new]
      exact running.started
  · rw [show ((s.finish p call result).phase p).job =
      none from congrArg Phase.job (goto_same s p .idle)] at job
    cases job
  · exact own_other (orderly.other here job other) _ _
  · obtain ⟨taken, returned⟩ := orderly.eof call' eof
    exact ⟨taken, (own_other (orderly.not_eof here eof) _ _).trans returned⟩

/-- A character goes to the caller, which has one byte less to go. -/
theorem Orderly.deliver (more : 0 < n) (plain : s.front ≠ ctrlD) (stage : Stage) :
    Orderly ((s.deliver call).goto p (.reading stage call target (n - 1))) := by
  have running := orderly.jobs p call target n here
  refine orderly.change (p := p) (fun q other => congrArg Phase.job (goto_other _ _ other)) le_rfl
    (fun x member => ?_) orderly.returned (fun call' target' n' job => ?_)
    (fun q call' target' n' other job => ⟨own_other (orderly.other here job other) _ _, rfl⟩) ?_
      fun call' eof => ?_
  · rcases mem_append.mp member with old | new
    · exact orderly.taken x old
    · rw [mem_singleton.mp new]
      exact running.started
  · have same : (call, target, n - 1) = (call', target', n') :=
      some.inj ((congrArg Phase.job (goto_same _ p _)).symm.trans job)
    cases same
    have left := running.left more
    refine ⟨⟨running.started, running.running, fun x member => ?_, fun _ => by omega,
      fun _ _ => by omega⟩,
      fun q target' n' other job' => ?_⟩
    · change x ∈ own call (s.taken ++ [(call, s.front)]) at member
      rw [own_self] at member
      rcases mem_append.mp member with old | new
      · exact running.plain x old
      · rw [mem_singleton.mp new]
        exact plain
    · exact absurd rfl (orderly.other here job' other)
  · change s.delivered ++ [(call, s.front)] = (s.taken ++ [(call, s.front)]).filter _
    rw [orderly.delivered, filter_append, filter_singleton]
    simp [plain]
  · have old : (call', ctrlD) ∈ s.taken := by
      rcases mem_append.mp eof with old | new
      · exact old
      · exact absurd (congrArg Prod.snd (mem_singleton.mp new)).symm plain
    obtain ⟨taken, returned⟩ := orderly.eof call' old
    exact ⟨(own_other (orderly.not_eof here old) _ _).trans taken, returned⟩

/-- The end of file goes to a call that has taken nothing, and it returns 0. -/
theorem Orderly.endOfFile (more : 0 < n) (found : s.front = ctrlD) (first : ¬ n.toNat < target) :
    Orderly ((s.take call).finish p call (int32 (target - n))) := by
  have running := orderly.jobs p call target n here
  have whole : n.toNat = target := le_antisymm (running.left more) (not_lt.mp first)
  have nothing := running.first more whole
  have zero : int32 (target - n) = 0 := by
    rw [show (target : Int) - n = 0 by omega]
    rfl
  rw [zero]
  refine orderly.change (p := p) (fun q other => congrArg Phase.job (goto_other _ _ other)) le_rfl
    (fun x member => ?_) (fun x member => ?_) (fun call' target' n' job => ?_)
    (fun q call' target' n' other job => ?_) ?_ fun call' eof => ?_
  · rcases mem_append.mp member with old | new
    · exact orderly.taken x old
    · rw [mem_singleton.mp new]
      exact running.started
  · rcases mem_append.mp member with old | new
    · exact orderly.returned x old
    · rw [mem_singleton.mp new]
      exact running.started
  · rw [show (((s.take call).finish p call 0).phase p).job =
      none from congrArg Phase.job (goto_same _ p .idle)] at job
    cases job
  · have apart := orderly.other here job other
    exact ⟨own_other apart _ _, own_other apart _ _⟩
  · change s.delivered = (s.taken ++ [(call, s.front)]).filter _
    rw [orderly.delivered, filter_append, filter_singleton]
    simp [found]
  · by_cases same : call = call'
    · subst same
      constructor
      · change own call (s.taken ++ [(call, s.front)]) = _
        rw [own_self, nothing, found, nil_append]
      · change own call (s.returns ++ [(call, 0)]) = _
        rw [own_self, running.running, nil_append]
    · have old : (call', ctrlD) ∈ s.taken := by
        rcases mem_append.mp eof with old | new
        · exact old
        · exact absurd (congrArg Prod.fst (mem_singleton.mp new)).symm same
      obtain ⟨taken, returned⟩ := orderly.eof call' old
      exact ⟨(own_other same _ _).trans taken, (own_other same _ _).trans returned⟩

end

end

theorem finish_goto (s : State) (p call : Nat) (next : Phase) (result : Int) :
    (s.goto p next).finish p call result = s.finish p call result := by
  unfold State.finish State.goto
  simp only [update_idem]

theorem Orderly.round (orderly : Orderly s) (here : (s.phase p).job = some (call, target, n))
    (round : Round s p call target n true t) : Orderly t := by
  cases round with
  | done | killed | saved => exact orderly.finish here _
  | sleep more empty =>
    refine orderly.still (fun q => ?_) rfl rfl rfl rfl
    by_cases same : q = p
    · subst same
      exact (congrArg Phase.job (goto_same s q _)).trans here.symm
    · exact congrArg Phase.job (goto_other s _ same)
  | eof more full found first => exact orderly.endOfFile here more found first
  | fault more full failed => cases failed
  | line more full plain success =>
    rw [← finish_goto _ p call (.reading .locked call target (n - 1))]
    exact (orderly.deliver here more plain .locked).finish (congrArg Phase.job (goto_same _ p _)) _
  | next more full plain success => exact orderly.deliver here more plain .locked

def Event.Copies : Event → Prop
  | .advance _ copied => copied = true
  | _ => True

theorem Orderly.step (orderly : Orderly s) (word : s.cons.r < 2 ^ 32) (copies : event.Copies)
    (taken : s.step event = some t) : Orderly t := by
  cases step_moves taken with
  | intr ch free =>
    refine orderly.still (fun q => ?_) rfl rfl rfl rfl
    unfold State.intr
    dsimp only
    split
    · exact (s.phase q).wake_job
    · rfl
  | read p n _ int => exact orderly.consoleread int
  | acquire p call target n copied here free =>
    refine orderly.still (fun q => ?_) rfl rfl rfl rfl
    by_cases same : q = p
    · subst same
      exact (congrArg Phase.job (goto_same s q _)).trans (congrArg Phase.job here).symm
    · exact congrArg Phase.job (goto_other s _ same)
  | round p call target n copied here =>
    cases (show copied = true from copies)
    exact orderly.round (congrArg Phase.job here) (readRound_cases word)
  | kill p =>
    refine orderly.still (fun q => ?_) rfl rfl rfl rfl
    by_cases same : q = p
    · subst same
      exact (congrArg Phase.job (goto_same s q _)).trans (s.phase q).wake_job
    · exact congrArg Phase.job (goto_other s _ same)

end Calls

theorem boot_shows (buf : Nat → UInt8) : (State.boot buf).Shows Editor.empty := by
  have empty : ringItems buf inputBufSize (2 ^ 32) 0 0 = [] := by
    apply length_eq_zero_iff.mp
    rw [length_ringItems, ringCount_self]
  have zero : 0 < 2 ^ 32 := by decide
  have none : ringCount (2 ^ 32) 0 0 ≤ inputBufSize := by decide
  exact ⟨⟨⟨zero, zero, zero, le_rfl, none⟩, empty.symm, empty.symm, not_mem_nil⟩, rfl⟩

theorem boot_orderly (buf : Nat → UInt8) : Orderly (State.boot buf) where
  taken _ member := absurd member not_mem_nil
  returned _ member := absurd member not_mem_nil
  jobs _ _ _ _ job := by cases job
  apart _ _ _ _ _ _ _ job := by cases job
  delivered := rfl
  eof _ member := absurd member not_mem_nil

theorem Orderly.run {events : List Event} (orderly : Orderly s) (shows : s.Shows a)
    (copies : ∀ event ∈ events, event.Copies) (run : exec State.step s events = some t) :
    Orderly t := by
  induction events generalizing s a with
  | nil =>
    cases run
    exact orderly
  | cons event rest ih =>
    obtain ⟨u, taken, later⟩ := exec_cons run
    obtain ⟨_, b, _, middle, _⟩ := shows.step taken
    have next := orderly.step shows.cons.good.r (copies event mem_cons_self) taken
    exact ih next middle (fun other member => copies other (mem_cons_of_mem _ member)) later

/-- The line discipline of the console, after any run in which the copies to the readers succeed. -/
theorem console_line_discipline (buf : Nat → UInt8) (events : List Event)
    (copies : ∀ event ∈ events, event.Copies)
    (s : State) (run : exec State.step (State.boot buf) events = some s) :
    (ringCount (2 ^ 32) s.cons.r s.cons.w ≤ ringCount (2 ^ 32) s.cons.r s.cons.e ∧
      ringCount (2 ^ 32) s.cons.r s.cons.e ≤ inputBufSize) ∧
    (∀ ch, ch = ctrlU ∨ ch = ctrlH ∨ ch = delete →
      (s.cons.consoleintr ch).1.r = s.cons.r ∧ (s.cons.consoleintr ch).1.w = s.cons.w ∧
      (s.cons.consoleintr ch).1.pending = s.cons.pending ∧
      (s.cons.consoleintr ch).1.line <+: s.cons.line) ∧
    (∀ ch, ¬ (ch = ctrlP ∨ ch = ctrlU ∨ ch = ctrlH ∨ ch = delete) → ch ≠ 0 →
      ringCount (2 ^ 32) s.cons.r s.cons.e ≠ inputBufSize →
      (s.cons.consoleintr ch).1.pending ++ (s.cons.consoleintr ch).1.line =
        s.cons.pending ++ s.cons.line ++ [if ch = carriageReturn then newline else ch]) ∧
    (∃ edits a, exec Editor.step Editor.empty edits = some a ∧
      edits.filterMap Edit.typed = events.filterMap Event.typed ∧ a.queue = s.cons.pending ∧
      a.line = s.cons.line ∧
      a.committed = s.taken.map Prod.snd ++ s.cons.pending) ∧
    (s.delivered = s.taken.filter fun x => x.2 ≠ ctrlD) ∧
    ∀ call, (call, ctrlD) ∈ s.taken → own call s.taken = [(call, ctrlD)] ∧
      own call s.returns = [(call, 0)] := by
  obtain ⟨edits, a, edited, shows, typed⟩ := (boot_shows buf).run run
  have orderly := (boot_orderly buf).run (boot_shows buf) copies run
  have good := shows.cons.good
  have kept : a.Kept :=
    exec_invariant (fun _ _ _ before taken => Editor.Kept.step before taken)
      (show Editor.empty.Kept from rfl) edited
  have after (ch : UInt8) := shows.cons.consoleintr ch
  refine ⟨⟨good.order, good.room⟩, fun ch erases => ?_, fun ch ordinary real room => ?_,
    ⟨edits, a, edited, typed, shows.cons.queue, shows.cons.line, ?_⟩,
    orderly.delivered, orderly.eof⟩
  · obtain ⟨r, w⟩ := consoleintr_erases s.cons erases
    obtain ⟨queue, line⟩ := a.type_erases erases
    refine ⟨r, w, ?_, ?_⟩
    · rw [← (after ch).queue, queue, shows.cons.queue]
    · rwa [← (after ch).line, ← shows.cons.line]
  · have length := good.length
    have inside := good.room
    rw [← (after ch).queue, ← (after ch).line, a.type_stores ordinary real, shows.cons.queue,
      shows.cons.line]
    rw [shows.cons.queue, shows.cons.line, length]
    omega
  · rw [kept, shows.taken, shows.cons.queue]

/-- A character and an end of file are typed. The first read gets the one and the second the other.
-/
theorem console_line_discipline_eof : ∃ s,
    exec State.step (State.boot fun _ => 0) [.intr 97, .intr 4, .read 0 5, .advance 0 true,
      .advance 0 true,
      .advance 0 true, .read 0 5, .advance 0 true, .advance 0 true] = some s ∧
    s.delivered = [(0, 97)] ∧ s.taken = [(0, 97), (1, ctrlD)] ∧ own 1 s.returns = [(1, 0)] := by
  have computed : (exec State.step (State.boot fun _ => 0) [.intr 97, .intr 4, .read 0 5,
      .advance 0 true, .advance 0 true, .advance 0 true, .read 0 5, .advance 0 true,
      .advance 0 true]).map
      (fun s => (s.delivered, s.taken)) =
        some ([(0, 97)], [(0, 97), (1, ctrlD)]) := by decide +kernel
  obtain ⟨s, run, facts⟩ := map_eq_some_iff.mp computed
  obtain ⟨delivered, taken⟩ := Prod.mk.inj facts
  have copies : ∀ event ∈ [Event.intr 97, .intr 4, .read 0 5, .advance 0 true, .advance 0 true,
      .advance 0 true, .read 0 5, .advance 0 true, .advance 0 true], event.Copies := by
    simp [Event.Copies]
  obtain ⟨_, _, _, _, _, eof⟩ := console_line_discipline _ _ copies s run
  exact ⟨s, run, delivered, taken, (eof 1 (by rw [taken]; simp)).2⟩

section Waiting

def Phase.sleeps : Phase → Bool
  | .reading .asleep _ _ _ => true
  | _ => false

theorem Phase.sleeps_wake (phase : Phase) : phase.wake.sleeps = false := by
  obtain _ | ⟨_ | _ | _⟩ := phase <;> rfl

def State.Rested (s : State) : Prop := ∀ p, (s.phase p).sleeps = true → s.cons.r = s.cons.w

theorem consoleintr_silent (c : Cons) (ch : UInt8) (silent : (c.consoleintr ch).2 ≠ true) :
    (c.consoleintr ch).1.r = c.r ∧ (c.consoleintr ch).1.w = c.w := by
  unfold Cons.consoleintr at *
  split_ifs at *
  · exact ⟨rfl, rfl⟩
  · exact killLine_keeps _ c
  · exact backspace_keeps c
  · unfold Cons.insert Cons.store at *
    dsimp only at *
    split_ifs at * <;> first | exact ⟨rfl, rfl⟩ | exact absurd rfl silent

/-- A process goes on without a sleep. If it takes a character, there was one, and nobody slept. -/
theorem State.Rested.move {next : Phase} (rested : s.Rested)
    (phase : t.phase = update s.phase p next)
    (awake : next.sleeps = false) (cons : s.cons.r = s.cons.w → t.cons = s.cons) : t.Rested := by
  unfold State.Rested
  rw [phase, forall_update_iff s.phase fun _ phase => phase.sleeps = true → t.cons.r = t.cons.w]
  refine ⟨fun asleep => absurd (awake.symm.trans asleep) nofun, fun q _ asleep => ?_⟩
  have empty := rested q asleep
  rw [cons empty, empty]

theorem State.Rested.round (rested : s.Rested) (round : Round s p call target n copied t) :
    t.Rested := by
  cases round with
  | done | killed | saved => exact rested.move rfl rfl fun _ => rfl
  | sleep _ empty => exact fun _ _ => empty
  | eof _ full | fault _ full | line _ full | next _ full =>
    exact rested.move rfl rfl fun empty => absurd empty full

theorem State.Rested.step (rested : s.Rested) (word : s.cons.r < 2 ^ 32)
    (taken : s.step event = some t) : t.Rested := by
  cases step_moves taken with
  | intr ch =>
    intro q asleep
    by_cases woken : (s.cons.consoleintr ch).2 = true
    · simp [State.intr, woken, Phase.sleeps_wake] at asleep
    · obtain ⟨r, w⟩ := consoleintr_silent s.cons ch woken
      simp only [State.intr, woken] at asleep
      exact r.trans ((rested q asleep).trans w.symm)
  | read | acquire => exact rested.move rfl rfl fun _ => rfl
  | round => exact rested.round (readRound_cases word)
  | kill p => exact rested.move rfl (s.phase p).sleeps_wake fun _ => rfl

/-- No wakeup of the console is lost: in no reachable state a reader sleeps while there is input for
it. -/
theorem consoleread_sleeps_without_input (buf : Nat → UInt8) (events : List Event) :
    Throughout State.step (fun s => ∀ p call target n, s.phase p = .reading .asleep call target n →
      s.cons.r = s.cons.w) (.boot buf) events := by
  have always :
      Throughout State.step (fun s => (∃ a, s.Shows a) ∧ s.Rested) (.boot buf) events := by
    refine throughout_of_preserved ?_ ⟨⟨_, boot_shows buf⟩, nofun⟩
    rintro s event t ⟨⟨a, shows⟩, rested⟩ taken
    obtain ⟨_, b, _, later, _⟩ := shows.step taken
    exact ⟨⟨b, later⟩, rested.step shows.cons.good.r taken⟩
  refine always.mono fun s ⟨_, rested⟩ p call target n asleep => rested p ?_
  rw [asleep]
  rfl

end Waiting

end EnhancedXv6.Console
