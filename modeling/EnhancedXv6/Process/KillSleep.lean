import EnhancedXv6.Foundation.Run
import EnhancedXv6.Process.Proc

/-! `kill` against the loops in which a process sleeps until there is something for it to do. Each
of them asks `killed` before it calls `sleep`; the two are separate critical sections of `p->lock`.
-/

namespace EnhancedXv6.Process

open Foundation Option List ProcState

/-- The loops that give up when the process has been killed. -/
inductive KillableLoop where
  | wait
  | piperead
  | pipewrite
  | consoleread
  | sysSleep
  deriving DecidableEq, Repr

/-- What a round of such a loop does: look whether the loop ends, ask `killed`, look whether there
is room after all, and call `sleep`. -/
inductive LoopAction where
  | look
  | killed
  | full
  | sleep
  deriving DecidableEq, Repr

/-- A round, in the order of the source. Only `pipewrite` looks once more after the question. -/
def KillableLoop.body : KillableLoop → List LoopAction
  | .wait => [.look, .killed, .sleep]
  | .piperead => [.look, .killed, .sleep]
  | .pipewrite => [.look, .killed, .full, .sleep]
  | .consoleread => [.look, .killed, .sleep]
  | .sysSleep => [.look, .killed, .sleep]

/-- Where the process is: outside of the loops, waiting for the lock of one, in a round with that
lock held, in `sleep` with `p->lock` and the other lock, in `sleep` with `p->lock` only, asleep in a
loop, or asleep in some other place. -/
inductive Place where
  | outside
  | acquiring (loop : KillableLoop)
  | inside (loop : KillableLoop) (rest : List LoopAction)
  | entering (loop : KillableLoop)
  | handing (loop : KillableLoop)
  | asleep (loop : KillableLoop)
  | elsewhere
  deriving DecidableEq, Repr

/-- The process that is killed. `marked` says that a `kill` has returned 0. The channels are left
out, so any `wakeup` can end its sleep. -/
structure Victim where
  place : Place
  proc : Proc
  ticks : Nat
  marked : Bool

/-- The lock steps of the process, where `stays` is what it finds when it looks, and the steps of
the others. -/
inductive VictimEvent where
  | enter (loop : KillableLoop)
  | acquire
  | advance (stays : Bool)
  | handover
  | block (chan : Chan)
  | yield
  | wakeup
  | dispatch
  | kill
  deriving DecidableEq, Repr

def Victim.goto (s : Victim) (place : Place) : Victim := { s with place := place }

def Victim.act (s : Victim) (loop : KillableLoop) (rest : List LoopAction) (stays : Bool) :
    LoopAction → Victim
  | .look => s.goto (if stays then .inside loop rest else .outside)
  | .killed => s.goto (if s.proc.killed ≠ 0 then .outside else .inside loop rest)
  | .full => s.goto (.inside loop (if stays then rest else loop.body))
  | .sleep => s.goto (.entering loop)

def Victim.step (s : Victim) : VictimEvent → Option Victim
  | .enter loop =>
    if s.proc.state = .running ∧ s.place = .outside then some (s.goto (.acquiring loop)) else none
  | .acquire =>
    match s.place with
    | .acquiring loop =>
      if s.proc.state = .running then some (s.goto (.inside loop loop.body)) else none
    | _ => none
  | .advance stays =>
    match s.place with
    | .inside loop (action :: rest) => some (s.act loop rest stays action)
    | _ => none
  | .handover =>
    match s.place with
    | .entering loop => some (s.goto (.handing loop))
    | .handing loop =>
      some { s.goto (.asleep loop) with proc := { s.proc with state := .sleeping } }
    | _ => none
  | .block chan =>
    if s.proc.state = .running ∧ s.place = .outside then
      some { s.goto .elsewhere with proc := { s.proc with state := .sleeping, chan := some chan } }
    else none
  | .yield =>
    match s.place with
    | .outside | .acquiring _ =>
      if s.proc.state = .running then
        some { s with proc := { s.proc with state := .runnable } }
      else
        none
    | _ => none
  | .wakeup =>
    if s.proc.state = .sleeping then some { s with proc := s.proc.roused s.ticks } else none
  | .dispatch =>
    if s.proc.state = .runnable then
      let s := { s with proc := { s.proc with state := .running } }
      match s.place with
      | .asleep loop => some (s.goto (.acquiring loop))
      | .elsewhere => some (s.goto .outside)
      | _ => some s
    else none
  | .kill =>
    match s.place with
    -- `sleep` has `p->lock`
    | .entering _ | .handing _ => none
    | _ => some { s with proc := s.proc.killedBy s.ticks, marked := true }

/-- The process has asked `killed` in this round and not yet called `sleep`. -/
def Place.asked : Place → Bool
  | .inside _ rest => decide (LoopAction.killed ∉ rest)
  | _ => false

/-- `kill` does not come between the question and the sleep. -/
def Heard (s : Victim) (event : VictimEvent) : Prop := event = .kill → s.place.asked = false

instance decidableHeard (s : Victim) (event : VictimEvent) : Decidable (Heard s event) :=
  inferInstanceAs (Decidable (_ → _))

/-- The process sleeps in one of the loops although it has been killed. -/
def Victim.Missed (s : Victim) : Prop :=
  s.marked = true ∧ s.proc.state = .sleeping ∧ s.proc.killed ≠ 0 ∧ s.place ≠ .elsewhere

section Run

variable {s t : Victim} {loop : KillableLoop} {rest : List LoopAction} {action : LoopAction}

/-- A process that has been killed is not past the question. -/
def Place.Warned (p : Proc) : Place → Prop
  | .outside => p.state ≠ .sleeping
  | .acquiring _ => p.state ≠ .sleeping
  | .inside loop rest =>
    p.state = .running ∧ rest <:+ loop.body ∧ (LoopAction.killed ∉ rest → p.killed = 0)
  | .entering _ => p.state = .running ∧ p.killed = 0
  | .handing _ => p.state = .running ∧ p.killed = 0
  | .asleep _ => p.state = .sleeping → p.killed = 0
  | .elsewhere => True

def Victim.Warned (s : Victim) : Prop := s.place.Warned s.proc

theorem Victim.Warned.not_missed (warned : s.Warned) : ¬ s.Missed := by
  rintro ⟨_, sleeps, killed, here⟩
  unfold Victim.Warned at warned
  cases place : s.place with
  | elsewhere => exact here place
  | outside | acquiring =>
    rw [place] at warned
    exact warned sleeps
  | inside | entering | handing =>
    rw [place] at warned
    rw [warned.1] at sleeps
    cases sleeps
  | asleep =>
    rw [place] at warned
    exact killed (warned sleeps)

open LoopAction

/-- The question has been asked when a round comes to `sleep`. -/
theorem asked_of_sleep (suffix : sleep :: rest <:+ loop.body) : killed ∉ sleep :: rest := by
  have all : ∀ l ∈ loop.body.tails, l.head? = some .sleep → killed ∉ l := by
    cases loop <;> decide
  exact all _ ((mem_tails _ _).mpr suffix) rfl

theorem killed_mem_body (loop : KillableLoop) : killed ∈ loop.body := by
  cases loop <;> decide

theorem running_awake (running : s.proc.state = .running) : s.proc.state ≠ .sleeping := by
  rw [running]
  decide

theorem Victim.Warned.act (warned : (Place.inside loop (action :: rest)).Warned s.proc)
    (stays : Bool) : (s.act loop rest stays action).Warned := by
  obtain ⟨running, suffix, asked⟩ := warned
  have shorter : rest <:+ loop.body := (suffix_cons action rest).trans suffix
  have same (other : action ≠ .killed) : killed ∉ rest → s.proc.killed = 0 := fun later =>
    asked fun member => later ((mem_cons.mp member).resolve_left other.symm)
  cases action with
  | look =>
    cases stays with
    | false => exact running_awake running
    | true => exact ⟨running, shorter, same noConfusion⟩
  | killed =>
    change (s.goto (if s.proc.killed ≠ 0 then .outside else .inside loop rest)).Warned
    by_cases alive : s.proc.killed = 0
    · rw [if_neg (not_not_intro alive)]
      exact ⟨running, shorter, fun _ => alive⟩
    · rw [if_pos alive]
      exact running_awake running
  | full =>
    cases stays with
    | false => exact ⟨running, suffix_refl _, fun later => absurd (killed_mem_body loop) later⟩
    | true => exact ⟨running, shorter, same noConfusion⟩
  | sleep => exact ⟨running, asked (asked_of_sleep suffix)⟩

theorem killedBy_awake (p : Proc) (ticks : Nat) : (p.killedBy ticks).state ≠ .sleeping := by
  unfold Proc.killedBy
  split
  · exact noConfusion
  · assumption

theorem killedBy_running {p : Proc} (running : p.state = .running) (ticks : Nat) :
    (p.killedBy ticks).state = .running := by
  unfold Proc.killedBy
  rw [if_neg (by rw [running]; decide)]
  exact running

/-- `kill` while the process has the question before it, sleeps, or is somewhere else. -/
theorem Victim.Warned.kill (warned : s.Warned) (heard : s.place.asked = false)
    (taken : s.step .kill = some t) : t.Warned := by
  unfold Victim.Warned at warned
  unfold step at taken
  cases place : s.place with
  | entering loop | handing loop =>
    rw [place] at taken
    cases taken
  | outside | acquiring =>
    rw [place] at taken
    cases taken
    exact killedBy_awake _ _
  | elsewhere =>
    rw [place] at taken
    cases taken
    trivial
  | asleep loop =>
    rw [place] at taken
    cases taken
    exact fun sleeps => absurd sleeps (killedBy_awake _ _)
  | inside loop rest =>
    rw [place] at taken warned
    cases taken
    obtain ⟨running, suffix, _⟩ := warned
    rw [place] at heard
    exact ⟨killedBy_running running _, suffix, fun later => absurd later (of_decide_eq_false heard)⟩

theorem Victim.Warned.dispatch (warned : s.Warned) (taken : s.step .dispatch = some t) :
    t.Warned := by
  obtain ⟨ready, taken⟩ := ite_none_right_eq_some.mp taken
  unfold Victim.Warned at warned
  cases place : s.place with
  | asleep loop | elsewhere | outside | acquiring loop =>
    simp only [place, some.injEq] at taken
    cases taken
    simp only [Victim.Warned, goto, Place.Warned]
    exact noConfusion
  | inside loop rest | entering loop | handing loop =>
    rw [place] at warned
    rw [warned.1] at ready
    cases ready

theorem Victim.Warned.step {event : VictimEvent} (warned : s.Warned) (heard : Heard s event)
    (taken : s.step event = some t) : t.Warned := by
  cases event with
  | kill => exact warned.kill (heard rfl) taken
  | dispatch => exact warned.dispatch taken
  | enter loop =>
    obtain ⟨free, same⟩ := ite_none_right_eq_some.mp taken
    cases same
    exact running_awake free.1
  | block chan =>
    obtain ⟨_, same⟩ := ite_none_right_eq_some.mp taken
    cases same
    trivial
  | wakeup =>
    obtain ⟨sleeps, same⟩ := ite_none_right_eq_some.mp taken
    cases same
    unfold Victim.Warned at warned ⊢
    cases place : s.place with
    | outside | acquiring => exact noConfusion
    | elsewhere => trivial
    | asleep => exact noConfusion
    | inside | entering | handing =>
      rw [place] at warned
      rw [warned.1] at sleeps
      cases sleeps
  | acquire =>
    unfold Victim.step at taken
    cases place : s.place with
    | acquiring loop =>
      rw [place] at taken
      obtain ⟨running, same⟩ := ite_none_right_eq_some.mp taken
      cases same
      exact ⟨running, suffix_refl _, fun later => absurd (killed_mem_body loop) later⟩
    | outside | inside | entering | handing | asleep | elsewhere =>
      rw [place] at taken
      cases taken
  | advance stays =>
    unfold Victim.step at taken
    unfold Victim.Warned at warned
    cases place : s.place with
    | inside loop rest =>
      cases rest with
      | nil =>
        rw [place] at taken
        cases taken
      | cons action rest =>
        rw [place] at taken warned
        cases taken
        exact Victim.Warned.act warned stays
    | outside | acquiring | entering | handing | asleep | elsewhere =>
      rw [place] at taken
      cases taken
  | handover =>
    unfold Victim.step at taken
    unfold Victim.Warned at warned
    cases place : s.place with
    | entering loop =>
      rw [place] at taken warned
      cases taken
      exact warned
    | handing loop =>
      rw [place] at taken warned
      cases taken
      exact fun _ => warned.2
    | outside | acquiring | inside | asleep | elsewhere =>
      rw [place] at taken
      cases taken
  | yield =>
    unfold Victim.step at taken
    cases place : s.place with
    | outside | acquiring =>
      rw [place] at taken
      obtain ⟨_, same⟩ := ite_none_right_eq_some.mp taken
      cases same
      exact noConfusion
    | inside | entering | handing | asleep | elsewhere =>
      rw [place] at taken
      cases taken

end Run

/-- A process that runs outside of the loops and has not been killed. -/
def Victim.start (p : Proc) (ticks : Nat) : Victim where
  place := .outside
  proc := { p with state := .running, killed := 0 }
  ticks := ticks
  marked := false

/-- Where no `kill` comes between the question and the sleep, the process never sleeps in one of the
loops after it has been killed. -/
theorem killed_not_left_asleep (p : Proc) (ticks : Nat) (events : List VictimEvent)
    (heard : Along Victim.step Heard (Victim.start p ticks) events) :
    Throughout Victim.step (fun s => ¬ s.Missed) (Victim.start p ticks) events := by
  have warned : (Victim.start p ticks).Warned := ProcState.noConfusion
  refine (throughout_of_along
    (fun _ _ _ warned heard taken => warned.step heard taken) warned heard).mono ?_
  exact fun s warned => warned.not_missed

/-- A `kill` that wakes the process in `piperead`. -/
theorem killed_not_left_asleep_piperead : ∃ s,
    exec Victim.step (Victim.start {} 0) [.enter .piperead, .acquire, .advance true, .advance true,
      .advance true,
      .handover, .handover, .kill] = some s ∧ s.marked = true ∧ ¬ s.Missed := by
  refine ⟨_, rfl, rfl, ?_⟩
  exact (killed_not_left_asleep {} 0 [.enter .piperead, .acquire, .advance true, .advance true,
    .advance true, .handover, .handover, .kill] (by decide)).final rfl

/-- The steps of a process up to the question, the `kill`, and the sleep. -/
def race (loop : KillableLoop) : List VictimEvent :=
  [.enter loop, .acquire, .advance true, .advance true, .kill] ++
    List.replicate (loop.body.length - 2) (.advance true) ++ [.handover, .handover]

/-- In each of the five loops a `kill` between the question and the sleep is missed. -/
theorem race_missed (loop : KillableLoop) :
    ∃ s, exec Victim.step (Victim.start {} 0) (race loop) = some s ∧ s.Missed := by
  cases loop with
  | wait | piperead | pipewrite | consoleread | sysSleep =>
    exact ⟨_, rfl, rfl, rfl, by decide, by decide⟩

/-- A reader of an empty pipe sleeps on although it has been killed. -/
theorem kill_before_sleep_missed :
    ∃ s, exec Victim.step (Victim.start {} 0) (race .piperead) = some s ∧ s.Missed :=
  race_missed .piperead

end EnhancedXv6.Process
