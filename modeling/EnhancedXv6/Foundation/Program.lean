import Mathlib

/-! Programs over a state that may stop with an error, and the rules of their pre-
and postconditions. -/

namespace EnhancedXv6.Foundation

/-- A program reads and changes a state and may stop with an error. -/
abbrev Program (ε σ α : Type) := StateT σ (Except ε) α

/-- Started in `s`, the program ends with a result for which `post` holds, or it stops
with an error for which `stops` holds. It is used by its rules only. -/
@[irreducible]
def Meets (x : Program ε σ α) (s : σ) (post : α → σ → Prop) (stops : ε → Prop) : Prop :=
  match x s with
  | .ok (a, t) => post a t
  | .error e => stops e

section Rules

variable {ε σ α β : Type} {s t : σ} {x : Program ε σ α} {f : α → Program ε σ β}
  {post : α → σ → Prop} {stops : ε → Prop}

theorem meets_bind {post : β → σ → Prop} :
    Meets (x >>= f) s post stops ↔ Meets x s (fun a t => Meets (f a) t post stops) stops := by
  unfold Meets
  cases ended : x s with
  | error | ok => simp [bind, StateT.bind, ended, Except.bind]

theorem meets_pure {a : α} : Meets (pure a : Program ε σ α) s post stops ↔ post a s := by
  unfold Meets
  rfl

theorem meets_throw {e : ε} : Meets (throw e : Program ε σ α) s post stops ↔ stops e := by
  unfold Meets
  rfl

theorem meets_get {post : σ → σ → Prop} : Meets (get : Program ε σ σ) s post stops ↔ post s s := by
  unfold Meets
  rfl

theorem meets_modify {change : σ → σ} {post : Unit → σ → Prop} :
    Meets (modify change : Program ε σ Unit) s post stops ↔ post () (change s) := by
  unfold Meets
  rfl

theorem meets_set {post : Unit → σ → Prop} :
    Meets (set t : Program ε σ Unit) s post stops ↔ post () t := by
  unfold Meets
  rfl

theorem Meets.mono {weaker : α → σ → Prop} {more : ε → Prop} (meets : Meets x s post stops)
    (results : ∀ a t, post a t → weaker a t) (errors : ∀ e, stops e → more e) :
    Meets x s weaker more := by
  unfold Meets at meets ⊢
  cases ended : x s with
  | error e =>
    rw [ended] at meets
    exact errors e meets
  | ok result =>
    rw [ended] at meets
    exact results _ _ meets

theorem Meets.and {also : α → σ → Prop} (first : Meets x s post stops)
    (second : Meets x s also fun _ => True) : Meets x s (fun a t => post a t ∧ also a t) stops := by
  unfold Meets at first second ⊢
  cases ended : x s with
  | error e =>
    rw [ended] at first
    exact first
  | ok result =>
    rw [ended] at first second
    exact ⟨first, second⟩

theorem meets_any : Meets x s (fun _ _ => True) fun _ => True := by
  unfold Meets
  cases x s <;> trivial

/-- What is computed without the errors is what the program returns. -/
theorem ended_of_toOption {result : α × σ} (computed : (x s).toOption = some result) :
    x s = .ok result := by
  cases ended : x s with
  | error e =>
    rw [ended] at computed
    cases computed
  | ok other =>
    rw [ended] at computed
    rw [Option.some.inj computed]

theorem meets_self : Meets x s (fun a t => x s = .ok (a, t)) fun _ => True := by
  unfold Meets
  cases x s with
  | error e => trivial
  | ok result => rfl

theorem Meets.stopped (meets : Meets x s post fun _ => True)
    (only : ∀ e, x s = .error e → stops e) : Meets x s post stops := by
  unfold Meets at meets ⊢
  cases ended : x s with
  | error e => exact only e ended
  | ok result =>
    rw [ended] at meets
    exact meets

/-- The rule of composition: what the first program ensures lets the second one run. -/
theorem Meets.bind {post : β → σ → Prop} {middle : α → σ → Prop} (first : Meets x s middle stops)
    (rest : ∀ a t, middle a t → Meets (f a) t post stops) : Meets (x >>= f) s post stops :=
  meets_bind.mpr (first.mono rest fun _ => id)

theorem meets_of_ended (ended : x s = .ok (a, t)) (holds : post a t) : Meets x s post stops := by
  unfold Meets
  rw [ended]
  exact holds

theorem Meets.result (meets : Meets x s post stops) (ended : x s = .ok (a, t)) : post a t := by
  unfold Meets at meets
  rw [ended] at meets
  exact meets

theorem Meets.ends (meets : Meets x s post fun _ => False) :
    ∃ a t, x s = .ok (a, t) ∧ post a t := by
  unfold Meets at meets
  cases ended : x s with
  | error e =>
    rw [ended] at meets
    exact meets.elim
  | ok result =>
    rw [ended] at meets
    exact ⟨result.1, result.2, rfl, meets⟩

theorem Meets.fails (meets : Meets x s (fun _ _ => False) stops) :
    ∃ e, x s = .error e ∧ stops e := by
  unfold Meets at meets
  cases ended : x s with
  | error e =>
    rw [ended] at meets
    exact ⟨e, rfl, meets⟩
  | ok result =>
    rw [ended] at meets
    exact meets.elim

theorem meets_discard {post : σ → Prop} : Meets (discard x) s (fun _ t => post t) stops ↔
    Meets x s (fun _ t => post t) stops := by
  change Meets (x >>= fun _ => pure ()) s _ _ ↔ _
  rw [meets_bind]
  simp only [meets_pure]

/-- The rule of a loop over a list, with an invariant of the items that are left. -/
theorem meets_forM {body : β → Program ε σ Unit} (invariant : List β → σ → Prop) (items : List β)
    (start : invariant items s)
    (round : ∀ item rest t, invariant (item :: rest) t →
      Meets (body item) t (fun _ u => invariant rest u) stops) :
    Meets (items.forM body) s (fun _ u => invariant [] u) stops := by
  induction items generalizing s with
  | nil => exact meets_pure.mpr start
  | cons item rest ih => exact (round item rest s start).bind fun _ u after => ih after

/-- The rule of a loop over a range, with an invariant of the rounds that are done. -/
theorem meets_forM_range {body : Nat → Program ε σ Unit} (invariant : Nat → σ → Prop) (n : Nat)
    (start : invariant 0 s)
    (round : ∀ i t, i < n → invariant i t →
      Meets (body i) t (fun _ u => invariant (i + 1) u) stops) :
    Meets ((List.range n).forM body) s (fun _ u => invariant n u) stops := by
  have rounds (m k : Nat) (t : σ) (total : k + m = n) (now : invariant k t) :
      Meets ((List.range' k m).forM body) t (fun _ u => invariant n u) stops := by
    induction m generalizing k t with
    | zero =>
      obtain rfl : k = n := by omega
      exact meets_pure.mpr now
    | succ m ih =>
      change Meets (body k >>= fun _ => (List.range' (k + 1) m).forM body) t _ _
      exact (round k t (by omega) now).bind fun _ u after => ih (k + 1) u (by omega) after
  rw [List.range_eq_range']
  exact rounds n 0 s (by omega) start

end Rules

section Zoom

variable {ε δ σ τ α : Type} {view : τ → σ} {put : τ → σ → τ} {embed : ε → δ} {x : Program ε σ α}
  {t : τ}

def Program.zoom (view : τ → σ) (put : τ → σ → τ) (embed : ε → δ) (x : Program ε σ α) :
    Program δ τ α :=
  fun t => match x (view t) with
    | .ok (a, s) => .ok (a, put t s)
    | .error e => .error (embed e)

theorem meets_zoom {post : α → τ → Prop} {stops : δ → Prop} :
    Meets (Program.zoom view put embed x) t post stops ↔
      Meets x (view t) (fun a s => post a (put t s)) fun e => stops (embed e) := by
  unfold Meets Program.zoom
  cases x (view t) with
  | error e => rfl
  | ok result => rfl

end Zoom

end EnhancedXv6.Foundation
