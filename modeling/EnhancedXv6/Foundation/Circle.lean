import Mathlib

/-! Circular linked lists: searching along the links, and inserting and removing a
node. A circle is given by its nodes in order, from any of them on. -/

namespace EnhancedXv6.Foundation

open List

variable {α : Type} {next next' : α → α} {stop : α → Bool}

/-- The first node at which the search stops, unless the rounds are used up before. -/
def seek (next : α → α) (stop : α → Bool) : Nat → α → Option α
  | 0, _ => none
  | fuel + 1, node => if stop node then some node else seek next stop fuel (next node)

/-- More rounds do not change a result. -/
def Steady (run : Nat → Option β) : Prop := ∀ fuel x, run fuel = some x → run (fuel + 1) = some x

theorem Steady.more {run : Nat → Option β} (steady : Steady run) (returns : run fuel = some x)
    (more : fuel ≤ fuel') : run fuel' = some x := by
  induction more with
  | refl => exact returns
  | step _ ih => exact steady _ x ih

theorem Steady.map {run : Nat → Option β} (steady : Steady run) (f : β → γ) :
    Steady fun fuel => (run fuel).map f := by
  intro fuel y returns
  obtain ⟨x, found, rfl⟩ := Option.map_eq_some_iff.mp returns
  exact Option.map_eq_some_iff.mpr ⟨x, steady fuel x found, rfl⟩

theorem Steady.guard {run : Nat → Option β} (steady : Steady run) (p : Prop) [Decidable p] :
    Steady fun fuel => if p then run fuel else none := by
  intro fuel x returns
  split at returns
  · rename_i holds
    exact (if_pos holds).trans (steady fuel x returns)
  · cases returns

theorem seek_steady : Steady fun fuel => seek next stop fuel a := by
  intro fuel t found
  induction fuel generalizing a with
  | zero => cases found
  | succ fuel ih =>
    simp only [seek] at found ⊢
    split at found
    · rename_i stops
      simpa [stops] using found
    · rename_i goes
      simp only [goes, Bool.false_eq_true, if_false]
      exact ih found

/-- Every node links to the one after it, and the last one to the first. -/
def ClosedChain (next : α → α) (nodes : List α) : Prop :=
  List.IsChain (fun a b => next a = b) (nodes ++ nodes.take 1)

theorem circle_cons : ClosedChain next (a :: l) ↔
    next a = l.head?.getD a ∧ List.IsChain (fun a b => next a = b) (l ++ [a]) := by
  unfold ClosedChain
  cases l with
  | nil => simp
  | cons b l => simp [isChain_cons_cons]

theorem chain_congr (same : ∀ x ∈ l, next' x = next x)
    (chain : List.IsChain (fun a b => next a = b) (l ++ [a])) :
    List.IsChain (fun a b => next' a = b) (l ++ [a]) := by
  induction l with
  | nil => simp
  | cons b l ih =>
    have first := same b mem_cons_self
    have rest := ih (fun x member => same x (mem_cons_of_mem b member)) chain.tail
    cases l with
    | nil =>
      simp only [cons_append, nil_append, isChain_cons_cons, isChain_singleton, and_true] at chain ⊢
      rw [first, chain]
    | cons c l =>
      simp only [cons_append, isChain_cons_cons] at chain ⊢
      exact ⟨first.trans chain.1, rest⟩

theorem ClosedChain.rotate (circle : ClosedChain next (l ++ m)) : ClosedChain next (m ++ l) := by
  cases l with
  | nil => simpa using circle
  | cons a l =>
    cases m with
    | nil => simpa using circle
    | cons b m =>
      have whole : List.IsChain (fun a b => next a = b) ((a :: l ++ [b]) ++ (m ++ [a])) := by
        simpa [ClosedChain] using circle
      have first : List.IsChain (fun a b => next a = b) (a :: l ++ [b]) := whole.left_of_append
      have second : List.IsChain (fun a b => next a = b) ((b :: m) ++ [a]) := by
        have split : (a :: l ++ [b]) ++ (m ++ [a]) = (a :: l) ++ (b :: m ++ [a]) := by simp
        rw [split] at whole
        exact whole.right_of_append
      have back : List.IsChain (fun a b => next a = b) ([a] ++ (l ++ [b])) := by simpa using first
      have joined := second.append_overlap back (by simp)
      simpa [ClosedChain] using joined

theorem ClosedChain.next_mem (circle : ClosedChain next nodes) (member : a ∈ nodes) :
    next a ∈ nodes := by
  obtain ⟨left, right, rfl⟩ := append_of_mem member
  have link := (circle_cons.mp (show ClosedChain next (a :: (right ++ left)) from circle.rotate)).1
  rw [link]
  cases around : right ++ left with
  | nil => simp
  | cons b l =>
    have other : b ∈ right ++ left := around ▸ mem_cons_self
    simp only [head?_cons, Option.getD_some]
    simp only [mem_append, mem_cons] at other ⊢
    tauto

theorem chain_iterate (chain : List.IsChain (fun a b => next a = b) (a :: l)) (member : b ∈ l) :
    ∃ k, next^[k] a = b := by
  induction l generalizing a with
  | nil => cases member
  | cons c l ih =>
    obtain ⟨link, rest⟩ := isChain_cons_cons.mp chain
    rcases mem_cons.mp member with rfl | later
    · exact ⟨1, link⟩
    · obtain ⟨k, reached⟩ := ih rest later
      exact ⟨k + 1, by rw [Function.iterate_succ_apply, link, reached]⟩

/-- A search that starts at the first node finds the first node in order. -/
theorem ClosedChain.seek (circle : ClosedChain next (a :: l)) (found : (a :: l).find? stop = some t)
    (enough : l.length < fuel) : seek next stop fuel a = some t := by
  have chain : List.IsChain (fun a b => next a = b) (a :: l) :=
    (show List.IsChain _ ((a :: l) ++ [a]) from circle).left_of_append
  clear circle
  induction l generalizing a fuel with
  | nil =>
    obtain ⟨fuel, rfl⟩ : ∃ m, fuel = m + 1 := ⟨fuel - 1, by simp at enough; omega⟩
    by_cases stops : stop a
    · simpa [EnhancedXv6.Foundation.seek, stops] using found
    · simp [stops] at found
  | cons b l ih =>
    obtain ⟨fuel, rfl⟩ : ∃ m, fuel = m + 1 := ⟨fuel - 1, by simp at enough; omega⟩
    obtain ⟨link, rest⟩ := isChain_cons_cons.mp chain
    by_cases stops : stop a
    · simpa [EnhancedXv6.Foundation.seek, stops] using found
    · have later : (b :: l).find? stop = some t := by simpa [stops] using found
      simp only [EnhancedXv6.Foundation.seek, stops, Bool.false_eq_true, if_false, link]
      exact ih later (by simp at enough; omega) rest

theorem ClosedChain.insert (circle : ClosedChain next (a :: l)) (same : ∀ x ∈ l, next' x = next x)
    (into : next' a = b) (out : next' b = next a) : ClosedChain next' (a :: b :: l) := by
  obtain ⟨first, rest⟩ := circle_cons.mp circle
  refine circle_cons.mpr ⟨into, ?_⟩
  have tail := chain_congr same rest
  cases l with
  | nil =>
    simp only [cons_append, nil_append, isChain_cons_cons, isChain_singleton, and_true]
    rw [out, first]
    rfl
  | cons c l =>
    refine isChain_cons_cons.mpr ⟨?_, tail⟩
    rw [out, first]
    rfl

theorem ClosedChain.remove (circle : ClosedChain next (a :: b :: l))
    (same : ∀ x ∈ l, next' x = next x) (skip : next' a = next b) : ClosedChain next' (a :: l) := by
  obtain ⟨_, rest⟩ := circle_cons.mp circle
  cases l with
  | nil =>
    simp only [cons_append, nil_append, isChain_cons_cons] at rest
    refine circle_cons.mpr ⟨?_, by simp⟩
    rw [skip, rest.1]
    rfl
  | cons c l =>
    obtain ⟨link, tail⟩ := isChain_cons_cons.mp rest
    refine circle_cons.mpr ⟨?_, chain_congr same tail⟩
    rw [skip, link]
    rfl

end EnhancedXv6.Foundation
