import Mathlib

/-! Counting the owners of a resource, resources with one owner, and linked lists of resources. -/

namespace EnhancedXv6.Foundation

open Function Finset

section Owners

variable {ι α : Type} [DecidableEq ι] [DecidableEq α] {names : Finset ι} {f g : ι → Option α}
  {i j : ι} {a b : α}

def owners (names : Finset ι) (f : ι → Option α) (a : α) : Nat :=
  (names.filter fun i => f i = some a).card

omit [DecidableEq ι] in
theorem owners_pos (member : i ∈ names) (owns : f i = some a) : 0 < owners names f a :=
  card_pos.mpr ⟨i, mem_filter.mpr ⟨member, owns⟩⟩

omit [DecidableEq ι] in
theorem exists_of_owners_pos (positive : 0 < owners names f a) : ∃ i ∈ names, f i = some a := by
  obtain ⟨i, member⟩ := card_pos.mp positive
  exact ⟨i, mem_filter.mp member⟩

omit [DecidableEq ι] in
theorem owners_eq_zero (nobody : ∀ i, f i ≠ some a) : owners names f a = 0 := by
  rw [owners, card_eq_zero, filter_eq_empty_iff]
  exact fun i _ => nobody i

omit [DecidableEq ι] in
theorem owners_congr (same : ∀ i ∈ names, f i = some a ↔ g i = some a) :
    owners names f a = owners names g a := by
  rw [owners, owners, filter_congr same]

omit [DecidableEq ι] in
theorem eq_of_owners_le_one (single : owners names f a ≤ 1) (first : i ∈ names) (second : j ∈ names)
    (owns : f i = some a) (owns' : f j = some a) : i = j :=
  card_le_one.mp single i (mem_filter.mpr ⟨first, owns⟩) j
    (mem_filter.mpr ⟨second, owns'⟩)

theorem owners_update (member : i ∈ names) (x : Option α) :
    owners names (update f i x) a + (if f i = some a then 1 else 0) =
      owners names f a + if x = some a then 1 else 0 := by
  have split (h : ι → Option α) :
      owners names h a = owners (names.erase i) h a + if h i = some a then 1 else 0 := by
    rw [owners, owners, ← insert_erase member, filter_insert, erase_insert_eq_erase, erase_idem]
    split
    · exact card_insert_of_notMem (by simp)
    · rfl
  have rest : owners (names.erase i) (update f i x) a = owners (names.erase i) f a := by
    refine owners_congr fun j other => ?_
    rw [update_of_ne (ne_of_mem_erase other)]
  rw [split (update f i x), split f, rest, update_self]
  omega

end Owners

section Sole

variable {ι α β : Type} [DecidableEq ι] {o : β → α → Prop} {f : ι → β} {i : ι} {x : β}

def Sole (owns : ι → α → Prop) : Prop :=
  ∀ i j a, owns i a → owns j a → i = j

theorem Sole.update (sole : Sole fun j a => o (f j) a)
    (free : ∀ a, o x a → ∀ j, j ≠ i → ¬ o (f j) a) : Sole fun j a => o (update f i x j) a := by
  intro j k a first second
  by_cases here : j = i
  · by_cases there : k = i
    · exact here.trans there.symm
    · rw [here, update_self] at first
      rw [update_of_ne there] at second
      exact absurd second (free a first k there)
  · rw [update_of_ne here] at first
    by_cases there : k = i
    · rw [there, update_self] at second
      exact absurd first (free a second j here)
    · rw [update_of_ne there] at second
      exact sole j k a first second

end Sole

section Chain

/-- The nodes of a linked list from its head, where 0 ends the list. -/
def Chain (next : Nat → Nat) : Nat → List Nat → Prop
  | head, [] => head = 0
  | head, x :: rest => head = x ∧ x ≠ 0 ∧ Chain next (next x) rest

theorem Chain.congr {next next' : Nat → Nat} {head : Nat} (chain : Chain next head nodes)
    (same : ∀ x ∈ nodes, next' x = next x) : Chain next' head nodes := by
  induction nodes generalizing head with
  | nil => exact chain
  | cons x rest ih =>
    obtain ⟨first, real, others⟩ := chain
    refine ⟨first, real, ?_⟩
    rw [same x List.mem_cons_self]
    exact ih others fun y member => same y (List.mem_cons_of_mem x member)

theorem Chain.unique {next : Nat → Nat} {head : Nat} (first : Chain next head nodes)
    (second : Chain next head nodes') : nodes = nodes' := by
  induction nodes generalizing head nodes' with
  | nil =>
    cases nodes' with
    | nil => rfl
    | cons y rest => exact absurd (second.1.symm.trans first) second.2.1
  | cons x rest ih =>
    cases nodes' with
    | nil => exact absurd (first.1.symm.trans second) first.2.1
    | cons y rest' =>
      obtain rfl : x = y := first.1.symm.trans second.1
      rw [ih first.2.2 second.2.2]

end Chain

end EnhancedXv6.Foundation
