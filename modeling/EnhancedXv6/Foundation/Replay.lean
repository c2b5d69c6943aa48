import Mathlib

/-! Redo of a list of writes over a store of addressed cells. Nothing here
depends on what the cells hold or on how the list of targets was recorded. -/

namespace EnhancedXv6.Foundation

open Function

universe u v

variable {Addr : Type u} {Data : Type v} [DecidableEq Addr]

/-- The store after writes made in order; of two writes to one address the later
one stays. -/
def replay (writes : List (Addr × Data)) (store : Addr → Data) : Addr → Data :=
  writes.foldl (fun store write => Function.update store write.1 write.2) store

theorem replay_concat (writes : List (Addr × Data)) (write : Addr × Data) (store : Addr → Data) :
    replay (writes ++ [write]) store = update (replay writes store) write.1 write.2 := by
  simp [replay]

theorem replay_untouched {writes : List (Addr × Data)}
    (absent : ∀ write ∈ writes, write.1 ≠ address)
    (store : Addr → Data) : replay writes store address = store address := by
  induction writes generalizing store with
  | nil => rfl
  | cons write rest ih =>
    have other : address ≠ write.1 := (absent write (by simp)).symm
    have later : ∀ next ∈ rest, next.1 ≠ address :=
      fun next member => absent next (by simp [member])
    have step : replay (write :: rest) store = replay rest (update store write.1 write.2) := rfl
    rw [step, ih later, update_of_ne other]

/-- A store in which the first `done` targets have their new contents, while the
addresses of the region that are no targets have their old ones. Nothing is said
of the targets that are left, so a redo may start over from any such store. -/
structure Redoing (region : Addr → Prop) (targets : List Addr) (old new store : Addr → Data)
    (done : Nat) : Prop where
  written : ∀ address ∈ targets.take done, store address = new address
  untouched : ∀ address, region address → address ∉ targets → store address = old address

variable {region : Addr → Prop} {targets : List Addr} {old new store : Addr → Data}

section

variable (redoing : Redoing region targets old new store done)

include redoing

omit [DecidableEq Addr] in
theorem Redoing.restart : Redoing region targets old new store 0 :=
  ⟨by simp, redoing.untouched⟩

theorem Redoing.write (target : targets[done]? = some address) :
    Redoing region targets old new (update store address (new address)) (done + 1) := by
  have member : address ∈ targets := List.mem_of_getElem? target
  refine ⟨?_, ?_⟩
  · intro other written
    by_cases same : other = address
    · subst other
      simp
    · rw [update_of_ne same]
      apply redoing.written
      rw [List.take_add_one, target] at written
      simpa [same] using written
  · intro other inside absent
    have different : other ≠ address := fun same => absent (same ▸ member)
    rw [update_of_ne different]
    exact redoing.untouched other inside absent

/-- A redo of all targets gives the new contents everywhere, provided that old and
new agree outside the targets. -/
theorem Redoing.complete (all : targets.length ≤ done)
    (agree : ∀ address, address ∉ targets → new address = old address)
    (inside : region address) : store address = new address := by
  by_cases member : address ∈ targets
  · apply redoing.written
    rwa [List.take_of_length_le all]
  · rw [redoing.untouched address inside member, agree address member]

end

end EnhancedXv6.Foundation
