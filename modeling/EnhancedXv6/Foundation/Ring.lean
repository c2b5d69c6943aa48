import Mathlib

/-! Ring buffers with free-running counters that wrap at a multiple of their size. -/

namespace EnhancedXv6.Foundation

open Function List

/-- The number of items between the reading and the writing counter. -/
def ringCount (modulus reads writes : Nat) : Nat :=
  (writes + modulus - reads) % modulus

/-- The items between the counters, the oldest one first. -/
def ringItems (data : Nat → α) (size modulus reads writes : Nat) : List α :=
  (List.range (ringCount modulus reads writes)).map fun k => data ((reads + k) % modulus % size)

variable {α : Type} {data : Nat → α} {size modulus reads writes : Nat}

theorem ringCount_self : ringCount modulus reads reads = 0 := by
  unfold ringCount
  rw [Nat.add_sub_cancel_left, Nat.mod_self]

theorem ringCount_lt (inside : reads < modulus) : ringCount modulus reads writes < modulus :=
  Nat.mod_lt _ (by omega)

section

variable (readInside : reads < modulus)

include readInside

/-- The writing counter is as many steps ahead as there are items. -/
theorem add_ringCount (writeInside : writes < modulus) :
    (reads + ringCount modulus reads writes) % modulus = writes := by
  unfold ringCount
  rw [Nat.add_mod_mod, show reads + (writes + modulus - reads) = writes + modulus by omega,
    Nat.add_mod_right, Nat.mod_eq_of_lt writeInside]

theorem ringCount_of_add {k : Nat} (few : k < modulus) :
    ringCount modulus reads ((reads + k) % modulus) = k := by
  unfold ringCount
  by_cases wraps : reads + k < modulus
  · rw [Nat.mod_eq_of_lt wraps, show reads + k + modulus - reads = k + modulus by omega,
      Nat.add_mod_right, Nat.mod_eq_of_lt few]
  · have below : (reads + k) % modulus = reads + k - modulus := by
      rw [Nat.mod_eq_sub_mod (by omega), Nat.mod_eq_of_lt (by omega)]
    rw [below, show reads + k - modulus + modulus - reads = k by omega, Nat.mod_eq_of_lt few]

theorem ring_full_iff (writeInside : writes < modulus) (small : size < modulus) :
    writes = (reads + size) % modulus ↔ ringCount modulus reads writes = size := by
  constructor
  · intro full
    rw [full, ringCount_of_add readInside small]
  · intro count
    rw [← count, add_ringCount readInside writeInside]

theorem ringCount_push (writeInside : writes < modulus)
    (room : ringCount modulus reads writes + 1 < modulus) :
    ringCount modulus reads ((writes + 1) % modulus) = ringCount modulus reads writes + 1 := by
  conv_lhs => rw [← add_ringCount readInside writeInside, Nat.mod_add_mod, add_assoc]
  exact ringCount_of_add readInside room

theorem ringCount_pop (writeInside : writes < modulus) (some : reads ≠ writes) :
    ringCount modulus reads writes = ringCount modulus ((reads + 1) % modulus) writes + 1 := by
  have positive : ringCount modulus reads writes ≠ 0 := by
    intro none
    have same := add_ringCount readInside writeInside
    rw [none, add_zero, Nat.mod_eq_of_lt readInside] at same
    exact some same
  obtain ⟨k, count⟩ := Nat.exists_eq_succ_of_ne_zero positive
  have bound : ringCount modulus reads writes < modulus := ringCount_lt readInside
  have next : (reads + 1) % modulus < modulus := Nat.mod_lt _ (by omega)
  have there : writes = ((reads + 1) % modulus + k) % modulus := by
    rw [Nat.mod_add_mod, ← add_ringCount readInside writeInside, count]
    congr 1
    omega
  conv_rhs => rw [there, ringCount_of_add next (by omega)]
  exact count

end

theorem ringItems_spare (item : α) (divides : size ∣ modulus) (readInside : reads < modulus)
    (writeInside : writes < modulus) (room : ringCount modulus reads writes < size) :
    ringItems (update data (writes % size) item) size modulus reads writes =
      ringItems data size modulus reads writes := by
  refine map_congr_left fun k below => update_of_ne ?_ _ _
  have inside := mem_range.mp below
  rw [← add_ringCount readInside writeInside, Nat.mod_mod_of_dvd _ divides,
    Nat.mod_mod_of_dvd _ divides]
  intro same
  -- two positions that are less than the size apart do not share a slot
  have apart := (Nat.ModEq.add_left_cancel' reads same : k ≡ _ [MOD size])
  have equal := apart.eq_of_lt_of_lt (by omega) room
  omega

theorem ringItems_next (readInside : reads < modulus) (writeInside : writes < modulus)
    (room : ringCount modulus reads writes + 1 < modulus) :
    ringItems data size modulus reads ((writes + 1) % modulus) =
      ringItems data size modulus reads writes ++ [data (writes % size)] := by
  unfold ringItems
  rw [ringCount_push readInside writeInside room, range_succ, map_append,
    map_singleton, add_ringCount readInside writeInside]

theorem ringItems_push (item : α) (divides : size ∣ modulus) (small : size < modulus)
    (readInside : reads < modulus) (writeInside : writes < modulus)
    (room : ringCount modulus reads writes < size) :
    ringItems (update data (writes % size) item) size modulus reads ((writes + 1) % modulus) =
      ringItems data size modulus reads writes ++ [item] := by
  rw [ringItems_next readInside writeInside (by omega),
    ringItems_spare item divides readInside writeInside room, update_self]

theorem length_ringItems :
    (ringItems data size modulus reads writes).length = ringCount modulus reads writes := by
  simp [ringItems]

theorem ringItems_pop (readInside : reads < modulus) (writeInside : writes < modulus)
    (some : reads ≠ writes) :
    ringItems data size modulus reads writes =
      data (reads % size) :: ringItems data size modulus ((reads + 1) % modulus) writes := by
  unfold ringItems
  rw [ringCount_pop readInside writeInside some, range_succ_eq_map, map_cons, map_map,
    add_zero, Nat.mod_eq_of_lt readInside]
  congr 1
  refine map_congr_left fun k _ => ?_
  rw [comp_apply, Nat.mod_add_mod]
  congr 3
  omega

section Between

variable {between : Nat}

theorem ringCount_between (readInside : reads < modulus) (betweenInside : between < modulus)
    (writeInside : writes < modulus)
    (order : ringCount modulus reads between ≤ ringCount modulus reads writes) :
    ringCount modulus between writes =
      ringCount modulus reads writes - ringCount modulus reads between := by
  have bound : ringCount modulus reads writes < modulus := ringCount_lt readInside
  have first := add_ringCount readInside betweenInside
  have whole := add_ringCount readInside writeInside
  generalize ringCount modulus reads between = few at *
  generalize ringCount modulus reads writes = all at *
  have there : (between + (all - few)) % modulus = writes := by
    rw [← first, Nat.mod_add_mod, Nat.add_assoc, Nat.add_sub_cancel' order, whole]
  rw [← there]
  exact ringCount_of_add betweenInside (by omega)

theorem ringItems_between (readInside : reads < modulus) (betweenInside : between < modulus)
    (writeInside : writes < modulus)
    (order : ringCount modulus reads between ≤ ringCount modulus reads writes) :
    ringItems data size modulus reads writes =
      ringItems data size modulus reads between ++ ringItems data size modulus between writes := by
  unfold ringItems
  rw [ringCount_between readInside betweenInside writeInside order,
    ← Nat.add_sub_cancel' order, range_add, map_append, Nat.add_sub_cancel_left, map_map]
  congr 1
  refine map_congr_left fun k _ => ?_
  rw [comp_apply, ← Nat.add_assoc, ← Nat.mod_add_mod, add_ringCount readInside betweenInside]

end Between

end EnhancedXv6.Foundation
