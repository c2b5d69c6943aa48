import Mathlib.Data.BitVec
import Mathlib.Logic.Function.Basic

namespace EnhancedXv6.Library

open Function

abbrev Address := BitVec 64

abbrev Bytes := Address → BitVec 8

/-- `while(n-- > 0) *d++ = *s++;` -/
def copyUp (m : Bytes) (d s : Address) : Nat → Bytes
  | 0 => m
  | n + 1 => copyUp (Function.update m d (m s)) (d + 1) (s + 1) n

/-- `while(n-- > 0) *--d = *--s;` -/
def copyDown (m : Bytes) (d s : Address) : Nat → Bytes
  | 0 => m
  | n + 1 => copyDown (Function.update m (d - 1) (m (s - 1))) (d - 1) (s - 1) n

/-- The kernel's `memmove`, where `n` is a `uint`. -/
def kernelMemmove (m : Bytes) (dst src : Address) (n : BitVec 32) : Address × Bytes :=
  if n = 0 then (dst, m)
  else if src < dst ∧ src + n.setWidth 64 > dst then
    (dst, copyDown m (dst + n.setWidth 64) (src + n.setWidth 64) n.toNat)
  else (dst, copyUp m dst src n.toNat)

/-- The `memmove` of the user library, where `n` is an `int`. -/
def userMemmove (m : Bytes) (dst src : Address) (n : BitVec 32) : Address × Bytes :=
  if src > dst then (dst, copyUp m dst src n.toInt.toNat)
  else (dst, copyDown m (dst + n.signExtend 64) (src + n.signExtend 64) n.toInt.toNat)

/-- The bytes that `count` bytes at one place become when those of another place are moved there. -/
def moved (m : Bytes) (dst src : Address) (count : Nat) : Bytes :=
  fun a => if (a - dst).toNat < count then m (src + (a - dst)) else m a

section

variable {m : Bytes} {d s dst src : Address} {count : Nat}

theorem moved_zero (m : Bytes) (dst src : Address) : moved m dst src 0 = m := by
  funext a
  exact if_neg (Nat.not_lt_zero _)

/-- Bytes are copied in ascending order if none is overwritten before it is read. -/
theorem copyUp_eq (small : count ≤ 2 ^ 64)
    (unread : ∀ i j : Nat, j < i → i < count → d + .ofNat 64 j ≠ s + .ofNat 64 i) :
    copyUp m d s count = moved m d s count := by
  induction count generalizing m d s with
  | zero => exact (moved_zero m d s).symm
  | succ count ih =>
    rw [copyUp, ih (by omega)]
    · funext a
      unfold moved
      by_cases first : a = d
      · subst first
        rw [if_neg (by bv_omega), if_pos (by bv_omega), update_self]
        congr 1
        bv_omega
      · have next : s + 1 + (a - (d + 1)) = s + (a - d) := by bv_omega
        have shifted : (a - (d + 1)).toNat < count ↔ (a - d).toNat < count + 1 := by bv_omega
        rw [next, update_of_ne first, if_congr shifted rfl rfl]
        refine ite_congr rfl (fun inside => update_of_ne ?_ _ _) fun _ => rfl
        have later := unread (a - d).toNat 0 (by bv_omega) inside
        rw [BitVec.ofNat_toNat, BitVec.setWidth_eq, BitVec.add_zero] at later
        exact later.symm
    · intro i j below inside same
      apply unread (i + 1) (j + 1) (by omega) (by omega)
      bv_omega

theorem copyDown_eq (small : count ≤ 2 ^ 64)
    (unread : ∀ i j : Nat, i < j → j < count → d + .ofNat 64 j ≠ s + .ofNat 64 i) :
    copyDown m (d + .ofNat 64 count) (s + .ofNat 64 count) count = moved m d s count := by
  induction count generalizing m with
  | zero => exact (moved_zero m d s).symm
  | succ count ih =>
    have back (p : Address) : p + .ofNat 64 (count + 1) - 1 = p + .ofNat 64 count := by bv_omega
    rw [copyDown, back, back, ih (by omega) fun i j below inside => unread i j below (by omega)]
    funext a
    unfold moved
    by_cases last : a = d + .ofNat 64 count
    · subst last
      have offset : d + .ofNat 64 count - d = BitVec.ofNat 64 count := by bv_omega
      rw [offset, if_neg (by bv_omega), if_pos (by bv_omega), update_self]
    · have inner : (a - d).toNat < count ↔ (a - d).toNat < count + 1 := by bv_omega
      rw [update_of_ne last, ← if_congr inner rfl rfl]
      refine ite_congr rfl (fun inside => update_of_ne ?_ _ _) fun _ => rfl
      have earlier := unread (a - d).toNat count inside (by omega)
      rw [BitVec.ofNat_toNat, BitVec.setWidth_eq] at earlier
      exact earlier.symm

theorem kernelMemmove_eq (m : Bytes) (dst src : Address) (n : BitVec 32)
    (source : src.toNat + n.toNat ≤ 2 ^ 64) (target : dst.toNat + n.toNat ≤ 2 ^ 64) :
    kernelMemmove m dst src n = (dst, moved m dst src n.toNat) := by
  have small : n.toNat ≤ 2 ^ 64 := by omega
  have wide : n.setWidth 64 = .ofNat 64 n.toNat := by bv_omega
  unfold kernelMemmove
  rw [wide]
  split
  · rename_i none
    subst none
    exact congrArg (Prod.mk dst) (moved_zero m dst src).symm
  · split
    · rename_i overlaps
      rw [copyDown_eq small]
      intro i j below inside
      bv_omega
    · rename_i apart
      rw [copyUp_eq small]
      intro i j below inside
      bv_omega

theorem userMemmove_eq (m : Bytes) (dst src : Address) (n : BitVec 32)
    (source : src.toNat + n.toInt.toNat ≤ 2 ^ 64) (target : dst.toNat + n.toInt.toNat ≤ 2 ^ 64) :
    userMemmove m dst src n = (dst, moved m dst src n.toInt.toNat) := by
  have small : n.toInt.toNat ≤ 2 ^ 64 := by omega
  unfold userMemmove
  split
  · rename_i above
    rw [copyUp_eq small]
    intro i j below inside
    bv_omega
  · rename_i low
    by_cases negative : n.toInt < 0
    · rw [Int.toNat_of_nonpos negative.le, moved_zero]
      rfl
    · have wide : n.signExtend 64 = .ofNat 64 n.toInt.toNat := by
        rw [BitVec.signExtend, ← BitVec.ofInt_natCast, Int.toNat_of_nonneg (not_lt.mp negative)]
      rw [wide, copyDown_eq small]
      intro i j below inside
      bv_omega

end

/-- The bytes at one place become what those at another place were, and no other byte changes. -/
def Moves (m m' : Bytes) (dst src : Address) (count : Nat) : Prop :=
  (∀ i, i < count → m' (dst + .ofNat 64 i) = m (src + .ofNat 64 i)) ∧
    ∀ a, (∀ i, i < count → a ≠ dst + .ofNat 64 i) → m' a = m a

theorem moved_moves (m : Bytes) (dst src : Address) {count : Nat} (small : count ≤ 2 ^ 64) :
    Moves m (moved m dst src count) dst src count := by
  constructor
  · intro i inside
    have offset : dst + .ofNat 64 i - dst = BitVec.ofNat 64 i := by bv_omega
    rw [moved, offset, if_pos (by bv_omega)]
  · intro a outside
    refine if_neg fun inside => outside (a - dst).toNat inside ?_
    bv_omega

/-- Both functions move the bytes, however the two ranges overlap, and they agree wherever an
`int` and a `uint` are the same number. -/
theorem memmove_moves (m : Bytes) (dst src : Address) (n : BitVec 32) :
    (src.toNat + n.toNat ≤ 2 ^ 64 → dst.toNat + n.toNat ≤ 2 ^ 64 →
      Moves m (kernelMemmove m dst src n).2 dst src n.toNat) ∧
    (src.toNat + n.toInt.toNat ≤ 2 ^ 64 → dst.toNat + n.toInt.toNat ≤ 2 ^ 64 →
      Moves m (userMemmove m dst src n).2 dst src n.toInt.toNat) ∧
    (0 ≤ n.toInt → src.toNat + n.toNat ≤ 2 ^ 64 → dst.toNat + n.toNat ≤ 2 ^ 64 →
      kernelMemmove m dst src n = userMemmove m dst src n) := by
  refine ⟨fun source target => ?_, fun source target => ?_, fun signed source target => ?_⟩
  · rw [kernelMemmove_eq m dst src n source target]
    exact moved_moves m dst src (by omega)
  · rw [userMemmove_eq m dst src n source target]
    exact moved_moves m dst src (by omega)
  · have same : n.toInt.toNat = n.toNat := by
      rw [BitVec.toInt_eq_toNat_cond] at signed ⊢
      split at signed <;> split <;> omega
    rw [kernelMemmove_eq m dst src n source target,
      userMemmove_eq m dst src n (same ▸ source) (same ▸ target), same]

/-- Three bytes are moved up by one over themselves. -/
theorem memmove_moves_up :
    Moves (·.setWidth 8) (kernelMemmove (·.setWidth 8) 1 0 3).2 1 0 3 ∧
      Moves (·.setWidth 8) (userMemmove (·.setWidth 8) 1 0 3).2 1 0 3 ∧
      kernelMemmove (·.setWidth 8) 1 0 3 = userMemmove (·.setWidth 8) 1 0 3 :=
  ⟨(memmove_moves _ 1 0 3).1 (by decide) (by decide),
    (memmove_moves _ 1 0 3).2.1 (by decide) (by decide),
    (memmove_moves _ 1 0 3).2.2 (by decide) (by decide) (by decide)⟩

end EnhancedXv6.Library
