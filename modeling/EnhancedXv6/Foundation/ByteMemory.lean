import Mathlib

/-! Byte-addressed memory: little-endian words, filled ranges and copied ranges. -/

namespace EnhancedXv6.Foundation

abbrev Memory := Nat → UInt8

/-- The little-endian number in `count` bytes at an address. -/
def load (m : Memory) (a : Nat) : Nat → Nat
  | 0 => 0
  | count + 1 => (m a).toNat + 256 * load m (a + 1) count

def store (m : Memory) (a count value : Nat) : Memory :=
  fun x => if a ≤ x ∧ x < a + count then .ofNat (value / 256 ^ (x - a)) else m x

def fill (m : Memory) (a count : Nat) (byte : UInt8) : Memory :=
  fun x => if a ≤ x ∧ x < a + count then byte else m x

def copy (m : Memory) (dst count : Nat) (src : Nat → UInt8) : Memory :=
  fun x => if dst ≤ x ∧ x < dst + count then src (x - dst) else m x

section

variable {m m' : Memory} {a b x count value : Nat} {byte : UInt8} {src : Nat → UInt8}

theorem load_congr (same : ∀ x, a ≤ x → x < a + count → m' x = m x) :
    load m' a count = load m a count := by
  induction count generalizing a with
  | zero => rfl
  | succ count ih =>
    rw [load, load, same a le_rfl (by omega), ih]
    intro x low high
    exact same x (by omega) (by omega)

theorem load_offset (same : ∀ x, b ≤ x → x < b + count → m (a + x) = m' x) :
    load m (a + b) count = load m' b count := by
  induction count generalizing b with
  | zero => rfl
  | succ count ih =>
    rw [load, load, same b le_rfl (by omega), add_assoc, ih]
    intro x low high
    exact same x (by omega) (by omega)

theorem load_lt : load m a count < 256 ^ count := by
  induction count generalizing a with
  | zero => simp [load]
  | succ count ih =>
    have byte := (m a).toNat_lt
    have rest := ih (a := a + 1)
    rw [load, pow_succ]
    omega

theorem load_digits (value : Nat) (low : ∀ i, i < count → m (a + i) = .ofNat (value / 256 ^ i)) :
    load m a count = value % 256 ^ count := by
  induction count generalizing a value with
  | zero => simp [load, Nat.mod_one]
  | succ count ih =>
    have first := low 0 (by omega)
    have rest : load m (a + 1) count = value / 256 % 256 ^ count := by
      refine ih _ fun i below => ?_
      have digit := low (i + 1) (by omega)
      rw [show a + 1 + i = a + (i + 1) by omega, digit, Nat.div_div_eq_div_mul, pow_succ, mul_comm]
    rw [load, rest, pow_succ', Nat.mod_mul]
    simp only [add_zero, pow_zero, Nat.div_one] at first
    rw [first]
    simp

theorem load_store_mod : load (store m a count value) a count = value % 256 ^ count := by
  refine load_digits value fun i below => ?_
  rw [store, if_pos ⟨by omega, by omega⟩, Nat.add_sub_cancel_left]

theorem load_store_same (bounded : value < 256 ^ count) :
    load (store m a count value) a count = value := by
  rw [load_store_mod, Nat.mod_eq_of_lt bounded]

theorem store_other (outside : x < a ∨ a + count ≤ x) : store m a count value x = m x :=
  if_neg (by omega)

theorem fill_same (low : a ≤ x) (high : x < a + count) : fill m a count byte x = byte :=
  if_pos ⟨low, high⟩

theorem fill_other (outside : x < a ∨ a + count ≤ x) : fill m a count byte x = m x :=
  if_neg (by omega)

theorem copy_same (low : a ≤ x) (high : x < a + count) : copy m a count src x = src (x - a) :=
  if_pos ⟨low, high⟩

theorem copy_other (outside : x < a ∨ a + count ≤ x) : copy m a count src x = m x :=
  if_neg (by omega)

theorem copy_congr {other : Nat → UInt8} (same : ∀ i < count, src i = other i) :
    copy m a count src = copy m a count other := by
  funext x
  unfold copy
  split
  · exact same _ (by omega)
  · rfl

theorem copy_single (m : Memory) (a : Nat) (byte : UInt8) :
    copy m a 1 (fun _ => byte) = Function.update m a byte := by
  funext x
  by_cases same : x = a
  · subst same
    rw [Function.update_self, copy_same (by omega) (by omega)]
  · rw [Function.update_of_ne same, copy_other (by omega)]

theorem load_store_other (apart : a + count ≤ b ∨ b + count ≤ a) :
    load (store m a count value) b count = load m b count :=
  load_congr fun x _ _ => store_other (by omega)

theorem load_zero (zero : ∀ x, a ≤ x → x < a + count → m x = 0) : load m a count = 0 := by
  induction count generalizing a with
  | zero => rfl
  | succ count ih =>
    rw [load, zero a le_rfl (by omega), ih fun x low high => zero x (by omega) (by omega)]
    rfl

end

end EnhancedXv6.Foundation
