import Mathlib

namespace EnhancedXv6.Memory

def pgsize : Nat := 4096

def kernbase : Nat := 0x80000000

def phystop : Nat := kernbase + 128 * 1024 * 1024

/-- One beyond the highest virtual address, `1L << (9 + 9 + 9 + 12 - 1)`. -/
def maxva : Nat := 1 <<< (9 + 9 + 9 + 12 - 1)

def trampoline : Nat := maxva - pgsize

def trapframe : Nat := trampoline - pgsize

def userPages : Nat := trapframe / pgsize

theorem phystop_eq : phystop = 2281701376 := rfl

theorem maxva_eq : maxva = 2 ^ 38 := rfl

theorem userPages_eq : userPages = 2 ^ 26 - 2 := rfl

/-- The sum is a `uint64`; clearing the low bits subtracts the remainder. -/
def pgroundup (sz : Nat) : Nat :=
  let top := (sz + pgsize - 1) % 2 ^ 64
  top - top % pgsize

def pgrounddown (a : Nat) : Nat :=
  a - a % pgsize

def pteV : Nat := 1 <<< 0
def pteR : Nat := 1 <<< 1
def pteW : Nat := 1 <<< 2
def pteX : Nat := 1 <<< 3
def pteU : Nat := 1 <<< 4
def pteCow : Nat := 1 <<< 8

def pa2pte (pa : Nat) : Nat :=
  (pa >>> 12) <<< 10

def pte2pa (pte : Nat) : Nat :=
  ((pte >>> 10) <<< 12) % 2 ^ 64

def pteFlags (pte : Nat) : Nat :=
  pte &&& 0x3ff

/-- The 9-bit index of a virtual address at a level of the page table. -/
def px (level va : Nat) : Nat :=
  (va >>> (12 + 9 * level)) &&& 0x1ff

/-- Where the linker and the loader have put the kernel. -/
structure Layout where
  /-- `end`, the first address after the kernel. -/
  kernelEnd : Nat
  /-- The page of `trampoline.S`. -/
  trampolinePage : Nat
  aligned : trampolinePage % pgsize = 0
  loaded : kernbase ≤ trampolinePage
  inside : trampolinePage + pgsize ≤ kernelEnd
  fits : kernelEnd ≤ phystop

/-- The pages that `kinit` gives to the allocator. -/
def Layout.Managed (layout : Layout) (pa : Nat) : Prop :=
  pa % pgsize = 0 ∧ pgroundup layout.kernelEnd ≤ pa ∧ pa + pgsize ≤ phystop

instance (layout : Layout) (pa : Nat) : Decidable (layout.Managed pa) :=
  inferInstanceAs (Decidable (_ ∧ _ ∧ _))

structure Leaf where
  pa : Nat
  flags : Nat
  aligned : pa % pgsize = 0
  physical : pa < 2 ^ 56
  small : flags < 2 ^ 10
  valid : flags.testBit 0 = true
  readable : flags.testBit 1 = true

def Leaf.pte (leaf : Leaf) : Nat :=
  pa2pte leaf.pa ||| leaf.flags

section Entries

variable {pa flags pte k : Nat}

theorem testBit_flag : pte &&& (1 <<< k) ≠ 0 ↔ pte.testBit k = true := by
  rw [Nat.one_shiftLeft, Nat.and_two_pow]
  cases pte.testBit k <;> simp

theorem pa2pte_add (small : flags < 2 ^ 10) :
    pa2pte pa ||| flags = pa / 2 ^ 12 * 2 ^ 10 + flags := by
  rw [pa2pte, Nat.shiftRight_eq_div_pow, Nat.shiftLeft_eq, ← Nat.shiftLeft_eq,
    Nat.shiftLeft_add_eq_or_of_lt small]

theorem pteFlags_entry (small : flags < 2 ^ 10) : pteFlags (pa2pte pa ||| flags) = flags := by
  rw [pteFlags, show (0x3ff : Nat) = 2 ^ 10 - 1 by rfl, Nat.and_two_pow_sub_one_eq_mod,
    pa2pte_add small]
  omega

theorem pte2pa_entry (aligned : pa % pgsize = 0) (physical : pa < 2 ^ 56) (small : flags < 2 ^ 10) :
    pte2pa (pa2pte pa ||| flags) = pa := by
  rw [pte2pa, pa2pte_add small, Nat.shiftRight_eq_div_pow, Nat.shiftLeft_eq]
  unfold pgsize at aligned
  omega

theorem entry_lt (physical : pa < 2 ^ 56) (small : flags < 2 ^ 10) :
    (pa2pte pa ||| flags) < 256 ^ 8 := by
  rw [pa2pte_add small]
  omega

theorem testBit_entry (low : k < 10) : (pa2pte pa ||| flags).testBit k = flags.testBit k := by
  rw [Nat.testBit_or, pa2pte, Nat.testBit_shiftLeft]
  simp [show ¬ 10 ≤ k by omega]

theorem px_eq (level va : Nat) : px level va = va / 2 ^ (12 + 9 * level) % 512 := by
  rw [px, show (0x1ff : Nat) = 2 ^ 9 - 1 by rfl, Nat.and_two_pow_sub_one_eq_mod,
    Nat.shiftRight_eq_div_pow]

end Entries

end EnhancedXv6.Memory
