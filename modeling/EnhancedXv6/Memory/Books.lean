import EnhancedXv6.Foundation.Ownership
import EnhancedXv6.Memory.PageTable

/-! What the memory of the kernel stands for: which pages are page tables, which pages
the tables map, who else holds a page, and what the pages contain. -/

namespace EnhancedXv6.Memory

open Foundation Finset

/-- The table pages, by root, depth and the indices that lead to them. -/
abbrev Nodes := Nat × Nat × Nat → Option Nat

/-- The use of the pages. A page is owed when it is mapped and its user is not counted yet,
or when its user is not counted any more and it is still mapped. -/
structure Books where
  leaf : Nat × Nat → Option Leaf
  held : Multiset Nat
  debt : Multiset Nat
  data : Nat → Nat → UInt8

private theorem exists_nodeNames : ∃ names : Finset (Nat × Nat × Nat), ∀ r d p,
    (r, d, p) ∈ names ↔ r < phystop ∧ d < 3 ∧ p < 512 ^ 2 := by
  refine ⟨Finset.range phystop ×ˢ Finset.range 3 ×ˢ Finset.range (512 ^ 2), fun r d p => ?_⟩
  rw [mem_product, mem_product, mem_range, mem_range, mem_range]

private theorem exists_userNames : ∃ names : Finset (Nat × Nat), ∀ r v,
    (r, v) ∈ names ↔ r < phystop ∧ v < userPages := by
  refine ⟨Finset.range phystop ×ˢ Finset.range userPages, fun r v => ?_⟩
  rw [mem_product, mem_range, mem_range]

noncomputable def nodeNames : Finset (Nat × Nat × Nat) :=
  exists_nodeNames.choose

noncomputable def userNames : Finset (Nat × Nat) :=
  exists_userNames.choose

theorem mem_nodeNames {r d p : Nat} : (r, d, p) ∈ nodeNames ↔ r < phystop ∧ d < 3 ∧ p < 512 ^ 2 :=
  exists_nodeNames.choose_spec r d p

theorem mem_userNames {r v : Nat} : (r, v) ∈ userNames ↔ r < phystop ∧ v < userPages :=
  exists_userNames.choose_spec r v

noncomputable def tables (node : Nodes) (pa : Nat) : Nat :=
  owners nodeNames node pa

noncomputable def Books.users (books : Books) (pa : Nat) : Nat :=
  owners userNames (fun name => (books.leaf name).map Leaf.pa) pa

def entry (node : Nodes) (leaf : Nat × Nat → Option Leaf) (r d p i : Nat) : Nat :=
  if d = 2 then (leaf (r, p * 512 + i)).elim 0 Leaf.pte
  else (node (r, d + 1, p * 512 + i)).elim 0 fun page => pa2pte page ||| pteV

structure Slots (m : Memory) (node : Nodes) (leaf : Nat × Nat → Option Leaf) : Prop where
  slot : ∀ {r d p t i}, node (r, d, p) = some t → i < 512 →
    load m (t + 8 * i) 8 = entry node leaf r d p i

/-- The counts and the free list agree with the use of the pages. -/
structure Accounts (layout : Layout) (s : Kmem) (node : Nodes) (books : Books) : Prop where
  named : ∀ {r d p t}, node (r, d, p) = some t → r < phystop ∧ d < 3 ∧ p < 512 ^ d
  table : ∀ {name t}, node name = some t → layout.Managed t ∧ tables node t = 1 ∧
    books.users t = 0 ∧ t ∉ books.held ∧ t ∉ books.debt
  holder : ∀ {pa}, pa ∈ books.held → layout.Managed pa
  mapped : ∀ {r v leaf}, books.leaf (r, v) = some leaf → r < phystop ∧
    (v < userPages → layout.Managed leaf.pa)
  count : ∀ {pa}, layout.Managed pa → s.numpUsing (pa / pgsize) + books.debt.count pa =
    tables node pa + books.users pa + books.held.count pa
  nonneg : ∀ {pa}, layout.Managed pa → 0 ≤ s.numpUsing (pa / pgsize)
  content : ∀ {pa o}, layout.Managed pa → 0 < s.numpUsing (pa / pgsize) → tables node pa = 0 →
    o < pgsize → s.mem (pa + o) = books.data pa o
  free : ∃ pages, Chain (load s.mem · 8) s.freelist pages ∧ pages.Nodup ∧
    ∀ pa, pa ∈ pages ↔ layout.Managed pa ∧ s.numpUsing (pa / pgsize) = 0

structure Represents (layout : Layout) (s : Kmem) (node : Nodes) (books : Books) : Prop where
  slots : Slots s.mem node books.leaf
  accounts : Accounts layout s node books

section Pages

variable {layout : Layout} {pa pa' t i : Nat} {m m' : Memory}

section

variable (page : layout.Managed pa)

include page

theorem Layout.Managed.aligned : pa % 4096 = 0 :=
  page.1

theorem Layout.Managed.positive : kernbase ≤ pa := by
  obtain ⟨_, low, _⟩ := page
  have first := layout.loaded
  have inside := layout.inside
  have fits := layout.fits
  rw [phystop_eq] at fits
  simp only [pgroundup, pgsize] at low inside
  unfold kernbase at first ⊢
  omega

theorem Layout.Managed.below : pa + 4096 ≤ phystop :=
  page.2.2

theorem Layout.Managed.ne_zero : pa ≠ 0 := by
  have low := page.positive
  unfold kernbase at low
  omega

theorem Layout.Managed.physical : pa < 2 ^ 56 := by
  have high := page.below
  rw [phystop_eq] at high
  omega

theorem Layout.Managed.eq_of_div (page' : layout.Managed pa') (same : pa / pgsize = pa' / pgsize) :
    pa = pa' := by
  have := page.aligned
  have := page'.aligned
  simp only [pgsize] at same
  omega

theorem load_off_page (page' : layout.Managed pa') (other : pa' ≠ pa)
    (same : ∀ x, x < pa ∨ pa + pgsize ≤ x → m' x = m x) (inside : i < 512) :
    load m' (pa' + 8 * i) 8 = load m (pa' + 8 * i) 8 := by
  have := page.aligned
  have := page'.aligned
  refine load_congr fun x low high => same x ?_
  simp only [pgsize]
  omega

theorem byte_off_page (page' : layout.Managed pa') (other : pa' ≠ pa)
    (same : ∀ x, x < pa ∨ pa + pgsize ≤ x → m' x = m x) (inside : i < pgsize) :
    m' (pa' + i) = m (pa' + i) := by
  have := page.aligned
  have := page'.aligned
  refine same _ ?_
  simp only [pgsize] at inside ⊢
  omega

end

end Pages

section Access

variable {layout : Layout} {s : Kmem} {node : Nodes} {books : Books} {pa t : Nat}
  {name name' : Nat × Nat × Nat}

section

variable (accounts : Accounts layout s node books)

include accounts

theorem Accounts.mem_names (there : node name = some t) : name ∈ nodeNames := by
  obtain ⟨r, d, p⟩ := name
  obtain ⟨root, depth, inside⟩ := accounts.named there
  refine mem_nodeNames.mpr ⟨root, depth, inside.trans_le ?_⟩
  exact Nat.pow_le_pow_right (by omega) (by omega)

theorem Accounts.place (first : node name = some t) (second : node name' = some t) : name = name' :=
  eq_of_owners_le_one (accounts.table first).2.1.le (accounts.mem_names first)
    (accounts.mem_names second) first second

theorem Accounts.tables_pos (there : node name = some t) : 0 < tables node t :=
  owners_pos (accounts.mem_names there) there

end

theorem exists_of_tables (positive : tables node t ≠ 0) : ∃ name, node name = some t := by
  obtain ⟨name, _, there⟩ := exists_of_owners_pos (Nat.pos_of_ne_zero positive)
  exact ⟨name, there⟩

section

variable (accounts : Accounts layout s node books)

include accounts

theorem Accounts.table_count (there : node name = some t) : s.numpUsing (t / pgsize) = 1 := by
  obtain ⟨page, single, unmapped, unheld, paid⟩ := accounts.table there
  have count := accounts.count page
  rw [single, unmapped, Multiset.count_eq_zero_of_notMem unheld,
    Multiset.count_eq_zero_of_notMem paid] at count
  omega

theorem Accounts.not_table_of_held (held : pa ∈ books.held) : tables node pa = 0 := by
  by_contra positive
  obtain ⟨name, there⟩ := exists_of_tables positive
  exact (accounts.table there).2.2.2.1 held

theorem Accounts.not_table_of_leaf {r v : Nat} {leaf : Leaf}
    (mapped : books.leaf (r, v) = some leaf) (user : v < userPages) : tables node leaf.pa = 0 := by
  by_contra positive
  obtain ⟨name, there⟩ := exists_of_tables positive
  have unmapped := (accounts.table there).2.2.1
  have mapping : 0 < books.users leaf.pa :=
    owners_pos (mem_userNames.mpr ⟨(accounts.mapped mapped).1, user⟩) (by simp [mapped])
  omega

end

theorem Books.users_pos {r v : Nat} {leaf : Leaf} (mapped : books.leaf (r, v) = some leaf)
    (root : r < phystop) (user : v < userPages) : 0 < books.users leaf.pa :=
  owners_pos (mem_userNames.mpr ⟨root, user⟩) (by simp [mapped])

end Access

end EnhancedXv6.Memory
