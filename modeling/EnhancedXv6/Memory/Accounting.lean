import EnhancedXv6.Memory.Books

namespace EnhancedXv6.Memory

open Foundation Function List Books Kmem Layout

variable {layout : Layout} {s : Kmem} {node : Nodes} {books : Books} {pa t r d p v i : Nat}
  {m : Memory} {stops : Panic → Prop} {leaf : Nat × Nat → Option Leaf} {name : Nat × Nat × Nat}
  {data : Nat → Nat → UInt8}

section Content

theorem Accounts.rewrite (accounts : Accounts layout s node books) (page : layout.Managed pa)
    (used : 0 < s.numpUsing (pa / pgsize)) (same : ∀ x, x < pa ∨ pa + pgsize ≤ x → m x = s.mem x)
    (others : ∀ pa', pa' ≠ pa → data pa' = books.data pa')
    (here : tables node pa = 0 → ∀ o, o < pgsize → m (pa + o) = data pa o) :
    Accounts layout { s with mem := m } node { books with data := data } where
  named := accounts.named
  table := accounts.table
  holder := accounts.holder
  mapped := accounts.mapped
  count := accounts.count
  nonneg := accounts.nonneg
  content := by
    intro pa' o page' used' plain inside
    by_cases equal : pa' = pa
    · subst equal
      exact here plain o inside
    · have before := accounts.content page' used' plain inside
      rw [← others pa' equal] at before
      exact (byte_off_page page page' equal same inside).trans before
  free := by
    obtain ⟨pages, chain, nodup, members⟩ := accounts.free
    refine ⟨pages, chain.congr fun x member => ?_, nodup, members⟩
    obtain ⟨page', unused⟩ := (members x).mp member
    have other : x ≠ pa := by
      rintro rfl
      omega
    exact load_off_page page page' other same (i := 0) (by omega)

theorem Slots.rewrite (slots : Slots s.mem node leaf) (accounts : Accounts layout s node books)
    (page : layout.Managed pa) (plain : tables node pa = 0)
    (same : ∀ x, x < pa ∨ pa + pgsize ≤ x → m x = s.mem x) : Slots m node leaf where
  slot := by
    intro r d p t i there inside
    obtain ⟨page', single, _⟩ := accounts.table there
    have other : t ≠ pa := by
      rintro rfl
      omega
    rw [load_off_page page page' other same inside]
    exact slots.slot there inside

theorem Represents.rewrite (shows : Represents layout s node books) (page : layout.Managed pa)
    (used : 0 < s.numpUsing (pa / pgsize)) (plain : tables node pa = 0)
    (same : ∀ x, x < pa ∨ pa + pgsize ≤ x → m x = s.mem x) :
    Represents layout { s with mem := m } node
      { books with data := update books.data pa fun o => m (pa + o) } := by
  refine ⟨shows.slots.rewrite shows.accounts page plain same, ?_⟩
  refine shows.accounts.rewrite page used same ?_ ?_
  · exact fun pa' other => update_of_ne other _ _
  · intro _ o _
    rw [update_self]

/-- What a page contains matters only while it is in use and not a page table. -/
theorem Represents.forget (shows : Represents layout s node books)
    (same : ∀ pa, layout.Managed pa → 0 < s.numpUsing (pa / pgsize) → tables node pa = 0 →
      ∀ o, o < pgsize → data pa o = books.data pa o) :
    Represents layout s node { books with data := data } := by
  obtain ⟨slots, accounts⟩ := shows
  refine ⟨slots, accounts.named, accounts.table, accounts.holder, accounts.mapped, accounts.count,
    accounts.nonneg, ?_, accounts.free⟩
  intro pa o page used plain inside
  exact (accounts.content page used plain inside).trans (same pa page used plain o inside).symm

end Content

section Allocator

structure Unused (layout : Layout) (node : Nodes) (books : Books) (pa : Nat) : Prop where
  page : layout.Managed pa
  plain : tables node pa = 0
  unmapped : books.users pa = 0
  unheld : pa ∉ books.held

def Books.hold (books : Books) (pa : Nat) (content : Nat → UInt8) : Books :=
  { books with held := pa ::ₘ books.held, data := Function.update books.data pa content }

theorem Accounts.unused (accounts : Accounts layout s node books) (paid : books.debt = 0)
    (page : layout.Managed pa) (zero : s.numpUsing (pa / pgsize) = 0) :
    Unused layout node books pa := by
  have count := accounts.count page
  rw [zero, paid] at count
  simp only [Multiset.count_zero] at count
  exact ⟨page, by omega, by omega, Multiset.count_eq_zero.mp (by omega)⟩

theorem Kmem.addUsers_using {x : Nat} {change : Int} (s : Kmem) (page : layout.Managed pa)
    (page' : layout.Managed x) : (s.addUsers pa change).numpUsing (x / pgsize) =
      s.numpUsing (x / pgsize) + if x = pa then change else 0 := by
  unfold addUsers
  by_cases equal : x = pa
  · subst equal
    simp
  · have other : x / pgsize ≠ pa / pgsize := fun div => equal (page'.eq_of_div page div)
    simp [equal, other]

theorem Represents.alloc {rest : List Nat} (shows : Represents layout s node books)
    (paid : books.debt = 0) (page : layout.Managed pa) (zero : s.numpUsing (pa / pgsize) = 0)
    (tail : Chain (load s.mem · 8) (load s.mem pa 8) rest) (nodup : (pa :: rest).Nodup)
    (members : ∀ x, x ∈ pa :: rest ↔ layout.Managed x ∧ s.numpUsing (x / pgsize) = 0) :
    Represents layout
      (addUsers { s with mem := fill s.mem pa pgsize 5, freelist := load s.mem pa 8 } pa 1)
      node (books.hold pa fun _ => 5) := by
  have unused := shows.accounts.unused paid page zero
  have same (x : Nat) (outside : x < pa ∨ pa + pgsize ≤ x) : fill s.mem pa pgsize 5 x = s.mem x :=
    fill_other outside
  have counts (x : Nat) (page' : layout.Managed x) :
      (addUsers
        { s with mem := fill s.mem pa pgsize 5, freelist := load s.mem pa 8 } pa 1).numpUsing
        (x / pgsize) = s.numpUsing (x / pgsize) + if x = pa then 1 else 0 :=
    addUsers_using _ page page'
  refine ⟨shows.slots.rewrite shows.accounts page unused.plain same, ?_⟩
  obtain ⟨slots, accounts⟩ := shows
  constructor
  · exact accounts.named
  · intro name t there
    obtain ⟨page', single, unmapped, unheld, owed⟩ := accounts.table there
    refine ⟨page', single, unmapped, ?_, owed⟩
    have other : t ≠ pa := by
      rintro rfl
      exact absurd unused.plain (by omega)
    simpa [hold, other] using unheld
  · intro x held
    rcases Multiset.mem_cons.mp held with rfl | held
    · exact page
    · exact accounts.holder held
  · exact accounts.mapped
  · intro x page'
    have before := accounts.count page'
    have held :
        (books.hold pa fun _ => 5).held.count x = books.held.count x + if x = pa then 1 else 0 :=
      Multiset.count_cons ..
    have users : (books.hold pa fun _ => 5).users x = books.users x := rfl
    have debt : (books.hold pa fun _ => 5).debt = books.debt := rfl
    rw [counts x page', held, users, debt]
    split <;> omega
  · intro x page'
    rw [counts x page']
    have before := accounts.nonneg page'
    split <;> omega
  · intro x o page' used plain inside
    rw [counts x page'] at used
    by_cases equal : x = pa
    · subst equal
      simp only [addUsers, hold, update_self]
      exact fill_same (by omega) (by omega)
    · rw [if_neg equal, add_zero] at used
      simp only [addUsers, hold, update_of_ne equal]
      exact (byte_off_page page page' equal same inside).trans
        (accounts.content page' used plain inside)
  · have absent : pa ∉ rest := (nodup_cons.mp nodup).1
    refine ⟨rest, tail.congr fun x member => ?_, (nodup_cons.mp nodup).2, fun x => ?_⟩
    · have page' := ((members x).mp (mem_cons_of_mem pa member)).1
      have other : x ≠ pa := by
        rintro rfl
        exact absent member
      exact load_off_page page page' other same (i := 0) (by omega)
    · constructor
      · intro member
        obtain ⟨page', unused⟩ := (members x).mp (mem_cons_of_mem pa member)
        refine ⟨page', ?_⟩
        rw [counts x page', if_neg, unused, add_zero]
        rintro rfl
        exact absent member
      · rintro ⟨page', none⟩
        rw [counts x page'] at none
        have before := accounts.nonneg page'
        split at none
        · omega
        · rename_i other
          refine mem_of_ne_of_mem other ((members x).mpr ⟨page', by omega⟩)

/-- `kalloc` takes the first page of the free list, if there is one. -/
theorem meets_kalloc (accounts : Accounts layout s node books) (empty : s.freelist = 0 → post 0 s)
    (taken : ∀ pa rest, pa ≠ 0 → layout.Managed pa → s.numpUsing (pa / pgsize) = 0 →
      Chain (load s.mem · 8) (load s.mem pa 8) rest → (pa :: rest).Nodup →
      (∀ x, x ∈ pa :: rest ↔ layout.Managed x ∧ s.numpUsing (x / pgsize) = 0) →
      post pa
        (addUsers { s with mem := fill s.mem pa pgsize 5, freelist := load s.mem pa 8 } pa 1)) :
    Meets kalloc s post stops := by
  obtain ⟨pages, chain, nodup, members⟩ := accounts.free
  unfold kalloc
  rw [meets_bind, meets_get]
  dsimp only
  cases pages with
  | nil =>
    have none : s.freelist = 0 := chain
    rw [if_pos none, meets_pure]
    exact empty none
  | cons pa rest =>
    obtain ⟨head, real, tail⟩ := chain
    obtain ⟨page, zero⟩ := (members pa).mp mem_cons_self
    rw [head, if_neg real, memset, meets_bind, meets_modify, meets_bind, meets_modify, meets_bind,
      meets_modify, meets_pure]
    exact taken pa rest real page zero tail nodup members

theorem kalloc_meets (shows : Represents layout s node books) (paid : books.debt = 0) :
    Meets kalloc s (fun pa t => pa = 0 ∧ t = s ∨
      Unused layout node books pa ∧ Represents layout t node (books.hold pa fun _ => 5)) stops := by
  refine meets_kalloc shows.accounts (fun _ => .inl ⟨rfl, rfl⟩) ?_
  intro pa rest _ page zero tail nodup members
  exact .inr ⟨shows.accounts.unused paid page zero, shows.alloc paid page zero tail nodup members⟩

theorem kalloc_first : Meets kalloc s (fun pa _ => pa = s.freelist) stops := by
  rw [kalloc, meets_bind, meets_get]
  dsimp only
  split
  · rename_i empty
    exact meets_pure.mpr empty.symm
  · rw [meets_bind, meets_modify, meets_bind, memset, meets_modify, meets_bind,
      meets_modify, meets_pure]

private theorem exists_pages (layout : Layout) :
    ∃ pages : Finset Nat, ∀ pa, pa ∈ pages ↔ layout.Managed pa := by
  refine ⟨(Finset.range phystop).filter layout.Managed, fun pa => ?_⟩
  rw [Finset.mem_filter, Finset.mem_range, and_iff_right_iff_imp]
  intro page
  have high := page.below
  omega

noncomputable def Layout.pages (layout : Layout) : Finset Nat :=
  (exists_pages layout).choose

theorem Layout.mem_pages {layout : Layout} : pa ∈ layout.pages ↔ layout.Managed pa :=
  (exists_pages layout).choose_spec pa

noncomputable def Kmem.spare (layout : Layout) (s : Kmem) : Nat :=
  (layout.pages.filter fun pa => s.numpUsing (pa / pgsize) = 0).card

theorem Kmem.spare_le {t : Kmem} (free : ∀ pa, layout.Managed pa → s.numpUsing (pa / pgsize) = 0 →
    t.numpUsing (pa / pgsize) = 0) : s.spare layout ≤ t.spare layout := by
  refine Finset.card_le_card fun pa member => ?_
  obtain ⟨page, zero⟩ := Finset.mem_filter.mp member
  exact Finset.mem_filter.mpr ⟨page, free pa (mem_pages.mp page) zero⟩

theorem Kmem.spare_addUsers (page : layout.Managed pa) (used : 0 < s.numpUsing (pa / pgsize)) :
    s.spare layout ≤ (s.addUsers pa 1).spare layout := by
  refine spare_le fun x page' zero => ?_
  rw [s.addUsers_using page page']
  split
  · rename_i same
    rw [same] at zero
    omega
  · rw [add_zero]
    exact zero

theorem Accounts.freelist_iff (accounts : Accounts layout s node books) :
    s.freelist = 0 ↔ s.spare layout = 0 := by
  obtain ⟨pages, chain, _, members⟩ := accounts.free
  cases pages with
  | nil =>
    refine iff_of_true chain
      (Finset.card_eq_zero.mpr (Finset.filter_eq_empty_iff.mpr fun pa page zero => ?_))
    exact absurd ((members pa).mpr ⟨mem_pages.mp page, zero⟩) not_mem_nil
  | cons pa rest =>
    obtain ⟨head, real, _⟩ := chain
    obtain ⟨page, zero⟩ := (members pa).mp mem_cons_self
    refine iff_of_false (head ▸ real)
      (Finset.card_ne_zero_of_mem (a := pa) (Finset.mem_filter.mpr ⟨?_, zero⟩))
    exact mem_pages.mpr page

theorem Kmem.spare_alloc (page : layout.Managed pa) (zero : s.numpUsing (pa / pgsize) = 0)
    {t : Kmem} (unchanged : t.numpUsing = s.numpUsing) :
    (addUsers t pa 1).spare layout + 1 = s.spare layout := by
  have member : pa ∈ layout.pages.filter fun pa => s.numpUsing (pa / pgsize) = 0 :=
    Finset.mem_filter.mpr ⟨mem_pages.mpr page, zero⟩
  unfold spare
  rw [← Finset.card_erase_add_one member]
  congr 2
  ext x
  rw [Finset.mem_erase, Finset.mem_filter, Finset.mem_filter]
  by_cases same : x = pa
  · subst same
    refine iff_of_false (fun both => ?_) fun both => both.1 rfl
    have taken := both.2
    rw [addUsers_using _ page page, if_pos rfl, unchanged] at taken
    omega
  · rw [and_iff_right same]
    refine and_congr_right fun member => ?_
    rw [addUsers_using _ page (mem_pages.mp member), if_neg same, add_zero, unchanged]

/-- `kalloc` fails when no page is free, and takes one page. -/
theorem kalloc_spare (shows : Represents layout s node books) :
    Meets kalloc s
      (fun pa t => (pa = 0 → s.spare layout = 0) ∧ s.spare layout ≤ t.spare layout + 1) stops := by
  refine meets_kalloc shows.accounts ?_ fun pa _ real page zero _ _ _ => ?_
  · exact fun empty => ⟨fun _ => shows.accounts.freelist_iff.mp empty, Nat.le_succ _⟩
  · exact ⟨fun none => absurd none real, (spare_alloc page zero rfl).ge⟩

/-- A page that `kalloc` returns is the only one that is not free any more. -/
theorem kalloc_takes (shows : Represents layout s node books) :
    Meets kalloc s (fun pa t => pa ≠ 0 → t.spare layout + 1 = s.spare layout) stops :=
  meets_kalloc shows.accounts (fun _ real => absurd rfl real)
    fun _ _ _ page zero _ _ _ _ => spare_alloc page zero rfl

theorem Accounts.free_iff (accounts : Accounts layout s node books) (paid : books.debt = 0)
    (page : layout.Managed pa) :
    s.numpUsing (pa / pgsize) = 0 ↔ tables node pa = 0 ∧ books.users pa = 0 ∧ pa ∉ books.held := by
  have count := accounts.count page
  rw [paid, Multiset.count_zero] at count
  rw [← Multiset.count_eq_zero]
  omega

def Kmem.Free (s : Kmem) (pa : Nat) : Prop :=
  ∃ pages, Chain (load s.mem · 8) s.freelist pages ∧ pa ∈ pages

section

variable (accounts : Accounts layout s node books)

include accounts

theorem Accounts.listed_iff : s.Free pa ↔ layout.Managed pa ∧ s.numpUsing (pa / pgsize) = 0 := by
  obtain ⟨pages, chain, _, members⟩ := accounts.free
  rw [← members]
  constructor
  · rintro ⟨pages', chain', member⟩
    rw [chain.unique chain']
    exact member
  · exact fun member => ⟨pages, chain, member⟩

theorem Accounts.same_count {u : Kmem} {books' : Books} (paid : books.debt = 0)
    (accounts' : Accounts layout u node books') (paid' : books'.debt = 0) (page : layout.Managed pa)
    (users : books'.users pa = books.users pa) (held : books'.held = books.held) :
    u.numpUsing (pa / pgsize) = s.numpUsing (pa / pgsize) := by
  have before := accounts.count page
  have after := accounts'.count page
  rw [paid] at before
  rw [paid', users, held] at after
  rw [Multiset.count_zero] at before after
  omega

/-- The free pages are those that were free, but one that is in use now. -/
theorem Accounts.spare_le {t : Kmem} {books' : Books} (paid : books.debt = 0)
    (accounts' : Accounts layout t node books') (paid' : books'.debt = 0) (new : Nat)
    (unused : ∀ x, x ≠ new → books.users x = 0 → x ∉ books.held →
      books'.users x = 0 ∧ x ∉ books'.held) :
    s.spare layout ≤ t.spare layout + 1 := by
  refine le_trans (Finset.card_le_card fun x member => ?_) (Finset.card_insert_le new _)
  obtain ⟨page, free⟩ := Finset.mem_filter.mp member
  by_cases same : x = new
  · exact same ▸ Finset.mem_insert_self _ _
  · have managed := mem_pages.mp page
    obtain ⟨plain, unmapped, unheld⟩ := (accounts.free_iff paid managed).mp free
    refine Finset.mem_insert_of_mem (Finset.mem_filter.mpr ⟨page, ?_⟩)
    exact (accounts'.free_iff paid' managed).mpr ⟨plain, unused x same unmapped unheld⟩

theorem Accounts.uncount {u : Kmem} (plain : tables node pa = 0)
    (used : 0 < s.numpUsing (pa / pgsize))
    (counts : ∀ x, layout.Managed x →
      u.numpUsing (x / pgsize) = s.numpUsing (x / pgsize) + if x = pa then -1 else 0)
    (content : ∀ x o, layout.Managed x → 0 < u.numpUsing (x / pgsize) → o < pgsize →
      u.mem (x + o) = s.mem (x + o))
    (free : ∃ pages, Chain (load u.mem · 8) u.freelist pages ∧ pages.Nodup ∧
      ∀ x, x ∈ pages ↔ layout.Managed x ∧ u.numpUsing (x / pgsize) = 0) :
    Accounts layout u node { books with debt := pa ::ₘ books.debt } where
  named := accounts.named
  table := by
    intro name t there
    obtain ⟨page, single, unmapped, unheld, owed⟩ := accounts.table there
    have other : t ≠ pa := by
      rintro rfl
      omega
    exact ⟨page, single, unmapped, unheld, by simpa [other] using owed⟩
  holder := accounts.holder
  mapped := accounts.mapped
  count := by
    intro x page
    have before := accounts.count page
    have users : users { books with debt := pa ::ₘ books.debt } x = books.users x := rfl
    rw [counts x page, users]
    simp only [Multiset.count_cons]
    split <;> omega
  nonneg := by
    intro x page
    rw [counts x page]
    have before := accounts.nonneg page
    split
    · rename_i same
      rw [same]
      omega
    · omega
  content := by
    intro x o page inUse plain inside
    refine (content x o page inUse inside).trans (accounts.content page ?_ plain inside)
    rw [counts x page] at inUse
    split at inUse <;> omega
  free := free

theorem Kmem.uncount_free (page : layout.Managed pa)
    (more : 1 ≤ (s.addUsers pa (-1)).numpUsing (pa / pgsize)) :
    ∃ pages, Chain (load (s.addUsers pa (-1)).mem · 8) (s.addUsers pa (-1)).freelist pages ∧
      pages.Nodup ∧ ∀ x, x ∈ pages ↔ layout.Managed x ∧
      (s.addUsers pa (-1)).numpUsing (x / pgsize) = 0 := by
  obtain ⟨pages, chain, nodup, members⟩ := accounts.free
  refine ⟨pages, chain, nodup, fun x => (members x).trans (and_congr_right fun page' => ?_)⟩
  rw [s.addUsers_using page page]  at more
  rw [s.addUsers_using page page']
  simp only [if_pos] at more
  split
  · rename_i same
    rw [same]
    omega
  · omega

theorem Kmem.push_free (page : layout.Managed pa) (used : 0 < s.numpUsing (pa / pgsize))
    (last : (s.addUsers pa (-1)).numpUsing (pa / pgsize) = 0) :
    ∃ pages, Chain (load (store (fill s.mem pa pgsize 1) pa 8 s.freelist) · 8) pa pages ∧
      pages.Nodup ∧ ∀ x, x ∈ pages ↔ layout.Managed x ∧
      (s.addUsers pa (-1)).numpUsing (x / pgsize) = 0 := by
  obtain ⟨pages, chain, nodup, members⟩ := accounts.free
  have bounded : s.freelist < 256 ^ 8 := by
    cases pages with
    | nil =>
      have empty : s.freelist = 0 := chain
      omega
    | cons x rest =>
      obtain ⟨head, _, _⟩ := chain
      have := ((members x).mp mem_cons_self).1.physical
      omega
  have absent : pa ∉ pages := fun member => by
    have zero := ((members pa).mp member).2
    omega
  refine ⟨pa :: pages, ⟨rfl, page.ne_zero, ?_⟩, nodup_cons.mpr ⟨absent, nodup⟩, fun x => ?_⟩
  · beta_reduce
    rw [load_store_same bounded]
    refine chain.congr fun x member => ?_
    have other : x ≠ pa := by
      rintro rfl
      exact absent member
    refine load_off_page page ((members x).mp member).1 other (fun y outside => ?_)
      (i := 0) (by omega)
    rw [store_other, fill_other outside]
    unfold pgsize at outside
    omega
  · by_cases same : x = pa
    · subst same
      simp [page, last]
    · simp only [mem_cons, same, false_or]
      refine (members x).trans (and_congr_right fun page' => ?_)
      rw [s.addUsers_using page page', if_neg same, add_zero]

end

/-- A user gives a page back. The page is owed until it is unmapped or given up. -/
theorem kfree_owed (shows : Represents layout s node books) (page : layout.Managed pa)
    (plain : tables node pa = 0) (used : 0 < s.numpUsing (pa / pgsize)) :
    Meets (kfree pa) s
      (fun _ t => Represents layout t node { books with debt := pa ::ₘ books.debt }) stops := by
  have counts (x : Nat) (page' : layout.Managed x) :
      (s.addUsers pa (-1)).numpUsing (x / pgsize) =
        s.numpUsing (x / pgsize) + if x = pa then -1 else 0 :=
    s.addUsers_using page page'
  unfold kfree
  rw [meets_bind, meets_modify, meets_bind, meets_get]
  split
  · rename_i more
    rw [meets_pure]
    exact ⟨shows.slots, shows.accounts.uncount plain used counts (fun _ _ _ _ _ => rfl)
      (uncount_free shows.accounts page more)⟩
  · rename_i last
    rw [memset, meets_bind, meets_modify, meets_bind, meets_get, storeWord, meets_bind,
      meets_modify, meets_modify]
    have zero : (s.addUsers pa (-1)).numpUsing (pa / pgsize) = 0 := by
      have drop := counts pa page
      rw [if_pos rfl] at drop
      omega
    have same (x : Nat) (outside : x < pa ∨ pa + pgsize ≤ x) :
        store (fill s.mem pa pgsize 1) pa 8 s.freelist x = s.mem x := by
      rw [store_other, fill_other outside]
      unfold pgsize at outside
      omega
    refine ⟨shows.slots.rewrite shows.accounts page plain same,
      shows.accounts.uncount plain used counts ?_ (push_free shows.accounts page used zero)⟩
    intro x o page' inUse inside
    have other : x ≠ pa := by
      rintro rfl
      exact absurd zero (ne_of_gt inUse)
    exact byte_off_page page page' other same inside

theorem Represents.settle {held debt : Multiset Nat} (shows : Represents layout s node books)
    (has : books.held = pa ::ₘ held) (owes : books.debt = pa ::ₘ debt) :
    Represents layout s node { books with held := held, debt := debt } := by
  obtain ⟨slots, accounts⟩ := shows
  refine ⟨slots, accounts.named, ?_, ?_, accounts.mapped, ?_, accounts.nonneg, accounts.content,
    accounts.free⟩
  · intro name t there
    obtain ⟨page, single, unmapped, unheld, owed⟩ := accounts.table there
    rw [has] at unheld
    rw [owes] at owed
    exact ⟨page, single, unmapped, fun member => unheld (Multiset.mem_cons_of_mem member),
      fun member => owed (Multiset.mem_cons_of_mem member)⟩
  · intro x member
    refine accounts.holder ?_
    rw [has]
    exact Multiset.mem_cons_of_mem member
  · intro x page
    have before := accounts.count page
    rw [has, owes, Multiset.count_cons, Multiset.count_cons] at before
    have users : users { books with held := held, debt := debt } x = books.users x := rfl
    rw [users]
    simp only
    omega

theorem Accounts.held_count (accounts : Accounts layout s node books) (paid : books.debt = 0)
    (held : pa ∈ books.held) : 0 < s.numpUsing (pa / pgsize) := by
  have before := accounts.count (accounts.holder held)
  rw [paid, Multiset.count_zero] at before
  have some := Multiset.count_pos.mpr held
  omega

theorem kfree_held {held : Multiset Nat} (shows : Represents layout s node books)
    (paid : books.debt = 0) (has : books.held = pa ::ₘ held) :
    Meets (kfree pa) s (fun _ t => Represents layout t node { books with held := held }) stops := by
  have member : pa ∈ books.held := by
    rw [has]
    exact Multiset.mem_cons_self pa held
  refine (kfree_owed shows (shows.accounts.holder member) (shows.accounts.not_table_of_held member)
    (shows.accounts.held_count paid member)).mono (fun _ t shows => ?_) fun _ => id
  have settled := shows.settle has rfl
  simpa only [paid] using settled

theorem Represents.recount {debt : Multiset Nat} (shows : Represents layout s node books)
    (page : layout.Managed pa) (owes : books.debt = pa ::ₘ debt)
    (used : 0 < s.numpUsing (pa / pgsize)) :
    Represents layout (s.addUsers pa 1) node { books with debt := debt } := by
  have counts (x : Nat) (page' : layout.Managed x) :
      (s.addUsers pa 1).numpUsing (x / pgsize) =
        s.numpUsing (x / pgsize) + if x = pa then 1 else 0 :=
    s.addUsers_using page page'
  have inUse (x : Nat) (page' : layout.Managed x) :
      0 < (s.addUsers pa 1).numpUsing (x / pgsize) ↔ 0 < s.numpUsing (x / pgsize) := by
    rw [counts x page']
    split
    · rename_i same
      rw [same]
      omega
    · omega
  obtain ⟨slots, accounts⟩ := shows
  refine ⟨slots, accounts.named, ?_, accounts.holder, accounts.mapped, ?_, ?_, ?_, ?_⟩
  · intro name t there
    obtain ⟨page, single, unmapped, unheld, owed⟩ := accounts.table there
    rw [owes] at owed
    exact ⟨page, single, unmapped, unheld, fun member => owed (Multiset.mem_cons_of_mem member)⟩
  · intro x page'
    have before := accounts.count page'
    have users : users { books with debt := debt } x = books.users x := rfl
    rw [owes, Multiset.count_cons] at before
    rw [counts x page', users]
    simp only
    split at before <;> rename_i same
    · rw [if_pos same]
      omega
    · rw [if_neg same]
      omega
  · intro x page'
    have before := accounts.nonneg page'
    rw [counts x page']
    split <;> omega
  · exact fun page' used => accounts.content page' ((inUse _ page').mp used)
  · obtain ⟨pages, chain, nodup, members⟩ := accounts.free
    refine ⟨pages, chain, nodup, fun x => (members x).trans (and_congr_right fun page' => ?_)⟩
    have before := accounts.nonneg page'
    have same := inUse x page'
    have after := counts x page'
    split at after <;> omega

end Allocator

section Tables

variable {x : Option Leaf} {c q : Nat} {held : Multiset Nat}

/-- The page that a virtual page below `TRAPFRAME` uses. -/
def share (v : Nat) (x : Option Leaf) : Multiset Nat :=
  if v < userPages then x.elim 0 fun leaf => {leaf.pa} else 0

theorem count_share_of_user (user : v < userPages) :
    (share v x).count pa = if x.map Leaf.pa = some pa then 1 else 0 := by
  rw [share, if_pos user]
  cases x with
  | none => simp
  | some leaf => simp [Multiset.count_singleton, eq_comm]

theorem Books.users_setLeaf (books : Books) (v : Nat) (x : Option Leaf) (pa : Nat)
    (root : r < phystop) :
    users { books with leaf := update books.leaf (r, v) x } pa +
        (share v (books.leaf (r, v))).count pa = books.users pa + (share v x).count pa := by
  have mapped : (fun name => (update books.leaf (r, v) x name).map Leaf.pa) =
      update (fun name => (books.leaf name).map Leaf.pa) (r, v) (x.map Leaf.pa) := by
    funext name
    by_cases same : name = (r, v)
    · subst same
      simp
    · simp [same]
  unfold users
  by_cases user : v < userPages
  · rw [mapped, count_share_of_user user, count_share_of_user user]
    exact owners_update (mem_userNames.mpr ⟨root, user⟩) _
  · rw [share, share, if_neg user, if_neg user]
    refine congrArg (· + _) (owners_congr fun name member => ?_)
    have other : name ≠ (r, v) := by
      rintro rfl
      exact user (mem_userNames.mp member).2
    simp [other]

/-- A table entry changes hands: the page that it mapped is held, and the page that it maps
is owed. -/
theorem Accounts.setLeaf (accounts : Accounts layout s node books) (root : r < phystop)
    (fine : ∀ leaf, x = some leaf → v < userPages →
      layout.Managed leaf.pa ∧ tables node leaf.pa = 0) :
    Accounts layout s node
      { books with
        leaf := update books.leaf (r, v) x
        held := share v (books.leaf (r, v)) + books.held
        debt := share v x + books.debt } := by
  have member {y : Option Leaf} {pa : Nat} (shared : pa ∈ share v y) :
      v < userPages ∧ ∃ leaf, y = some leaf ∧ pa = leaf.pa := by
    unfold share at shared
    split at shared
    · rename_i user
      cases y with
      | none => simp at shared
      | some leaf => exact ⟨user, leaf, rfl, by simpa using shared⟩
    · simp at shared
  have same (pa : Nat) : users
      { books with
        leaf := update books.leaf (r, v) x
        held := share v (books.leaf (r, v)) + books.held
        debt := share v x + books.debt } pa =
      users { books with leaf := update books.leaf (r, v) x } pa := rfl
  refine ⟨accounts.named, ?_, ?_, ?_, ?_, accounts.nonneg, accounts.content, accounts.free⟩
  · intro name t there
    obtain ⟨page, single, unmapped, unheld, owed⟩ := accounts.table there
    have old : t ∉ share v (books.leaf (r, v)) := by
      intro shared
      obtain ⟨user, leaf, mapping, rfl⟩ := member shared
      have plain := accounts.not_table_of_leaf mapping user
      omega
    have new : t ∉ share v x := by
      intro shared
      obtain ⟨user, leaf, mapping, rfl⟩ := member shared
      have plain := (fine leaf mapping user).2
      omega
    refine ⟨page, single, ?_, by simp [old, unheld], by simp [new, owed]⟩
    have users := books.users_setLeaf v x t root
    rw [Multiset.count_eq_zero_of_notMem old, Multiset.count_eq_zero_of_notMem new,
      unmapped] at users
    rw [same t]
    omega
  · intro pa holds
    rcases Multiset.mem_add.mp holds with shared | holds
    · obtain ⟨user, leaf, mapping, rfl⟩ := member shared
      exact (accounts.mapped mapping).2 user
    · exact accounts.holder holds
  · intro r' v' leaf mapping
    by_cases same : (r', v') = (r, v)
    · obtain ⟨rfl, rfl⟩ := Prod.mk.inj same
      simp only [update_self] at mapping
      exact ⟨root, fun user => (fine leaf mapping user).1⟩
    · simp only [update_of_ne same] at mapping
      exact accounts.mapped mapping
  · intro pa page
    have before := accounts.count page
    have users := books.users_setLeaf v x pa root
    rw [same pa]
    simp only [Multiset.count_add]
    push_cast
    omega

theorem Slots.store {value : Nat} {node' : Nodes} {leaf' : Nat × Nat → Option Leaf}
    (slots : Slots s.mem node leaf) (accounts : Accounts layout s node books)
    (there : node (r, d, p) = some t) (inside : i < 512) (bounded : value < 256 ^ 8)
    (here : entry node' leaf' r d p i = value)
    (others : ∀ r' d' p' i', (r', d', p', i') ≠ (r, d, p, i) → i' < 512 →
      entry node' leaf' r' d' p' i' = entry node leaf r' d' p' i')
    {r' d' p' t' i' : Nat} (there' : node (r', d', p') = some t') (inside' : i' < 512) :
    load (Foundation.store s.mem (t + 8 * i) 8 value) (t' + 8 * i') 8 =
      entry node' leaf' r' d' p' i' := by
  have page := (accounts.table there).1
  have page' := (accounts.table there').1
  by_cases same : (r', d', p', i') = (r, d, p, i)
  · obtain ⟨rfl, rfl, rfl, rfl⟩ : r' = r ∧ d' = d ∧ p' = p ∧ i' = i := by simpa using same
    cases there.symm.trans there'
    rw [load_store_same bounded, here]
  · rw [others r' d' p' i' same inside', ← slots.slot there' inside']
    refine load_store_other ?_
    by_cases equal : t' = t
    · subst equal
      have place := accounts.place there' there
      have different : i' ≠ i := by
        rintro rfl
        exact same (by simpa using place)
      omega
    · have := page.aligned
      have := page'.aligned
      omega

theorem Accounts.storeTable {value : Nat} (accounts : Accounts layout s node books)
    (there : node (r, d, p) = some t) (inside : i < 512) :
    Accounts layout { s with mem := store s.mem (t + 8 * i) 8 value } node books := by
  obtain ⟨page, single, _⟩ := accounts.table there
  refine accounts.rewrite page (by rw [accounts.table_count there]; omega) ?_ (fun _ _ => rfl) ?_
  · intro x outside
    refine store_other ?_
    unfold pgsize at outside
    omega
  · intro plain
    omega

theorem Represents.setLeaf (shows : Represents layout s node books)
    (there : node (r, 2, p) = some t) (inside : i < 512)
    (fine : ∀ leaf, x = some leaf → p * 512 + i < userPages →
      layout.Managed leaf.pa ∧ tables node leaf.pa = 0) :
    Represents layout { s with mem := store s.mem (t + 8 * i) 8 (x.elim 0 Leaf.pte) } node
      { books with
        leaf := update books.leaf (r, p * 512 + i) x
        held := share (p * 512 + i) (books.leaf (r, p * 512 + i)) + books.held
        debt := share (p * 512 + i) x + books.debt } := by
  obtain ⟨slots, accounts⟩ := shows
  refine ⟨⟨?_⟩, (accounts.storeTable there inside).setLeaf (accounts.named there).1 fine⟩
  intro r' d' p' t' i' there' inside'
  refine slots.store accounts there inside ?_ ?_ ?_ there' inside'
  · cases x with
    | none => simp
    | some leaf => exact entry_lt leaf.physical leaf.small
  · simp [entry]
  · intro r' d' p' i' other inside'
    unfold entry
    split
    · rename_i low
      have apart : (r', p' * 512 + i') ≠ (r, p * 512 + i) := by
        intro same
        simp only [Prod.mk.injEq] at same
        exact other (by simp only [Prod.mk.injEq]; omega)
      simp only [update_of_ne apart]
    · rfl

theorem tables_adopt (named : name ∈ nodeNames) (free : node name = none) :
    tables (update node name (some c)) pa = tables node pa + if c = pa then 1 else 0 := by
  have moved := owners_update (f := node) (a := pa) named (some c)
  simpa [free, tables] using moved

theorem Accounts.adopt (accounts : Accounts layout s node books) (has : books.held = c ::ₘ held)
    (fresh : c ∉ held) (unmapped : books.users c = 0) (paid : c ∉ books.debt) (root : r < phystop)
    (depth : d < 3) (inside : p < 512 ^ d) (free : node (r, d, p) = none) :
    Accounts layout s (update node (r, d, p) (some c)) { books with held := held } := by
  have page : layout.Managed c := accounts.holder (by rw [has]; exact Multiset.mem_cons_self c held)
  have plain : tables node c = 0 :=
    accounts.not_table_of_held (by rw [has]; exact Multiset.mem_cons_self c held)
  have member : (r, d, p) ∈ nodeNames := by
    refine mem_nodeNames.mpr ⟨root, depth, inside.trans_le ?_⟩
    exact Nat.pow_le_pow_right (by omega) (by omega)
  refine ⟨?_, ?_, ?_, accounts.mapped, ?_, accounts.nonneg, ?_, accounts.free⟩
  · intro r' d' p' t there
    by_cases same : (r', d', p') = (r, d, p)
    · obtain ⟨rfl, rfl, rfl⟩ : r' = r ∧ d' = d ∧ p' = p := by simpa using same
      exact ⟨root, depth, inside⟩
    · rw [update_of_ne same] at there
      exact accounts.named there
  · intro name t there
    rw [tables_adopt member free]
    by_cases same : name = (r, d, p)
    · subst same
      obtain rfl : c = t := by simpa using there
      exact ⟨page, by simp [plain], unmapped, fresh, paid⟩
    · rw [update_of_ne same] at there
      obtain ⟨page', single, unmapped', unheld, owed⟩ := accounts.table there
      have other : c ≠ t := by
        rintro rfl
        omega
      rw [has] at unheld
      exact ⟨page', by simp [single, other], unmapped',
        fun holds => unheld (Multiset.mem_cons_of_mem holds), owed⟩
  · intro pa holds
    exact accounts.holder (by rw [has]; exact Multiset.mem_cons_of_mem holds)
  · intro pa page'
    have before := accounts.count page'
    have users : users { books with held := held } pa = books.users pa := rfl
    rw [has, Multiset.count_cons] at before
    rw [tables_adopt member free, users]
    by_cases same : c = pa
    · subst same
      simp only [if_true] at before ⊢
      push_cast at before ⊢
      omega
    · simp only [same, Ne.symm same, if_false] at before ⊢
      omega
  · intro pa o page' used plain' inside
    rw [tables_adopt member free] at plain'
    exact accounts.content page' used (by omega) inside

theorem entry_update {y : Option Nat} (other : name ≠ (r, d + 1, p * 512 + i)) :
    entry (update node name y) leaf r d p i = entry node leaf r d p i := by
  unfold entry
  rw [update_of_ne other.symm]

theorem Accounts.load_zeroed (accounts : Accounts layout s node books)
    (has : books.held = c ::ₘ held)
    (paid : c ∉ books.debt) (zero : ∀ o, o < pgsize → books.data c o = 0) (inside : i < 512) :
    load s.mem (c + 8 * i) 8 = 0 := by
  have member : c ∈ books.held := by
    rw [has]
    exact Multiset.mem_cons_self c held
  have page := accounts.holder member
  have used : 0 < s.numpUsing (c / pgsize) := by
    have count := accounts.count page
    rw [Multiset.count_eq_zero_of_notMem paid] at count
    have some := Multiset.count_pos.mpr member
    omega
  refine load_zero fun x low high => ?_
  obtain ⟨o, rfl⟩ := Nat.exists_eq_add_of_le (show c ≤ x by omega)
  have within : o < pgsize := by
    unfold pgsize
    omega
  rw [accounts.content page used (accounts.not_table_of_held member) within, zero o within]

theorem Represents.link (shows : Represents layout s node books) (there : node (r, d, p) = some t)
    (inside : i < 512) (upper : d < 2) (free : node (r, d + 1, p * 512 + i) = none)
    (has : books.held = c ::ₘ held) (fresh : c ∉ held) (unmapped : books.users c = 0)
    (paid : c ∉ books.debt) (zero : ∀ o, o < pgsize → books.data c o = 0)
    (empty : ∀ j, j < 512 → entry node books.leaf r (d + 1) (p * 512 + i) j = 0) :
    Represents layout { s with mem := store s.mem (t + 8 * i) 8 (pa2pte c ||| pteV) }
      (update node (r, d + 1, p * 512 + i) (some c)) { books with held := held } := by
  obtain ⟨slots, accounts⟩ := shows
  obtain ⟨root, _, bounded⟩ := accounts.named there
  have member : c ∈ books.held := by
    rw [has]
    exact Multiset.mem_cons_self c held
  have page := accounts.holder member
  have other : c ≠ t := by
    rintro rfl
    exact (accounts.table there).2.2.2.1 member
  refine ⟨⟨?_⟩,
    (accounts.storeTable there inside).adopt has fresh unmapped paid root (by omega) ?_ free⟩
  · intro r' d' p' t' j there' inside'
    by_cases same : (r', d', p') = (r, d + 1, p * 512 + i)
    · obtain ⟨rfl, rfl, rfl⟩ : r' = r ∧ d' = d + 1 ∧ p' = p * 512 + i := by simpa using same
      obtain rfl : c = t' := by simpa using there'
      rw [entry_update (by simp), empty j inside', ← accounts.load_zeroed has paid zero inside']
      refine load_store_other ?_
      have := page.aligned
      have := (accounts.table there).1.aligned
      omega
    · rw [update_of_ne same] at there'
      refine slots.store accounts there inside ?_ ?_ ?_ there' inside'
      · exact entry_lt page.physical (by decide)
      · simp [entry, show d ≠ 2 by omega]
      · intro r' d' p' i' different inside'
        refine entry_update fun equal => different ?_
        simp only [Prod.mk.injEq] at equal ⊢
        omega
  · rw [pow_succ]
    omega

theorem Represents.adoptRoot (shows : Represents layout s node books)
    (has : books.held = c ::ₘ held) (fresh : c ∉ held) (unmapped : books.users c = 0)
    (paid : c ∉ books.debt)
    (zero : ∀ o, o < pgsize → books.data c o = 0) (free : ∀ d p, node (c, d, p) = none) :
    Represents layout s (update node (c, 0, 0) (some c)) { books with held := held } := by
  obtain ⟨slots, accounts⟩ := shows
  have page := accounts.holder (by rw [has]; exact Multiset.mem_cons_self c held)
  have root := page.below
  refine ⟨⟨?_⟩, accounts.adopt has fresh unmapped paid (by omega) (by omega) (by simp) (free 0 0)⟩
  intro r d p t i there inside
  rw [entry_update (by simp)]
  by_cases same : (r, d, p) = (c, 0, 0)
  · obtain ⟨rfl, rfl, rfl⟩ : r = c ∧ d = 0 ∧ p = 0 := by simpa using same
    obtain rfl : r = t := by simpa using there
    rw [accounts.load_zeroed has paid zero inside]
    simp [entry, free]
  · rw [update_of_ne same] at there
    exact slots.slot there inside

theorem tables_expose (named : name ∈ nodeNames) (there : node name = some t) (pa : Nat) :
    tables (update node name none) pa + (if t = pa then 1 else 0) = tables node pa := by
  have moved := owners_update (f := node) (a := pa) named none
  simpa [there, tables] using moved

/-- A table page that no other one points to becomes an ordinary page. -/
theorem Represents.expose (shows : Represents layout s node books) (there : node (r, d, p) = some t)
    (orphan : ∀ d' p' j, j < 512 → (d' + 1, p' * 512 + j) = (d, p) → node (r, d', p') = none) :
    Represents layout s (update node (r, d, p) none)
      (books.hold t fun o => s.mem (t + o)) := by
  obtain ⟨slots, accounts⟩ := shows
  obtain ⟨page, single, unmapped, unheld, owed⟩ := accounts.table there
  have moved := tables_expose (accounts.mem_names there) there
  refine ⟨⟨?_⟩, ?_, ?_, ?_, accounts.mapped, ?_, accounts.nonneg, ?_, accounts.free⟩
  · intro r' d' p' t' i there' inside
    have other : (r', d', p') ≠ (r, d, p) := by
      intro same
      rw [same, update_self] at there'
      cases there'
    rw [update_of_ne other] at there'
    rw [entry_update]
    · exact slots.slot there' inside
    · intro parent
      obtain ⟨rfl, rfl, rfl⟩ : r = r' ∧ d = d' + 1 ∧ p = p' * 512 + i := by simpa using parent
      rw [orphan d' p' i inside rfl] at there'
      cases there'
  · intro r' d' p' t' there'
    refine accounts.named (t := t') ?_
    by_contra absent
    by_cases same : (r', d', p') = (r, d, p)
    · rw [same, update_self] at there'
      cases there'
    · rw [update_of_ne same] at there'
      exact absent there'
  · intro name t' there'
    have other : name ≠ (r, d, p) := by
      rintro rfl
      rw [update_self] at there'
      cases there'
    rw [update_of_ne other] at there'
    obtain ⟨page', single', unmapped', unheld', owed'⟩ := accounts.table there'
    have different : t ≠ t' := by
      rintro rfl
      exact other (accounts.place there' there)
    have count := moved t'
    rw [if_neg different] at count
    exact ⟨page', by omega, unmapped', by simp [hold, different.symm, unheld'], owed'⟩
  · intro pa holds
    rcases Multiset.mem_cons.mp holds with rfl | holds
    · exact page
    · exact accounts.holder holds
  · intro pa page'
    have before := accounts.count page'
    have count := moved pa
    have held : (books.hold t fun o => s.mem (t + o)).held.count pa =
        books.held.count pa + if pa = t then 1 else 0 := Multiset.count_cons ..
    have users : (books.hold t fun o => s.mem (t + o)).users pa = books.users pa := rfl
    have debt : (books.hold t fun o => s.mem (t + o)).debt = books.debt := rfl
    rw [held, users, debt]
    by_cases same : pa = t
    · subst same
      simp only [if_true] at count ⊢
      push_cast
      omega
    · simp only [same, Ne.symm same, if_false] at count ⊢
      omega
  · intro pa o page' used plain inside
    by_cases same : pa = t
    · subst same
      simp [hold]
    · have count := moved pa
      rw [if_neg (Ne.symm same)] at count
      simp only [hold, update_of_ne same]
      exact accounts.content page' used (by omega) inside

end Tables

end EnhancedXv6.Memory
