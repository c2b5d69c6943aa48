import EnhancedXv6.Memory.Teardown

namespace EnhancedXv6.Memory

open Foundation Function Option Finset Nodes

variable {layout : Layout} {s : Kmem} {node : Nodes} {books books' : Books} {live : Finset Nat}
  {pa r v v₀ flags : Nat} {leaf : Leaf} {stops : Panic → Prop} {a b oldsz newsz left xperm sz : Nat}

section Dealloc

theorem asInt_small {n : Nat} (small : n < 2 ^ 31) : asInt n = n := by
  unfold asInt
  dsimp only
  rw [Nat.mod_eq_of_lt (by omega), if_pos small]

theorem pgroundup_lt : pgroundup a < pgroundup b ↔ pageCount a < pageCount b := by
  rw [← pageCount_mul a, ← pageCount_mul b, Nat.mul_lt_mul_right (by decide)]

theorem pgroundup_sub (a b : Nat) :
    (pgroundup b - pgroundup a) / pgsize = pageCount b - pageCount a := by
  rw [← pageCount_mul a, ← pageCount_mul b, ← Nat.sub_mul, Nat.mul_div_cancel _ (by decide)]

theorem uvmdealloc_meets (tables : Tables layout s live node books)
    (paid : books.debt = 0) (root : r ∈ live) (low : pageCount oldsz ≤ userPages)
    (panics : ∀ e, newsz < oldsz →
      ¬ books.Maps r (pageCount newsz) (pageCount oldsz - pageCount newsz) → stops e) :
    Meets (uvmdealloc r oldsz newsz) s (fun result u =>
      (oldsz ≤ newsz ∧ result = oldsz ∧ u = s) ∨
      (newsz < oldsz ∧ result = newsz ∧
        books.Maps r (pageCount newsz) (pageCount oldsz - pageCount newsz) ∧
        Tables layout u live node
          (books.unmap r (pageCount newsz) (pageCount oldsz - pageCount newsz))))
      stops := by
  rw [uvmdealloc]
  split
  · rename_i grows
    rw [meets_pure]
    exact .inl ⟨grows, rfl, rfl⟩
  · rename_i shrinks
    dsimp only
    split
    · rename_i fewer
      rw [pgroundup_lt] at fewer
      rw [pgroundup_sub]
      have top : (pageCount newsz + (pageCount oldsz - pageCount newsz)) * pgsize ≤ maxva := by
        rw [Nat.add_sub_cancel' fewer.le]
        exact (Nat.mul_le_mul_right pgsize low).trans userPages_mul
      have small : pageCount oldsz - pageCount newsz < 2 ^ 31 := by
        rw [userPages_eq] at low
        omega
      rw [asInt_small small, ← pageCount_mul newsz]
      refine (uvmunmap_meets tables paid root top ?_ fun e => panics e (by omega)).bind
        fun _ u ⟨maps, unmapped⟩ => ?_
      · intro w _ below
        simp only [true_iff]
        omega
      · rw [meets_pure]
        exact .inr ⟨by omega, rfl, maps, unmapped⟩
    · rename_i same
      rw [pgroundup_lt] at same
      have none : pageCount oldsz - pageCount newsz = 0 := by omega
      rw [meets_pure, none, Books.unmap_zero]
      refine .inr ⟨by omega, rfl, ?_, tables⟩
      intro w above below
      omega

end Dealloc

section Alloc

/-- New zeroed pages are mapped from one page up to another; everything else is unchanged. -/
structure Grown (layout : Layout) (books books' : Books) (r v₀ v flags : Nat) : Prop where
  ordered : v₀ ≤ v
  held : books'.held = books.held
  debt : books'.debt = books.debt
  others : ∀ name, ¬ (name.1 = r ∧ v₀ ≤ name.2 ∧ name.2 < v) → books'.leaf name = books.leaf name
  blank : ∀ w, v₀ ≤ w → w < v → books.leaf (r, w) = none
  fresh : ∀ w, v₀ ≤ w → w < v → ∃ leaf, books'.leaf (r, w) = some leaf ∧ leaf.flags = flags ∧
    layout.Managed leaf.pa ∧ books.users leaf.pa = 0 ∧ leaf.pa ∉ books.held ∧
    books'.users leaf.pa = 1 ∧ ∀ o, o < pgsize → books'.data leaf.pa o = 0
  data : ∀ pa, pa ∈ books.held ∨ 0 < books.users pa → books'.data pa = books.data pa
  users : ∀ pa, 0 < books.users pa → books'.users pa = books.users pa

theorem Grown.refl (layout : Layout) (books : Books) (r v flags : Nat) :
    Grown layout books books r v v flags where
  ordered := le_rfl
  held := rfl
  debt := rfl
  others := fun _ _ => rfl
  blank := fun _ _ _ => by omega
  fresh := fun _ _ _ => by omega
  data := fun _ _ => rfl
  users := fun _ _ => rfl

theorem share_user (user : v < userPages) : share v (some leaf) = {leaf.pa} := by
  rw [share, if_pos user, elim_some]

theorem Grown.snoc (grown : Grown layout books books' r v₀ v flags) (leaf : Leaf)
    (data : Nat → Nat → UInt8) (root : r < phystop) (user : v < userPages)
    (page : layout.Managed leaf.pa) (unmapped : books'.users leaf.pa = 0)
    (unheld : leaf.pa ∉ books'.held) (blank : books'.leaf (r, v) = none) (perm : leaf.flags = flags)
    (zero : ∀ o, o < pgsize → data leaf.pa o = 0)
    (same : ∀ pa, pa ≠ leaf.pa → data pa = books'.data pa) :
    Grown layout books
      { books' with leaf := update books'.leaf (r, v) (some leaf), data := data }
      r v₀ (v + 1) flags := by
  have counts (pa : Nat) : Books.users { books' with
      leaf := update books'.leaf (r, v) (some leaf), data := data } pa =
        books'.users pa + if pa = leaf.pa then 1 else 0 := by
    have moved : Books.users { books' with
        leaf := update books'.leaf (r, v) (some leaf), data := data } pa + _ = _ :=
      books'.users_setLeaf v (some leaf) pa root
    rw [blank, share_user user] at moved
    simpa [share, Multiset.count_singleton] using moved
  have mappedBefore {pa : Nat} (mapped : 0 < books.users pa) : pa ≠ leaf.pa := by
    rintro rfl
    have := grown.users _ mapped
    omega
  refine ⟨by have := grown.ordered; omega, grown.held, grown.debt, ?_, ?_, ?_, ?_, ?_⟩
  · intro name outside
    have other : name ≠ (r, v) := by
      rintro rfl
      exact outside ⟨rfl, grown.ordered, Nat.lt_succ_self v⟩
    refine (update_of_ne other _ _).trans (grown.others name ?_)
    omega
  · intro w above below
    by_cases last : w = v
    · subst last
      rw [← grown.others (r, w) (by simp)]
      exact blank
    · exact grown.blank w above (by omega)
  · intro w above below
    by_cases last : w = v
    · subst last
      refine ⟨leaf, update_self _ _ _, perm, page, ?_, ?_, ?_, zero⟩
      · by_contra mapped
        exact mappedBefore (Nat.pos_of_ne_zero mapped) rfl
      · rw [← grown.held]
        exact unheld
      · rw [counts, unmapped, if_pos rfl]
    · obtain ⟨old, mapped, flags, oldPage, before, free, one, zeroed⟩ :=
        grown.fresh w above (by omega)
      have other : old.pa ≠ leaf.pa := by
        intro equal
        rw [equal] at one
        omega
      refine ⟨old, ?_, flags, oldPage, before, free, ?_, fun o inside => ?_⟩
      · exact (update_of_ne (by simp [last]) _ _).trans mapped
      · rw [counts, if_neg other, one]
      · dsimp only
        rw [same old.pa other]
        exact zeroed o inside
  · intro pa use
    have other : pa ≠ leaf.pa := by
      rcases use with held | mapped
      · rintro rfl
        rw [← grown.held] at held
        exact unheld held
      · exact mappedBefore mapped
    exact (same pa other).trans (grown.data pa use)
  · intro pa mapped
    rw [counts, if_neg (mappedBefore mapped)]
    exact grown.users pa mapped

/-- An address space does not have more pages than the memory has, if they are all different. -/
theorem pages_bound
    (maps : ∀ w, a ≤ w → w < b → ∃ leaf, books.leaf (r, w) = some leaf ∧ layout.Managed leaf.pa)
    (apart : ∀ w w' x x', a ≤ w → w < b → a ≤ w' → w' < b → books.leaf (r, w) = some x →
      books.leaf (r, w') = some x' → x.pa = x'.pa → w = w') : b - a ≤ 32768 := by
  have counted := card_le_card_of_injOn (s := Finset.Ico a b)
    (t := Finset.Ico (kernbase / pgsize) (phystop / pgsize))
    (fun w => (books.leaf (r, w)).elim 0 Leaf.pa / pgsize) ?_ ?_
  · rw [Nat.card_Ico, Nat.card_Ico] at counted
    exact counted
  · intro w member
    obtain ⟨above, below⟩ := mem_Ico.mp member
    obtain ⟨leaf, mapped, page⟩ := maps w above below
    have low := page.positive
    have high := page.below
    rw [phystop_eq] at high
    dsimp only
    rw [mapped, elim_some, mem_coe, mem_Ico, phystop_eq]
    unfold kernbase at low ⊢
    unfold pgsize
    omega
  · intro w member w' member' same
    obtain ⟨above, below⟩ := mem_Ico.mp member
    obtain ⟨above', below'⟩ := mem_Ico.mp member'
    obtain ⟨leaf, mapped, here⟩ := maps w above below
    obtain ⟨leaf', mapped', here'⟩ := maps w' above' below'
    dsimp only at same
    rw [mapped, mapped'] at same
    exact apart w w' leaf leaf' above below above' below' mapped mapped' (here.eq_of_div here' same)

section

variable (grown : Grown layout books books' r v₀ v flags)

include grown

theorem Grown.bound (root : r < phystop) (user : v ≤ userPages) : v - v₀ ≤ 32768 := by
  have maps (w : Nat) (above : v₀ ≤ w) (below : w < v) :
      ∃ leaf, books'.leaf (r, w) = some leaf ∧ layout.Managed leaf.pa := by
    obtain ⟨leaf, mapped, _, page, _⟩ := grown.fresh w above below
    exact ⟨leaf, mapped, page⟩
  refine pages_bound maps fun w w' x x' above below above' below' mapped mapped' same => ?_
  obtain ⟨leaf, here, _, _, _, _, one, _⟩ := grown.fresh w above below
  cases here.symm.trans mapped
  have place := eq_of_owners_le_one one.le (i := (r, w)) (j := (r, w'))
    (mem_userNames.mpr ⟨root, by omega⟩) (mem_userNames.mpr ⟨root, by omega⟩)
    (by simp [mapped]) (by simp [mapped', same])
  exact congrArg Prod.snd place

theorem Grown.undo (paid : books.debt = 0)
    (tables : Tables layout s live node (books'.unmap r v₀ (v - v₀))) :
    Tables layout s live node books := by
  have leaves : (books'.unmap r v₀ (v - v₀)).leaf = books.leaf := by
    funext name
    have ordered := grown.ordered
    unfold Books.unmap
    dsimp only
    split
    · rename_i inside
      obtain ⟨r', w⟩ := name
      dsimp only at inside
      rw [inside.1]
      exact (grown.blank w inside.2.1 (by omega)).symm
    · rename_i outside
      exact grown.others name (by omega)
  have known : books'.unmap r v₀ (v - v₀) = { books with data := books'.data } := by
    rw [← leaves]
    unfold Books.unmap
    rw [grown.held, grown.debt]
  rw [known] at tables
  refine ⟨tables.shows.forget fun pa page used plain o _ => ?_, tables.rooted, tables.live⟩
  -- a page that is counted and is not a table is held or mapped
  have count : s.numpUsing (pa / pgsize) + (books.debt.count pa : Int) =
    Memory.tables node pa + books.users pa + books.held.count pa := tables.shows.accounts.count page
  rw [paid, plain, Multiset.count_zero] at count
  refine congrFun (grown.data pa ?_).symm o
  by_cases mapped : 0 < books.users pa
  · exact .inr mapped
  · exact .inl (Multiset.count_pos.mp (by omega))

theorem Grown.maps : books'.Maps r v₀ (v - v₀) := by
  intro w above below
  obtain ⟨leaf, mapped, _⟩ := grown.fresh w above (by omega)
  exact ⟨leaf, mapped⟩

end

theorem pageCount_pages (n : Nat) (small : n ≤ userPages) : pageCount (n * pgsize) = n := by
  rw [userPages_eq] at small
  unfold pageCount pgroundup pgsize
  dsimp only
  omega

/-- The new pages are given back when there is not enough memory. -/
theorem Grown.rollback (grown : Grown layout books books' r v₀ v flags) (paid : books.debt = 0)
    (tables : Tables layout s live node books') (root : r ∈ live) (user : v ≤ userPages) :
    Meets (do let _ ← uvmdealloc r (v * pgsize) (v₀ * pgsize); return 0) s
      (fun result u => result = 0 ∧ Tables layout u live node books) stops := by
  have ordered := grown.ordered
  have paid' : books'.debt = 0 := grown.debt.trans paid
  have top : pageCount (v * pgsize) = v := pageCount_pages v user
  have bottom : pageCount (v₀ * pgsize) = v₀ := pageCount_pages v₀ (by omega)
  refine (uvmdealloc_meets tables paid' root (by omega) fun e _ gap => ?_).bind
    fun result u outcome => ?_
  · rw [top, bottom] at gap
    exact absurd grown.maps gap
  · rw [meets_pure]
    refine ⟨rfl, ?_⟩
    rcases outcome with ⟨empty, _, same⟩ | ⟨_, _, _, unmapped⟩
    · have none : v - v₀ = 0 := by
        have := Nat.le_of_mul_le_mul_right empty (by decide)
        omega
      refine grown.undo paid ?_
      rw [none, Books.unmap_zero, same]
      exact tables
    · rw [top, bottom] at unmapped
      exact grown.undo paid unmapped

theorem Represents.clear {content : Nat → UInt8}
    (shows : Represents layout s node (books.hold pa content)) (paid : books.debt = 0) :
    Represents layout { s with mem := fill s.mem pa pgsize 0 } node (books.hold pa fun _ => 0) := by
  have held : pa ∈ (books.hold pa content).held := Multiset.mem_cons_self pa _
  have cleared := shows.rewrite (m := fill s.mem pa pgsize 0) (shows.accounts.holder held)
    (shows.accounts.held_count paid held) (shows.accounts.not_table_of_held held)
    fun x outside => fill_other outside
  refine cleared.forget fun x _ _ _ o inside => ?_
  by_cases here : x = pa
  · subst here
    simp only [update_self]
    exact (fill_same (by omega) (by omega)).symm
  · simp [Books.hold, here]

def userFlags (xperm : Nat) : Nat :=
  pteR ||| pteU ||| xperm ||| pteV

def freshLeaf (xperm : Nat) (small : xperm < 2 ^ 10) (page : layout.Managed pa) : Leaf where
  pa := pa
  flags := userFlags xperm
  aligned := page.1
  physical := page.physical
  small := Nat.or_lt_two_pow (Nat.or_lt_two_pow (by decide) small) (by decide)
  valid := by
    rw [userFlags, Nat.testBit_or]
    simp [pteV]
  readable := by
    rw [userFlags, Nat.testBit_or, Nat.testBit_or]
    simp [show (pteR ||| pteU).testBit 1 = true by decide]

/-- How many pages it takes to map so many virtual pages, with the table pages on their way. -/
def demand (shape : Nat → Nat → Bool) : Nat → Nat → Nat
  | _, 0 => 0
  | v, left + 1 => 1 + lacking shape v 2 + demand (filled shape v 2) (v + 1) left

/-- How many of them come before the first one for which a table page is missing. -/
def prepared (shape : Nat → Nat → Bool) : Nat → Nat → Nat
  | _, 0 => 0
  | v, left + 1 => if lacking shape v 2 = 0 then prepared shape (v + 1) left + 1 else 0

/-- There was not enough memory to map the virtual pages. -/
structure Refused (layout : Layout) (r v left : Nat) (s : Kmem) (node node' : Nodes) : Prop where
  grows : Nodes.Extends r node node'
  short : s.spare layout < demand (node.shape r) v left
  idle : node' = node ↔ s.spare layout ≤ prepared (node.shape r) v left + 1

theorem Refused.first (empty : s.spare layout = 0) : Refused layout r v (left + 1) s node node := by
  refine ⟨.refl r node, ?_, iff_of_true rfl (by omega)⟩
  rw [demand]
  omega

/-- A page was left for a virtual page, but not for its table pages. -/
theorem Refused.starved {u : Kmem} {node' : Nodes} (starved : Starved layout r v 2 u node node')
    (spare : u.spare layout + 1 = s.spare layout) : Refused layout r v (left + 1) s node node' := by
  have short := starved.short
  refine ⟨starved.grows, ?_, ?_⟩
  · rw [demand]
    omega
  · rw [starved.idle, prepared, if_neg (by omega)]
    omega

theorem Refused.later {u w : Kmem} {node₁ node' : Nodes}
    (supplied : Supplied layout r v 2 u w node node₁) (spare : u.spare layout + 1 = s.spare layout)
    (refused : Refused layout r (v + 1) left w node₁ node') :
    Refused layout r v (left + 1) s node node' := by
  have cost := supplied.spare
  have short := refused.short
  rw [supplied.shape] at short
  refine ⟨supplied.grows.trans refused.grows, ?_, ?_⟩
  · rw [demand]
    omega
  · by_cases there : lacking (node.shape r) v 2 = 0
    · have same := supplied.shape.trans (filled_of_lacking le_rfl there)
      have idle := refused.idle
      rw [same, supplied.grows.eq_of_shape same] at idle
      rw [idle, prepared, if_pos there]
      omega
    · obtain ⟨d, q, missing, new⟩ := exists_of_lacking le_rfl there
      rw [prepared, if_neg there]
      refine iff_of_false ?_ (by omega)
      rintro rfl
      rw [← supplied.shape] at new
      obtain ⟨t, added⟩ := isSome_iff_exists.mp new
      rw [shape, refused.grows.kept added] at missing
      cases missing

theorem allocPages_meets (left : Nat) (small : xperm < 2 ^ 10) (paid : books.debt = 0)
    (root : r ∈ live) (room : v₀ + 32768 < userPages)
    (remap : (∃ w, v₀ ≤ w ∧ w < userPages ∧ books.leaf (r, w) ≠ none) → stops .mappagesRemap)
    (grown : Grown layout books books' r v₀ v (userFlags xperm)) (within : v ≤ userPages)
    (tables : Tables layout s live node books') :
    Meets (allocPages r (v₀ * pgsize) newsz xperm (v * pgsize) left) s (fun result u =>
      (result = 0 ∧ ∃ node', Refused layout r v left s node node' ∧
        Tables layout u live node' books) ∨
      (result = newsz ∧ v + left ≤ userPages ∧ demand (node.shape r) v left ≤ s.spare layout ∧
        ∃ node' books',
        Extends r node node' ∧ Grown layout books books' r v₀ (v + left) (userFlags xperm) ∧
        Tables layout u live node' books'))
      stops := by
  induction left generalizing s node books' v with
  | zero =>
    rw [allocPages, meets_pure]
    exact .inr ⟨rfl, within, Nat.zero_le _, node, books', .refl r node, grown, tables⟩
  | succ left ih =>
    have paid' : books'.debt = 0 := grown.debt.trans paid
    have known : r < phystop := (tables.shows.accounts.named ((tables.live r).mp root)).1
    have ordered := grown.ordered
    have user : v < userPages := by
      have bound := grown.bound known within
      omega
    have number : v * pgsize / pgsize = v := Nat.mul_div_cancel v (by decide)
    rw [allocPages]
    refine (((kalloc_meets tables.shows paid').and (kalloc_spare tables.shows)).and
      (kalloc_takes tables.shows)).bind fun mem u ⟨⟨outcome, short, _⟩, takes⟩ => ?_
    rcases outcome with ⟨none, rfl⟩ | ⟨unused, shows⟩
    · rw [if_pos none]
      refine (grown.rollback paid tables root within).mono
        (fun result w done => .inl ⟨done.1, node, .first (short none), done.2⟩) fun _ => id
    · rw [if_neg unused.page.ne_zero, meets_bind, meets_memset]
      have cleared := tables.hold (shows.clear paid')
      have spare :
          Kmem.spare layout { u with mem := fill u.mem mem pgsize 0 } + 1 = s.spare layout :=
        takes unused.page.ne_zero
      have before : books'.leaf (r, v) = books.leaf (r, v) := grown.others (r, v) (by simp)
      refine (mappages_meets cleared paid' root (by simp [pgsize]) ?_
        (freshLeaf xperm small unused.page) rfl
        ?_ ?_).bind fun result w outcome => ?_
      · exact (Nat.mul_lt_mul_of_pos_right user (by decide)).trans_le userPages_mul
      · exact fun _ => .inl (Multiset.mem_cons_self _ _)
      · rw [number]
        exact fun mapped => remap ⟨v, ordered, user, before ▸ mapped⟩
      rw [number] at outcome
      rcases outcome with
        ⟨rfl, _, node', starved, failed⟩ | ⟨rfl, _, blank, node', supplied, mapped⟩
      · rw [if_pos (by decide)]
        refine (kfree_held failed.shows paid' rfl).bind fun _ w freed => ?_
        have plain := failed.shows.accounts.not_table_of_held (Multiset.mem_cons_self mem _)
        have back : Tables layout w live node' books' :=
          ⟨freed.drop paid' unused.page unused.unheld unused.unmapped plain,
            failed.rooted, failed.live⟩
        refine (grown.rollback paid back root within).mono
          (fun result w done => .inl ⟨done.1, node', .starved starved spare, done.2⟩) fun _ => id
      · rw [if_neg (by decide)]
        have settled := mapped.shows.settle (show _ = mem ::ₘ books'.held from rfl)
          (show _ = mem ::ₘ 0 by rw [share_user user]; rfl)
        have next : Tables layout w live node' _ := ⟨settled, mapped.rooted, mapped.live⟩
        have more := grown.snoc (freshLeaf xperm small unused.page)
          (update books'.data mem fun _ => 0) known user unused.page unused.unmapped unused.unheld
          blank rfl ?_ ?_
        · rw [show v * pgsize + pgsize = (v + 1) * pgsize by ring,
            show v + (left + 1) = v + 1 + left by omega]
          rw [← paid'] at next
          refine (ih more (by omega) next).mono (fun result x outcome => ?_) fun _ => id
          rcases outcome with
            ⟨zero, node'', refused, done⟩ | ⟨new, high, enough, node'', final, grows, all, done⟩
          · exact .inl ⟨zero, node'', .later supplied spare refused, done⟩
          · refine .inr ⟨new, high, ?_, node'', final, supplied.grows.trans grows, all, done⟩
            have cost := supplied.spare
            rw [supplied.shape] at enough
            rw [demand]
            omega
        · intro o _
          change update books'.data mem _ mem o = 0
          rw [update_self]
        · intro pa other
          exact update_of_ne other _ _

theorem pageCount_le (low : sz ≤ trapframe) : pageCount sz ≤ userPages := by
  rw [trapframe_eq, userPages_eq] at low
  rw [userPages_eq]
  unfold pageCount pgroundup pgsize at *
  dsimp only
  omega

theorem pagesBelow_end (grows : oldsz ≤ newsz) (low : oldsz ≤ trapframe)
    (high : pageCount oldsz + pagesBelow (pageCount oldsz * pgsize) newsz ≤ userPages) :
    pageCount oldsz + pagesBelow (pageCount oldsz * pgsize) newsz = pageCount newsz ∧
    newsz ≤ trapframe := by
  rw [trapframe_eq] at low ⊢
  rw [userPages_eq] at low high ⊢
  unfold pageCount pagesBelow pgroundup pgsize at *
  dsimp only at *
  omega

theorem uvmalloc_meets (small : xperm < 2 ^ 10) (paid : books.debt = 0)
    (root : r ∈ live) (low : oldsz ≤ trapframe) (room : pageCount oldsz + 32768 < userPages)
    (remap : (∃ w, pageCount oldsz ≤ w ∧ w < userPages ∧ books.leaf (r, w) ≠ none) →
      stops .mappagesRemap)
    (tables : Tables layout s live node books) :
    Meets (uvmalloc r oldsz newsz xperm) s (fun result u =>
      (newsz < oldsz ∧ result = oldsz ∧ u = s) ∨
      (oldsz ≤ newsz ∧ result = 0 ∧ ∃ node',
        Refused layout r (pageCount oldsz) (pagesBelow (pgroundup oldsz) newsz) s node node' ∧
        Tables layout u live node' books) ∨
      (oldsz ≤ newsz ∧ result = newsz ∧ newsz ≤ trapframe ∧
        demand (node.shape r) (pageCount oldsz) (pagesBelow (pgroundup oldsz) newsz) ≤
        s.spare layout ∧
        ∃ node' books', Extends r node node' ∧
          Grown layout books books' r (pageCount oldsz) (pageCount newsz) (userFlags xperm) ∧
          Tables layout u live node' books')) stops := by
  rw [uvmalloc]
  split
  · rename_i shrinks
    rw [meets_pure]
    exact .inl ⟨shrinks, rfl, rfl⟩
  · rename_i grows
    dsimp only
    rw [← pageCount_mul oldsz]
    refine (allocPages_meets _ small paid root room remap (.refl _ _ _ _ _) (by omega) tables).mono
      (fun result u outcome => ?_) fun _ => id
    rcases outcome with ⟨zero, rest⟩ | ⟨new, high, enough, rest⟩
    · exact .inr (.inl ⟨by omega, zero, rest⟩)
    · obtain ⟨final, small⟩ := pagesBelow_end (by omega) low high
      rw [final] at rest
      exact .inr (.inr ⟨by omega, new, small, enough, rest⟩)

end Alloc

section Copy

variable {old new n : Nat}

/-- The first pages of an address space are marked as shared. -/
def Books.cowed (books : Books) (old n : Nat) : Books :=
  { books with
    leaf := fun name =>
      if name.1 = old ∧ name.2 < n then (books.leaf name).map Leaf.cow else books.leaf name }

/-- The first pages of an address space are shared with another one. -/
def Books.copied (books : Books) (old new n : Nat) : Books :=
  { books with
    leaf := fun name =>
      if name.1 = new ∧ name.2 < n then (books.leaf (old, name.2)).map Leaf.cow
      else (books.cowed old n).leaf name }

theorem Books.copied_zero (books : Books) (old new : Nat) : books.copied old new 0 = books := by
  simp [copied, cowed]

theorem Books.copied_old (books : Books) (apart : old ≠ new) :
    (books.copied old new v).leaf (old, v) = books.leaf (old, v) := by
  simp [copied, cowed, apart]

theorem Books.copied_new (books : Books) :
    (books.copied old new v).leaf (new, v) = books.leaf (new, v) := by
  simp [copied, cowed]

theorem Books.copied_succ (books : Books) (apart : old ≠ new)
    (mapped : books.leaf (old, v) = some leaf) :
    { books.copied old new v with
      leaf := update
        (update (books.copied old new v).leaf (old, v) (some leaf.cow)) (new, v) (some leaf.cow) } =
      books.copied old new (v + 1) := by
  unfold copied cowed
  dsimp only
  congr
  funext ⟨r, w⟩
  by_cases here : w = v
  · subst here
    by_cases isNew : r = new
    · subst isNew
      simp [mapped]
    · by_cases isOld : r = old
      · subst isOld
        simp [mapped, apart]
      · simp [isNew, isOld]
  · have later : w < v + 1 ↔ w < v := by omega
    simp [here, later]

theorem Books.copied_undo (books : Books) (apart : old ≠ new)
    (mapped : books.leaf (old, v) = some leaf) (blank : ∀ w, w < v → books.leaf (new, w) = none) :
    unmap { books.copied old new v with
      leaf := update (books.copied old new v).leaf (old, v) (some leaf.cow) } new 0 v =
      books.cowed old (v + 1) := by
  unfold unmap copied cowed
  congr
  funext ⟨r, w⟩
  by_cases isNew : r = new
  · subst isNew
    by_cases below : w < v
    · simp [below, apart.symm, blank w below]
    · simp [below, apart.symm]
  · by_cases here : w = v
    · subst here
      by_cases isOld : r = old
      · subst isOld
        simp [mapped, isNew]
      · simp [isNew, isOld]
    · have later : w < v + 1 ↔ w < v := by omega
      simp [isNew, here, later]

theorem Leaf.flags_valid (leaf : Leaf) : leaf.flags ||| pteV = leaf.flags := by
  refine Nat.eq_of_testBit_eq fun k => ?_
  rw [Nat.testBit_or]
  by_cases first : k = 0
  · subst first
    rw [leaf.valid]
    rfl
  · have other : pteV.testBit k = false := by
      rw [pteV, Nat.one_shiftLeft, Nat.testBit_two_pow]
      simp [Ne.symm first]
    rw [other, Bool.or_false]

theorem Leaf.cow_readonly (leaf : Leaf) (readonly : ¬ leaf.flags &&& pteW ≠ 0) :
    leaf.cow = leaf := by
  cases leaf
  unfold cow
  simp only [if_neg readonly]

theorem Tables.count_shared (books : Books) (user : v < userPages) (root : r < phystop)
    (paid : books.debt = 0) (blank : books.leaf (r, v) = none) (use : 0 < books.users leaf.pa)
    (tables : Tables layout s live node
      { books with leaf := update books.leaf (r, v) (some leaf), debt := share v (some leaf) }) :
    Tables layout (s.addUsers leaf.pa 1) live node
      { books with leaf := update books.leaf (r, v) (some leaf) } ∧
    s.spare layout ≤ (s.addUsers leaf.pa 1).spare layout := by
  have users : Books.users
      { books with
        leaf := update books.leaf (r, v) (some leaf), debt := share v (some leaf) } leaf.pa =
        books.users leaf.pa + 1 := by
    have moved : Books.users
      { books with
        leaf := update books.leaf (r, v) (some leaf), debt := share v (some leaf) } leaf.pa +
        _ = _ := books.users_setLeaf v (some leaf) leaf.pa root
    rw [blank, share_user user] at moved
    simpa [share, user] using moved
  have inUse : 0 < Books.users
      { books with
        leaf := update books.leaf (r, v) (some leaf), debt := share v (some leaf) } leaf.pa := by
    omega
  have page := (tables.shows.accounts.in_use (.inr inUse)).1
  have count := tables.shows.accounts.count page
  rw [users, share_user user, Multiset.count_singleton_self] at count
  have used : 0 < s.numpUsing (leaf.pa / pgsize) := by omega
  have recounted :=
    tables.shows.recount page (show _ = leaf.pa ::ₘ 0 by rw [share_user user]; rfl) used
  rw [← paid] at recounted
  exact ⟨⟨recounted, tables.rooted, tables.live⟩, Kmem.spare_addUsers page used⟩

/-- A writable page is marked as shared where it is mapped already. -/
theorem mark_meets {c : Nat} {β : Type} {rest : KM β} {post : β → Kmem → Prop}
    (tables : Tables layout s live node books) (there : node (r, 2, v / 512) = some c)
    (mapped : books.leaf (r, v) = some leaf)
    (next : ∀ u, u.numpUsing = s.numpUsing → Tables layout u live node
      { books with leaf := update books.leaf (r, v) (some leaf.cow) } → Meets rest u post stops) :
    Meets
      (if leaf.flags &&& pteW ≠ 0 then do
        storeWord (c + 8 * (v % 512)) leaf.cow.pte
        rest
      else rest) s post stops := by
  split
  · rw [meets_bind, meets_storeWord]
    exact next _ rfl (tables.reflag there mapped leaf.cow rfl)
  · rename_i readonly
    refine next s rfl ?_
    rw [leaf.cow_readonly readonly, ← mapped, update_eq_self]
    exact tables

theorem Books.Maps.succ (maps : books.Maps r 0 v) (mapped : books.leaf (r, v) = some leaf) :
    books.Maps r 0 (v + 1) := by
  intro w _ below
  by_cases last : w = v
  · rw [last]
    exact ⟨leaf, mapped⟩
  · exact maps w (Nat.zero_le w) (by omega)

/-- `uvmcopy` has marked the next page in the old address space and not yet mapped it in the new
one. -/
abbrev Books.marking (books : Books) (old new v : Nat) (leaf : Leaf) : Books :=
  { books.copied old new v with
    leaf := update (books.copied old new v).leaf (old, v) (some leaf.cow) }

theorem Books.marking_new (apart : old ≠ new) :
    (books.marking old new v leaf).leaf (new, v) = books.leaf (new, v) :=
  (update_of_ne (by simp [apart.symm]) _ _).trans books.copied_new

theorem Books.marking_maps (apart : old ≠ new) (maps : books.Maps old 0 v) :
    (books.marking old new v leaf).Maps new 0 v := by
  intro w _ below
  obtain ⟨x, here⟩ := maps w (Nat.zero_le w) below
  refine ⟨x.cow, ?_⟩
  dsimp only
  rw [update_of_ne (by simp [apart.symm])]
  simp [Books.copied, show w < v by omega, here]

/-- What `uvmcopy` does when a page could not be mapped: the new address space is emptied, and the
pages of the old one stay marked. -/
theorem copyPages_undo (tables : Tables layout s live node (books.marking old new v leaf))
    (paid : books.debt = 0) (newRoot : new ∈ live) (apart : old ≠ new) (user : v < userPages)
    (maps : books.Maps old 0 v) (mapped : books.leaf (old, v) = some leaf)
    (blank : ∀ w, w < v → books.leaf (new, w) = none) :
    Meets (uvmunmap new 0 v true) s
      (fun _ u => Tables layout u live node (books.cowed old (v + 1))) stops := by
  have top : v * pgsize ≤ maxva := (Nat.mul_le_mul_right _ user.le).trans userPages_mul
  have copies : Books.Maps (books.marking old new v leaf) new 0 v := Books.marking_maps apart maps
  have unmap : Meets (uvmunmap new (0 * pgsize) v true) s _ stops :=
    uvmunmap_meets tables paid newRoot (by rwa [Nat.zero_add]) (fun w _ below => ?_)
      fun e gap => absurd copies gap
  · rw [Nat.zero_mul] at unmap
    refine unmap.mono (fun _ u outcome => ?_) fun _ => id
    rw [← books.copied_undo apart mapped blank]
    exact outcome.2
  · simp only [true_iff]
    omega

/-- The page that `mappages` has entered is counted, and the copy is one page longer. -/
theorem copyPages_count (user : v < userPages) (newRoot : new ∈ live) (apart : old ≠ new)
    (paid : books.debt = 0) (mapped : books.leaf (old, v) = some leaf)
    (free : books.leaf (new, v) = none)
    (users : 0 < (books.marking old new v leaf).users leaf.cow.pa)
    (tables : Tables layout s live node { books.marking old new v leaf with
      leaf := update (books.marking old new v leaf).leaf (new, v) (some leaf.cow)
      debt := share v (some leaf.cow) }) :
    Tables layout (s.addUsers leaf.pa 1) live node (books.copied old new (v + 1)) ∧
      s.spare layout ≤ (s.addUsers leaf.pa 1).spare layout := by
  have root : new < phystop := (tables.shows.accounts.named ((tables.live new).mp newRoot)).1
  obtain ⟨counted, taken⟩ := Tables.count_shared (books.marking old new v leaf) user root paid
    ((Books.marking_new apart).trans free) users tables
  rw [books.copied_succ apart mapped] at counted
  exact ⟨counted, taken⟩

theorem copyPages_meets (left : Nat) (tables : Tables layout s live node (books.copied old new v))
    (paid : books.debt = 0) (oldRoot : old ∈ live) (newRoot : new ∈ live) (apart : old ≠ new)
    (total : v + left = n) (low : n ≤ userPages) (maps : books.Maps old 0 v)
    (blank : ∀ w, w < v → books.leaf (new, w) = none)
    (missing : ∀ e, ¬ books.Maps old 0 n → stops e)
    (remap : (∃ w, w < n ∧ books.leaf (new, w) ≠ none) → stops .mappagesRemap) :
    Meets (copyPages old new (v * pgsize) left) s (fun result u =>
      (result = 0 ∧ books.Maps old 0 n ∧ (∀ w, w < n → books.leaf (new, w) = none) ∧
        ∃ node', Elsewhere new node node' ∧ Tables layout u live node' (books.copied old new n)) ∨
      (result = -1 ∧ s.spare layout < 2 * left ∧ ∃ k, k < n ∧ books.Maps old 0 (k + 1) ∧
        ∃ node', Elsewhere new node node' ∧
        Tables layout u live node' (books.cowed old (k + 1)))) stops := by
  induction left generalizing s node v with
  | zero =>
    obtain rfl : v = n := by omega
    rw [copyPages, meets_pure]
    exact .inl ⟨rfl, maps, blank, node, fun _ _ => rfl, tables⟩
  | succ left ih =>
    have user : v < userPages := by omega
    have number : v * pgsize / pgsize = v := Nat.mul_div_cancel v (by decide)
    have top : v * pgsize < maxva :=
      (Nat.mul_lt_mul_of_pos_right user (by decide)).trans_le userPages_mul
    have unmapped (none : books.leaf (old, v) = none) (e : Panic) : stops e := by
      refine missing e fun all => ?_
      obtain ⟨leaf, here⟩ := all v (Nat.zero_le v) (by omega)
      cases none.symm.trans here
    rw [copyPages]
    refine (tables.find oldRoot top).bind fun a u outcome => ?_
    obtain ⟨rfl, found⟩ := outcome
    rw [number, books.copied_old apart] at found
    rcases found with ⟨rfl, none⟩ | ⟨real, c, there, rfl⟩
    · rw [if_pos rfl, meets_throw]
      exact unmapped none _
    rw [if_neg real, meets_bind, meets_loadWord, tables.read there, books.copied_old apart]
    cases mapped : books.leaf (old, v) with
    | none =>
      rw [elim_none, if_pos (by simp), meets_throw]
      exact unmapped mapped _
    | some leaf =>
      rw [elim_some, if_neg leaf.pte_valid, leaf.pte_flags, leaf.pte_pa]
      refine mark_meets tables there ((books.copied_old apart).trans mapped)
        fun w counts marked => ?_
      have level : u.spare layout = w.spare layout := by
        unfold Kmem.spare
        rw [counts]
      have users : 0 < (books.marking old new v leaf).users leaf.cow.pa :=
        Books.users_pos (update_self _ _ _)
          (marked.shows.accounts.mapped (update_self _ _ _)).1 user
      refine (mappages_meets marked paid newRoot
        (by simp [pgsize]) top leaf.cow leaf.cow.flags_valid.symm
        (fun _ => .inr users) ?_).bind fun result x outcome => ?_
      · rw [number, Books.marking_new apart]
        exact fun again => remap ⟨v, by omega, again⟩
      rw [number] at outcome
      rcases outcome with
        ⟨rfl, short, node', starved, failed⟩ | ⟨rfl, spare, free, node', supplied, done⟩
      · rw [if_pos (by decide), number]
        refine (copyPages_undo failed paid newRoot apart user maps mapped blank).bind
          fun _ y undone => ?_
        exact meets_pure.mpr
          (.inr ⟨rfl, by omega, v, by omega, maps.succ mapped, node', starved.grows.others, undone⟩)
      · rw [if_neg (by decide), meets_bind, meets_modify]
        rw [Books.marking_new apart] at free
        obtain ⟨counted, taken⟩ := copyPages_count user newRoot apart paid mapped free users done
        rw [show v * pgsize + pgsize = (v + 1) * pgsize by ring]
        have blank' (w : Nat) (below : w < v + 1) : books.leaf (new, w) = none := by
          rcases Nat.lt_succ_iff_lt_or_eq.mp below with before | rfl
          · exact blank w before
          · exact free
        refine (ih counted (by omega) (maps.succ mapped) blank').mono
          (fun result y outcome => ?_) fun _ => id
        rcases outcome with ⟨zero, all, empty, node'', elsewhere, copied⟩ |
          ⟨failed, few, k, below, marked, node'', elsewhere, cowed⟩
        · exact .inl ⟨zero, all, empty, node'', supplied.grows.others.trans elsewhere, copied⟩
        · exact .inr ⟨failed, by omega, k, below, marked, node'',
            supplied.grows.others.trans elsewhere, cowed⟩

theorem pagesBelow_zero (low : sz ≤ trapframe) : pagesBelow 0 sz = pageCount sz := by
  rw [trapframe_eq, userPages_eq] at low
  unfold pagesBelow pageCount pgroundup pgsize at *
  dsimp only
  omega

theorem uvmcopy_meets (tables : Tables layout s live node books) (paid : books.debt = 0)
    (oldRoot : old ∈ live) (newRoot : new ∈ live) (apart : old ≠ new) (low : sz ≤ trapframe)
    (missing : ∀ e, ¬ books.Maps old 0 (pageCount sz) → stops e)
    (remap : (∃ w, w < pageCount sz ∧ books.leaf (new, w) ≠ none) → stops .mappagesRemap) :
    Meets (uvmcopy old new sz) s (fun result u =>
      (result = 0 ∧ books.Maps old 0 (pageCount sz) ∧
        (∀ w, w < pageCount sz → books.leaf (new, w) = none) ∧
        ∃ node', Elsewhere new node node' ∧
        Tables layout u live node' (books.copied old new (pageCount sz))) ∨
      (result = -1 ∧ s.spare layout < 2 * pageCount sz ∧ ∃ k, k < pageCount sz ∧
        books.Maps old 0 (k + 1) ∧
        ∃ node', Elsewhere new node node' ∧
        Tables layout u live node' (books.cowed old (k + 1)))) stops := by
  have few := pageCount_le low
  have start : Tables layout s live node (books.copied old new 0) := by
    rw [Books.copied_zero]
    exact tables
  have copy := copyPages_meets (pageCount sz) start paid oldRoot newRoot apart (Nat.zero_add _) few
    (fun w _ below => by omega) (fun w below => by omega) missing remap
  rw [Nat.zero_mul] at copy
  rw [uvmcopy, pagesBelow_zero low]
  exact copy

end Copy

end EnhancedXv6.Memory
