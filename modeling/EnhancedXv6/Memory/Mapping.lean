import EnhancedXv6.Memory.Walk

namespace EnhancedXv6.Memory

open Foundation Function Option Books

variable {layout : Layout} {s : Kmem} {node : Nodes} {books : Books} {live : Finset Nat}
  {pa r c v va : Nat} {leaf : Leaf} {x : Option Leaf} {stops : Panic → Prop} {doFree : Bool}

section Entries

theorem Leaf.pte_valid (leaf : Leaf) : leaf.pte &&& pteV ≠ 0 := by
  rw [pteV, testBit_flag, pte, testBit_entry (by omega)]
  exact leaf.valid

theorem Leaf.pte_flags (leaf : Leaf) : pteFlags leaf.pte = leaf.flags :=
  pteFlags_entry leaf.small

theorem Leaf.pte_pa (leaf : Leaf) : pte2pa leaf.pte = leaf.pa :=
  pte2pa_entry leaf.aligned leaf.physical leaf.small

/-- An entry with a flag other than the valid bit is not taken for a pointer to a table. -/
theorem Leaf.flags_ne (leaf : Leaf) : leaf.flags ≠ pteV := by
  intro only
  have readable := leaf.readable
  rw [only] at readable
  exact absurd readable (by decide)

theorem Leaf.pte_test (leaf : Leaf) {k : Nat} (low : k < 10) :
    leaf.pte &&& (1 <<< k) ≠ 0 ↔ leaf.flags.testBit k = true := by
  rw [testBit_flag, pte, testBit_entry low]

end Entries

section Tables

theorem Tables.read (tables : Tables layout s live node books)
    (there : node (r, 2, v / 512) = some c) :
    load s.mem (c + 8 * (v % 512)) 8 = (books.leaf (r, v)).elim 0 Leaf.pte := by
  have read := tables.shows.slots.slot there (Nat.mod_lt v (by omega))
  rw [entry, if_pos rfl, Nat.div_add_mod' v 512] at read
  exact read

theorem Tables.setLeaf (tables : Tables layout s live node books)
    (there : node (r, 2, v / 512) = some c)
    (fine : ∀ leaf, x = some leaf → v < userPages →
      layout.Managed leaf.pa ∧ Memory.tables node leaf.pa = 0) :
    Tables layout { s with mem := store s.mem (c + 8 * (v % 512)) 8 (x.elim 0 Leaf.pte) } live node
      { books with
        leaf := update books.leaf (r, v) x
        held := share v (books.leaf (r, v)) + books.held
        debt := share v x + books.debt } := by
  have place := Nat.div_add_mod' v 512
  have stored := tables.shows.setLeaf there (Nat.mod_lt v (by omega)) (by rw [place]; exact fine)
  rw [place] at stored
  refine ⟨stored, fun r' => ⟨(tables.rooted r').root, (tables.rooted r').parent, ?_⟩, tables.live⟩
  intro w y mapped
  dsimp only at mapped
  by_cases same : (r', w) = (r, v)
  · obtain ⟨rfl, rfl⟩ : r' = r ∧ w = v := by simpa using same
    exact ⟨c, there⟩
  · rw [update_of_ne same] at mapped
    exact (tables.rooted r').below mapped

/-- A page that somebody holds or maps is a page of the allocator and not a page table. -/
theorem Accounts.in_use (accounts : Accounts layout s node books)
    (use : pa ∈ books.held ∨ 0 < books.users pa) : layout.Managed pa ∧ tables node pa = 0 := by
  rcases use with held | mapped
  · exact ⟨accounts.holder held, accounts.not_table_of_held held⟩
  · obtain ⟨⟨r, v⟩, named, leads⟩ := exists_of_owners_pos mapped
    obtain ⟨leaf, here, rfl⟩ := map_eq_some_iff.mp leads
    have user := (mem_userNames.mp named).2
    exact ⟨(accounts.mapped here).2 user, accounts.not_table_of_leaf here user⟩

theorem Accounts.used (accounts : Accounts layout s node books) (paid : books.debt = 0)
    (use : pa ∈ books.held ∨ 0 < books.users pa) : 0 < s.numpUsing (pa / pgsize) := by
  have count := accounts.count (accounts.in_use use).1
  rw [paid, Multiset.count_zero] at count
  rcases use with held | mapped
  · have some := Multiset.count_pos.mpr held
    omega
  · omega

end Tables

section Mappages

/-- `mappages` of one page. Where the page goes it is owed until its new user is counted. -/
theorem mappages_meets (tables : Tables layout s live node books) (paid : books.debt = 0)
    (root : r ∈ live) (aligned : va % pgsize = 0) (low : va < maxva) (leaf : Leaf)
    {perm : Nat} (flags : leaf.flags = perm ||| pteV)
    (use : va / pgsize < userPages → leaf.pa ∈ books.held ∨ 0 < books.users leaf.pa)
    (remap : books.leaf (r, va / pgsize) ≠ none → stops .mappagesRemap) :
    Meets (mappages r va pgsize leaf.pa perm) s (fun result u =>
      (result = -1 ∧ s.spare layout < 2 ∧ ∃ node', Starved layout r (va / pgsize) 2 s node node' ∧
        Tables layout u live node' books) ∨
      (result = 0 ∧ s.spare layout ≤ u.spare layout + 2 ∧ books.leaf (r, va / pgsize) = none ∧
        ∃ node', Supplied layout r (va / pgsize) 2 s u node node' ∧ Tables layout u live node'
          { books with
            leaf := update books.leaf (r, va / pgsize) (some leaf)
            debt := share (va / pgsize) (some leaf) })) stops := by
  have start : pgrounddown va = va := by
    rw [pgrounddown, aligned, Nat.sub_zero]
  have last : pgrounddown ((va + pgsize - 1) % 2 ^ 64) = va := by
    rw [maxva_eq] at low
    unfold pgrounddown
    unfold pgsize at aligned ⊢
    omega
  have single : (va + 2 ^ 64 - va) % 2 ^ 64 / pgsize = 0 := by
    rw [Nat.add_sub_cancel_left]
    rfl
  rw [mappages, if_neg (by decide)]
  simp only [start, last, single]
  rw [mapPages]
  refine (walk_allocates tables paid root low).bind fun a u ⟨node', grown, found⟩ => ?_
  rcases found with ⟨rfl, starved⟩ | ⟨supplied, c, there, rfl⟩
  · rw [if_pos rfl, meets_pure]
    exact .inl ⟨rfl, starved.few, node', starved, grown⟩
  · have page := (grown.shows.accounts.table there).1
    have real : c + 8 * (va / pgsize % 512) ≠ 0 := by
      have := page.ne_zero
      omega
    rw [if_neg real, meets_bind, meets_loadWord, grown.read there]
    cases before : books.leaf (r, va / pgsize) with
    | some old =>
      rw [elim_some, if_pos old.pte_valid, meets_throw]
      exact remap (by simp [before])
    | none =>
      rw [elim_none, if_neg (by simp), meets_bind, meets_storeWord, meets_pure]
      have entry : pa2pte leaf.pa ||| perm ||| pteV = leaf.pte := by
        rw [Leaf.pte, flags, Nat.lor_assoc]
      have stored := grown.setLeaf (x := some leaf) there ?_
      · rw [before] at stored
        simp only [share, elim_none, ite_self, zero_add, paid, add_zero] at stored
        rw [entry]
        exact .inr
          ⟨rfl, supplied.cost, rfl, node', ⟨supplied.grows, supplied.spare, supplied.shape⟩, stored⟩
      · intro leaf' same user
        cases same
        exact grown.shows.accounts.in_use (use user)

end Mappages

section Unmap

/-- Some pages of an address space are not mapped any more. -/
def Books.unmap (books : Books) (r v n : Nat) : Books :=
  { books with
    leaf := fun name => if name.1 = r ∧ v ≤ name.2 ∧ name.2 < v + n then none else books.leaf name }

theorem Books.unmap_zero (books : Books) (r v : Nat) : books.unmap r v 0 = books := by
  unfold unmap
  congr
  funext name
  exact if_neg (by omega)

theorem Books.unmap_succ (books : Books) (r v n : Nat) :
    unmap { books with leaf := update books.leaf (r, v) none } r (v + 1) n =
      books.unmap r v (n + 1) := by
  unfold unmap
  congr
  funext name
  obtain ⟨r', w⟩ := name
  dsimp only
  by_cases same : (r', w) = (r, v)
  · obtain ⟨rfl, rfl⟩ : r' = r ∧ w = v := by simpa using same
    rw [update_self, ite_self, if_pos ⟨rfl, by omega, by omega⟩]
  · rw [update_of_ne same]
    have apart : r' = r → w ≠ v := by
      rintro rfl rfl
      exact same rfl
    have range : (r' = r ∧ v + 1 ≤ w ∧ w < v + 1 + n) ↔ (r' = r ∧ v ≤ w ∧ w < v + (n + 1)) := by
      refine and_congr_right fun here => ?_
      have := apart here
      omega
    simp only [range]

def Books.Maps (books : Books) (r v n : Nat) : Prop :=
  ∀ w, v ≤ w → w < v + n → ∃ leaf, books.leaf (r, w) = some leaf

theorem slotOf_ne_zero (tables : Tables layout s live node books)
    (there : node (r, 2, v / 512) = some c) : c + 8 * (v % 512) ≠ 0 := by
  have := (tables.shows.accounts.table there).1.ne_zero
  omega

theorem Tables.find (tables : Tables layout s live node books) (root : r ∈ live)
    (low : va < maxva) :
    Meets (walk r va false) s (fun a u => u = s ∧
      (a = 0 ∧ books.leaf (r, va / pgsize) = none ∨
        a ≠ 0 ∧ ∃ c, node (r, 2, va / pgsize / 512) = some c ∧
        a = c + 8 * (va / pgsize % 512))) stops := by
  refine (walk_finds tables root low).mono (fun a u ⟨found, same⟩ => ⟨same, ?_⟩) fun _ => id
  cases table : node (r, 2, va / pgsize / 512) with
  | none =>
    rw [slotOf, table] at found
    exact .inl ⟨found, (tables.rooted r).unmapped table⟩
  | some c =>
    rw [slotOf, table, elim_some] at found
    rw [found]
    exact .inr ⟨slotOf_ne_zero tables table, c, rfl, rfl⟩

/-- The page is given back, if it is counted, and then its entry is cleared. -/
theorem unmap_one {β : Type} {rest : KM β} {post : β → Kmem → Prop}
    (tables : Tables layout s live node books) (paid : books.debt = 0)
    (there : node (r, 2, v / 512) = some c) (mapped : books.leaf (r, v) = some leaf)
    (counted : doFree = true ↔ v < userPages)
    (next : ∀ u, Tables layout u live node { books with leaf := update books.leaf (r, v) none } →
      Meets rest u post stops) :
    Meets
      (if doFree = true then do
        kfree leaf.pa
        storeWord (c + 8 * (v % 512)) 0
        rest
      else do
        storeWord (c + 8 * (v % 512)) 0
        rest) s post stops := by
  by_cases frees : doFree = true
  · have user := counted.mp frees
    have users := users_pos mapped (tables.shows.accounts.mapped mapped).1 user
    obtain ⟨page, plain⟩ := tables.shows.accounts.in_use (.inr users)
    rw [if_pos frees]
    refine (kfree_owed tables.shows page plain (tables.shows.accounts.used paid (.inr users))).bind
      fun _ u shows => ?_
    rw [meets_bind, meets_storeWord]
    have owed : Tables layout u live node { books with debt := leaf.pa ::ₘ books.debt } :=
      ⟨shows, tables.rooted, tables.live⟩
    obtain ⟨shown, rooted, live⟩ := owed.setLeaf (x := none) there fun _ absurd => by cases absurd
    refine next _ ⟨?_, rooted, live⟩
    exact shown.settle (show _ = leaf.pa ::ₘ books.held by simp [share, mapped, user])
      (show _ = leaf.pa ::ₘ books.debt by simp [share])
  · have special : ¬ v < userPages := fun user => frees (counted.mpr user)
    rw [if_neg frees, meets_bind, meets_storeWord]
    refine next _ ?_
    have stored := tables.setLeaf (x := none) there fun _ absurd => by cases absurd
    simpa [share, special] using stored

theorem unmapPages_meets (n : Nat) (tables : Tables layout s live node books)
    (paid : books.debt = 0) (root : r ∈ live) (high : (v + n) * pgsize ≤ maxva)
    (counted : ∀ w, v ≤ w → w < v + n → (doFree = true ↔ w < userPages))
    (panics : ∀ e, ¬ books.Maps r v n → stops e) :
    Meets (unmapPages r doFree (v * pgsize) n) s
      (fun _ u => books.Maps r v n ∧ Tables layout u live node (books.unmap r v n)) stops := by
  induction n generalizing s books v with
  | zero =>
    rw [unmapPages, meets_pure, unmap_zero]
    refine ⟨?_, tables⟩
    intro w low high
    omega
  | succ n ih =>
    have number : v * pgsize / pgsize = v := Nat.mul_div_cancel v (by decide)
    have low : v * pgsize < maxva := by
      unfold pgsize at high ⊢
      omega
    have unmapped (missing : books.leaf (r, v) = none) (e : Panic) : stops e := by
      refine panics e fun all => ?_
      obtain ⟨leaf, here⟩ := all v le_rfl (by omega)
      rw [missing] at here
      cases here
    rw [unmapPages]
    refine (tables.find root low).bind fun a u ⟨same, found⟩ => ?_
    subst same
    rw [number] at found
    rcases found with ⟨zero, missing⟩ | ⟨real, c, table, rfl⟩
    · rw [if_pos zero, meets_throw]
      exact unmapped missing _
    · rw [if_neg real, meets_bind, meets_loadWord, tables.read table]
      cases here : books.leaf (r, v) with
      | none =>
        rw [elim_none, if_pos (by simp), meets_throw]
        exact unmapped here _
      | some leaf =>
        rw [elim_some, if_neg leaf.pte_valid, leaf.pte_flags, if_neg leaf.flags_ne, leaf.pte_pa]
        refine unmap_one tables paid table here (counted v le_rfl (by omega))
          fun u unmappedOne => ?_
        rw [show v * pgsize + pgsize = (v + 1) * pgsize by ring]
        have others (w : Nat) (above : v + 1 ≤ w) :
            update books.leaf (r, v) none (r, w) = books.leaf (r, w) :=
          update_of_ne (by simp; omega) _ _
        refine (ih unmappedOne paid
          (by rw [show v + 1 + n = v + (n + 1) by omega]; exact high) ?_ ?_).mono
          ?_ fun _ => id
        · intro w above below
          exact counted w (by omega) (by omega)
        · intro e gap
          refine panics e fun all => gap fun w above below => ?_
          obtain ⟨leaf', there⟩ := all w (by omega) (by omega)
          exact ⟨leaf', (others w above).trans there⟩
        · rintro _ t ⟨rest, done⟩
          rw [unmap_succ] at done
          refine ⟨fun w above below => ?_, done⟩
          by_cases first : w = v
          · rw [first]
            exact ⟨leaf, here⟩
          · obtain ⟨leaf', there⟩ := rest w (by omega) (by omega)
            exact ⟨leaf', (others w (by omega)).symm.trans there⟩

end Unmap

section Ranges

theorem pagesBelow_range {n : Nat} (high : (v + n) * pgsize ≤ maxva) :
    pagesBelow (v * pgsize) ((v * pgsize + n * pgsize) % 2 ^ 64) = n := by
  rw [maxva_eq] at high
  unfold pagesBelow
  unfold pgsize at high ⊢
  omega

theorem uvmunmap_meets {n : Nat} (tables : Tables layout s live node books)
    (paid : books.debt = 0) (root : r ∈ live) (high : (v + n) * pgsize ≤ maxva)
    (counted : ∀ w, v ≤ w → w < v + n → (doFree = true ↔ w < userPages))
    (panics : ∀ e, ¬ books.Maps r v n → stops e) :
    Meets (uvmunmap r (v * pgsize) n doFree) s
      (fun _ u => books.Maps r v n ∧ Tables layout u live node (books.unmap r v n)) stops := by
  rw [uvmunmap, if_neg (by simp [pgsize]), pagesBelow_range high]
  exact unmapPages_meets n tables paid root high counted panics

end Ranges

section Flags

variable {flags k : Nat}

theorem ldiff_lt {n : Nat} (small : flags < 2 ^ n) (mask : Nat) : Nat.ldiff flags mask < 2 ^ n := by
  refine Nat.lt_pow_two_of_testBit _ fun i high => ?_
  rw [Nat.testBit_ldiff,
    Nat.testBit_lt_two_pow (small.trans_le (Nat.pow_le_pow_right (by omega) high))]
  rfl

def Leaf.clear (leaf : Leaf) : Leaf where
  pa := leaf.pa
  flags := Nat.ldiff leaf.flags pteU
  aligned := leaf.aligned
  physical := leaf.physical
  small := ldiff_lt leaf.small _
  valid := by
    rw [Nat.testBit_ldiff, leaf.valid]
    rfl
  readable := by
    rw [Nat.testBit_ldiff, leaf.readable]
    rfl

/-- A page that is shared by `uvmcopy`. -/
def Leaf.cow (leaf : Leaf) : Leaf where
  pa := leaf.pa
  flags := if leaf.flags &&& pteW ≠ 0 then Nat.ldiff leaf.flags pteW ||| pteCow else leaf.flags
  aligned := leaf.aligned
  physical := leaf.physical
  small := by
    split
    · exact Nat.or_lt_two_pow (ldiff_lt leaf.small _) (by decide)
    · exact leaf.small
  valid := by
    split
    · rw [Nat.testBit_or, Nat.testBit_ldiff, leaf.valid]
      rfl
    · exact leaf.valid
  readable := by
    split
    · rw [Nat.testBit_or, Nat.testBit_ldiff, leaf.readable]
      rfl
    · exact leaf.readable

/-- A page that gets its own copy by `removecopy`. -/
def Leaf.own (leaf : Leaf) (mem : Nat) (aligned : mem % pgsize = 0)
    (physical : mem < 2 ^ 56) : Leaf where
  pa := mem
  flags := Nat.ldiff leaf.flags pteCow ||| pteW
  aligned := aligned
  physical := physical
  small := Nat.or_lt_two_pow (ldiff_lt leaf.small _) (by decide)
  valid := by
    rw [Nat.testBit_or, Nat.testBit_ldiff, leaf.valid]
    rfl
  readable := by
    rw [Nat.testBit_or, Nat.testBit_ldiff, leaf.readable]
    rfl

theorem Leaf.clear_pte (leaf : Leaf) : Nat.ldiff leaf.pte pteU = leaf.clear.pte := by
  refine Nat.eq_of_testBit_eq fun k => ?_
  rw [Nat.testBit_ldiff, pte, pte, Nat.testBit_or, Nat.testBit_or, clear, Nat.testBit_ldiff]
  by_cases low : k < 10
  · have high : (pa2pte leaf.pa).testBit k = false := by
      rw [pa2pte, Nat.testBit_shiftLeft]
      simp [show ¬ 10 ≤ k by omega]
    simp [high]
  · have other : pteU.testBit k = false :=
      Nat.testBit_lt_two_pow
        (Nat.lt_of_lt_of_le (by decide) (Nat.pow_le_pow_right (by omega) (by omega : 10 ≤ k)))
    simp [other]

end Flags

section Rewrite

section

variable (tables : Tables layout s live node books)

include tables

theorem Tables.reflag (there : node (r, 2, v / 512) = some c)
    (mapped : books.leaf (r, v) = some leaf) (leaf' : Leaf) (same : leaf'.pa = leaf.pa) :
    Tables layout { s with mem := store s.mem (c + 8 * (v % 512)) 8 leaf'.pte } live node
      { books with leaf := update books.leaf (r, v) (some leaf') } := by
  have stored := tables.setLeaf (x := some leaf') there ?_
  · refine ⟨?_, stored.rooted, stored.live⟩
    by_cases user : v < userPages
    · exact stored.shows.settle (show _ = leaf.pa ::ₘ books.held by simp [share, mapped, user])
        (show _ = leaf.pa ::ₘ books.debt by simp [share, user, same])
    · simpa [share, user] using stored.shows
  · intro _ again user
    cases again
    rw [same]
    exact tables.shows.accounts.in_use
      (.inr (users_pos mapped (tables.shows.accounts.mapped mapped).1 user))

theorem uvmclear_meets (root : r ∈ live)
    (low : va < maxva) (missing : books.leaf (r, va / pgsize) = none → stops .uvmclear) :
    Meets (uvmclear r va) s (fun _ u => Tables layout u live node
      { books with
        leaf := update books.leaf (r, va / pgsize)
          ((books.leaf (r, va / pgsize)).map Leaf.clear) }) stops := by
  rw [uvmclear]
  refine (tables.find root low).bind fun a u ⟨same, found⟩ => ?_
  subst same
  rcases found with ⟨rfl, unmapped⟩ | ⟨real, c, there, rfl⟩
  · rw [if_pos rfl, meets_throw]
    exact missing unmapped
  · rw [if_neg real, meets_bind, meets_loadWord, meets_storeWord, tables.read there]
    cases here : books.leaf (r, va / pgsize) with
    | some leaf =>
      rw [elim_some, leaf.clear_pte]
      exact tables.reflag there here leaf.clear rfl
    | none =>
      have stored := tables.setLeaf (x := none) there fun _ absurd => by cases absurd
      have zero : Nat.ldiff 0 pteU = 0 := by simp [Nat.ldiff]
      simpa [here, share, zero] using stored

end

end Rewrite

section Removecopy

/-- The page of an address space is replaced by a private copy. -/
def Books.unshare (books : Books) (r v : Nat) (old new : Leaf) : Books :=
  { books with
    leaf := Function.update books.leaf (r, v) (some new)
    data := Function.update books.data new.pa (books.data old.pa) }

theorem Tables.hold {u : Kmem} {content : Nat → UInt8} (tables : Tables layout s live node books)
    (shows : Represents layout u node (books.hold pa content)) :
    Tables layout u live node (books.hold pa content) :=
  ⟨shows, tables.rooted, tables.live⟩

theorem unshare_meets {u : Kmem} {β : Type} {rest : KM β} {post : β → Kmem → Prop}
    (tables : Tables layout s live node books) (paid : books.debt = 0)
    (there : node (r, 2, v / 512) = some c) (mapped : books.leaf (r, v) = some leaf)
    (user : v < userPages) (new : Leaf) (unused : Unused layout node books new.pa)
    (shows : Represents layout u node (books.hold new.pa fun _ => 5))
    (next : ∀ t, Tables layout t live node (books.unshare r v leaf new) → Meets rest t post stops) :
    Meets
      (do
        memmove new.pa leaf.pa pgsize
        storeWord (c + 8 * (v % 512)) new.pte
        kfree leaf.pa
        rest) u post stops := by
  have users := users_pos mapped (tables.shows.accounts.mapped mapped).1 user
  have other : leaf.pa ≠ new.pa := by
    intro same
    rw [same] at users
    have none := unused.unmapped
    omega
  have page := (tables.shows.accounts.in_use (.inr users)).1
  have held : (books.hold new.pa fun _ => 5).held = new.pa ::ₘ books.held := rfl
  have users' : 0 < (books.hold new.pa fun _ => 5).users leaf.pa := users
  have content (o : Nat) (inside : o < pgsize) : u.mem (leaf.pa + o) = books.data leaf.pa o := by
    have known := shows.accounts.content page (shows.accounts.used paid (.inr users'))
      (shows.accounts.in_use (.inr users')).2 inside
    rw [known]
    simp [hold, other]
  rw [meets_bind, memmove, meets_modify, meets_bind, meets_storeWord]
  have copied :=
    shows.rewrite (m := copy u.mem new.pa pgsize fun i => u.mem (leaf.pa + i)) unused.page
    (shows.accounts.held_count paid (Multiset.mem_cons_self _ _)) unused.plain
    fun x outside => copy_other outside
  have moved :
      Represents layout { u with mem := copy u.mem new.pa pgsize fun i => u.mem (leaf.pa + i) } node
      { books with
        held := new.pa ::ₘ books.held
        data := update books.data new.pa (books.data leaf.pa) } := by
    refine copied.forget fun pa _ _ _ o inside => ?_
    by_cases here : pa = new.pa
    · subst here
      simp only [update_self]
      rw [copy_same (by omega) (by omega), Nat.add_sub_cancel_left]
      exact (content o inside).symm
    · simp [hold, here]
  have before : Tables layout _ live node _ := ⟨moved, tables.rooted, tables.live⟩
  have stored := before.setLeaf (x := some new) there ?_
  · obtain ⟨shown, rooted, live⟩ := stored
    have settled := shown.settle
      (show _ = new.pa ::ₘ leaf.pa ::ₘ books.held by simp [share, user, mapped, Multiset.cons_swap])
      (show _ = new.pa ::ₘ 0 by simp [share, user, paid])
    refine (kfree_held settled rfl rfl).bind fun _ t freed => ?_
    refine next t ⟨?_, rooted, live⟩
    simpa only [unshare, paid] using freed
  · intro _ again _
    cases again
    exact ⟨unused.page, unused.plain⟩

/-- The test for the page below the stack pointer never holds of a whole page. -/
theorem guard_dead {sz : Nat} (aligned : sz % pgsize = 0) (word : sz < 2 ^ 64) :
    ¬ (sz ≠ 0 ∧ pgrounddown va > (sz + 2 ^ 64 - pgsize) % 2 ^ 64 ∧ pgrounddown va < sz) := by
  unfold pgrounddown
  unfold pgsize at aligned ⊢
  omega

theorem pgrounddown_div (va : Nat) : pgrounddown va / pgsize = va / pgsize := by
  unfold pgrounddown pgsize
  omega

theorem removecopy_meets {sz : Nat} (tables : Tables layout s live node books)
    (paid : books.debt = 0) (root : r ∈ live)
    (user : ∀ leaf, books.leaf (r, va / pgsize) = some leaf → leaf.flags.testBit 8 = true →
      va / pgsize < userPages)
    (fault : va < maxva → node (r, 2, va / pgsize / 512) = none → stops .kernelFault)
    (full : ∀ leaf, books.leaf (r, va / pgsize) = some leaf → leaf.flags.testBit 8 = true →
      s.freelist = 0 →
      stops .removecopyKalloc) :
    Meets (removecopy r va sz) s (fun result u =>
      (result = 1 ∧ u = s ∧ (sz % pgsize = 0 → sz < 2 ^ 64 → va < maxva →
        node (r, 2, va / pgsize / 512) ≠ none ∧
        ∀ leaf, books.leaf (r, va / pgsize) = some leaf → leaf.flags.testBit 8 = false)) ∨
      (result = 0 ∧ va < maxva ∧ s.freelist ≠ 0 ∧ ∃ leaf mem, ∃ unused :
        Unused layout node books mem,
        books.leaf (r, va / pgsize) = some leaf ∧ leaf.flags.testBit 8 = true ∧
        Tables layout u live node
          (books.unshare r (va / pgsize) leaf
            (leaf.own mem unused.page.1 unused.page.physical)))) stops := by
  have below : pgrounddown va ≤ va := Nat.sub_le _ _
  rw [removecopy]
  dsimp only
  split
  · rename_i high
    rw [meets_pure]
    exact .inl ⟨rfl, rfl, fun _ _ low => by omega⟩
  · rename_i high
    split
    · rename_i guard
      rw [meets_pure]
      exact .inl ⟨rfl, rfl, fun aligned word _ => absurd guard (guard_dead aligned word)⟩
    · have low : va < maxva := by
        rw [maxva_eq] at high ⊢
        unfold pgrounddown pgsize at high
        omega
      refine (walk_finds tables root (by omega)).bind fun a u outcome => ?_
      obtain ⟨found, same⟩ := outcome
      subst same
      rw [pgrounddown_div] at found
      cases there : node (r, 2, va / pgsize / 512) with
      | none =>
        rw [slotOf, there, elim_none] at found
        rw [if_pos found, meets_throw]
        exact fault low there
      | some c =>
        rw [slotOf, there, elim_some] at found
        subst found
        rw [if_neg (slotOf_ne_zero tables there), meets_bind, meets_loadWord, tables.read there]
        cases here : books.leaf (r, va / pgsize) with
        | none =>
          rw [elim_none, if_pos (by simp), meets_pure]
          refine .inl ⟨rfl, rfl, fun _ _ _ => ⟨by simp, fun leaf absurd => ?_⟩⟩
          cases absurd
        | some leaf =>
          rw [elim_some]
          by_cases shared : leaf.flags.testBit 8 = true
          · have marked : leaf.pte &&& pteCow ≠ 0 := (leaf.pte_test (by omega)).mpr shared
            rw [if_neg (by simp [leaf.pte_valid, marked])]
            refine ((kalloc_meets tables.shows paid).and kalloc_first).bind
              fun mem t allocated => ?_
            obtain ⟨outcome, first⟩ := allocated
            rcases outcome with ⟨none, _⟩ | ⟨unused, shows⟩
            · rw [if_pos none, meets_throw]
              exact full leaf here shared (first.symm.trans none)
            · rw [if_neg unused.page.ne_zero, leaf.pte_pa, leaf.pte_flags]
              refine unshare_meets tables paid there here (user leaf here shared)
                (leaf.own mem unused.page.1 unused.page.physical) unused shows fun w done => ?_
              rw [meets_pure]
              exact .inr
                ⟨rfl, low, first ▸ unused.page.ne_zero, leaf, mem, unused, rfl, shared, done⟩
          · have plain : leaf.pte &&& pteCow = 0 := by
              by_contra marked
              exact shared ((leaf.pte_test (by omega)).mp marked)
            rw [if_pos (.inr plain), meets_pure]
            refine .inl ⟨rfl, rfl, fun _ _ _ => ⟨by simp, fun leaf' again => ?_⟩⟩
            cases again
            exact Bool.eq_false_of_not_eq_true shared

end Removecopy

section Walkaddr

def Leaf.addr (leaf : Leaf) : Nat :=
  if leaf.flags.testBit 4 = true then leaf.pa else 0

theorem walkaddr_meets (tables : Tables layout s live node books) (root : r ∈ live)
    (low : va < maxva) :
    Meets (walkaddr r va) s (fun a u => a = (books.leaf (r, va / pgsize)).elim 0 Leaf.addr ∧ u = s)
      stops := by
  rw [walkaddr, if_neg (by omega)]
  refine (tables.find root low).bind fun a u ⟨same, found⟩ => ?_
  subst same
  rcases found with ⟨rfl, unmapped⟩ | ⟨real, c, there, rfl⟩
  · rw [if_pos rfl, meets_pure, unmapped]
    exact ⟨rfl, rfl⟩
  · rw [if_neg real, meets_bind, meets_loadWord, tables.read there]
    cases here : books.leaf (r, va / pgsize) with
    | none =>
      rw [elim_none, if_pos (by simp), meets_pure]
      exact ⟨rfl, rfl⟩
    | some leaf =>
      rw [elim_some, if_neg leaf.pte_valid, elim_some, Leaf.addr]
      by_cases user : leaf.flags.testBit 4 = true
      · have marked : leaf.pte &&& pteU ≠ 0 := (leaf.pte_test (by omega)).mpr user
        rw [if_neg marked, meets_pure, if_pos user, leaf.pte_pa]
        exact ⟨rfl, rfl⟩
      · have hidden : leaf.pte &&& pteU = 0 := by
          by_contra marked
          exact user ((leaf.pte_test (by omega)).mp marked)
        rw [if_pos hidden, meets_pure, if_neg user]
        exact ⟨rfl, rfl⟩

end Walkaddr

section Frames

/-- The table page at a depth that some indices lead to. -/
def Kmem.tableAt (s : Kmem) (root : Nat) : Nat → Nat → Option Nat
  | 0, _ => some root
  | d + 1, p =>
    (s.tableAt root d (p / 512)).bind fun t =>
      let pte := load s.mem (t + 8 * (p % 512)) 8
      if pte &&& pteV ≠ 0 then some (pte2pa pte) else none

def Kmem.frameAt (s : Kmem) (root v : Nat) : Option Nat :=
  s.tableAt root 3 v

section

variable (tables : Tables layout s live node books)

include tables

theorem Tables.tableAt_eq (root : r ∈ live) (d : Nat)
    (depth : d < 3) {p : Nat} (inside : p < 512 ^ d) : s.tableAt r d p = node (r, d, p) := by
  induction d generalizing p with
  | zero =>
    obtain rfl : p = 0 := by simpa using inside
    exact ((tables.live r).mp root).symm
  | succ d ih =>
    have above : p / 512 < 512 ^ d := by
      rw [Nat.div_lt_iff_lt_mul (by omega), ← pow_succ]
      exact inside
    rw [Kmem.tableAt, ih (by omega) above]
    cases parent : node (r, d, p / 512) with
    | none =>
      cases there : node (r, d + 1, p) with
      | none => rfl
      | some t =>
        obtain ⟨t', above⟩ := (tables.rooted r).parent there
        rw [parent] at above
        cases above
    | some t =>
      have slot := tables.shows.slots.slot parent (Nat.mod_lt p (by omega : 512 > 0))
      rw [entry, if_neg (by omega), Nat.div_add_mod' p 512] at slot
      rw [bind_some, slot]
      cases there : node (r, d + 1, p) with
      | none => simp
      | some c =>
        have page := (tables.shows.accounts.table there).1
        rw [elim_some, if_pos (pointer_valid), pointer_page page]

/-- Who is known under a root is in a page table that is not freed. -/
theorem Tables.alive_of_node {d p t : Nat} (there : node (r, d, p) = some t) : r ∈ live := by
  obtain ⟨_, _, inside⟩ := tables.shows.accounts.named there
  rw [show d = 0 + d by omega] at there
  obtain ⟨t', top⟩ := (tables.rooted r).ancestor d there
  rw [Nat.div_eq_of_lt inside] at top
  obtain rfl := (tables.rooted r).root top
  exact (tables.live t').mpr top

/-- A page table that was built and freed again leaves no table pages. -/
theorem Tables.nodes_eq {u : Kmem} {node' : Nodes} {books' : Books}
    (tables' : Tables layout u live node' books')
    (dead : r ∉ live) (elsewhere : Nodes.Elsewhere r node node') : node' = node := by
  funext name
  by_cases here : name.1 = r
  · have before : node name = none := by
      by_contra there
      obtain ⟨t, there⟩ := ne_none_iff_exists'.mp there
      exact dead (here ▸ tables.alive_of_node there)
    have after : node' name = none := by
      by_contra there
      obtain ⟨t, there⟩ := ne_none_iff_exists'.mp there
      exact dead (here ▸ tables'.alive_of_node there)
    rw [before, after]
  · exact elsewhere name here

theorem Tables.frameAt_eq (root : r ∈ live)
    (inside : v < 512 ^ 3) : s.frameAt r v = (books.leaf (r, v)).map Leaf.pa := by
  have above : v / 512 < 512 ^ 2 := by
    omega
  rw [Kmem.frameAt, Kmem.tableAt, tables.tableAt_eq root 2 (by omega) above]
  cases table : node (r, 2, v / 512) with
  | none =>
    rw [(tables.rooted r).unmapped table]
    rfl
  | some t =>
    rw [bind_some, tables.read table]
    cases books.leaf (r, v) with
    | none => simp
    | some leaf =>
      rw [elim_some, if_pos leaf.pte_valid, leaf.pte_pa]
      rfl

end

end Frames

end EnhancedXv6.Memory
