import EnhancedXv6.Memory.Uvm

namespace EnhancedXv6.Memory

open Foundation Function Option Books

variable {layout : Layout} {s : Kmem} {node : Nodes} {books books' books'' : Books}
  {live : Finset Nat} {pa r v va off n : Nat} {leaf leaf' : Leaf} {src : Nat → UInt8}
  {stops : Panic → Prop} {len : Nat}

section Put

def Books.put (books : Books) (pa off n : Nat) (src : Nat → UInt8) : Books :=
  { books with
    data := Function.update books.data pa fun o =>
      if off ≤ o ∧ o < off + n then src (o - off) else books.data pa o }

theorem Tables.put (tables : Tables layout s live node books) (paid : books.debt = 0)
    (use : pa ∈ books.held ∨ 0 < books.users pa) (inside : off + n ≤ pgsize) :
    Tables layout { s with mem := copy s.mem (pa + off) n src } live node
      (books.put pa off n src) := by
  obtain ⟨page, plain⟩ := tables.shows.accounts.in_use use
  have used := tables.shows.accounts.used paid use
  have written := tables.shows.rewrite (m := copy s.mem (pa + off) n src) page used plain
    fun x outside => copy_other (by omega)
  refine ⟨written.forget fun pa' _ _ _ o below => ?_, tables.rooted, tables.live⟩
  by_cases here : pa' = pa
  · subst here
    simp only [update_self]
    have content := tables.shows.accounts.content page used plain below
    split
    · rw [copy_same (by omega) (by omega)]
      congr 1
      omega
    · rw [copy_other (by omega), content]
  · simp only [update_of_ne here]

end Put

theorem Tables.unmapped (tables : Tables layout s live node books) (unused : books.users pa = 0)
    (here : books.leaf (r, v) = some leaf) (user : v < userPages) : leaf.pa ≠ pa := by
  rintro rfl
  have positive := users_pos here (tables.shows.accounts.mapped here).1 user
  omega

section Reach

/-- The page behind an address, if a user may reach it. -/
def Books.reach (books : Books) (r va : Nat) : Option Leaf :=
  if va < maxva then (books.leaf (r, va / pgsize)).filter fun leaf => leaf.flags.testBit 4 else none

theorem Books.reach_some : books.reach r va = some leaf ↔
    va < maxva ∧ books.leaf (r, va / pgsize) = some leaf ∧ leaf.flags.testBit 4 = true := by
  unfold reach
  split
  · rename_i low
    rw [filter_eq_some_iff]
    simp [low]
  · simp_all

theorem pgrounddown_maxva : pgrounddown va < maxva ↔ va < maxva := by
  rw [maxva_eq]
  unfold pgrounddown pgsize
  omega

theorem walkaddr_reach (tables : Tables layout s live node books) (root : r ∈ live) :
    Meets (walkaddr r (pgrounddown va)) s
      (fun a u => a = (books.reach r va).elim 0 Leaf.pa ∧ u = s) stops := by
  by_cases low : va < maxva
  · refine (walkaddr_meets tables root (pgrounddown_maxva.mpr low)).mono
      (fun a u ⟨found, same⟩ => ?_)
      fun _ => id
    rw [pgrounddown_div] at found
    refine ⟨?_, same⟩
    rw [found, reach, if_pos low]
    cases books.leaf (r, va / pgsize) with
    | none => rfl
    | some leaf =>
      by_cases user : leaf.flags.testBit 4 = true <;> simp [Leaf.addr, Option.filter, user]
  · have high : pgrounddown va ≥ maxva := by
      rw [ge_iff_le, ← Nat.not_lt, pgrounddown_maxva]
      exact low
    rw [walkaddr, if_pos high, meets_pure, reach, if_neg low]
    exact ⟨rfl, rfl⟩

end Reach

section Copyout

/-- A private page is writable and not marked as shared; its other flags stay. -/
theorem testBit_own (flags k : Nat) : (Nat.ldiff flags pteCow ||| pteW).testBit k =
    (flags.testBit k && decide (k ≠ 8) || decide (k = 2)) := by
  rw [Nat.testBit_or, Nat.testBit_ldiff, pteCow, pteW, Nat.one_shiftLeft, Nat.one_shiftLeft,
    Nat.testBit_two_pow, Nat.testBit_two_pow]
  simp [eq_comm]

/-- A page is used as it is, or in a private copy if it is shared. -/
def Books.Private (books : Books) (r v : Nat) (leaf : Leaf) (books' : Books) (leaf' : Leaf) :
    Prop :=
  leaf.flags.testBit 8 = false ∧ leaf' = leaf ∧ books' = books ∨
    leaf.flags.testBit 8 = true ∧ leaf'.flags = Nat.ldiff leaf.flags pteCow ||| pteW ∧
      leaf'.pa ∉ books.held ∧
      (∀ r v x, books.leaf (r, v) = some x → v < userPages → x.pa ≠ leaf'.pa) ∧
      books' = books.unshare r v leaf leaf'

def chunk (va len : Nat) : Nat :=
  min (pgsize - va % pgsize) len

/-- The writes of `copyout`, page by page, with its result. -/
inductive Copies (r : Nat) : Books → Nat → (Nat → UInt8) → Nat → Int → Books → Prop
  | done (books : Books) (va : Nat) (src : Nat → UInt8) : Copies r books va src 0 0 books
  | refused (books : Books) (va : Nat) (src : Nat → UInt8) {len : Nat} (more : 0 < len)
      (hidden : books.reach r va = none) : Copies r books va src len (-1) books
  | round {books books' final : Books} {va len : Nat} {src : Nat → UInt8} {leaf leaf' : Leaf}
      {result : Int}
      (more : 0 < len) (seen : books.reach r va = some leaf)
      (own : books.Private r (va / pgsize) leaf books' leaf')
      (rest : Copies r (books'.put leaf'.pa (va % pgsize) (chunk va len) src)
        ((pgrounddown va + pgsize) % 2 ^ 64) (fun i => src (chunk va len + i)) (len - chunk va len)
        result final) : Copies r books va src len result final

def Books.Guarded (books : Books) (r : Nat) : Prop :=
  ∀ v leaf, books.leaf (r, v) = some leaf → userPages ≤ v →
    leaf.flags.testBit 4 = false ∧ leaf.flags.testBit 8 = false

theorem Books.Guarded.below (guarded : books.Guarded r) (seen : books.reach r va = some leaf) :
    va / pgsize < userPages := by
  obtain ⟨_, mapped, user⟩ := reach_some.mp seen
  by_contra high
  rw [(guarded _ _ mapped (by omega)).1] at user
  cases user

theorem Books.Guarded.update {x : Option Leaf} (guarded : books.Guarded r) (user : v < userPages)
    {data : Nat → Nat → UInt8} :
    Guarded { books with leaf := update books.leaf (r, v) x, data := data } r := by
  intro w leaf mapped high
  have other : (r, w) ≠ (r, v) := fun same => by
    cases same
    omega
  dsimp only at mapped
  rw [update_of_ne other] at mapped
  exact guarded w leaf mapped high

/-- Who uses a page of the new books used it before, or it is the private copy. -/
theorem Books.unshare_unused {x : Nat} (other : x ≠ leaf'.pa) (unmapped : books.users x = 0) :
    (books.unshare r v leaf leaf').users x = 0 := by
  by_contra positive
  obtain ⟨⟨r', w⟩, known, found⟩ := exists_of_owners_pos (Nat.pos_of_ne_zero positive)
  obtain ⟨y, mapped, rfl⟩ := map_eq_some_iff.mp found
  unfold unshare at mapped
  dsimp only at mapped
  by_cases here : (r', w) = (r, v)
  · rw [here, update_self] at mapped
    cases mapped
    exact other rfl
  · rw [update_of_ne here] at mapped
    have inside := mem_userNames.mp known
    exact (users_pos mapped inside.1 inside.2).ne' unmapped

theorem private_meets {β : Type} {rest : Nat → KM β} {post : β → Kmem → Prop}
    (tables : Tables layout s live node books) (paid : books.debt = 0) (root : r ∈ live)
    (guarded : books.Guarded r) (seen : books.reach r va = some leaf)
    (full : leaf.flags.testBit 8 = true → s.spare layout = 0 → stops .removecopyKalloc)
    (next : ∀ t books' leaf', books.Private r (va / pgsize) leaf books' leaf' →
      Tables layout t live node books' → books'.debt = 0 → 0 < books'.users leaf'.pa →
      books'.Guarded r →
      s.spare layout ≤ t.spare layout + 1 → Meets (rest leaf'.pa) t post stops) :
    Meets
      (if leaf.pte &&& pteCow ≠ 0 then do
        let _ ← removecopy r (pgrounddown va) 0
        let pa0 ← walkaddr r (pgrounddown va)
        rest pa0
      else do
        let pa0 ← pure leaf.pa
        rest pa0) s post stops := by
  obtain ⟨low, mapped, user⟩ := reach_some.mp seen
  have below := guarded.below seen
  have physical := (tables.shows.accounts.mapped mapped).1
  have test : leaf.pte &&& pteCow ≠ 0 ↔ leaf.flags.testBit 8 = true := leaf.pte_test (by omega)
  by_cases shared : leaf.flags.testBit 8 = true
  · rw [if_pos (test.mpr shared)]
    have page (x : Leaf) (_ : books.leaf (r, pgrounddown va / pgsize) = some x)
        (_ : x.flags.testBit 8 = true) : pgrounddown va / pgsize < userPages := by
      rw [pgrounddown_div]
      exact below
    refine (removecopy_meets tables paid root page ?_ ?_).bind fun result u outcome => ?_
    · intro _ missing
      obtain ⟨t, table⟩ := (tables.rooted r).below mapped
      rw [pgrounddown_div, table] at missing
      cases missing
    · exact fun _ _ _ empty => full shared (tables.shows.accounts.freelist_iff.mp empty)
    rw [pgrounddown_div] at outcome
    rcases outcome with ⟨_, _, unshared⟩ | ⟨_, _, _, old, mem, unused, here, _, after⟩
    · have := (unshared (by decide) (by decide) (pgrounddown_maxva.mpr low)).2 leaf mapped
      rw [this] at shared
      cases shared
    · cases mapped.symm.trans here
      set leaf' := leaf.own mem unused.page.1 unused.page.physical with copied
      have now : (books.unshare r (va / pgsize) leaf leaf').leaf (r, va / pgsize) = some leaf' :=
        update_self _ _ _
      have reached : (books.unshare r (va / pgsize) leaf leaf').reach r va = some leaf' := by
        refine reach_some.mpr ⟨low, now, ?_⟩
        rw [copied, Leaf.own, testBit_own, user]
        rfl
      refine (walkaddr_reach after root).bind fun a t ⟨found, same⟩ => ?_
      subst same
      rw [reached, elim_some] at found
      rw [found]
      refine next t _ leaf' (.inr ⟨shared, rfl, unused.unheld, ?_, rfl⟩) after paid ?_ ?_ ?_
      · intro r v x here user
        exact tables.unmapped unused.unmapped here user
      · exact users_pos now physical below
      · exact guarded.update below
      · refine tables.shows.accounts.spare_le paid after.shows.accounts paid mem
          fun x other unmapped unheld => ?_
        exact ⟨unshare_unused other unmapped, unheld⟩
  · rw [if_neg fun marked => shared (test.mp marked), meets_bind, meets_pure]
    exact next s books leaf (.inl ⟨Bool.eq_false_of_not_eq_true shared, rfl, rfl⟩) tables paid
      (users_pos mapped physical below) guarded (Nat.le_succ _)

theorem chunk_inside (va len : Nat) : va % pgsize + chunk va len ≤ pgsize := by
  have := Nat.mod_lt va (by decide : pgsize > 0)
  unfold chunk
  omega

theorem chunk_pos (more : 0 < len) : 0 < chunk va len := by
  have := Nat.mod_lt va (by decide : pgsize > 0)
  unfold chunk
  omega

theorem chunk_rest (more : len ≠ 0) (enough : len ≤ fuel + 1) : len - chunk va len ≤ fuel := by
  have : 0 < chunk va len := chunk_pos (Nat.pos_of_ne_zero more)
  omega

theorem page_offset (va : Nat) : va - pgrounddown va = va % pgsize := by
  unfold pgrounddown pgsize
  omega

/-- The page that `walkaddr` finds for the user, if there is one. -/
theorem walkaddr_page (tables : Tables layout s live node books) (root : r ∈ live)
    (guarded : books.Guarded r) :
    Meets (walkaddr r (pgrounddown va)) s (fun a u => u = s ∧
      (books.reach r va = none ∧ a = 0 ∨
        ∃ leaf, books.reach r va = some leaf ∧ va < maxva ∧ a = leaf.pa ∧ a ≠ 0)) stops := by
  refine (walkaddr_reach tables root).mono (fun a u ⟨found, same⟩ => ⟨same, ?_⟩) fun _ => id
  cases seen : books.reach r va with
  | none =>
    rw [seen, elim_none] at found
    exact .inl ⟨rfl, found⟩
  | some leaf =>
    obtain ⟨low, mapped, _⟩ := reach_some.mp seen
    have real := ((tables.shows.accounts.mapped mapped).2 (guarded.below seen)).ne_zero
    rw [seen, elim_some] at found
    subst found
    exact .inr ⟨leaf, rfl, low, rfl, real⟩

/-- `copyout` finds the entry of a page that the user reaches. -/
theorem walk_reached (tables : Tables layout s live node books) (root : r ∈ live)
    (seen : books.reach r va = some leaf) :
    Meets (walk r (pgrounddown va) false) s
      (fun a u => u = s ∧ load s.mem a 8 = leaf.pte) stops := by
  obtain ⟨low, mapped, _⟩ := reach_some.mp seen
  refine (tables.find root (pgrounddown_maxva.mpr low)).mono (fun a u ⟨same, slot⟩ => ⟨same, ?_⟩)
    fun _ => id
  rw [pgrounddown_div] at slot
  rcases slot with ⟨_, unmapped⟩ | ⟨_, c, there, rfl⟩
  · cases unmapped.symm.trans mapped
  · rw [tables.read there, mapped, elim_some]

def touched (va len : Nat) : Nat :=
  (va % pgsize + len + pgsize - 1) / pgsize

theorem touched_next (va : Nat) (more : 0 < len) :
    touched va len = touched ((pgrounddown va + pgsize) % 2 ^ 64) (len - chunk va len) + 1 := by
  unfold touched chunk pgrounddown pgsize
  omega

/-- Some page of the address space is to be copied before it is written. -/
def Books.Shares (books : Books) (r : Nat) : Prop :=
  ∃ v leaf, books.leaf (r, v) = some leaf ∧ leaf.flags.testBit 8 = true

theorem copyoutBytes_meets (fuel : Nat) (tables : Tables layout s live node books)
    (paid : books.debt = 0) (root : r ∈ live) (guarded : books.Guarded r)
    (full : books.Shares r → s.spare layout < touched va len → stops .removecopyKalloc)
    (enough : len ≤ fuel) :
    Meets (copyoutBytes r fuel va src len) s (fun result u => ∃ books',
      Tables layout u live node books' ∧ Copies r books va src len result books') stops := by
  induction fuel generalizing books s va src len with
  | zero =>
    obtain rfl : len = 0 := by omega
    rw [copyoutBytes, meets_pure]
    exact ⟨books, tables, .done _ _ _⟩
  | succ fuel ih =>
    rw [copyoutBytes]
    split
    · rename_i none
      subst none
      rw [meets_pure]
      exact ⟨books, tables, .done _ _ _⟩
    · rename_i more
      have positive : 0 < len := by omega
      refine (walkaddr_page tables root guarded).bind fun a u ⟨same, found⟩ => ?_
      subst same
      rcases found with ⟨hidden, zero⟩ | ⟨leaf, seen, low, rfl, real⟩
      · rw [if_pos zero, meets_pure]
        exact ⟨books, tables, .refused _ _ _ positive hidden⟩
      · have mapped := (reach_some.mp seen).2.1
        rw [if_neg real, page_offset]
        refine (walk_reached tables root seen).bind fun a u ⟨same, read⟩ => ?_
        subst same
        rw [meets_bind, meets_loadWord, read]
        have rounds := touched_next va positive
        refine private_meets tables paid root guarded seen
          (fun shared empty => full ⟨_, leaf, mapped, shared⟩ (by omega))
          fun t books' leaf' own tables' paid' use guarded' spare => ?_
        rw [meets_bind, meets_modify]
        have full' : (books'.put leaf'.pa (va % pgsize) (chunk va len) src).Shares r →
            t.spare layout < touched ((pgrounddown va + pgsize) % 2 ^ 64) (len - chunk va len) →
            stops .removecopyKalloc := by
          intro shares few
          rcases own with ⟨_, _, rfl⟩ | ⟨shared, _⟩
          · exact full shares (by omega)
          · exact full ⟨_, leaf, mapped, shared⟩ (by omega)
        refine (ih (tables'.put paid' (.inr use) (chunk_inside va len)) paid' guarded' full'
          (chunk_rest more enough)).mono (fun result u ⟨final, shown, rest⟩ => ?_) fun _ => id
        exact ⟨final, shown, .round positive seen own rest⟩

/-- Bytes for one page that is not marked as shared go to that page. -/
theorem copyout_plain (tables : Tables layout s live node books) (paid : books.debt = 0)
    (root : r ∈ live) (guarded : books.Guarded r) (seen : books.reach r va = some leaf)
    (plain : leaf.flags.testBit 8 = false) (more : 0 < len) (fits : va % pgsize + len ≤ pgsize) :
    Meets (copyout r va src len) s (fun result u => result = 0 ∧
      Tables layout u live node (books.put leaf.pa (va % pgsize) len src)) stops := by
  obtain ⟨low, mapped, _⟩ := reach_some.mp seen
  have below := guarded.below seen
  have physical := (tables.shows.accounts.mapped mapped).1
  have all : min (pgsize - va % pgsize) len = len := by omega
  have test : leaf.pte &&& pteCow ≠ 0 ↔ leaf.flags.testBit 8 = true := leaf.pte_test (by omega)
  obtain ⟨fuel, rfl⟩ : ∃ fuel, len = fuel + 1 := ⟨len - 1, by omega⟩
  rw [copyout, copyoutBytes, if_neg (by omega)]
  refine (walkaddr_page tables root guarded).bind fun a u ⟨same, found⟩ => ?_
  subst same
  obtain ⟨hidden, _⟩ | ⟨_, here, _, rfl, real⟩ := found
  · cases hidden.symm.trans seen
  cases here.symm.trans seen
  rw [if_neg real, page_offset]
  refine (walk_reached tables root seen).bind fun a u ⟨same, read⟩ => ?_
  subst same
  rw [meets_bind, meets_loadWord, read,
    if_neg fun marked => by rw [test.mp marked] at plain; cases plain]
  dsimp only
  rw [meets_bind, meets_pure, meets_bind, meets_modify, all, Nat.sub_self]
  have last : copyoutBytes r fuel ((pgrounddown va + pgsize) % 2 ^ 64)
      (fun i => src (fuel + 1 + i)) 0 = pure 0 := by
    cases fuel <;> rfl
  rw [last, meets_pure]
  exact ⟨rfl, tables.put paid (.inr (users_pos mapped physical below)) fits⟩

theorem copyout_meets (tables : Tables layout s live node books) (paid : books.debt = 0)
    (root : r ∈ live) (guarded : books.Guarded r)
    (full : books.Shares r → s.spare layout < touched va len → stops .removecopyKalloc) :
    Meets (copyout r va src len) s (fun result u => ∃ books',
      Tables layout u live node books' ∧ Copies r books va src len result books') stops :=
  copyoutBytes_meets len tables paid root guarded full le_rfl

end Copyout

end EnhancedXv6.Memory
