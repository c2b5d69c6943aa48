import EnhancedXv6.Memory.Space

namespace EnhancedXv6.Memory

open Foundation Function Option Finset Multiset Books

variable {layout : Layout} {s u : Kmem} {node : Nodes} {books books' : Books} {live : Finset Nat}
  {pa r r' v sz newsz : Nat} {leaf : Leaf} {stops : Panic → Prop}

section Good

/-- Only pages below `TRAPFRAME` are for users or shared, no page is twice in an address space, a
page that can be written is in one address space, and the pages of the kernel are in none. -/
structure Books.Good (books : Books) : Prop where
  guarded : ∀ r, books.Guarded r
  apart : ∀ {r v v' leaf leaf'}, v < userPages → v' < userPages → books.leaf (r, v) = some leaf →
    books.leaf (r, v') = some leaf' → leaf.pa = leaf'.pa → v = v'
  owned : ∀ {r r' v v' leaf leaf'}, v < userPages → v' < userPages → books.leaf (r, v) = some leaf →
    books.leaf (r', v') = some leaf' → leaf.flags.testBit 2 = true → leaf.pa = leaf'.pa → r = r'
  kernel : ∀ {r v leaf}, books.leaf (r, v) = some leaf → v < userPages → leaf.pa ∉ books.held

theorem Books.Good.derive (good : books.Good) (origin : Nat → Nat)
    (low : ∀ {r v leaf'}, books'.leaf (r, v) = some leaf' → v < userPages →
      ∃ leaf, books.leaf (origin r, v) = some leaf ∧ leaf.pa = leaf'.pa)
    (high : ∀ r, books'.Guarded r)
    (held : ∀ pa ∈ books'.held, pa ∈ books.held ∨
      ∀ r v leaf, books.leaf (r, v) = some leaf → v < userPages → leaf.pa ≠ pa)
    (writable : ∀ {r v leaf leaf'}, books'.leaf (r, v) = some leaf' → v < userPages →
      leaf'.flags.testBit 2 = true → books.leaf (origin r, v) = some leaf →
        leaf.flags.testBit 2 = true ∧
        ∀ r' x, books'.leaf (r', v) = some x → origin r' = origin r → r = r') : books'.Good where
  guarded := high
  apart := by
    intro r v v' x x' user user' mapped mapped' same
    obtain ⟨y, here, leads⟩ := low mapped user
    obtain ⟨y', here', leads'⟩ := low mapped' user'
    exact good.apart user user' here here' (by rw [leads, leads', same])
  owned := by
    intro r r' v v' x x' user user' mapped mapped' writes same
    obtain ⟨y, here, leads⟩ := low mapped user
    obtain ⟨y', here', leads'⟩ := low mapped' user'
    obtain ⟨before, only⟩ := writable mapped user writes here
    have one : origin r = origin r' :=
      good.owned user user' here here' before (by rw [leads, leads', same])
    rw [← one] at here'
    obtain rfl : v = v' := good.apart user user' here here' (by rw [leads, leads', same])
    exact only r' x' mapped' one.symm
  kernel := by
    intro r v x mapped user member
    obtain ⟨y, here, leads⟩ := low mapped user
    rcases held _ member with old | free
    · exact good.kernel here user (leads ▸ old)
    · exact free _ _ y here user leads

/-- The names that are new are those of users, and each of them has a page for itself. -/
theorem Books.Good.extend (good : books.Good) (new : Nat × Nat → Prop)
    (user : ∀ {r v}, new (r, v) → v < userPages)
    (others : ∀ name, ¬ new name → books'.leaf name = books.leaf name)
    (alone : ∀ {r v leaf r' v' leaf'}, new (r, v) → v' < userPages →
      books'.leaf (r, v) = some leaf →
      books'.leaf (r', v') = some leaf' → leaf.pa = leaf'.pa → (r, v) = (r', v'))
    (unheld : ∀ {r v leaf}, new (r, v) → books'.leaf (r, v) = some leaf → leaf.pa ∉ books'.held)
    (held : ∀ pa ∈ books'.held, pa ∈ books.held) : books'.Good := by
  have either {r v leaf r' v' leaf'} (below : v < userPages) (below' : v' < userPages)
      (mapped : books'.leaf (r, v) = some leaf) (mapped' : books'.leaf (r', v') = some leaf')
      (same : leaf.pa = leaf'.pa) :
      (r, v) = (r', v') ∨ books.leaf (r, v) = some leaf ∧ books.leaf (r', v') = some leaf' := by
    by_cases first : new (r, v)
    · exact .inl (alone first below' mapped mapped' same)
    by_cases second : new (r', v')
    · exact .inl (alone second below mapped' mapped same.symm).symm
    · exact .inr ⟨others _ first ▸ mapped, others _ second ▸ mapped'⟩
  refine ⟨fun r v x mapped high => ?_, fun below below' mapped mapped' same => ?_,
    fun below below' mapped mapped' writes same => ?_, fun {r v leaf} mapped below member => ?_⟩
  · rw [others (r, v) fun inside => by have := user inside; omega] at mapped
    exact good.guarded r v x mapped high
  · rcases either below below' mapped mapped' same with one | ⟨before, before'⟩
    · exact congrArg Prod.snd one
    · exact good.apart below below' before before' same
  · rcases either below below' mapped mapped' same with one | ⟨before, before'⟩
    · exact congrArg Prod.fst one
    · exact good.owned below below' before before' writes same
  · by_cases inside : new (r, v)
    · exact unheld inside mapped member
    · exact good.kernel (others _ inside ▸ mapped) below (held _ member)

/-- The pages that are mapped are the old ones, with no more rights. -/
theorem Books.Good.within (good : books.Good)
    (kept : ∀ {r v leaf'}, books'.leaf (r, v) = some leaf' → ∃ leaf, books.leaf (r, v) = some leaf ∧
      leaf.pa = leaf'.pa ∧ (userPages ≤ v →
        (leaf'.flags.testBit 4 = true → leaf.flags.testBit 4 = true) ∧
        (leaf'.flags.testBit 8 = true → leaf.flags.testBit 8 = true)) ∧
      (leaf'.flags.testBit 2 = true → leaf.flags.testBit 2 = true))
    (held : ∀ pa ∈ books'.held, pa ∈ books.held) : books'.Good := by
  refine good.derive id (fun mapped _ => ?_) (fun r v x mapped high => ?_)
    (fun pa member => .inl (held pa member))
    fun mapped _ writes there => ?_
  · obtain ⟨y, here, leads, _⟩ := kept mapped
    exact ⟨y, here, leads⟩
  · obtain ⟨y, here, _, rights, _⟩ := kept mapped
    have bits := good.guarded r v y here high
    have rights := rights high
    rw [bits.1, bits.2] at rights
    simpa using rights
  · obtain ⟨y, here, _, _, before⟩ := kept mapped
    cases here.symm.trans there
    exact ⟨before writes, fun _ _ _ same => same.symm⟩

end Good

section Sound

structure Sound (layout : Layout) (s : Kmem) (live : Finset Nat) (node : Nodes)
    (books : Books) : Prop where
  tables : Tables layout s live node books
  paid : books.debt = 0
  good : books.Good

theorem Sound.byte {o : Nat} (sound : Sound layout s live node books)
    (use : pa ∈ books.held ∨ 0 < books.users pa)
    (inside : o < pgsize) : s.mem (pa + o) = books.data pa o := by
  obtain ⟨page, plain⟩ := sound.tables.shows.accounts.in_use use
  exact sound.tables.shows.accounts.content page
    (sound.tables.shows.accounts.used sound.paid use) plain inside

def Books.Fits (books : Books) (r sz : Nat) : Prop :=
  sz ≤ trapframe ∧ books.Spans r (pageCount sz)

theorem Books.Fits.congr (fits : books.Fits r sz)
    (same : ∀ v, (∃ leaf, books'.leaf (r', v) = some leaf) ↔
      ∃ leaf, books.leaf (r, v) = some leaf) :
    books'.Fits r' sz :=
  ⟨fits.1, fun v => (same v).trans (fits.2 v)⟩

theorem Sound.small (sound : Sound layout s live node books) (fits : books.Fits r sz) :
    pageCount sz ≤ 32768 := by
  have few := pageCount_le fits.1
  have maps (w : Nat) (_ : 0 ≤ w) (below : w < pageCount sz) :
      ∃ leaf, books.leaf (r, w) = some leaf ∧ layout.Managed leaf.pa := by
    obtain ⟨leaf, here⟩ := (fits.2 w).mpr (.inl below)
    exact ⟨leaf, here, (sound.tables.shows.accounts.mapped here).2 (by omega)⟩
  exact pages_bound maps fun w w' x x' _ below _ below' => sound.good.apart (by omega) (by omega)

theorem Sound.room (sound : Sound layout s live node books) (fits : books.Fits r sz) :
    pageCount sz + 32768 < userPages := by
  have few := sound.small fits
  rw [userPages_eq]
  omega

end Sound

section Allocation

theorem kalloc_sound (sound : Sound layout s live node books) :
    Meets kalloc s (fun pa u => pa = 0 ∧ u = s ∨
      Unused layout node books pa ∧ Sound layout u live node (books.hold pa fun _ => 5)) stops := by
  refine (kalloc_meets sound.tables.shows sound.paid).mono (fun pa u outcome => ?_) fun _ => id
  rcases outcome with none | ⟨unused, shows⟩
  · exact .inl none
  · refine .inr ⟨unused, sound.tables.hold shows, sound.paid, ?_⟩
    refine sound.good.derive id (fun mapped _ => ⟨_, mapped, rfl⟩) sound.good.guarded
      (fun x member => ?_)
      fun mapped _ writes there => ?_
    · rcases mem_cons.mp member with rfl | old
      · exact .inr fun r v leaf here user => sound.tables.unmapped unused.unmapped here user
      · exact .inl old
    · cases there.symm.trans mapped
      exact ⟨writes, fun _ _ _ same => same.symm⟩

theorem kfree_sound {held : Multiset Nat} (sound : Sound layout s live node books)
    (has : books.held = pa ::ₘ held) :
    Meets (kfree pa) s (fun _ u => Sound layout u live node { books with held := held }) stops := by
  refine (kfree_held sound.tables.shows sound.paid has).mono (fun _ u shows => ?_) fun _ => id
  refine ⟨⟨shows, sound.tables.rooted, sound.tables.live⟩, sound.paid, ?_⟩
  refine sound.good.within (fun mapped => ⟨_, mapped, rfl, fun _ => ⟨id, id⟩, id⟩)
    fun x member => ?_
  rw [has]
  exact mem_cons_of_mem member

theorem kfree_taken {content : Nat → UInt8}
    (sound : Sound layout s live node (books.hold pa content))
    (unheld : pa ∉ books.held) (unmapped : books.users pa = 0) :
    Meets (kfree pa) s (fun _ u => Sound layout u live node books) stops := by
  have accounts := sound.tables.shows.accounts
  have held : pa ∈ (books.hold pa content).held := mem_cons_self pa _
  refine (kfree_sound sound rfl).mono (fun _ u after => ?_) fun _ => id
  have shows := after.tables.shows.drop sound.paid (accounts.holder held) unheld unmapped
    (accounts.not_table_of_held held)
  exact ⟨⟨shows, after.tables.rooted, after.tables.live⟩, sound.paid,
    after.good.within (fun mapped => ⟨_, mapped, rfl, fun _ => ⟨id, id⟩, id⟩) fun _ => id⟩

theorem procPagetable_sound (sound : Sound layout s live node books) (held : pa ∈ books.held) :
    Meets (procPagetable layout pa) s (fun pt u =>
      (pt = 0 ∧ s.spare layout < 5 ∧ Sound layout u live node books) ∨
      (s.spare layout ≤ u.spare layout + 5 ∧ pt ≠ 0 ∧ pt ∉ live ∧ (∀ v, books.leaf (pt, v) = none) ∧
        ∃ node' leaf, leaf.pa = pa ∧ Nodes.Elsewhere pt node node' ∧
          Sound layout u (insert pt live) node'
            (books.launch pt layout.trampolineLeaf leaf))) stops := by
  have page := sound.tables.shows.accounts.holder held
  refine (procPagetable_meets sound.tables sound.paid page).mono
    (fun pt u outcome => ?_) fun _ => id
  rcases outcome with ⟨none, short, after⟩ | ⟨spare, unused, empty, node', elsewhere, after⟩
  · exact .inl ⟨none, short, after, sound.paid, sound.good⟩
  · refine .inr ⟨spare, unused.page.ne_zero, sound.tables.not_live unused.plain, empty, node', _,
      rfl, elsewhere, after, sound.paid, ?_⟩
    have special (r v : Nat) (x : Leaf) (mapped : (books.launch pt layout.trampolineLeaf
        (trapframeLeaf pa page.1 page.physical)).leaf (r, v) = some x) :
        books.leaf (r, v) = some x ∨ userPages ≤ v ∧ x.flags.testBit 4 = false ∧
        x.flags.testBit 8 = false := by
      simp only [launch] at mapped
      by_cases isTrapframe : (r, v) = (pt, userPages)
      · rw [isTrapframe, update_self] at mapped
        cases mapped
        cases isTrapframe
        exact .inr ⟨le_rfl, (by decide : (pteR ||| pteW ||| pteV).testBit 4 = false),
          (by decide : (pteR ||| pteW ||| pteV).testBit 8 = false)⟩
      · rw [update_of_ne isTrapframe] at mapped
        by_cases isTrampoline : (r, v) = (pt, userPages + 1)
        · rw [isTrampoline, update_self] at mapped
          cases mapped
          cases isTrampoline
          exact .inr ⟨by omega, (by decide : (pteR ||| pteX ||| pteV).testBit 4 = false),
            (by decide : (pteR ||| pteX ||| pteV).testBit 8 = false)⟩
        · rw [update_of_ne isTrampoline] at mapped
          exact .inl mapped
    refine sound.good.derive id (fun mapped user => ?_) (fun r v x mapped high => ?_)
      (fun _ => .inl)
      fun mapped user writes there => ?_
    · rcases special _ _ _ mapped with old | ⟨high, _⟩
      · exact ⟨_, old, rfl⟩
      · omega
    · rcases special _ _ _ mapped with old | ⟨_, bits⟩
      · exact sound.good.guarded r v x old high
      · exact bits
    · rcases special _ _ _ mapped with old | ⟨high, _⟩
      · cases there.symm.trans old
        exact ⟨writes, fun _ _ _ same => same.symm⟩
      · omega

theorem Books.launch_spans (empty : ∀ v, books.leaf (r, v) = none) (first second : Leaf) :
    (books.launch r first second).Spans r 0 := by
  intro v
  unfold launch
  dsimp only
  by_cases isTrapframe : v = userPages
  · subst isTrapframe
    simp
  · by_cases isTrampoline : v = userPages + 1
    · subst isTrampoline
      simp
    · simp [isTrapframe, isTrampoline, empty]

/-- What a new process has: an empty address space and a trapframe. -/
structure Launched (layout : Layout) (books books' : Books) (np : Proc) : Prop where
  empty : ∀ v, books.leaf (np.pagetable, v) = none
  unheld : np.trapframe ∉ books.held
  unmapped : books.users np.trapframe = 0
  size : np.sz = 0
  held : books'.held = np.trapframe ::ₘ books.held
  others : ∀ name, name.1 ≠ np.pagetable → books'.leaf name = books.leaf name
  spans : books'.Spans np.pagetable 0
  data : ∀ pa, pa ≠ np.trapframe → books'.data pa = books.data pa

section

variable (sound : Sound layout s live node books)

include sound

theorem allocproc_sound : Meets (allocproc layout) s (fun result u =>
      (result = none ∧ s.spare layout < 6 ∧ Sound layout u live node books) ∨
      ∃ np, result = some np ∧ s.spare layout ≤ u.spare layout + 6 ∧ 0 < s.spare layout ∧
        np.pagetable ∉ live ∧
        ∃ node' books', Nodes.Elsewhere np.pagetable node node' ∧ Launched layout books books' np ∧
          Sound layout u (insert np.pagetable live) node' books') stops := by
  rw [allocproc]
  refine (((kalloc_sound sound).and (kalloc_spare sound.tables.shows)).and
    (kalloc_takes sound.tables.shows)).bind
    fun page u ⟨⟨outcome, short, spare⟩, takes⟩ => ?_
  rcases outcome with ⟨none, rfl⟩ | ⟨unused, taken⟩
  · have few := short none
    have nothing : freeproc ⟨0, 0, 0⟩ = pure () := rfl
    rw [if_pos none, nothing, pure_bind, meets_pure]
    exact .inl ⟨rfl, by omega, sound⟩
  · rw [if_neg unused.page.ne_zero]
    have held : page ∈ (books.hold page fun _ => 5).held := mem_cons_self page _
    refine (procPagetable_sound taken held).bind fun pt u outcome => ?_
    have some := takes unused.page.ne_zero
    rcases outcome with
      ⟨none, few, after⟩ | ⟨spare', real, new, empty, node', leaf, _, elsewhere, after⟩
    · have freed :
          Meets (freeproc ⟨0, 0, page⟩) u (fun _ u => Sound layout u live node books) stops := by
        rw [freeproc, if_pos unused.page.ne_zero]
        refine (kfree_taken after unused.unheld unused.unmapped).bind fun _ w done => ?_
        simp only [ne_eq, not_true_eq_false, if_false, meets_pure]
        exact done
      rw [if_pos none]
      refine freed.bind fun _ w done => ?_
      rw [meets_pure]
      exact .inl ⟨rfl, by omega, done⟩
    · rw [if_neg real, meets_pure]
      refine .inr ⟨_, rfl, by omega, by omega, new, node', _, elsewhere,
        ⟨empty, unused.unheld, unused.unmapped, rfl, rfl, ?_, ?_, ?_⟩, after⟩
      · intro name other
        have (k : Nat) : name ≠ (pt, k) := fun same => other (by rw [same])
        simp only [launch, update_of_ne (this _)]
        rfl
      · exact launch_spans empty _ _
      · intro pa other
        exact update_of_ne other _ _

theorem procFreepagetable_sound (root : r ∈ live) (fits : books.Fits r sz) :
    Meets (procFreepagetable r sz) s (fun _ u => ∃ node', Nodes.Elsewhere r node node' ∧
      Sound layout u (live.erase r) node' (books.discard r)) stops := by
  refine (procFreepagetable_meets sound.tables sound.paid root (pageCount_le fits.1)
    fun _ wrong => absurd fits.2 wrong).mono
      (fun _ u ⟨_, node', elsewhere, after⟩ => ?_) fun _ => id
  refine ⟨node', elsewhere, after, sound.paid, sound.good.within (fun mapped => ?_) fun _ => id⟩
  unfold Books.discard at mapped
  dsimp only at mapped
  split at mapped
  · cases mapped
  · exact ⟨_, mapped, rfl, fun _ => ⟨id, id⟩, id⟩

theorem freeproc_sound {p : Proc} {held : Multiset Nat} (root : p.pagetable ∈ live)
    (has : books.held = p.trapframe ::ₘ held) (fits : books.Fits p.pagetable p.sz) :
    Meets (freeproc p) s (fun _ u => ∃ node', Nodes.Elsewhere p.pagetable node node' ∧
      Sound layout u (live.erase p.pagetable) node'
        ({ books with held := held }.discard p.pagetable)) stops := by
  have accounts := sound.tables.shows.accounts
  have member : p.trapframe ∈ books.held := by
    rw [has]
    exact mem_cons_self _ _
  have real := (accounts.holder member).ne_zero
  have real' := (accounts.table ((sound.tables.live _).mp root)).1.ne_zero
  rw [freeproc, if_pos real]
  refine (kfree_sound sound has).bind fun _ u freed => ?_
  rw [if_pos real']
  exact procFreepagetable_sound freed root fits

end

end Allocation

section Growth

variable {v₀ flags : Nat}

theorem Grown.good (grown : Grown layout books books' r v₀ v flags) (user : v ≤ userPages)
    (tables : Tables layout s live node books) (good : books.Good) (root : r < phystop) :
    books'.Good := by
  refine good.extend (fun name => name.1 = r ∧ v₀ ≤ name.2 ∧ name.2 < v)
    (fun inside => by omega) grown.others
    (fun {r₁ w x r₂ w' x'} new below mapped mapped' same => ?_) (fun {r₁ w x} new mapped => ?_)
    fun pa member => grown.held ▸ member
  · obtain ⟨rfl, low, high⟩ : r₁ = r ∧ v₀ ≤ w ∧ w < v := new
    obtain ⟨leaf, here, _, _, _, _, one, _⟩ := grown.fresh w low high
    cases here.symm.trans mapped
    have known : r₂ < phystop := by
      by_cases new : r₂ = r₁ ∧ v₀ ≤ w' ∧ w' < v
      · rw [new.1]
        exact root
      · rw [grown.others (r₂, w') new] at mapped'
        exact (tables.shows.accounts.mapped mapped').1
    exact eq_of_owners_le_one one.le (mem_userNames.mpr ⟨root, by omega⟩)
      (mem_userNames.mpr ⟨known, below⟩)
      (by simp [mapped]) (by simp [mapped', same])
  · obtain ⟨rfl, low, high⟩ : r₁ = r ∧ v₀ ≤ w ∧ w < v := new
    obtain ⟨leaf, here, _, _, _, unheld, _⟩ := grown.fresh w low high
    cases here.symm.trans mapped
    rwa [grown.held]

theorem Grown.fits (grown : Grown layout books books' r v₀ v flags) (fits : books.Fits r sz)
    (first : v₀ = pageCount sz) (last : v = pageCount newsz) (low : newsz ≤ trapframe) :
    books'.Fits r newsz := by
  have ordered := grown.ordered
  refine ⟨low, fun w => ?_⟩
  by_cases new : v₀ ≤ w ∧ w < v
  · obtain ⟨leaf, here, _⟩ := grown.fresh w new.1 new.2
    simp [here, last ▸ new.2]
  · rw [grown.others (r, w) (fun inside => new inside.2), fits.2 w]
    omega

theorem Books.unmap_within (good : books.Good) (r v n : Nat) : (books.unmap r v n).Good := by
  refine good.within (fun mapped => ?_) fun _ => id
  unfold unmap at mapped
  dsimp only at mapped
  split at mapped
  · cases mapped
  · exact ⟨_, mapped, rfl, fun _ => ⟨id, id⟩, id⟩

theorem uvmalloc_sound {xperm : Nat} (small : xperm < 2 ^ 10)
    (sound : Sound layout s live node books) (root : r ∈ live) (fits : books.Fits r sz) :
    Meets (uvmalloc r sz newsz xperm) s (fun result u =>
      (newsz < sz ∧ result = sz ∧ u = s) ∨
      (sz ≤ newsz ∧ result = 0 ∧ ∃ node',
        Refused layout r (pageCount sz) (pagesBelow (pgroundup sz) newsz) s node node' ∧
        Sound layout u live node' books) ∨
      (sz ≤ newsz ∧ result = newsz ∧
        demand (node.shape r) (pageCount sz) (pagesBelow (pgroundup sz) newsz) ≤ s.spare layout ∧
        ∃ node' books', Nodes.Extends r node node' ∧
          Grown layout books books' r (pageCount sz) (pageCount newsz) (userFlags xperm) ∧
          books'.Fits r newsz ∧ Sound layout u live node' books')) stops := by
  have physical := (sound.tables.shows.accounts.named ((sound.tables.live r).mp root)).1
  refine (uvmalloc_meets small sound.paid root fits.1 (sound.room fits) ?_ sound.tables).mono
    (fun result u outcome => ?_) fun _ => id
  · rintro ⟨w, above, user, mapped⟩
    obtain ⟨leaf, here⟩ := ne_none_iff_exists'.mp mapped
    have := (fits.2 w).mp ⟨leaf, here⟩
    omega
  · rcases outcome with same | ⟨grows, failed, node', refused, after⟩ |
      ⟨grows, grew, low, enough, node', books', more, grown, after⟩
    · exact .inl same
    · exact .inr (.inl ⟨grows, failed, node', refused, after, sound.paid, sound.good⟩)
    · refine .inr (.inr ⟨grows, grew, enough, node', books', more, grown,
        grown.fits fits rfl rfl low, after, grown.debt.trans sound.paid, ?_⟩)
      exact grown.good (pageCount_le low) sound.tables sound.good physical

theorem uvmdealloc_sound (sound : Sound layout s live node books) (root : r ∈ live)
    (fits : books.Fits r sz) :
    Meets (uvmdealloc r sz newsz) s (fun result u =>
      (sz ≤ newsz ∧ result = sz ∧ u = s) ∨
      (newsz < sz ∧ result = newsz ∧
        (books.unmap r (pageCount newsz) (pageCount sz - pageCount newsz)).Fits r newsz ∧
        Sound layout u live node
          (books.unmap r (pageCount newsz) (pageCount sz - pageCount newsz))))
      stops := by
  have few := pageCount_le fits.1
  refine (uvmdealloc_meets sound.tables sound.paid root few ?_).mono
    (fun result u outcome => ?_) fun _ => id
  · intro e _ gap
    exact absurd (fun w _ below => (fits.2 w).mpr (.inl (by omega))) gap
  · rcases outcome with same | ⟨shrinks, new, _, after⟩
    · exact .inl same
    · refine .inr ⟨shrinks, new, ⟨shrinks.le.trans fits.1, fun v => ?_⟩, after, sound.paid,
        unmap_within sound.good _ _ _⟩
      have smaller : pageCount newsz ≤ pageCount sz := by
        have low := fits.1
        rw [trapframe_eq, userPages_eq] at low
        unfold pageCount pgroundup pgsize at *
        dsimp only
        omega
      rw [unmap_leaf]
      split
      · rename_i inside
        simp only [reduceCtorEq, exists_false, false_iff]
        omega
      · rw [fits.2 v]
        omega

def resized (sz : Nat) (n : Int) : Nat :=
  if n > 0 then addInt sz n else min sz (addInt sz n)

theorem growproc_sound {p : Proc} {n : Int} (sound : Sound layout s live node books)
    (root : p.pagetable ∈ live) (fits : books.Fits p.pagetable p.sz) (word : n < 2 ^ 31) :
    Meets (p.growproc n) s (fun result u =>
      (result = none ∧ 0 < n ∧ ∃ node', Refused layout p.pagetable (pageCount p.sz)
        (pagesBelow (pgroundup p.sz) (resized p.sz n)) s node node' ∧
        Sound layout u live node' books) ∨
      result = some { p with sz := resized p.sz n } ∧ (0 < n →
          demand (node.shape p.pagetable) (pageCount p.sz)
          (pagesBelow (pgroundup p.sz) (resized p.sz n)) ≤ s.spare layout) ∧ ∃ node' books',
        Sound layout u live node' books' ∧ books'.Fits p.pagetable (resized p.sz n) ∧
        (Grown layout books books' p.pagetable (pageCount p.sz) (pageCount (resized p.sz n))
          (userFlags pteW) ∨
          books' = books.unmap p.pagetable (pageCount (resized p.sz n))
            (pageCount p.sz - pageCount (resized p.sz n)))) stops := by
  have low := fits.1
  rw [trapframe_eq, userPages_eq] at low
  unfold pgsize at low
  rw [Proc.growproc]
  by_cases positive : n > 0
  · have larger : p.sz < addInt p.sz n := by
      unfold addInt
      omega
    rw [if_pos positive, resized, if_pos positive]
    refine (uvmalloc_sound (by decide) sound root fits).bind fun sz u outcome => ?_
    rcases outcome with ⟨_, _, _⟩ | ⟨_, rfl, node', refused, after⟩ |
      ⟨_, rfl, enough, node', books', _, grown, fits', after⟩
    · omega
    · rw [if_pos rfl, meets_pure]
      exact .inl ⟨rfl, positive, node', refused, after⟩
    · rw [if_neg (by omega), meets_pure]
      exact .inr ⟨rfl, fun _ => enough, node', books', after, fits', .inl grown⟩
  · rw [if_neg positive, resized, if_neg positive]
    split
    · refine (uvmdealloc_sound sound root fits).bind fun sz u outcome => ?_
      rw [meets_pure]
      rcases outcome with ⟨wraps, rfl, rfl⟩ | ⟨shrinks, rfl, fits', after⟩
      · rw [min_eq_left wraps]
        exact .inr ⟨rfl, fun grows => absurd grows positive, node, books, sound, fits,
          .inl (.refl _ _ _ _ _)⟩
      · rw [min_eq_right shrinks.le]
        exact .inr ⟨rfl, fun grows => absurd grows positive, node, _, after, fits', .inr rfl⟩
    · obtain rfl : n = 0 := by omega
      have same : addInt p.sz 0 = p.sz := by
        unfold addInt
        omega
      rw [meets_pure, same, min_self]
      exact .inr
        ⟨rfl, fun grows => absurd grows positive, node, books, sound, fits, .inl (.refl _ _ _ _ _)⟩

end Growth

section Writes

variable {off n : Nat} {src : Nat → UInt8}

def Books.SameBut (pa : Nat) (books books' : Books) : Prop :=
  books'.leaf = books.leaf ∧ books'.held = books.held ∧ ∀ x, x ≠ pa → books'.data x = books.data x

theorem Books.SameBut.trans {books'' : Books} (first : SameBut pa books books')
    (second : SameBut pa books' books'') : SameBut pa books books'' :=
  ⟨second.1.trans first.1, second.2.1.trans first.2.1,
    fun x other => (second.2.2 x other).trans (first.2.2 x other)⟩

theorem Books.put_good (good : books.Good) (pa off n : Nat) (src : Nat → UInt8) :
    (books.put pa off n src).Good :=
  good.within (fun mapped => ⟨_, mapped, rfl, fun _ => ⟨id, id⟩, id⟩) fun _ => id

theorem Sound.put (sound : Sound layout s live node books)
    (use : pa ∈ books.held ∨ 0 < books.users pa) (inside : off + n ≤ pgsize) :
    Sound layout { s with mem := copy s.mem (pa + off) n src } live node (books.put pa off n src) :=
  ⟨sound.tables.put sound.paid use inside, sound.paid, put_good sound.good pa off n src⟩

theorem Books.put_sameBut (books : Books) (pa off n : Nat) (src : Nat → UInt8) :
    SameBut pa books (books.put pa off n src) :=
  ⟨rfl, rfl, fun _ other => update_of_ne other _ _⟩

theorem storeWord_sound {value : Nat} (sound : Sound layout s live node books)
    (held : pa ∈ books.held) (inside : off + 8 ≤ pgsize) :
    Meets (storeWord (pa + off) value) s (fun _ u => ∃ books', SameBut pa books books' ∧
      Sound layout u live node books') stops := by
  have bytes : store s.mem (pa + off) 8 value =
    copy s.mem (pa + off) 8 fun i => .ofNat (value / 256 ^ i) := rfl
  rw [meets_storeWord, bytes]
  exact ⟨_, put_sameBut _ _ _ _ _, sound.put (.inl held) inside⟩

end Writes

section Fork

variable {old new n : Nat}

theorem Leaf.cow_pa (leaf : Leaf) : leaf.cow.pa = leaf.pa := rfl

theorem Leaf.cow_unwritable (leaf : Leaf) : leaf.cow.flags.testBit 2 = false := by
  unfold cow
  dsimp only
  split
  · rw [Nat.testBit_or, Nat.testBit_ldiff, show pteW.testBit 2 = true from rfl,
      show pteCow.testBit 2 = false from rfl, Bool.not_true, Bool.and_false, Bool.or_false]
  · rename_i readonly
    exact Bool.eq_false_of_not_eq_true fun set => readonly (testBit_flag.mpr set)

theorem Books.cowed_good (good : books.Good) (old : Nat) (few : n ≤ userPages) :
    (books.cowed old n).Good := by
  refine good.within (fun {r v leaf'} mapped => ?_) fun _ => id
  unfold cowed at mapped
  dsimp only at mapped
  split at mapped
  · rename_i inside
    obtain ⟨leaf, here, rfl⟩ := map_eq_some_iff.mp mapped
    refine ⟨leaf, here, rfl, fun high => by omega, fun writes => ?_⟩
    rw [leaf.cow_unwritable] at writes
    cases writes
  · exact ⟨_, mapped, rfl, fun _ => ⟨id, id⟩, id⟩

theorem Books.cowed_maps (books : Books) (old n r v : Nat) :
    (∃ leaf, (books.cowed old n).leaf (r, v) = some leaf) ↔
      ∃ leaf, books.leaf (r, v) = some leaf := by
  unfold cowed
  dsimp only
  split <;> simp

theorem Books.copied_elsewhere (mapped : (books.copied old new n).leaf (r, v) = some leaf)
    (apart : r ≠ new ∨ n ≤ v) : (books.cowed old n).leaf (r, v) = some leaf := by
  unfold copied at mapped
  dsimp only at mapped
  rwa [if_neg (by omega)] at mapped

/-- The pages that both have are marked as shared. -/
theorem Books.copied_cow (mapped : (books.copied old new n).leaf (r, v) = some leaf)
    (both : r = new ∨ r = old) (inside : v < n) : ∃ x : Leaf, leaf = x.cow := by
  unfold copied cowed at mapped
  dsimp only at mapped
  by_cases child : r = new
  · rw [if_pos ⟨child, inside⟩] at mapped
    obtain ⟨x, _, rfl⟩ := map_eq_some_iff.mp mapped
    exact ⟨x, rfl⟩
  · rw [if_neg fun both => child both.1, if_pos ⟨both.resolve_left child, inside⟩] at mapped
    obtain ⟨x, _, rfl⟩ := map_eq_some_iff.mp mapped
    exact ⟨x, rfl⟩

theorem Books.copied_good (good : books.Good) (few : n ≤ userPages) (spans : books.Spans new 0) :
    (books.copied old new n).Good := by
  have marked := cowed_good good old few
  have missing {v : Nat} {x : Leaf} (here : books.leaf (new, v) = some x)
      (user : v < userPages) : False := by
    have := (spans v).mp ⟨x, here⟩
    omega
  refine good.derive (fun r => if r = new then old else r) (fun {r v leaf'} mapped user => ?_) ?_
    (fun _ => .inl)
    fun {r v leaf leaf'} mapped user writes there => ?_
  · unfold copied at mapped
    dsimp only at mapped
    split at mapped
    · rename_i inside
      obtain ⟨leaf, here, rfl⟩ := map_eq_some_iff.mp mapped
      exact ⟨leaf, by rw [if_pos inside.1]; exact here, rfl⟩
    · obtain ⟨leaf, here⟩ := (books.cowed_maps old n r v).mp ⟨_, mapped⟩
      have other : r ≠ new := by
        rintro rfl
        exact missing here user
      rw [if_neg other]
      unfold cowed at mapped
      dsimp only at mapped
      split at mapped
      · obtain ⟨leaf, here, rfl⟩ := map_eq_some_iff.mp mapped
        exact ⟨leaf, here, rfl⟩
      · exact ⟨leaf', mapped, rfl⟩
  · exact fun r v x mapped high =>
      marked.guarded r v x (copied_elsewhere mapped (.inr (by omega))) high
  · -- the pages that both have cannot be written any more
    have unshared : ¬ ((r = new ∨ r = old) ∧ v < n) := by
      rintro ⟨either, inside⟩
      obtain ⟨x, rfl⟩ := copied_cow mapped either inside
      rw [x.cow_unwritable] at writes
      cases writes
    have still (r : Nat) (x : Leaf) (mapped : (books.copied old new n).leaf (r, v) = some x)
        (late : r = new → n ≤ v) :
        r ≠ new := by
      rintro rfl
      obtain ⟨y, here⟩ :=
        (books.cowed_maps old n r v).mp ⟨x, copied_elsewhere mapped (.inr (late rfl))⟩
      exact missing here user
    have parent : r ≠ new := still r leaf' mapped fun same => by
      by_contra inside
      exact unshared ⟨.inl same, by omega⟩
    have now := copied_elsewhere mapped (.inl parent)
    unfold cowed at now
    dsimp only at now
    rw [if_neg fun both => unshared ⟨.inr both.1, both.2⟩] at now
    rw [if_neg parent] at there ⊢
    cases there.symm.trans now
    refine ⟨writes, fun r' x mapped' same => ?_⟩
    have apart : r' ≠ new := still r' x mapped' fun child => by
      rw [if_pos child] at same
      by_contra inside
      exact unshared ⟨.inr same.symm, by omega⟩
    rw [if_neg apart] at same
    exact same.symm

theorem Books.copied_others (books : Books) (apart : r ≠ new) :
    (∃ leaf, (books.copied old new n).leaf (r, v) = some leaf) ↔
      ∃ leaf, books.leaf (r, v) = some leaf := by
  have same : (books.copied old new n).leaf (r, v) = (books.cowed old n).leaf (r, v) := by
    unfold copied
    dsimp only
    rw [if_neg fun inside => apart inside.1]
  rw [same, cowed_maps]

/-- The address space of the child is as large as that of its parent. -/
theorem Books.copied_spans (spans : books.Spans new 0) (maps : books.Maps old 0 n) :
    (books.copied old new n).Spans new n := by
  intro v
  unfold copied
  dsimp only
  by_cases inside : v < n
  · obtain ⟨leaf, here⟩ := maps v (by omega) (by omega)
    simp [inside, here]
  · have none := spans v
    simp only [Nat.not_lt_zero, false_or] at none
    rw [if_neg fun both => inside both.2, cowed_maps, none]
    simp [inside]

structure Forked (layout : Layout) (books books' : Books) (p np : Proc) : Prop where
  launched : ∃ first, Launched layout books first { np with sz := 0 } ∧
    books'.leaf = (first.copied p.pagetable np.pagetable (pageCount p.sz)).leaf
  size : np.sz = p.sz
  held : books'.held = np.trapframe ::ₘ books.held
  data : ∀ pa, pa ≠ np.trapframe → books'.data pa = books.data pa

section Fork

variable {p np : Proc} {first : Books} {u : Kmem}

theorem Launched.blank (launched : Launched layout books first np) (w : Nat)
    (below : w < userPages) : first.leaf (np.pagetable, w) = none := by
  by_contra mapped
  obtain ⟨leaf, here⟩ := ne_none_iff_exists'.mp mapped
  have := (launched.spans w).mp ⟨leaf, here⟩
  omega

theorem Launched.discard_leaf (launched : Launched layout books first np)
    (apart : old ≠ np.pagetable) (k : Nat) :
    (Books.discard { first.cowed old k with held := books.held } np.pagetable).leaf =
      (books.cowed old k).leaf := by
  funext name
  obtain ⟨r, v⟩ := name
  unfold Books.discard cowed
  dsimp only
  by_cases here : r = np.pagetable
  · subst here
    rw [if_pos rfl, if_neg fun both => apart both.1.symm]
    exact (launched.empty v).symm
  · rw [if_neg here, launched.others (r, v) here]

/-- `uvmcopy` has failed: `fork` frees the child, and only the marks on the pages of the parent
remain. -/
theorem fork_abandons (sound : Sound layout s live node books) (new : np.pagetable ∉ live)
    (apart : p.pagetable ≠ np.pagetable) (launched : Launched layout books first np)
    (grows : Nodes.Elsewhere np.pagetable node node')
    (marked : Sound layout u (insert np.pagetable live) node' (first.cowed p.pagetable k)) :
    Meets (freeproc np) u (fun _ w => ∃ books', Sound layout w live node books' ∧
      books'.held = books.held ∧
      (∀ f, f ∈ books.held ∨ 0 < books.users f → books'.data f = books.data f) ∧
      books'.leaf = (books.cowed p.pagetable k).leaf) stops := by
  have fits : (first.cowed p.pagetable k).Fits np.pagetable np.sz := by
    rw [launched.size]
    exact ⟨by omega, fun v => (first.cowed_maps _ _ _ v).trans (launched.spans v)⟩
  refine (freeproc_sound marked (mem_insert_self _ _) launched.held fits).mono
    (fun _ w freed => ?_) fun _ => id
  obtain ⟨node₃, frees, done⟩ := freed
  rw [erase_insert new] at done
  rw [sound.tables.nodes_eq done.tables new (grows.trans frees)] at done
  refine ⟨_, done, rfl, fun f use => launched.data f ?_, launched.discard_leaf apart k⟩
  rintro rfl
  rcases use with member | mapped
  · exact launched.unheld member
  · exact mapped.ne' launched.unmapped

/-- `uvmcopy` has copied the pages: the child gets the trapframe of the parent. -/
theorem fork_finishes (launched : Launched layout books first np)
    (maps : first.Maps p.pagetable 0 (pageCount p.sz))
    (low : p.sz ≤ trapframe) (copied : Sound layout u (insert np.pagetable live) node
      (first.copied p.pagetable np.pagetable (pageCount p.sz))) :
    Meets (do memmove np.trapframe p.trapframe trapframeBytes; storeWord (np.trapframe + tfA0) 0) u
      (fun _ w => ∃ books', Forked layout books books' p { np with sz := p.sz } ∧
        books'.Fits np.pagetable p.sz ∧
        Sound layout w (insert np.pagetable live) node books') stops := by
  have held : np.trapframe ∈ (first.copied p.pagetable np.pagetable (pageCount p.sz)).held := by
    have : (first.copied p.pagetable np.pagetable (pageCount p.sz)).held = first.held := rfl
    rw [this, launched.held]
    exact mem_cons_self _ _
  rw [meets_bind, memmove, meets_modify]
  have moved : Sound layout
      { u with
        mem := copy u.mem (np.trapframe + 0) trapframeBytes
          fun i => u.mem (p.trapframe + i) } _ _ _ :=
    copied.put (.inl held) (by decide)
  refine (storeWord_sound moved held (by decide)).mono (fun _ w stored => ?_) fun _ => id
  obtain ⟨last, change, done⟩ := stored
  have change := (put_sameBut _ _ _ _ _).trans change
  refine ⟨last, ⟨⟨first, ?_, change.1⟩, rfl, ?_, fun pa other => ?_⟩, ⟨low, fun v => ?_⟩, done⟩
  · obtain ⟨_, _, _⟩ := np
    obtain rfl := launched.size
    exact launched
  · exact change.2.1.trans launched.held
  · exact (change.2.2 pa other).trans (launched.data pa other)
  · rw [change.1]
    exact copied_spans launched.spans maps v

theorem fork_sound (sound : Sound layout s live node books) (root : p.pagetable ∈ live)
    (fits : books.Fits p.pagetable p.sz) :
    Meets (p.fork layout) s (fun result u =>
      (result = none ∧ s.spare layout < 6 + 2 * pageCount p.sz ∧ ∃ books',
        Sound layout u live node books' ∧ books'.held = books.held ∧
        (∀ f, f ∈ books.held ∨ 0 < books.users f → books'.data f = books.data f) ∧
        ∃ k, k ≤ userPages ∧ (k = 0 ∨ 0 < s.spare layout) ∧
        books'.leaf = (books.cowed p.pagetable k).leaf) ∨
      ∃ np, result = some np ∧ np.pagetable ∉ live ∧ np.pagetable ≠ p.pagetable ∧ ∃ node' books',
        Forked layout books books' p np ∧ books'.Fits np.pagetable np.sz ∧
        Sound layout u (insert np.pagetable live) node' books') stops := by
  have few := pageCount_le fits.1
  rw [Proc.fork]
  refine (allocproc_sound sound).bind fun result u outcome => ?_
  rcases outcome with
    ⟨rfl, short, after⟩ | ⟨np, rfl, spare, some, new, node₁, first, begins, launched, begun⟩
  · refine meets_pure.mpr
      (.inl ⟨rfl, by omega, books, after, rfl, fun _ _ => rfl, 0, by omega, .inl rfl, ?_⟩)
    simp [cowed]
  dsimp only
  have apart : p.pagetable ≠ np.pagetable := fun same => new (same ▸ root)
  have maps : first.Maps p.pagetable 0 (pageCount p.sz) := by
    intro w _ below
    rw [launched.others _ apart]
    exact (fits.2 w).mpr (.inl (by omega))
  refine (uvmcopy_meets begun.tables begun.paid (mem_insert_of_mem root) (mem_insert_self _ _)
    apart fits.1 (fun e gap => absurd maps gap) ?_).bind fun result u outcome => ?_
  · rintro ⟨w, below, mapped⟩
    exact absurd (launched.blank w (by omega)) mapped
  rcases outcome with ⟨rfl, _, _, node₂, _, after⟩ | ⟨rfl, short, k, below, _, node₂, copies, after⟩
  · have finishes : Meets _ u _ stops := fork_finishes launched maps fits.1
      ⟨after, begun.paid, copied_good begun.good few launched.spans⟩
    rw [meets_bind] at finishes
    rw [if_neg (by omega), meets_bind]
    refine finishes.mono
      (fun _ v stores => stores.bind fun _ w ended => meets_pure.mpr ?_) fun _ => id
    obtain ⟨last, forked, sized, done⟩ := ended
    exact .inr ⟨_, rfl, new, apart.symm, node₂, last, forked, sized, done⟩
  · rw [if_pos (by omega)]
    refine (fork_abandons sound new apart launched (begins.trans copies)
      ⟨after, begun.paid, cowed_good begun.good p.pagetable (by omega)⟩).bind
        fun _ w ended => meets_pure.mpr ?_
    obtain ⟨last, done, held, data, leaf⟩ := ended
    exact .inl ⟨rfl, by omega, last, done, held, data, k + 1, by omega, .inr some, leaf⟩

end Fork

end Fork

section Stores

variable {va len off n : Nat} {src : Nat → UInt8} {leaf' : Leaf}

/-- An address space maps the same virtual pages as before, and nothing else is different but the
content of its pages. -/
structure Books.Keeps (r : Nat) (books books' : Books) : Prop where
  good : books'.Good
  held : books'.held = books.held
  debt : books'.debt = books.debt
  steady : ∀ f ∈ books.held, books'.data f = books.data f
  others : ∀ name, name.1 ≠ r → books'.leaf name = books.leaf name
  maps : ∀ v, (∃ leaf, books'.leaf (r, v) = some leaf) ↔ ∃ leaf, books.leaf (r, v) = some leaf

theorem Books.Keeps.refl (good : books.Good) (r : Nat) : Keeps r books books :=
  ⟨good, rfl, rfl, fun _ _ => rfl, fun _ _ => rfl, fun _ => Iff.rfl⟩

theorem Books.Keeps.trans {books'' : Books} (first : Keeps r books books')
    (second : Keeps r books' books'') : Keeps r books books'' :=
  ⟨second.good, second.held.trans first.held, second.debt.trans first.debt,
    fun f member => (second.steady f (first.held ▸ member)).trans (first.steady f member),
    fun name other => (second.others name other).trans (first.others name other),
    fun v => (second.maps v).trans (first.maps v)⟩

theorem Books.Keeps.everywhere (kept : Keeps r books books') (r' v : Nat) :
    (∃ leaf, books'.leaf (r', v) = some leaf) ↔ ∃ leaf, books.leaf (r', v) = some leaf := by
  by_cases same : r' = r
  · subst same
    exact kept.maps v
  · rw [kept.others (r', v) same]

theorem Books.put_keeps (good : books.Good) (unheld : pa ∉ books.held) (r off n : Nat)
    (src : Nat → UInt8) : Keeps r books (books.put pa off n src) := by
  refine ⟨put_good good pa off n src, rfl, rfl, fun f member => ?_, fun _ _ => rfl,
    fun _ => Iff.rfl⟩
  refine update_of_ne ?_ _ _
  rintro rfl
  exact unheld member

theorem Books.unshare_good (good : books.Good) (user : v < userPages)
    (unheld : leaf'.pa ∉ books.held)
    (fresh : ∀ r v x, books.leaf (r, v) = some x → v < userPages → x.pa ≠ leaf'.pa) :
    (books.unshare r v leaf leaf').Good := by
  have others (name : Nat × Nat) (other : name ≠ (r, v)) :
      (books.unshare r v leaf leaf').leaf name = books.leaf name := update_of_ne other _ _
  have now : (books.unshare r v leaf leaf').leaf (r, v) = some leaf' := update_self _ _ _
  refine good.extend (· = (r, v)) (fun same => by cases same; exact user) others
    (fun {r₁ w x r₂ w' x'} new below mapped mapped' same => ?_) (fun {r₁ w x} new mapped => ?_)
      fun pa member => member
  · cases new
    cases now.symm.trans mapped
    by_contra apart
    rw [others _ (Ne.symm apart)] at mapped'
    exact fresh _ _ _ mapped' below same.symm
  · cases new
    cases now.symm.trans mapped
    exact unheld

theorem Books.Private.now (here : books.leaf (r, v) = some leaf)
    (own : books.Private r v leaf books' leaf') : books'.leaf (r, v) = some leaf' := by
  rcases own with ⟨_, rfl, rfl⟩ | ⟨_, _, _, _, rfl⟩
  · exact here
  · exact update_self _ _ _

theorem Books.Private.flags (own : books.Private r v leaf books' leaf')
    (shared : leaf.flags.testBit 8 = true) :
    leaf'.flags = Nat.ldiff leaf.flags pteCow ||| pteW := by
  rcases own with ⟨plain, _⟩ | ⟨_, flags, _⟩
  · rw [plain] at shared
    cases shared
  · exact flags

theorem Books.Private.keeps (good : books.Good) (user : v < userPages)
    (here : books.leaf (r, v) = some leaf) (own : books.Private r v leaf books' leaf') :
    Keeps r books books' := by
  have now := own.now here
  rcases own with ⟨_, rfl, rfl⟩ | ⟨_, _, unheld, fresh, rfl⟩
  · exact .refl good r
  · refine ⟨unshare_good good user unheld fresh, rfl, rfl, fun f member => ?_,
      fun name other => ?_, fun w => ?_⟩
    · refine update_of_ne ?_ _ _
      rintro rfl
      exact unheld member
    · exact update_of_ne (fun same => other (by rw [same])) _ _
    · by_cases same : w = v
      · subst same
        exact ⟨fun _ => ⟨leaf, here⟩, fun _ => ⟨leaf', now⟩⟩
      · have unchanged : (books.unshare r v leaf leaf').leaf (r, w) = books.leaf (r, w) :=
          update_of_ne (fun both => same (congrArg Prod.snd both)) _ _
        rw [unchanged]

theorem Books.Private.unheld (good : books.Good) (user : v < userPages)
    (here : books.leaf (r, v) = some leaf)
    (own : books.Private r v leaf books' leaf') : leaf'.pa ∉ books.held := by
  rcases own with ⟨_, rfl, _⟩ | ⟨_, _, unheld, _⟩
  · exact good.kernel here user
  · exact unheld

theorem Copies.keeps {result : Int} (copies : Copies r books va src len result books')
    (good : books.Good) : Keeps r books books' := by
  induction copies with
  | done | refused => exact .refl good r
  | round more seen own rest ih =>
    obtain ⟨_, mapped, _⟩ := reach_some.mp seen
    have user := (good.guarded r).below seen
    have first := own.keeps good user mapped
    have unheld := first.held ▸ own.unheld good user mapped
    have written := put_keeps first.good unheld r
    exact (first.trans (written _ _ _)).trans (ih (written _ _ _).good)

section

variable (sound : Sound layout s live node books)

include sound

theorem removecopy_sound {sp : Nat} (root : r ∈ live)
    (word : sp < 2 ^ 64) (fault : books.leaf (r, va / pgsize) = none → stops .kernelFault)
    (full : ∀ leaf, books.leaf (r, va / pgsize) = some leaf → leaf.flags.testBit 8 = true →
      s.spare layout = 0 →
      stops .removecopyKalloc) :
    Meets (removecopy r va (pgrounddown sp)) s (fun result u =>
      (result = 1 ∧ u = s ∧ (va < maxva → ∀ leaf, books.leaf (r, va / pgsize) = some leaf →
        leaf.flags.testBit 8 = false)) ∨
      (result = 0 ∧ 0 < s.spare layout ∧ ∃ leaf leaf' books',
        books.leaf (r, va / pgsize) = some leaf ∧
        leaf.flags.testBit 8 = true ∧ books.Private r (va / pgsize) leaf books' leaf' ∧
        Sound layout u live node books')) stops := by
  have user (leaf : Leaf) (here : books.leaf (r, va / pgsize) = some leaf)
      (shared : leaf.flags.testBit 8 = true) : va / pgsize < userPages := by
    by_contra high
    rw [(sound.good.guarded r _ _ here (by omega)).2] at shared
    cases shared
  refine (removecopy_meets sound.tables sound.paid root user
    (fun _ missing => fault ((sound.tables.rooted r).unmapped missing))
    fun leaf here shared empty => full leaf here shared
    (sound.tables.shows.accounts.freelist_iff.mp empty)).mono
    (fun result u outcome => ?_) fun _ => id
  rcases outcome with
    ⟨refused, same, plain⟩ | ⟨done, _, listed, leaf, mem, unused, here, shared, after⟩
  · refine .inl ⟨refused, same, fun low => (plain ?_ ?_ low).2⟩
    · unfold pgrounddown pgsize
      omega
    · exact (Nat.sub_le _ _).trans_lt word
  · have fresh (r' w : Nat) (x : Leaf) (mapped : books.leaf (r', w) = some x)
        (below : w < userPages) :
        x.pa ≠ mem := sound.tables.unmapped unused.unmapped mapped below
    have free :=
      Nat.pos_of_ne_zero fun empty => listed (sound.tables.shows.accounts.freelist_iff.mpr empty)
    refine .inr ⟨done, free, leaf, _, _, here, shared,
      .inr ⟨shared, rfl, unused.unheld, fresh, rfl⟩, after, sound.paid, ?_⟩
    exact unshare_good sound.good (user leaf here shared) unused.unheld fresh

theorem tryStore_sound {byte : UInt8} (root : r ∈ live) :
    Meets (tryStore r va byte) s (fun done u =>
      (done = false ∧ u = s ∧ ∀ leaf, books.reach r va = some leaf → leaf.flags.testBit 2 = false) ∨
      (done = true ∧ ∃ leaf, books.reach r va = some leaf ∧ leaf.flags.testBit 2 = true ∧
        Sound layout u live node (books.put leaf.pa (va % pgsize) 1 fun _ => byte))) stops := by
  rw [tryStore]
  split
  · rename_i high
    rw [meets_pure]
    refine .inl ⟨rfl, rfl, fun leaf seen => ?_⟩
    have := (reach_some.mp seen).1
    omega
  · rename_i low
    refine (sound.tables.find root (by omega)).bind fun a u ⟨same, found⟩ => ?_
    subst same
    rcases found with ⟨rfl, unmapped⟩ | ⟨real, c, there, rfl⟩
    · rw [if_pos rfl, meets_pure]
      refine .inl ⟨rfl, rfl, fun leaf seen => ?_⟩
      rw [(reach_some.mp seen).2.1] at unmapped
      cases unmapped
    rw [if_neg real, meets_bind, meets_loadWord, sound.tables.read there]
    cases here : books.leaf (r, va / pgsize) with
    | none =>
      rw [elim_none, if_pos (by simp), meets_pure]
      refine .inl ⟨rfl, rfl, fun leaf seen => ?_⟩
      rw [(reach_some.mp seen).2.1] at here
      cases here
    | some leaf =>
      have user : leaf.pte &&& pteU ≠ 0 ↔ leaf.flags.testBit 4 = true := leaf.pte_test (by omega)
      have write : leaf.pte &&& pteW ≠ 0 ↔ leaf.flags.testBit 2 = true := leaf.pte_test (by omega)
      rw [elim_some]
      split
      · rename_i refused
        rw [meets_pure]
        refine .inl ⟨rfl, rfl, fun leaf' seen => ?_⟩
        obtain ⟨_, mapped, reached⟩ := reach_some.mp seen
        cases here.symm.trans mapped
        rcases refused with invalid | hidden | readonly
        · exact absurd invalid leaf.pte_valid
        · exact absurd hidden (user.mpr reached)
        · exact Bool.eq_false_of_not_eq_true fun writable => write.mpr writable readonly
      · rename_i allowed
        simp only [not_or] at allowed
        have seen : books.reach r va = some leaf :=
          reach_some.mpr ⟨by omega, here, user.mp allowed.2.1⟩
        have users := users_pos here (sound.tables.shows.accounts.mapped here).1
          ((sound.good.guarded r).below seen)
        have inside : va % pgsize + 1 ≤ pgsize := Nat.mod_lt va (by decide)
        rw [meets_bind, meets_modify, meets_pure, leaf.pte_pa]
        refine .inr ⟨rfl, leaf, seen, write.mp allowed.2.2, ?_⟩
        have written : Sound layout
            { u with mem := copy u.mem (leaf.pa + va % pgsize) 1 fun _ => byte } live node
            (books.put leaf.pa (va % pgsize) 1 fun _ => byte) := sound.put (.inr users) inside
        rwa [copy_single] at written

/-- A store goes to the user's page, in a private copy if the page is shared, or it is refused. -/
theorem userStore_sound {sp : Nat} {byte : UInt8} (root : r ∈ live)
    (word : sp < 2 ^ 64) (fault : books.leaf (r, va / pgsize) = none → stops .kernelFault)
    (full : ∀ leaf, books.leaf (r, va / pgsize) = some leaf → leaf.flags.testBit 8 = true →
      (books.reach r va = some leaf → leaf.flags.testBit 2 = false) → s.spare layout = 0 →
      stops .removecopyKalloc) :
    Meets (userStore r va sp byte) s (fun stored u =>
      (stored = false ∧ (∀ leaf, books.reach r va = some leaf → leaf.flags.testBit 2 = false ∧
        leaf.flags.testBit 8 = false) ∧ ∃ books', Keeps r books books' ∧
        (books' = books ∨ ∃ leaf leaf',
        books.leaf (r, va / pgsize) = some leaf ∧ books.Private r (va / pgsize) leaf books' leaf') ∧
        Sound layout u live node books') ∨
      (stored = true ∧ ∃ leaf leaf' books', books.reach r va = some leaf ∧
        (leaf.flags.testBit 2 = true ∧ leaf' = leaf ∧ books' = books ∨
          leaf.flags.testBit 2 = false ∧ leaf.flags.testBit 8 = true ∧ 0 < s.spare layout ∧
          books.Private r (va / pgsize) leaf books' leaf') ∧
        Sound layout u live node (books'.put leaf'.pa (va % pgsize) 1 fun _ => byte))) stops := by
  rw [userStore]
  refine (tryStore_sound sound root).bind fun done u outcome => ?_
  rcases outcome with ⟨rfl, rfl, readonly⟩ | ⟨rfl, leaf, seen, writable, after⟩
  · rw [if_neg (by decide)]
    refine (removecopy_sound sound root word fault
      fun leaf here shared => full leaf here shared (readonly leaf)).bind
      fun killed u outcome => ?_
    rcases outcome with
      ⟨rfl, rfl, plain⟩ | ⟨rfl, free, leaf, leaf', books', here, shared, own, unshared⟩
    · rw [if_pos (by decide), meets_pure]
      refine .inl
        ⟨rfl, fun leaf seen => ⟨readonly leaf seen, ?_⟩, books, .refl sound.good r, .inl rfl, sound⟩
      obtain ⟨low, here, _⟩ := reach_some.mp seen
      exact plain low leaf here
    · rw [if_neg (by decide)]
      have user : va / pgsize < userPages := by
        by_contra high
        rw [(sound.good.guarded r _ _ here (by omega)).2] at shared
        cases shared
      have now := own.now here
      have kept := own.keeps sound.good user here
      have flags := own.flags shared
      have reached (x : Leaf) (seen : books.reach r va = some x) :
          x = leaf ∧ books'.reach r va = some leaf' := by
        obtain ⟨low, mapped, visible⟩ := reach_some.mp seen
        cases mapped.symm.trans here
        refine ⟨rfl, reach_some.mpr ⟨low, now, ?_⟩⟩
        rw [flags, testBit_own, visible]
        rfl
      refine (tryStore_sound unshared root).bind fun done u outcome => ?_
      rcases outcome with ⟨rfl, rfl, refused⟩ | ⟨rfl, final, seen, _, after⟩
      · rw [if_neg (by decide)]
        -- the page is no longer shared, so that nothing is left to allocate
        refine (removecopy_sound unshared root word (fun missing => ?_)
          fun x again marked => ?_).bind
          fun killed w outcome => ?_
        · cases missing.symm.trans now
        · cases now.symm.trans again
          rw [flags, testBit_own] at marked
          simp at marked
        rw [meets_pure]
        refine .inl ⟨rfl, fun x seen => ?_, ?_⟩
        · have readonly := refused leaf' (reached x seen).2
          rw [flags, testBit_own] at readonly
          simp at readonly
        · rcases outcome with ⟨_, rfl, _⟩ | ⟨_, _, x, _, _, again, marked, _⟩
          · exact ⟨books', kept, .inr ⟨leaf, leaf', here, own⟩, unshared⟩
          · cases now.symm.trans again
            rw [flags, testBit_own] at marked
            simp at marked
      · rw [if_pos rfl, meets_pure]
        obtain ⟨low, mapped, visible⟩ := reach_some.mp seen
        cases now.symm.trans mapped
        rw [flags, testBit_own] at visible
        have original : books.reach r va = some leaf :=
          reach_some.mpr ⟨low, here, by simpa using visible⟩
        exact .inr ⟨rfl, leaf, leaf', books', original,
          .inr ⟨readonly leaf original, shared, free, own⟩, after⟩
  · rw [if_pos rfl, meets_pure]
    exact .inr ⟨rfl, leaf, leaf, books, seen, .inl ⟨writable, rfl, rfl⟩, after⟩

end

end Stores

end EnhancedXv6.Memory
