import EnhancedXv6.Memory.Sound

namespace EnhancedXv6.Memory

open Foundation Function Option Finset Books

variable {layout : Layout} {s u : Kmem} {node : Nodes} {books books' : Books} {live : Finset Nat}
  {pa r r' v sz newsz : Nat} {leaf : Leaf} {stops : Panic → Prop} {argv : List (List UInt8)}
  {p : Proc}

section Image

variable {node₀ : Nodes} {books₀ : Books} {va len hidden : Nat} {src : Nat → UInt8}

/-- While `exec` builds an address space everything else is as it was. The pages of the image are
new, none of them is shared, and all but one are for the user. -/
structure Raised (node₀ : Nodes) (books₀ : Books) (r sz hidden : Nat) (node : Nodes)
    (books : Books) : Prop where
  elsewhere : Nodes.Elsewhere r node₀ node
  held : books.held = books₀.held
  empty : ∀ v, books₀.leaf (r, v) = none
  steady : ∀ f, f ∈ books₀.held ∨ 0 < books₀.users f → books.data f = books₀.data f
  others : ∀ name, name.1 ≠ r → books.leaf name = books₀.leaf name
  fits : books.Fits r sz
  fresh : ∀ {v leaf}, books.leaf (r, v) = some leaf → v < userPages → books₀.users leaf.pa = 0
  plain : ¬ books.Shares r
  reached : ∀ {v leaf}, books.leaf (r, v) = some leaf → v < userPages → v ≠ hidden →
    leaf.flags.testBit 4 = true

/-- The address space of a new image while `exec` builds it. -/
def Building (layout : Layout) (node₀ : Nodes) (books₀ : Books) (live : Finset Nat)
    (r sz hidden : Nat) (s : Kmem) : Prop :=
  ∃ node books, Sound layout s live node books ∧ Raised node₀ books₀ r sz hidden node books

section Raised

variable {node' : Nodes}

section

variable (raised : Raised node₀ books₀ r sz hidden node books)

include raised

theorem Raised.in_use {f : Nat} (use : f ∈ books₀.held ∨ 0 < books₀.users f) :
    f ∈ books.held ∨ 0 < books.users f := by
  rcases use with held | mapped
  · exact .inl (raised.held ▸ held)
  · obtain ⟨⟨r', v⟩, known, found⟩ := exists_of_owners_pos mapped
    obtain ⟨leaf, there, rfl⟩ := map_eq_some_iff.mp found
    have other : r' ≠ r := by
      rintro rfl
      rw [raised.empty v] at there
      cases there
    have inside := mem_userNames.mp known
    exact .inr (users_pos ((raised.others (r', v) other).trans there) inside.1 inside.2)

theorem Raised.data (leaf : books'.leaf = books.leaf) (held : books'.held = books.held)
    (steady : ∀ f, f ∈ books₀.held ∨ 0 < books₀.users f → books'.data f = books.data f) :
    Raised node₀ books₀ r sz hidden node books' where
  elsewhere := raised.elsewhere
  held := held.trans raised.held
  empty := raised.empty
  steady f use := (steady f use).trans (raised.steady f use)
  others name other := by rw [leaf, raised.others name other]
  fits := raised.fits.congr fun v => by rw [leaf]
  fresh mapped user := raised.fresh (by rw [← leaf]; exact mapped) user
  plain := by
    unfold Shares
    rw [leaf]
    exact raised.plain
  reached mapped user other := raised.reached (by rw [← leaf]; exact mapped) user other

theorem Raised.apart {f : Nat} (good : books.Good) (mapped : books.leaf (r, v) = some leaf)
    (user : v < userPages) (use : f ∈ books₀.held ∨ 0 < books₀.users f) : leaf.pa ≠ f := by
  rintro rfl
  rcases use with held | shared
  · exact good.kernel mapped user (raised.held ▸ held)
  · exact shared.ne' (raised.fresh mapped user)

theorem Raised.grown {flags : Nat} (more : Nodes.Extends r node node')
    (grown : Grown layout books books' r (pageCount sz) (pageCount newsz) flags)
    (fits : books'.Fits r newsz) (plain : flags.testBit 8 = false) (user : flags.testBit 4 = true) :
    Raised node₀ books₀ r newsz hidden node' books' := by
  have old {v : Nat} (outside : ¬ (pageCount sz ≤ v ∧ v < pageCount newsz)) :
      books'.leaf (r, v) = books.leaf (r, v) :=
    grown.others (r, v) fun inside => outside inside.2
  refine ⟨raised.elsewhere.trans more.others, grown.held.trans raised.held, raised.empty,
    fun f use => ?_, fun name other => ?_, fits, fun {v leaf} mapped below => ?_, ?_,
    fun {v leaf} mapped below other => ?_⟩
  · exact (grown.data f (raised.in_use use)).trans (raised.steady f use)
  · exact (grown.others name fun inside => other inside.1).trans (raised.others name other)
  · by_cases new : pageCount sz ≤ v ∧ v < pageCount newsz
    · obtain ⟨x, here, _, _, unused, _⟩ := grown.fresh v new.1 new.2
      cases here.symm.trans mapped
      by_contra positive
      rcases raised.in_use (.inr (Nat.pos_of_ne_zero positive)) with held | shared
      · obtain ⟨y, there, _, _, _, unheld, _⟩ := grown.fresh v new.1 new.2
        cases there.symm.trans mapped
        exact unheld held
      · exact shared.ne' unused
    · exact raised.fresh ((old new).symm.trans mapped) below
  · rintro ⟨v, leaf, mapped, shared⟩
    by_cases new : pageCount sz ≤ v ∧ v < pageCount newsz
    · obtain ⟨x, here, rfl, _⟩ := grown.fresh v new.1 new.2
      cases here.symm.trans mapped
      rw [plain] at shared
      cases shared
    · exact raised.plain ⟨v, leaf, (old new).symm.trans mapped, shared⟩
  · by_cases new : pageCount sz ≤ v ∧ v < pageCount newsz
    · obtain ⟨x, here, rfl, _⟩ := grown.fresh v new.1 new.2
      cases here.symm.trans mapped
      exact user
    · exact raised.reached ((old new).symm.trans mapped) below other

end

/-- Where no page is to be copied, `copyout` changes the content of pages only. -/
theorem Copies.plain {result : Int} (copies : Copies r books va src len result books')
    (good : books.Good) (plain : ¬ books.Shares r) :
    books'.leaf = books.leaf ∧ books'.held = books.held ∧ books'.debt = books.debt ∧
      ∀ f, (∀ v leaf, books.leaf (r, v) = some leaf → v < userPages → leaf.pa ≠ f) →
        books'.data f = books.data f := by
  induction copies with
  | done | refused => exact ⟨rfl, rfl, rfl, fun _ _ => rfl⟩
  | round more seen own rest ih =>
    obtain ⟨_, mapped, _⟩ := reach_some.mp seen
    have user := (good.guarded r).below seen
    rcases own with ⟨_, rfl, rfl⟩ | ⟨shared, _⟩
    · obtain ⟨leaf, held, debt, data⟩ := ih (put_good good _ _ _ _) plain
      refine ⟨leaf, held, debt, fun f outside => ?_⟩
      rw [data f outside]
      exact update_of_ne (outside _ _ mapped user).symm _ _
    · exact absurd ⟨_, _, mapped, shared⟩ plain

end Raised

theorem userFlags_user (xperm : Nat) : (userFlags xperm).testBit 4 = true := by
  rw [userFlags, Nat.testBit_or, Nat.testBit_or, Nat.testBit_or,
    show pteU.testBit 4 = true from rfl]
  simp

theorem userFlags_plain {xperm : Nat} (plain : xperm.testBit 8 = false) :
    (userFlags xperm).testBit 8 = false := by
  rw [userFlags, Nat.testBit_or, Nat.testBit_or, plain]
  decide

theorem Building.uvmalloc {xperm : Nat} (building : Building layout node₀ books₀ live r sz hidden s)
    (root : r ∈ live) (small : xperm < 2 ^ 10) (plain : xperm.testBit 8 = false) :
    Meets (uvmalloc r sz newsz xperm) s (fun result u =>
      (result = 0 ∧ Building layout node₀ books₀ live r sz hidden u) ∨
      (result = max newsz sz ∧ Building layout node₀ books₀ live r result hidden u)) stops := by
  obtain ⟨node, books, sound, raised⟩ := building
  refine (uvmalloc_sound small sound root raised.fits).mono (fun result u outcome => ?_) fun _ => id
  rcases outcome with ⟨less, rfl, rfl⟩ | ⟨_, none, node', refused, after⟩ |
    ⟨more, rfl, _, node', books', grows, grown, fits', after⟩
  · exact .inr ⟨(max_eq_right less.le).symm, node, books, sound, raised⟩
  · exact .inl ⟨none, node', books, after,
      { raised with elsewhere := raised.elsewhere.trans refused.grows.others }⟩
  · exact .inr ⟨(max_eq_left more).symm, node', books', after,
      raised.grown grows grown fits' (userFlags_plain plain) (userFlags_user xperm)⟩

theorem Raised.page_of (raised : Raised node₀ books₀ r sz hidden node books) (inside : va < sz)
    (shown : va / pgsize ≠ hidden) : ∃ leaf, books.reach r va = some leaf := by
  have low := raised.fits.1
  have below : va / pgsize < pageCount sz := by
    rw [trapframe_eq, userPages_eq] at low
    unfold pageCount pgroundup pgsize at *
    dsimp only
    omega
  have user := below.trans_le (pageCount_le low)
  obtain ⟨leaf, here⟩ := (raised.fits.2 _).mpr (.inl below)
  refine ⟨leaf, reach_some.mpr ⟨?_, here, raised.reached here user shown⟩⟩
  rw [trapframe_eq, userPages_eq] at low
  rw [maxva_eq]
  unfold pgsize at low
  omega

theorem Raised.page (raised : Raised node₀ books₀ r sz userPages node books) (inside : va < sz) :
    ∃ leaf, books.reach r va = some leaf := by
  refine raised.page_of inside (Nat.ne_of_lt ?_)
  have low := raised.fits.1
  rw [trapframe_eq] at low
  exact Nat.div_lt_of_lt_mul (by rw [Nat.mul_comm]; omega)

theorem Building.load (building : Building layout node₀ books₀ live r sz userPages s)
    (root : r ∈ live) (aligned : va % pgsize = 0) :
    Meets (walkaddr r va) s (fun a u => u = s ∧ (a = 0 → sz ≤ va) ∧ (a ≠ 0 → ∀ n src, n ≤ pgsize →
      Building layout node₀ books₀ live r sz userPages
        { s with mem := copy s.mem a n src })) stops := by
  obtain ⟨node, books, sound, raised⟩ := building
  have start : pgrounddown va = va := by
    rw [pgrounddown, aligned, Nat.sub_zero]
  have found : Meets (walkaddr r (pgrounddown va)) s _ stops := walkaddr_reach sound.tables root
  rw [start] at found
  refine found.mono
    (fun a u outcome => ⟨outcome.2, fun zero => ?_, fun real n src few => ?_⟩) fun _ => id
  · by_contra inside
    obtain ⟨leaf, seen⟩ := raised.page (Nat.lt_of_not_le inside)
    obtain ⟨_, mapped, _⟩ := reach_some.mp seen
    have user := (sound.good.guarded r).below seen
    have found := outcome.1
    rw [seen, elim_some, zero] at found
    exact ((sound.tables.shows.accounts.mapped mapped).2 user).ne_zero found.symm
  · have found := outcome.1
    cases seen : books.reach r va with
    | none =>
      rw [seen] at found
      exact absurd found real
    | some leaf =>
      rw [seen, elim_some] at found
      subst found
      obtain ⟨_, mapped, _⟩ := reach_some.mp seen
      have user := (sound.good.guarded r).below seen
      have users := users_pos mapped (sound.tables.shows.accounts.mapped mapped).1 user
      have written : Sound layout { s with mem := copy s.mem (leaf.pa + 0) n src } live node _ :=
        sound.put (.inr users) (by omega)
      refine ⟨node, _, written, raised.data rfl rfl fun f use => ?_⟩
      exact update_of_ne (raised.apart sound.good mapped user use).symm _ _

theorem Building.small (building : Building layout node₀ books₀ live r sz hidden s) :
    sz < 2 ^ 63 := by
  obtain ⟨_, _, _, raised⟩ := building
  have low := raised.fits.1
  rw [trapframe_eq, userPages_eq] at low
  unfold pgsize at low
  omega

theorem loadPages_building {file : Nat → UInt8} {readable n i : Nat} (left : Nat)
    (building : Building layout node₀ books₀ live r sz userPages s) (root : r ∈ live)
    (aligned : va % pgsize = 0) (start : i % pgsize = 0) (rounds : left = pagesBelow i n)
    (missing : sz < va + n → stops .loadseg) :
    Meets (loadPages r va n file readable i left) s
      (fun _ u => Building layout node₀ books₀ live r sz userPages u) stops := by
  induction left generalizing i s with
  | zero =>
    rw [loadPages, meets_pure]
    exact building
  | succ left ih =>
    have small := building.small
    have more : i < n ∧ left = pagesBelow (i + pgsize) n := by
      unfold pagesBelow pgsize at *
      omega
    have whole : (va + i) % 2 ^ 64 % pgsize = 0 := by
      unfold pgsize at aligned start ⊢
      omega
    rw [loadPages]
    refine (building.load root whole).bind fun a u ⟨same, outside, next⟩ => ?_
    subst same
    split
    · rename_i zero
      have beyond := outside zero
      rw [meets_throw]
      refine missing ?_
      have less := Nat.mod_le (va + i) (2 ^ 64)
      omega
    · rename_i real
      dsimp only
      rw [meets_bind, meets_modify]
      have filled :=
        next real (min (min (n - i) pgsize) (readable - i)) (fun o => file (i + o)) (by omega)
      split
      · rw [meets_pure]
        exact filled
      · refine ih filled ?_ more.2
        unfold pgsize at start ⊢
        omega

theorem flags2perm_lt (flags : Nat) : flags2perm flags < 2 ^ 10 := by
  unfold flags2perm
  split <;> split <;> decide

theorem flags2perm_plain (flags : Nat) : (flags2perm flags).testBit 8 = false := by
  unfold flags2perm
  split <;> split <;> decide

theorem loadSegments_building {headers : List (Option Proghdr)}
    (building : Building layout node₀ books₀ live r sz userPages s) (root : r ∈ live)
    (missing : ∀ ph, some ph ∈ headers → ¬ ph.Word → stops .loadseg) :
    Meets (loadSegments r headers sz) s
      (fun result u => Building layout node₀ books₀ live r result.2 userPages u) stops := by
  induction headers generalizing sz s with
  | nil =>
    rw [loadSegments, meets_pure]
    exact building
  | cons header rest ih =>
    cases header with
    | none =>
      rw [loadSegments, meets_pure]
      exact building
    | some ph =>
      have later x (member : some x ∈ rest) : ¬ x.Word → stops .loadseg :=
        missing x (List.mem_cons_of_mem _ member)
      rw [loadSegments]
      split
      · exact ih building later
      split
      · rw [meets_pure]
        exact building
      rename_i sizes
      split
      · rw [meets_pure]
        exact building
      rename_i wraps
      split
      · rw [meets_pure]
        exact building
      rename_i aligned
      refine (building.uvmalloc root (flags2perm_lt ph.flags) (flags2perm_plain ph.flags)).bind
        fun sz1 u outcome => ?_
      split
      · rename_i zero
        rw [meets_pure]
        rcases outcome with ⟨_, same⟩ | ⟨above, grown⟩
        · exact same
        · obtain rfl : sz = sz1 := by omega
          exact grown
      · rename_i real
        rcases outcome with ⟨zero, _⟩ | ⟨above, grown⟩
        · exact absurd zero real
        -- a sum of words that wraps around is smaller than the address
        have load : Meets (loadseg r ph.vaddr ph.file ph.readable (ph.filesz % 2 ^ 32)) u _ stops :=
          loadPages_building _ grown root (not_not.mp aligned) rfl rfl fun outside =>
            missing ph List.mem_cons_self fun ⟨address, size⟩ => by
              have part := Nat.mod_le ph.filesz (2 ^ 32)
              omega
        refine load.bind fun loaded w filled => ?_
        split
        · rw [meets_pure]
          exact filled
        · exact ih filled later

theorem Building.copyout (building : Building layout node₀ books₀ live r sz hidden s)
    (root : r ∈ live) :
    Meets (copyout r va src len) s
      (fun _ u => Building layout node₀ books₀ live r sz hidden u) stops := by
  obtain ⟨node, books, sound, raised⟩ := building
  refine (copyout_meets sound.tables sound.paid root (sound.good.guarded r)
    fun shares => absurd shares raised.plain).mono
      (fun result u ⟨books', after, copies⟩ => ?_) fun _ => id
  obtain ⟨leaf, held, debt, data⟩ := copies.plain sound.good raised.plain
  refine ⟨node, books', ⟨after, debt.trans sound.paid, (copies.keeps sound.good).good⟩, ?_⟩
  exact raised.data leaf held fun f use => data f
    fun v x mapped user => raised.apart sound.good mapped user use

theorem pushArgs_building {stackbase sp : Nat} {ustack : List Nat}
    (building : Building layout node₀ books₀ live r sz hidden s) (root : r ∈ live) :
    Meets (pushArgs r stackbase argv ustack sp) s
      (fun _ u => Building layout node₀ books₀ live r sz hidden u) stops := by
  induction argv generalizing ustack sp s with
  | nil =>
    rw [pushArgs, meets_pure]
    exact building
  | cons arg rest ih =>
    rw [pushArgs]
    split
    · rw [meets_pure]
      exact building
    dsimp only
    split
    · rw [meets_pure]
      exact building
    refine (building.copyout root).bind fun result u copied => ?_
    split
    · rw [meets_pure]
      exact copied
    · exact ih copied

theorem Building.uvmclear (building : Building layout node₀ books₀ live r sz userPages s)
    (root : r ∈ live) (below : va < sz) :
    Meets (uvmclear r va) s
      (fun _ u => Building layout node₀ books₀ live r sz (va / pgsize) u) stops := by
  obtain ⟨node, books, sound, raised⟩ := building
  obtain ⟨leaf, seen⟩ := raised.page below
  obtain ⟨reachable, here, _⟩ := reach_some.mp seen
  refine (uvmclear_meets sound.tables root reachable ?_).mono (fun _ u after => ?_) fun _ => id
  · intro unmapped
    rw [here] at unmapped
    cases unmapped
  rw [here, map_some] at after
  have kept {r' v' : Nat} {leaf' : Leaf}
      (mapped : update books.leaf (r, va / pgsize) (some leaf.clear) (r', v') = some leaf') :
      (r', v') = (r, va / pgsize) ∧ leaf' = leaf.clear ∨
        (r', v') ≠ (r, va / pgsize) ∧ books.leaf (r', v') = some leaf' := by
    by_cases same : (r', v') = (r, va / pgsize)
    · rw [same, update_self] at mapped
      exact .inl ⟨same, (some.inj mapped).symm⟩
    · rw [update_of_ne same] at mapped
      exact .inr ⟨same, mapped⟩
  have weaker (k : Nat) (set : leaf.clear.flags.testBit k = true) :
      leaf.flags.testBit k = true := by
    simp only [Leaf.clear, Nat.testBit_ldiff, Bool.and_eq_true] at set
    exact set.1
  refine ⟨node, _, ⟨after, sound.paid, ?_⟩, raised.elsewhere, raised.held, raised.empty,
    raised.steady, fun name other => ?_, raised.fits.congr fun v => ?_, fun {v x} mapped user => ?_,
    ?_, fun {v x} mapped user other => ?_⟩
  · refine sound.good.within (fun {r' v' leaf'} mapped => ?_) fun _ => id
    rcases kept mapped with ⟨same, rfl⟩ | ⟨_, there⟩
    · exact ⟨leaf, same ▸ here, rfl, fun _ => ⟨weaker 4, weaker 8⟩, weaker 2⟩
    · exact ⟨leaf', there, rfl, fun _ => ⟨id, id⟩, id⟩
  · dsimp only
    rw [update_of_ne fun same => other (by rw [same])]
    exact raised.others name other
  · dsimp only
    by_cases same : v = va / pgsize
    · subst same
      simp [here]
    · rw [update_of_ne fun both => same (congrArg Prod.snd both)]
  · rcases kept mapped with ⟨same, rfl⟩ | ⟨_, there⟩
    · have fresh := raised.fresh here
      cases same
      exact fresh user
    · exact raised.fresh there user
  · rintro ⟨v, x, mapped, shared⟩
    rcases kept mapped with ⟨_, rfl⟩ | ⟨_, there⟩
    · exact raised.plain ⟨_, leaf, here, weaker 8 shared⟩
    · exact raised.plain ⟨v, x, there, shared⟩
  · rcases kept mapped with ⟨same, _⟩ | ⟨_, there⟩
    · exact absurd (congrArg Prod.snd same) other
    · exact raised.reached there user user.ne

theorem pushStack_building (building : Building layout node₀ books₀ live r sz userPages s)
    (root : r ∈ live) (high : 2 * pgsize ≤ sz) :
    Meets (pushStack r sz argv) s
      (fun _ u => ∃ hidden, Building layout node₀ books₀ live r sz hidden u) stops := by
  have low := building.small
  have guard : (sz + 2 ^ 64 - 2 * pgsize) % 2 ^ 64 < sz := by
    unfold pgsize at high ⊢
    omega
  rw [pushStack]
  refine (building.uvmclear root guard).bind fun _ u cleared => ?_
  dsimp only
  refine (pushArgs_building cleared root).bind fun result w filled => ?_
  split
  · rw [meets_pure]
    exact ⟨_, filled⟩
  split
  · rw [meets_pure]
    exact ⟨_, filled⟩
  refine (filled.copyout root).bind fun result x copied => ?_
  split <;> rw [meets_pure] <;> exact ⟨_, copied⟩

theorem Building.round (building : Building layout node₀ books₀ live r sz hidden s) :
    Building layout node₀ books₀ live r (pgroundup sz) hidden s := by
  obtain ⟨node, books, sound, raised⟩ := building
  have low := raised.fits.1
  have same : pageCount (pgroundup sz) = pageCount sz ∧ pgroundup sz ≤ trapframe := by
    rw [trapframe_eq, userPages_eq] at low ⊢
    unfold pageCount pgroundup pgsize at *
    dsimp only
    omega
  refine ⟨node, books, sound, raised.elsewhere, raised.held, raised.empty, raised.steady,
    raised.others, ⟨same.2, ?_⟩, raised.fresh, raised.plain, raised.reached⟩
  rw [same.1]
  exact raised.fits.2

theorem buildImage_building {image : Image}
    (building : Building layout node₀ books₀ live r 0 userPages s) (root : r ∈ live)
    (missing : ∀ ph, some ph ∈ image.headers → ¬ ph.Word → stops .loadseg) :
    Meets (buildImage r image argv) s
      (fun result u => ∃ hidden, Building layout node₀ books₀ live r result.2 hidden u) stops := by
  rw [buildImage]
  refine (loadSegments_building building root missing).bind fun result u loaded => ?_
  dsimp only
  split
  · rw [meets_pure]
    exact ⟨_, loaded⟩
  have rounded := loaded.round
  have small := rounded.small
  refine (rounded.uvmalloc root (by decide) (by decide)).bind fun sz1 w outcome => ?_
  split
  · rename_i zero
    rw [meets_pure]
    rcases outcome with ⟨_, same⟩ | ⟨above, grown⟩
    · exact ⟨_, same⟩
    · rw [show sz1 = pgroundup result.2 by omega] at grown
      exact ⟨_, grown⟩
  · rename_i real
    rcases outcome with ⟨zero, _⟩ | ⟨enough, grown⟩
    · exact absurd zero real
    refine (pushStack_building grown root ?_).bind fun stack x done => ?_
    · unfold pgsize at enough ⊢
      omega
    · rw [meets_pure]
      exact done

theorem Building.start {pt : Nat} {node' : Nodes} (empty : ∀ v, books.leaf (pt, v) = none)
    (elsewhere : Nodes.Elsewhere pt node node')
    (after : Sound layout s (insert pt live) node' (books.launch pt layout.trampolineLeaf leaf)) :
    Building layout node books (insert pt live) pt 0 userPages s := by
  have spans := launch_spans (r := pt) empty layout.trampolineLeaf leaf
  have special {v : Nat} {x : Leaf}
      (mapped : (books.launch pt layout.trampolineLeaf leaf).leaf (pt, v) = some x) :
        userPages ≤ v := by
    have := (spans v).mp ⟨x, mapped⟩
    omega
  refine ⟨node', _, after, elsewhere, rfl, empty, fun _ _ => rfl, fun name other => ?_,
    ⟨Nat.zero_le _, spans⟩, fun mapped user => ?_, ?_, fun mapped user => ?_⟩
  · have (k : Nat) : name ≠ (pt, k) := fun same => other (by rw [same])
    simp only [launch, update_of_ne (this _)]
  · exact absurd user (Nat.not_lt.mpr (special mapped))
  · rintro ⟨v, x, mapped, shared⟩
    rw [(after.good.guarded pt v x mapped (special mapped)).2] at shared
    cases shared
  · exact absurd user (Nat.not_lt.mpr (special mapped))

/-- The last steps of `exec`: the registers are set and the old address space is freed. -/
theorem commit_sound (argc : Int) (pt sz sp entry : Nat) (sound : Sound layout s live node books)
    (root : p.pagetable ∈ live) (tf : p.trapframe ∈ books.held)
    (fits : books.Fits p.pagetable p.sz) :
    Meets (do
      storeWord (p.trapframe + tfA1) sp
      storeWord (p.trapframe + tfEpc) entry
      storeWord (p.trapframe + tfSp) sp
      procFreepagetable p.pagetable p.sz
      return (argc, ({ p with pagetable := pt, sz := sz } : Proc))) s
      (fun result u => result = (argc, { p with pagetable := pt, sz := sz }) ∧ ∃ node' books',
        Sound layout u (live.erase p.pagetable) node' books' ∧ books'.held = books.held ∧
        (∀ r v, r ≠ p.pagetable → books'.leaf (r, v) = books.leaf (r, v)) ∧
        (∀ x, x ≠ p.trapframe → books'.data x = books.data x) ∧ s.spare layout ≤ u.spare layout ∧
        load u.mem (p.trapframe + tfA1) 8 = sp % 256 ^ 8 ∧
        load u.mem (p.trapframe + tfSp) 8 = sp % 256 ^ 8) stops := by
  have store (k : Kmem) (books' : Books) (off value : Nat) (inside : off + 8 ≤ pgsize)
      (same : SameBut p.trapframe books books') (sound' : Sound layout k live node books')
      (counts : k.numpUsing = s.numpUsing) :
      Meets (storeWord (p.trapframe + off) value) k (fun _ u => ∃ books'',
        SameBut p.trapframe books books'' ∧ Sound layout u live node books'' ∧
        u.numpUsing = s.numpUsing ∧
        u.mem = Foundation.store k.mem (p.trapframe + off) 8 value) stops := by
    have tf' : p.trapframe ∈ books'.held := by
      rw [same.2.1]
      exact tf
    have still :
      Meets (storeWord (p.trapframe + off) value) k (fun _ u => u.numpUsing = s.numpUsing ∧
        u.mem = Foundation.store k.mem (p.trapframe + off) 8 value)
          fun _ => True := meets_storeWord.mpr ⟨counts, rfl⟩
    refine ((storeWord_sound sound' tf' inside).and still).mono
      (fun _ u ⟨⟨books'', next, after⟩, counts', stored⟩ => ?_) fun _ => id
    exact ⟨books'', same.trans next, after, counts', stored⟩
  refine (store s books tfA1 sp (by decide) ⟨rfl, rfl, fun _ _ => rfl⟩ sound rfl).bind
    fun _ k₁ ⟨books₁, same₁, sound₁, counts₁, mem₁⟩ => ?_
  refine (store k₁ books₁ tfEpc entry (by decide) same₁ sound₁ counts₁).bind
    fun _ k₂ ⟨books₂, same₂, sound₂, counts₂, mem₂⟩ => ?_
  refine (store k₂ books₂ tfSp sp (by decide) same₂ sound₂ counts₂).bind
    fun _ k₃ ⟨books₃, ⟨leaf, held, data⟩, sound₃, counts₃, mem₃⟩ => ?_
  have fits₃ : books₃.Fits p.pagetable p.sz := fits.congr fun v => by rw [leaf]
  refine ((procFreepagetable_sound sound₃ root fits₃).and
    (Lowers.procFreepagetable p.pagetable p.sz k₃)).bind
    fun _ u ⟨⟨node', _, after⟩, lower⟩ => ?_
  have tf₃ : p.trapframe ∈ books₃.held := by
    rw [held]
    exact tf
  have word (off : Nat) (inside : off + 8 ≤ pgsize) :
      load u.mem (p.trapframe + off) 8 = load k₃.mem (p.trapframe + off) 8 := by
    refine load_congr fun x low high => ?_
    obtain ⟨o, rfl⟩ := Nat.exists_eq_add_of_le ((Nat.le_add_right p.trapframe off).trans low)
    exact (after.byte (.inl tf₃) (by omega)).trans (sound₃.byte (.inl tf₃) (by omega)).symm
  refine meets_pure.mpr ⟨rfl, node', _, after, held, fun r v other => ?_, data, ?_, ?_, ?_⟩
  · unfold Books.discard
    dsimp only
    rw [if_neg other, leaf]
  · refine Kmem.spare_le fun pa page free => ?_
    have low := lower (pa / pgsize)
    rw [counts₃, free] at low
    exact le_antisymm low (after.tables.shows.accounts.nonneg page)
  · rw [word tfA1 (by decide), mem₃, load_store_other (by unfold tfSp tfA1; omega), mem₂,
      load_store_other (by unfold tfEpc tfA1; omega), mem₁, load_store_mod]
  · rw [word tfSp (by decide), mem₃, load_store_mod]

/-- A call that fails leaves everything as it was that was in use. -/
def Untouched (layout : Layout) (live : Finset Nat) (node : Nodes) (books : Books) (u : Kmem) :
    Prop :=
  ∃ books', Sound layout u live node books' ∧ books'.leaf = books.leaf ∧ books'.held = books.held ∧
    ∀ f, f ∈ books.held ∨ 0 < books.users f → books'.data f = books.data f

/-- The process has a new address space, and nothing else is different but its trapframe. -/
structure Replaced (live : Finset Nat) (books : Books) (p q : Proc) (live' : Finset Nat)
    (books' : Books) : Prop where
  held : books'.held = books.held
  steady : ∀ f ∈ books.held, f ≠ p.trapframe → books'.data f = books.data f
  alive : q.pagetable ∈ live'
  new : q.pagetable ∉ live
  others : ∀ r ∈ live, r ≠ p.pagetable → r ∈ live' ∧ ∀ v, books'.leaf (r, v) = books.leaf (r, v)
  back : ∀ r ∈ live', r = q.pagetable ∨ r ∈ live ∧ r ≠ p.pagetable
  fits : books'.Fits q.pagetable q.sz

section

variable (sound : Sound layout s live node books)

include sound

theorem exec_outcome {image : Option Image} (root : p.pagetable ∈ live)
    (tf : p.trapframe ∈ books.held) (fits : books.Fits p.pagetable p.sz)
    (missing : ∀ file ph, image = some file → some ph ∈ file.headers → ¬ ph.Word → stops .loadseg) :
    Meets (p.exec layout image argv) s (fun result u =>
      (result = (-1, p) ∧ Untouched layout live node books u) ∨
      (0 ≤ result.1 ∧ result.2.trapframe = p.trapframe ∧
        ∃ live' node' books', Sound layout u live' node' books' ∧
        Replaced live books p result.2 live' books')) stops := by
  cases image with
  | none =>
    rw [Proc.exec, meets_pure]
    exact .inl ⟨rfl, books, sound, rfl, rfl, fun _ _ => rfl⟩
  | some image =>
    rw [Proc.exec]
    refine (procPagetable_sound sound tf).bind fun pt u outcome => ?_
    rcases outcome with ⟨zero, _, after⟩ | ⟨_, real, new, empty, node', leaf, _, elsewhere, after⟩
    · rw [if_pos zero, meets_pure]
      exact .inl ⟨rfl, books, after, rfl, rfl, fun _ _ => rfl⟩
    rw [if_neg real]
    have apart : p.pagetable ≠ pt := by
      rintro rfl
      exact new root
    have alive := mem_insert_self pt live
    refine (buildImage_building (.start empty elsewhere after) alive
      fun ph => missing image ph rfl).bind
      fun result w built => ?_
    obtain ⟨hidden, node₁, books₁, sound₁, raised⟩ := built
    obtain ⟨outcome, sz⟩ := result
    cases outcome with
    | none =>
      dsimp only
      refine (procFreepagetable_sound sound₁ alive raised.fits).bind
        fun _ x ⟨node₂, frees, done⟩ => ?_
      rw [meets_pure]
      rw [erase_insert new] at done
      rw [sound.tables.nodes_eq done.tables new (raised.elsewhere.trans frees)] at done
      refine .inl ⟨rfl, _, done, ?_, raised.held, raised.steady⟩
      funext name
      obtain ⟨r, v⟩ := name
      unfold Books.discard
      dsimp only
      by_cases here : r = pt
      · rw [if_pos here, here]
        exact (empty v).symm
      · rw [if_neg here]
        exact raised.others (r, v) here
    | some stack =>
      obtain ⟨argc, sp⟩ := stack
      dsimp only
      have others := raised.others
      have oldFits : books₁.Fits p.pagetable p.sz := fits.congr fun v => by rw [others _ apart]
      refine (commit_sound _ _ _ _ _ sound₁ (mem_insert_of_mem root)
        (by rw [raised.held]; exact tf) oldFits).mono
        (fun result y ⟨same, node₂, books₂, done, held', leaf, data, _⟩ => ?_) fun _ => id
      subst same
      refine .inr ⟨Int.natCast_nonneg argc, rfl, _, node₂, books₂, done, held'.trans raised.held,
        fun f member other => (data f other).trans (raised.steady f (.inl member)), ?_, new,
        fun r member other => ⟨?_, fun v => ?_⟩, fun r member => ?_, ?_⟩
      · exact mem_erase.mpr ⟨apart.symm, alive⟩
      · exact mem_erase.mpr ⟨other, mem_insert_of_mem member⟩
      · rw [leaf r v other]
        refine others (r, v) ?_
        rintro rfl
        exact new member
      · obtain ⟨other, inserted⟩ := mem_erase.mp member
        exact (mem_insert.mp inserted).imp_right fun old => ⟨old, other⟩
      · exact raised.fits.congr fun v => by rw [leaf pt v apart.symm]

theorem exec_sound {image : Option Image} (root : p.pagetable ∈ live)
    (tf : p.trapframe ∈ books.held)
    (fits : books.Fits p.pagetable p.sz) (missing : stops .loadseg) :
    Meets (p.exec layout image argv) s (fun result u => result.2.trapframe = p.trapframe ∧
      ∃ live' node' books', Sound layout u live' node' books' ∧ books'.held = books.held ∧
        (∀ f ∈ books.held, f ≠ p.trapframe → books'.data f = books.data f) ∧
        result.2.pagetable ∈ live' ∧
        (result.2.pagetable = p.pagetable ∨ result.2.pagetable ∉ live) ∧
        (∀ r ∈ live, r ≠ p.pagetable → r ∈ live' ∧ ∀ v, books'.leaf (r, v) = books.leaf (r, v)) ∧
        (∀ r ∈ live', r = result.2.pagetable ∨ r ∈ live ∧ r ≠ p.pagetable) ∧
        books'.Fits result.2.pagetable result.2.sz) stops := by
  refine (exec_outcome sound root tf fits fun _ _ _ _ _ => missing).mono
    (fun result u outcome => ?_) fun _ => id
  rcases outcome with
    ⟨rfl, books', after, leaf, held, steady⟩ | ⟨_, same, live', node', books', after, replaced⟩
  · refine ⟨rfl, live, node, books', after, held, fun f member _ => steady f (.inl member),
      root, .inl rfl, fun r alive _ => ⟨alive, fun v => by rw [leaf]⟩,
      fun r alive => (eq_or_ne r p.pagetable).imp_right fun other => ⟨alive, other⟩,
      fits.congr fun v => by rw [leaf]⟩
  · exact ⟨same, live', node', books', after, replaced.held, replaced.steady, replaced.alive,
      .inr replaced.new, replaced.others, replaced.back, replaced.fits⟩

/-- An image that is built replaces the old address space and stays as it is. -/
theorem exec_finish {image : Image} {pt argc sp : Nat} {k₁ k₂ : Kmem}
    (root : p.pagetable ∈ live) (tf : p.trapframe ∈ books.held)
    (fits : books.Fits p.pagetable p.sz) (made : procPagetable layout p.trapframe s = .ok (pt, k₁))
    (real : pt ≠ 0) (built : buildImage pt image argv k₁ = .ok ((some (argc, sp), sz), k₂)) :
    ∃ k₃ node₂ books₂ node₃ books₃,
      p.exec layout (some image) argv s = .ok ((argc, { p with pagetable := pt, sz := sz }), k₃) ∧
      Sound layout k₂ (insert pt live) node₂ books₂ ∧
      Sound layout k₃ ((insert pt live).erase p.pagetable) node₃ books₃ ∧ pt ≠ p.pagetable ∧
      books₂.held = books.held ∧
      k₂.spare layout ≤ k₃.spare layout ∧ (∀ v, books₃.leaf (pt, v) = books₂.leaf (pt, v)) ∧
      ∀ x, x ≠ p.trapframe → books₃.data x = books₂.data x := by
  have start : Meets (procPagetable layout p.trapframe) s _ fun _ => True :=
    procPagetable_sound sound tf
  rcases start.result made with ⟨zero, _⟩ | ⟨_, _, new, empty, node₁, leaf, _, elsewhere, launched⟩
  · exact absurd zero real
  have apart : p.pagetable ≠ pt := by
    rintro rfl
    exact new root
  have building : Meets (buildImage pt image argv) k₁ _ fun _ => True :=
    buildImage_building (.start empty elsewhere launched) (mem_insert_self pt live)
      fun _ _ _ => trivial
  obtain ⟨_, node₂, books₂, sound₂, raised⟩ := building.result built
  have held := raised.held
  have others := raised.others
  have oldFits : books₂.Fits p.pagetable p.sz := fits.congr fun v => by rw [others _ apart]
  have commit : Meets _ k₂ _ fun _ => False :=
    commit_sound argc pt sz sp image.entry sound₂ (mem_insert_of_mem root)
      (by rw [held]; exact tf) oldFits
  obtain ⟨_, k₃, ended, rfl, node₃, books₃, sound₃, _, leaf, data, spare, _⟩ := commit.ends
  refine ⟨k₃, node₂, books₂, node₃, books₃, ?_, sound₂, sound₃, apart.symm, held, spare,
    fun v => leaf pt v apart.symm, data⟩
  rw [← ended, Proc.exec]
  simp only [bind, StateT.bind, made, Except.bind, if_neg real, built]

end

end Image

end EnhancedXv6.Memory
