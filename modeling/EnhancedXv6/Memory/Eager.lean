import EnhancedXv6.Memory.Isolation

/-! A system in which `fork` copies every page at once, and that the system with shared pages
refines it. -/

namespace EnhancedXv6.Memory

open Foundation Function Books
open Option hiding or

variable {child va sp off r v v₀ sz : Nat} {leaf leaf' : Leaf} {byte : UInt8} {event : Event}

section Reference

@[ext]
structure PrivatePage where
  bytes : Fin pgsize → UInt8
  readable : Bool
  writable : Bool
  user : Bool

@[ext]
structure PrivateSpace where
  sz : Nat
  page : Nat → Option PrivatePage

/-- The processes, and what the last call has returned. -/
@[ext]
structure Eager where
  procs : Nat → Option PrivateSpace
  result : Int

def pageOffset (va : Nat) : Fin pgsize := ⟨va % pgsize, Nat.mod_lt va (by decide)⟩

def zeroPage : PrivatePage where
  bytes _ := 0
  readable := true
  writable := true
  user := true

def PrivateSpace.load (space : PrivateSpace) (va : Nat) : Option UInt8 :=
  ((space.page (va / pgsize)).filter fun page => page.user && page.readable).map
    fun page => page.bytes (pageOffset va)

/-- A store is refused with `none`. -/
def PrivateSpace.store (space : PrivateSpace) (va : Nat) (byte : UInt8) : Option PrivateSpace :=
  ((space.page (va / pgsize)).filter fun page => page.user && page.writable).map fun page =>
    let written := { page with bytes := Function.update page.bytes (pageOffset va) byte }
    { space with page := Function.update space.page (va / pgsize) (some written) }

/-- New pages are zeroed, and the pages beyond the new size are gone. -/
def PrivateSpace.resize (space : PrivateSpace) (n : Int) : PrivateSpace where
  sz := resized space.sz n
  page v :=
    if v < pageCount (resized space.sz n) then
      if v < pageCount space.sz then space.page v else some zeroPage
    else none

def Eager.set (e : Eager) (p : Nat) (space : Option PrivateSpace) (result : Int) : Eager :=
  ⟨Function.update e.procs p space, result⟩

/-- The calls of the reference system; a child gets its own copy of every page. -/
def Eager.step (e : Eager) : Event → Option Eager
  | .fork p child =>
      if (e.procs child).isNone then
        (e.procs p).map fun space => e.set child (some space) child
      else
        none
  | .store p va _ byte => (e.procs p).map fun space =>
      match space.store va byte with
      | some space' => e.set p (some space') 0
      | none => { e with result := -1 }
  | .sbrk p n => (e.procs p).map fun space => e.set p (some (space.resize n)) space.sz
  | .reap p => (e.procs p).map fun _ => e.set p none 0
  | .kalloc | .kfree _ | .fill _ _ _ | .userinit _ _ | .exec _ _ _ | .copyout _ _ _ _ => none

section Steps

variable {e : Eager} {p : Nat} {space space' : PrivateSpace}

theorem Eager.step_fork (vacant : e.procs child = none) (here : e.procs p = some space) :
    e.step (.fork p child) = some (e.set child (some space) child) := by
  simp only [step, vacant, here, isNone_none, if_true, map_some]

theorem Eager.step_stored (here : e.procs p = some space)
    (stored : space.store va byte = some space') :
    e.step (.store p va sp byte) = some (e.set p (some space') 0) := by
  simp only [step, here, map_some, stored]

theorem Eager.step_refused (here : e.procs p = some space) (refused : space.store va byte = none) :
    e.step (.store p va sp byte) = some { e with result := -1 } := by
  simp only [step, here, map_some, refused]

theorem Eager.step_sbrk (n : Int) (here : e.procs p = some space) :
    e.step (.sbrk p n) = some (e.set p (some (space.resize n)) space.sz) := by
  simp only [step, here, map_some]

theorem Eager.step_reap (here : e.procs p = some space) :
    e.step (.reap p) = some (e.set p none 0) := by
  simp only [step, here, map_some]

end Steps

def Eager.load (e : Eager) (p va : Nat) : Option UInt8 :=
  (e.procs p).bind fun space => space.load va

def Eager.page (e : Eager) (p v : Nat) : Option PrivatePage :=
  (e.procs p).bind fun space => space.page v

end Reference

section Abstraction

/-- What a page-table entry gives to a process, with a page that is to be copied on a write as one
that can be written. -/
def Kmem.privatePage (k : Kmem) (pagetable v : Nat) : Option PrivatePage :=
  let pte := k.pteOf pagetable (v * pgsize)
  if pte &&& pteV ≠ 0 then
    some
      { bytes := fun o => k.mem (pte2pa pte + o)
        readable := decide (pte &&& pteR ≠ 0)
        writable := decide (pte &&& pteW ≠ 0) || decide (pte &&& pteCow ≠ 0)
        user := decide (pte &&& pteU ≠ 0) }
  else none

/-- The reference state in which every process has its own copies. -/
def System.eager (s : System) : Eager where
  procs p := (s.procs p).map fun q =>
    { sz := q.sz
      page := fun v => if v < userPages then s.kmem.privatePage q.pagetable v else none }
  result := s.result

def System.load (s : System) (p va : Nat) : Option UInt8 :=
  (s.procs p).bind fun q =>
    match userLoad q.pagetable va s.kmem with
    | .ok (byte, _) => byte
    | .error _ => none

/-- A page of a process that may not be written, now or after a copy. -/
def System.ReadOnly (s : System) (p v : Nat) : Prop :=
  ∃ q, s.procs p = some q ∧ v < userPages ∧ s.kmem.pteOf q.pagetable (v * pgsize) &&& pteV ≠ 0 ∧
    s.kmem.pteOf q.pagetable (v * pgsize) &&& pteW = 0 ∧
    s.kmem.pteOf q.pagetable (v * pgsize) &&& pteCow = 0

def System.Mapped (s : System) (p v : Nat) : Prop :=
  ∃ q, s.procs p = some q ∧ v < userPages ∧ s.kmem.pteOf q.pagetable (v * pgsize) &&& pteV ≠ 0

/-- The calls that the reference system has: a `fork` or `sbrk` that succeeds, a store to a mapped
page, with a page to copy it to if it is shared, and a teardown. -/
def System.Plain (layout : Layout) (s : System) (event : Event) : Prop :=
  match event with
  | .fork _ _ | .sbrk _ _ => ∃ t, s.step layout event = some t ∧ t.result ≠ -1
  | .store p va sp _ => sp < 2 ^ 64 ∧ ∃ q, s.procs p = some q ∧ va / pgsize < userPages ∧
      s.kmem.pteOf q.pagetable va &&& pteV ≠ 0 ∧
      (s.kmem.pteOf q.pagetable va &&& pteCow ≠ 0 → s.kmem.freelist ≠ 0)
  | .reap p => ∃ q, s.procs p = some q
  | _ => False

/-- A page that may not be written stays so as long as it is mapped, and in a child too. -/
def System.KeepsReadOnly (layout : Layout) (s : System) (event : Event) : Prop :=
  ∀ t, s.step layout event = some t → ∀ p v, s.ReadOnly p v →
    (t.Mapped p v → t.ReadOnly p v) ∧ ∀ child, event = .fork p child → t.ReadOnly child v

end Abstraction

section Pages

variable {layout : Layout} {k : Kmem} {live : Finset Nat} {node : Nodes} {books books' : Books}
  {r r' v sz : Nat}

def Books.page (books : Books) (leaf : Leaf) : PrivatePage where
  bytes o := books.data leaf.pa o
  readable := leaf.flags.testBit 1
  writable := leaf.flags.testBit 2 || leaf.flags.testBit 8
  user := leaf.flags.testBit 4

def Books.space (books : Books) (r sz : Nat) : PrivateSpace where
  sz := sz
  page v := if v < userPages then (books.leaf (r, v)).map books.page else none

theorem Sound.privatePage_eq (sound : Sound layout k live node books) (root : r ∈ live)
    (user : v < userPages) : k.privatePage r v = (books.leaf (r, v)).map books.page := by
  have low : v * pgsize < maxva := by
    rw [userPages_eq] at user
    rw [maxva_eq]
    unfold pgsize
    omega
  have number : v * pgsize / pgsize = v := Nat.mul_div_cancel v (by decide)
  unfold Kmem.privatePage
  rw [sound.tables.pteOf_eq root, if_pos low, number]
  cases here : books.leaf (r, v) with
  | none => rfl
  | some leaf =>
    have users := users_pos here (sound.tables.shows.accounts.mapped here).1 user
    have flag (b : Nat) (small : b < 10) :
        decide (leaf.pte &&& 1 <<< b ≠ 0) = leaf.flags.testBit b := by
      rw [Bool.eq_iff_iff, decide_eq_true_iff]
      exact leaf.pte_test small
    rw [elim_some, if_pos leaf.pte_valid, map_some, some_inj]
    refine PrivatePage.ext (funext fun o => ?_) (flag 1 (by decide))
      (congrArg₂ or (flag 2 (by decide)) (flag 8 (by decide))) (flag 4 (by decide))
    change k.mem (pte2pa leaf.pte + o) = books.data leaf.pa o
    rw [leaf.pte_pa]
    exact sound.byte (.inr users) o.isLt

theorem Books.space_congr (same : ∀ v, v < userPages →
    (books'.leaf (r', v)).map books'.page = (books.leaf (r, v)).map books.page) :
    books'.space r' sz = books.space r sz := by
  unfold space
  congr
  funext v
  split
  · rename_i user
    exact same v user
  · rfl

theorem Books.page_congr (same : books'.data leaf.pa = books.data leaf.pa) :
    books'.page leaf = books.page leaf := by
  unfold page
  rw [same]

theorem Books.page_cow (books : Books) (leaf : Leaf) : books.page leaf.cow = books.page leaf := by
  have flags : leaf.cow.flags =
      if leaf.flags &&& pteW ≠ 0 then Nat.ldiff leaf.flags pteW ||| pteCow else leaf.flags := rfl
  unfold page
  rw [leaf.cow_pa, flags]
  split
  · rename_i writes
    have writable : leaf.flags.testBit 2 = true := testBit_flag.mp writes
    have bit (b : Nat) : (Nat.ldiff leaf.flags pteW ||| pteCow).testBit b =
        (leaf.flags.testBit b && !pteW.testBit b || pteCow.testBit b) := by
      rw [Nat.testBit_or, Nat.testBit_ldiff]
    have others (b : Nat) (plain : pteW.testBit b = false ∧ pteCow.testBit b = false) :
        (Nat.ldiff leaf.flags pteW ||| pteCow).testBit b = leaf.flags.testBit b := by
      rw [bit, plain.1, plain.2, Bool.not_false, Bool.and_true, Bool.or_false]
    rw [others 1 (by decide), others 4 (by decide), bit 8, writable,
      show pteCow.testBit 8 = true from rfl, Bool.or_true, Bool.or_true, Bool.true_or]
  · rfl

theorem Books.page_own (flags : leaf'.flags = Nat.ldiff leaf.flags pteCow ||| pteW)
    (shared : leaf.flags.testBit 8 = true) (data : books'.data leaf'.pa = books.data leaf.pa) :
    books'.page leaf' = books.page leaf := by
  unfold page
  rw [data, flags, testBit_own, testBit_own, testBit_own, testBit_own, shared]
  simp

theorem Sound.pa_ne {pa : Nat} (sound : Sound layout k live node books)
    (unmapped : books.users pa = 0)
    (here : books.leaf (r, v) = some leaf) (user : v < userPages) : leaf.pa ≠ pa :=
  sound.tables.unmapped unmapped here user

theorem Books.Private.space_eq (own : books.Private r v leaf books' leaf')
    (here : books.leaf (r, v) = some leaf) (r' sz : Nat) :
    books'.space r' sz = books.space r' sz := by
  rcases own with ⟨_, _, rfl⟩ | ⟨shared, flags, _, fresh, rfl⟩
  · rfl
  · refine space_congr fun w user => ?_
    have copy : (books.unshare r v leaf leaf').data leaf'.pa = books.data leaf.pa :=
      update_self _ _ _
    by_cases same : (r', w) = (r, v)
    · have now : (books.unshare r v leaf leaf').leaf (r, v) = some leaf' := update_self _ _ _
      rw [same, now, here, map_some, map_some, page_own flags shared copy]
    · have kept : (books.unshare r v leaf leaf').leaf (r', w) = books.leaf (r', w) :=
        update_of_ne same _ _
      rw [kept]
      refine map_congr fun x there => page_congr ?_
      exact update_of_ne (fresh r' w x there user) _ _

theorem Books.put_page_other {x : Leaf} {n : Nat} {src : Nat → UInt8} (other : x.pa ≠ leaf.pa) :
    (books.put leaf.pa off n src).page x = books.page x :=
  page_congr (update_of_ne other _ _)

/-- A byte that is written to a page of one address space is seen in no other one. -/
theorem Books.put_space_other {n : Nat} {src : Nat → UInt8} (good : books.Good)
    (user : v < userPages) (here : books.leaf (r, v) = some leaf)
    (writes : leaf.flags.testBit 2 = true) (other : r' ≠ r)
    (sz : Nat) : (books.put leaf.pa off n src).space r' sz = books.space r' sz := by
  refine space_congr fun w below => map_congr fun x there => put_page_other fun same => ?_
  exact other (good.owned user below here there writes same.symm).symm

theorem Books.put_space (good : books.Good) (user : va / pgsize < userPages)
    (here : books.leaf (r, va / pgsize) = some leaf) (writes : leaf.flags.testBit 2 = true)
    (visible : leaf.flags.testBit 4 = true) (sz : Nat) :
    (books.space r sz).store va byte =
      some ((books.put leaf.pa (va % pgsize) 1 fun _ => byte).space r sz) := by
  have page : (books.space r sz).page (va / pgsize) = some (books.page leaf) := by
    unfold space
    dsimp only
    rw [if_pos user, here, map_some]
  have allowed : ((books.page leaf).user && (books.page leaf).writable) = true := by
    unfold Books.page
    rw [visible, writes]
    rfl
  unfold PrivateSpace.store
  rw [page, filter_some, if_pos allowed, map_some, some_inj]
  refine PrivateSpace.ext rfl (funext fun w => ?_)
  dsimp only
  by_cases same : w = va / pgsize
  · subst same
    rw [update_self]
    unfold space
    dsimp only
    rw [if_pos user]
    change _ = (books.leaf (r, va / pgsize)).map _
    rw [here, map_some, some_inj]
    refine PrivatePage.ext (funext fun o => ?_) rfl rfl rfl
    change update (books.page leaf).bytes (pageOffset va) byte o =
      update books.data leaf.pa _ leaf.pa o
    rw [update_self]
    by_cases there : o = pageOffset va
    · rw [there, update_self, if_pos (by simp [pageOffset])]
    · rw [update_of_ne there, if_neg fun inside => there (Fin.ext ?_)]
      · rfl
      · change o.val = va % pgsize
        omega
  · rw [update_of_ne same]
    unfold space
    dsimp only
    split
    · rename_i below
      refine map_congr fun x there => (put_page_other fun equal => same ?_).symm
      exact good.apart below user there here equal
    · rfl

end Pages

section Simulation

variable {layout : Layout} {s t : System} {k : Kmem} {live : Finset Nat} {tfs : Multiset Nat}
  {node : Nodes} {books books' : Books} {p : Nat} {q np : Proc}

theorem Sound.eager_eq (sound : Sound layout s.kmem live node books)
    (alive : ∀ {p q}, s.procs p = some q → q.pagetable ∈ live) :
    s.eager = ⟨fun p => (s.procs p).map fun q => books.space q.pagetable q.sz, s.result⟩ := by
  unfold System.eager
  congr
  funext p
  refine map_congr fun q here => ?_
  unfold space
  congr
  funext v
  split
  · rename_i user
    exact sound.privatePage_eq (alive here) user
  · rfl

theorem System.Shows.procs_eq (shows : s.Shows layout live tfs node books) (p : Nat) :
    s.eager.procs p = (s.procs p).map fun q => books.space q.pagetable q.sz := by
  rw [shows.sound.eager_eq fun there => (shows.proc there).1]

theorem System.Shows.space_eq (shows : s.Shows layout live tfs node books)
    (here : s.procs p = some q) : s.eager.procs p = some (books.space q.pagetable q.sz) := by
  rw [shows.procs_eq, here, map_some]

section

variable (forked : Forked layout books books' q np)

include forked

section

variable (sound : Sound layout k live node books)

include sound

theorem Forked.data_eq (here : books.leaf (r, v) = some leaf) (user : v < userPages) :
    books'.data leaf.pa = books.data leaf.pa := by
  obtain ⟨first, launched, _⟩ := forked.launched
  exact forked.data _ (sound.pa_ne launched.unmapped here user)

/-- The address spaces that were there look the same after `fork`. -/
theorem Forked.space_old (apart : r ≠ np.pagetable) (sz : Nat) :
    books'.space r sz = books.space r sz := by
  refine space_congr fun v user => ?_
  obtain ⟨first, launched, leaves⟩ := forked.launched
  have before : first.leaf (r, v) = books.leaf (r, v) := launched.others _ apart
  rw [leaves]
  unfold copied cowed
  dsimp only
  rw [if_neg fun both => apart both.1, before]
  split
  · rw [map_map]
    refine map_congr fun leaf here => ?_
    exact (books'.page_cow leaf).trans (page_congr (forked.data_eq sound here user))
  · exact map_congr fun leaf here => page_congr (forked.data_eq sound here user)

theorem Forked.space_new (apart : q.pagetable ≠ np.pagetable) (fits : books.Fits q.pagetable q.sz) :
    books'.space np.pagetable np.sz = books.space q.pagetable q.sz := by
  rw [forked.size]
  refine space_congr fun v user => ?_
  obtain ⟨first, launched, leaves⟩ := forked.launched
  have before : first.leaf (q.pagetable, v) = books.leaf (q.pagetable, v) := launched.others _ apart
  rw [leaves]
  unfold copied
  dsimp only
  by_cases inside : v < pageCount q.sz
  · rw [if_pos ⟨rfl, inside⟩, before, map_map]
    refine map_congr fun leaf here => ?_
    exact (books'.page_cow leaf).trans (page_congr (forked.data_eq sound here user))
  · have beyond : books.leaf (q.pagetable, v) = none := by
      by_contra mapped
      obtain ⟨leaf, here⟩ := ne_none_iff_exists'.mp mapped
      have := (fits.2 v).mp ⟨leaf, here⟩
      omega
    have blank : (first.cowed q.pagetable (pageCount q.sz)).leaf (np.pagetable, v) = none := by
      by_contra mapped
      obtain ⟨leaf, here⟩ := ne_none_iff_exists'.mp mapped
      have := (launched.spans v).mp ((first.cowed_maps _ _ _ v).mp ⟨leaf, here⟩)
      omega
    rw [if_neg fun both => inside both.2, blank, beyond]
    rfl

end

end

theorem System.Shows.eager_fork (shows : s.Shows layout live tfs node books)
    (vacant : s.procs child = none) (done : s.perform layout (.fork p child) = .ok (some t))
    (success : t.result ≠ -1) : s.eager.step (.fork p child) = some t.eager := by
  obtain ⟨q, here, done⟩ := withProc_some done
  obtain ⟨forked, k, ran, next⟩ := run_some done
  obtain ⟨alive, _, fits⟩ := shows.proc here
  have meets : Meets (q.fork layout) s.kmem _ fun _ => False := fork_sound shows.sound alive fits
  cases forked with
  | none =>
    cases next
    exact absurd rfl success
  | some np =>
    cases next
    rcases meets.result ran with
      ⟨absent, _⟩ | ⟨np', same, new, apart, node', books', forked, _, after⟩
    · cases absent
    cases same
    have old {c : Nat} {x : Proc} (there : s.procs c = some x) :
        c ≠ child ∧ x.pagetable ≠ np.pagetable := by
      constructor
      · rintro rfl
        rw [vacant] at there
        cases there
      · intro same
        exact new (same ▸ (shows.proc there).1)
    have living {c : Nat} {x : Proc}
        (there : ({ s with kmem := k, result := child }.setProc child (some np)).procs c = some x) :
        x.pagetable ∈ insert np.pagetable live := by
      rcases setProc_some there with ⟨_, same⟩ | ⟨_, there⟩
      · cases same
        exact Finset.mem_insert_self _ _
      · exact Finset.mem_insert_of_mem (shows.proc there).1
    rw [Eager.step_fork (by rw [shows.procs_eq, vacant, map_none]) (shows.space_eq here),
      some_inj, Sound.eager_eq after living]
    refine Eager.ext (funext fun c => ?_) rfl
    unfold Eager.set
    dsimp only
    by_cases same : c = child
    · subst same
      rw [update_self, setProc_self, map_some, forked.space_new shows.sound apart.symm fits]
    · rw [update_of_ne same, setProc_other same, shows.procs_eq]
      exact map_congr fun x there => (forked.space_old shows.sound (old there).2 _).symm

theorem Grown.space_old {r' flags : Nat} (grown : Grown layout books books' r v₀ v flags)
    (sound : Sound layout k live node books) (other : r' ≠ r) (sz : Nat) :
    books'.space r' sz = books.space r' sz := by
  refine space_congr fun w user => ?_
  rw [grown.others (r', w) fun inside => other inside.1]
  refine map_congr fun leaf here => page_congr (grown.data _ (.inr ?_))
  exact users_pos here (sound.tables.shows.accounts.mapped here).1 user

/-- The pages that `sbrk` adds are zeroed and can be written. -/
theorem Grown.page_new {w : Nat} (grown : Grown layout books books' r v₀ v (userFlags pteW))
    (low : v₀ ≤ w) (high : w < v) (here : books'.leaf (r, w) = some leaf) :
    books'.page leaf = zeroPage := by
  obtain ⟨fresh, there, flags, _, _, _, _, zero⟩ := grown.fresh w low high
  cases here.symm.trans there
  unfold Books.page
  rw [flags]
  exact PrivatePage.ext (funext fun o => zero o o.isLt) rfl rfl rfl

theorem Books.Fits.none_beyond (fits : books.Fits r sz) (user : v < userPages)
    (beyond : ¬ v < pageCount sz) : books.leaf (r, v) = none := by
  by_contra mapped
  obtain ⟨leaf, here⟩ := ne_none_iff_exists'.mp mapped
  have := (fits.2 v).mp ⟨leaf, here⟩
  omega

/-- The address space of `sbrk` after it has found its pages. -/
theorem resize_space {n : Int} (sound : Sound layout k live node books)
    (fits : books.Fits q.pagetable q.sz) (fits' : books'.Fits q.pagetable (resized q.sz n))
    (change : Grown layout books books' q.pagetable (pageCount q.sz) (pageCount (resized q.sz n))
      (userFlags pteW) ∨
      books' = books.unmap q.pagetable (pageCount (resized q.sz n))
        (pageCount q.sz - pageCount (resized q.sz n))) :
    books'.space q.pagetable (resized q.sz n) = (books.space q.pagetable q.sz).resize n := by
  refine PrivateSpace.ext rfl (funext fun v => ?_)
  unfold PrivateSpace.resize space
  dsimp only
  by_cases user : v < userPages
  · rw [if_pos user, if_pos user]
    by_cases below : v < pageCount (resized q.sz n)
    · rw [if_pos below]
      obtain ⟨leaf, here⟩ := (fits'.2 v).mpr (.inl below)
      by_cases old : v < pageCount q.sz
      · rw [if_pos old]
        rcases change with grown | rfl
        · rw [grown.others _ fun inside => by omega]
          refine map_congr fun leaf here => page_congr (grown.data _ (.inr ?_))
          exact users_pos here (sound.tables.shows.accounts.mapped here).1 user
        · rw [unmap_leaf, if_neg fun inside => by omega]
          rfl
      · rw [if_neg old]
        rcases change with grown | rfl
        · rw [here, map_some, grown.page_new (by omega) below here]
        · rw [unmap_leaf, if_neg fun inside => by omega, fits.none_beyond user old] at here
          cases here
    · rw [if_neg below, fits'.none_beyond user below]
      rfl
  · have few := pageCount_le fits'.1
    rw [if_neg user, if_neg (by omega)]

theorem System.Shows.eager_sbrk {n : Int} (shows : s.Shows layout live tfs node books)
    (word : n < 2 ^ 31) (done : s.perform layout (.sbrk p n) = .ok (some t))
    (success : t.result ≠ -1) : s.eager.step (.sbrk p n) = some t.eager := by
  obtain ⟨q, here, done⟩ := withProc_some done
  obtain ⟨grown, k, ran, next⟩ := run_some done
  obtain ⟨alive, _, fits⟩ := shows.proc here
  have meets : Meets (q.growproc n) s.kmem _ fun _ => False :=
    growproc_sound shows.sound alive fits word
  cases grown with
  | none =>
    cases next
    exact absurd rfl success
  | some q' =>
    cases next
    rcases meets.result ran with ⟨absent, _⟩ | ⟨same, _, node', books', after, fits', change⟩
    · cases absent
    cases same
    have living {c : Nat} {x : Proc} (there : ({ s with kmem := k, result := q.sz }.setProc p
        (some { q with sz := resized q.sz n })).procs c = some x) : x.pagetable ∈ live := by
      rcases setProc_some there with ⟨_, same⟩ | ⟨_, there⟩
      · cases same
        exact alive
      · exact (shows.proc there).1
    rw [Eager.step_sbrk n (shows.space_eq here), some_inj, Sound.eager_eq after living]
    refine Eager.ext (funext fun c => ?_) rfl
    unfold Eager.set
    dsimp only
    by_cases same : c = p
    · subst same
      rw [update_self, setProc_self, map_some, resize_space shows.sound fits fits' change]
    · rw [update_of_ne same, setProc_other same, shows.procs_eq]
      refine map_congr fun x there => ?_
      have apart : x.pagetable ≠ q.pagetable :=
        fun equal => same (shows.distinct there here (.inl equal))
      rcases change with grown | rfl
      · exact (grown.space_old shows.sound apart _).symm
      · refine (space_congr fun v _ => ?_).symm
        unfold unmap
        dsimp only
        rw [if_neg fun inside => apart inside.1]
        rfl

theorem System.Shows.eager_reap (shows : s.Shows layout live tfs node books)
    (done : s.perform layout (.reap p) = .ok (some t)) : s.eager.step (.reap p) = some t.eager := by
  obtain ⟨q, here, done⟩ := withProc_some done
  obtain ⟨_, k, ran, next⟩ := run_some done
  obtain ⟨alive, owned, fits⟩ := shows.proc here
  obtain ⟨rest, rfl⟩ := Multiset.exists_cons_of_mem owned
  have has : books.held = q.trapframe ::ₘ ((s.pages : Multiset Nat) + rest) := by
    rw [shows.held, Multiset.add_cons]
  have meets : Meets (freeproc q) s.kmem _ fun _ => False :=
    freeproc_sound shows.sound alive has fits
  cases next
  obtain ⟨node', _, after⟩ := meets.result ran
  have apart {c : Nat} {x : Proc} (other : c ≠ p) (there : s.procs c = some x) :
      x.pagetable ≠ q.pagetable :=
    fun same => other (shows.distinct there here (.inl same))
  have living {c : Nat} {x : Proc}
      (there : ({ s with kmem := k, result := 0 }.setProc p none).procs c = some x) :
      x.pagetable ∈ live.erase q.pagetable := by
    rcases setProc_some there with ⟨_, same⟩ | ⟨other, there⟩
    · cases same
    · exact Finset.mem_erase.mpr ⟨apart other there, (shows.proc there).1⟩
  rw [Eager.step_reap (shows.space_eq here), some_inj, Sound.eager_eq after living]
  refine Eager.ext (funext fun c => ?_) rfl
  unfold Eager.set
  dsimp only
  by_cases same : c = p
  · subst same
    rw [update_self, setProc_self, map_none]
  · rw [update_of_ne same, setProc_other same, shows.procs_eq]
    refine map_congr fun x there => (space_congr fun v _ => ?_).symm
    unfold Books.discard
    dsimp only
    rw [if_neg (apart same there)]
    rfl

/-- A store that changes nothing that a process sees is one that both systems refuse. -/
theorem Books.store_refused (refused : ∀ leaf, books.reach r va = some leaf →
    leaf.flags.testBit 2 = false ∧ leaf.flags.testBit 8 = false) :
      (books.space r sz).store va byte = none := by
  unfold PrivateSpace.store space
  rw [map_eq_none_iff]
  dsimp only
  split
  · rename_i user
    cases here : books.leaf (r, va / pgsize) with
    | none => rfl
    | some leaf =>
      have low : va < maxva := by
        rw [userPages_eq] at user
        rw [maxva_eq]
        unfold pgsize at user
        omega
      rw [map_some, filter_some, if_neg]
      unfold page
      dsimp only
      intro both
      obtain ⟨visible, writable⟩ := Bool.and_eq_true_iff.mp both
      have bits := refused leaf (reach_some.mpr ⟨low, here, visible⟩)
      rw [bits.1, bits.2] at writable
      cases writable
  · rfl

theorem System.Shows.eager_store (shows : s.Shows layout live tfs node books)
    (word : sp < 2 ^ 64) (done : s.perform layout (.store p va sp byte) = .ok (some t)) :
    s.eager.step (.store p va sp byte) = some t.eager := by
  obtain ⟨q, here, done⟩ := withProc_some done
  obtain ⟨stored, k, ran, next⟩ := run_some done
  obtain ⟨alive, _, fits⟩ := shows.proc here
  have meets : Meets (userStore q.pagetable va sp byte) s.kmem _ fun _ => True :=
    userStore_sound shows.sound alive word (fun _ => trivial) fun _ _ _ _ _ => trivial
  cases next
  rcases meets.result ran with
    ⟨rfl, refused, books', _, change, after⟩ | ⟨rfl, leaf, leaf', books', seen, own, after⟩
  · have same (r sz : Nat) : books'.space r sz = books.space r sz := by
      rcases change with rfl | ⟨leaf, leaf', mapped, own⟩
      · rfl
      · exact own.space_eq mapped r sz
    rw [Eager.step_refused (shows.space_eq here) (store_refused refused), some_inj,
      Sound.eager_eq (s := ⟨k, s.pages, s.procs, _⟩) after fun there => (shows.proc there).1]
    refine Eager.ext (funext fun c => ?_) rfl
    rw [shows.procs_eq]
    exact map_congr fun x _ => (same _ _).symm
  · obtain ⟨low, mapped, visible⟩ := reach_some.mp seen
    have user := (shows.sound.good.guarded _).below seen
    have now : books'.Good ∧ books'.leaf (q.pagetable, va / pgsize) = some leaf' ∧
        leaf'.flags.testBit 2 = true ∧ leaf'.flags.testBit 4 = true ∧
        ∀ r sz, books'.space r sz = books.space r sz := by
      rcases own with ⟨writes, rfl, rfl⟩ | ⟨_, shared, _, own⟩
      · exact ⟨shows.sound.good, mapped, writes, visible, fun _ _ => rfl⟩
      · refine ⟨(own.keeps shows.sound.good user mapped).good, own.now mapped, ?_, ?_,
          own.space_eq mapped⟩
        · rw [own.flags shared, testBit_own]
          simp
        · rw [own.flags shared, testBit_own, visible]
          simp
    obtain ⟨good, there, writes, seen', same⟩ := now
    have stored : (books.space q.pagetable q.sz).store va byte =
        some ((books'.put leaf'.pa (va % pgsize) 1 fun _ => byte).space q.pagetable q.sz) := by
      rw [← same]
      exact put_space good user there writes seen' q.sz
    rw [Eager.step_stored (shows.space_eq here) stored, some_inj,
      Sound.eager_eq (s := ⟨k, s.pages, s.procs, _⟩) after fun there => (shows.proc there).1]
    refine Eager.ext (funext fun c => ?_) rfl
    unfold Eager.set
    dsimp only
    by_cases own : c = p
    · subst own
      rw [update_self, here, map_some]
    · rw [update_of_ne own, shows.procs_eq]
      refine map_congr fun x other => ?_
      have apart : x.pagetable ≠ q.pagetable :=
        fun equal => own (shows.distinct other here (.inl equal))
      exact ((put_space_other good user there writes apart _).trans (same _ _)).symm

theorem System.Valid.eager_step (valid : s.Valid layout) (plain : s.Plain layout event)
    (taken : s.step layout event = some t) : s.eager.step event = some t.eager := by
  obtain ⟨live, tfs, node, books, shows⟩ := valid
  obtain ⟨allowed, done⟩ := step_some taken
  have succeeds (success : ∃ t, s.step layout event = some t ∧ t.result ≠ -1) : t.result ≠ -1 := by
    obtain ⟨t', also, result⟩ := success
    cases taken.symm.trans also
    exact result
  cases event with
  | fork p child => exact shows.eager_fork allowed done (succeeds plain)
  | sbrk p n => exact shows.eager_sbrk allowed.2 done (succeeds plain)
  | store p va sp byte => exact shows.eager_store allowed.2 done
  | reap p => exact shows.eager_reap done
  | kalloc | kfree pa | fill pa offset byte | userinit p code | exec p image argv
  | copyout p va src len => exact plain.elim

theorem System.Valid.answers (valid : s.Valid layout) (plain : s.Plain layout event) :
    ∃ t, s.step layout event = some t := by
  obtain ⟨live, tfs, node, books, shows⟩ := valid
  cases event with
  | fork p child | sbrk p n =>
    obtain ⟨t, taken, _⟩ := plain
    exact ⟨t, taken⟩
  | store p va sp byte =>
    obtain ⟨word, q, here, user, present, free⟩ := plain
    have alive := (shows.proc here).1
    have low : va < maxva ∧ va < 2 ^ 64 := by
      rw [userPages_eq] at user
      rw [maxva_eq]
      unfold pgsize at user
      omega
    rw [shows.sound.tables.pteOf_eq alive, if_pos low.1] at present free
    have fault (missing : books.leaf (q.pagetable, va / pgsize) = none) : False := by
      rw [missing] at present
      exact present (Nat.zero_and _)
    have full (leaf : Leaf) (mapped : books.leaf (q.pagetable, va / pgsize) = some leaf)
        (shared : leaf.flags.testBit 8 = true)
        (_ : books.reach q.pagetable va = some leaf → leaf.flags.testBit 2 = false)
        (empty : s.kmem.spare layout = 0) : False := by
      rw [mapped, elim_some] at free
      refine free ((leaf.pte_test (by omega)).mpr shared) ?_
      exact shows.sound.tables.shows.accounts.freelist_iff.mpr empty
    have stores : Meets (userStore q.pagetable va sp byte) s.kmem _ fun _ => False :=
      userStore_sound shows.sound alive word fault full
    obtain ⟨stored, k, ended, _⟩ := stores.ends
    have done : s.perform layout (.store p va sp byte) =
        .ok (some { s with kmem := k, result := if stored then 0 else -1 }) := by
      simp only [perform, withProc, here, run, ended, Except.map]
    exact ⟨_, step_of ⟨low.2, word⟩ done⟩
  | reap p =>
    obtain ⟨q, here⟩ := plain
    obtain ⟨alive, _, fits⟩ := shows.proc here
    obtain ⟨rest, has⟩ := Multiset.exists_cons_of_mem (shows.tf_held here)
    have frees : Meets (freeproc q) s.kmem _ fun _ => False :=
      freeproc_sound shows.sound alive has fits
    obtain ⟨_, k, ended, _⟩ := frees.ends
    have done : s.perform layout (.reap p) =
        .ok (some ({ s with kmem := k, result := 0 }.setProc p none)) := by
      simp only [perform, withProc, here, run, ended, Except.map]
    exact ⟨_, step_of trivial done⟩
  | kalloc | kfree pa | fill pa offset byte | userinit p code | exec p image argv
  | copyout p va src len => exact plain.elim

theorem userLoad_sound {stops : Panic → Prop} (sound : Sound layout k live node books)
    (root : r ∈ live) :
    Meets (userLoad r va) k
      (fun byte u => u = k ∧ ∀ sz, byte = (books.space r sz).load va) stops := by
  have beyond (sz : Nat) (absent : books.leaf (r, va / pgsize) = none ∨ ¬ va / pgsize < userPages) :
      (books.space r sz).load va = none := by
    unfold PrivateSpace.load space
    dsimp only
    split
    · rename_i user
      rw [absent.resolve_right (not_not.mpr user)]
      rfl
    · rfl
  rw [userLoad]
  split
  · rename_i high
    rw [meets_pure]
    refine ⟨rfl, fun sz => (beyond sz (.inr fun user => ?_)).symm⟩
    rw [userPages_eq] at user
    rw [maxva_eq] at high
    unfold pgsize at user
    omega
  · rename_i low
    refine (sound.tables.find root (by omega)).bind fun a u found => ?_
    obtain ⟨rfl, found⟩ := found
    rcases found with ⟨rfl, unmapped⟩ | ⟨real, c, there, rfl⟩
    · rw [if_pos rfl, meets_pure]
      exact ⟨rfl, fun sz => (beyond sz (.inl unmapped)).symm⟩
    rw [if_neg real, meets_bind, meets_loadWord, sound.tables.read there]
    cases here : books.leaf (r, va / pgsize) with
    | none =>
      rw [elim_none, if_pos (by simp), meets_pure]
      exact ⟨rfl, fun sz => (beyond sz (.inl here)).symm⟩
    | some leaf =>
      have visible : leaf.pte &&& pteU ≠ 0 ↔ leaf.flags.testBit 4 = true := leaf.pte_test (by omega)
      have readable : leaf.pte &&& pteR ≠ 0 ↔ leaf.flags.testBit 1 = true :=
        leaf.pte_test (by omega)
      rw [elim_some]
      split
      · rename_i refused
        rw [meets_pure]
        refine ⟨rfl, fun sz => ?_⟩
        unfold PrivateSpace.load space
        dsimp only
        split
        · rw [here, map_some, filter_some, if_neg]
          · rfl
          · intro both
            obtain ⟨user, reads⟩ := Bool.and_eq_true_iff.mp both
            rcases refused with invalid | hidden | unreadable
            · exact leaf.pte_valid invalid
            · exact visible.mpr user hidden
            · exact readable.mpr reads unreadable
        · rfl
      · rename_i allowed
        simp only [not_or] at allowed
        have seen : books.reach r va = some leaf :=
          reach_some.mpr ⟨by omega, here, visible.mp allowed.2.1⟩
        have user := (sound.good.guarded r).below seen
        have users := users_pos here (sound.tables.shows.accounts.mapped here).1 user
        have both : ((books.page leaf).user && (books.page leaf).readable) = true := by
          unfold Books.page
          rw [visible.mp allowed.2.1, readable.mp allowed.2.2]
          rfl
        rw [meets_bind, meets_get, meets_pure, leaf.pte_pa]
        refine ⟨rfl, fun sz => ?_⟩
        unfold PrivateSpace.load space
        dsimp only
        rw [if_pos user, here, map_some, filter_some, if_pos both, map_some, some_inj]
        exact sound.byte (.inr users) (Nat.mod_lt va (by decide))

theorem System.Valid.load_eq (valid : s.Valid layout) (p va : Nat) :
    s.load p va = s.eager.load p va := by
  obtain ⟨live, tfs, node, books, shows⟩ := valid
  unfold load Eager.load
  rw [shows.procs_eq]
  cases here : s.procs p with
  | none => rfl
  | some q =>
    have meets : Meets (userLoad q.pagetable va) s.kmem _ fun _ => False :=
      userLoad_sound shows.sound (shows.proc here).1
    obtain ⟨byte, u, ran, _, loaded⟩ := meets.ends
    rw [map_some, bind_some, bind_some, ran]
    exact loaded q.sz

end Simulation

section ReadOnly

variable {layout : Layout} {s t : System} {p v : Nat}

theorem System.eager_page {page : PrivatePage} : s.eager.page p v = some page ↔
    ∃ q, s.procs p = some q ∧ v < userPages ∧ s.kmem.privatePage q.pagetable v = some page := by
  unfold Eager.page eager
  rw [bind_map, bind_eq_some_iff]
  refine exists_congr fun q => and_congr_right fun _ => ?_
  change (if v < userPages then s.kmem.privatePage q.pagetable v else none) = some page ↔ _
  split
  · rename_i user
    exact ⟨fun there => ⟨user, there⟩, fun both => both.2⟩
  · rename_i high
    exact ⟨fun absent => (by cases absent), fun both => absurd both.1 high⟩

theorem System.mapped_iff : s.Mapped p v ↔ ∃ page, s.eager.page p v = some page := by
  constructor
  · rintro ⟨q, here, user, valid⟩
    exact ⟨_, eager_page.mpr ⟨q, here, user, if_pos valid⟩⟩
  · rintro ⟨page, there⟩
    obtain ⟨q, here, user, found⟩ := eager_page.mp there
    unfold Kmem.privatePage at found
    dsimp only at found
    split at found
    · rename_i valid
      exact ⟨q, here, user, valid⟩
    · cases found

theorem System.readOnly_iff :
    s.ReadOnly p v ↔ ∃ page, s.eager.page p v = some page ∧ page.writable = false := by
  constructor
  · rintro ⟨q, here, user, valid, readonly, plain⟩
    refine ⟨_, eager_page.mpr ⟨q, here, user, if_pos valid⟩, ?_⟩
    dsimp only
    rw [readonly, plain]
    rfl
  · rintro ⟨page, there, readonly⟩
    obtain ⟨q, here, user, found⟩ := eager_page.mp there
    unfold Kmem.privatePage at found
    dsimp only at found
    split at found
    · rename_i valid
      cases found
      obtain ⟨unwritable, plain⟩ := Bool.or_eq_false_iff.mp readonly
      exact ⟨q, here, user, valid, not_not.mp (of_decide_eq_false unwritable),
        not_not.mp (of_decide_eq_false plain)⟩
    · cases found

/-- No page of the reference system is beyond the size of its process. -/
def Eager.Tight (e : Eager) : Prop :=
  ∀ p space v, e.procs p = some space → ¬ v < pageCount space.sz → space.page v = none

theorem Eager.page_some {e : Eager} {page : PrivatePage} :
    e.page p v = some page ↔ ∃ space, e.procs p = some space ∧ space.page v = some page :=
  bind_eq_some_iff

theorem Eager.set_page_self {e : Eager} {space : PrivateSpace} {result : Int} :
    (e.set p (some space) result).page p v = space.page v := by
  simp only [page, set, update_self, bind_some]

theorem Eager.set_page_other {e : Eager} {space : Option PrivateSpace} {result : Int} {c : Nat}
    (other : p ≠ c) : (e.set c space result).page p v = e.page p v := by
  simp only [page, set, update_of_ne other]

theorem PrivateSpace.store_writable {space space' : PrivateSpace} {page page' : PrivatePage}
    (stored : space.store va byte = some space') (before : space.page v = some page)
    (after : space'.page v = some page') : page'.writable = page.writable := by
  obtain ⟨old, found, rfl⟩ := map_eq_some_iff.mp stored
  dsimp only at after
  by_cases here : v = va / pgsize
  · subst here
    rw [update_self] at after
    cases after
    cases before.symm.trans (filter_eq_some_iff.mp found).1
    rfl
  · rw [update_of_ne here, before] at after
    cases after
    rfl

theorem PrivateSpace.resize_page {space : PrivateSpace} {n : Int} {page page' : PrivatePage}
    (tight : ¬ v < pageCount space.sz → space.page v = none) (before : space.page v = some page)
    (after : (space.resize n).page v = some page') : page' = page := by
  have inside : v < pageCount space.sz := by
    by_contra beyond
    rw [tight beyond] at before
    cases before
  simp only [resize, if_pos inside] at after
  split at after
  · exact some.inj (after.symm.trans before)
  · cases after

/-- A call of the reference system changes no rights of a page that stays. -/
theorem Eager.page_step {e e' : Eager} {page page' : PrivatePage} (tight : e.Tight)
    (taken : e.step event = some e') (before : e.page p v = some page)
    (after : e'.page p v = some page') : page'.writable = page.writable := by
  obtain ⟨space, here, there⟩ := page_some.mp before
  have unchanged (same : e'.page p v = e.page p v) : page'.writable = page.writable := by
    rw [same, before] at after
    cases after
    rfl
  cases event with
  | fork q child =>
    simp only [step] at taken
    split at taken
    · rename_i vacant
      obtain ⟨parent, _, rfl⟩ := map_eq_some_iff.mp taken
      refine unchanged (set_page_other ?_)
      rintro rfl
      rw [here] at vacant
      cases vacant
    · cases taken
  | store q va sp byte =>
    obtain ⟨target, found, rfl⟩ := map_eq_some_iff.mp taken
    cases stored : target.store va byte with
    | none =>
      rw [stored] at unchanged
      exact unchanged rfl
    | some target' =>
      rw [stored] at after unchanged
      by_cases own : p = q
      · subst own
        cases here.symm.trans found
        exact PrivateSpace.store_writable stored there (set_page_self.symm.trans after)
      · exact unchanged (set_page_other own)
  | sbrk q n =>
    obtain ⟨target, found, rfl⟩ := map_eq_some_iff.mp taken
    by_cases own : p = q
    · subst own
      cases here.symm.trans found
      rw [PrivateSpace.resize_page (tight p space v here) there (set_page_self.symm.trans after)]
    · exact unchanged (set_page_other own)
  | reap q =>
    obtain ⟨target, found, rfl⟩ := map_eq_some_iff.mp taken
    by_cases own : p = q
    · subst own
      obtain ⟨gone, missing, _⟩ := page_some.mp after
      simp only [set, update_self] at missing
      cases missing
    · exact unchanged (set_page_other own)
  | kalloc | kfree pa | fill pa offset byte | userinit q code | exec q image argv
  | copyout q va src len => cases taken

theorem Eager.page_child {e e' : Eager} {page : PrivatePage}
    (taken : e.step (.fork p child) = some e')
    (before : e.page p v = some page) : e'.page child v = some page := by
  obtain ⟨space, here, there⟩ := page_some.mp before
  simp only [step] at taken
  split at taken
  · rw [here] at taken
    cases taken
    exact set_page_self.trans there
  · cases taken

theorem System.Valid.tight (valid : s.Valid layout) : s.eager.Tight := by
  obtain ⟨live, tfs, node, books, shows⟩ := valid
  intro p space v here beyond
  rw [shows.procs_eq] at here
  obtain ⟨q, found, rfl⟩ := map_eq_some_iff.mp here
  unfold space
  dsimp only
  split
  · rename_i user
    rw [(shows.proc found).2.2.none_beyond user beyond]
    rfl
  · rfl

theorem System.Valid.keepsReadOnly (valid : s.Valid layout) (plain : s.Plain layout event) :
    s.KeepsReadOnly layout event := by
  intro t taken p v readonly
  have simulated := valid.eager_step plain taken
  obtain ⟨page, before, fixed⟩ := readOnly_iff.mp readonly
  constructor
  · intro mapped
    obtain ⟨page', after⟩ := mapped_iff.mp mapped
    exact readOnly_iff.mpr
      ⟨page', after, (Eager.page_step valid.tight simulated before after).trans fixed⟩
  · rintro child rfl
    exact readOnly_iff.mpr ⟨page, Eager.page_child simulated before, fixed⟩

end ReadOnly

section Refinement

/-- From every state that the kernel reaches, every run of `fork`, stores, `sbrk` and teardown ends,
and is a run of the reference system with the same results, after which every process loads the same
bytes; no page that may not be written becomes writable. -/
theorem cow_refines_eager (layout : Layout) (mem : Foundation.Memory) (counts : Nat → Int)
    (u : Kmem) (booted : kinit layout ⟨mem, counts, 0⟩ = .ok ((), u)) (before : List Event)
    (s : System) (reached : exec (System.step layout) (System.start u) before = some s)
    (events : List Event) (plain : Along (System.step layout) (System.Plain layout) s events) :
    (∃ t e, exec (System.step layout) s events = some t ∧ exec Eager.step s.eager events = some e ∧
      e.result = t.result ∧ ∀ p va, t.load p va = e.load p va) ∧
      Along (System.step layout) (System.KeepsReadOnly layout) s events := by
  have valid := System.valid_run booted reached
  have kept (s : System) (event : Event) (t : System) (valid : s.Valid layout)
      (taken : s.step layout event = some t) :
      t.Valid layout := valid.step taken
  obtain ⟨t, run⟩ :=
    exec_total kept (fun s event valid plain => System.Valid.answers valid plain) valid plain
  refine ⟨⟨t, t.eager, run, ?_, rfl, fun p va => ?_⟩, ?_⟩
  · exact exec_simulates kept
      (fun s event t valid plain taken => System.Valid.eager_step valid plain taken) valid plain run
  · exact (exec_invariant kept valid run).load_eq p va
  · exact along_of_invariant kept
      (fun s event valid plain => System.Valid.keepsReadOnly valid plain) valid plain

/-- The child of a `fork` writes to a page that it shares with its parent, who does not see it. -/
theorem cow_refines_eager_fork :
    ∃ u s t e, kinit smallLayout ⟨fun _ => 0, fun _ => 0, 0⟩ = .ok ((), u) ∧
      exec (System.step smallLayout) (System.start u) [.userinit 0 []] = some s ∧
      exec (System.step smallLayout) s [.fork 0 1, .store 1 100 pgsize 7] = some t ∧
      exec Eager.step s.eager [.fork 0 1, .store 1 100 pgsize 7] = some e ∧
      t.load 0 100 = some 0 ∧ e.load 0 100 = some 0 ∧ t.load 1 100 = some 7 ∧
      e.load 1 100 = some 7 := by
  have computed : ((bootSystem smallLayout [.userinit 0 []]).bind fun s =>
      (s.step smallLayout (.fork 0 1)).bind fun forked => (forked.procs 1).bind fun q =>
      (forked.step smallLayout (.store 1 100 pgsize 7)).map fun t =>
        (decide
          (forked.result ≠ -1 ∧ forked.kmem.pteOf q.pagetable 100 &&& pteV ≠ 0 ∧
            forked.kmem.freelist ≠ 0),
          t.load 0 100, t.load 1 100)) = some (true, some 0, some 7) := by decide +kernel
  obtain ⟨s, ended, rest⟩ := bind_eq_some_iff.mp computed
  obtain ⟨forked, forks, rest⟩ := bind_eq_some_iff.mp rest
  obtain ⟨q, here, rest⟩ := bind_eq_some_iff.mp rest
  obtain ⟨t, stores, facts⟩ := map_eq_some_iff.mp rest
  simp only [Prod.mk.injEq, decide_eq_true_eq] at facts
  obtain ⟨⟨success, mapped, free⟩, parent, child⟩ := facts
  obtain ⟨u, booted, run⟩ := bootSystem_some ended
  have plain : Along (System.step smallLayout) (System.Plain smallLayout) s
      [.fork 0 1, .store 1 100 pgsize 7] := by
    refine ⟨⟨forked, forks, success⟩, fun next taken => ⟨?_, fun _ _ => trivial⟩⟩
    cases forks.symm.trans taken
    exact ⟨by decide, q, here, by decide, mapped, fun _ => free⟩
  obtain ⟨t', e, ends, simulated, _, loads⟩ :=
    (cow_refines_eager smallLayout _ _ u booted _ s run _ plain).1
  have same : exec (System.step smallLayout) s [.fork 0 1, .store 1 100 pgsize 7] = some t := by
    rw [exec, forks, bind_some, exec, stores]
    rfl
  cases same.symm.trans ends
  exact ⟨u, s, t, e, booted, run, same, simulated, parent, (loads 0 100).symm.trans parent, child,
    (loads 1 100).symm.trans child⟩

end Refinement

end EnhancedXv6.Memory
