import EnhancedXv6.Memory.Copyin

namespace EnhancedXv6.Memory

open Foundation List Option

variable {u : Kmem}

section Places

variable {sp : Nat} {arg : List UInt8} {argv rest : List (List UInt8)}

/-- The room that some bytes take on a stack that is kept aligned. -/
def slot (bytes : Nat) : Nat :=
  (bytes + 15) / 16 * 16

/-- Where the strings stand that are pushed on a stack. -/
def places (sp : Nat) : List (List UInt8) → List Nat
  | [] => []
  | arg :: rest => (sp - slot (arg.length + 1)) :: places (sp - slot (arg.length + 1)) rest

def stringRoom (argv : List (List UInt8)) : Nat :=
  (argv.map fun arg => slot (arg.length + 1)).sum

/-- The room of the strings and of the array with their places and a zero. -/
def stackRoom (argv : List (List UInt8)) : Nat :=
  stringRoom argv + slot ((argv.length + 1) * 8)

theorem le_slot (bytes : Nat) : bytes ≤ slot bytes := by
  unfold slot
  omega

theorem slot_aligned (bytes : Nat) : slot bytes % 16 = 0 :=
  Nat.mul_mod_left _ 16

theorem stringRoom_nil : stringRoom [] = 0 :=
  rfl

theorem stringRoom_cons : stringRoom (arg :: rest) = slot (arg.length + 1) + stringRoom rest :=
  sum_cons

theorem stringRoom_aligned (argv : List (List UInt8)) : stringRoom argv % 16 = 0 := by
  induction argv with
  | nil => rfl
  | cons arg rest ih =>
    have first := slot_aligned (arg.length + 1)
    rw [stringRoom_cons]
    omega

theorem places_length (sp : Nat) (argv : List (List UInt8)) :
    (places sp argv).length = argv.length := by
  induction argv generalizing sp with
  | nil => rfl
  | cons arg rest ih => rw [places, length_cons, length_cons, ih]

/-- The subtraction of `exec` does not wrap where there is something to subtract from. -/
theorem pushed_eq (bytes : Nat) (aligned : sp % 16 = 0) (enough : bytes ≤ sp)
    (small : sp < 2 ^ 64) : slot bytes ≤ sp ∧ pushed sp bytes = sp - slot bytes := by
  unfold pushed slot
  dsimp only
  omega

theorem places_inside (fits : stringRoom argv ≤ sp) :
    ∀ x ∈ (places sp argv).zip argv, sp - stringRoom argv ≤ x.1 ∧ x.1 + x.2.length + 1 ≤ sp := by
  induction argv generalizing sp with
  | nil => simp [places]
  | cons arg rest ih =>
    have room := le_slot (arg.length + 1)
    rw [stringRoom_cons] at fits ⊢
    rw [places, zip_cons_cons, forall_mem_cons]
    refine ⟨by dsimp only; omega, fun x member => ?_⟩
    have inside := ih (by omega) x member
    omega

theorem places_le : ∀ place ∈ places sp argv, place ≤ sp := by
  induction argv generalizing sp with
  | nil => exact fun place member => absurd member not_mem_nil
  | cons arg rest ih =>
    rw [places, forall_mem_cons]
    exact ⟨Nat.sub_le _ _, fun place member => (ih place member).trans (Nat.sub_le _ _)⟩

theorem places_apart (fits : stringRoom argv ≤ sp) :
    ((places sp argv).zip argv).Pairwise fun x y => y.1 + y.2.length + 1 ≤ x.1 := by
  induction argv generalizing sp with
  | nil => exact List.Pairwise.nil
  | cons arg rest ih =>
    rw [stringRoom_cons] at fits
    rw [places, zip_cons_cons, pairwise_cons]
    exact ⟨fun y member => (places_inside (by omega) y member).2, ih (by omega)⟩

end Places

section Content

variable {k u : Kmem} {r va sz : Nat} {bytes : List UInt8} {argv : List (List UInt8)}
  {argc sp : Nat} {places : List Nat}

def Kmem.Holds (k : Kmem) (pagetable va : Nat) (bytes : List UInt8) : Prop :=
  (∀ i, i < bytes.length → k.Accessible pagetable (va + i)) ∧
    k.userBytes pagetable va bytes.length = bytes

/-- The argument stack at `sp` in an address space of `sz` bytes: an array with the places of the
strings and a zero, and above it the strings with their NULs, the first of them on top. -/
structure Kmem.ArgStack (k : Kmem) (pagetable sz : Nat) (argv : List (List UInt8)) (argc sp : Nat)
    (places : List Nat) : Prop where
  count : argc = argv.length
  bounded : argc < maxarg
  aligned : sp % 16 = 0
  strings : List.Forall₂ (fun place arg => k.Holds pagetable place (arg ++ [0])) places argv
  reach : ∀ i, i < 8 * (argc + 1) → k.Accessible pagetable (sp + i)
  array : ∀ i, i ≤ argc → load (k.userByte pagetable) (sp + 8 * i) 8 = (places ++ [0]).getD i 0
  apart : (places.zip argv).Pairwise fun x y => y.1 + y.2.length + 1 ≤ x.1
  above : ∀ x ∈ places.zip argv, sp + 8 * (argc + 1) ≤ x.1 ∧ x.1 + x.2.length + 1 ≤ sz
  page : sz ≤ sp + pgsize

/-- What the user has from an address on is still there. -/
def Kmem.KeepsFrom (k u : Kmem) (r va : Nat) : Prop :=
  ∀ a, va ≤ a → k.Accessible r a → u.Accessible r a ∧ u.userByte r a = k.userByte r a

theorem Kmem.Holds.keep (holds : k.Holds r va bytes) (keeps : k.KeepsFrom u r sp) (high : sp ≤ va) :
    u.Holds r va bytes := by
  have each (i : Nat) (inside : i < bytes.length) := keeps (va + i) (by omega) (holds.1 i inside)
  refine ⟨fun i inside => (each i inside).1, Eq.trans ?_ holds.2⟩
  exact map_congr_left fun i member => (each i (mem_range.mp member)).2

theorem Kmem.ArgStack.keep (stack : k.ArgStack r sz argv argc sp places)
    (keeps : k.KeepsFrom u r 0) : u.ArgStack r sz argv argc sp places where
  count := stack.count
  bounded := stack.bounded
  aligned := stack.aligned
  strings := stack.strings.imp fun place arg holds => holds.keep keeps (Nat.zero_le place)
  reach i inside := (keeps _ (Nat.zero_le _) (stack.reach i inside)).1
  array i inside := by
    refine (load_congr fun x low high => ?_).trans (stack.array i inside)
    obtain ⟨j, rfl⟩ := Nat.exists_eq_add_of_le ((Nat.le_add_right sp (8 * i)).trans low)
    exact (keeps _ (Nat.zero_le _) (stack.reach j (by omega))).2
  apart := stack.apart
  above := stack.above
  page := stack.page

end Content

section Push

variable {layout : Layout} {s : Kmem} {node₀ : Nodes} {books₀ : Books} {live : Finset Nat}
  {r sz hidden v va len sp : Nat} {src : Nat → UInt8} {stops : Panic → Prop}
  {argv : List (List UInt8)} {ustack : List Nat}

structure StackPage (s : Kmem) (r v : Nat) : Prop where
  positive : 1 ≤ v
  small : (v + 1) * pgsize < 2 ^ 63
  accessible : ∀ a, v * pgsize ≤ a → a < (v + 1) * pgsize → s.Accessible r a

/-- What a copy to the user leaves: the bytes are there, and everything else is as it was. -/
structure Kmem.Wrote (s : Kmem) (r va : Nat) (src : Nat → UInt8) (len : Nat) (u : Kmem) : Prop where
  accessible : ∀ a, u.Accessible r a ↔ s.Accessible r a
  bytes : ∀ a, s.Accessible r a → u.userByte r a = if va ≤ a ∧ a < va + len then src (a - va)
    else s.userByte r a

theorem copyout_wrote (building : Building layout node₀ books₀ live r sz hidden s) (root : r ∈ live)
    (all : ∀ i, i < len → s.Accessible r (va + i)) :
    Meets (copyout r va src len) s (fun result u => result = 0 ∧
      Building layout node₀ books₀ live r sz hidden u ∧
      s.Wrote r va src len u) stops := by
  obtain ⟨node, books, sound, raised⟩ := id building
  have ran : Meets (copyout r va src len) s
      (fun result u => copyout r va src len s = .ok (result, u)) fun _ => True :=
    meets_self
  refine ((building.copyout root).and ran).mono (fun result u met => ?_) fun _ => id
  obtain ⟨after, ended⟩ := met
  obtain ⟨_, _, zero, accessible, bytes⟩ := sound.copyout_bytes root ended
  exact ⟨zero.mpr all, after, accessible, bytes (zero.mpr all)⟩

theorem Kmem.Wrote.keeps (wrote : s.Wrote r va src len u) (below : va + len ≤ sp) :
    s.KeepsFrom u r sp := by
  intro a low there
  refine ⟨(wrote.accessible a).mpr there, ?_⟩
  rw [wrote.bytes a there, if_neg (by omega)]

theorem Kmem.Wrote.holds {arg : List UInt8} (wrote : s.Wrote r va (arg.getD · 0) (arg.length + 1) u)
    (all : ∀ i, i < arg.length + 1 → s.Accessible r (va + i)) : u.Holds r va (arg ++ [0]) := by
  have size : (arg ++ [0]).length = arg.length + 1 := length_append
  refine ⟨fun i inside => (wrote.accessible _).mpr (all i (size ▸ inside)), ?_⟩
  rw [size]
  refine ext_getElem? fun i => ?_
  by_cases inside : i < arg.length + 1
  · rw [Kmem.userBytes, getElem?_map, getElem?_range inside, map_some,
      wrote.bytes _ (all i inside), if_pos (by omega), Nat.add_sub_cancel_left]
    by_cases last : i < arg.length
    · rw [getElem?_append_left last, getD_eq_getElem?_getD, getElem?_eq_getElem last, getD_some]
    · obtain rfl : i = arg.length := by omega
      simp
  · rw [getElem?_eq_none (by rw [Kmem.userBytes, length_map, length_range]; omega),
      getElem?_eq_none (by omega)]

theorem StackPage.wrote (page : StackPage s r v)
    (wrote : s.Wrote r va src len u) : StackPage u r v where
  positive := page.positive
  small := page.small
  accessible a low high := (wrote.accessible a).mpr (page.accessible a low high)

/-- The strings are on the stack unless there is no room for them. -/
theorem pushArgs_exact (building : Building layout node₀ books₀ live r sz hidden s)
    (root : r ∈ live) (page : StackPage s r v) (aligned : sp % 16 = 0) (low : v * pgsize ≤ sp)
    (high : sp ≤ (v + 1) * pgsize)
    (few : ustack.length + argv.length ≤ maxarg) (short : ∀ arg ∈ argv, arg.length < pgsize) :
    Meets (pushArgs r (v * pgsize) argv ustack sp) s (fun out u =>
      (out = none ∧ sp < v * pgsize + stringRoom argv) ∨
      (out = some (ustack ++ places sp argv, sp - stringRoom argv) ∧
        v * pgsize + stringRoom argv ≤ sp ∧
        Building layout node₀ books₀ live r sz hidden u ∧ StackPage u r v ∧ s.KeepsFrom u r sp ∧
        List.Forall₂ (fun place arg => u.Holds r place (arg ++ [0]))
          (places sp argv) argv)) stops := by
  induction argv generalizing ustack sp s with
  | nil =>
    rw [pushArgs, meets_pure]
    rw [stringRoom_nil, places, append_nil, Nat.add_zero, Nat.sub_zero]
    exact .inr ⟨rfl, low, building, page, fun a _ there => ⟨there, rfl⟩, List.Forall₂.nil⟩
  | cons arg rest ih =>
    have fits := short arg mem_cons_self
    have positive := page.positive
    have small := page.small
    have room := le_slot (arg.length + 1)
    have whole := slot_aligned (arg.length + 1)
    obtain ⟨inside, next⟩ :=
      pushed_eq (arg.length + 1) aligned (by unfold pgsize at *; omega) (by omega)
    rw [length_cons] at few
    rw [pushArgs, if_neg (by omega)]
    dsimp only
    rw [next, stringRoom_cons, places]
    split
    · rename_i full
      rw [meets_pure]
      exact .inl ⟨rfl, by omega⟩
    · rename_i enough
      have all (i : Nat) (below : i < arg.length + 1) :
          s.Accessible r (sp - slot (arg.length + 1) + i) :=
        page.accessible _ (by omega) (by omega)
      refine (copyout_wrote building root all).bind fun result w met => ?_
      obtain ⟨zero, built, wrote⟩ := met
      rw [if_neg (by omega)]
      have keeps : s.KeepsFrom w r sp := wrote.keeps (by omega)
      refine (ih built (page.wrote wrote) (by omega) (by omega) (by omega)
        (by rw [length_append, length_singleton]; omega)
        fun arg member => short arg (mem_cons_of_mem _ member)).mono
          (fun out u outcome => ?_) fun _ => id
      rcases outcome with ⟨none, full⟩ | ⟨same, enough', built', page', keeps', strings⟩
      · exact .inl ⟨none, by omega⟩
      · refine .inr
          ⟨?_, by omega, built', page', fun a above there => ?_, List.Forall₂.cons ?_ strings⟩
        · rw [same, append_assoc, singleton_append, Nat.sub_add_eq]
        · obtain ⟨there', byte⟩ := keeps a above there
          obtain ⟨there'', byte'⟩ := keeps' a (by omega) there'
          exact ⟨there'', byte'.trans byte⟩
        · exact (wrote.holds all).keep keeps' le_rfl

theorem Building.stackPage
    (building : Building layout node₀ books₀ live r ((v + 1) * pgsize) hidden s)
    (root : r ∈ live) (positive : 1 ≤ v) (shown : v ≠ hidden) : StackPage s r v := by
  refine ⟨positive, building.small, fun a low high => ?_⟩
  obtain ⟨node, books, sound, raised⟩ := building
  have here : a / pgsize = v := Nat.div_eq_of_lt_le low high
  obtain ⟨leaf, seen⟩ := raised.page_of high (here ▸ shown)
  rw [sound.accessible_iff root, seen]
  rfl

theorem Kmem.Wrote.words {words : List Nat} {i : Nat} (wrote : s.Wrote r va (wordBytes words) len u)
    (all : ∀ i, i < len → s.Accessible r (va + i)) (inside : 8 * i + 8 ≤ len)
    (small : ∀ word ∈ words, word < 2 ^ 64) :
    load (u.userByte r) (va + 8 * i) 8 = words.getD i 0 := by
  have bound : words.getD i 0 < 256 ^ 8 := by
    rw [getD_eq_getElem?_getD]
    cases found : words[i]? with
    | none => decide
    | some word => exact small word (mem_of_getElem? found)
  rw [load_digits (words.getD i 0) fun j below => ?_, Nat.mod_eq_of_lt bound]
  rw [Nat.add_assoc, wrote.bytes _ (all _ (by omega)), if_pos (by omega),
    Nat.add_sub_cancel_left, wordBytes, show (8 * i + j) / 8 = i by omega,
    show (8 * i + j) % 8 = j by omega]

/-- The argument stack is built unless there is no room for it on its page. -/
theorem pushStack_exact
    (building : Building layout node₀ books₀ live r ((v + 1) * pgsize) userPages s)
    (root : r ∈ live)
    (positive : 1 ≤ v) (few : argv.length < maxarg) (short : ∀ arg ∈ argv, arg.length < pgsize) :
    Meets (pushStack r ((v + 1) * pgsize) argv) s (fun out u =>
      (out = none ∧ pgsize < stackRoom argv) ∨
      (out = some (argv.length, (v + 1) * pgsize - stackRoom argv) ∧ stackRoom argv ≤ pgsize ∧
        u.ArgStack r ((v + 1) * pgsize) argv argv.length ((v + 1) * pgsize - stackRoom argv)
          (places ((v + 1) * pgsize) argv))) stops := by
  have small := building.small
  have top : (v + 1) * pgsize = v * pgsize + pgsize := Nat.succ_mul v pgsize
  have guard : ((v + 1) * pgsize + 2 ^ 64 - 2 * pgsize) % 2 ^ 64 = (v - 1) * pgsize := by
    unfold pgsize at *
    omega
  have below : (v - 1) * pgsize < (v + 1) * pgsize :=
    Nat.mul_lt_mul_of_pos_right (by omega) (by decide)
  have aligned : (v + 1) * pgsize % 16 = 0 := by
    unfold pgsize
    omega
  have array : (argv.length + 1) * 8 ≤ pgsize := by
    unfold maxarg at few
    unfold pgsize
    omega
  have first : pgsize ≤ v * pgsize := Nat.le_mul_of_pos_left pgsize positive
  have room := le_slot ((argv.length + 1) * 8)
  have whole := slot_aligned ((argv.length + 1) * 8)
  have strings := stringRoom_aligned argv
  rw [pushStack, guard]
  refine (building.uvmclear root below).bind fun _ u cleared => ?_
  rw [Nat.mul_div_cancel _ (by decide)] at cleared
  have page := cleared.stackPage root positive (by omega)
  dsimp only
  rw [top, Nat.add_sub_cancel, ← top]
  refine (pushArgs_exact cleared root page aligned (by omega) le_rfl
    (by rw [length_nil]; omega) short).bind fun out w outcome => ?_
  rcases outcome with ⟨rfl, full⟩ | ⟨rfl, enough, built, page', _, holds⟩
  · rw [meets_pure]
    exact .inl ⟨rfl, by unfold stackRoom; omega⟩
  dsimp only
  rw [nil_append, places_length]
  have aligned' : ((v + 1) * pgsize - stringRoom argv) % 16 = 0 := by omega
  obtain ⟨inside, next⟩ := pushed_eq ((argv.length + 1) * 8) aligned' (by omega) (by omega)
  rw [next, Nat.sub_sub, ← stackRoom]
  have least : stackRoom argv = stringRoom argv + slot ((argv.length + 1) * 8) := rfl
  split
  · rename_i full
    rw [meets_pure]
    exact .inl ⟨rfl, by omega⟩
  rename_i fits
  have all (i : Nat) (below : i < (argv.length + 1) * 8) :
      w.Accessible r ((v + 1) * pgsize - stackRoom argv + i) :=
    page'.accessible _ (by omega) (by omega)
  refine (copyout_wrote built root all).bind fun result x met => ?_
  obtain ⟨zero, _, wrote⟩ := met
  rw [if_neg (by omega), meets_pure]
  refine .inr ⟨rfl, by omega,
    ⟨rfl, few, ?_, ?_, fun i below => ?_, fun i below => ?_, ?_, fun pair member => ?_, ?_⟩⟩
  · omega
  · have keeps := wrote.keeps le_rfl
    obtain ⟨same, each⟩ := forall₂_iff_zip.mp holds
    refine forall₂_iff_zip.mpr ⟨same, fun {place arg} member => (each member).keep keeps ?_⟩
    have inside := (places_inside (by omega) _ member).1
    omega
  · exact (wrote.accessible _).mpr (all i (by omega))
  · exact wrote.words all (by omega) fun word member => by
      rcases mem_append.mp member with place | zero
      · have below := places_le word place
        omega
      · rw [mem_singleton.mp zero]
        decide
  · exact places_apart (by omega)
  · have inside := places_inside (by omega) pair member
    omega
  · omega

end Push

section Exec

variable {layout : Layout} {s : Kmem} {node₀ node : Nodes} {books₀ books : Books}
  {live : Finset Nat} {r : Nat} {argv : List (List UInt8)} {image : Image} {p : Proc}

/-- The segments of a file are loaded into a page table, and there is memory for the stack. -/
def Image.Loads (image : Image) (pagetable : Nat) (k : Kmem) : Prop :=
  ∃ sz k₁ sz1 k₂, loadSegments pagetable image.headers 0 k = .ok ((true, sz), k₁) ∧
    uvmalloc pagetable (pgroundup sz) ((pgroundup sz + 2 * pgsize) % 2 ^ 64) pteW k₁ =
      .ok (sz1, k₂) ∧ sz1 ≠ 0

/-- The file is good and there is memory for the new image. -/
def Proc.Loads (layout : Layout) (p : Proc) (image : Image) (k : Kmem) : Prop :=
  ∃ pagetable k₁, procPagetable layout p.trapframe k = .ok (pagetable, k₁) ∧ pagetable ≠ 0 ∧
    image.Loads pagetable k₁

/-- The image is built if the file is loaded and the argument stack fits. -/
theorem buildImage_exact (building : Building layout node₀ books₀ live r 0 userPages s)
    (root : r ∈ live) (few : argv.length < maxarg) (short : ∀ arg ∈ argv, arg.length < pgsize) :
    Meets (buildImage r image argv) s (fun result u =>
      (result.1 = none ∧ ¬ (image.Loads r s ∧ stackRoom argv ≤ pgsize)) ∨
      (∃ sp, result.1 = some (argv.length, sp) ∧ (image.Loads r s ∧ stackRoom argv ≤ pgsize) ∧
        u.ArgStack r result.2 argv argv.length sp (places result.2 argv)))
          fun _ => ¬ image.Loads r s := by
  rw [buildImage]
  have loading : Meets (loadSegments r image.headers 0) s _ fun _ => True :=
    loadSegments_building building root fun _ _ _ => trivial
  have only (e : Panic) (failed : loadSegments r image.headers 0 s = .error e) :
      ¬ image.Loads r s := by
    rintro ⟨sz, k₁, sz1, k₂, loaded, _⟩
    rw [failed] at loaded
    cases loaded
  refine ((loading.stopped only).and meets_self).bind fun result u met => ?_
  obtain ⟨built, loaded⟩ := met
  obtain ⟨done, sz⟩ := result
  dsimp only at built ⊢
  split
  · rename_i bad
    rw [meets_pure]
    refine .inl ⟨rfl, ?_⟩
    rintro ⟨⟨_, _, _, _, loaded', _⟩, _⟩
    rw [loaded, bad] at loaded'
    cases loaded'
  rename_i good
  rw [Bool.not_eq_false] at good
  subst good
  have rounded := built.round
  have low := rounded.small
  have small := built.small
  refine ((rounded.uvmalloc root (by decide) (by decide)).and meets_self).bind fun sz1 w met => ?_
  obtain ⟨outcome, ran⟩ := met
  split
  · rename_i zero
    rw [meets_pure]
    refine .inl ⟨rfl, ?_⟩
    rintro ⟨⟨_, _, _, _, loaded', ran', real⟩, _⟩
    cases loaded.symm.trans loaded'
    cases ran.symm.trans ran'
    exact real zero
  rename_i real
  have loads : image.Loads r s := ⟨sz, u, sz1, w, loaded, ran, real⟩
  rcases outcome with ⟨zero, _⟩ | ⟨same, grown⟩
  · exact absurd zero real
  obtain ⟨v, positive, size⟩ : ∃ v, 1 ≤ v ∧ sz1 = (v + 1) * pgsize := by
    refine ⟨pageCount sz + 1, by omega, ?_⟩
    rw [same]
    unfold pageCount pgroundup pgsize at *
    dsimp only
    omega
  subst size
  refine (pushStack_exact grown root positive few short).bind fun out x outcome => ?_
  rw [meets_pure]
  rcases outcome with ⟨rfl, full⟩ | ⟨rfl, fits, stack⟩
  · exact .inl ⟨rfl, fun both => absurd both.2 (by omega)⟩
  · exact .inr ⟨_, rfl, ⟨loads, fits⟩, stack⟩

theorem Sound.keeps {live' : Finset Nat} {node' : Nodes} {books' : Books} {tf : Nat}
    (before : Sound layout s live node books) (after : Sound layout u live' node' books')
    (root : r ∈ live) (root' : r ∈ live') (held : tf ∈ books.held)
    (leaf : ∀ v, books'.leaf (r, v) = books.leaf (r, v))
    (data : ∀ x, x ≠ tf → books'.data x = books.data x) : s.KeepsFrom u r 0 := by
  intro a _ there
  have shown := before.view_byte root there
  refine after.view_some root' (Eq.trans ?_ shown)
  obtain ⟨x, seen, _⟩ := map_eq_some_iff.mp shown
  obtain ⟨low, mapped, user⟩ := Books.reach_some.mp seen
  have apart : x.pa ≠ tf := by
    rintro rfl
    exact before.good.kernel mapped ((before.good.guarded r).below seen) held
  have seen' : books'.reach r a = some x := Books.reach_some.mpr ⟨low, (leaf _).trans mapped, user⟩
  rw [Books.view, Books.view, seen, seen', map_some, map_some, data _ apart]

/-- `exec` succeeds if the file is loaded and the argument stack fits. -/
theorem exec_exact (sound : Sound layout s live node books) (root : p.pagetable ∈ live)
    (tf : p.trapframe ∈ books.held) (fits : books.Fits p.pagetable p.sz)
    (few : argv.length < maxarg) (short : ∀ arg ∈ argv, arg.length < pgsize) :
    Meets (p.exec layout (some image) argv) s (fun result u =>
      (result.1 = -1 ∧ ¬ (p.Loads layout image s ∧ stackRoom argv ≤ pgsize)) ∨
      (result.1 = argv.length ∧ (p.Loads layout image s ∧ stackRoom argv ≤ pgsize) ∧ ∃ sp,
        u.ArgStack result.2.pagetable result.2.sz argv argv.length sp (places result.2.sz argv) ∧
        load u.mem (result.2.trapframe + tfA1) 8 = sp ∧
        load u.mem (result.2.trapframe + tfSp) 8 = sp))
      fun _ => ¬ p.Loads layout image s := by
  rw [Proc.exec]
  refine ((procPagetable_sound sound tf).and meets_self).bind fun pt k₁ met => ?_
  obtain ⟨outcome, made⟩ := met
  rcases outcome with ⟨zero, _⟩ | ⟨_, real, new, empty, node', leaf, _, elsewhere, launched⟩
  · rw [if_pos zero, meets_pure]
    refine .inl ⟨rfl, ?_⟩
    rintro ⟨⟨_, _, made', real, _⟩, _⟩
    cases made.symm.trans made'
    exact real zero
  rw [if_neg real]
  have loads : p.Loads layout image s ↔ image.Loads pt k₁ := by
    constructor
    · rintro ⟨_, _, made', _, loads⟩
      cases made.symm.trans made'
      exact loads
    · exact fun loads => ⟨pt, k₁, made, real, loads⟩
  rw [loads]
  have apart : p.pagetable ≠ pt := by
    rintro rfl
    exact new root
  have alive := Finset.mem_insert_self pt live
  have start : Building layout node books (insert pt live) pt 0 userPages k₁ :=
    .start empty elsewhere launched
  have building : Meets (buildImage pt image argv) k₁ _ fun _ => True :=
    buildImage_building start alive fun _ _ _ => trivial
  refine ((buildImage_exact start alive few short).and building).bind fun result k₂ met => ?_
  obtain ⟨exact, built⟩ := met
  obtain ⟨out, sz⟩ := result
  obtain ⟨_, node₂, books₂, sound₂, raised⟩ := built
  dsimp only at exact raised
  have others := raised.others
  rcases exact with ⟨rfl, refused⟩ | ⟨sp, rfl, both, stack⟩
  · dsimp only
    refine (procFreepagetable_sound sound₂ alive raised.fits).bind fun _ u _ => ?_
    rw [meets_pure]
    exact .inl ⟨rfl, refused⟩
  · dsimp only
    have held : p.trapframe ∈ books₂.held := by
      rw [raised.held]
      exact tf
    have oldFits : books₂.Fits p.pagetable p.sz := fits.congr fun v => by rw [others _ apart]
    refine (commit_sound _ _ _ _ _ sound₂ (Finset.mem_insert_of_mem root) held oldFits).mono
      (fun result u met => ?_) fun _ => False.elim
    obtain ⟨same, node₃, books₃, after, _, leaf', data, _, a1, stackPointer⟩ := met
    subst same
    have small : sp < 256 ^ 8 := by
      have low := (stack.reach 0 (by omega)).1
      rw [maxva_eq] at low
      omega
    rw [Nat.mod_eq_of_lt small] at a1 stackPointer
    have keeps := sound₂.keeps after alive (Finset.mem_erase.mpr ⟨apart.symm, alive⟩) held
      (fun v => leaf' pt v apart.symm) data
    exact .inr ⟨rfl, both, sp, stack.keep keeps, a1, stackPointer⟩

/-- In every reached state `exec` with few short arguments makes their stack. It fails just where
the file is not loaded or the stack does not fit on its page. -/
theorem exec_argument_stack (layout : Layout) (mem : Foundation.Memory) (counts : Nat → Int)
    (u : Kmem) (booted : kinit layout ⟨mem, counts, 0⟩ = .ok ((), u)) (events : List Event)
    (s : System) (run : exec (System.step layout) (System.start u) events = some s) (p : Nat)
    (q : Proc) (here : s.procs p = some q) (image : Image) (argv : List (List UInt8))
    (few : argv.length < maxarg) (short : ∀ arg ∈ argv, arg.length < pgsize) :
    (q.Loads layout image s.kmem →
      ∃ result q' k, q.exec layout (some image) argv s.kmem = .ok ((result, q'), k)) ∧
      ∀ result q' k, q.exec layout (some image) argv s.kmem = .ok ((result, q'), k) →
        (result = -1 ↔ ¬ (q.Loads layout image s.kmem ∧ stackRoom argv ≤ pgsize)) ∧
        (result ≠ -1 → ∃ sp places, k.ArgStack q'.pagetable q'.sz argv result.toNat sp places ∧
          load k.mem (q'.trapframe + tfA1) 8 = sp ∧ load k.mem (q'.trapframe + tfSp) 8 = sp) := by
  obtain ⟨live, tfs, node, books, shows⟩ := System.valid_run booted run
  obtain ⟨root, tf, fits⟩ := shows.proc here
  have meets : Meets (q.exec layout (some image) argv) s.kmem _ _ :=
    exec_exact shows.sound root (shows.tf_held here) fits few short
  constructor
  · intro loads
    unfold Meets at meets
    cases ended : q.exec layout (some image) argv s.kmem with
    | error e =>
      rw [ended] at meets
      exact absurd loads meets
    | ok out => exact ⟨out.1.1, out.1.2, out.2, rfl⟩
  · intro result q' k ended
    rcases meets.result ended with ⟨minus, refused⟩ | ⟨argc, both, sp, stack, a1, stackPointer⟩
    · exact ⟨iff_of_true minus refused, fun other => absurd minus other⟩
    · dsimp only at argc stack
      refine ⟨iff_of_false (by omega) (not_not.mpr both),
        fun _ => ⟨sp, places q'.sz argv, ?_, a1, stackPointer⟩⟩
      rw [argc]
      exact stack

/-- The first process replaces itself by a program without segments, with one argument. -/
theorem exec_argument_stack_one :
    ∃ u s q result q' k sp places, kinit smallLayout ⟨fun _ => 0, fun _ => 0, 0⟩ = .ok ((), u) ∧
      exec (System.step smallLayout) (System.start u) [.userinit 0 []] = some s ∧
      s.procs 0 = some q ∧
      q.Loads smallLayout ⟨0, []⟩ s.kmem ∧ q.exec smallLayout (some ⟨0, []⟩) [[104, 105]] s.kmem =
      .ok ((result, q'), k) ∧
      k.ArgStack q'.pagetable q'.sz [[104, 105]] result.toNat sp places ∧
      load k.mem (q'.trapframe + tfA1) 8 = sp := by
  have computed : ((bootSystem smallLayout [.userinit 0 []]).bind fun s => (s.procs 0).bind fun q =>
      (procPagetable smallLayout q.trapframe s.kmem).toOption.bind fun made =>
        (uvmalloc made.1 (pgroundup 0)
            ((pgroundup 0 + 2 * pgsize) % 2 ^ 64) pteW made.2).toOption.map fun grown =>
          decide (made.1 ≠ 0 ∧ grown.1 ≠ 0)) = some true := by
    decide +kernel
  obtain ⟨s, ended, rest⟩ := bind_eq_some_iff.mp computed
  obtain ⟨q, here, rest⟩ := bind_eq_some_iff.mp rest
  obtain ⟨⟨pt, k₁⟩, made, rest⟩ := bind_eq_some_iff.mp rest
  obtain ⟨⟨sz, k₂⟩, grown, real⟩ := map_eq_some_iff.mp rest
  obtain ⟨table, size⟩ := of_decide_eq_true real
  obtain ⟨u, booted, run⟩ := bootSystem_some ended
  have loads : q.Loads smallLayout ⟨0, []⟩ s.kmem :=
    ⟨pt, k₁, ended_of_toOption made, table, 0, k₁, sz, k₂, rfl, ended_of_toOption grown, size⟩
  obtain ⟨ends, returns⟩ :=
    exec_argument_stack smallLayout _ _ u booted _ s run 0 q here ⟨0, []⟩ [[104, 105]]
    (by decide) (by decide)
  obtain ⟨result, q', k, done⟩ := ends loads
  obtain ⟨refused, stack⟩ := returns result q' k done
  have fits : stackRoom [[104, 105]] ≤ pgsize := by decide
  obtain ⟨sp, places, built, a1, _⟩ := stack fun minus => refused.mp minus ⟨loads, fits⟩
  exact ⟨u, s, q, result, q', k, sp, places, booted, run, here, loads, done, built, a1⟩

end Exec

end EnhancedXv6.Memory
