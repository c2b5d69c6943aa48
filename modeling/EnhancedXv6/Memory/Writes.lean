import EnhancedXv6.Memory.Isolation

namespace EnhancedXv6.Memory

open Foundation Option Function Books

variable {layout : Layout} {k : Kmem} {node : Nodes} {books books' final : Books}
  {live : Finset Nat} {r r' va len a : Nat} {src : Nat → UInt8} {leaf leaf' : Leaf} {result : Int}
  {i x y : Nat}

def Books.Writable (books : Books) (r va len : Nat) : Prop :=
  ∀ i, i < len → (books.reach r (va + i)).isSome

/-- The byte `i` of a range is reached before `copyout` fails. -/
def Books.Hit (books : Books) (r va len i : Nat) : Prop :=
  i < len ∧ ∀ j, j ≤ i → (books.reach r (va + j)).isSome

/-- Two address spaces find one byte, which the first of them can write without a copy. -/
def Books.Linked (books : Books) (r y r' x : Nat) : Prop :=
  ∃ leaf leaf', books.reach r y = some leaf ∧ leaf.flags.testBit 8 = false ∧
    books.reach r' x = some leaf' ∧ leaf'.pa = leaf.pa ∧ x % pgsize = y % pgsize

theorem Books.Linked.view (linked : books.Linked r a r' va) :
    books.view r' va = books.view r a := by
  obtain ⟨leaf, leaf', seen, _, seen', frame, offset⟩ := linked
  rw [Books.view, Books.view, seen, seen', map_some, map_some, frame, offset]

section Round

variable (round : Round r va len src books books' leaf leaf')
include round

theorem Round.leaf_now :
    (books'.put leaf'.pa (va % pgsize) (chunk va len) src).reach r va = some leaf' := by
  obtain ⟨low, mapped, user⟩ := reach_some.mp round.seen
  apply reach_some.mpr
  rcases round.own with ⟨_, rfl, rfl⟩ | ⟨_, flags, _, _, rfl⟩
  · exact ⟨low, mapped, user⟩
  · refine ⟨low, update_self _ _ _, ?_⟩
    rw [flags, testBit_own, user]
    rfl

theorem Round.reach_isSome (r' x : Nat) :
    ((books'.put leaf'.pa (va % pgsize) (chunk va len) src).reach r' x).isSome =
      (books.reach r' x).isSome := by
  by_cases other : r' ≠ r ∨ x / pgsize ≠ va / pgsize
  · rw [round.reach_other other]
  · obtain ⟨rfl, page⟩ : r' = r ∧ x / pgsize = va / pgsize := by
      simpa only [not_or, not_not] using other
    rw [reach_page _ _ page, reach_page books _ page, round.leaf_now, round.seen]
    rfl

theorem Round.writable_iff :
    books.Writable r va len ↔
      (books'.put leaf'.pa (va % pgsize) (chunk va len) src).Writable r
        ((pgrounddown va + pgsize) % 2 ^ 64) (len - chunk va len) := by
  obtain ⟨low, _, _⟩ := reach_some.mp round.seen
  constructor
  · intro writable i inside
    have place :=
      (chunk_next low (Nat.le_add_right (chunk va len) i) (show chunk va len + i < len by omega)).1
    rw [round.reach_isSome,
      show (pgrounddown va + pgsize) % 2 ^ 64 + i = va + (chunk va len + i) by omega]
    exact writable _ (by omega)
  · intro writable i inside
    by_cases first : i < chunk va len
    · rw [reach_page books r (chunk_page first).1, round.seen]
      rfl
    · have place := (chunk_next low (show chunk va len ≤ i by omega) inside).1
      have later := writable (i - chunk va len) (by omega)
      rwa [round.reach_isSome, place] at later

theorem Round.data_own (o : Nat) :
    (books'.put leaf'.pa (va % pgsize) (chunk va len) src).data leaf'.pa o =
      if va % pgsize ≤ o ∧ o < va % pgsize + chunk va len then src (o - va % pgsize)
        else books.data leaf.pa o := by
  unfold put
  dsimp only
  rw [update_self]
  rcases round.own with ⟨_, rfl, rfl⟩ | ⟨_, _, _, _, rfl⟩
  · rfl
  · unfold unshare
    dsimp only
    rw [update_self]

theorem Round.view_written (inside : i < chunk va len) :
    (books'.put leaf'.pa (va % pgsize) (chunk va len) src).view r (va + i) = some (src i) := by
  obtain ⟨page, offset⟩ := chunk_page inside
  rw [Books.view, reach_page _ _ page, round.leaf_now, map_some, offset, round.data_own,
    if_pos ⟨by omega, by omega⟩, Nat.add_sub_cancel_left]

theorem Round.view_missed (missed : ∀ i, i < chunk va len → x ≠ va + i) :
    (books'.put leaf'.pa (va % pgsize) (chunk va len) src).view r x = books.view r x := by
  obtain ⟨low, mapped, _⟩ := reach_some.mp round.seen
  by_cases page : x / pgsize = va / pgsize
  · have outside : ¬ (va % pgsize ≤ x % pgsize ∧ x % pgsize < va % pgsize + chunk va len) := by
      intro inside
      refine missed (x % pgsize - va % pgsize) (by omega) ?_
      unfold pgsize at page inside ⊢
      omega
    rw [Books.view, Books.view, reach_page _ _ page, reach_page books _ page,
      round.leaf_now, round.seen, map_some, map_some, round.data_own, if_neg outside]
  · unfold Books.view
    rw [round.reach_other (.inr page)]
    cases there : books.reach r x with
    | none => rfl
    | some y =>
      rw [map_some, map_some, round.data there, if_neg]
      intro written
      exact page (round.good.apart ((round.good.guarded r).below there)
        ((round.good.guarded r).below round.seen)
        (reach_some.mp there).2.1 mapped written.2.1)

/-- The bytes that are reached are those of the page of the round, and those of the rest. -/
theorem Round.hit_iff : books.Hit r va len i ↔ i < chunk va len ∨ chunk va len ≤ i ∧
    (books'.put leaf'.pa (va % pgsize) (chunk va len) src).Hit r
      ((pgrounddown va + pgsize) % 2 ^ 64) (len - chunk va len) (i - chunk va len) := by
  obtain ⟨low, _, _⟩ := reach_some.mp round.seen
  have here : ∀ j, j < chunk va len → (books.reach r (va + j)).isSome := by
    intro j inside
    rw [reach_page books r (chunk_page inside).1, round.seen]
    rfl
  have next : ∀ j, chunk va len ≤ j → j < len →
      (pgrounddown va + pgsize) % 2 ^ 64 + (j - chunk va len) = va + j :=
    fun j beyond inside => (chunk_next low beyond inside).1
  constructor
  · rintro ⟨inside, reached⟩
    by_cases first : i < chunk va len
    · exact .inl first
    · refine .inr ⟨by omega, by omega, fun j below => ?_⟩
      have later := next (chunk va len + j) (by omega) (by omega)
      rw [Nat.add_sub_cancel_left] at later
      rw [round.reach_isSome, later]
      exact reached _ (by omega)
  · rintro (first | ⟨beyond, inside, reached⟩)
    · exact ⟨first.trans_le (Nat.min_le_right _ _), fun j below => here j (by omega)⟩
    · refine ⟨by omega, fun j below => ?_⟩
      by_cases first : j < chunk va len
      · exact here j first
      · have later := reached (j - chunk va len) (by omega)
        rwa [next j (by omega) (by omega), round.reach_isSome] at later

theorem Round.linked_iff (other : r' ≠ r) :
    (books'.put leaf'.pa (va % pgsize) (chunk va len) src).Linked r y r' x ↔
      books.Linked r y r' x := by
  unfold Linked
  rw [round.reach_other (.inl other)]
  by_cases page : y / pgsize = va / pgsize
  · rw [reach_page _ _ page, reach_page books _ page, round.leaf_now, round.seen]
    rcases round.own with ⟨_, rfl, _⟩ | ⟨shared, _, _, fresh, _⟩
    · exact Iff.rfl
    · constructor
      · rintro ⟨_, there, same, _, seen, frame, _⟩
        cases same
        exact absurd frame
          (fresh _ _ _ (reach_some.mp seen).2.1 ((round.good.guarded r').below seen))
      · rintro ⟨_, _, same, plain, _⟩
        cases same
        rw [plain] at shared
        cases shared
  · rw [round.reach_other (.inr page)]

theorem Round.view_unlinked (other : r' ≠ r) (unlinked : ∀ y, ¬ books.Linked r y r' x) :
    (books'.put leaf'.pa (va % pgsize) (chunk va len) src).view r' x = books.view r' x := by
  unfold Books.view
  rw [round.reach_other (.inl other)]
  cases there : books.reach r' x with
  | none => rfl
  | some y =>
    rw [map_some, map_some, round.data there, if_neg]
    rintro ⟨plain, frame, low, high⟩
    have page := chunk_page (show x % pgsize - va % pgsize < chunk va len by omega)
    refine unlinked (va + (x % pgsize - va % pgsize)) ⟨leaf, y, ?_, plain, there, frame, ?_⟩
    · rw [reach_page books r page.1, round.seen]
    · rw [page.2]
      omega

end Round

section Copies

section

variable (copies : Copies r books va src len result final)

include copies

/-- A page below the addresses of `copyout` stays mapped as it is. -/
theorem Copies.leaf_below {w : Nat} (below : w < va / pgsize) :
    final.leaf (r, w) = books.leaf (r, w) := by
  induction copies with
  | done | refused => rfl
  | @round books books' final va len src old new result more seen own rest ih =>
    obtain ⟨low, _, _⟩ := reach_some.mp seen
    have later : w < (pgrounddown va + pgsize) % 2 ^ 64 / pgsize := by
      rw [maxva_eq] at low
      unfold pgrounddown
      unfold pgsize at below ⊢
      omega
    rw [ih later]
    change books'.leaf (r, w) = books.leaf (r, w)
    rcases own with ⟨_, _, rfl⟩ | ⟨_, _, _, _, rfl⟩
    · rfl
    · refine update_of_ne (fun same => ?_) _ _
      have := congrArg Prod.snd same
      dsimp only at this
      omega

section

variable (good : books.Good)

include good

/-- A page below the addresses of `copyout` shows what it showed. -/
theorem Copies.view_below (below : x / pgsize < va / pgsize) : final.view r x = books.view r x := by
  unfold Books.view
  rw [reach_congr (copies.leaf_below below)]
  cases there : books.reach r x with
  | none => rfl
  | some leaf =>
    rw [map_some, map_some, copies.frame good (reach_some.mp there).2.1 below]

theorem Copies.reach_isSome (r' x : Nat) :
    (final.reach r' x).isSome = (books.reach r' x).isSome := by
  induction copies with
  | done | refused => rfl
  | @round books books' final va len src leaf leaf' result more seen own rest ih =>
    have round : Round r va len src books books' leaf leaf' := ⟨good, seen, own⟩
    exact (ih round.put_good).trans (round.reach_isSome r' x)

theorem Copies.negative_iff : result < 0 ↔ ¬ books.Writable r va len := by
  induction copies with
  | done =>
    refine ⟨fun negative => absurd negative (lt_irrefl 0), fun hidden => absurd ?_ hidden⟩
    exact fun _ below => absurd below (Nat.not_lt_zero _)
  | refused books va src more hidden =>
    refine ⟨fun _ writable => ?_, fun _ => by decide⟩
    have first := writable 0 more
    rw [Nat.add_zero, hidden] at first
    cases first
  | @round books books' final va len src leaf leaf' result more seen own rest ih =>
    have round : Round r va len src books books' leaf leaf' := ⟨good, seen, own⟩
    rw [ih round.put_good, round.writable_iff]

theorem Copies.view_hit (hit : books.Hit r va len i) : final.view r (va + i) = some (src i) := by
  induction copies generalizing i with
  | done => exact absurd hit.1 (Nat.not_lt_zero i)
  | refused books va src more hidden =>
    have first := hit.2 0 (Nat.zero_le i)
    rw [Nat.add_zero, hidden] at first
    cases first
  | @round books books' final va len src leaf leaf' result more seen own rest ih =>
    have round : Round r va len src books books' leaf leaf' := ⟨good, seen, own⟩
    have low := (reach_some.mp seen).1
    rcases round.hit_iff.mp hit with inside | ⟨beyond, later⟩
    · -- the rest of the writes go to later pages
      have below : (va + i) / pgsize < (pgrounddown va + pgsize) % 2 ^ 64 / pgsize := by
        rw [(chunk_page inside).1]
        rw [maxva_eq] at low
        unfold pgrounddown pgsize
        omega
      rw [rest.view_below round.put_good below, round.view_written inside]
    · have written := ih round.put_good later
      dsimp only at written
      rwa [(chunk_next low beyond hit.1).1, Nat.add_sub_cancel' beyond] at written

theorem Copies.view_missed (missed : ∀ i, books.Hit r va len i → x ≠ va + i) :
    final.view r x = books.view r x := by
  induction copies with
  | done | refused => rfl
  | @round books books' final va len src leaf leaf' result more seen own rest ih =>
    have round : Round r va len src books books' leaf leaf' := ⟨good, seen, own⟩
    have low := (reach_some.mp seen).1
    rw [ih round.put_good, round.view_missed]
    · exact fun i inside => missed i (round.hit_iff.mpr (.inl inside))
    · intro i hit same
      have total : chunk va len + i - chunk va len = i := Nat.add_sub_cancel_left _ _
      have whole := round.hit_iff.mpr (.inr ⟨Nat.le_add_right _ i, by rw [total]; exact hit⟩)
      have place := (chunk_next low (Nat.le_add_right _ i) whole.1).1
      rw [total] at place
      exact missed _ whole (same.trans place)

/-- What `copyout` and another process can find together, before and after. -/
theorem Copies.linked_iff (other : r' ≠ r) : final.Linked r y r' x ↔ books.Linked r y r' x := by
  induction copies with
  | done | refused => exact Iff.rfl
  | @round books books' final va len src leaf leaf' result more seen own rest ih =>
    have round : Round r va len src books books' leaf leaf' := ⟨good, seen, own⟩
    exact (ih round.put_good).trans (round.linked_iff other)

theorem Copies.view_unlinked (other : r' ≠ r) (unlinked : ∀ y, ¬ books.Linked r y r' x) :
    final.view r' x = books.view r' x := by
  induction copies with
  | done | refused => rfl
  | @round books books' final va len src leaf leaf' result more seen own rest ih =>
    have round : Round r va len src books books' leaf leaf' := ⟨good, seen, own⟩
    rw [ih round.put_good fun y => (round.linked_iff other).not.mpr (unlinked y)]
    exact round.view_unlinked other unlinked

end

end

end Copies

/-- One address space has been written, and others have changed only where they find its bytes. -/
structure Books.Rewrites (r : Nat) (books books' : Books) : Prop where
  reach : ∀ r' x, (books'.reach r' x).isSome = (books.reach r' x).isSome
  linked : ∀ {r' x y}, r' ≠ r → (books'.Linked r y r' x ↔ books.Linked r y r' x)
  unlinked : ∀ {r' x}, r' ≠ r → (∀ y, ¬ books.Linked r y r' x) → books'.view r' x = books.view r' x

theorem Books.Rewrites.trans (first : Rewrites r books books') (second : Rewrites r books' final) :
    Rewrites r books final where
  reach r' x := (second.reach r' x).trans (first.reach r' x)
  linked other := (second.linked other).trans (first.linked other)
  unlinked other alone :=
    (second.unlinked other fun y => (first.linked other).not.mpr (alone y)).trans
      (first.unlinked other alone)

section

variable (rewrites : Books.Rewrites r books books')

include rewrites

theorem Books.Rewrites.unseen (same : ∀ x, books'.view r x = books.view r x) (r' x : Nat) :
    books'.view r' x = books.view r' x := by
  by_cases own : r' = r
  · rw [own, same]
  · by_cases alone : ∀ y, ¬ books.Linked r y r' x
    · exact rewrites.unlinked own alone
    · obtain ⟨y, linked⟩ := not_forall_not.mp alone
      rw [linked.view, ((rewrites.linked own).mpr linked).view, same]

theorem Books.Rewrites.writable (va len : Nat) :
    books'.Writable r va len ↔ books.Writable r va len := by
  unfold Writable
  simp only [rewrites.reach]

theorem Books.Rewrites.hit : books'.Hit r va len i ↔ books.Hit r va len i := by
  unfold Hit
  simp only [rewrites.reach]

end

/-- The memory after a `copyout`, as its process and the others see it. -/
structure Copied (layout : Layout) (live : Finset Nat) (node : Nodes) (books : Books) (r va : Nat)
    (src : Nat → UInt8) (len : Nat) (result : Int) (k : Kmem) (books' : Books) : Prop where
  sound : Sound layout k live node books'
  keeps : Books.Keeps r books books'
  rewrites : Books.Rewrites r books books'
  negative : result < 0 ↔ ¬ books.Writable r va len
  hit : ∀ {i}, books.Hit r va len i → books'.view r (va + i) = some (src i)
  missed : ∀ {x}, (∀ i, books.Hit r va len i → x ≠ va + i) → books'.view r x = books.view r x
  status : result = 0 ∨ result = -1

theorem Copies.status (copies : Copies r books va src len result final) :
    result = 0 ∨ result = -1 := by
  induction copies with
  | done => exact .inl rfl
  | refused => exact .inr rfl
  | round more seen own rest ih => exact ih

theorem copyout_copied (sound : Sound layout k live node books) (root : r ∈ live) :
    Meets (copyout r va src len) k
      (fun result u => ∃ books', Copied layout live node books r va src len result u books')
      fun _ => True := by
  have meets : Meets (copyout r va src len) k _ fun _ => True :=
    copyout_meets sound.tables sound.paid root (sound.good.guarded _) fun _ _ => trivial
  refine meets.mono (fun result u ⟨books', after, copies⟩ => ?_) fun _ => id
  have good := sound.good
  have kept := copies.keeps good
  exact ⟨books', ⟨after, kept.debt.trans sound.paid, kept.good⟩, kept,
    ⟨copies.reach_isSome good, copies.linked_iff good, copies.view_unlinked good⟩,
    copies.negative_iff good, copies.view_hit good, copies.view_missed good, copies.status⟩

def Kmem.Writable (k : Kmem) (pagetable va len : Nat) : Prop :=
  ∀ i, i < len → (k.userAddr pagetable (va + i)).isSome

/-- The byte `i` of a range is reached before `copyout` fails. -/
def Kmem.Hit (k : Kmem) (pagetable va len i : Nat) : Prop :=
  i < len ∧ ∀ j, j ≤ i → (k.userAddr pagetable (va + j)).isSome

instance Kmem.decidableWritable (k : Kmem) (pagetable va len : Nat) :
    Decidable (k.Writable pagetable va len) :=
  inferInstanceAs (Decidable (∀ i, i < len → (k.userAddr pagetable (va + i)).isSome = true))

theorem Sound.writable_iff (sound : Sound layout k live node books) (root : r ∈ live) :
    k.Writable r va len ↔ books.Writable r va len := by
  unfold Kmem.Writable Writable
  simp only [sound.tables.userAddr_eq root, isSome_map]

theorem Sound.hit_iff (sound : Sound layout k live node books) (root : r ∈ live) :
    k.Hit r va len i ↔ books.Hit r va len i := by
  unfold Kmem.Hit Hit
  simp only [sound.tables.userAddr_eq root, isSome_map]

end EnhancedXv6.Memory
