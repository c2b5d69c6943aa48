import EnhancedXv6.Memory.Mapping

namespace EnhancedXv6.Memory

open Foundation Function Option Finset Multiset Books

variable {layout : Layout} {s : Kmem} {node : Nodes} {books : Books} {live : Finset Nat}
  {pa r c d p q t v va : Nat} {stops : Panic → Prop} {content : Nat → UInt8} {i sz : Nat}

section Create

theorem Tables.untouched (tables : Tables layout s live node books)
    (plain : Memory.tables node c = 0) :
    (∀ d p, node (c, d, p) = none) ∧ ∀ v, books.leaf (c, v) = none := by
  have empty (d p : Nat) : node (c, d, p) = none := by
    cases there : node (c, d, p) with
    | none => rfl
    | some t =>
      obtain ⟨_, _, inside⟩ := tables.shows.accounts.named there
      rw [show d = 0 + d by omega] at there
      obtain ⟨t', top⟩ := (tables.rooted c).ancestor d there
      rw [Nat.div_eq_of_lt inside] at top
      obtain rfl := (tables.rooted c).root top
      have positive := tables.shows.accounts.tables_pos top
      omega
  exact ⟨empty, fun _ => (tables.rooted c).unmapped (empty _ _)⟩

theorem uvmcreate_meets (tables : Tables layout s live node books) (paid : books.debt = 0) :
    Meets uvmcreate s (fun pt u => pt = 0 ∧ u = s ∧ s.spare layout = 0 ∨
      s.spare layout ≤ u.spare layout + 1 ∧ Unused layout node books pt ∧
        (∀ v, books.leaf (pt, v) = none) ∧
        ∃ node', Nodes.Elsewhere pt node node' ∧
        Tables layout u (insert pt live) node' books) stops := by
  unfold uvmcreate
  refine ((kalloc_meets tables.shows paid).and (kalloc_spare tables.shows)).bind
    fun c u ⟨outcome, short, spare⟩ => ?_
  rcases outcome with ⟨none, same⟩ | ⟨unused, shows⟩
  · rw [if_pos none, meets_pure]
    exact .inl ⟨rfl, same, short none⟩
  · rw [if_neg unused.page.ne_zero, meets_bind, meets_memset, meets_pure]
    obtain ⟨empty, unmapped⟩ := tables.untouched unused.plain
    have used : 0 < u.numpUsing (c / pgsize) :=
      shows.accounts.held_count paid (mem_cons_self c books.held)
    have cleared := shows.rewrite (m := fill u.mem c pgsize 0) unused.page used unused.plain
      fun x outside => fill_other outside
    have adopted :=
      cleared.adoptRoot rfl unused.unheld unused.unmapped (by simp [hold, paid]) ?_ empty
    · refine .inr ⟨spare, unused, unmapped, _, fun name other => ?_, adopted.forget ?_, ?_, ?_⟩
      · exact update_of_ne (fun same => other (by rw [same])) _ _
      · intro pa _ _ plain o _
        have other : pa ≠ c := by
          rintro rfl
          have positive := adopted.accounts.tables_pos (update_self _ _ _)
          omega
        simp [hold, other]
      · intro r
        refine ⟨?_, ?_, ?_⟩
        · intro t top
          by_cases same : r = c
          · subst same
            rw [update_self] at top
            exact (some.inj top).symm
          · rw [update_of_ne (by simp [same])] at top
            exact (tables.rooted r).root top
        · intro d q t below
          rw [update_of_ne (by simp)] at below
          obtain ⟨t', above⟩ := (tables.rooted r).parent below
          refine ⟨t', ?_⟩
          rw [update_of_ne ?_]
          · exact above
          · intro same
            rw [same, empty] at above
            cases above
        · intro v x mapped
          obtain ⟨t, there⟩ := (tables.rooted r).below mapped
          refine ⟨t, ?_⟩
          rw [update_of_ne (by simp)]
          exact there
      · intro r
        rw [mem_insert]
        by_cases same : r = c
        · subst same
          simp
        · rw [update_of_ne (by simp [same]), ← tables.live r]
          simp [same]
    · intro o below
      simp only [update_self]
      exact fill_same (by omega) (by omega)

end Create

section Prune

/-- The table pages below some indices at a depth are gone. -/
def prune (node : Nodes) (r d lo hi : Nat) : Nodes := fun name =>
  if name.1 = r ∧ d ≤ name.2.1 ∧ lo ≤ name.2.2 / 512 ^ (name.2.1 - d) ∧
    name.2.2 / 512 ^ (name.2.1 - d) < hi then none else node name

theorem prune_empty (lo : Nat) : prune node r d lo lo = node := by
  funext name
  exact if_neg (by omega)

theorem prune_succ (lo : Nat) (more : lo ≤ q) :
    prune (prune node r d lo q) r d q (q + 1) = prune node r d lo (q + 1) := by
  funext name
  unfold prune
  split
  · rw [if_pos (by omega)]
  · split
    · rw [if_pos (by omega)]
    · rw [if_neg (by omega)]

theorem prune_children : prune (update node (r, d, p) none) r (d + 1) (p * 512) (p * 512 + 512) =
      prune node r d p (p + 1) := by
  funext name
  obtain ⟨r', d', q⟩ := name
  unfold prune
  by_cases deeper : d + 1 ≤ d'
  · have prefixed : q / 512 ^ (d' - d) = q / 512 ^ (d' - (d + 1)) / 512 := by
      rw [show d' - d = d' - (d + 1) + 1 by omega, pow_succ, Nat.div_div_eq_div_mul]
    have range : (r' = r ∧ d + 1 ≤ d' ∧ p * 512 ≤ q / 512 ^ (d' - (d + 1)) ∧
        q / 512 ^ (d' - (d + 1)) < p * 512 + 512) ↔
        (r' = r ∧ d ≤ d' ∧ p ≤ q / 512 ^ (d' - d) ∧ q / 512 ^ (d' - d) < p + 1) := by
      rw [prefixed]
      omega
    have other : (r', d', q) ≠ (r, d, p) := by
      simp only [ne_eq, Prod.mk.injEq, not_and]
      omega
    simp only [range, update_of_ne other]
  · rw [if_neg (by simp only; omega)]
    by_cases here : (r', d', q) = (r, d, p)
    · obtain ⟨rfl, rfl, rfl⟩ : r' = r ∧ d' = d ∧ q = p := by simpa using here
      rw [update_self, if_pos]
      simp
    · rw [update_of_ne here, if_neg]
      intro ⟨root, depth, low, high⟩
      obtain rfl : d' = d := by
        dsimp only at depth
        omega
      refine here ?_
      simp only [Nat.sub_self, pow_zero, Nat.div_one] at low high
      rw [show r' = r from root, show q = p by omega]

end Prune

section Freewalk

/-- Below a table page every table page has its parent. -/
def Closed (node : Nodes) (r d p : Nat) : Prop :=
  ∀ d' q t, d ≤ d' → q / 512 ^ (d' + 1 - d) = p → node (r, d' + 1, q) = some t →
    ∃ t', node (r, d', q / 512) = some t'

theorem Closed.none_below (closed : Closed node r d p) (missing : node (r, d, p) = none) (k : Nat)
    (under : q / 512 ^ k = p) : node (r, d + k, q) = none := by
  induction k generalizing q with
  | zero =>
    rw [pow_zero, Nat.div_one] at under
    rw [under]
    exact missing
  | succ k ih =>
    have above := ih (q := q / 512) (by rw [Nat.div_div_eq_div_mul, ← pow_succ']; exact under)
    cases there : node (r, d + (k + 1), q) with
    | none => rfl
    | some t =>
      obtain ⟨t', parent⟩ := closed (d + k) q t (by omega)
        (by rw [show d + k + 1 - d = k + 1 by omega]; exact under) there
      rw [above] at parent
      cases parent

theorem Closed.prune_missing (closed : Closed node r d p) (missing : node (r, d, p) = none) :
    prune node r d p (p + 1) = node := by
  funext name
  obtain ⟨r', d', q⟩ := name
  unfold prune
  split
  · rename_i under
    obtain ⟨rfl, depth, low, high⟩ := under
    dsimp only at depth low high
    have none := closed.none_below missing (d' - d) (q := q) (by omega)
    rw [show d + (d' - d) = d' by omega] at none
    exact none.symm
  · rfl

theorem prune_other {name : Nat × Nat × Nat} {lo hi : Nat}
    (apart : ¬ (name.1 = r ∧ d ≤ name.2.1 ∧ lo ≤ name.2.2 / 512 ^ (name.2.1 - d) ∧
      name.2.2 / 512 ^ (name.2.1 - d) < hi)) : prune node r d lo hi name = node name :=
  if_neg apart

/-- What is below a child is unchanged while its elder siblings are freed. -/
theorem child_unchanged {d' : Nat} (deep : d + 1 ≤ d')
    (under : q / 512 ^ (d' - (d + 1)) = p * 512 + i) :
    prune (update node (r, d, p) none) r (d + 1) (p * 512) (p * 512 + i) (r, d', q) =
      node (r, d', q) := by
  rw [prune_other (by dsimp only; omega), update_of_ne]
  simp only [ne_eq, Prod.mk.injEq, not_and]
  omega

theorem child_here (node : Nodes) (r d p i : Nat) :
    prune (update node (r, d, p) none) r (d + 1) (p * 512) (p * 512 + i) (r, d + 1, p * 512 + i) =
      node (r, d + 1, p * 512 + i) :=
  child_unchanged le_rfl (by rw [Nat.sub_self, pow_zero, Nat.div_one])

theorem Closed.child (closed : Closed node r d p) (inside : i < 512) :
    Closed (prune (update node (r, d, p) none) r (d + 1) (p * 512) (p * 512 + i)) r (d + 1)
      (p * 512 + i) := by
  intro d' q t deep under there
  rw [child_unchanged (by omega) under] at there
  have above : q / 512 / 512 ^ (d' - (d + 1)) = p * 512 + i := by
    rw [Nat.div_div_eq_div_mul, ← pow_succ', show d' - (d + 1) + 1 = d' + 1 - (d + 1) by omega]
    exact under
  rw [child_unchanged deep above]
  refine closed d' q t (by omega) ?_ there
  rw [show d' + 1 - d = d' + 1 - (d + 1) + 1 by omega, pow_succ, ← Nat.div_div_eq_div_mul, under]
  omega

theorem pointer_plain {pa : Nat} : (pa2pte pa ||| pteV) &&& (pteR ||| pteW ||| pteX) = 0 := by
  refine Nat.eq_of_testBit_eq fun k => ?_
  rw [Nat.testBit_and, Nat.zero_testBit]
  by_cases low : k < 10
  · rw [testBit_entry low]
    interval_cases k <;> decide
  · have mask : (pteR ||| pteW ||| pteX).testBit k = false :=
      Nat.testBit_lt_two_pow (Nat.lt_of_lt_of_le (by decide)
        (Nat.pow_le_pow_right (by omega) (by omega : 10 ≤ k)))
    rw [mask, Bool.and_false]

theorem Leaf.pte_readable (leaf : Leaf) : leaf.pte &&& (pteR ||| pteW ||| pteX) ≠ 0 := by
  intro none
  have bit : (leaf.pte &&& (pteR ||| pteW ||| pteX)).testBit 1 = true := by
    rw [Nat.testBit_and, pte, testBit_entry (by omega), leaf.readable]
    decide
  rw [none, Nat.zero_testBit] at bit
  cases bit

theorem Represents.held_word (shows : Represents layout s node (books.hold t content))
    (paid : books.debt = 0) (inside : i < 512) :
    load s.mem (t + 8 * i) 8 = load content (8 * i) 8 := by
  have held : t ∈ (books.hold t content).held := mem_cons_self t _
  refine load_offset fun x _ high => ?_
  rw [shows.accounts.content (shows.accounts.holder held) (shows.accounts.held_count paid held)
    (shows.accounts.not_table_of_held held) (by unfold pgsize; omega)]
  simp [hold]

theorem Represents.held_store {value : Nat}
    (shows : Represents layout s node (books.hold t content)) (paid : books.debt = 0)
    (inside : i < 512) :
    Represents layout { s with mem := store s.mem (t + 8 * i) 8 value } node
      (books.hold t fun o => store s.mem (t + 8 * i) 8 value (t + o)) := by
  have held : t ∈ (books.hold t content).held := mem_cons_self t _
  have written := shows.rewrite (m := store s.mem (t + 8 * i) 8 value) (shows.accounts.holder held)
    (shows.accounts.held_count paid held) (shows.accounts.not_table_of_held held)
      fun x outside => by
      refine store_other ?_
      unfold pgsize at outside
      omega
  simpa only [hold, update_idem] using written

theorem Represents.drop (shows : Represents layout s node { books.hold t content with
      held := books.held }) (paid : books.debt = 0) (page : layout.Managed t)
        (unheld : t ∉ books.held)
    (unmapped : books.users t = 0) (plain : tables node t = 0) :
    Represents layout s node books := by
  refine shows.forget fun pa _ used _ o _ => ?_
  have other : pa ≠ t := by
    rintro rfl
    have count : s.numpUsing (pa / pgsize) + (books.debt.count pa : Int) =
      tables node pa + books.users pa + books.held.count pa := shows.accounts.count page
    rw [paid, plain, unmapped, count_eq_zero_of_notMem unheld, count_zero] at count
    omega
  simp [hold, other]

/-- The first children of an exposed table page are gone, and its other entries are as they were. -/
structure Emptying (layout : Layout) (node : Nodes) (books : Books) (r d p t i : Nat)
    (u : Kmem) : Prop where
  shows : ∃ content,
    Represents layout u
      (prune (Function.update node (r, d, p) none) r (d + 1) (p * 512) (p * 512 + i))
      (books.hold t content) ∧
    ∀ j, i ≤ j → j < 512 → load content (8 * j) 8 = entry node books.leaf r d p j
  leafless : ∀ v, p * 512 ≤ v / 512 ^ (2 - d) → v / 512 ^ (2 - d) < p * 512 + i →
    books.leaf (r, v) = none

theorem Emptying.start (shows : Represents layout s node books) (there : node (r, d, p) = some t)
    (orphan : ∀ d' p' j, j < 512 → (d' + 1, p' * 512 + j) = (d, p) → node (r, d', p') = none) :
    Emptying layout node books r d p t 0 s := by
  refine ⟨⟨fun o => s.mem (t + o), ?_, fun j _ inside => ?_⟩, fun v low high => by omega⟩
  · rw [add_zero, prune_empty]
    exact shows.expose there orphan
  · rw [← shows.slots.slot there inside]
    exact (load_offset fun _ _ _ => rfl).symm

theorem Emptying.leafless_succ {u : Kmem} (now : Emptying layout node books r d p t i u)
    (none : ∀ v, v / 512 ^ (2 - d) = p * 512 + i → books.leaf (r, v) = none) (v : Nat)
    (low : p * 512 ≤ v / 512 ^ (2 - d)) (high : v / 512 ^ (2 - d) < p * 512 + (i + 1)) :
    books.leaf (r, v) = Option.none := by
  by_cases last : v / 512 ^ (2 - d) = p * 512 + i
  · exact none v last
  · exact now.leafless v low (by omega)

theorem Emptying.skip {u : Kmem} (now : Emptying layout node books r d p t i u)
    (inside : i < 512) (closed : Closed node r d p) (missing : node (r, d + 1, p * 512 + i) = none)
    (leafless : ∀ v, v / 512 ^ (2 - d) = p * 512 + i → books.leaf (r, v) = none) :
    Emptying layout node books r d p t (i + 1) u := by
  obtain ⟨content, shows, words⟩ := now.shows
  refine ⟨⟨content, ?_, fun j later => words j (by omega)⟩, now.leafless_succ leafless⟩
  have unchanged := child_here node r d p i
  rw [← (closed.child inside).prune_missing (unchanged.trans missing), prune_succ _ (by omega),
    Nat.add_assoc] at shows
  exact shows

theorem Emptying.clear {u w : Kmem} (now : Emptying layout node books r d p t i w)
    (paid : books.debt = 0) (inside : i < 512)
    (shows : Represents layout u
      (prune (prune (update node (r, d, p) none) r (d + 1) (p * 512) (p * 512 + i)) r (d + 1)
        (p * 512 + i) (p * 512 + i + 1)) (books.hold t content))
    (words : ∀ j, i ≤ j → j < 512 → load content (8 * j) 8 = entry node books.leaf r d p j)
    (leafless : ∀ v, v / 512 ^ (2 - d) = p * 512 + i → books.leaf (r, v) = none) :
    Emptying layout node books r d p t (i + 1) { u with mem := store u.mem (t + 8 * i) 8 0 } := by
  rw [prune_succ _ (by omega), Nat.add_assoc] at shows
  refine ⟨⟨_, shows.held_store paid inside, fun j later below => ?_⟩, now.leafless_succ leafless⟩
  have untouched : load (store u.mem (t + 8 * i) 8 0) (t + 8 * j) 8 = load u.mem (t + 8 * j) 8 :=
    load_store_other (by omega)
  rw [← words j (by omega) below, ← shows.held_word paid below, ← untouched]
  exact (load_offset fun _ _ _ => rfl).symm

/-- Every mapped page below an index is in a table page of the lowest level. -/
def Covered (node : Nodes) (books : Books) (r d p : Nat) : Prop :=
  ∀ v leaf, v / 512 ^ (3 - d) = p → books.leaf (r, v) = some leaf →
    ∃ t, node (r, 2, v / 512) = some t

theorem Covered.leafless (covered : Covered node books r d p) (closed : Closed node r d p)
    (upper : d < 2) (inside : i < 512) (missing : node (r, d + 1, p * 512 + i) = none)
    (under : v / 512 ^ (2 - d) = p * 512 + i) : books.leaf (r, v) = none := by
  have above : v / 512 ^ (3 - d) = p := by
    rw [show 3 - d = 2 - d + 1 by omega, pow_succ, ← Nat.div_div_eq_div_mul, under]
    omega
  cases mapped : books.leaf (r, v) with
  | none => rfl
  | some leaf =>
    obtain ⟨t, there⟩ := covered v leaf above mapped
    have unchanged := child_here node r d p i
    have path : v / 512 / 512 ^ (2 - (d + 1)) = p * 512 + i := by
      rw [Nat.div_div_eq_div_mul, ← pow_succ', show 2 - (d + 1) + 1 = 2 - d by omega]
      exact under
    have nothing := (closed.child inside).none_below (unchanged.trans missing) (2 - (d + 1)) path
    rw [child_unchanged (by omega)
      (by rw [show d + 1 + (2 - (d + 1)) - (d + 1) = 2 - (d + 1) by omega]; exact path),
      show d + 1 + (2 - (d + 1)) = 2 by omega, there] at nothing
    cases nothing

theorem Covered.child (covered : Covered node books r d p) (upper : d < 2) (inside : i < 512) :
    Covered (prune (update node (r, d, p) none) r (d + 1) (p * 512) (p * 512 + i)) books r (d + 1)
      (p * 512 + i) := by
  intro v leaf under mapped
  have above : v / 512 ^ (3 - d) = p := by
    rw [show 3 - d = 3 - (d + 1) + 1 by omega, pow_succ, ← Nat.div_div_eq_div_mul, under]
    omega
  obtain ⟨t, found⟩ := covered v leaf above mapped
  refine ⟨t, ?_⟩
  rw [child_unchanged (by omega), found]
  rw [Nat.div_div_eq_div_mul, ← pow_succ', show 2 - (d + 1) + 1 = 3 - (d + 1) by omega]
  exact under

/-- A table page without children is no table page after `kfree`. -/
theorem Represents.pruned {w : Kmem} (shows : Represents layout s node books)
    (paid : books.debt = 0) (there : node (r, d, p) = some t)
    (freed : Represents layout w (prune node r d p (p + 1))
      { books.hold t content with held := books.held }) :
    Represents layout w (prune node r d p (p + 1)) books := by
  obtain ⟨page, _, unmapped, unheld, _⟩ := shows.accounts.table there
  refine freed.drop paid page unheld unmapped ?_
  by_contra positive
  obtain ⟨name, left⟩ := exists_of_tables positive
  unfold prune at left
  split at left
  · cases left
  · rename_i outside
    obtain rfl := shows.accounts.place left there
    simp at outside

/-- `freewalk` frees every table page below the one it is called with. -/
theorem freewalk_meets (level : Nat) (shows : Represents layout s node books)
    (paid : books.debt = 0) (depth : d + level = 3) (there : node (r, d, p) = some t)
    (orphan : ∀ d' p' j, j < 512 → (d' + 1, p' * 512 + j) = (d, p) → node (r, d', p') = none)
    (closed : Closed node r d p) (covered : Covered node books r d p)
    (panics : (∃ v leaf, books.leaf (r, v) = some leaf) → stops .freewalkLeaf) :
    Meets (freewalk level t) s (fun _ u => Represents layout u (prune node r d p (p + 1)) books ∧
      ∀ v, v / 512 ^ (3 - d) = p → books.leaf (r, v) = none) stops := by
  induction level generalizing s node books d p t with
  | zero =>
    have high := (shows.accounts.named there).2.1
    omega
  | succ level ih =>
    rw [freewalk]
    refine (meets_forM_range (Emptying layout node books r d p t) 512 (.start shows there orphan)
      fun i u inside now => ?_).bind fun _ u done => ?_
    · obtain ⟨content, shown, words⟩ := now.shows
      rw [meets_bind, meets_loadWord, shown.held_word paid inside, words i le_rfl inside]
      by_cases lowest : d = 2
      · subst lowest
        rw [entry, if_pos rfl]
        cases mapped : books.leaf (r, p * 512 + i) with
        | none =>
          rw [elim_none, if_neg (by simp), if_neg (by simp), meets_pure]
          refine now.skip inside closed ?_ fun v here => ?_
          · cases deeper : node (r, 2 + 1, p * 512 + i) with
            | none => rfl
            | some c =>
              have high := (shows.accounts.named deeper).2.1
              omega
          · rw [Nat.sub_self, pow_zero, Nat.div_one] at here
            rw [here]
            exact mapped
        | some leaf =>
          rw [elim_some, if_neg (fun both => leaf.pte_readable both.2),
            if_pos leaf.pte_valid, meets_throw]
          exact panics ⟨p * 512 + i, leaf, mapped⟩
      · have upper : d < 2 := by omega
        rw [entry, if_neg lowest]
        cases child : node (r, d + 1, p * 512 + i) with
        | none =>
          rw [elim_none, if_neg (by simp), if_neg (by simp), meets_pure]
          exact now.skip inside closed child fun v => covered.leafless closed upper inside child
        | some c =>
          have childPage := (shows.accounts.table child).1
          rw [elim_some, if_pos ⟨pointer_valid, pointer_plain⟩, pointer_page childPage]
          have unchanged := child_here node r d p i
          refine (ih shown paid (by omega) (unchanged.trans child) ?_ (closed.child inside)
            (covered.child upper inside) panics).bind fun _ w freed => ?_
          · intro d' p' j below same
            obtain ⟨rfl, rfl⟩ : d' = d ∧ p' = p := by
              simp only [Prod.mk.injEq] at same
              omega
            rw [prune_other (by dsimp only; omega), update_self]
          · rw [meets_storeWord]
            refine now.clear paid inside freed.1 words fun v under => freed.2 v ?_
            rw [show 3 - (d + 1) = 2 - d by omega]
            exact under
    · obtain ⟨content, emptied, _⟩ := done.shows
      rw [prune_children] at emptied
      refine (kfree_held emptied paid rfl).mono
        (fun _ w freed => ⟨shows.pruned paid there freed, fun v under => ?_⟩) fun _ => id
      have depth := (shows.accounts.named there).2.1
      rw [show 3 - d = 2 - d + 1 by omega, pow_succ, ← Nat.div_div_eq_div_mul] at under
      exact done.leafless v (by omega) (by omega)

end Freewalk

section Uvmfree

def Books.discard (books : Books) (r : Nat) : Books :=
  { books with leaf := fun name => if name.1 = r then none else books.leaf name }

theorem Books.discard_eq (books : Books) (empty : ∀ v, books.leaf (r, v) = none) :
    books.discard r = books := by
  unfold discard
  congr
  funext name
  split
  · rename_i here
    obtain ⟨r', v⟩ := name
    rw [show r' = r from here]
    exact (empty v).symm
  · rfl

theorem Books.discard_update (books : Books) (r v : Nat) (x : Option Leaf) :
    discard { books with leaf := update books.leaf (r, v) x } r = books.discard r := by
  unfold discard
  congr
  funext name
  split
  · rfl
  · rename_i other
    exact update_of_ne (fun same => other (congrArg Prod.fst same)) _ _

theorem freewalk_root (tables : Tables layout s live node books) (paid : books.debt = 0)
    (root : r ∈ live) (panics : (∃ v leaf, books.leaf (r, v) = some leaf) → stops .freewalkLeaf) :
    Meets (freewalk 3 r) s (fun _ u => (∀ v, books.leaf (r, v) = none) ∧
      ∃ node', Nodes.Elsewhere r node node' ∧
      Tables layout u (live.erase r) node' books) stops := by
  have top := (tables.live r).mp root
  refine (freewalk_meets 3 tables.shows paid (d := 0) (p := 0) (by omega) top ?_ ?_ ?_ panics).mono
    (fun _ u ⟨freed, leafless⟩ => ?_) fun _ => id
  · intro d' p' j _ same
    cases same
  · intro d' q t _ _ there
    exact (tables.rooted r).parent there
  · intro v leaf _ mapped
    exact (tables.rooted r).below mapped
  · have empty (v : Nat) : books.leaf (r, v) = none := by
      cases mapped : books.leaf (r, v) with
      | none => rfl
      | some leaf =>
        obtain ⟨t, there⟩ := (tables.rooted r).below mapped
        have inside := (tables.shows.accounts.named there).2.2
        rw [leafless v (by omega)] at mapped
        cases mapped
    -- every index below the root begins with nothing
    have gone (d q : Nat) : prune node r 0 0 (0 + 1) (r, d, q) = none := by
      unfold prune
      split
      · rfl
      · rename_i outside
        cases there : node (r, d, q) with
        | none => rfl
        | some t =>
          have inside := (tables.shows.accounts.named there).2.2
          refine absurd ⟨rfl, Nat.zero_le d, Nat.zero_le _, ?_⟩ outside
          dsimp only
          rw [Nat.sub_zero, Nat.div_eq_of_lt inside]
          omega
    have stays {r' : Nat} (other : r' ≠ r) (d q : Nat) :
        prune node r 0 0 (0 + 1) (r', d, q) = node (r', d, q) :=
      prune_other fun under => other under.1
    refine ⟨empty, _, fun name other => stays other name.2.1 name.2.2, freed,
      fun r' => ?_, fun r' => ?_⟩
    · by_cases same : r' = r
      · subst same
        refine ⟨?_, ?_, ?_⟩
        · intro t there
          rw [gone] at there
          cases there
        · intro d q t there
          rw [gone] at there
          cases there
        · intro v x mapped
          rw [empty] at mapped
          cases mapped
      · refine ⟨?_, ?_, ?_⟩
        · intro t there
          rw [stays same] at there
          exact (tables.rooted r').root there
        · intro d q t there
          rw [stays same] at there ⊢
          exact (tables.rooted r').parent there
        · intro v x mapped
          rw [stays same]
          exact (tables.rooted r').below mapped
    · rw [mem_erase]
      by_cases same : r' = r
      · subst same
        simp [gone]
      · rw [stays same, ← tables.live r']
        simp [same]

/-- The mapped pages of an address space are those below a bound. -/
def Books.Extent (books : Books) (r n : Nat) : Prop :=
  ∀ v, (∃ leaf, books.leaf (r, v) = some leaf) ↔ v < n

theorem Books.unmap_leaf (books : Books) (r v n w : Nat) : (books.unmap r v n).leaf (r, w) =
    if v ≤ w ∧ w < v + n then none else books.leaf (r, w) := by
  simp [unmap]

theorem Books.unmap_discard (books : Books) (r v n : Nat) :
    (books.unmap r v n).discard r = books.discard r := by
  unfold discard unmap
  congr
  funext name
  dsimp only
  split
  · rfl
  · rename_i other
    exact if_neg fun inside => other inside.1

theorem Books.unmap_all {n : Nat} (maps : books.Maps r 0 n)
    (empty : ∀ v, (books.unmap r 0 n).leaf (r, v) = none) : books.Extent r n := by
  intro v
  refine ⟨fun ⟨leaf, mapped⟩ => ?_, fun below => maps v (Nat.zero_le v) (by omega)⟩
  by_contra beyond
  have none := empty v
  rw [unmap_leaf, if_neg (by omega), mapped] at none
  cases none

def pageCount (sz : Nat) : Nat :=
  pgroundup sz / pgsize

theorem pageCount_mul (sz : Nat) : pageCount sz * pgsize = pgroundup sz := by
  unfold pageCount pgroundup pgsize
  dsimp only
  omega

theorem userPages_mul : userPages * pgsize ≤ maxva := by
  rw [userPages_eq, maxva_eq]
  unfold pgsize
  omega

theorem uvmfree_meets (tables : Tables layout s live node books) (paid : books.debt = 0)
    (root : r ∈ live) (low : pageCount sz ≤ userPages)
    (panics : ∀ e, ¬ books.Extent r (pageCount sz) → stops e) :
    Meets (uvmfree r sz) s (fun _ u => books.Extent r (pageCount sz) ∧
      ∃ node', Nodes.Elsewhere r node node' ∧
      Tables layout u (live.erase r) node' (books.discard r)) stops := by
  -- what is left to do after the pages below the bound are unmapped
  have rest (n : Nat) (count : n = pageCount sz) (u : Kmem) (maps : books.Maps r 0 n)
      (unmapped : Tables layout u live node (books.unmap r 0 n)) :
      Meets (freewalk 3 r) u (fun _ u => books.Extent r n ∧
        ∃ node', Nodes.Elsewhere r node node' ∧
        Tables layout u (live.erase r) node' (books.discard r)) stops := by
    refine (freewalk_root unmapped paid root ?_).mono
      (fun _ w ⟨empty, node', elsewhere, done⟩ => ?_) fun _ => id
    · rintro ⟨v, leaf, mapped⟩
      rw [unmap_leaf] at mapped
      split at mapped
      · cases mapped
      · refine panics _ fun extent => ?_
        have below := (extent v).mp ⟨leaf, mapped⟩
        omega
    · rw [← (books.unmap r 0 n).discard_eq empty, unmap_discard] at done
      exact ⟨unmap_all maps empty, node', elsewhere, done⟩
  rw [uvmfree]
  split
  · have high : (0 + pageCount sz) * pgsize ≤ maxva := by
      rw [Nat.zero_add]
      exact (Nat.mul_le_mul_right pgsize low).trans userPages_mul
    have unmap : Meets (uvmunmap r (0 * pgsize) (pageCount sz) true) s _ stops :=
      uvmunmap_meets tables paid root high ?_ ?_
    · rw [Nat.zero_mul] at unmap
      exact unmap.bind fun _ u ⟨maps, unmapped⟩ => rest _ rfl u maps unmapped
    · intro w _ below
      simp only [true_iff]
      omega
    · intro e gap
      exact panics e fun extent => gap fun w _ below => (extent w).mpr (by omega)
  · rename_i zero
    obtain rfl : sz = 0 := by omega
    have none : pageCount 0 = 0 := by decide
    rw [none]
    refine rest 0 none.symm s ?_ ?_
    · intro w _ below
      omega
    · rw [unmap_zero]
      exact tables

end Uvmfree

section Process

/-- The mapped pages of a process: those below a bound, `TRAPFRAME` and `TRAMPOLINE`. -/
def Books.Spans (books : Books) (r n : Nat) : Prop :=
  ∀ v, (∃ leaf, books.leaf (r, v) = some leaf) ↔ v < n ∨ v = userPages ∨ v = userPages + 1

theorem trapframe_eq : trapframe = userPages * pgsize := rfl

theorem trampoline_eq : trampoline = (userPages + 1) * pgsize := rfl

theorem procFreepagetable_meets (tables : Tables layout s live node books)
    (paid : books.debt = 0) (root : r ∈ live) (low : pageCount sz ≤ userPages)
    (panics : ∀ e, ¬ books.Spans r (pageCount sz) → stops e) :
    Meets (procFreepagetable r sz) s (fun _ u => books.Spans r (pageCount sz) ∧
      ∃ node', Nodes.Elsewhere r node node' ∧
      Tables layout u (live.erase r) node' (books.discard r)) stops := by
  have missing (v : Nat) (special : v = userPages ∨ v = userPages + 1) (e : Panic)
      (gap : ¬ books.Maps r v 1) : stops e := by
    refine panics e fun spans => gap fun w above below => ?_
    obtain rfl : w = v := by omega
    exact (spans w).mpr (.inr special)
  have top : (userPages + 1 + 1) * pgsize ≤ maxva := by
    rw [userPages_eq, maxva_eq]
    unfold pgsize
    omega
  rw [procFreepagetable, trampoline_eq, trapframe_eq]
  refine (uvmunmap_meets tables paid root top ?_ (missing _ (.inr rfl))).bind
    fun _ u ⟨hasTrampoline, first⟩ => ?_
  · intro w above _
    simp only [Bool.false_eq_true, false_iff]
    omega
  refine (uvmunmap_meets first paid root ?_ ?_ ?_).bind fun _ u ⟨hasTrapframe, second⟩ => ?_
  · rw [userPages_eq, maxva_eq]
    unfold pgsize
    omega
  · intro w above _
    simp only [Bool.false_eq_true, false_iff]
    omega
  · intro e gap
    refine missing userPages (.inl rfl) e fun maps => gap fun w above below => ?_
    rw [unmap_leaf, if_neg (by omega)]
    exact maps w above below
  -- the other pages are those that `uvmfree` finds
  have spans (extent : ((books.unmap r (userPages + 1) 1).unmap r userPages 1).Extent r
      (pageCount sz)) : books.Spans r (pageCount sz) := by
    intro v
    by_cases trampoline : v = userPages + 1
    · simp only [trampoline, or_true, iff_true]
      exact hasTrampoline _ le_rfl (by omega)
    · by_cases trapframe : v = userPages
      · simp only [trapframe, true_or, or_true, iff_true]
        have mapped := hasTrapframe userPages le_rfl (by omega)
        rw [unmap_leaf, if_neg (by omega)] at mapped
        exact mapped
      · have found := extent v
        rw [unmap_leaf, if_neg (by omega), unmap_leaf, if_neg (by omega)] at found
        rw [found]
        omega
  refine (uvmfree_meets second paid root low fun e notExtent => panics e
    fun all => notExtent ?_).mono
    (fun _ w ⟨extent, node', elsewhere, done⟩ => ?_) fun _ => id
  · intro v
    rw [unmap_leaf]
    split
    · simp only [reduceCtorEq, exists_false, false_iff]
      omega
    · rw [unmap_leaf]
      split
      · simp only [reduceCtorEq, exists_false, false_iff]
        omega
      · rw [all v]
        omega
  · rw [unmap_discard, unmap_discard] at done
    exact ⟨spans extent, node', elsewhere, done⟩

def Layout.trampolineLeaf (layout : Layout) : Leaf where
  pa := layout.trampolinePage
  flags := pteR ||| pteX ||| pteV
  aligned := layout.aligned
  physical := by
    have inside := layout.inside
    have fits := layout.fits
    rw [phystop_eq] at fits
    omega
  small := by decide
  valid := by decide
  readable := by decide

def trapframeLeaf (pa : Nat) (aligned : pa % pgsize = 0) (physical : pa < 2 ^ 56) : Leaf where
  pa := pa
  flags := pteR ||| pteW ||| pteV
  aligned := aligned
  physical := physical
  small := by decide
  valid := by decide
  readable := by decide

def Books.launch (books : Books) (r : Nat) (trampoline trapframe : Leaf) : Books :=
  { books with
    leaf := Function.update (Function.update books.leaf (r, userPages + 1) (some trampoline))
      (r, userPages) (some trapframe) }

theorem share_special {x : Option Leaf} (special : ¬ v < userPages) : share v x = 0 :=
  if_neg special

theorem Tables.not_live (tables : Tables layout s live node books)
    (plain : Memory.tables node c = 0) : c ∉ live := by
  intro root
  have positive := tables.shows.accounts.tables_pos ((tables.live c).mp root)
  omega

/-- `proc_pagetable` gives up: a page table without pages is freed, and the tables are as they were.
-/
theorem uvmfree_new {u : Kmem} {books' : Books} {node' : Nodes} {pt : Nat}
    (tables : Tables layout s live node books) (gone : pt ∉ live)
    (elsewhere : Nodes.Elsewhere pt node node')
    (made : Tables layout u (insert pt live) node' books') (paid : books'.debt = 0)
    (nothing : ∀ v, books'.leaf (pt, v) = none) (same : books'.discard pt = books) :
    Meets (uvmfree pt 0) u (fun _ w => Tables layout w live node books) stops := by
  have zero : pageCount 0 = 0 := by decide
  refine (uvmfree_meets made paid (mem_insert_self pt live) (by omega) fun e notEmpty => ?_).mono
    (fun _ w ended => ?_) fun _ => id
  · refine absurd (fun v => ?_) notEmpty
    rw [zero, nothing]
    simp
  · obtain ⟨_, node₃, later, done⟩ := ended
    rw [erase_insert gone, same] at done
    rwa [tables.nodes_eq done gone (elsewhere.trans later)] at done

/-- A page table in which only the trampoline is mapped is given up. -/
theorem uvmfree_trampoline {u : Kmem} {node' : Nodes} {pt : Nat} {leaf : Leaf}
    (tables : Tables layout s live node books) (paid : books.debt = 0) (gone : pt ∉ live)
    (empty : ∀ v, books.leaf (pt, v) = none) (elsewhere : Nodes.Elsewhere pt node node')
    (made : Tables layout u (insert pt live) node'
      { books with leaf := update books.leaf (pt, userPages + 1) (some leaf), debt := 0 }) :
    Meets (do uvmunmap pt trampoline 1 false; uvmfree pt 0) u
      (fun _ w => Tables layout w live node books) stops := by
  rw [trampoline_eq]
  refine (uvmunmap_meets made rfl (mem_insert_self pt live) ?_ ?_ fun e gap => ?_).bind
    fun _ w ⟨_, bare⟩ => ?_
  · rw [userPages_eq, maxva_eq]
    unfold pgsize
    omega
  · intro w above _
    simp only [Bool.false_eq_true, false_iff]
    omega
  · refine absurd (fun w above below => ?_) gap
    obtain rfl : w = userPages + 1 := by omega
    exact ⟨_, update_self _ _ _⟩
  · refine uvmfree_new tables gone elsewhere bare rfl (fun v => ?_) ?_
    · rw [unmap_leaf]
      split
      · rfl
      · exact (update_of_ne (by simp; omega) _ _).trans (empty v)
    · rw [unmap_discard, ← paid, books.discard_update]
      exact books.discard_eq empty

theorem procPagetable_meets {tf : Nat} (tables : Tables layout s live node books)
    (paid : books.debt = 0) (page : layout.Managed tf) :
    Meets (procPagetable layout tf) s (fun pt u =>
      (pt = 0 ∧ s.spare layout < 5 ∧ Tables layout u live node books) ∨
      (s.spare layout ≤ u.spare layout + 5 ∧ Unused layout node books pt ∧
        (∀ v, books.leaf (pt, v) = none) ∧
        ∃ node', Nodes.Elsewhere pt node node' ∧ Tables layout u (insert pt live) node'
          (books.launch pt layout.trampolineLeaf
            (trapframeLeaf tf page.1 page.physical)))) stops := by
  have numberTrampoline : trampoline / pgsize = userPages + 1 := by decide
  have numberTrapframe : trapframe / pgsize = userPages := by decide
  rw [procPagetable]
  refine (uvmcreate_meets tables paid).bind fun pt u created => ?_
  rcases created with ⟨none, rfl, short⟩ | ⟨spare, unused, empty, node₁, begun, made⟩
  · rw [if_pos none, meets_pure]
    exact .inl ⟨rfl, by omega, tables⟩
  rw [if_neg unused.page.ne_zero]
  have root : pt ∈ insert pt live := mem_insert_self pt live
  have gone := tables.not_live unused.plain
  refine (mappages_meets made paid root (by decide) (by decide) layout.trampolineLeaf rfl
    ?_ ?_).bind fun result u outcome => ?_
  · rw [numberTrampoline]
    intro user
    omega
  · intro again
    exact absurd (empty _) again
  rcases outcome with
    ⟨rfl, short, node₂, starved, failed⟩ | ⟨rfl, spare', _, node₂, supplied, first⟩
  · rw [if_pos (by decide)]
    refine (uvmfree_new tables gone (begun.trans starved.grows.others) failed paid empty
      (books.discard_eq empty)).bind fun _ w done => ?_
    exact meets_pure.mpr (.inl ⟨rfl, by omega, done⟩)
  rw [numberTrampoline, share_special (by omega)] at first
  rw [if_neg (by decide)]
  have others (v : Nat) (other : v ≠ userPages + 1) :
      update books.leaf (pt, userPages + 1) (some layout.trampolineLeaf) (pt, v) = none := by
    rw [update_of_ne (by simp [other])]
    exact empty v
  refine (mappages_meets first rfl root (by decide) (by decide)
    (trapframeLeaf tf page.1 page.physical) rfl
    ?_ ?_).bind fun result u outcome => ?_
  · rw [numberTrapframe]
    intro user
    omega
  · rw [numberTrapframe]
    intro again
    exact absurd (others _ (by omega)) again
  have begun' := begun.trans supplied.grows.others
  rcases outcome with
    ⟨rfl, short, node₃, starved, failed⟩ | ⟨rfl, spare'', _, node₃, supplied', second⟩
  · rw [if_pos (by decide)]
    have given : Meets _ u _ stops :=
      uvmfree_trampoline tables paid gone empty (begun'.trans starved.grows.others) failed
    rw [meets_bind] at given ⊢
    refine given.mono (fun _ w freed => freed.bind fun _ w done => ?_) fun _ => id
    exact meets_pure.mpr (.inl ⟨rfl, by omega, done⟩)
  · rw [numberTrapframe, share_special (by omega)] at second
    rw [if_neg (by decide), meets_pure]
    refine .inr ⟨by omega, unused, empty, node₃, begun'.trans supplied'.grows.others, ?_⟩
    simpa only [launch, paid] using second

end Process

section Lowers

variable {α β : Type} {x : KM α} {f : α → KM β}

/-- A program counts no new users, whatever the state of the memory is. -/
def Lowers (x : KM α) : Prop :=
  ∀ s, Meets x s (fun _ u => ∀ i, u.numpUsing i ≤ s.numpUsing i) fun _ => True

theorem Lowers.pure (a : α) : Lowers (pure a : KM α) := fun _ =>
  meets_pure.mpr fun _ => le_rfl

theorem Lowers.throw (e : Panic) : Lowers (throw e : KM α) := fun _ =>
  meets_throw.mpr trivial

theorem Lowers.bind (first : Lowers x) (rest : ∀ a, Lowers (f a)) : Lowers (x >>= f) := fun s =>
  (first s).bind fun a t low => (rest a t).mono
    (fun _ _ lower i => (lower i).trans (low i)) fun _ => id

theorem Lowers.loadWord (a : Nat) : Lowers (Memory.loadWord a) := fun _ =>
  meets_loadWord.mpr fun _ => le_rfl

theorem Lowers.storeWord (a value : Nat) : Lowers (Memory.storeWord a value) := fun _ =>
  meets_storeWord.mpr fun _ => le_rfl

theorem Lowers.kfree (pa : Nat) : Lowers (Memory.kfree pa) := by
  intro s
  have counted (i : Nat) : (s.addUsers pa (-1)).numpUsing i ≤ s.numpUsing i := by
    unfold Kmem.addUsers
    dsimp only
    by_cases same : i = pa / pgsize
    · rw [same, update_self]
      omega
    · rw [update_of_ne same]
  rw [Memory.kfree, meets_bind, meets_modify, meets_bind, meets_get]
  split
  · exact meets_pure.mpr counted
  · rw [meets_bind, meets_memset, meets_bind, meets_get, meets_bind, meets_storeWord, meets_modify]
    exact counted

theorem Lowers.walk (pagetable va : Nat) : Lowers (Memory.walk pagetable va false) := by
  have levels (level : Nat) : ∀ pagetable, Lowers (walkLevels va false level pagetable) := by
    induction level with
    | zero => exact fun _ => .pure _
    | succ level ih =>
      intro pagetable
      refine .bind (.loadWord _) fun entry => ?_
      split
      · exact ih _
      · exact .pure _
  unfold Memory.walk
  split
  · exact .throw _
  · exact levels 2 _

theorem Lowers.uvmunmap (pagetable va npages : Nat) (doFree : Bool) :
    Lowers (Memory.uvmunmap pagetable va npages doFree) := by
  have pages (left : Nat) : ∀ a, Lowers (unmapPages pagetable doFree a left) := by
    induction left with
    | zero => exact fun _ => .pure _
    | succ left ih =>
      intro a
      refine .bind (.walk _ _) fun pte => ?_
      split
      · exact .throw _
      refine .bind (.loadWord _) fun entry => ?_
      split
      · exact .throw _
      split
      · exact .throw _
      split
      · exact .bind (.kfree _) fun _ => .bind (.storeWord _ _) fun _ => ih _
      · exact .bind (.storeWord _ _) fun _ => ih _
  unfold Memory.uvmunmap
  split
  · exact .throw _
  · exact pages _ _

theorem Lowers.freewalk (level pagetable : Nat) : Lowers (Memory.freewalk level pagetable) := by
  induction level generalizing pagetable with
  | zero => exact .throw _
  | succ level ih =>
    refine .bind (fun s => ?_) fun _ => .kfree _
    refine meets_forM_range (fun _ (u : Kmem) => ∀ i, u.numpUsing i ≤ s.numpUsing i) 512
      (fun _ => le_rfl)
      fun i t _ low => ?_
    have body : Lowers (do
        let pte ← Memory.loadWord (pagetable + 8 * i)
        if pte &&& pteV ≠ 0 ∧ pte &&& (pteR ||| pteW ||| pteX) = 0 then
          Memory.freewalk level (pte2pa pte)
          Memory.storeWord (pagetable + 8 * i) 0
        else if pte &&& pteV ≠ 0 then
          MonadExcept.throw Panic.freewalkLeaf) := by
      refine .bind (.loadWord _) fun pte => ?_
      split
      · exact .bind (ih _) fun _ => .storeWord _ _
      split
      · exact .throw _
      · exact .pure _
    exact (body t).mono (fun _ _ lower j => (lower j).trans (low j)) fun _ => id

theorem Lowers.procFreepagetable (pagetable sz : Nat) :
    Lowers (Memory.procFreepagetable pagetable sz) := by
  refine .bind (.uvmunmap _ _ _ _) fun _ => .bind (.uvmunmap _ _ _ _) fun _ => ?_
  unfold uvmfree
  split
  · exact .bind (.uvmunmap _ _ _ _) fun _ => .freewalk _ _
  · exact .freewalk _ _

end Lowers

end EnhancedXv6.Memory
