import EnhancedXv6.Memory.Accounting

namespace EnhancedXv6.Memory

open Foundation Function Option

variable {layout : Layout} {s : Kmem} {node : Nodes} {books : Books} {live : Finset Nat}
  {pa t r d p q v va i : Nat} {stops : Panic → Prop} {a level : Nat}
  {leaf : Nat × Nat → Option Leaf} {node' node'' : Nodes} {post : Unit → Kmem → Prop}

/-- Every table page and every entry hangs below the root. -/
structure Rooted (node : Nodes) (leaf : Nat × Nat → Option Leaf) (r : Nat) : Prop where
  root : ∀ {t}, node (r, 0, 0) = some t → t = r
  parent : ∀ {d q t}, node (r, d + 1, q) = some t → ∃ t', node (r, d, q / 512) = some t'
  below : ∀ {v x}, leaf (r, v) = some x → ∃ t, node (r, 2, v / 512) = some t

theorem Rooted.unmapped (rooted : Rooted node leaf r) (missing : node (r, 2, v / 512) = none) :
    leaf (r, v) = none := by
  by_contra mapped
  obtain ⟨x, here⟩ := ne_none_iff_exists'.mp mapped
  obtain ⟨t, there⟩ := rooted.below here
  cases missing.symm.trans there

theorem Rooted.ancestor (rooted : Rooted node leaf r) (k : Nat)
    (there : node (r, d + k, q) = some t) : ∃ t', node (r, d, q / 512 ^ k) = some t' := by
  induction k generalizing q t with
  | zero => exact ⟨t, by simpa using there⟩
  | succ k ih =>
    obtain ⟨t', above⟩ := rooted.parent there
    obtain ⟨t'', top⟩ := ih above
    exact ⟨t'', by rw [pow_succ', ← Nat.div_div_eq_div_mul]; exact top⟩

/-- The page tables in memory, with the set of their roots. -/
structure Tables (layout : Layout) (s : Kmem) (live : Finset Nat) (node : Nodes)
    (books : Books) : Prop where
  shows : Represents layout s node books
  rooted : ∀ r, Rooted node books.leaf r
  live : ∀ r, r ∈ live ↔ node (r, 0, 0) = some r

def slotOf (node : Nodes) (r v : Nat) : Nat :=
  (node (r, 2, v / 512)).elim 0 (· + 8 * (v % 512))

theorem meets_loadWord {post : Nat → Kmem → Prop} :
    Meets (loadWord a) s post stops ↔ post (load s.mem a 8) s := by
  rw [loadWord, meets_bind, meets_get, meets_pure]

theorem meets_storeWord {value : Nat} : Meets (storeWord a value) s post stops ↔
      post () { s with mem := store s.mem a 8 value } :=
  meets_modify

theorem meets_memset {n : Nat} {byte : UInt8} :
    Meets (memset a byte n) s post stops ↔ post () { s with mem := fill s.mem a n byte } :=
  meets_modify

/-- The index at a level continues the prefix of the virtual page. -/
theorem px_path (level : Nat) (va : Nat) :
    va / pgsize / 512 ^ (level + 1) * 512 + px level va = va / pgsize / 512 ^ level := by
  have index : px level va = va / pgsize / 512 ^ level % 512 := by
    rw [px_eq, pow_add, pow_mul, ← Nat.div_div_eq_div_mul]
    rfl
  rw [index, pow_succ, ← Nat.div_div_eq_div_mul]
  omega

theorem px_lt (level va : Nat) : px level va < 512 := by
  rw [px_eq]
  omega

theorem pointer_valid {pa : Nat} : (pa2pte pa ||| pteV) &&& pteV ≠ 0 := by
  rw [pteV, testBit_flag, testBit_entry (by omega)]
  rfl

theorem pointer_page (page : layout.Managed pa) : pte2pa (pa2pte pa ||| pteV) = pa :=
  pte2pa_entry page.1 page.physical (by decide)

theorem walkLevels_finds (level : Nat) (tables : Tables layout s live node books)
    (depth : d + level = 2) (there : node (r, d, va / pgsize / 512 ^ (level + 1)) = some t) :
    Meets (walkLevels va false level t) s
      (fun a u => a = slotOf node r (va / pgsize) ∧ u = s) stops := by
  induction level generalizing d t with
  | zero =>
    obtain rfl : d = 2 := by omega
    have index : px 0 va = va / pgsize % 512 := by simp [px_eq, pgsize]
    rw [zero_add, pow_one] at there
    rw [walkLevels, meets_pure, slotOf, there, index]
    exact ⟨rfl, rfl⟩
  | succ level ih =>
    have read := tables.shows.slots.slot there (px_lt (level + 1) va)
    rw [entry, if_neg (by omega), px_path] at read
    rw [walkLevels, meets_bind, meets_loadWord, read]
    cases child : node (r, d + 1, va / pgsize / 512 ^ (level + 1)) with
    | some c =>
      have page := (tables.shows.accounts.table child).1
      rw [elim_some, if_pos (pointer_valid), pointer_page page]
      exact ih (by omega) child
    | none =>
      rw [elim_none, if_neg (by simp), if_neg (by simp), meets_pure, slotOf]
      refine ⟨?_, rfl⟩
      cases leaf : node (r, 2, va / pgsize / 512) with
      | none => rfl
      | some c =>
        -- a table page further down would hang below this one
        rw [show 2 = d + 1 + level by omega] at leaf
        obtain ⟨c', above⟩ := (tables.rooted r).ancestor level leaf
        rw [Nat.div_div_eq_div_mul, ← pow_succ', child] at above
        cases above

theorem Tables.top (tables : Tables layout s live node books) (root : r ∈ live)
    (low : va < maxva) : node (r, 0, va / pgsize / 512 ^ (2 + 1)) = some r := by
  have top : va / pgsize / 512 ^ (2 + 1) = 0 := by
    rw [maxva_eq] at low
    unfold pgsize
    omega
  rw [top]
  exact (tables.live r).mp root

theorem walk_finds (tables : Tables layout s live node books) (root : r ∈ live) (low : va < maxva) :
    Meets (walk r va false) s (fun a u => a = slotOf node r (va / pgsize) ∧ u = s) stops := by
  rw [walk, if_neg (by omega)]
  exact walkLevels_finds 2 tables (by omega) (tables.top root low)

section Alloc

variable {c : Nat}

theorem Rooted.adopt {r' : Nat} (rooted : Rooted node leaf r')
    (there : node (r, d, q / 512) = some t) (free : node (r, d + 1, q) = none) :
    Rooted (update node (r, d + 1, q) (some c)) leaf r' where
  root := by
    intro t' top
    rw [update_of_ne (by simp)] at top
    exact rooted.root top
  parent := by
    intro d' q' t' below
    have above : ∃ t'', node (r', d', q' / 512) = some t'' := by
      by_cases same : (r', d' + 1, q') = (r, d + 1, q)
      · simp only [Prod.mk.injEq, Nat.add_right_cancel_iff] at same
        obtain ⟨rfl, rfl, rfl⟩ := same
        exact ⟨t, there⟩
      · rw [update_of_ne same] at below
        exact rooted.parent below
    obtain ⟨t'', above⟩ := above
    refine ⟨t'', ?_⟩
    rw [update_of_ne ?_]
    · exact above
    · intro same
      rw [same, free] at above
      cases above
  below := by
    intro v x mapped
    obtain ⟨t', there'⟩ := rooted.below mapped
    refine ⟨t', ?_⟩
    rw [update_of_ne ?_]
    · exact there'
    · intro same
      rw [same, free] at there'
      cases there'

theorem Rooted.entry_empty (rooted : Rooted node leaf r)
    (free : node (r, d, q) = none) {j : Nat} (inside : j < 512) : entry node leaf r d q j = 0 := by
  have prefixed : (q * 512 + j) / 512 = q := by omega
  unfold entry
  split
  · rename_i lowest
    subst lowest
    rw [rooted.unmapped (prefixed.symm ▸ free), elim_none]
  · cases child : node (r, d + 1, q * 512 + j) with
    | none => rfl
    | some c =>
      obtain ⟨t, there⟩ := rooted.parent child
      rw [prefixed, free] at there
      cases there

/-- A page that has just been allocated becomes an empty table page. -/
theorem Tables.linkNew {u : Kmem} (tables : Tables layout s live node books) (paid : books.debt = 0)
    (there : node (r, d, p) = some t) (inside : i < 512) (upper : d < 2)
    (free : node (r, d + 1, p * 512 + i) = none) (unused : Unused layout node books c)
    (shows : Represents layout u node (books.hold c fun _ => 5)) :
    Tables layout
      { u with mem := store (fill u.mem c pgsize 0) (t + 8 * i) 8 (pa2pte c ||| pteV) } live
      (update node (r, d + 1, p * 512 + i) (some c)) books := by
  have used : 0 < u.numpUsing (c / pgsize) :=
    shows.accounts.held_count paid (Multiset.mem_cons_self c books.held)
  have prefixed : (p * 512 + i) / 512 = p := by omega
  have cleared := shows.rewrite (m := fill u.mem c pgsize 0) unused.page used unused.plain
    fun x outside => fill_other outside
  have linked := cleared.link there inside upper free rfl unused.unheld unused.unmapped
    (by simp [Books.hold, paid]) ?_ fun j below => (tables.rooted r).entry_empty free below
  · refine ⟨linked.forget ?_, fun r' => (tables.rooted r').adopt (t := t) ?_ free, ?_⟩
    · intro pa _ _ plain o _
      have other : pa ≠ c := by
        rintro rfl
        have adopted := linked.accounts.tables_pos (update_self _ _ _)
        omega
      simp [Books.hold, other]
    · rw [prefixed]
      exact there
    · intro r'
      rw [update_of_ne (by simp)]
      exact tables.live r'
  · intro o below
    simp only [update_self]
    exact fill_same (by omega) (by omega)

/-- Which table pages a page table has, by depth and index. -/
def Nodes.shape (node : Nodes) (r d q : Nat) : Bool :=
  (node (r, d, q)).isSome

/-- Nothing but the table pages below one root is different. -/
def Nodes.Elsewhere (r : Nat) (node node' : Nodes) : Prop :=
  ∀ name, name.1 ≠ r → node' name = node name

structure Nodes.Extends (r : Nat) (node node' : Nodes) : Prop where
  others : Nodes.Elsewhere r node node'
  kept : ∀ {name t}, node name = some t → node' name = some t

theorem Nodes.Elsewhere.trans (first : Nodes.Elsewhere r node node')
    (second : Nodes.Elsewhere r node' node'') : Nodes.Elsewhere r node node'' :=
  fun name other => (second name other).trans (first name other)

theorem Nodes.Extends.refl (r : Nat) (node : Nodes) : Nodes.Extends r node node :=
  ⟨fun _ _ => rfl, id⟩

theorem Nodes.Extends.trans (first : Nodes.Extends r node node')
    (second : Nodes.Extends r node' node'') : Nodes.Extends r node node'' :=
  ⟨first.others.trans second.others, fun there => second.kept (first.kept there)⟩

theorem Nodes.Extends.add (free : node (r, d, p) = none) (c : Nat) :
    Nodes.Extends r node (update node (r, d, p) (some c)) where
  others name other := update_of_ne (fun same => other (by rw [same])) _ _
  kept := by
    intro name t there
    rw [update_of_ne, there]
    rintro rfl
    rw [free] at there
    cases there

/-- How many table pages are missing on the last levels of the way to a virtual page. -/
def lacking (shape : Nat → Nat → Bool) (v : Nat) : Nat → Nat
  | 0 => 0
  | level + 1 =>
    (if shape (2 - level) (v / 512 ^ (level + 1)) then 0 else 1) + lacking shape v level

/-- A page table with the table pages on the last levels of the way to a virtual page. -/
def filled (shape : Nat → Nat → Bool) (v level d q : Nat) : Bool :=
  shape d q || decide (3 - level ≤ d ∧ d ≤ 2 ∧ q = v / 512 ^ (3 - d))

theorem lacking_le (shape : Nat → Nat → Bool) (v level : Nat) : lacking shape v level ≤ level := by
  induction level with
  | zero => exact le_rfl
  | succ level ih =>
    rw [lacking]
    split <;> omega

theorem lacking_congr {shape shape' : Nat → Nat → Bool} (level : Nat)
    (same : ∀ k < level, shape' (2 - k) (v / 512 ^ (k + 1)) = shape (2 - k) (v / 512 ^ (k + 1))) :
    lacking shape' v level = lacking shape v level := by
  induction level with
  | zero => rfl
  | succ level ih =>
    rw [lacking, lacking, same level (by omega), ih fun k below => same k (by omega)]

theorem filled_zero (shape : Nat → Nat → Bool) (v : Nat) : filled shape v 0 = shape := by
  funext d q
  rw [filled, decide_eq_false (by omega), Bool.or_false]

theorem filled_succ (shape : Nat → Nat → Bool) (v : Nat) (low : level < 2) :
    filled shape v (level + 1) =
      filled
        (fun d q => shape d q || decide (d = 2 - level ∧ q = v / 512 ^ (level + 1))) v level := by
  funext d q
  unfold filled
  rw [Bool.or_assoc, ← Bool.decide_or]
  congr 2
  refine propext ⟨fun ⟨above, below, same⟩ => ?_, ?_⟩
  · by_cases first : d = 2 - level
    · refine .inl ⟨first, ?_⟩
      rw [same, first, show 3 - (2 - level) = level + 1 by omega]
    · exact .inr ⟨by omega, below, same⟩
  · rintro (⟨rfl, rfl⟩ | ⟨above, below, same⟩)
    · rw [show 3 - (2 - level) = level + 1 by omega]
      exact ⟨by omega, by omega, rfl⟩
    · exact ⟨by omega, below, same⟩

/-- There was not enough memory for the table pages on the way to a virtual page. -/
structure Starved (layout : Layout) (r v level : Nat) (s : Kmem) (node node' : Nodes) : Prop where
  grows : Nodes.Extends r node node'
  short : s.spare layout < lacking (node.shape r) v level
  idle : node' = node ↔ s.spare layout = 0

/-- The table pages on the way to a virtual page are there. -/
structure Supplied (layout : Layout) (r v level : Nat) (s u : Kmem)
    (node node' : Nodes) : Prop where
  grows : Nodes.Extends r node node'
  spare : u.spare layout + lacking (node.shape r) v level = s.spare layout
  shape : node'.shape r = filled (node.shape r) v level

theorem Starved.few (starved : Starved layout r v level s node node') : s.spare layout < level :=
  starved.short.trans_le (lacking_le _ _ _)

theorem Supplied.cost {u : Kmem} (supplied : Supplied layout r v level s u node node') :
    s.spare layout ≤ u.spare layout + level := by
  have few := lacking_le (node.shape r) v level
  have spare := supplied.spare
  omega

theorem lacking_there (there : node (r, 2 - level, v / 512 ^ (level + 1)) = some t) :
    lacking (node.shape r) v (level + 1) = lacking (node.shape r) v level := by
  rw [lacking, Nodes.shape, there, isSome_some, if_pos rfl, Nat.zero_add]

theorem filled_there (low : level < 2)
    (there : node (r, 2 - level, v / 512 ^ (level + 1)) = some t) :
    filled (node.shape r) v (level + 1) = filled (node.shape r) v level := by
  rw [filled_succ _ _ low]
  congr 1
  funext d q
  by_cases here : d = 2 - level ∧ q = v / 512 ^ (level + 1)
  · obtain ⟨rfl, rfl⟩ := here
    rw [Nodes.shape, there]
    rfl
  · rw [decide_eq_false here, Bool.or_false]

theorem lacking_missing (missing : node (r, 2 - level, v / 512 ^ (level + 1)) = none)
    (low : level < 2) (c : Nat) : lacking (node.shape r) v (level + 1) =
      1 + lacking
        (Nodes.shape (update node (r, 2 - level, v / 512 ^ (level + 1)) (some c)) r) v level := by
  rw [lacking, Nodes.shape, missing, isSome_none, if_neg Bool.false_ne_true]
  congr 1
  refine (lacking_congr level fun k below => ?_).symm
  unfold Nodes.shape
  rw [update_of_ne]
  intro same
  rw [Prod.mk.injEq, Prod.mk.injEq] at same
  omega

theorem filled_missing (low : level < 2) (c : Nat) : filled (node.shape r) v (level + 1) =
    filled
      (Nodes.shape (update node (r, 2 - level, v / 512 ^ (level + 1)) (some c)) r) v level := by
  rw [filled_succ _ _ low]
  congr 1
  funext d q
  unfold Nodes.shape
  by_cases here : d = 2 - level ∧ q = v / 512 ^ (level + 1)
  · obtain ⟨rfl, rfl⟩ := here
    rw [update_self, decide_eq_true ⟨rfl, rfl⟩, Bool.or_true]
    rfl
  · rw [decide_eq_false here, Bool.or_false, update_of_ne]
    intro same
    rw [Prod.mk.injEq, Prod.mk.injEq] at same
    exact here same.2

theorem Nodes.Extends.eq_of_shape (grows : Nodes.Extends r node node')
    (same : node'.shape r = node.shape r) : node' = node := by
  funext name
  cases there : node name with
  | some t => exact grows.kept there
  | none =>
    by_cases here : name.1 = r
    · obtain ⟨_, d, q⟩ := name
      subst here
      have shape := congrFun (congrFun same d) q
      unfold Nodes.shape at shape
      rw [there, isSome_none, isSome_eq_false_iff, isNone_iff_eq_none] at shape
      exact shape
    · exact (grows.others name here).trans there

theorem filled_of_lacking {shape : Nat → Nat → Bool} (low : level ≤ 2)
    (none : lacking shape v level = 0) : filled shape v level = shape := by
  induction level with
  | zero => exact filled_zero shape v
  | succ level ih =>
    rw [lacking] at none
    have there : shape (2 - level) (v / 512 ^ (level + 1)) = true := by
      by_contra missing
      rw [if_neg missing] at none
      omega
    rw [filled_succ shape v (by omega)]
    have same :
        (fun d q => shape d q || decide (d = 2 - level ∧ q = v / 512 ^ (level + 1))) = shape := by
      funext d q
      by_cases here : d = 2 - level ∧ q = v / 512 ^ (level + 1)
      · obtain ⟨rfl, rfl⟩ := here
        rw [there, Bool.true_or]
      · rw [decide_eq_false here, Bool.or_false]
    rw [same]
    exact ih (by omega) (by omega)

theorem exists_of_lacking {shape : Nat → Nat → Bool} (low : level ≤ 2)
    (some : lacking shape v level ≠ 0) :
    ∃ d q, shape d q = false ∧ filled shape v level d q = true := by
  induction level with
  | zero => exact absurd rfl some
  | succ level ih =>
    by_cases there : shape (2 - level) (v / 512 ^ (level + 1)) = true
    · rw [lacking, if_pos there, Nat.zero_add] at some
      obtain ⟨d, q, missing, new⟩ := ih (by omega) some
      refine ⟨d, q, missing, ?_⟩
      simp only [filled, missing, Bool.false_or, decide_eq_true_eq] at new ⊢
      omega
    · refine ⟨_, _, Bool.eq_false_of_not_eq_true there, ?_⟩
      simp only [filled, Bool.or_eq_true, decide_eq_true_eq]
      refine .inr ⟨by omega, by omega, ?_⟩
      rw [show 3 - (2 - level) = level + 1 by omega]

/-- `walk` either finds the table page of the lowest level, or fails to allocate it. -/
theorem walkLevels_allocates (level : Nat) (tables : Tables layout s live node books)
    (paid : books.debt = 0) (depth : d + level = 2)
    (there : node (r, d, va / pgsize / 512 ^ (level + 1)) = some t) :
    Meets (walkLevels va true level t) s (fun a u => ∃ node', Tables layout u live node' books ∧
      (a = 0 ∧ Starved layout r (va / pgsize) level s node node' ∨
        Supplied layout r (va / pgsize) level s u node node' ∧
        ∃ c, node' (r, 2, va / pgsize / 512) = some c ∧
        a = c + 8 * (va / pgsize % 512))) stops := by
  induction level generalizing d t s node with
  | zero =>
    obtain rfl : d = 2 := by omega
    have index : px 0 va = va / pgsize % 512 := by simp [px_eq, pgsize]
    rw [zero_add, pow_one] at there
    rw [walkLevels, meets_pure, index]
    exact ⟨node, tables, .inr ⟨⟨.refl r node, rfl, (filled_zero _ _).symm⟩, t, there, rfl⟩⟩
  | succ level ih =>
    have down : d + 1 = 2 - level := by omega
    have low : level < 2 := by omega
    have read := tables.shows.slots.slot there (px_lt (level + 1) va)
    rw [entry, if_neg (by omega), px_path] at read
    rw [walkLevels, meets_bind, meets_loadWord, read]
    cases child : node (r, d + 1, va / pgsize / 512 ^ (level + 1)) with
    | some c =>
      have page := (tables.shows.accounts.table child).1
      rw [elim_some, if_pos (pointer_valid), pointer_page page]
      refine (ih tables (by omega) child).mono (fun a u outcome => ?_) fun _ => id
      rw [down] at child
      obtain ⟨node', after, ⟨none, starved⟩ | ⟨supplied, found⟩⟩ := outcome
      · exact ⟨node', after, .inl
          ⟨none, starved.grows, starved.short.trans_eq (lacking_there child).symm, starved.idle⟩⟩
      · refine ⟨node', after,
          .inr ⟨⟨supplied.grows, ?_, supplied.shape.trans (filled_there low child).symm⟩, found⟩⟩
        rw [lacking_there child]
        exact supplied.spare
    | none =>
      rw [elim_none, if_neg (by simp), if_pos rfl]
      refine (((kalloc_meets tables.shows paid).and (kalloc_spare tables.shows)).and
        (kalloc_takes tables.shows)).bind fun c u met => ?_
      obtain ⟨⟨outcome, short, _⟩, takes⟩ := met
      rcases outcome with ⟨none, rfl⟩ | ⟨unused, shows⟩
      · rw [if_pos none, meets_pure]
        rw [down] at child
        have empty := short none
        refine ⟨node, tables, .inl ⟨rfl, .refl r node, ?_, iff_of_true rfl empty⟩⟩
        rw [lacking_missing child low 0]
        omega
      · rw [if_neg unused.page.ne_zero, meets_bind, meets_memset, meets_bind, meets_storeWord]
        rw [← px_path (level + 1) va] at child
        have linked := tables.linkNew paid there (px_lt _ _) (by omega) child unused shows
        have spare : Kmem.spare layout { u with
            mem := store (fill u.mem c pgsize 0) (t + 8 * px (level + 1) va) 8
              (pa2pte c ||| pteV) } + 1 = s.spare layout := takes unused.page.ne_zero
        refine (ih linked (d := d + 1) (t := c) (by omega) (by rw [px_path, update_self])).mono
          (fun a w outcome => ?_) fun _ => id
        have grown := Nodes.Extends.add child c
        rw [px_path, down] at child grown outcome
        have cost := lacking_missing child low c
        obtain ⟨node', after, ⟨none, starved⟩ | ⟨supplied, found⟩⟩ := outcome
        · have fewer := starved.short
          refine ⟨node', after,
            .inl ⟨none, grown.trans starved.grows, by omega, iff_of_false ?_ (by omega)⟩⟩
          rintro rfl
          have new := starved.grows.kept (update_self _ _ _)
          rw [child] at new
          cases new
        · have rest := supplied.spare
          refine ⟨node', after, .inr ⟨⟨grown.trans supplied.grows, by omega, ?_⟩, found⟩⟩
          exact supplied.shape.trans (filled_missing low c).symm

theorem walk_allocates (tables : Tables layout s live node books) (paid : books.debt = 0)
    (root : r ∈ live) (low : va < maxva) :
    Meets (walk r va true) s (fun a u => ∃ node', Tables layout u live node' books ∧
      (a = 0 ∧ Starved layout r (va / pgsize) 2 s node node' ∨
        Supplied layout r (va / pgsize) 2 s u node node' ∧
        ∃ c, node' (r, 2, va / pgsize / 512) = some c ∧
        a = c + 8 * (va / pgsize % 512))) stops := by
  rw [walk, if_neg (by omega)]
  exact walkLevels_allocates 2 tables paid (by omega) (tables.top root low)

end Alloc

end EnhancedXv6.Memory
