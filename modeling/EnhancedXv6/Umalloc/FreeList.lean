import EnhancedXv6.Umalloc.Allocator

namespace EnhancedXv6.Umalloc

open Foundation List Option Umalloc

/-- The free blocks in order, with `base` as the first one. -/
structure FreeList (base : Nat) (h : Heap) (nodes : List Nat) : Prop where
  first : nodes.head? = some base
  circle : ClosedChain h.ptr nodes
  apart : nodes.Pairwise fun a b => h.fin a < b
  filled : ∀ a ∈ nodes, a ≠ base → 0 < h.size a
  empty : h.size base = 0
  start : h.freep ∈ nodes

def units (h : Heap) (blocks : List Nat) : Nat := (blocks.map h.size).sum

def Covered (h : Heap) (blocks : List Nat) (x : Nat) : Prop := ∃ a ∈ blocks, a ≤ x ∧ x < h.fin a

variable {base bp p a : Nat} {h h' t : Heap} {nodes pre post : List Nat}

theorem le_fin (h : Heap) (a : Nat) : a ≤ h.fin a := Nat.le_add_right _ _

open Heap

theorem fin_congr (same : h'.size a = h.size a) : h'.fin a = h.fin a := by
  unfold fin
  rw [same]

theorem units_congr (same : ∀ a ∈ nodes, h'.size a = h.size a) :
    units h' nodes = units h nodes := by
  unfold units
  rw [map_congr_left same]

theorem covered_congr (same : ∀ a ∈ nodes, h'.size a = h.size a) :
    Covered h' nodes x ↔ Covered h nodes x := by
  constructor
  · rintro ⟨a, member, low, high⟩
    exact ⟨a, member, low, fin_congr (same a member) ▸ high⟩
  · rintro ⟨a, member, low, high⟩
    exact ⟨a, member, low, (fin_congr (same a member)).symm ▸ high⟩

theorem FreeList.increasing (list : FreeList base h nodes) : nodes.Pairwise (· < ·) :=
  list.apart.imp fun below => lt_of_le_of_lt (le_fin h _) below

theorem FreeList.nodup (list : FreeList base h nodes) : nodes.Nodup :=
  list.increasing.imp fun below => below.ne

theorem FreeList.root (list : FreeList base h nodes) : base ∈ nodes := by
  cases nodes with
  | nil => cases list.first
  | cons b nodes => simp [show b = base by simpa using list.first]

theorem FreeList.not_mem (list : FreeList base h (pre ++ p :: post)) : p ∉ post ++ pre := by
  obtain ⟨absent, _⟩ := nodup_cons.mp (nodup_middle.mp list.nodup)
  intro member
  exact absent (mem_append.mpr (mem_append.mp member).symm)

theorem exists_bracket (increasing : nodes.Pairwise (· < ·)) (first : nodes.head? = some base)
    (above : base < bp) (absent : bp ∉ nodes) :
    ∃ pre p post, nodes = pre ++ p :: post ∧ p < bp ∧ ∀ y ∈ post, bp < y := by
  induction nodes generalizing base with
  | nil => cases first
  | cons a nodes ih =>
    cases first
    obtain ⟨less, rest⟩ := pairwise_cons.mp increasing
    cases nodes with
    | nil => exact ⟨[], a, [], rfl, above, by simp⟩
    | cons b nodes =>
      by_cases higher : bp < b
      · refine ⟨[], a, b :: nodes, rfl, above, fun y member => ?_⟩
        rcases mem_cons.mp member with rfl | later
        · exact higher
        · exact higher.trans (rel_of_pairwise_cons rest later)
      · have under : b < bp := lt_of_le_of_ne (not_lt.mp higher) fun same => absent (by simp [same])
        obtain ⟨pre, p, post, split, below, beyond⟩ :=
          ih rest rfl under fun member => absent (mem_cons_of_mem a member)
        exact ⟨a :: pre, p, post, by rw [split]; rfl, below, beyond⟩

/-- The successor of a node of a circle that starts at `base` is the next one, or `base`. -/
theorem ptr_of_circle (first : (pre ++ a :: post).head? = some base)
    (circle : ClosedChain h.ptr (pre ++ a :: post)) : h.ptr a = post.head?.getD base := by
  obtain ⟨link, _⟩ :=
    circle_cons.mp (show ClosedChain h.ptr (a :: (post ++ pre)) from circle.rotate)
  rw [link]
  cases post with
  | cons b post => rfl
  | nil =>
    cases pre with
    | nil => simpa using first
    | cons b pre => simpa using first

theorem FreeList.ptr_eq (list : FreeList base h (pre ++ a :: post)) :
    h.ptr a = post.head?.getD base :=
  ptr_of_circle list.first list.circle

theorem brackets_eq_true : h.brackets bp a = true ↔
    a < bp ∧ bp < h.ptr a ∨ h.ptr a ≤ a ∧ (a < bp ∨ bp < h.ptr a) := by
  simp [brackets]

/-- The loop of `free` ends exactly at the free block below. -/
theorem FreeList.brackets_iff (list : FreeList base h (pre ++ p :: post)) (above : base < bp)
    (below : p < bp) (beyond : ∀ y ∈ post, bp < y) (member : a ∈ pre ++ p :: post) :
    h.brackets bp a = true ↔ a = p := by
  have increasing := list.increasing
  rw [brackets_eq_true]
  rcases mem_append.mp member with early | late
  · -- an earlier block links to one that is not above `p`
    obtain ⟨left, right, rfl⟩ := append_of_mem early
    have split : (left ++ a :: right) ++ p :: post = left ++ a :: (right ++ p :: post) := by simp
    rw [split] at list increasing
    have link := list.ptr_eq
    have after := (pairwise_append.mp increasing).2.1
    have less : a < h.ptr a ∧ h.ptr a ≤ p := by
      rw [link]
      cases right with
      | nil => exact ⟨rel_of_pairwise_cons after (by simp), le_refl p⟩
      | cons b right =>
        obtain ⟨first, rest⟩ := pairwise_cons.mp after
        exact ⟨first b (by simp), (rel_of_pairwise_cons rest (by simp)).le⟩
    constructor
    · rintro (⟨_, high⟩ | ⟨wraps, _⟩) <;> omega
    · intro same
      omega
  · rcases mem_cons.mp late with rfl | later
    · have link := list.ptr_eq
      refine ⟨fun _ => rfl, fun _ => ?_⟩
      cases post with
      | nil =>
        right
        rw [link]
        have start : base ≤ a := by
          cases pre with
          | nil => exact le_of_eq (by simpa using list.first.symm)
          | cons b pre =>
            have same : b = base := by simpa using list.first
            subst b
            exact (rel_of_pairwise_cons increasing (by simp)).le
        exact ⟨start, .inl below⟩
      | cons q post =>
        left
        rw [link]
        exact ⟨below, beyond q (by simp)⟩
    · -- a later block is above the address, and the last one links to `base`
      obtain ⟨left, right, rfl⟩ := append_of_mem later
      have high := beyond a later
      have split : pre ++ p :: (left ++ a :: right) = (pre ++ p :: left) ++ a :: right := by simp
      rw [split] at list increasing
      have link := list.ptr_eq
      have after := (pairwise_append.mp increasing).2.1
      constructor
      · intro ends
        exfalso
        cases right with
        | nil =>
          simp only [head?_nil, getD_none] at link
          omega
        | cons b right =>
          have less : a < b := rel_of_pairwise_cons after (by simp)
          simp only [head?_cons, getD_some] at link
          omega
      · intro same
        omega

theorem find_unique {stop : Nat → Bool} (member : p ∈ nodes)
    (only : ∀ a ∈ nodes, stop a = true ↔ a = p) : nodes.find? stop = some p := by
  cases found : nodes.find? stop with
  | none => exact absurd ((only p member).mpr rfl) (by simpa using find?_eq_none.mp found p member)
  | some a =>
    have same := (only a (mem_of_find?_eq_some found)).mp (find?_some found)
    rw [same]

/-- The search of `free` succeeds, wherever it starts. -/
theorem FreeList.seek (list : FreeList base h (pre ++ p :: post)) (above : base < bp)
    (below : p < bp) (beyond : ∀ y ∈ post, bp < y) (enough : (pre ++ p :: post).length ≤ fuel) :
    seek h.ptr (h.brackets bp) fuel h.freep = some p := by
  obtain ⟨left, right, split⟩ := append_of_mem list.start
  have circle := list.circle
  rw [split] at circle
  have only : ∀ a ∈ h.freep :: right ++ left, h.brackets bp a = true ↔ a = p := by
    intro a member
    refine list.brackets_iff above below beyond ?_
    rw [split]
    simp only [mem_append, mem_cons] at member ⊢
    tauto
  have present : p ∈ h.freep :: right ++ left := by
    have member : p ∈ pre ++ p :: post := by simp
    rw [split] at member
    simp only [mem_append, mem_cons] at member ⊢
    tauto
  have rounds : (right ++ left).length < fuel := by
    rw [split] at enough
    simp only [length_append, length_cons] at enough ⊢
    omega
  exact ClosedChain.seek circle.rotate (find_unique present only) rounds

@[simp] theorem setPtr_size (h : Heap) (a b : Nat) : (h.setPtr a b).size = h.size := rfl

@[simp] theorem setPtr_fin (h : Heap) (a b : Nat) : (h.setPtr a b).fin = h.fin := rfl

@[simp] theorem setSize_size_self (h : Heap) (a n : Nat) : (h.setSize a n).size a = n := by
  simp [setSize]

theorem setSize_size_other (h : Heap) (n : Nat) (different : b ≠ a) :
    (h.setSize a n).size b = h.size b := by
  simp [setSize, different]

@[simp] theorem setSize_ptr (h : Heap) (a n : Nat) : (h.setSize a n).ptr = h.ptr := rfl

theorem units_append (h : Heap) (l m : List Nat) : units h (l ++ m) = units h l + units h m := by
  simp [units]

theorem units_cons (h : Heap) (a : Nat) (l : List Nat) :
    units h (a :: l) = h.size a + units h l := by
  simp [units]

theorem covered_append : Covered h (l ++ m) x ↔ Covered h l x ∨ Covered h m x := by
  simp [Covered, or_and_right, exists_or]

theorem covered_cons : Covered h (a :: l) x ↔ (a ≤ x ∧ x < h.fin a) ∨ Covered h l x := by
  simp [Covered]

/-- A free list in which some blocks may still touch the next one. -/
structure Loose (base : Nat) (h : Heap) (nodes : List Nat) (loose : Nat → Prop) : Prop where
  first : nodes.head? = some base
  circle : ClosedChain h.ptr nodes
  rising : nodes.Pairwise (· < ·)
  apart : nodes.Pairwise fun a b => h.fin a < b ∨ h.fin a = b ∧ loose a
  filled : ∀ a ∈ nodes, a ≠ base → 0 < h.size a
  empty : h.size base = 0

def Heap.join (h : Heap) (a : Nat) : Heap :=
  if h.fin a = h.ptr a then
    (h.setSize a ((h.size a + h.size (h.ptr a)) % 2 ^ 32)).setPtr a (h.ptr (h.ptr a))
  else h

/-- `free` enters its block in the list, joins it with the next one, and the one before with it. -/
theorem joins_eq (h : Heap) (below : p < bp) (filled : 0 < h.size bp) :
    (h.joinUpper bp p).joinLower bp p = (((h.setPtr bp (h.ptr p)).setPtr p bp).join bp).join p := by
  have different : p ≠ bp := below.ne
  have upper : ((h.setPtr bp (h.ptr p)).setPtr p bp).join bp = (h.joinUpper bp p).setPtr p bp := by
    have link :
      ((h.setPtr bp (h.ptr p)).setPtr p bp).ptr bp = h.ptr p := by simp [setPtr, different.symm]
    unfold Heap.join joinUpper
    rw [setPtr_fin, setPtr_fin, link]
    split
    · rename_i meets
      have high : bp < h.ptr p := by
        rw [← meets, fin, unit]
        omega
      have next : ((h.setPtr bp (h.ptr p)).setPtr p bp).ptr (h.ptr p) = h.ptr (h.ptr p) := by
        simp [setPtr, high.ne', (below.trans high).ne']
      rw [next]
      simp [setPtr, setSize, Function.update_comm different.symm]
    · rfl
  have kept : (h.joinUpper bp p).size p = h.size p := by
    unfold joinUpper
    split
    · rw [setPtr_size, setSize_size_other _ _ different]
    · rfl
  rw [upper]
  unfold Heap.join joinLower
  rw [setPtr_fin, show ((h.joinUpper bp p).setPtr p bp).ptr p = bp by simp [setPtr]]
  split
  · simp [setPtr, setSize, different.symm]
  · rfl

theorem FreeList.insert (list : FreeList base h (pre ++ p :: post)) (below : p < bp)
    (under : h.fin p ≤ bp) (clear : ∀ a ∈ post, h.fin bp ≤ a) (filled : 0 < h.size bp) :
    Loose base ((h.setPtr bp (h.ptr p)).setPtr p bp) (pre ++ p :: bp :: post) fun a => a =
      p ∨ a = bp := by
  have absent := list.not_mem
  have spans : bp < h.fin bp := by
    rw [fin, unit]
    omega
  obtain ⟨before, after, cross⟩ := pairwise_append.mp list.apart
  obtain ⟨gap, later⟩ := pairwise_cons.mp after
  obtain ⟨before', after', cross'⟩ := pairwise_append.mp list.increasing
  obtain ⟨gap', later'⟩ := pairwise_cons.mp after'
  have low (a : Nat) (member : a ∈ pre) : h.fin a < p := cross a member p (by simp)
  refine ⟨?_, ?_, ?_, ?_, ?_, ?_⟩
  · have first := list.first
    cases pre <;> simpa using first
  · have circle : ClosedChain h.ptr (p :: (post ++ pre)) := list.circle.rotate
    refine ClosedChain.rotate
      (show ClosedChain _ ((p :: bp :: post) ++ pre) from circle.insert (fun a member => ?_) ?_ ?_)
    · have here : a ≠ p := fun same => absent (same ▸ member)
      have there : a ≠ bp := by
        rintro rfl
        rcases mem_append.mp member with above | early
        · exact absurd (clear a above) (by omega)
        · have top := low a early
          omega
      simp [setPtr, here, there]
    · simp [setPtr]
    · simp [setPtr, below.ne']
  · refine pairwise_append.mpr ⟨before', ?_, fun a early b member => ?_⟩
    · refine pairwise_cons.mpr ⟨fun b member => ?_, pairwise_cons.mpr ⟨fun b above => ?_, later'⟩⟩
      · rcases mem_cons.mp member with rfl | above
        · exact below
        · exact gap' b above
      · exact spans.trans_le (clear b above)
    · have top := cross' a early p (by simp)
      rcases mem_cons.mp member with rfl | member
      · exact top
      · rcases mem_cons.mp member with rfl | above
        · exact top.trans below
        · exact top.trans (gap' b above)
  · rw [setPtr_fin, setPtr_fin]
    refine pairwise_append.mpr ⟨before.imp .inl, ?_, fun a early b member => ?_⟩
    · refine pairwise_cons.mpr
        ⟨fun b member => ?_, pairwise_cons.mpr ⟨fun b above => ?_, later.imp .inl⟩⟩
      · rcases mem_cons.mp member with rfl | above
        · exact (lt_or_eq_of_le under).imp_right fun touches => ⟨touches, .inl rfl⟩
        · exact .inl (gap b above)
      · exact (lt_or_eq_of_le (clear b above)).imp_right fun touches => ⟨touches, .inr rfl⟩
    · have top := low a early
      rcases mem_cons.mp member with rfl | member
      · exact .inl top
      · rcases mem_cons.mp member with rfl | above
        · exact .inl (top.trans below)
        · exact .inl (top.trans (gap' b above))
  · intro a member other
    simp only [mem_append, mem_cons] at member
    by_cases own : a = bp
    · exact own ▸ filled
    · exact list.filled a (by simp only [mem_append, mem_cons]; tauto) other
  · exact list.empty

structure Conserves (h : Heap) (nodes : List Nat) (h' : Heap) (nodes' : List Nat) : Prop where
  calls : h'.calls = h.calls
  sizes : ∀ a, a ∉ nodes → h'.size a = h.size a
  kept : ∀ a ∈ nodes', a ∈ nodes
  units : units h' nodes' = units h nodes
  covered : ∀ x, Covered h' nodes' x ↔ Covered h nodes x

/-- The block at `a` has taken in the one that it touched. -/
structure Absorbs (h : Heap) (a : Nat) (t : Heap) : Prop where
  meets : h.fin a = h.ptr a
  own : t.size a = h.size a + h.size (h.ptr a)
  size : ∀ x, x ≠ a → t.size x = h.size x
  link : t.ptr a = h.ptr (h.ptr a)
  ptr : ∀ x, x ≠ a → t.ptr x = h.ptr x
  calls : t.calls = h.calls

theorem absorbs_join (meets : h.fin a = h.ptr a) (small : h.size a + h.size (h.ptr a) < 2 ^ 32) :
    Absorbs h a (h.join a) := by
  unfold Heap.join
  rw [if_pos meets]
  refine ⟨meets, ?_, fun x other => ?_, ?_, fun x other => ?_, rfl⟩
  · rw [setPtr_size, setSize_size_self, Nat.mod_eq_of_lt small]
  · rw [setPtr_size, setSize_size_other _ _ other]
  · simp [setPtr]
  · simp [setPtr, other]

theorem Absorbs.fin (absorbs : Absorbs h a t) : t.fin a = h.fin (h.ptr a) := by
  rw [Heap.fin, absorbs.own, Nat.mul_add, ← Nat.add_assoc]
  exact congrArg (· + _) absorbs.meets

theorem Absorbs.covers (absorbs : Absorbs h a t) (x : Nat) :
    a ≤ x ∧ x < t.fin a ↔ (a ≤ x ∧ x < h.fin a) ∨ h.ptr a ≤ x ∧ x < h.fin (h.ptr a) := by
  have meets := absorbs.meets
  have bottom := le_fin h a
  have top := le_fin h (h.ptr a)
  rw [absorbs.fin]
  omega

theorem Absorbs.conserves (absorbs : Absorbs h a t) (early : ∀ x ∈ pre, x ≠ a)
    (late : ∀ x ∈ post, x ≠ a) :
    Conserves h (pre ++ a :: h.ptr a :: post) t (pre ++ a :: post) := by
  have below (x : Nat) (member : x ∈ pre) := absorbs.size x (early x member)
  have above (x : Nat) (member : x ∈ post) := absorbs.size x (late x member)
  refine ⟨absorbs.calls, ?_, ?_, ?_, fun x => ?_⟩
  · exact fun x outside => absorbs.size x fun same => outside (by simp [same])
  · intro x member
    simp only [mem_append, mem_cons] at member ⊢
    tauto
  · rw [units_append, units_cons, units_append, units_cons, units_cons, absorbs.own,
      units_congr below, units_congr above]
    omega
  · rw [covered_append, covered_cons, covered_append, covered_cons, covered_cons,
      absorbs.covers, covered_congr below, covered_congr above]
    exact or_congr_right or_assoc

theorem Absorbs.circle (absorbs : Absorbs h a t) (early : ∀ x ∈ pre, x ≠ a)
    (late : ∀ x ∈ post, x ≠ a) (circle : ClosedChain h.ptr (pre ++ a :: h.ptr a :: post)) :
    ClosedChain t.ptr (pre ++ a :: post) := by
  have turned : ClosedChain h.ptr (a :: h.ptr a :: (post ++ pre)) := by simpa using circle.rotate
  have removed : ClosedChain t.ptr ((a :: post) ++ pre) := by
    refine turned.remove (fun x member => ?_) absorbs.link
    exact absorbs.ptr x ((mem_append.mp member).elim (late x) (early x))
  exact removed.rotate

/-- Only the block at `a` ends elsewhere, and only it no longer touches the next one. -/
theorem apart_relax {loose loose' : Nat → Prop} (ends : ∀ x, x ≠ a → t.fin x = h.fin x)
    (keeps : ∀ x, loose x → x ≠ a → loose' x) (early : ∀ x ∈ pre, x ≠ a) (late : ∀ x ∈ post, x ≠ a)
    (apart : (pre ++ a :: post).Pairwise fun x y => h.fin x < y ∨ h.fin x = y ∧ loose x)
    (gap : ∀ y ∈ post, t.fin a < y) :
    (pre ++ a :: post).Pairwise fun x y => t.fin x < y ∨ t.fin x = y ∧ loose' x := by
  have unmoved {x y : Nat} (other : x ≠ a) (touch : h.fin x < y ∨ h.fin x = y ∧ loose x) :
      t.fin x < y ∨ t.fin x = y ∧ loose' x := by
    rw [ends x other]
    exact touch.imp_right fun touches => ⟨touches.1, keeps x touches.2 other⟩
  obtain ⟨before, after, cross⟩ := pairwise_append.mp apart
  obtain ⟨_, later⟩ := pairwise_cons.mp after
  refine pairwise_append.mpr ⟨?_, pairwise_cons.mpr ⟨fun y above => .inl (gap y above), ?_⟩, ?_⟩
  · exact before.imp_of_mem fun member _ => unmoved (early _ member)
  · exact later.imp_of_mem fun member _ => unmoved (late _ member)
  · exact fun x member y above => unmoved (early x member) (cross x member y above)

theorem Loose.not_mem {loose : Nat → Prop} (list : Loose base h (pre ++ a :: post) loose) :
    (∀ x ∈ pre, x ≠ a) ∧ ∀ x ∈ post, x ≠ a := by
  obtain ⟨_, after, cross⟩ := pairwise_append.mp list.rising
  exact ⟨fun x member => (cross x member a (by simp)).ne,
    fun x member => ((pairwise_cons.mp after).1 x member).ne'⟩

theorem Absorbs.loose {loose loose' : Nat → Prop} (absorbs : Absorbs h a t)
    (list : Loose base h (pre ++ a :: h.ptr a :: post) loose) (next : ¬ loose (h.ptr a))
    (keeps : ∀ x, loose x → x ≠ a → loose' x) : Loose base t (pre ++ a :: post) loose' := by
  obtain ⟨early, later⟩ := list.not_mem
  have late (x : Nat) (member : x ∈ post) := later x (mem_cons_of_mem _ member)
  have sub : (pre ++ a :: post).Sublist (pre ++ a :: h.ptr a :: post) := by simp
  have above : a ≠ base := by
    rintro rfl
    have meets := absorbs.meets
    rw [Heap.fin, list.empty] at meets
    exact later (h.ptr a) mem_cons_self meets.symm
  obtain ⟨_, after, _⟩ := pairwise_append.mp list.apart
  obtain ⟨gap, _⟩ := pairwise_cons.mp (pairwise_cons.mp after).2
  refine ⟨?_, absorbs.circle early late list.circle, list.rising.sublist sub, ?_, ?_, ?_⟩
  · have first := list.first
    cases pre <;> simpa using first
  · refine apart_relax (fun x other => fin_congr (absorbs.size x other)) keeps early late
      (list.apart.sublist sub) fun y member => ?_
    rw [absorbs.fin]
    exact (gap y member).resolve_right fun touches => next touches.2
  · intro x member other
    by_cases here : x = a
    · rw [here, absorbs.own]
      exact Nat.add_pos_left (list.filled a (by simp) above) _
    · rw [absorbs.size x here]
      exact list.filled x (sub.subset member) other
  · rw [absorbs.size base above.symm]
    exact list.empty

/-- A block that does not touch its successor need not be loose. -/
theorem Loose.relax {loose loose' : Nat → Prop} (list : Loose base h (pre ++ a :: post) loose)
    (parts : h.fin a ≠ h.ptr a) (keeps : ∀ x, loose x → x ≠ a → loose' x) :
    Loose base h (pre ++ a :: post) loose' := by
  obtain ⟨early, late⟩ := list.not_mem
  have link := ptr_of_circle list.first list.circle
  refine ⟨list.first, list.circle, list.rising, ?_, list.filled, list.empty⟩
  refine apart_relax (fun _ _ => rfl) keeps early late list.apart fun y above => ?_
  obtain ⟨_, after, _⟩ := pairwise_append.mp list.apart
  obtain ⟨gap, _⟩ := pairwise_cons.mp after
  obtain ⟨_, rising, _⟩ := pairwise_append.mp list.rising
  obtain ⟨_, rising⟩ := pairwise_cons.mp rising
  cases post with
  | nil => cases above
  | cons b post =>
    obtain rfl : h.ptr a = b := link
    have strict : h.fin a < h.ptr a :=
      (gap _ mem_cons_self).resolve_right fun touches => parts touches.1
    rcases mem_cons.mp above with rfl | further
    · exact strict
    · exact strict.trans (rel_of_pairwise_cons rising further)

/-- A block whose successor touches no other one is joined with it, or touches none. -/
theorem Loose.join {loose loose' : Nat → Prop} (list : Loose base h (pre ++ a :: post) loose)
    (next : h.fin a = h.ptr a → ¬ loose (h.ptr a)) (high : post = [] → base < a)
    (small : units h (pre ++ a :: post) < 2 ^ 32) (keeps : ∀ x, loose x → x ≠ a → loose' x) :
    ∃ post', Loose base (h.join a) (pre ++ a :: post') loose' ∧
      Conserves h (pre ++ a :: post) (h.join a) (pre ++ a :: post') := by
  by_cases meets : h.fin a = h.ptr a
  · have link := ptr_of_circle list.first list.circle
    cases post with
    | nil =>
      have low := high rfl
      have bottom := le_fin h a
      simp only [head?_nil, getD_none] at link
      omega
    | cons b post =>
      obtain rfl : h.ptr a = b := link
      obtain ⟨early, late⟩ := list.not_mem
      rw [units_append, units_cons, units_cons] at small
      have absorbs : Absorbs h a (h.join a) := absorbs_join meets (by omega)
      exact ⟨post, absorbs.loose list (next meets) keeps,
        absorbs.conserves early fun x member => late x (mem_cons_of_mem _ member)⟩
  · have same : h.join a = h := if_neg meets
    rw [same]
    exact ⟨post, list.relax meets keeps, rfl, fun _ _ => rfl, fun _ => id, rfl, fun _ => .rfl⟩

/-- `free` of a block that is not free keeps the list and adds the block to it. -/
theorem FreeList.free (list : FreeList base h nodes) (above : base < bp) (filled : 0 < h.size bp)
    (outside : ∀ a ∈ nodes, h.fin a ≤ bp ∨ h.fin bp ≤ a)
    (small : h.size bp + units h nodes < 2 ^ 32) :
    ∃ t nodes', (∀ fuel, nodes.length ≤ fuel → free fuel h (bp + unit) = some t) ∧
      FreeList base t nodes' ∧ t.calls = h.calls ∧
      (∀ a, a ∉ nodes → a ≠ bp → t.size a = h.size a) ∧
      units t nodes' = units h nodes + h.size bp ∧
      ∀ x, Covered t nodes' x ↔ Covered h nodes x ∨ bp ≤ x ∧ x < h.fin bp := by
  have spans : bp < h.fin bp := by
    unfold fin unit
    omega
  have absent : bp ∉ nodes := by
    intro member
    have low := le_fin h bp
    rcases outside bp member with ends | ends <;> omega
  obtain ⟨pre, p, post, rfl, below, beyond⟩ :=
    exists_bracket list.increasing list.first above absent
  have clear : ∀ a ∈ post, h.fin bp ≤ a := by
    intro a member
    have high := beyond a member
    have low := le_fin h a
    rcases outside a (by simp [member]) with ends | ends <;> omega
  have under : h.fin p ≤ bp := by
    rcases outside p (by simp) with ends | ends <;> omega
  have inserted := list.insert below under clear filled
  rw [← singleton_append, ← append_assoc] at inserted
  have total : units h (pre ++ [p] ++ bp :: post) = units h (pre ++ p :: post) + h.size bp := by
    simp only [units_append, units_cons, append_assoc, singleton_append]
    omega
  have far : h.fin bp = h.ptr p → ¬ (h.ptr p = p ∨ h.ptr p = bp) := by omega
  have link : ((h.setPtr bp (h.ptr p)).setPtr p bp).ptr bp = h.ptr p := by simp [setPtr, below.ne']
  obtain ⟨post₁, upper, same₁⟩ :=
    inserted.join (link.symm ▸ far) (fun _ => above) (lt_of_eq_of_lt total (by omega))
    (show ∀ x, _ → x ≠ bp → x = p from fun x near other => near.resolve_right other)
  simp only [append_assoc, singleton_append] at upper same₁ total
  have link' := ptr_of_circle upper.first upper.circle
  obtain ⟨post₂, lower, same₂⟩ :=
    upper.join (fun _ => link'.symm ▸ below.ne') (fun none => by cases none)
    (lt_of_eq_of_lt (same₁.units.trans total) (by omega))
    (show ∀ x, _ → x ≠ p → False from fun x near other => other near)
  rw [← joins_eq h below filled] at lower same₂
  refine ⟨{ (h.joinUpper bp p).joinLower bp p with freep := p }, pre ++ p :: post₂,
    fun fuel enough => ?_, ⟨lower.first, lower.circle, ?_, lower.filled, lower.empty, ?_⟩,
    same₂.calls.trans same₁.calls, fun a outside other => ?_, ?_, fun x => ?_⟩
  · simp only [free, Nat.add_sub_cancel, list.seek above below beyond enough, map_some]
  · exact lower.apart.imp fun touch => touch.resolve_right fun touches => touches.2
  · simp
  · have new : a ∉ pre ++ p :: bp :: post := by
      simp only [mem_append, mem_cons] at outside ⊢
      tauto
    exact (same₂.sizes a fun member => new (same₁.kept a member)).trans (same₁.sizes a new)
  · exact same₂.units.trans (same₁.units.trans total)
  · refine (same₂.covered x).trans ((same₁.covered x).trans ?_)
    change Covered h (pre ++ p :: bp :: post) x ↔ _
    simp only [covered_append, covered_cons]
    tauto

end EnhancedXv6.Umalloc
