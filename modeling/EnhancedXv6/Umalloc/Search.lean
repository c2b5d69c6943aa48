import EnhancedXv6.Umalloc.FreeList

namespace EnhancedXv6.Umalloc

open Foundation List Heap

variable {base nunits prevp p y : Nat} {h t : Heap} {nodes pre post l : List Nat} {sbrk : Sbrk}

/-- The loop passes the blocks that are too small and returns the first one that fits. -/
theorem mallocLoop_fits (chain : List.IsChain (fun a b => h.ptr a = b) (prevp :: (l ++ [y])))
    (small : ∀ a ∈ l, h.size a < nunits ∧ a ≠ h.freep) (fits : nunits ≤ h.size y)
    (enough : l.length < fuel) :
    mallocLoop sbrk fuel h nunits prevp (h.ptr prevp) =
      some (h.take nunits ((prevp :: l).getLast (cons_ne_nil _ _)) y) := by
  induction l generalizing prevp fuel with
  | nil =>
    obtain ⟨fuel, rfl⟩ : ∃ m, fuel = m + 1 := ⟨fuel - 1, by simp at enough; omega⟩
    have link : h.ptr prevp = y := (isChain_cons_cons.mp chain).1
    simp [mallocLoop, link, fits]
  | cons a l ih =>
    obtain ⟨fuel, rfl⟩ : ∃ m, fuel = m + 1 := ⟨fuel - 1, by simp at enough; omega⟩
    obtain ⟨link, rest⟩ := isChain_cons_cons.mp chain
    obtain ⟨less, other⟩ := small a mem_cons_self
    have later := ih rest (fun b member => small b (mem_cons_of_mem a member))
      (by simp at enough; omega)
    simp only [mallocLoop, link, not_le.mpr less, if_false, other]
    rw [later, getLast_cons (cons_ne_nil _ _)]

/-- If no block fits, the loop comes back to `freep` and asks for more memory. -/
theorem mallocLoop_full (chain : List.IsChain (fun a b => h.ptr a = b) (prevp :: (l ++ [h.freep])))
    (small : ∀ a ∈ l, h.size a < nunits ∧ a ≠ h.freep) (last : h.size h.freep < nunits)
    (core : morecore sbrk fuel h nunits = some (t, grown)) :
    (grown = none → mallocLoop sbrk (fuel + l.length + 1) h nunits prevp (h.ptr prevp) =
      some (t, 0)) ∧
    (∀ p, grown = some p → mallocLoop sbrk (fuel + l.length + 1) h nunits prevp (h.ptr prevp) =
        mallocLoop sbrk fuel t nunits p (t.ptr p)) := by
  induction l generalizing prevp with
  | nil =>
    have link : h.ptr prevp = h.freep := (isChain_cons_cons.mp chain).1
    simp only [length_nil, Nat.add_zero, mallocLoop, link, not_le.mpr last, if_false, if_true, core]
    constructor
    · rintro rfl
      rfl
    · rintro p rfl
      rfl
  | cons a l ih =>
    obtain ⟨link, rest⟩ := isChain_cons_cons.mp chain
    obtain ⟨less, other⟩ := small a mem_cons_self
    have later := ih rest fun b member => small b (mem_cons_of_mem a member)
    have rounds : fuel + (a :: l).length + 1 = (fuel + l.length + 1) + 1 := by
      simp only [length_cons]
      omega
    rw [rounds, mallocLoop]
    simp only [link, not_le.mpr less, if_false, other]
    exact later

/-- The blocks in the order in which the loop of `malloc` looks at them. -/
theorem FreeList.tour (list : FreeList base h nodes) :
    ∃ l, List.IsChain (fun a b => h.ptr a = b) (h.freep :: (l ++ [h.freep])) ∧
      (∀ a, a ∈ l ++ [h.freep] ↔ a ∈ nodes) ∧ h.freep ∉ l ∧ l.length < nodes.length := by
  obtain ⟨left, right, split⟩ := append_of_mem list.start
  have whole : FreeList base h (left ++ h.freep :: right) := split ▸ list
  refine ⟨right ++ left, ?_, fun a => ?_, whole.not_mem, ?_⟩
  · have circle : ClosedChain h.ptr (h.freep :: right ++ left) := whole.circle.rotate
    simpa [ClosedChain] using circle
  · rw [split]
    simp only [mem_append, mem_cons, not_mem_nil, or_false]
    tauto
  · rw [split]
    simp only [length_append, length_cons]
    omega

theorem FreeList.search (sbrk : Sbrk) (list : FreeList base h nodes)
    (available : ∃ a ∈ nodes, nunits ≤ h.size a) :
    ∃ z y, z ∈ nodes ∧ y ∈ nodes ∧ h.ptr z = y ∧ nunits ≤ h.size y ∧ ∀ fuel, nodes.length ≤ fuel →
        mallocLoop sbrk fuel h nunits h.freep (h.ptr h.freep) = some (h.take nunits z y) := by
  obtain ⟨l, chain, members, absent, short⟩ := list.tour
  cases found : (l ++ [h.freep]).find? fun a => nunits ≤ h.size a with
  | none =>
    obtain ⟨a, member, fits⟩ := available
    exact absurd fits (by simpa using find?_eq_none.mp found a ((members a).mpr member))
  | some y =>
    obtain ⟨fits, before, after, split, small⟩ := find?_eq_some_iff_append.mp found
    have present : y ∈ nodes := (members y).mp (mem_of_find?_eq_some found)
    have prior : ∀ a ∈ before, a ∈ l := by
      intro a member
      have shorter : before <+: l := by
        have whole : before <+: l ++ [h.freep] := ⟨y :: after, split.symm⟩
        rcases prefix_concat_iff.mp whole with all | part
        · have lengths := congrArg length (all ▸ split)
          simp at lengths
        · exact part
      exact shorter.subset member
    have part : List.IsChain (fun a b => h.ptr a = b) (h.freep :: (before ++ [y])) := by
      rw [split] at chain
      have longer :
        h.freep :: (before ++ y :: after) = (h.freep :: (before ++ [y])) ++ after := by simp
      rw [longer] at chain
      exact chain.left_of_append
    have passed : ∀ a ∈ before, h.size a < nunits ∧ a ≠ h.freep := by
      intro a member
      refine ⟨by simpa using small a member, fun same => absent ?_⟩
      exact same ▸ prior a member
    have last : (h.freep :: before).getLast (cons_ne_nil _ _) ∈ nodes := by
      have member := getLast_mem (cons_ne_nil h.freep before)
      rcases mem_cons.mp member with same | early
      · rw [same]
        exact list.start
      · exact (members _).mp (mem_append_left _ (prior _ early))
    refine ⟨_, y, last, present, ?_, by simpa using fits, fun fuel enough => ?_⟩
    · have link := isChain_append.mp (show List.IsChain (fun a b => h.ptr a = b)
        ((h.freep :: before) ++ [y]) from part)
      exact link.2.2 _ (getLast_mem_getLast? _) y rfl
    · refine mallocLoop_fits part passed (by simpa using fits) ?_
      have lengths := congrArg length split
      simp at lengths
      omega

/-- What `take` leaves of the free list: the block `bp` with `nunits` units is out of it. -/
structure Taken (base nunits : Nat) (h : Heap) (nodes : List Nat) (t : Heap) (bp : Nat)
    (nodes' : List Nat) : Prop where
  list : FreeList base t nodes'
  calls : t.calls = h.calls
  size : t.size bp = nunits
  above : base < bp
  units : Umalloc.units t nodes' + nunits = Umalloc.units h nodes
  inside : ∀ x, bp ≤ x → x < t.fin bp → Covered h nodes x
  covered : ∀ x, Covered t nodes' x → Covered h nodes x ∧ ¬ (bp ≤ x ∧ x < t.fin bp)
  sizes : ∀ a, a ∉ nodes → a ≠ bp → t.size a = h.size a

theorem units_replace (distinct : nodes.Nodup) (member : y ∈ nodes)
    (same : ∀ a ∈ nodes, a ≠ y → t.size a = h.size a) :
    units t nodes + h.size y = units h nodes + t.size y := by
  obtain ⟨pre, post, rfl⟩ := append_of_mem member
  obtain ⟨absent, _⟩ := nodup_cons.mp (nodup_middle.mp distinct)
  have first : units t pre = units h pre := units_congr fun a early =>
    same a (by simp [early]) fun equal => absent (by simp [← equal, early])
  have second : units t post = units h post := units_congr fun a late =>
    same a (by simp [late]) fun equal => absent (by simp [← equal, late])
  rw [units_append, units_cons, units_append, units_cons, first, second]
  omega

section

variable (list : FreeList base h nodes)

include list

theorem FreeList.base_le (member : a ∈ nodes) : base ≤ a := by
  cases nodes with
  | nil => cases member
  | cons b nodes =>
    have head : b = base := by simpa using list.first
    subst b
    rcases mem_cons.mp member with rfl | later
    · exact le_refl _
    · exact (rel_of_pairwise_cons list.increasing later).le

theorem FreeList.apart_of_ne (one : a ∈ nodes) (two : b ∈ nodes) (different : a ≠ b) :
    h.fin a < b ∨ h.fin b < a := by
  obtain ⟨pre, post, rfl⟩ := append_of_mem one
  obtain ⟨_, after, cross⟩ := pairwise_append.mp list.apart
  rcases mem_append.mp two with early | late
  · exact .inr (cross b early a (by simp))
  · rcases mem_cons.mp late with same | later
    · exact absurd same.symm different
    · exact .inl (rel_of_pairwise_cons after later)

theorem FreeList.takeAll (from_ : z ∈ nodes) (link : h.ptr z = y) (member : y ∈ nodes)
    (other : y ≠ base) :
    ∃ nodes', Taken base (h.size y) h nodes { h.setPtr z (h.ptr y) with freep := z } y nodes' := by
  obtain ⟨pre, post, split⟩ := append_of_mem from_
  subst split
  have next := list.ptr_eq
  cases post with
  | nil =>
    simp only [head?_nil, Option.getD_none] at next
    exact absurd (link.symm.trans next) other
  | cons b post =>
    have same : y = b := link.symm.trans next
    subst b
    have circle : ClosedChain h.ptr (z :: y :: (post ++ pre)) := by
      simpa using list.circle.rotate
    have distinct : (z :: y :: (post ++ pre)).Nodup := by
      have rotated := nodup_append_comm.mp list.nodup
      simpa using rotated
    obtain ⟨zAbsent, distinct⟩ := nodup_cons.mp distinct
    obtain ⟨yAbsent, _⟩ := nodup_cons.mp distinct
    have sub : (pre ++ z :: post).Sublist (pre ++ z :: y :: post) := by simp
    refine ⟨pre ++ z :: post, ⟨?_, ?_, ?_, ?_, list.empty, by simp⟩, rfl, rfl, ?_, ?_, ?_, ?_, ?_⟩
    · have first := list.first
      cases pre with
      | nil => simpa using first
      | cons b pre => simpa using first
    · have removed : ClosedChain (h.setPtr z (h.ptr y)).ptr (z :: (post ++ pre)) := by
        refine circle.remove (fun a inside => ?_) (by simp [setPtr])
        have different : a ≠ z := fun same => zAbsent (same ▸ mem_cons_of_mem y inside)
        simp [setPtr, different]
      exact ClosedChain.rotate (show ClosedChain _ ((z :: post) ++ pre) from removed)
    · exact list.apart.sublist sub
    · intro a inside different
      exact list.filled a (sub.subset inside) different
    · exact lt_of_le_of_ne (list.base_le member) other.symm
    · change units h _ + _ = _
      simp only [units_append, units_cons]
      omega
    · intro x low high
      exact ⟨y, member, low, high⟩
    · rintro x ⟨a, inside, low, high⟩
      refine ⟨⟨a, sub.subset inside, low, high⟩, fun within => ?_⟩
      have different : a ≠ y := by
        rintro rfl
        simp only [mem_append, mem_cons] at inside yAbsent zAbsent
        tauto
      have ends : (h.setPtr z (h.ptr y)).fin = h.fin := rfl
      have top : x < h.fin a := high
      have under : x < h.fin y := within.2
      rcases list.apart_of_ne (sub.subset inside) member different with before | before <;> omega
    · intro a _ _
      rfl

theorem FreeList.takeEnd (from_ : z ∈ nodes) (member : y ∈ nodes) (positive : 0 < nunits)
    (larger : nunits < h.size y) :
    let cut := h.setSize y (h.size y - nunits)
    Taken base nunits h nodes { cut.setSize (cut.fin y) nunits with freep := z }
      (cut.fin y) nodes := by
  intro cut
  have other : y ≠ base := by
    rintro rfl
    rw [list.empty] at larger
    omega
  have place : cut.fin y + unit * nunits = h.fin y := by
    simp only [cut, fin, setSize, Function.update_self, Nat.add_assoc, ← Nat.mul_add]
    congr 2
    omega
  have low : y < cut.fin y := by
    simp only [cut, fin, setSize, Function.update_self, unit]
    omega
  have high : cut.fin y < h.fin y := by
    unfold unit at place
    omega
  have outside : cut.fin y ∉ nodes := by
    intro inside
    have top := le_fin h (cut.fin y)
    rcases list.apart_of_ne inside member low.ne' with before | before <;> omega
  have own : (cut.setSize (cut.fin y) nunits).size y = h.size y - nunits := by
    rw [setSize_size_other _ _ low.ne, setSize_size_self]
  have kept : ∀ a, a ≠ y → a ≠ cut.fin y → (cut.setSize (cut.fin y) nunits).size a = h.size a := by
    intro a one two
    rw [setSize_size_other _ _ two, setSize_size_other _ _ one]
  have inner : ∀ a ∈ nodes, a ≠ cut.fin y := fun a inside same => outside (same ▸ inside)
  have ends : (cut.setSize (cut.fin y) nunits).fin y = cut.fin y := by
    rw [fin, own, fin, setSize_size_self]
  have shrinks : ∀ a ∈ nodes, (cut.setSize (cut.fin y) nunits).fin a ≤ h.fin a := by
    intro a inside
    by_cases same : a = y
    · rw [same, ends]
      exact high.le
    · rw [fin_congr (kept a same (inner a inside))]
  have block : (cut.setSize (cut.fin y) nunits).fin (cut.fin y) = h.fin y := by
    rw [← place, fin, setSize_size_self]
  refine ⟨⟨list.first, list.circle, ?_, ?_, ?_, from_⟩, rfl, ?_, ?_, ?_, ?_, ?_, ?_⟩
  · exact list.apart.imp_of_mem fun inside _ less => lt_of_le_of_lt (shrinks _ inside) less
  · intro a inside different
    by_cases same : a = y
    · rw [same]
      exact lt_of_lt_of_eq (by omega) own.symm
    · exact lt_of_lt_of_eq (list.filled a inside different) (kept a same (inner a inside)).symm
  · exact (kept base other.symm (inner base list.root)).trans list.empty
  · simp [setSize]
  · exact lt_of_le_of_lt (list.base_le member) low
  · have changed := units_replace list.nodup member
      fun a inside different => kept a different (inner a inside)
    rw [own] at changed
    change units (cut.setSize (cut.fin y) nunits) nodes + nunits = _
    omega
  · intro x bottom top
    exact ⟨y, member, by omega, lt_of_lt_of_eq top block⟩
  · rintro x ⟨a, inside, bottom, top⟩
    have under : x < (cut.setSize (cut.fin y) nunits).fin a := top
    refine ⟨⟨a, inside, bottom, lt_of_lt_of_le top (shrinks a inside)⟩, fun within => ?_⟩
    have upper : x < h.fin y := lt_of_lt_of_eq within.2 block
    by_cases same : a = y
    · subst a
      omega
    · have limit := shrinks a inside
      rcases list.apart_of_ne inside member same with before | before <;> omega
  · intro a absent different
    exact kept a (fun same => absent (same ▸ member)) different

theorem FreeList.take (from_ : z ∈ nodes) (link : h.ptr z = y)
    (member : y ∈ nodes) (positive : 0 < nunits) (fits : nunits ≤ h.size y) :
    ∃ t bp nodes', h.take nunits z y = (t, bp + unit) ∧ Taken base nunits h nodes t bp nodes' := by
  by_cases exactly : h.size y = nunits
  · have other : y ≠ base := by
      rintro rfl
      rw [list.empty] at exactly
      omega
    obtain ⟨nodes', taken⟩ := list.takeAll from_ link member other
    refine ⟨_, y, nodes', ?_, exactly ▸ taken⟩
    simp [Heap.take, exactly]
  · refine ⟨_, _, nodes, ?_,
      list.takeEnd from_ member positive (lt_of_le_of_ne fits (Ne.symm exactly))⟩
    simp [Heap.take, exactly]

end

end EnhancedXv6.Umalloc
