import EnhancedXv6.Foundation.Run
import EnhancedXv6.Umalloc.Search

namespace EnhancedXv6.Umalloc

open Foundation List Option Heap

def granted : List (Int × Option Nat) → Nat
  | [] => 0
  | (bytes, some _) :: calls => bytes.toNat + granted calls
  | (_, none) :: calls => granted calls

/-- The end of the memory of the program: `base` and what `sbrk` has granted. -/
def top (base : Nat) : List (Int × Option Nat) → Nat
  | [] => base + unit
  | (bytes, some start) :: calls => max (start + bytes.toNat) (top base calls)
  | (_, none) :: calls => top base calls

/-- Memory that `sbrk` grants is above all memory so far. -/
def Fresh (base : Nat) (sbrk : Sbrk) : Prop :=
  ∀ calls bytes start, 0 < bytes → bytes < 2 ^ 31 → sbrk calls bytes = some start →
    top base calls ≤ start

/-- `sbrk` never grants `2 ^ 32` units or more in all. -/
def Bounded (sbrk : Sbrk) : Prop :=
  ∀ calls bytes start, 0 < bytes → bytes < 2 ^ 31 → sbrk calls bytes = some start →
    granted calls + bytes.toNat < unit * 2 ^ 32

/-- The heap, and the live blocks with the number of bytes that was asked for. -/
structure State where
  heap : Heap
  live : List (Nat × Nat)

def start : State :=
  { heap := { ptr := fun _ => 0, size := fun _ => 0, freep := 0, calls := [] }, live := [] }

inductive Event where
  | malloc (nbytes : Nat)
  | free (block : Nat × Nat)
  deriving DecidableEq, Repr

def Modest (nbytes : Nat) : Prop := nbytes < 2 ^ 32 ∧ coreUnits (unitsFor nbytes) * unit < 2 ^ 31

instance decidableModest (nbytes : Nat) : Decidable (Modest nbytes) :=
  inferInstanceAs (Decidable (_ ∧ _))

/-- One call of the program, with a number of rounds for the loops. -/
def perform (base : Nat) (sbrk : Sbrk) (fuel : Nat) (s : State) : Event → Option State
  | .malloc nbytes =>
    if Modest nbytes then
      (malloc base sbrk fuel s.heap nbytes).map fun result =>
        { heap := result.1
          live := if result.2 = 0 then s.live else (result.2 - unit, nbytes) :: s.live }
    else none
  | .free block =>
    if block ∈ s.live then
      (free fuel s.heap (block.1 + unit)).map fun heap =>
        { heap := heap, live := s.live.erase block }
    else none

def Step (base : Nat) (sbrk : Sbrk) (s t : State) : Prop :=
  ∃ fuel event, perform base sbrk fuel s event = some t

/-- The free list is a circle in increasing order whose blocks are not adjacent, the
live blocks are apart from each other and from the free ones and large enough, and all
of them together have the units that `sbrk` has granted. -/
structure Sound (base : Nat) (h : Heap) (live : List (Nat × Nat)) (nodes : List Nat) : Prop where
  list : FreeList base h nodes
  above : ∀ b ∈ live, base < b.1
  large : ∀ b ∈ live, b.2 + unit ≤ unit * h.size b.1
  apart : live.Pairwise fun b c => h.fin b.1 ≤ c.1 ∨ h.fin c.1 ≤ b.1
  separate : ∀ b ∈ live, ∀ x, b.1 ≤ x → x < h.fin b.1 → ¬ Covered h nodes x
  conserved : unit * (units h nodes + units h (live.map Prod.fst)) = granted h.calls
  below : ∀ b ∈ live, h.fin b.1 ≤ top base h.calls
  free_below : ∀ x, Covered h nodes x → x < top base h.calls

variable {base nbytes nunits : Nat} {h t : Heap} {live : List (Nat × Nat)} {nodes nodes' : List Nat}
  {sbrk : Sbrk}

theorem Sound.nonempty (sound : Sound base h live nodes) (member : b ∈ live) : b.1 < h.fin b.1 := by
  have large := sound.large b member
  unfold fin
  unfold unit at large ⊢
  omega

theorem Sound.not_node (sound : Sound base h live nodes) (member : b ∈ live) : b.1 ∉ nodes := by
  intro node
  have positive := sound.list.filled b.1 node (sound.above b member).ne'
  have spans := sound.nonempty member
  exact sound.separate b member b.1 (le_refl _) spans ⟨b.1, node, le_refl _, spans⟩

theorem ranges_apart {a a' b b' : Nat} (one : a < a') (two : b < b')
    (none : ∀ x, a ≤ x → x < a' → ¬ (b ≤ x ∧ x < b')) : a' ≤ b ∨ b' ≤ a := by
  by_contra overlap
  have inside := none (max a b) (le_max_left _ _) (by omega)
  exact inside ⟨le_max_right _ _, by omega⟩

theorem Taken.spans (taken : Taken base nunits h nodes t bp nodes') (positive : 0 < nunits) :
    bp < t.fin bp := by
  unfold fin unit
  rw [taken.size]
  omega

theorem Sound.taken_sizes (sound : Sound base h live nodes)
    (taken : Taken base nunits h nodes t bp nodes')
    (positive : 0 < nunits) : ∀ b ∈ live, t.size b.1 = h.size b.1 := by
  intro b member
  refine taken.sizes b.1 (sound.not_node member) fun same => ?_
  exact sound.separate b member b.1 (le_refl _) (sound.nonempty member)
    (same ▸ taken.inside bp (le_refl _) (taken.spans positive))

/-- `malloc` adds the block it has taken to the live ones. -/
theorem Sound.taken (sound : Sound base h live nodes)
    (taken : Taken base nunits h nodes t bp nodes')
    (enough : nbytes + unit ≤ unit * nunits) : Sound base t ((bp, nbytes) :: live) nodes' := by
  have positive : 0 < nunits := by
    unfold unit at enough
    omega
  have spans := taken.spans positive
  have sizes := sound.taken_sizes taken positive
  have ends : ∀ b ∈ live, t.fin b.1 = h.fin b.1 := fun b member => fin_congr (sizes b member)
  refine ⟨taken.list, ?_, ?_, ?_, ?_, ?_, ?_, ?_⟩
  · intro b member
    rcases mem_cons.mp member with rfl | old
    · exact taken.above
    · exact sound.above b old
  · intro b member
    rcases mem_cons.mp member with rfl | old
    · rw [taken.size]
      exact enough
    · rw [sizes b old]
      exact sound.large b old
  · refine pairwise_cons.mpr ⟨fun b member => ?_, sound.apart.imp_of_mem fun one two clear => ?_⟩
    · refine ranges_apart spans (by rw [ends b member]; exact sound.nonempty member) ?_
      rintro x low high ⟨low', high'⟩
      rw [ends b member] at high'
      exact sound.separate b member x low' high' (taken.inside x low high)
    · rwa [ends _ one, ends _ two]
  · intro b member x low high covered
    obtain ⟨before, outside⟩ := taken.covered x covered
    rcases mem_cons.mp member with rfl | old
    · exact outside ⟨low, high⟩
    · rw [ends b old] at high
      exact sound.separate b old x low high before
  · have same : units t (live.map Prod.fst) = units h (live.map Prod.fst) := by
      refine units_congr fun a member => ?_
      obtain ⟨b, old, rfl⟩ := mem_map.mp member
      exact sizes b old
    have total := taken.units
    rw [taken.calls, ← sound.conserved, map_cons, units_cons, same, taken.size]
    congr 1
    omega
  · intro b member
    rw [taken.calls]
    rcases mem_cons.mp member with rfl | old
    · have last := sound.free_below _ (taken.inside (t.fin bp - 1) (by omega) (by omega))
      change t.fin bp ≤ _
      omega
    · rw [ends b old]
      exact sound.below b old
  · intro x covered
    rw [taken.calls]
    exact sound.free_below x (taken.covered x covered).1

theorem Sound.perm (sound : Sound base h live nodes) (same : live.Perm live') :
    Sound base h live' nodes where
  list := sound.list
  above b member := sound.above b (same.mem_iff.mpr member)
  large b member := sound.large b (same.mem_iff.mpr member)
  apart := (same.pairwise_iff fun clear => clear.symm).mp sound.apart
  separate b member := sound.separate b (same.mem_iff.mpr member)
  conserved := by
    rw [← sound.conserved]
    unfold units
    rw [((same.map Prod.fst).map h.size).sum_eq]
  below b member := sound.below b (same.mem_iff.mpr member)
  free_below := sound.free_below

/-- `free` of a live block returns it to the free ones. -/
theorem Sound.freed (sound : Sound base h (b :: live) nodes)
    (bound : granted h.calls < unit * 2 ^ 32) :
    ∃ t nodes', (∀ fuel, nodes.length ≤ fuel → free fuel h (b.1 + unit) = some t) ∧
      Sound base t live nodes' ∧ t.calls = h.calls ∧ (∀ c ∈ live, t.size c.1 = h.size c.1) ∧
      ∀ x, Covered t nodes' x ↔ Covered h nodes x ∨ b.1 ≤ x ∧ x < h.fin b.1 := by
  have first : b ∈ b :: live := mem_cons_self
  have spans := sound.nonempty first
  have positive : 0 < h.size b.1 := by
    unfold fin at spans
    by_contra zero
    simp [Nat.eq_zero_of_not_pos zero] at spans
  have outside : ∀ a ∈ nodes, h.fin a ≤ b.1 ∨ h.fin b.1 ≤ a := by
    intro a node
    by_cases root : a = base
    · have low := sound.above b first
      left
      rw [root, fin, sound.list.empty]
      omega
    · have filled := sound.list.filled a node root
      refine ranges_apart (by unfold fin unit; omega) spans fun x low high within => ?_
      exact sound.separate b first x within.1 within.2 ⟨a, node, low, high⟩
  have total := sound.conserved
  rw [map_cons, units_cons] at total
  obtain ⟨t, nodes', returns, list, calls, sizes, more, spread⟩ :=
    sound.list.free (sound.above b first) positive outside (by unfold unit at total bound; omega)
  obtain ⟨clear, apart⟩ := pairwise_cons.mp sound.apart
  have kept : ∀ c ∈ live, t.size c.1 = h.size c.1 := by
    intro c member
    refine sizes c.1 (sound.not_node (mem_cons_of_mem b member)) fun same => ?_
    have longer := sound.nonempty (mem_cons_of_mem b member)
    rcases clear c member with low | low <;> omega
  have ends : ∀ c ∈ live, t.fin c.1 = h.fin c.1 := fun c member => fin_congr (kept c member)
  refine ⟨t, nodes', returns, ⟨list, ?_, ?_, ?_, ?_, ?_, ?_, ?_⟩, calls, kept, spread⟩
  · intro c member
    exact sound.above c (mem_cons_of_mem b member)
  · intro c member
    rw [kept c member]
    exact sound.large c (mem_cons_of_mem b member)
  · refine apart.imp_of_mem fun one two separate => ?_
    rwa [ends _ one, ends _ two]
  · intro c member x low high covered
    rw [ends c member] at high
    rcases (spread x).mp covered with before | freed
    · exact sound.separate c (mem_cons_of_mem b member) x low high before
    · rcases clear c member with order | order <;> omega
  · have same : units t (live.map Prod.fst) = units h (live.map Prod.fst) := by
      refine units_congr fun a member => ?_
      obtain ⟨c, old, rfl⟩ := mem_map.mp member
      exact kept c old
    rw [calls, ← total, same, more]
    congr 1
    omega
  · intro c member
    rw [calls, ends c member]
    exact sound.below c (mem_cons_of_mem b member)
  · intro x covered
    rw [calls]
    rcases (spread x).mp covered with before | freed
    · exact sound.free_below x before
    · exact lt_of_lt_of_le freed.2 (sound.below b first)

theorem sbrkArgument_eq (small : bytes < 2 ^ 31) : sbrkArgument bytes = bytes := by
  unfold sbrkArgument
  rw [Nat.mod_eq_of_lt (by omega), if_pos small]

theorem Sound.refused (sound : Sound base h live nodes) (bytes : Int) :
    Sound base { h with calls := (bytes, none) :: h.calls } live nodes :=
  ⟨⟨sound.list.first, sound.list.circle, sound.list.apart, sound.list.filled, sound.list.empty,
    sound.list.start⟩, sound.above, sound.large, sound.apart, sound.separate, sound.conserved,
    sound.below, sound.free_below⟩

theorem top_above (base : Nat) (calls : List (Int × Option Nat)) :
    base + unit ≤ top base calls := by
  induction calls with
  | nil => exact le_refl _
  | cons call calls ih =>
    obtain ⟨bytes, result⟩ := call
    cases result with
    | none => exact ih
    | some start => exact ih.trans (le_max_right _ _)

theorem FreeList.congr (list : FreeList base h nodes) (ptr : t.ptr = h.ptr)
    (freep : t.freep = h.freep)
    (sizes : ∀ a ∈ nodes, t.size a = h.size a) : FreeList base t nodes where
  first := list.first
  circle := ptr ▸ list.circle
  apart := list.apart.imp_of_mem fun member _ less => by rwa [fin_congr (sizes _ member)]
  filled a member different := by
    rw [sizes a member]
    exact list.filled a member different
  empty := by rw [sizes base list.root, list.empty]
  start := freep ▸ list.start

/-- The memory that `sbrk` has granted is a live block until `morecore` frees it. -/
theorem Sound.granted (sound : Sound base h live nodes) (fresh : top base h.calls ≤ hp)
    (positive : 0 < nu) (argument : bytes.toNat = unit * nu) :
    Sound base ({ h with calls := (bytes, some hp) :: h.calls }.setSize hp nu)
      ((hp, 0) :: live) nodes := by
  have root := top_above base h.calls
  have lower : ∀ a ∈ nodes, a < hp := by
    intro a member
    by_cases same : a = base
    · unfold unit at root
      omega
    · have filled := sound.list.filled a member same
      have covered := sound.free_below a ⟨a, member, le_refl a, by unfold fin unit; omega⟩
      omega
  have earlier : ∀ b ∈ live, b.1 < hp := by
    intro b member
    have spans := sound.nonempty member
    have low := sound.below b member
    omega
  generalize called : ({ h with calls := (bytes, some hp) :: h.calls } : Heap).setSize hp nu = t
  have own : t.size hp = nu := by rw [← called, setSize_size_self]
  have kept : ∀ a, a ≠ hp → t.size a = h.size a := by
    intro a different
    rw [← called, setSize_size_other _ _ different]
  have calls : t.calls = (bytes, some hp) :: h.calls := by rw [← called]; rfl
  have limit : top base t.calls = max (hp + unit * nu) (top base h.calls) := by
    rw [calls, top, argument]
  have ends : ∀ b ∈ live, t.fin b.1 = h.fin b.1 := fun b member =>
    fin_congr (kept b.1 (earlier b member).ne)
  have same : ∀ x, Covered t nodes x ↔ Covered h nodes x := fun x =>
    covered_congr fun a member => kept a (lower a member).ne
  have whole : t.fin hp = hp + unit * nu := by rw [fin, own]
  refine ⟨sound.list.congr (by rw [← called]; rfl) (by rw [← called]; rfl)
    (fun a member => kept a (lower a member).ne), ?_, ?_, ?_, ?_, ?_, ?_, ?_⟩
  · intro b member
    rcases mem_cons.mp member with rfl | old
    · exact lower base sound.list.root
    · exact sound.above b old
  · intro b member
    rcases mem_cons.mp member with rfl | old
    · rw [own]
      unfold unit
      omega
    · rw [kept b.1 (earlier b old).ne]
      exact sound.large b old
  · refine pairwise_cons.mpr
      ⟨fun b member => .inr ?_, sound.apart.imp_of_mem fun one two clear => ?_⟩
    · rw [ends b member]
      exact (sound.below b member).trans fresh
    · rwa [ends _ one, ends _ two]
  · intro b member x low high covered
    have under := (same x).mp covered
    rcases mem_cons.mp member with rfl | old
    · have less := sound.free_below x under
      have start : hp ≤ x := low
      omega
    · rw [ends b old] at high
      exact sound.separate b old x low high under
  · have first : units t nodes = units h nodes :=
      units_congr fun a member => kept a (lower a member).ne
    have second : units t (live.map Prod.fst) = units h (live.map Prod.fst) := by
      refine units_congr fun a member => ?_
      obtain ⟨b, old, rfl⟩ := mem_map.mp member
      exact kept b.1 (earlier b old).ne
    rw [calls, Umalloc.granted, argument, ← sound.conserved, map_cons, units_cons, own, first,
      second, ← Nat.mul_add]
    congr 1
    omega
  · intro b member
    rw [limit]
    rcases mem_cons.mp member with rfl | old
    · rw [whole]
      exact le_max_left _ _
    · rw [ends b old]
      exact (sound.below b old).trans (le_max_right _ _)
  · intro x covered
    rw [limit]
    exact lt_of_lt_of_le (sound.free_below x ((same x).mp covered)) (le_max_right _ _)

/-- A range of addresses that free blocks cover lies inside one of them. -/
theorem FreeList.contiguous (list : FreeList base h nodes) (positive : 0 < n)
    (covered : ∀ x, a ≤ x → x < a + unit * n → Covered h nodes x) : ∃ b ∈ nodes, n ≤ h.size b := by
  obtain ⟨b, member, low, high⟩ := covered a (le_refl a) (by unfold unit; omega)
  refine ⟨b, member, ?_⟩
  by_contra short
  have ends : h.fin b < a + unit * n := by
    unfold fin unit
    omega
  obtain ⟨c, other, low', high'⟩ := covered (h.fin b) (by omega) ends
  by_cases same : c = b
  · rw [same] at high'
    omega
  · rcases list.apart_of_ne other member same with before | before <;> omega

theorem unitsFor_enough (small : nbytes < 2 ^ 32) : nbytes + unit ≤ unit * unitsFor nbytes := by
  unfold unitsFor unit
  omega

theorem coreUnits_ge (nu : Nat) : nu ≤ coreUnits nu ∧ 4096 ≤ coreUnits nu := by
  unfold coreUnits
  split <;> omega

def Occupied (h : Heap) (nodes : List Nat) (live : List (Nat × Nat)) (x : Nat) : Prop :=
  Covered h (nodes ++ live.map Prod.fst) x

def Granted (calls : List (Int × Option Nat)) (x : Nat) : Prop :=
  ∃ bytes start, (bytes, some start) ∈ calls ∧ start ≤ x ∧ x < start + bytes.toNat

theorem occupied_cons :
    Occupied h nodes (b :: live) x ↔ Occupied h nodes live x ∨ b.1 ≤ x ∧ x < h.fin b.1 := by
  unfold Occupied
  rw [map_cons, covered_append, covered_cons, covered_append]
  tauto

theorem Sound.taken_occupied (sound : Sound base h live nodes)
    (taken : Taken base nunits h nodes t bp nodes') (positive : 0 < nunits)
    (there : Occupied t nodes' ((bp, nbytes) :: live) x) : Occupied h nodes live x := by
  have sizes := sound.taken_sizes taken positive
  have same : Covered t (live.map Prod.fst) x ↔ Covered h (live.map Prod.fst) x := by
    refine covered_congr fun a member => ?_
    obtain ⟨b, old, rfl⟩ := mem_map.mp member
    exact sizes b old
  unfold Occupied
  rw [occupied_cons, Occupied, covered_append, same] at there
  rw [covered_append]
  rcases there with (free | old) | ⟨low, high⟩
  · exact .inl (taken.covered x free).1
  · exact .inr old
  · exact .inl (taken.inside x low high)

theorem occupied_freed (sizes : ∀ c ∈ live, t.size c.1 = h.size c.1)
    (spread : ∀ x, Covered t nodes' x ↔ Covered h nodes x ∨ b.1 ≤ x ∧ x < h.fin b.1) :
    Occupied t nodes' live x ↔ Occupied h nodes (b :: live) x := by
  have same : Covered t (live.map Prod.fst) x ↔ Covered h (live.map Prod.fst) x := by
    refine covered_congr fun a member => ?_
    obtain ⟨c, old, rfl⟩ := mem_map.mp member
    exact sizes c old
  rw [occupied_cons, Occupied, Occupied, covered_append, covered_append, same, spread]
  tauto

theorem occupied_granted {hp nu : Nat} {bytes : Int} (argument : bytes.toNat = unit * nu)
    (there : Occupied ({ h with calls := (bytes, some hp) :: h.calls }.setSize hp nu) nodes
      ((hp, 0) :: live) x) :
    Occupied h nodes live x ∨ Granted [(bytes, some hp)] x := by
  obtain ⟨a, member, low, high⟩ := there
  by_cases same : a = hp
  · subst same
    rw [fin, setSize_size_self, ← argument] at high
    exact .inr ⟨bytes, a, mem_singleton_self _, low, high⟩
  · rw [fin_congr (setSize_size_other _ _ same)] at high
    refine .inl ⟨a, ?_, low, high⟩
    rw [map_cons, mem_append, mem_cons] at member
    rw [mem_append]
    exact member.imp_right fun old => old.resolve_left same

theorem Sound.search (sbrk : Sbrk) (sound : Sound base h live nodes) (small : nbytes < 2 ^ 32)
    (available : ∃ a ∈ nodes, unitsFor nbytes ≤ h.size a) :
    ∃ t bp nodes', (∀ fuel, nodes.length ≤ fuel →
        mallocLoop sbrk fuel h (unitsFor nbytes) h.freep (h.ptr h.freep) = some (t, bp + unit)) ∧
      t.calls = h.calls ∧ Sound base t ((bp, nbytes) :: live) nodes' ∧
      ∀ x, Occupied t nodes' ((bp, nbytes) :: live) x → Occupied h nodes live x := by
  have enough := unitsFor_enough small
  have positive : 0 < unitsFor nbytes := by
    unfold unit at enough
    omega
  obtain ⟨z, y, node, member, link, fits, returns⟩ := sound.list.search sbrk available
  obtain ⟨t, bp, nodes', result, taken⟩ := sound.list.take node link member positive fits
  refine ⟨t, bp, nodes', fun fuel rounds => ?_, taken.calls, sound.taken taken enough,
    fun x => sound.taken_occupied taken positive⟩
  rw [returns fuel rounds, result]

/-- The live blocks after `malloc` has returned `p`. -/
def served (live : List (Nat × Nat)) (nbytes p : Nat) : List (Nat × Nat) :=
  if p = 0 then live else (p - unit, nbytes) :: live

theorem served_null : served live nbytes 0 = live := if_pos rfl

theorem served_block : served live nbytes (bp + unit) = (bp, nbytes) :: live := by
  rw [served, if_neg (by unfold unit; omega), Nat.add_sub_cancel]

/-- If no free block fits, the search passes them all and asks for more memory. -/
theorem FreeList.lap (sbrk : Sbrk) (list : FreeList base h nodes)
    (small : ∀ a ∈ nodes, h.size a < nunits) :
    ∃ rounds, ∀ fuel t grown, morecore sbrk fuel h nunits = some (t, grown) →
      (grown = none →
        mallocLoop sbrk (fuel + rounds) h nunits h.freep (h.ptr h.freep) = some (t, 0)) ∧
      ∀ p, grown = some p → mallocLoop sbrk (fuel + rounds) h nunits h.freep (h.ptr h.freep) =
        mallocLoop sbrk fuel t nunits p (t.ptr p) := by
  obtain ⟨l, chain, members, absent, _⟩ := list.tour
  have passed : ∀ a ∈ l, h.size a < nunits ∧ a ≠ h.freep := fun a member =>
    ⟨small a ((members a).mp (mem_append_left _ member)), fun same => absent (same ▸ member)⟩
  exact ⟨l.length + 1, fun _ _ _ core =>
    mallocLoop_full chain passed (small _ ((members _).mp (by simp))) core⟩

theorem sbrkArgument_core (modest : coreUnits nu * unit < 2 ^ 31) :
    0 < sbrkArgument (coreUnits nu * unit) ∧ sbrkArgument (coreUnits nu * unit) < 2 ^ 31 ∧
      (sbrkArgument (coreUnits nu * unit)).toNat = unit * coreUnits nu := by
  have least := (coreUnits_ge nu).2
  rw [sbrkArgument_eq modest, Int.toNat_natCast, Nat.mul_comm unit]
  unfold unit at modest ⊢
  omega

/-- What `sbrk` grants to `morecore` joins the free blocks, and then one of them fits. -/
theorem Sound.grow {hp : Nat} (sound : Sound base h live nodes) (fresh : Fresh base sbrk)
    (bounded : Bounded sbrk) (modest : coreUnits nu * unit < 2 ^ 31)
    (result : sbrk h.calls (sbrkArgument (coreUnits nu * unit)) = some hp) :
    ∃ t nodes', (∀ fuel, nodes.length ≤ fuel → morecore sbrk fuel h nu = some (t, some t.freep)) ∧
      Sound base t live nodes' ∧
      t.calls = (sbrkArgument (coreUnits nu * unit), some hp) :: h.calls ∧
      Umalloc.granted t.calls < unit * 2 ^ 32 ∧ (∃ a ∈ nodes', nu ≤ t.size a) ∧
      ∀ x, Occupied t nodes' live x →
        Occupied h nodes live x ∨ Granted [(sbrkArgument (coreUnits nu * unit), some hp)] x := by
  obtain ⟨more, least⟩ := coreUnits_ge nu
  obtain ⟨positive, below, bytes⟩ := sbrkArgument_core modest
  have grown : Umalloc.granted ((sbrkArgument (coreUnits nu * unit), some hp) :: h.calls) <
      unit * 2 ^ 32 := by
    have total := bounded _ _ _ positive below result
    rw [Umalloc.granted]
    omega
  obtain ⟨t, nodes', returns, after, same, sizes, spread⟩ := (sound.granted
    (fresh _ _ _ positive below result) (by omega) bytes).freed grown
  refine ⟨t, nodes', fun fuel enough => ?_, after, same, same ▸ grown, ?_, fun x there =>
    occupied_granted bytes ((occupied_freed sizes spread).mp there)⟩
  · simp only [morecore, result, returns fuel enough, map_some]
  · obtain ⟨a, member, large⟩ := after.list.contiguous (show 0 < coreUnits nu by omega)
      fun x low high => (spread x).mpr (.inr ⟨low, by rwa [fin, setSize_size_self]⟩)
    exact ⟨a, member, more.trans large⟩

/-- `malloc` returns a new block, or a null pointer and no change. It calls `sbrk` at most once,
and what it uses has been in use or is what that call has granted. -/
theorem Sound.serve (sound : Sound base h live nodes) (fresh : Fresh base sbrk)
    (bounded : Bounded sbrk) (bound : Umalloc.granted h.calls < unit * 2 ^ 32)
    (word : nbytes < 2 ^ 32) (sensible : (∃ a ∈ nodes, unitsFor nbytes ≤ h.size a) ∨
      coreUnits (unitsFor nbytes) * unit < 2 ^ 31) :
    ∃ enough t p nodes' new, (∀ fuel, enough ≤ fuel →
        mallocLoop sbrk fuel h (unitsFor nbytes) h.freep (h.ptr h.freep) = some (t, p)) ∧
      Umalloc.granted t.calls < unit * 2 ^ 32 ∧ Sound base t (served live nbytes p) nodes' ∧
      t.calls = new ++ h.calls ∧
      (∀ call ∈ new, call.1 = ((coreUnits (unitsFor nbytes) * unit : Nat) : Int) ∧ 0 < call.1) ∧
      ∀ x, Occupied t nodes' (served live nbytes p) x →
        Occupied h nodes live x ∨ Granted new x := by
  by_cases available : ∃ a ∈ nodes, unitsFor nbytes ≤ h.size a
  · obtain ⟨t, bp, nodes', returns, calls, after, used⟩ := sound.search sbrk word available
    refine ⟨nodes.length, t, bp + unit, nodes', [], returns, calls ▸ bound, ?_, calls, by simp, ?_⟩
    · rwa [served_block]
    · rw [served_block]
      exact fun x there => .inl (used x there)
  · have modest := sensible.resolve_left available
    obtain ⟨rounds, lap⟩ := sound.list.lap sbrk fun a member =>
      not_le.mp fun fits => available ⟨a, member, fits⟩
    have asked (outcome : Option Nat) :
        ∀ call ∈ [(sbrkArgument (coreUnits (unitsFor nbytes) * unit), outcome)],
          call.1 = ((coreUnits (unitsFor nbytes) * unit : Nat) : Int) ∧ 0 < call.1 := by
      intro call member
      rw [mem_singleton.mp member]
      exact ⟨sbrkArgument_eq modest, (sbrkArgument_core modest).1⟩
    cases result : sbrk h.calls (sbrkArgument (coreUnits (unitsFor nbytes) * unit)) with
    | none =>
      refine ⟨rounds, { h with calls :=
        (sbrkArgument (coreUnits (unitsFor nbytes) * unit), none) :: h.calls }, 0, nodes, _,
        fun fuel enough => ?_, bound, served_null.symm ▸ sound.refused _, rfl, asked none, ?_⟩
      · obtain ⟨fuel, rfl⟩ := Nat.exists_eq_add_of_le' enough
        exact (lap fuel _ none (by simp only [morecore, result])).1 rfl
      · rw [served_null]
        exact fun x there => .inl there
    | some hp =>
      obtain ⟨t, nodes', core, after, calls, grown, room, kept⟩ :=
        sound.grow fresh bounded modest result
      obtain ⟨u, bp, nodes'', found, same, ends, used⟩ := after.search sbrk word room
      refine ⟨max nodes.length nodes'.length + rounds, u, bp + unit, nodes'', _,
        fun fuel enough => ?_, same ▸ grown, served_block.symm ▸ ends, same.trans calls,
        asked (some hp), fun x there => kept x (used x (served_block ▸ there))⟩
      obtain ⟨fuel, rfl⟩ := Nat.exists_eq_add_of_le' ((Nat.le_add_left _ _).trans enough)
      rw [(lap fuel _ _ (core fuel (by omega))).2 t.freep rfl]
      exact found fuel (by omega)

theorem Sound.malloc (sound : Sound base h live nodes) (fresh : Fresh base sbrk)
    (bounded : Bounded sbrk) (bound : Umalloc.granted h.calls < unit * 2 ^ 32)
    (modest : Modest nbytes) :
    ∃ enough t p, (∀ fuel, enough ≤ fuel →
        mallocLoop sbrk fuel h (unitsFor nbytes) h.freep (h.ptr h.freep) = some (t, p)) ∧
      Umalloc.granted t.calls < unit * 2 ^ 32 ∧
      ∃ nodes', Sound base t (if p = 0 then live else (p - unit, nbytes) :: live) nodes' := by
  obtain ⟨enough, t, p, nodes', _, returns, grown, after, _⟩ :=
    sound.serve fresh bounded bound modest.1 (.inr modest.2)
  exact ⟨enough, t, p, returns, grown, nodes', after⟩

/-- The heap before the first call, or one that is shared out. -/
def Kept (base : Nat) (s : State) : Prop :=
  s.heap.freep = 0 ∧ s.live = [] ∧ s.heap.calls = [] ∨ ∃ nodes, Sound base s.heap s.live nodes

theorem started_sound (base : Nat) (fresh : h.freep = 0) (calls : h.calls = []) :
    Sound base (h.started base) [] [base] := by
  have shape : h.started base = { (h.setPtr base base).setSize base 0 with freep := base } :=
    if_pos fresh
  have none : ∀ x, ¬ Covered (h.started base) [base] x := by
    rintro x ⟨a, member, low, high⟩
    obtain rfl : a = base := by simpa using member
    rw [shape, fin] at high
    simp [setSize] at high
    omega
  have empty : (h.started base).calls = [] := by
    rw [shape]
    exact calls
  refine ⟨⟨rfl, ?_, by simp, by simp, ?_, ?_⟩, by simp, by simp, by simp, by simp, ?_, by simp,
    fun x covered => absurd covered (none x)⟩
  · rw [shape]
    simp [ClosedChain, setPtr]
  · rw [shape]
    simp [setSize]
  · rw [shape]
    simp
  · rw [empty, shape]
    simp [units, Umalloc.granted, setSize]

theorem started_calls (base : Nat) (h : Heap) : (h.started base).calls = h.calls := by
  unfold Heap.started
  split <;> rfl

theorem Kept.started (positive : 0 < base) (kept : Kept base s) :
    ∃ nodes, Sound base (s.heap.started base) s.live nodes := by
  rcases kept with ⟨fresh, empty, calls⟩ | ⟨nodes, sound⟩
  · rw [empty]
    exact ⟨[base], started_sound base fresh calls⟩
  · have used : s.heap.freep ≠ 0 := by
      have low := sound.list.base_le sound.list.start
      omega
    refine ⟨nodes, ?_⟩
    rw [Heap.started, if_neg used]
    exact sound

def Small (base : Nat) (s : State) : Prop := Kept base s ∧ granted s.heap.calls < unit * 2 ^ 32

theorem Small.call (positive : 0 < base) (fresh : Fresh base sbrk) (bounded : Bounded sbrk)
    (small : Small base s) :
    (∀ nbytes, Modest nbytes → ∃ enough t, Small base t ∧
      ∀ fuel, enough ≤ fuel → perform base sbrk fuel s (.malloc nbytes) = some t) ∧
    ∀ block ∈ s.live, ∃ enough t, Small base t ∧
      ∀ fuel, enough ≤ fuel → perform base sbrk fuel s (.free block) = some t := by
  obtain ⟨kept, bound⟩ := small
  constructor
  · intro nbytes modest
    obtain ⟨nodes, sound⟩ := kept.started positive
    obtain ⟨enough, t, p, returns, bound', nodes', after⟩ :=
      sound.malloc fresh bounded (by rwa [started_calls]) modest
    refine ⟨enough, ⟨t, if p = 0 then s.live else (p - unit, nbytes) :: s.live⟩,
      ⟨.inr ⟨nodes', after⟩, bound'⟩, fun fuel rounds => ?_⟩
    simp [perform, modest, Umalloc.malloc, returns fuel rounds]
  · intro block member
    rcases kept with ⟨_, empty, _⟩ | ⟨nodes, sound⟩
    · rw [empty] at member
      cases member
    · obtain ⟨t, nodes', returns, after, calls, _, _⟩ :=
        (sound.perm (perm_cons_erase member)).freed bound
      refine ⟨nodes.length, ⟨t, s.live.erase block⟩, ⟨.inr ⟨nodes', after⟩, calls ▸ bound⟩,
        fun fuel rounds => ?_⟩
      simp [perform, member, returns fuel rounds]

theorem free_steady (h : Heap) (ap : Nat) : Steady fun fuel => free fuel h ap :=
  seek_steady.map _

theorem morecore_steady (sbrk : Sbrk) (h : Heap) (nu : Nat) :
    Steady fun fuel => morecore sbrk fuel h nu := by
  unfold morecore
  dsimp only
  split
  · exact fun _ _ => id
  · exact (free_steady _ _).map _

theorem mallocLoop_steady (sbrk : Sbrk) (h : Heap) (nunits prevp p : Nat) :
    Steady fun fuel => mallocLoop sbrk fuel h nunits prevp p := by
  intro fuel result returns
  induction fuel generalizing h prevp p with
  | zero => cases returns
  | succ fuel ih =>
    beta_reduce at returns ⊢
    rw [mallocLoop] at returns ⊢
    split
    · rename_i fits
      simpa [fits] using returns
    · rename_i small
      simp only [small, if_false] at returns
      split
      · rename_i last
        simp only [last, if_true] at returns
        cases core : morecore sbrk fuel h nunits with
        | none => simp [core] at returns
        | some pair =>
          obtain ⟨t, grown⟩ := pair
          have more : morecore sbrk (fuel + 1) h nunits = some (t, grown) :=
            morecore_steady _ _ _ _ _ core
          rw [more]
          simp only [core] at returns
          cases grown with
          | none => exact returns
          | some q => exact ih _ _ _ returns
      · rename_i other
        simp only [other, if_false] at returns
        exact ih _ _ _ returns

theorem malloc_steady (base : Nat) (sbrk : Sbrk) (h : Heap) (nbytes : Nat) :
    Steady fun fuel => malloc base sbrk fuel h nbytes :=
  mallocLoop_steady _ _ _ _ _

theorem perform_steady (base : Nat) (sbrk : Sbrk) (s : State) (event : Event) :
    Steady fun fuel => perform base sbrk fuel s event := by
  cases event with
  | malloc nbytes => exact ((malloc_steady _ _ _ _).map _).guard _
  | free block => exact ((free_steady _ _).map _).guard _

theorem Small.step {t : State} (positive : 0 < base) (fresh : Fresh base sbrk)
    (bounded : Bounded sbrk) (small : Small base s) (taken : Step base sbrk s t) :
    Small base t := by
  obtain ⟨fuel, event, returns⟩ := taken
  obtain ⟨mallocs, frees⟩ := small.call positive fresh bounded
  have same : ∀ {enough u}, Small base u →
      (∀ fuel, enough ≤ fuel → perform base sbrk fuel s event = some u) → Small base t := by
    intro enough u after result
    have one := (perform_steady base sbrk s event).more returns (le_max_left fuel enough)
    have two := result _ (le_max_right fuel enough)
    exact some.inj (two.symm.trans one) ▸ after
  cases event with
  | malloc nbytes =>
    have modest : Modest nbytes := by
      by_contra refused
      simp [perform, refused] at returns
    obtain ⟨enough, u, after, result⟩ := mallocs nbytes modest
    exact same after result
  | free block =>
    have member : block ∈ s.live := by
      by_contra refused
      simp [perform, refused] at returns
    obtain ⟨enough, u, after, result⟩ := frees block member
    exact same after result

/-- Whatever a program allocates and frees, as long as `sbrk` grants fewer than `2 ^ 32`
units in all, the memory is shared out between live and free blocks, and every call of
`malloc` and `free` returns. -/
theorem umalloc_conserves (base : Nat) (sbrk : Sbrk) (positive : 0 < base) (fresh : Fresh base sbrk)
    (bounded : Bounded sbrk) (s : State)
    (reached : Relation.ReflTransGen (Step base sbrk) start s) :
    Kept base s ∧
      (∀ nbytes, Modest nbytes → ∃ enough t, ∀ fuel, enough ≤ fuel →
        perform base sbrk fuel s (.malloc nbytes) = some t) ∧
      ∀ block ∈ s.live, ∃ enough t, ∀ fuel, enough ≤ fuel →
        perform base sbrk fuel s (.free block) = some t := by
  have small : Small base s := by
    induction reached with
    | refl => exact ⟨.inl ⟨rfl, rfl, rfl⟩, by simp [start, granted, unit]⟩
    | tail _ taken ih => exact ih.step positive fresh bounded taken
  obtain ⟨mallocs, frees⟩ := small.call positive fresh bounded
  refine ⟨small.1, fun nbytes modest => ?_, fun block member => ?_⟩
  · obtain ⟨enough, t, _, returns⟩ := mallocs nbytes modest
    exact ⟨enough, t, returns⟩
  · obtain ⟨enough, t, _, returns⟩ := frees block member
    exact ⟨enough, t, returns⟩

/-- Memory that grows upwards from the end of what there is, up to a limit. -/
def growing (base limit : Nat) : Sbrk := fun calls bytes =>
  if granted calls + bytes.toNat < limit then some (top base calls) else none

theorem growing_fresh (base limit : Nat) : Fresh base (growing base limit) := by
  intro calls bytes start _ _ result
  simp only [growing, ite_none_right_eq_some, some.injEq] at result
  exact result.2.le

theorem growing_bounded (base : Nat) : Bounded (growing base (unit * 2 ^ 32)) := by
  intro calls bytes start _ _ result
  simp only [growing, ite_none_right_eq_some] at result
  exact result.1

/-- A run of calls, each with the same number of rounds. -/
theorem steps_reach {events : List Event} {t : State}
    (run : exec (perform base sbrk fuel) s events = some t) :
    Relation.ReflTransGen (Step base sbrk) s t := by
  induction events generalizing s with
  | nil =>
    cases run
    exact .refl
  | cons event events ih =>
    obtain ⟨middle, taken, rest⟩ := exec_cons run
    exact .head ⟨fuel, event, taken⟩ (ih rest)

/-- The address of the static `base` in the runs below. -/
def baseAddress : Nat := 4096

/-- The largest request whose memory `sbrk` can be asked for. -/
def hugeRequest : Nat := 2 ^ 31 - 2 * unit

/-- Thirty-three blocks of that size, allocated one after another and then freed. -/
def hugeRun : List Event :=
  List.replicate 33 (.malloc hugeRequest) ++
    (List.range 33).map fun k => .free (baseAddress + unit + k * (2 ^ 31 - unit), hugeRequest)

private theorem hugeRun_ends :
    (exec (perform baseAddress (growing baseAddress (unit * 2 ^ 64)) 3) start hugeRun).map
      (fun s => (s.live, s.heap.ptr baseAddress, s.heap.ptr (baseAddress + unit),
        s.heap.size (baseAddress + unit), granted s.heap.calls)) =
      some ([], baseAddress + unit, baseAddress, 33 * (2 ^ 27 - 1) - 2 ^ 32,
        33 * (2 ^ 31 - unit)) := by
  decide +kernel

/-- The units of the joined block have wrapped around: the free blocks have fewer units
than `sbrk` has granted, although nothing is live. -/
theorem umalloc_size_wraps :
    Fresh baseAddress (growing baseAddress (unit * 2 ^ 64)) ∧
      ∃ s, Relation.ReflTransGen (Step baseAddress (growing baseAddress (unit * 2 ^ 64))) start s ∧
        ¬ Kept baseAddress s := by
  refine ⟨growing_fresh baseAddress _, ?_⟩
  obtain ⟨s, ended, values⟩ := map_eq_some_iff.mp hugeRun_ends
  simp only [Prod.mk.injEq] at values
  obtain ⟨empty, first, second, size, total⟩ := values
  refine ⟨s, steps_reach ended, ?_⟩
  rintro (⟨_, _, none⟩ | ⟨nodes, sound⟩)
  · rw [none] at total
    simp [granted, unit] at total
  · have conserved := sound.conserved
    have other : baseAddress + unit ≠ baseAddress := by simp [unit]
    have shape : nodes = [baseAddress, baseAddress + unit] := by
      have list := sound.list
      have distinct := list.nodup
      cases nodes with
      | nil => cases list.first
      | cons a l =>
        obtain rfl : a = baseAddress := by simpa using list.first
        have link := (circle_cons.mp list.circle).1
        rw [first] at link
        cases l with
        | nil => exact absurd link other
        | cons b l =>
          obtain rfl : baseAddress + unit = b := link
          cases l with
          | nil => rfl
          | cons c l =>
            have chain := (circle_cons.mp list.circle).2
            simp only [cons_append, isChain_cons_cons] at chain
            rw [second] at chain
            simp [← chain.1] at distinct
    rw [shape, empty, total, units_cons, units_cons, sound.list.empty, size] at conserved
    simp [units, unit] at conserved

/-- Two blocks from one call of `sbrk` and a third from another; two of them are freed before the
last request. -/
def mixedRun : List Event :=
  [.malloc 100, .malloc 1, .malloc 70000, .free (69520, 100), .free (69648, 70000), .malloc 40]

theorem umalloc_conserves_mixed :
    ∃ s, Relation.ReflTransGen (Step baseAddress (growing baseAddress (unit * 2 ^ 32))) start s ∧
      s.live = [(69424, 40), (69488, 1)] ∧ s.heap.calls.length = 2 ∧ Kept baseAddress s := by
  have ended :
      (exec (perform baseAddress (growing baseAddress (unit * 2 ^ 32)) 9) start mixedRun).map
      (fun s => (s.live, s.heap.calls.length)) = some ([(69424, 40), (69488, 1)], 2) := by
    decide +kernel
  obtain ⟨s, run, facts⟩ := map_eq_some_iff.mp ended
  obtain ⟨live, calls⟩ := Prod.mk.inj facts
  refine ⟨s, steps_reach run, live, calls, ?_⟩
  exact (umalloc_conserves baseAddress _ (by decide) (growing_fresh _ _) (growing_bounded _) s
    (steps_reach run)).1

end EnhancedXv6.Umalloc
