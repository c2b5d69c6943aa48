import EnhancedXv6.Memory.Extent

namespace EnhancedXv6.Memory

open Foundation Function Option Finset Books

variable {layout : Layout} {k : Kmem} {node : Nodes} {books books' final : Books}
  {live : Finset Nat} {r r' pa v va len a : Nat} {src : Nat → UInt8} {leaf leaf' : Leaf}
  {result : Int} {others : Nat → Prop}

section Views

def Books.view (books : Books) (r va : Nat) : Option UInt8 :=
  (books.reach r va).map fun leaf => books.data leaf.pa (va % pgsize)

/-- What `copyout` writes to a page that is not marked as shared does not change what another
address space shows. -/
def Books.Harmless (books : Books) (others : Nat → Prop) (r va : Nat) (src : Nat → UInt8)
    (len : Nat) : Prop :=
  ∀ i, i < len → (∀ j, j ≤ i → (books.reach r (va + j)).isSome) →
    ∀ leaf, books.reach r (va + i) = some leaf → leaf.flags.testBit 8 = false →
      ∀ r' a leaf', others r' → books.reach r' a = some leaf' → leaf'.pa = leaf.pa →
        a % pgsize = (va + i) % pgsize → books.data leaf.pa ((va + i) % pgsize) = src i

theorem Books.reach_congr (same : books'.leaf (r, va / pgsize) = books.leaf (r, va / pgsize)) :
    books'.reach r va = books.reach r va := by
  unfold reach
  rw [same]

theorem Books.reach_page {x y : Nat} (books : Books) (r : Nat) (same : x / pgsize = y / pgsize) :
    books.reach r x = books.reach r y := by
  have edge : x < maxva ↔ y < maxva := by
    rw [maxva_eq]
    unfold pgsize at same
    omega
  unfold reach
  rw [same]
  simp only [edge]

end Views

section Frame

/-- A page that is mapped below the addresses of `copyout` keeps its content. -/
theorem Copies.frame {w : Nat} (copies : Copies r books va src len result final)
    (good : books.Good) (mapped : books.leaf (r, w) = some leaf) (below : w < va / pgsize) :
    final.data leaf.pa = books.data leaf.pa := by
  induction copies with
  | done | refused => rfl
  | @round books books' final va len src old new result more seen own rest ih =>
    obtain ⟨low, here, _⟩ := reach_some.mp seen
    have user := (good.guarded r).below seen
    have kept := own.keeps good user here
    have later : w < (pgrounddown va + pgsize) % 2 ^ 64 / pgsize := by
      rw [maxva_eq] at low
      unfold pgrounddown
      unfold pgsize at below ⊢
      omega
    have other : (r, w) ≠ (r, va / pgsize) := fun same => by
      have := congrArg Prod.snd same
      dsimp only at this
      omega
    have still : books'.leaf (r, w) = some leaf := by
      rcases own with ⟨_, _, rfl⟩ | ⟨_, _, _, _, rfl⟩
      · exact mapped
      · exact (update_of_ne other _ _).trans mapped
    rw [ih (put_good kept.good _ _ _ _) still later]
    have apart : leaf.pa ≠ new.pa := by
      rcases own with ⟨_, rfl, rfl⟩ | ⟨_, _, _, fresh, rfl⟩
      · intro same
        have := good.apart (by omega) user mapped here same
        omega
      · exact fresh _ _ _ mapped (by omega)
    have written :
        (books'.put new.pa (va % pgsize) (chunk va len) src).data leaf.pa = books'.data leaf.pa :=
      update_of_ne apart _ _
    rw [written]
    rcases own with ⟨_, _, rfl⟩ | ⟨_, _, _, _, rfl⟩
    · rfl
    · exact update_of_ne apart _ _

end Frame

section Chunk

theorem chunk_page {i : Nat} (inside : i < chunk va len) :
    (va + i) / pgsize = va / pgsize ∧ (va + i) % pgsize = va % pgsize + i := by
  unfold chunk pgsize at *
  omega

theorem chunk_next {i : Nat} (low : va < maxva) (beyond : chunk va len ≤ i) (inside : i < len) :
    (pgrounddown va + pgsize) % 2 ^ 64 + (i - chunk va len) = va + i ∧
    va / pgsize < (va + i) / pgsize := by
  rw [maxva_eq] at low
  unfold pgrounddown
  unfold chunk pgsize at *
  omega

/-- What one round of `copyout` writes to a page that is used as it is does not change what
another address space shows. -/
def Books.RoundHarmless (books : Books) (others : Nat → Prop) (va : Nat) (src : Nat → UInt8)
    (len : Nat) (leaf : Leaf) : Prop :=
  leaf.flags.testBit 8 = false → ∀ i, i < chunk va len → ∀ r' a leaf', others r' →
    books.reach r' a = some leaf' → leaf'.pa = leaf.pa → a % pgsize = va % pgsize + i →
      books.data leaf.pa (va % pgsize + i) = src i

structure Round (r va len : Nat) (src : Nat → UInt8) (books books' : Books) (leaf leaf' : Leaf) :
    Prop where
  good : books.Good
  seen : books.reach r va = some leaf
  own : books.Private r (va / pgsize) leaf books' leaf'

variable (round : Round r va len src books books' leaf leaf')
include round

theorem Round.put_good : (books'.put leaf'.pa (va % pgsize) (chunk va len) src).Good := by
  have user := (round.good.guarded r).below round.seen
  have kept := round.own.keeps round.good user (reach_some.mp round.seen).2.1
  exact Books.put_good kept.good _ _ _ _

theorem Round.reach_other {x : Nat} (other : r' ≠ r ∨ x / pgsize ≠ va / pgsize) :
    (books'.put leaf'.pa (va % pgsize) (chunk va len) src).reach r' x = books.reach r' x := by
  refine reach_congr ?_
  change books'.leaf (r', x / pgsize) = books.leaf (r', x / pgsize)
  rcases round.own with ⟨_, _, rfl⟩ | ⟨_, _, _, _, rfl⟩
  · rfl
  · refine update_of_ne (fun same => ?_) _ _
    obtain ⟨root, page⟩ := Prod.mk.inj same
    exact other.elim (absurd root) (absurd page)

/-- The pages that users see change only where the round writes to them. -/
theorem Round.data {x : Leaf} (there : books.reach r' a = some x) (o : Nat) :
    (books'.put leaf'.pa (va % pgsize) (chunk va len) src).data x.pa o =
      if leaf.flags.testBit 8 = false ∧ x.pa = leaf.pa ∧ va % pgsize ≤ o ∧
      o < va % pgsize + chunk va len
      then src (o - va % pgsize) else books.data x.pa o := by
  have user := (round.good.guarded r').below there
  obtain ⟨_, mapped, _⟩ := reach_some.mp there
  unfold put
  dsimp only
  rcases round.own with ⟨plain, rfl, rfl⟩ | ⟨shared, _, _, fresh, rfl⟩
  · by_cases same : x.pa = leaf'.pa
    · rw [same, update_self]
      simp [plain]
    · rw [update_of_ne same, if_neg fun all => same all.2.1]
  · have apart : x.pa ≠ leaf'.pa := fresh _ _ _ mapped user
    rw [update_of_ne apart, if_neg fun all => by rw [all.1] at shared; cases shared]
    exact congrFun (update_of_ne apart _ _) o

theorem Round.view_iff (apart : ∀ r', others r' → r' ≠ r) :
    (∀ r' a, others r' → (books'.put leaf'.pa (va % pgsize) (chunk va len) src).view r' a =
      books.view r' a) ↔
      books.RoundHarmless others va src len leaf := by
  constructor
  · intro same plain i inside r' a x member there frame offset
    have equal := same r' a member
    unfold view at equal
    rw [round.reach_other (.inl (apart r' member)), there, map_some, map_some,
      some_inj, offset, round.data there, if_pos ⟨plain, frame, by omega, by omega⟩] at equal
    rw [← frame, ← equal]
    congr 1
    omega
  · intro harmless r' a member
    unfold view
    rw [round.reach_other (.inl (apart r' member))]
    cases there : books.reach r' a with
    | none => rfl
    | some x =>
      rw [map_some, map_some, round.data there]
      split
      · rename_i written
        obtain ⟨plain, frame, low, high⟩ := written
        have equal :=
          harmless plain (a % pgsize - va % pgsize) (by omega) r' a x member there frame (by omega)
        rw [show va % pgsize + (a % pgsize - va % pgsize) = a % pgsize by omega] at equal
        rw [← equal, frame]
      · rfl

theorem Round.harmless_iff (apart : ∀ r', others r' → r' ≠ r) :
    books.Harmless others r va src len ↔ books.RoundHarmless others va src len leaf ∧
      (books'.put leaf'.pa (va % pgsize) (chunk va len) src).Harmless others r
        ((pgrounddown va + pgsize) % 2 ^ 64) (fun i => src (chunk va len + i))
          (len - chunk va len) := by
  obtain ⟨low, mapped, _⟩ := reach_some.mp round.seen
  have user := (round.good.guarded r).below round.seen
  have here (j : Nat) (inside : j < chunk va len) : books.reach r (va + j) = some leaf :=
    (books.reach_page r (chunk_page inside).1).trans round.seen
  -- the later pages of the address space are those of before
  have later {i : Nat} (beyond : chunk va len ≤ i) (inside : i < len) :
      (books'.put leaf'.pa (va % pgsize) (chunk va len) src).reach r (va + i) =
        books.reach r (va + i) :=
    round.reach_other (.inr (chunk_next low beyond inside).2.ne')
  have laterData {i : Nat} {x : Leaf} (beyond : chunk va len ≤ i) (inside : i < len)
      (there : books.reach r (va + i) = some x) (o : Nat) :
      (books'.put leaf'.pa (va % pgsize) (chunk va len) src).data x.pa o = books.data x.pa o := by
    rw [round.data there, if_neg fun all => ?_]
    have page := (chunk_next low beyond inside).2
    have same := round.good.apart ((round.good.guarded r).below there) user
      (reach_some.mp there).2.1 mapped all.2.1
    omega
  constructor
  · intro harmless
    refine ⟨fun plain i inside r' a x member there frame offset => ?_,
      fun i inside reached x there plain r' a y
      member thereY frame offset => ?_⟩
    · have short : i < len := inside.trans_le (Nat.min_le_right _ _)
      have equal :=
        harmless i short (fun j low => by rw [here j (by omega)]; rfl) leaf (here i inside) plain
        r' a x member there frame (by rw [(chunk_page inside).2, offset])
      rw [(chunk_page inside).2] at equal
      exact equal
    · have total : chunk va len + i < len := by omega
      have place : (pgrounddown va + pgsize) % 2 ^ 64 + i = va + (chunk va len + i) := by
        have := (chunk_next low (Nat.le_add_right (chunk va len) i) total).1
        omega
      rw [place] at there offset ⊢
      rw [later (Nat.le_add_right _ _) total] at there
      rw [round.reach_other (.inl (apart r' member))] at thereY
      rw [laterData (Nat.le_add_right _ _) total there]
      refine harmless _ total (fun j below => ?_) x there plain r' a y member thereY frame offset
      by_cases first : j < chunk va len
      · rw [here j first]
        rfl
      · have reachedJ := reached (j - chunk va len) (by omega)
        rw [(chunk_next low (by omega) (show j < len by omega)).1,
          later (by omega) (by omega)] at reachedJ
        exact reachedJ
  · rintro ⟨first, rest⟩ i inside reached x there plain r' a y member thereY frame offset
    by_cases early : i < chunk va len
    · cases (here i early).symm.trans there
      rw [(chunk_page early).2] at offset ⊢
      exact first plain i early r' a y member thereY frame offset
    · have beyond : chunk va len ≤ i := by omega
      have place := (chunk_next low beyond inside).1
      have equal :=
        rest (i - chunk va len) (by omega) (fun j below => ?_) x ?_ plain r' a y member ?_ frame ?_
      · rw [place, laterData beyond inside there] at equal
        refine equal.trans ?_
        dsimp only
        rw [Nat.add_sub_cancel' beyond]
      · have :=
          (chunk_next low (Nat.le_add_right (chunk va len) j)
            (show chunk va len + j < len by omega)).1
        rw [show (pgrounddown va + pgsize) % 2 ^ 64 + j = va + (chunk va len + j) by omega,
          later (Nat.le_add_right _ _) (by omega)]
        exact reached _ (by omega)
      · rw [place, later beyond inside]
        exact there
      · rw [round.reach_other (.inl (apart r' member))]
        exact thereY
      · rw [place]
        exact offset

end Chunk

/-- Other address spaces show what they showed exactly if the writes are harmless. -/
theorem Copies.unseen_iff (copies : Copies r books va src len result final) (good : books.Good)
    (apart : ∀ r', others r' → r' ≠ r) :
    (∀ r' a, others r' → final.view r' a = books.view r' a) ↔
      books.Harmless others r va src len := by
  induction copies with
  | done => exact ⟨fun _ i inside => by omega, fun _ _ _ _ => rfl⟩
  | refused books va src more hidden =>
    refine ⟨fun _ i _ reached => ?_, fun _ _ _ _ => rfl⟩
    have first := reached 0 (Nat.zero_le i)
    rw [Nat.add_zero, hidden] at first
    cases first
  | @round books books' final va len src leaf leaf' result more seen own rest ih =>
    have round : Round r va len src books books' leaf leaf' := ⟨good, seen, own⟩
    obtain ⟨low, mapped, _⟩ := reach_some.mp seen
    have user := (good.guarded r).below seen
    have good' := round.put_good
    rw [round.harmless_iff apart, ← ih good', ← round.view_iff apart]
    constructor
    · intro same
      have harmless : books.RoundHarmless others va src len leaf := by
        intro plain i inside r' a x member there frame offset
        -- the rest of the writes do not restore what this round has written
        have equal := same r' a member
        have now : (books'.put leaf'.pa (va % pgsize) (chunk va len) src).leaf (r, va / pgsize) =
            some leaf := by
          rcases own with ⟨_, rfl, rfl⟩ | ⟨shared, _⟩
          · exact mapped
          · rw [plain] at shared
            cases shared
        have later : va / pgsize < (pgrounddown va + pgsize) % 2 ^ 64 / pgsize := by
          rw [maxva_eq] at low
          unfold pgrounddown pgsize
          omega
        have reached : final.reach r' a = some x := by
          rw [← there, ← round.reach_other (.inl (apart r' member))]
          exact reach_congr ((rest.keeps good').others _ (apart r' member))
        unfold view at equal
        rw [reached, there, map_some, map_some, some_inj, frame, rest.frame good' now later,
          ← frame, round.data there, offset, if_pos ⟨plain, frame, by omega, by omega⟩,
          frame] at equal
        rw [← equal]
        congr 1
        omega
      have unseen := (round.view_iff apart).mpr harmless
      exact ⟨unseen, fun r' a member => (same r' a member).trans (unseen r' a member).symm⟩
    · rintro ⟨first, second⟩ r' a member
      exact (second r' a member).trans (first r' a member)

section Visible

def Kmem.pteOf (k : Kmem) (pagetable va : Nat) : Nat :=
  match walk pagetable va false k with
  | .ok (pte, _) => if pte = 0 then 0 else load k.mem pte 8
  | .error _ => 0

def Kmem.userAddr (k : Kmem) (pagetable va : Nat) : Option Nat :=
  let pte := k.pteOf pagetable va
  if pte &&& pteV ≠ 0 ∧ pte &&& pteU ≠ 0 then some (pte2pa pte + va % pgsize) else none

def System.sees (s : System) (q : Proc) (va : Nat) : Option UInt8 :=
  (s.kmem.userAddr q.pagetable va).map s.kmem.mem

theorem Tables.pteOf_eq (tables : Tables layout k live node books) (root : r ∈ live) (va : Nat) :
    k.pteOf r va = if va < maxva then (books.leaf (r, va / pgsize)).elim 0 Leaf.pte else 0 := by
  unfold Kmem.pteOf
  by_cases low : va < maxva
  · have meets : Meets (walk r va false) k _ fun _ => False := tables.find root low
    obtain ⟨pte, u, ended, same, found⟩ := meets.ends
    subst same
    rw [ended, if_pos low]
    dsimp only
    rcases found with ⟨null, unmapped⟩ | ⟨real, c, there, slot⟩
    · rw [if_pos null, unmapped]
      rfl
    · rw [if_neg real, slot, tables.read there]
  · have ended : walk r va false k = .error .walk := by
      rw [walk, if_pos (by omega)]
      rfl
    rw [ended, if_neg low]

theorem Tables.userAddr_eq (tables : Tables layout k live node books) (root : r ∈ live) (va : Nat) :
    k.userAddr r va = (books.reach r va).map fun leaf => leaf.pa + va % pgsize := by
  unfold Kmem.userAddr reach
  rw [tables.pteOf_eq root]
  split
  · cases books.leaf (r, va / pgsize) with
    | none => simp
    | some leaf =>
      have user : leaf.pte &&& pteU ≠ 0 ↔ leaf.flags.testBit 4 = true := leaf.pte_test (by omega)
      dsimp only [elim_some]
      by_cases visible : leaf.flags.testBit 4 = true
      · rw [if_pos ⟨leaf.pte_valid, user.mpr visible⟩, leaf.pte_pa, filter_some, visible]
        rfl
      · rw [if_neg fun both => visible (user.mp both.2), filter_some,
          Bool.eq_false_of_not_eq_true visible]
        rfl
  · simp

theorem Sound.view_eq (sound : Sound layout k live node books) (root : r ∈ live) (va : Nat) :
    (k.userAddr r va).map k.mem = books.view r va := by
  rw [sound.tables.userAddr_eq root, view]
  cases seen : books.reach r va with
  | none => rfl
  | some leaf =>
    obtain ⟨_, mapped, _⟩ := reach_some.mp seen
    have known := (sound.tables.shows.accounts.mapped mapped).1
    have users := users_pos mapped known ((sound.good.guarded r).below seen)
    rw [map_some, map_some, map_some, sound.byte (.inr users) (Nat.mod_lt va (by decide))]

end Visible

section Isolation

variable {s s' : System} {p : Nat} {q : Proc} {tfs : Multiset Nat}

/-- Where `copyout` writes to a page that is not marked as copy-on-write, it writes what is there
already or no other process sees it. -/
def System.Harmless (s : System) (p : Nat) (q : Proc) (va : Nat) (src : Nat → UInt8) (len : Nat) :
    Prop :=
  ∀ i, i < len → (∀ j, j ≤ i → (s.kmem.userAddr q.pagetable (va + j)).isSome) →
    s.kmem.pteOf q.pagetable (va + i) &&& pteCow = 0 →
      ∀ p' q' a, p' ≠ p → s.procs p' = some q' →
        s.kmem.userAddr q'.pagetable a = s.kmem.userAddr q.pagetable (va + i) →
          s.sees q (va + i) = some (src i)

def System.Others (s : System) (p r : Nat) : Prop :=
  ∃ p' q', p' ≠ p ∧ s.procs p' = some q' ∧ q'.pagetable = r

theorem System.Shows.harmless_iff (shows : s.Shows layout live tfs node books)
    (here : s.procs p = some q) :
    s.Harmless p q va src len ↔ books.Harmless (s.Others p) q.pagetable va src len := by
  have addr {p : Nat} {q : Proc} (here : s.procs p = some q) (a : Nat) :=
    shows.sound.tables.userAddr_eq (shows.proc here).1 a
  have reached (a : Nat) :
      (s.kmem.userAddr q.pagetable a).isSome = (books.reach q.pagetable a).isSome := by
    rw [addr here, isSome_map]
  have entry {i : Nat} {leaf : Leaf} (seen : books.reach q.pagetable (va + i) = some leaf) :
      s.kmem.pteOf q.pagetable (va + i) &&& pteCow = 0 ↔ leaf.flags.testBit 8 = false := by
    obtain ⟨low, mapped, _⟩ := reach_some.mp seen
    have test : leaf.pte &&& pteCow ≠ 0 ↔ leaf.flags.testBit 8 = true := leaf.pte_test (by omega)
    rw [shows.sound.tables.pteOf_eq (shows.proc here).1, if_pos low, mapped, elim_some,
      ← Bool.not_eq_true, ← test, not_not]
  have sees (a : Nat) : s.sees q a = books.view q.pagetable a :=
    shows.sound.view_eq (shows.proc here).1 a
  have frames (x y : Leaf) (a b : Nat) :
      x.pa + a % pgsize = y.pa + b % pgsize ↔ x.pa = y.pa ∧ a % pgsize = b % pgsize := by
    have := x.aligned
    have := y.aligned
    unfold pgsize at *
    omega
  constructor
  · rintro harmless i inside all leaf seen plain r' a leaf'
      ⟨p', q', other, there, rfl⟩ seen' frame offset
    have equal :=
      harmless i inside (fun j low => by rw [reached]; exact all j low) ((entry seen).mpr plain)
      p' q' a other there ?_
    · rw [sees, view, seen, map_some, some_inj] at equal
      exact equal
    · rw [addr there, addr here, seen, seen', map_some, map_some, some_inj, frames]
      exact ⟨frame, offset⟩
  · intro harmless i inside all plain p' q' a other there same
    have last := all i le_rfl
    rw [reached, isSome_iff_exists] at last
    obtain ⟨leaf, seen⟩ := last
    rw [addr here, seen, map_some, addr there, map_eq_some_iff] at same
    obtain ⟨leaf', seen', place⟩ := same
    rw [frames] at place
    have equal := harmless i inside (fun j low => by rw [← reached]; exact all j low) leaf seen
      ((entry seen).mp plain) _ a leaf' ⟨p', q', other, there, rfl⟩ seen' place.1 place.2
    rw [sees, view, seen, map_some, equal]

theorem System.perform_copyout (here : s.procs p = some q)
    (done : s.perform layout (.copyout p va src len) = .ok (some s')) :
    ∃ result k, copyout q.pagetable va src len s.kmem = .ok (result, k) ∧
      s' = { s with kmem := k, result := result } := by
  obtain ⟨_, there, done⟩ := withProc_some done
  cases here.symm.trans there
  obtain ⟨result, k, ran, next⟩ := run_some done
  cases next
  exact ⟨result, k, ran, rfl⟩

theorem System.Shows.unseen_iff (shows : s.Shows layout live tfs node books)
    (here : s.procs p = some q) (done : s.perform layout (.copyout p va src len) = .ok (some s')) :
    (∀ p' q' a, p' ≠ p → s.procs p' = some q' → s'.sees q' a = s.sees q' a) ↔
      s.Harmless p q va src len := by
  obtain ⟨result, k, ended, rfl⟩ := perform_copyout here done
  have alive := (shows.proc here).1
  have meets : Meets (Memory.copyout q.pagetable va src len) s.kmem _ fun _ => True :=
    copyout_meets shows.sound.tables shows.sound.paid alive (shows.sound.good.guarded _)
      fun _ _ => trivial
  obtain ⟨books', after, copies⟩ := meets.result ended
  have kept := copies.keeps shows.sound.good
  have sound : Sound layout k live node books' :=
    ⟨after, kept.debt.trans shows.sound.paid, kept.good⟩
  have apart (r : Nat) (other : s.Others p r) : r ≠ q.pagetable := by
    obtain ⟨p', q', ne, there, rfl⟩ := other
    exact fun same => ne (shows.distinct there here (.inl same))
  rw [shows.harmless_iff here, ← copies.unseen_iff shows.sound.good apart]
  constructor
  · rintro unseen r a ⟨p', q', other, there, rfl⟩
    have root := (shows.proc there).1
    rw [← sound.view_eq root, ← shows.sound.view_eq root]
    exact unseen p' q' a other there
  · intro unseen p' q' a other there
    have root := (shows.proc there).1
    have same := unseen q'.pagetable a ⟨p', q', other, there, rfl⟩
    rw [← sound.view_eq root, ← shows.sound.view_eq root] at same
    exact same

/-- A page of an address space that is not marked as copy-on-write and may not be written. -/
def Kmem.Fixed (k : Kmem) (pagetable va : Nat) : Prop :=
  (k.userAddr pagetable va).isSome ∧ k.pteOf pagetable va &&& pteW = 0 ∧
    k.pteOf pagetable va &&& pteCow = 0

theorem Tables.fixed_iff (tables : Tables layout k live node books) (root : r ∈ live) (va : Nat) :
    k.Fixed r va ↔ ∃ leaf, books.reach r va = some leaf ∧ leaf.flags.testBit 2 = false ∧
      leaf.flags.testBit 8 = false := by
  unfold Kmem.Fixed
  rw [tables.userAddr_eq root, isSome_map, tables.pteOf_eq root]
  constructor
  · rintro ⟨visible, readonly, plain⟩
    obtain ⟨leaf, seen⟩ := isSome_iff_exists.mp visible
    obtain ⟨low, mapped, _⟩ := reach_some.mp seen
    rw [if_pos low, mapped, elim_some] at readonly plain
    refine ⟨leaf, seen, ?_, ?_⟩
    · rw [← Bool.not_eq_true, ← leaf.pte_test (by omega)]
      exact not_not.mpr readonly
    · rw [← Bool.not_eq_true, ← leaf.pte_test (by omega)]
      exact not_not.mpr plain
  · rintro ⟨leaf, seen, readonly, plain⟩
    obtain ⟨low, mapped, _⟩ := reach_some.mp seen
    rw [if_pos low, mapped, elim_some, seen]
    refine ⟨rfl, not_not.mp fun set => ?_, not_not.mp fun set => ?_⟩
    · have := (leaf.pte_test (k := 2) (by omega)).mp set
      rw [readonly] at this
      cases this
    · have := (leaf.pte_test (k := 8) (by omega)).mp set
      rw [plain] at this
      cases this

/-- A page that cannot be written is the same page for the parent and the child of a `fork`. -/
theorem Forked.reach_readonly {np : Proc} (forked : Forked layout books books' q np)
    (apart : np.pagetable ≠ q.pagetable) (seen : books.reach q.pagetable va = some leaf)
    (readonly : leaf.flags.testBit 2 = false) (inside : va / pgsize < pageCount q.sz) :
    books'.reach q.pagetable va = some leaf ∧ books'.reach np.pagetable va = some leaf := by
  obtain ⟨low, mapped, user⟩ := reach_some.mp seen
  obtain ⟨first, launched, leaves⟩ := forked.launched
  have still : leaf.cow = leaf := leaf.cow_readonly fun set => by
    have writable : leaf.flags.testBit 2 = true := testBit_flag.mp set
    rw [readonly] at writable
    cases writable
  have parent : first.leaf (q.pagetable, va / pgsize) = some leaf :=
    (launched.others _ apart.symm).trans mapped
  constructor <;> refine reach_some.mpr ⟨low, ?_, user⟩ <;> rw [leaves, copied] <;> dsimp only
  · rw [if_neg fun both => apart both.1.symm, cowed]
    dsimp only
    rw [if_pos ⟨rfl, inside⟩, parent, map_some, still]
  · rw [if_pos ⟨rfl, inside⟩, parent, map_some, still]

/-- A page that may not be written stays shared by `fork`, and what `copyout` writes to it for the
child is what the parent sees. -/
theorem System.Shows.fixed_leaks (child : Nat) (byte : UInt8)
    (shows : s.Shows layout live tfs node books) (here : s.procs p = some q)
    (unused : s.procs child = none) (fixed : s.kmem.Fixed q.pagetable va)
    (spare : 6 + 2 * pageCount q.sz ≤ s.kmem.spare layout) :
    ∃ s₁ q' s₂, s.step layout (.fork p child) = some s₁ ∧ s₁.procs p = some q ∧
      s₁.procs child = some q' ∧
      s₁.perform layout (.copyout child va (fun _ => byte) 1) = .ok (some s₂) ∧
      s₁.sees q va = s.sees q va ∧ s₂.sees q va = some byte := by
  obtain ⟨alive, _, fits⟩ := shows.proc here
  obtain ⟨leaf, seen, readonly, plain⟩ := (shows.sound.tables.fixed_iff alive va).mp fixed
  obtain ⟨low, mapped, user⟩ := reach_some.mp seen
  have below := (shows.sound.good.guarded _).below seen
  have inside : va / pgsize < pageCount q.sz := by
    have := (fits.2 _).mp ⟨leaf, mapped⟩
    omega
  have meets : Meets (q.fork layout) s.kmem _ fun _ => False := fork_sound shows.sound alive fits
  obtain ⟨_, k, ended, outcome⟩ := meets.ends
  rcases outcome with ⟨_, short, _⟩ | ⟨np, rfl, new, apart, node', books', forked, _, after⟩
  · omega
  obtain ⟨seenParent, seenChild⟩ := forked.reach_readonly apart seen readonly inside
  obtain ⟨first, launched, _⟩ := forked.launched
  have other : leaf.pa ≠ np.trapframe :=
    shows.sound.tables.unmapped launched.unmapped mapped below
  have childAlive := mem_insert_self np.pagetable live
  have parentAlive := mem_insert_of_mem (b := np.pagetable) alive
  have writes : Meets (Memory.copyout np.pagetable va (fun _ => byte) 1) k _ fun _ => False :=
    copyout_plain after.tables after.paid childAlive
      (after.good.guarded _) seenChild plain (by omega)
      (by have := Nat.mod_lt va (show 0 < pgsize by decide); omega)
  obtain ⟨_, k', ended', rfl, written⟩ := writes.ends
  have sound : Sound layout k' _ node' _ := ⟨written, after.paid, put_good after.good _ _ _ _⟩
  have distinct : p ≠ child := by
    rintro rfl
    rw [here] at unused
    cases unused
  refine ⟨({ s with kmem := k, result := child }.setProc child (some np)), np,
    { s with kmem := k', result := 0 }.setProc child (some np), ?_, ?_, ?_, ?_, ?_, ?_⟩
  · rw [step, if_pos (show s.Allows (.fork p child) from unused), perform, withProc, here]
    dsimp only
    rw [run, ended]
    rfl
  · exact (update_of_ne distinct _ _).trans here
  · exact update_self _ _ _
  · rw [perform, withProc]
    have there :
        ({ s with kmem := k, result := child }.setProc child (some np)).procs child = some np :=
      update_self _ _ _
    rw [there]
    dsimp only
    rw [run]
    have : ({ s with kmem := k, result := child }.setProc child (some np)).kmem = k := rfl
    rw [this, ended']
    rfl
  · have before := shows.sound.view_eq alive va
    have now := after.view_eq parentAlive va
    rw [view, seen, map_some] at before
    rw [view, seenParent, map_some, forked.data _ other] at now
    exact now.trans before.symm
  · refine (sound.view_eq parentAlive va).trans ?_
    have seen' : (books'.put leaf.pa (va % pgsize) 1 fun _ => byte).reach q.pagetable va =
      some leaf := seenParent
    rw [view, seen', map_some, put]
    dsimp only
    rw [update_self, if_pos (by omega)]

theorem System.Shows.exec_builds {image : Image} {argv : List (List UInt8)} {pt argc sp sz : Nat}
    {k₁ k₂ : Kmem} (shows : s.Shows layout live tfs node books) (here : s.procs p = some q)
    (made : procPagetable layout q.trapframe s.kmem = .ok (pt, k₁)) (real : pt ≠ 0)
    (built : buildImage pt image argv k₁ = .ok ((some (argc, sp), sz), k₂))
    (fixed : k₂.Fixed pt va) :
    ∃ k₃, s.step layout (.exec p (some image) argv) =
    some ({ s with kmem := k₃, result := argc }.setProc p
        (some { q with pagetable := pt, sz := sz })) ∧ k₃.Fixed pt va ∧
      (k₃.userAddr pt va).map k₃.mem = (k₂.userAddr pt va).map k₂.mem ∧
      k₂.spare layout ≤ k₃.spare layout := by
  obtain ⟨alive, _, fits⟩ := shows.proc here
  obtain ⟨k₃, node₂, books₂, node₃, books₃, ended, sound₂, sound₃, apart, held, spare,
      same, data⟩ :=
    exec_finish shows.sound alive (shows.tf_held here) fits made real built
  have new₂ : pt ∈ insert pt live := mem_insert_self _ _
  have new₃ : pt ∈ (insert pt live).erase q.pagetable := mem_erase.mpr ⟨apart, new₂⟩
  obtain ⟨leaf, seen, flags⟩ := (sound₂.tables.fixed_iff new₂ va).mp fixed
  have seen₃ : books₃.reach pt va = some leaf := (reach_congr (same _)).trans seen
  have other : leaf.pa ≠ q.trapframe := by
    intro equal
    have unheld := sound₂.good.kernel (reach_some.mp seen).2.1 ((sound₂.good.guarded pt).below seen)
    rw [equal, held] at unheld
    exact unheld (shows.tf_held here)
  refine ⟨k₃, ?_, (sound₃.tables.fixed_iff new₃ va).mpr ⟨leaf, seen₃, flags⟩, ?_, spare⟩
  · rw [step, if_pos (show s.Allows (.exec p (some image) argv) from trivial), perform,
      withProc, here]
    dsimp only
    rw [run, ended]
    rfl
  · rw [sound₃.view_eq new₃, sound₂.view_eq new₂, view, view, seen, seen₃, map_some,
      map_some, data _ other]

theorem Kmem.le_spare {n : Nat} (first : Nat)
    (free : ∀ i, i < n → layout.Managed (first + i * pgsize) ∧
      k.numpUsing ((first + i * pgsize) / pgsize) = 0) :
    n ≤ k.spare layout := by
  have injective : Function.Injective fun i => first + i * pgsize := by
    intro i j same
    dsimp only at same
    unfold pgsize at same
    omega
  calc n = ((Finset.range n).map ⟨_, injective⟩).card := by rw [card_map, card_range]
    _ ≤ k.spare layout := by
      refine card_le_card fun pa member => ?_
      obtain ⟨i, below, rfl⟩ := mem_map.mp member
      obtain ⟨page, zero⟩ := free i (mem_range.mp below)
      exact mem_filter.mpr ⟨Layout.mem_pages.mpr page, zero⟩

def textLayout : Layout :=
  ⟨phystop - 32 * pgsize, kernbase, smallLayout.aligned, smallLayout.loaded, by decide, by decide⟩

/-- A program with a page of text that may be executed and not be written. -/
def textImage : Image :=
  ⟨0, [some ⟨elfProgLoad, 1, 0, 0, 1, fun _ => 0, 0⟩]⟩

/-- What `exec` builds for a process before it frees the old address space. -/
def System.builds (layout : Layout) (s : System) (p : Nat) (image : Image)
    (argv : List (List UInt8)) : Option (Nat × Nat × Kmem) :=
  match s.procs p with
  | none => none
  | some q =>
    match procPagetable layout q.trapframe s.kmem with
    | .error _ => none
    | .ok (pt, k) =>
      match buildImage pt image argv k with
      | .ok ((some _, sz), k) => if pt = 0 then none else some (pt, sz, k)
      | _ => none

theorem System.builds_some {image : Image} {argv : List (List UInt8)} {pt sz : Nat} {k₂ : Kmem}
    (built : s.builds layout p image argv = some (pt, sz, k₂)) :
    ∃ q k₁ argc sp, s.procs p = some q ∧ procPagetable layout q.trapframe s.kmem =
      .ok (pt, k₁) ∧ pt ≠ 0 ∧
      buildImage pt image argv k₁ = .ok ((some (argc, sp), sz), k₂) := by
  unfold builds at built
  split at built
  · cases built
  rename_i q here
  split at built
  · cases built
  rename_i pt' k₁ made
  split at built
  · rename_i stack sz' k' ended
    split at built
    · cases built
    · rename_i real
      cases built
      exact ⟨q, k₁, stack.1, stack.2, here, made, real, ended⟩
  · cases built

/-- In every run, other processes notice nothing of a `copyout` exactly if its writes are harmless.
-/
theorem copyout_isolation_iff (layout : Layout) (mem : Foundation.Memory) (counts : Nat → Int)
    (u : Kmem) (booted : kinit layout ⟨mem, counts, 0⟩ = .ok ((), u)) (events : List Event)
    (s : System) (run : Foundation.exec (System.step layout) (System.start u) events = some s)
    (p : Nat) (q : Proc) (here : s.procs p = some q) (va : Nat) (src : Nat → UInt8) (len : Nat)
    (s' : System) (done : s.perform layout (.copyout p va src len) = .ok (some s')) :
    (∀ p' q' a, p' ≠ p → s.procs p' = some q' → s'.sees q' a = s.sees q' a) ↔
      s.Harmless p q va src len := by
  obtain ⟨live, tfs, node, books, shows⟩ := System.valid_run booted run
  exact shows.unseen_iff here done

/-- The text of a program, shared after a `fork`, is written through the child. -/
theorem copyout_isolation_text :
    ∃ u s s' q q', kinit textLayout ⟨fun _ => 0, fun _ => 0, 0⟩ = .ok ((), u) ∧
      Foundation.exec (System.step textLayout) (System.start u)
        [.userinit 0 [], .exec 0 (some textImage) [], .fork 0 1] = some s ∧
      s.procs 0 = some q ∧ s.procs 1 = some q' ∧
      s.perform textLayout (.copyout 1 100 (fun _ => 7) 1) = .ok (some s') ∧
      s.sees q 100 = some 0 ∧ s'.sees q 100 = some 7 := by
  have computed : ((bootSystem textLayout [.userinit 0 []]).bind fun s =>
      (s.builds textLayout 0 textImage []).map fun (pt, sz, k) =>
        (((s.procs 1).isNone, sz, (k.userAddr pt 100).map k.mem), k.pteOf pt 100 &&& pteW,
          k.pteOf pt 100 &&& pteCow,
          (List.range 12).all fun i => k.numpUsing
            ((textLayout.kernelEnd + i * pgsize) / pgsize) = 0)) =
      some ((true, 12288, some 0), 0, 0, true) := by decide +kernel
  obtain ⟨s₀, started, image⟩ := bind_eq_some_iff.mp computed
  obtain ⟨⟨pt, sz, k₂⟩, built, facts⟩ := map_eq_some_iff.mp image
  simp only [Prod.mk.injEq] at facts
  obtain ⟨⟨unused, rfl, byte⟩, readonly, plain, free⟩ := facts
  obtain ⟨u, booted, run⟩ := bootSystem_some started
  obtain ⟨live, tfs, node, books, shows⟩ := System.valid_run booted run
  obtain ⟨q, k₁, argc, sp, here, made, real, ended⟩ := System.builds_some built
  have visible : (k₂.userAddr pt 100).isSome := by
    rw [← isSome_map (f := k₂.mem), byte]
    rfl
  -- the text replaces what the first process had
  obtain ⟨k₃, executed, fixed, same, spare⟩ :=
    shows.exec_builds here made real ended ⟨visible, readonly, plain⟩
  have run' := exec_snoc run executed
  obtain ⟨live', tfs', node', books', shows'⟩ := System.valid_run booted run'
  have many : 6 + 2 * pageCount 12288 ≤ k₂.spare textLayout := by
    rw [show 6 + 2 * pageCount 12288 = 12 by decide]
    refine Kmem.le_spare textLayout.kernelEnd fun i below => ⟨?_, ?_⟩
    · unfold Layout.Managed textLayout phystop kernbase pgroundup pgsize
      dsimp only
      omega
    · exact of_decide_eq_true (List.all_eq_true.mp free i (List.mem_range.mpr below))
  have alone : ({ s₀ with kmem := k₃, result := argc }.setProc 0
      (some { q with pagetable := pt, sz := 12288 })).procs 1 = none := by
    rw [System.setProc]
    dsimp only
    rw [update_of_ne Nat.one_ne_zero]
    exact isNone_iff_eq_none.mp unused
  -- the child shares the text with its parent
  obtain ⟨s₁, q', s₂, forked, parent, child, written, before, after⟩ := shows'.fixed_leaks 1 7
    (update_self 0 _ _) alone fixed (many.trans spare)
  exact ⟨u, s₁, s₂, _, q', booted, exec_snoc run' forked, parent, child, written,
    before.trans (same.trans byte), after⟩

/-- What the child gets into a page that is copy-on-write is its own. -/
theorem copyout_isolation_iff_fork :
    ∃ u s s' q, kinit smallLayout ⟨fun _ => 0, fun _ => 0, 0⟩ = .ok ((), u) ∧
      Foundation.exec (System.step smallLayout) (System.start u)
      [.userinit 0 [], .fork 0 1] = some s ∧
      s.procs 1 = some q ∧ s.perform smallLayout (.copyout 1 100 (fun _ => 7) 1) = .ok (some s') ∧
      s'.sees q 100 = some 7 ∧
      ∀ p' q' a, p' ≠ 1 → s.procs p' = some q' → s'.sees q' a = s.sees q' a := by
  have computed :
    ((bootSystem smallLayout [.userinit 0 [], .fork 0 1]).bind fun s => (s.procs 1).bind fun q =>
      (s.perform smallLayout (.copyout 1 100 (fun _ => 7) 1)).toOption.bind
          fun next => next.map fun s' =>
        (s.kmem.pteOf q.pagetable 100 &&& pteCow, s'.sees q 100)) =
          some (256, some 7) := by decide +kernel
  obtain ⟨s, ended, rest⟩ := bind_eq_some_iff.mp computed
  obtain ⟨q, here, rest⟩ := bind_eq_some_iff.mp rest
  cases done : s.perform smallLayout (.copyout 1 100 (fun _ => 7) 1) with
  | error e =>
    rw [done] at rest
    cases rest
  | ok next =>
    rw [done] at rest
    obtain ⟨s', rfl, facts⟩ := map_eq_some_iff.mp rest
    rw [Prod.mk.injEq] at facts
    obtain ⟨shared, seen⟩ := facts
    obtain ⟨u, booted, run⟩ := bootSystem_some ended
    refine ⟨u, s, s', q, booted, run, here, done, seen, ?_⟩
    refine (copyout_isolation_iff smallLayout _ _ u booted _ s run 1 q here 100 _ 1 s' done).mpr
      fun i inside _ plain => ?_
    obtain rfl : i = 0 := by omega
    rw [shared] at plain
    cases plain

end Isolation

end EnhancedXv6.Memory
