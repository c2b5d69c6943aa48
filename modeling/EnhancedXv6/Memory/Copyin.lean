import EnhancedXv6.Memory.Writes

namespace EnhancedXv6.Memory

open Foundation List Option Books

section Model

/-- The loop of `copyin`, which ends after at most `len` rounds; the bytes are those that it has
stored from `dst` on. -/
def copyinBytes (pagetable : Nat) : Nat → Nat → Nat → KM (Int × List UInt8)
  | 0, _, _ => return (0, [])
  | fuel + 1, srcva, len => do
    if len = 0 then
      return (0, [])
    else
      let va0 := pgrounddown srcva
      let pa0 ← walkaddr pagetable va0
      if pa0 = 0 then
        return (-1, [])
      else
        let n := min (pgsize - (srcva - va0)) len
        let mem := (← get).mem
        let (result, rest) ← copyinBytes pagetable fuel ((va0 + pgsize) % 2 ^ 64) (len - n)
        return (result, (List.range n).map (fun i => mem (pa0 + (srcva - va0) + i)) ++ rest)

def copyin (pagetable srcva len : Nat) : KM (Int × List UInt8) :=
  copyinBytes pagetable len srcva len

/-- The inner loop of `copyinstr`: the bytes that it stores, and `got_null`. -/
def scanString (mem : Foundation.Memory) : Nat → Nat → List UInt8 × Bool
  | _, 0 => ([], false)
  | p, n + 1 =>
    if mem p = 0 then
      ([0], true)
    else
      let (rest, gotNull) := scanString mem (p + 1) n
      (mem p :: rest, gotNull)

/-- The outer loop of `copyinstr`, which ends after at most `max` rounds. -/
def copyinstrBytes (pagetable : Nat) : Nat → Nat → Nat → KM (Int × List UInt8)
  | 0, _, _ => return (-1, [])
  | fuel + 1, srcva, max => do
    if max = 0 then
      return (-1, [])
    else
      let va0 := pgrounddown srcva
      let pa0 ← walkaddr pagetable va0
      if pa0 = 0 then
        return (-1, [])
      else
        let n := min (pgsize - (srcva - va0)) max
        let (here, gotNull) := scanString (← get).mem (pa0 + (srcva - va0)) n
        if gotNull then
          return (0, here)
        else
          let (result, rest) ← copyinstrBytes pagetable fuel ((va0 + pgsize) % 2 ^ 64) (max - n)
          return (result, here ++ rest)

def copyinstr (pagetable srcva max : Nat) : KM (Int × List UInt8) :=
  copyinstrBytes pagetable max srcva max

end Model

section Bytes

variable {layout : Layout} {k : Kmem} {node : Nodes} {books books' : Books} {live : Finset Nat}
  {r va len max n p : Nat} {leaf : Leaf} {stops : Panic → Prop} {mem : Foundation.Memory}

def Books.views (books : Books) (r va len : Nat) : List (Option UInt8) :=
  (List.range len).map fun i => books.view r (va + i)

/-- A string of `j` bytes and its NUL stand at an address. -/
def Books.StringAt (books : Books) (r va j : Nat) : Prop :=
  (∀ i, i < j → ∃ byte, books.view r (va + i) = some byte ∧ byte ≠ 0) ∧
    books.view r (va + j) = some 0

theorem scanString_cases (mem : Foundation.Memory) (p n : Nat) :
    (∃ j, j < n ∧ (∀ i, i < j → mem (p + i) ≠ 0) ∧ mem (p + j) = 0 ∧
      scanString mem p n = ((range (j + 1)).map (fun i => mem (p + i)), true)) ∨
    ((∀ i, i < n → mem (p + i) ≠ 0) ∧ scanString mem p n =
      ((range n).map (fun i => mem (p + i)), false)) := by
  induction n generalizing p with
  | zero => exact .inr ⟨fun i none => absurd none (Nat.not_lt_zero i), rfl⟩
  | succ n ih =>
    have shift (m : Nat) : (range (m + 1)).map (fun i => mem (p + i)) =
        mem p :: (range m).map fun i => mem (p + 1 + i) := by
      rw [range_succ_eq_map, map_cons, List.map_map]
      congr 1
      refine map_congr_left fun i _ => ?_
      exact congrArg mem (by omega)
    rw [scanString]
    by_cases null : mem p = 0
    · rw [if_pos null]
      refine .inl ⟨0, Nat.succ_pos n, fun i none => absurd none (Nat.not_lt_zero i), null, ?_⟩
      rw [shift, null]
      rfl
    · have later {i : Nat} (real : mem (p + 1 + (i - 1)) ≠ 0) : mem (p + i) ≠ 0 := by
        cases i with
        | zero => exact null
        | succ i => rwa [show p + (i + 1) = p + 1 + (i + 1 - 1) by omega]
      rw [if_neg null]
      rcases ih (p + 1) with ⟨j, inside, before, zero, found⟩ | ⟨before, found⟩
      · refine .inl ⟨j + 1, by omega, fun i less => ?_, ?_, ?_⟩
        · cases i with
          | zero => exact null
          | succ i => exact later (before i (by omega))
        · rwa [show p + (j + 1) = p + 1 + j by omega]
        · rw [found, shift]
      · refine .inr ⟨fun i less => ?_, ?_⟩
        · cases i with
          | zero => exact null
          | succ i => exact later (before i (by omega))
        · rw [found, shift]

theorem Sound.chunk_view (sound : Sound layout k live node books) (root : r ∈ live)
    (seen : books.reach r va = some leaf) {i : Nat} (inside : i < chunk va len) :
    books.view r (va + i) = some (k.mem (leaf.pa + va % pgsize + i)) := by
  obtain ⟨page, offset⟩ := chunk_page inside
  rw [← sound.view_eq root, sound.tables.userAddr_eq root, reach_page books r page, seen, offset,
    Nat.add_assoc]
  rfl

theorem Books.views_add (books : Books) (r va first second : Nat) :
    books.views r va (first + second) =
      books.views r va first ++ books.views r (va + first) second := by
  unfold views
  rw [range_add, map_append, List.map_map]
  refine congrArg (_ ++ ·) (map_congr_left fun i _ => ?_)
  rw [Function.comp_apply, Nat.add_assoc]

theorem chunk_place (low : va < maxva) (more : chunk va len < len) :
    (pgrounddown va + pgsize) % 2 ^ 64 = va + chunk va len := by
  have next := (chunk_next low le_rfl more).1
  rwa [Nat.sub_self, Nat.add_zero] at next

theorem Sound.chunk_views (sound : Sound layout k live node books) (root : r ∈ live)
    (seen : books.reach r va = some leaf) {n : Nat} (few : n ≤ chunk va len) :
    ((range n).map fun i => k.mem (leaf.pa + va % pgsize + i)).map some = books.views r va n := by
  unfold views
  rw [List.map_map]
  refine map_congr_left fun i member => ?_
  exact (sound.chunk_view root seen ((mem_range.mp member).trans_le few)).symm

theorem copyinBytes_meets (fuel : Nat) (sound : Sound layout k live node books) (root : r ∈ live)
    (enough : len ≤ fuel) :
    Meets (copyinBytes r fuel va len) k (fun out u => u = k ∧
      ∃ j, out.2.map some = books.views r va j ∧
      (out.1 = 0 ∧ j = len ∨ out.1 = -1 ∧ j < len ∧ books.reach r (va + j) = none)) stops := by
  induction fuel generalizing va len with
  | zero =>
    obtain rfl : len = 0 := by omega
    rw [copyinBytes, meets_pure]
    exact ⟨rfl, 0, rfl, .inl ⟨rfl, rfl⟩⟩
  | succ fuel ih =>
    rw [copyinBytes]
    split
    · rename_i none
      subst none
      rw [meets_pure]
      exact ⟨rfl, 0, rfl, .inl ⟨rfl, rfl⟩⟩
    · rename_i more
      have guarded := sound.good.guarded r
      refine (walkaddr_page sound.tables root guarded).bind fun a u ⟨same, found⟩ => ?_
      subst same
      rcases found with ⟨hidden, rfl⟩ | ⟨leaf, seen, low, rfl, real⟩
      · rw [if_pos rfl, meets_pure]
        exact ⟨rfl, 0, rfl, .inr ⟨rfl, Nat.pos_of_ne_zero more, hidden⟩⟩
      · rw [if_neg real, page_offset, meets_bind, meets_get]
        refine (ih (chunk_rest more enough)).bind fun out w outcome => ?_
        obtain ⟨same, j, rest, outcome⟩ := outcome
        subst same
        rw [meets_pure]
        have few : chunk va len ≤ len := Nat.min_le_right _ _
        have within : j ≤ len - chunk va len :=
          outcome.elim (fun done => done.2.le) fun failed => failed.2.1.le
        refine ⟨rfl, chunk va len + j, ?_, outcome.imp (fun done => ⟨done.1, by omega⟩)
          fun ⟨failed, less, missing⟩ => ?_⟩
        · rw [map_append, rest]
          refine (congrArg (· ++ _) (sound.chunk_views root seen (le_refl (chunk va len)))).trans ?_
          rcases few.eq_or_lt with all | more
          · obtain rfl : j = 0 := by omega
            exact append_nil _
          · rw [chunk_place low more, ← books.views_add]
        · rw [chunk_place low (show chunk va len < len by omega), Nat.add_assoc] at missing
          exact ⟨failed, by omega, missing⟩

/-- A string at an address ends on its page, or goes on with the next one. -/
theorem Books.stringAt_next (low : va < maxva) {j : Nat} (inside : j < max)
    (beyond : chunk va max ≤ j) :
    books.StringAt r va j ↔
      (∀ i, i < chunk va max → ∃ byte, books.view r (va + i) = some byte ∧ byte ≠ 0) ∧
      books.StringAt r ((pgrounddown va + pgsize) % 2 ^ 64) (j - chunk va max) := by
  have next {i : Nat} (above : chunk va max ≤ i) (below : i ≤ j) :=
    (chunk_next low above (show i < max by omega)).1
  unfold StringAt
  rw [next beyond le_rfl]
  constructor
  · rintro ⟨before, null⟩
    refine ⟨fun i less => before i (by omega), fun i less => ?_, null⟩
    have place := next (Nat.le_add_right (chunk va max) i) (by omega)
    rw [Nat.add_sub_cancel_left] at place
    rw [place]
    exact before _ (by omega)
  · rintro ⟨first, before, null⟩
    refine ⟨fun i less => ?_, null⟩
    by_cases early : i < chunk va max
    · exact first i early
    · rw [← next (by omega) less.le]
      exact before _ (by omega)

/-- What `copyinstr` has read of a string of at most `max` bytes, with its result. -/
def Books.Fetched (books : Books) (r va max : Nat) (out : Int × List UInt8) : Prop :=
  out.2.length ≤ max ∧
    ((out.1 = 0 ∧ ∃ j, j < max ∧ books.StringAt r va j ∧
        out.2.map some = books.views r va (j + 1)) ∨
      (out.1 = -1 ∧ ∀ j, j < max → ¬ books.StringAt r va j))

theorem Books.fetched_empty (books : Books) (r va : Nat) : books.Fetched r va 0 (-1, []) :=
  ⟨le_rfl, .inr ⟨rfl, fun j none => absurd none (Nat.not_lt_zero j)⟩⟩

theorem Books.fetched_hidden (hidden : books.reach r va = none) :
    books.Fetched r va max (-1, []) := by
  refine ⟨Nat.zero_le _, .inr ⟨rfl, fun j _ string => ?_⟩⟩
  have none : books.view r (va + 0) = none := by
    rw [Nat.add_zero, view, hidden]
    rfl
  cases j with
  | zero => cases none.symm.trans string.2
  | succ j =>
    obtain ⟨byte, shown, _⟩ := string.1 0 (Nat.succ_pos j)
    cases none.symm.trans shown

/-- A page without a NUL, and what has been read from the next page on. -/
theorem Books.Fetched.next {out : Int × List UInt8} {here : List UInt8} (low : va < maxva)
    (first : ∀ i, i < chunk va max → ∃ byte, books.view r (va + i) = some byte ∧ byte ≠ 0)
    (bytes : here.map some = books.views r va (chunk va max))
    (rest : books.Fetched r ((pgrounddown va + pgsize) % 2 ^ 64) (max - chunk va max) out) :
    books.Fetched r va max (out.1, here ++ out.2) := by
  have few : chunk va max ≤ max := Nat.min_le_right _ _
  have size : here.length = chunk va max := by simpa [views] using congrArg List.length bytes
  refine ⟨by have := rest.1; simp only [length_append, size]; omega, ?_⟩
  rcases rest.2 with ⟨done, j, inside, string, others⟩ | ⟨failed, missing⟩
  · refine .inl ⟨done, chunk va max + j, by omega, ?_, ?_⟩
    · rw [stringAt_next low (by omega) (Nat.le_add_right _ _), Nat.add_sub_cancel_left]
      exact ⟨first, string⟩
    · rw [map_append, others, bytes, Nat.add_assoc, books.views_add r va (chunk va max) (j + 1),
        chunk_place low (show chunk va max < max by omega)]
  · refine .inr ⟨failed, fun j inside string => ?_⟩
    by_cases early : j < chunk va max
    · obtain ⟨byte, shown, real⟩ := first j early
      exact real (some.inj (shown.symm.trans string.2))
    · exact missing _ (by omega) ((stringAt_next low inside (by omega)).mp string).2

theorem copyinstrBytes_meets (fuel : Nat) (sound : Sound layout k live node books) (root : r ∈ live)
    (enough : max ≤ fuel) :
    Meets (copyinstrBytes r fuel va max) k (fun out u => u = k ∧ books.Fetched r va max out)
      stops := by
  induction fuel generalizing va max with
  | zero =>
    obtain rfl : max = 0 := by omega
    rw [copyinstrBytes, meets_pure]
    exact ⟨rfl, books.fetched_empty r va⟩
  | succ fuel ih =>
    rw [copyinstrBytes]
    split
    · rename_i none
      subst none
      rw [meets_pure]
      exact ⟨rfl, books.fetched_empty r va⟩
    · rename_i more
      have guarded := sound.good.guarded r
      refine (walkaddr_page sound.tables root guarded).bind fun a u ⟨same, found⟩ => ?_
      subst same
      rcases found with ⟨hidden, rfl⟩ | ⟨leaf, seen, low, rfl, real⟩
      · rw [if_pos rfl, meets_pure]
        exact ⟨rfl, fetched_hidden hidden⟩
      · have size : min (pgsize - va % pgsize) max = chunk va max := rfl
        have few : chunk va max ≤ max := Nat.min_le_right _ _
        have shows {i : Nat} (inside : i < chunk va max) := sound.chunk_view root seen inside
        rw [if_neg real, page_offset, meets_bind, meets_get]
        -- the first NUL of the page ends the string, and without one the next page goes on
        rcases scanString_cases u.mem (leaf.pa + va % pgsize) (chunk va max) with
          ⟨j, inside, before, null, scanned⟩ | ⟨before, scanned⟩
        · dsimp only
          rw [size, scanned, if_pos rfl, meets_pure]
          refine ⟨rfl, ?_, .inl ⟨rfl, j, by omega, ⟨fun i less => ?_, ?_⟩, ?_⟩⟩
          · rw [length_map, length_range]
            omega
          · exact ⟨_, shows (by omega), before i less⟩
          · rw [shows inside, null]
          · exact sound.chunk_views root seen inside
        · dsimp only
          rw [size, scanned, if_neg Bool.false_ne_true]
          refine (ih (chunk_rest more enough)).bind fun out w ⟨same, rest⟩ => ?_
          subst same
          rw [meets_pure]
          exact ⟨rfl, rest.next low (fun i inside => ⟨_, shows inside, before i inside⟩)
            (sound.chunk_views root seen le_rfl)⟩

end Bytes

section Meaning

variable {layout : Layout} {k : Kmem} {node : Nodes} {books books' : Books} {live : Finset Nat}
  {r va len : Nat}

def Kmem.Accessible (k : Kmem) (pagetable va : Nat) : Prop :=
  va < maxva ∧ k.pteOf pagetable va &&& pteV ≠ 0 ∧ k.pteOf pagetable va &&& pteU ≠ 0

instance Kmem.decidableAccessible (k : Kmem) (pagetable va : Nat) :
    Decidable (k.Accessible pagetable va) :=
  inferInstanceAs (Decidable (_ ∧ _ ∧ _))

def Kmem.userByte (k : Kmem) (pagetable va : Nat) : UInt8 :=
  k.mem (pte2pa (k.pteOf pagetable va) + va % pgsize)

def Kmem.userBytes (k : Kmem) (pagetable va len : Nat) : List UInt8 :=
  (List.range len).map fun i => k.userByte pagetable (va + i)

/-- The meaning of `copyin`, for the bytes that the user has. -/
def Kmem.CopiesIn (k : Kmem) (pagetable va len : Nat) (accessible : Nat → Prop)
    (byte : Nat → UInt8) : Prop :=
  ∃ result bytes, copyin pagetable va len k = .ok ((result, bytes), k) ∧
    (result = 0 ∨ result = -1) ∧ (result = 0 ↔ ∀ i, i < len → accessible (va + i)) ∧
    (result = 0 → bytes = (List.range len).map fun i => byte (va + i))

/-- The meaning of `copyinstr`: the first NUL decides. -/
def Kmem.CopiesString (k : Kmem) (pagetable va max : Nat) : Prop :=
  ∃ result bytes, copyinstr pagetable va max k = .ok ((result, bytes), k) ∧
    (result = 0 ∨ result = -1) ∧ bytes.length ≤ max ∧
    (result = 0 ↔ ∃ j, j < max ∧ k.userByte pagetable (va + j) = 0 ∧ ∀ i, i ≤ j →
      k.Accessible pagetable (va + i)) ∧
    (result = 0 → ∃ j, j < max ∧ k.userByte pagetable (va + j) = 0 ∧
      (∀ i, i < j → k.userByte pagetable (va + i) ≠ 0) ∧ bytes = k.userBytes pagetable va (j + 1))

/-- The meaning of `copyout`: afterwards `copyin` finds the new bytes, and the old ones elsewhere.
-/
def Kmem.CopiesOut (k : Kmem) (pagetable va len : Nat) (src : Nat → UInt8) (result : Int)
    (k' : Kmem) : Prop :=
  (result = 0 ∨ result = -1) ∧ (result = 0 ↔ ∀ i, i < len → k.Accessible pagetable (va + i)) ∧
    (result = 0 → ∀ va' len', k'.CopiesIn pagetable va' len' (k.Accessible pagetable) fun a =>
      if va ≤ a ∧ a < va + len then src (a - va) else k.userByte pagetable a)

section

variable (sound : Sound layout k live node books)

include sound

section

variable (root : r ∈ live)

include root

theorem Sound.accessible_iff : k.Accessible r va ↔ (books.reach r va).isSome := by
  have addr := sound.tables.userAddr_eq root va
  have entry := sound.tables.pteOf_eq root va
  unfold Kmem.userAddr at addr
  dsimp only at addr
  unfold Kmem.Accessible
  constructor
  · rintro ⟨_, both⟩
    rw [if_pos both] at addr
    rw [← isSome_map, ← addr]
    rfl
  · intro seen
    rw [← isSome_map, ← addr] at seen
    split at seen
    · rename_i both
      refine ⟨?_, both⟩
      by_contra high
      rw [entry, if_neg high] at both
      exact both.1 (Nat.zero_and _)
    · cases seen

theorem Sound.view_byte (accessible : k.Accessible r va) :
    books.view r va = some (k.userByte r va) := by
  rw [← sound.view_eq root, Kmem.userAddr, if_pos accessible.2]
  rfl

theorem Sound.view_some {byte : UInt8}
    (shown : books.view r va = some byte) : k.Accessible r va ∧ k.userByte r va = byte := by
  have accessible : k.Accessible r va := by
    rw [sound.accessible_iff root, ← isSome_map (f := fun leaf => books.data leaf.pa (va % pgsize))]
    exact isSome_of_eq_some shown
  exact ⟨accessible, some.inj ((sound.view_byte root accessible).symm.trans shown)⟩

theorem Sound.accessible_all :
    (∀ i, i < len → k.Accessible r (va + i)) ↔ books.Writable r va len := by
  unfold Writable
  simp only [sound.accessible_iff root]

/-- What is shown by the books is what is in the memory of the user. -/
theorem Sound.bytes_eq {bytes : List UInt8}
    (shown : bytes.map some = books.views r va len) : (∀ i, i < len → k.Accessible r (va + i)) ∧
      bytes = k.userBytes r va len := by
  have size : bytes.length = len := by
    have same := congrArg length shown
    rwa [length_map, views, length_map, length_range] at same
  have each (i : Nat) (inside : i < len) :
      k.Accessible r (va + i) ∧ k.userByte r (va + i) = bytes.get ⟨i, by omega⟩ := by
    have same := congrArg (fun list => list[i]?) shown
    rw [getElem?_map, views, getElem?_map, getElem?_range inside,
      getElem?_eq_getElem (by omega), map_some, map_some, some_inj] at same
    exact sound.view_some root same.symm
  refine ⟨fun i inside => (each i inside).1, ext_getElem ?_ fun i first second => ?_⟩
  · rw [Kmem.userBytes, length_map, length_range, size]
  · simp only [Kmem.userBytes, getElem_map, getElem_range]
    exact (each i (by omega)).2.symm

theorem Sound.copiesIn (va len : Nat) : k.CopiesIn r va len (k.Accessible r) (k.userByte r) := by
  have meets : Meets (copyin r va len) k _ fun _ => False := copyinBytes_meets len sound root le_rfl
  obtain ⟨⟨result, bytes⟩, u, ended, rfl, j, shown, outcome⟩ := meets.ends
  rcases outcome with ⟨rfl, rfl⟩ | ⟨rfl, less, missing⟩
  · obtain ⟨all, same⟩ := sound.bytes_eq root shown
    exact ⟨0, bytes, ended, .inl rfl, iff_of_true rfl all, fun _ => same⟩
  · refine ⟨-1, bytes, ended, .inr rfl, iff_of_false (by decide) fun all => ?_,
      fun wrong => by cases wrong⟩
    have there := (sound.accessible_all root).mp all j less
    rw [missing] at there
    cases there

theorem Sound.copiesString (va max : Nat) : k.CopiesString r va max := by
  have meets : Meets (copyinstr r va max) k _ fun _ => False :=
    copyinstrBytes_meets max sound root le_rfl
  obtain ⟨⟨result, bytes⟩, u, ended, rfl, size, outcome⟩ := meets.ends
  rcases outcome with ⟨rfl, j, inside, string, shown⟩ | ⟨rfl, missing⟩
  · obtain ⟨all, same⟩ := sound.bytes_eq root shown
    have null := (sound.view_some root string.2).2
    refine ⟨0, bytes, ended, .inl rfl, size,
      iff_of_true rfl ⟨j, inside, null, fun i below => all i (by omega)⟩,
      fun _ => ⟨j, inside, null, fun i less => ?_, same⟩⟩
    obtain ⟨byte, shown, real⟩ := string.1 i less
    rw [(sound.view_some root shown).2]
    exact real
  · refine ⟨-1, bytes, ended, .inr rfl, size, iff_of_false (by decide) ?_,
      fun wrong => by cases wrong⟩
    rintro ⟨j, inside, null, all⟩
    -- the first NUL is not later than this one
    have found : ∃ j, u.userByte r (va + j) = 0 := ⟨j, null⟩
    have before : Nat.find found ≤ j := Nat.find_min' found null
    refine missing (Nat.find found) (by omega) ⟨fun i less => ?_, ?_⟩
    · exact ⟨_, sound.view_byte root (all i (by omega)), Nat.find_min found less⟩
    · rw [sound.view_byte root (all _ before), Nat.find_spec found]

/-- `copyout` by the byte: it fails where one is not the user's, and else it puts them all there. -/
theorem Sound.copyout_bytes {src : Nat → UInt8} {result : Int} {u : Kmem}
    (copied : copyout r va src len k = .ok (result, u)) :
    (∃ node books', Sound layout u live node books') ∧ (result = 0 ∨ result = -1) ∧
      (result = 0 ↔ ∀ i, i < len → k.Accessible r (va + i)) ∧
      (∀ a, u.Accessible r a ↔ k.Accessible r a) ∧
      (result = 0 → ∀ a, k.Accessible r a →
        u.userByte r a = if va ≤ a ∧ a < va + len then src (a - va) else k.userByte r a) := by
  have meets : Meets (copyout r va src len) k _ fun _ => True := copyout_copied sound root
  obtain ⟨books', after⟩ := meets.result copied
  have accessible (a : Nat) : u.Accessible r a ↔ k.Accessible r a := by
    rw [after.sound.accessible_iff root, sound.accessible_iff root, after.rewrites.reach]
  have zero : result = 0 ↔ books.Writable r va len := by
    have negative := after.negative
    rcases after.status with rfl | rfl
    · exact iff_of_true rfl (not_not.mp fun missing => absurd (negative.mpr missing) (by decide))
    · exact iff_of_false (by decide) (negative.mp (by decide))
  refine ⟨⟨node, books', after.sound⟩, after.status,
    zero.trans (sound.accessible_all root).symm, accessible, fun done a there => ?_⟩
  have all := zero.mp done
  have hits (i : Nat) (inside : i < len) : books.Hit r va len i :=
    ⟨inside, fun j below => all j (by omega)⟩
  refine some.inj ((after.sound.view_byte root ((accessible a).mpr there)).symm.trans ?_)
  split
  · rename_i inside
    obtain ⟨i, rfl⟩ := Nat.exists_eq_add_of_le inside.1
    rw [after.hit (hits i (by omega)), Nat.add_sub_cancel_left]
  · rename_i outside
    rw [after.missed fun i hit => by have := hit.1; omega, sound.view_byte root there]

theorem Sound.copiesOut {src : Nat → UInt8} {result : Int} {u : Kmem}
    (copied : copyout r va src len k = .ok (result, u)) : k.CopiesOut r va len src result u := by
  obtain ⟨⟨_, _, after⟩, known, zero, accessible, byte⟩ := sound.copyout_bytes root copied
  refine ⟨known, zero, fun done va' len' => ?_⟩
  obtain ⟨status, bytes, ended, known, iff, same⟩ := after.copiesIn root va' len'
  simp only [accessible] at iff
  refine ⟨status, bytes, ended, known, iff, fun read => (same read).trans ?_⟩
  exact map_congr_left fun i member => byte done _ (iff.mp read i (mem_range.mp member))

end

end

/-- In every reached state, the three copies mean what they do to single bytes, and `copyout` ends
if there is a free page for every page of the range. -/
theorem user_copies_bytewise (layout : Layout) (mem : Foundation.Memory) (counts : Nat → Int)
    (u : Kmem) (booted : kinit layout ⟨mem, counts, 0⟩ = .ok ((), u)) (events : List Event)
    (s : System) (run : exec (System.step layout) (System.start u) events = some s) (p : Nat)
    (q : Proc) (here : s.procs p = some q) (va len : Nat) (src : Nat → UInt8) :
    s.kmem.CopiesIn q.pagetable va len (s.kmem.Accessible q.pagetable)
      (s.kmem.userByte q.pagetable) ∧
      s.kmem.CopiesString q.pagetable va len ∧
      (touched va len ≤ s.kmem.spare layout →
        ∃ result k, copyout q.pagetable va src len s.kmem = .ok (result, k)) ∧
      ∀ result k, copyout q.pagetable va src len s.kmem = .ok (result, k) →
        s.kmem.CopiesOut q.pagetable va len src result k := by
  obtain ⟨live, tfs, node, books, shows⟩ := System.valid_run booted run
  have root := (shows.proc here).1
  have sound := shows.sound
  refine ⟨sound.copiesIn root va len, sound.copiesString root va len, fun enough => ?_,
    fun result k copied => sound.copiesOut root copied⟩
  have meets : Meets (copyout q.pagetable va src len) s.kmem _ fun _ => False :=
    copyout_meets sound.tables sound.paid root (sound.good.guarded _)
      fun _ few => absurd few (by omega)
  obtain ⟨result, k, ended, _⟩ := meets.ends
  exact ⟨result, k, ended⟩

/-- The child of a `fork` gets two bytes on a page that it shares with its parent. -/
theorem user_copies_bytewise_fork :
    ∃ u s q k, kinit smallLayout ⟨fun _ => 0, fun _ => 0, 0⟩ = .ok ((), u) ∧
      exec (System.step smallLayout) (System.start u) [.userinit 0 [], .fork 0 1] = some s ∧
      s.procs 1 = some q ∧
      copyout q.pagetable 4094 (fun _ => 7) 2 s.kmem = .ok (0, k) ∧
      (∀ i, i < 2 → s.kmem.Accessible q.pagetable (4094 + i)) ∧
      copyin q.pagetable 4093 3 k = .ok ((0, [0, 7, 7]), k) := by
  have computed :
    ((bootSystem smallLayout [.userinit 0 [], .fork 0 1]).bind fun s => (s.procs 1).bind fun q =>
      (copyout q.pagetable 4094 (fun _ => 7) 2 s.kmem).toOption.map fun out =>
        (out.1, (copyin q.pagetable 4093 3 out.2).toOption.map fun read => read.1)) =
      some (0, some (0, [0, 7, 7])) := by decide +kernel
  obtain ⟨s, ended, rest⟩ := bind_eq_some_iff.mp computed
  obtain ⟨q, here, rest⟩ := bind_eq_some_iff.mp rest
  obtain ⟨⟨result, k⟩, copied, facts⟩ := map_eq_some_iff.mp rest
  obtain ⟨rfl, read⟩ := Prod.mk.inj facts
  obtain ⟨u, booted, run⟩ := bootSystem_some ended
  have returned : copyout q.pagetable 4094 (fun _ => 7) 2 s.kmem = .ok (0, k) :=
    ended_of_toOption copied
  obtain ⟨_, _, _, copies⟩ :=
    user_copies_bytewise smallLayout _ _ u booted _ s run 1 q here 4094 2 fun _ => 7
  obtain ⟨_, zero, after⟩ := copies 0 k returned
  obtain ⟨status, bytes, found, _⟩ := after rfl 4093 3
  rw [found] at read
  cases read
  exact ⟨u, s, q, k, booted, run, here, returned, zero.mp rfl, found⟩

end Meaning

end EnhancedXv6.Memory
