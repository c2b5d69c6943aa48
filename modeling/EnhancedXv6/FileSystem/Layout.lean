import EnhancedXv6.FileSystem.Format

/-! What the block addresses of an inode mean: the file they hold, and the three ways in
which a file is changed. The kernel and `mkfs` both build on these. -/

namespace EnhancedXv6.FileSystem

open Foundation Function List

/-- The address of block `n` of a file, 0 where it has none. -/
def entry (disk : Disk) (addrs : Nat → Nat) (n : Nat) : Nat :=
  if n < ndirect then addrs n
  else if addrs ndirect = 0 then 0
  else load (disk (addrs ndirect)) (4 * (n - ndirect)) 4

def Uses (disk : Disk) (addrs : Nat → Nat) (b : Nat) : Prop :=
  b ≠ 0 ∧ (b = addrs ndirect ∨ ∃ n < maxfile, entry disk addrs n = b)

structure Laid (disk : Disk) (addrs : Nat → Nat) : Prop where
  once : ∀ n < maxfile, ∀ m < maxfile, entry disk addrs n ≠ 0 →
    entry disk addrs n = entry disk addrs m → n = m
  apart : ∀ n < maxfile, entry disk addrs n ≠ 0 → entry disk addrs n ≠ addrs ndirect

structure Holds (disk : Disk) (addrs : Nat → Nat) (bytes : List UInt8) : Prop where
  laid : Laid disk addrs
  small : bytes.length ≤ maxfile * bsize
  mapped : ∀ n, n * bsize < bytes.length → entry disk addrs n ≠ 0
  byte : ∀ k (inside : k < bytes.length), disk (entry disk addrs (k / bsize)) (k % bsize) = bytes[k]

section

variable {disk disk' : Disk} {addrs : Nat → Nat} {bytes : List UInt8}

theorem entry_congr (same : addrs ndirect ≠ 0 → disk' (addrs ndirect) = disk (addrs ndirect))
    (n : Nat) : entry disk' addrs n = entry disk addrs n := by
  unfold entry
  by_cases none : addrs ndirect = 0
  · simp [none]
  · rw [same none]

theorem uses_entry (inside : n < maxfile) (found : entry disk addrs n ≠ 0) :
    Uses disk addrs (entry disk addrs n) :=
  ⟨found, .inr ⟨n, inside, rfl⟩⟩

theorem uses_indirect (found : addrs ndirect ≠ 0) : Uses disk addrs (addrs ndirect) :=
  ⟨found, .inl rfl⟩

theorem uses_congr (same : addrs ndirect ≠ 0 → disk' (addrs ndirect) = disk (addrs ndirect)) :
    Uses disk' addrs b ↔ Uses disk addrs b := by
  unfold Uses
  simp only [entry_congr same]

theorem Laid.congr (laid : Laid disk addrs)
    (same : addrs ndirect ≠ 0 → disk' (addrs ndirect) = disk (addrs ndirect)) :
    Laid disk' addrs := by
  constructor
  · simpa only [entry_congr same] using laid.once
  · simpa only [entry_congr same] using laid.apart

theorem Holds.block_lt (holds : Holds disk addrs bytes) (inside : k < bytes.length) :
    k / bsize < maxfile := by
  have small := holds.small
  rw [Nat.div_lt_iff_lt_mul (by decide)]
  omega

theorem Holds.congr (holds : Holds disk addrs bytes)
    (same : ∀ b, Uses disk addrs b → disk' b = disk b) : Holds disk' addrs bytes := by
  have indirect : addrs ndirect ≠ 0 → disk' (addrs ndirect) = disk (addrs ndirect) :=
    fun found => same _ (uses_indirect found)
  refine ⟨holds.laid.congr indirect, holds.small, fun n below => ?_, fun k inside => ?_⟩
  · rw [entry_congr indirect]
    exact holds.mapped n below
  · have found := holds.mapped (k / bsize) (by unfold bsize; omega)
    rw [entry_congr indirect, same _ (uses_entry (holds.block_lt inside) found)]
    exact holds.byte k inside

theorem entry_none (n : Nat) : entry disk (fun _ => 0) n = 0 := by
  simp [entry]

theorem not_uses_none (b : Nat) : ¬ Uses disk (fun _ => 0) b := by
  rintro ⟨nonzero, same | ⟨n, _, same⟩⟩
  · exact nonzero same
  · exact nonzero (same.symm.trans (entry_none n))

theorem holds_nil : Holds disk (fun _ => 0) [] := by
  refine ⟨⟨fun n _ _ _ found => ?_, fun n _ found => ?_⟩, Nat.zero_le _, fun n few => ?_,
    fun k few => ?_⟩
  · exact absurd (entry_none n) found
  · exact absurd (entry_none n) found
  · exact absurd few (Nat.not_lt_zero _)
  · exact absurd few (Nat.not_lt_zero _)

structure Fresh (disk : Disk) (addrs : Nat → Nat) (b : Nat) : Prop where
  ne_zero : b ≠ 0
  unused : ¬ Uses disk addrs b
  bounded : b < 2 ^ 32

theorem Fresh.ne_entry (fresh : Fresh disk addrs b) (inside : n < maxfile) :
    entry disk addrs n ≠ b := by
  intro same
  exact fresh.unused (same ▸ uses_entry inside (same ▸ fresh.ne_zero))

theorem Fresh.ne_indirect (fresh : Fresh disk addrs b) : addrs ndirect ≠ b := by
  intro same
  exact fresh.unused ⟨fresh.ne_zero, .inl same.symm⟩

/-- Only block `n` gets an address, so what was in the file stays. -/
theorem Holds.add (holds : Holds disk addrs bytes) (n : Nat) {addrs' : Nat → Nat}
    (fresh : Fresh disk addrs b) (none : entry disk addrs n = 0) (indirect : addrs' ndirect ≠ b)
    (inner : ∀ m < maxfile, entry disk addrs m ≠ 0 → entry disk addrs m ≠ addrs' ndirect)
    (entries : ∀ m < maxfile, entry disk' addrs' m = if m = n then b else entry disk addrs m)
    (same : ∀ m < maxfile, entry disk addrs m ≠ 0 →
      disk' (entry disk addrs m) = disk (entry disk addrs m)) :
    Holds disk' addrs' bytes := by
  have old : ∀ m < maxfile, m ≠ n → entry disk' addrs' m = entry disk addrs m :=
    fun m inside other =>
    (entries m inside).trans (if_neg other)
  have new : ∀ m < maxfile, m = n → entry disk' addrs' m = b := fun m inside here =>
    (entries m inside).trans (if_pos here)
  have unlike : ∀ m < maxfile, entry disk addrs m ≠ 0 → m ≠ n := by
    rintro m inside found rfl
    exact found none
  have below : ∀ m, m * bsize < bytes.length → m < maxfile := by
    intro m inside
    have small := holds.small
    unfold bsize at inside small
    omega
  refine ⟨⟨fun m inM m' inM' found equal => ?_, fun m inM found => ?_⟩, holds.small,
    fun m inside => ?_, fun k inside => ?_⟩
  · by_cases here : m = n
    · by_cases there : m' = n
      · rw [here, there]
      · rw [new m inM here, old m' inM' there] at equal
        exact absurd equal.symm (fresh.ne_entry inM')
    · rw [old m inM here] at found equal
      by_cases there : m' = n
      · rw [new m' inM' there] at equal
        exact absurd equal (fresh.ne_entry inM)
      · rw [old m' inM' there] at equal
        exact holds.laid.once m inM m' inM' found equal
  · by_cases here : m = n
    · rw [new m inM here]
      exact indirect.symm
    · rw [old m inM here] at found ⊢
      exact inner m inM found
  · have found := holds.mapped m inside
    rw [old m (below m inside) (unlike m (below m inside) found)]
    exact found
  · have inM := holds.block_lt inside
    have found := holds.mapped (k / bsize) (by unfold bsize; omega)
    rw [old _ inM (unlike _ inM found), same _ inM found]
    exact holds.byte k inside

theorem entry_direct (inside : n < ndirect) (m : Nat) :
    entry disk (update addrs n b) m = if m = n then b else entry disk addrs m := by
  have indirect : update addrs n b ndirect = addrs ndirect := update_of_ne (by omega) _ _
  unfold entry
  rw [indirect]
  by_cases here : m = n
  · rw [if_pos here, here, if_pos inside, update_self]
  · rw [if_neg here, update_of_ne here]

/-- A file whose block `n` got the address `b` uses no other new block. -/
theorem uses_add {addrs' : Nat → Nat}
    (indirect : addrs' ndirect = addrs ndirect ∨ addrs' ndirect = b)
    (entries : ∀ m, entry disk' addrs' m = entry disk addrs m ∨ entry disk' addrs' m = b)
    (use : Uses disk' addrs' x) : Uses disk addrs x ∨ x = b := by
  obtain ⟨nonzero, table | ⟨m, inside, found⟩⟩ := use
  · rcases indirect with same | new
    · exact .inl ⟨nonzero, .inl (table.trans same)⟩
    · exact .inr (table.trans new)
  · rcases entries m with same | new
    · exact .inl ⟨nonzero, .inr ⟨m, inside, same.symm.trans found⟩⟩
    · exact .inr (found.symm.trans new)

theorem uses_direct (inside : n < ndirect) (use : Uses disk (update addrs n b) x) :
    Uses disk addrs x ∨ x = b := by
  refine uses_add (.inl (update_of_ne (by omega) _ _)) (fun m => ?_) use
  rw [entry_direct inside m]
  split
  · exact .inr rfl
  · exact .inl rfl

theorem Holds.direct (holds : Holds disk addrs bytes) (inside : n < ndirect) (none : addrs n = 0)
    (fresh : Fresh disk addrs b) (same : ∀ x, Uses disk addrs x → disk' x = disk x) :
    Holds disk' (update addrs n b) bytes := by
  have indirect : update addrs n b ndirect = addrs ndirect := update_of_ne (by omega) _ _
  have kept : ∀ m, entry disk' (update addrs n b) m = entry disk (update addrs n b) m := by
    refine fun m => entry_congr (fun found => ?_) m
    rw [indirect] at found ⊢
    exact same _ (uses_indirect found)
  refine holds.add n fresh ((if_pos inside).trans none) (indirect ▸ fresh.ne_indirect) ?_
    (fun m _ => (kept m).trans (entry_direct inside m))
      fun m inM found => same _ (uses_entry inM found)
  rw [indirect]
  exact holds.laid.apart

theorem entry_store (found : addrs ndirect ≠ 0) (outside : ¬ n < ndirect) (bounded : b < 2 ^ 32)
    (stored : disk' (addrs ndirect) = store (disk (addrs ndirect)) (4 * (n - ndirect)) 4 b)
    (m : Nat) : entry disk' addrs m = if m = n then b else entry disk addrs m := by
  unfold entry
  by_cases direct : m < ndirect
  · rw [if_pos direct, if_pos direct, if_neg (by omega)]
  · rw [if_neg direct, if_neg direct, if_neg found, if_neg found, stored]
    by_cases here : m = n
    · rw [if_pos here, here, load_store_same bounded]
    · rw [if_neg here, load_store_other (by omega)]

theorem uses_store (found : addrs ndirect ≠ 0) (outside : ¬ n < ndirect) (bounded : b < 2 ^ 32)
    (stored : disk' (addrs ndirect) = store (disk (addrs ndirect)) (4 * (n - ndirect)) 4 b)
    (use : Uses disk' addrs x) : Uses disk addrs x ∨ x = b := by
  refine uses_add (.inl rfl) (fun m => ?_) use
  rw [entry_store found outside bounded stored m]
  split
  · exact .inr rfl
  · exact .inl rfl

theorem Holds.indirect (holds : Holds disk addrs bytes) (found : addrs ndirect ≠ 0)
    (outside : ¬ n < ndirect) (none : entry disk addrs n = 0) (fresh : Fresh disk addrs b)
    (stored : disk' (addrs ndirect) = store (disk (addrs ndirect)) (4 * (n - ndirect)) 4 b)
    (same : ∀ x, Uses disk addrs x → x ≠ addrs ndirect → disk' x = disk x) :
    Holds disk' addrs bytes :=
  holds.add n fresh none fresh.ne_indirect holds.laid.apart
    (fun m _ => entry_store found outside fresh.bounded stored m)
    fun m inM there => same _ (uses_entry inM there) (holds.laid.apart m inM there)

theorem entry_empty (none : addrs ndirect = 0) (zero : disk' b = zeroes) (m : Nat) :
    entry disk' (update addrs ndirect b) m = entry disk addrs m := by
  unfold entry
  by_cases direct : m < ndirect
  · rw [if_pos direct, if_pos direct, update_of_ne (by omega)]
  · have empty : load zeroes (4 * (m - ndirect)) 4 = 0 := load_zero fun _ _ _ => rfl
    rw [if_neg direct, if_neg direct, if_pos none, update_self, zero, empty]
    exact ite_self 0

theorem uses_empty (none : addrs ndirect = 0) (zero : disk' b = zeroes)
    (use : Uses disk' (update addrs ndirect b) x) : Uses disk addrs x ∨ x = b :=
  uses_add (.inr (update_self _ _ _)) (fun m => .inl (entry_empty none zero m)) use

theorem Holds.empty (holds : Holds disk addrs bytes) (none : addrs ndirect = 0)
    (fresh : Fresh disk addrs b)
    (zero : disk' b = zeroes) (same : ∀ x, Uses disk addrs x → disk' x = disk x) :
    Holds disk' (update addrs ndirect b) bytes := by
  have kept := fun m => (entry_empty none zero m : _ = entry disk addrs m)
  refine ⟨⟨?_, fun m inM found => ?_⟩, holds.small, ?_, fun k inside => ?_⟩
  · simpa only [kept] using holds.laid.once
  · rw [kept, update_self]
    exact fresh.ne_entry inM
  · simpa only [kept] using holds.mapped
  · have found := holds.mapped (k / bsize) (by unfold bsize; omega)
    rw [kept, same _ (uses_entry (holds.block_lt inside) found)]
    exact holds.byte k inside

end

/-- `chunk` written over a file at an offset inside it or at its end. -/
def splice (bytes : List UInt8) (off : Nat) (chunk : List UInt8) : List UInt8 :=
  bytes.take off ++ chunk ++ bytes.drop (off + chunk.length)

theorem length_splice (inside : off ≤ bytes.length) (chunk : List UInt8) :
    (splice bytes off chunk).length = max bytes.length (off + chunk.length) := by
  simp only [splice, length_append, length_take, length_drop]
  omega

theorem splice_nil : splice bytes off [] = bytes := by
  simp [splice]

theorem splice_end : splice bytes bytes.length chunk = bytes ++ chunk := by
  simp [splice]

theorem splice_splice (inside : off ≤ bytes.length) (first second : List UInt8) :
    splice (splice bytes off first) (off + first.length) second =
      splice bytes off (first ++ second) := by
  have left : (bytes.take off ++ first).length = off + first.length := by
    rw [length_append, length_take, Nat.min_eq_left inside]
  unfold splice
  rw [← left, take_left, drop_append, append_assoc (bytes.take off) first second]
  have beyond :
      (bytes.take off ++ first).drop ((bytes.take off ++ first).length + second.length) = [] :=
    drop_eq_nil_of_le (by omega)
  rw [beyond, nil_append, drop_drop, left, length_append]
  congr 2
  omega

theorem getElem_splice (inside : off ≤ bytes.length) (chunk : List UInt8) (k : Nat) :
    (splice bytes off chunk)[k]? =
      if off ≤ k ∧ k < off + chunk.length then chunk[k - off]? else bytes[k]? := by
  have left : (bytes.take off).length = off := by rw [length_take, Nat.min_eq_left inside]
  unfold splice
  by_cases before : k < off
  · rw [if_neg (by omega), append_assoc, getElem?_append_left (by omega),
      getElem?_take_of_lt before]
  · by_cases within : k < off + chunk.length
    · rw [if_pos ⟨by omega, within⟩, getElem?_append_left (by rw [length_append]; omega),
        getElem?_append_right (by omega), left]
    · rw [if_neg (by omega), getElem?_append_right (by rw [length_append]; omega), getElem?_drop,
        length_append, left]
      congr 1
      omega

theorem copy_take {src : List UInt8} (m : Memory) (a : Nat) (few : n ≤ src.length) :
    copy m a n (fun i => src.getD i 0) = copy m a (src.take n).length
      fun i => (src.take n).getD i 0 := by
  rw [length_take, Nat.min_eq_left few]
  refine copy_congr fun i below => ?_
  rw [getD_eq_getElem?_getD, getD_eq_getElem?_getD, getElem?_take_of_lt below]

theorem Holds.write {disk disk' : Disk} (holds : Holds disk addrs bytes)
    (start : off ≤ bytes.length) (fits : off % bsize + chunk.length ≤ bsize)
    (inside : off / bsize < maxfile) (found : entry disk addrs (off / bsize) ≠ 0)
    (written : disk' (entry disk addrs (off / bsize)) =
      copy (disk (entry disk addrs (off / bsize))) (off % bsize) chunk.length
        fun i => chunk.getD i 0)
    (same : ∀ x, Uses disk addrs x → x ≠ entry disk addrs (off / bsize) → disk' x = disk x) :
    Holds disk' addrs (splice bytes off chunk) := by
  have indirect : addrs ndirect ≠ 0 → disk' (addrs ndirect) = disk (addrs ndirect) := fun there =>
    same _ (uses_indirect there) (holds.laid.apart _ inside found).symm
  have kept := entry_congr indirect
  have length := length_splice start chunk
  have small := holds.small
  have bound : off + chunk.length ≤ maxfile * bsize := by
    unfold bsize maxfile ndirect nindirect at *
    omega
  refine ⟨holds.laid.congr indirect, by omega, fun n below => ?_, fun k here => ?_⟩
  · rw [kept]
    by_cases old : n * bsize < bytes.length
    · exact holds.mapped n old
    · have last : n = off / bsize := by
        unfold bsize at *
        omega
      rw [last]
      exact found
  · rw [kept]
    have value := getElem_splice start chunk k
    rw [getElem?_eq_getElem here] at value
    by_cases new : off ≤ k ∧ k < off + chunk.length
    · have block : k / bsize = off / bsize := by
        unfold bsize at *
        omega
      have place : k % bsize = off % bsize + (k - off) := by
        unfold bsize at *
        omega
      rw [if_pos new, getElem?_eq_getElem (by omega)] at value
      rw [block, written, place, copy_same (by omega) (by omega), Nat.add_sub_cancel_left,
        getD_eq_getElem _ _ (by omega), Option.some.inj value]
    · have old : k < bytes.length := by omega
      rw [if_neg new, getElem?_eq_getElem old] at value
      rw [Option.some.inj value, ← holds.byte k old]
      by_cases block : k / bsize = off / bsize
      · rw [block, written]
        refine copy_other ?_
        unfold bsize at *
        omega
      · have there := holds.mapped (k / bsize) (by unfold bsize; omega)
        have inK := holds.block_lt old
        rw [same _ (uses_entry inK there) fun equal =>
          block (holds.laid.once _ inK _ inside there equal)]

end EnhancedXv6.FileSystem
