import EnhancedXv6.FileSystem.Writing

namespace EnhancedXv6.FileSystem

open Foundation Function List

section Strings

def strncmp : (Nat → UInt8) → (Nat → UInt8) → Nat → Int
  | _, _, 0 => 0
  | p, q, n + 1 =>
    if p 0 ≠ 0 ∧ p 0 = q 0 then strncmp (fun i => p (i + 1)) (fun i => q (i + 1)) n
    else (p 0).toNat - (q 0).toNat

/-- The bytes that `strncpy` stores. -/
def strncpy : (Nat → UInt8) → Nat → List UInt8
  | _, 0 => []
  | t, n + 1 => if t 0 = 0 then 0 :: List.replicate n 0 else t 0 :: strncpy (fun i => t (i + 1)) n

def namecmp (s t : Nat → UInt8) : Int := strncmp s t dirsiz

def entryKey (name : Nat → UInt8) : List UInt8 := strncpy name dirsiz

def bytesAt (bytes : List UInt8) (i : Nat) : UInt8 := bytes.getD i 0

variable {p q : Nat → UInt8} {n : Nat}

theorem strncpy_length (p : Nat → UInt8) (n : Nat) : (strncpy p n).length = n := by
  induction n generalizing p with
  | zero => rfl
  | succ n ih =>
    rw [strncpy]
    split
    · rw [length_cons, length_replicate]
    · rw [length_cons, ih]

/-- Two strings are equal for `strncmp` where `strncpy` makes one entry of them. -/
theorem strncmp_eq_zero (p q : Nat → UInt8) (n : Nat) :
    strncmp p q n = 0 ↔ strncpy p n = strncpy q n := by
  induction n generalizing p q with
  | zero => exact iff_of_true rfl rfl
  | succ n ih =>
    have same (zero : ((p 0).toNat : Int) - (q 0).toNat = 0) : p 0 = q 0 :=
      UInt8.toNat.inj (by omega)
    rw [strncmp, strncpy, strncpy]
    by_cases first : p 0 = 0
    · rw [if_neg fun both => both.1 first, if_pos first]
      by_cases second : q 0 = 0
      · rw [if_pos second, first, second]
        exact iff_of_true rfl rfl
      · rw [if_neg second]
        refine iff_of_false (fun zero => second ((same zero).symm.trans first)) fun equal => ?_
        exact second (cons.inj equal).1.symm
    · rw [if_neg first]
      by_cases equal : p 0 = q 0
      · rw [if_pos ⟨first, equal⟩, if_neg (equal ▸ first), ih, equal, cons_inj_right]
      · rw [if_neg fun both => equal both.2]
        refine iff_of_false (fun zero => equal (same zero)) fun lists => ?_
        split at lists
        · exact first (cons.inj lists).1
        · exact equal (cons.inj lists).1

theorem strncpy_congr (same : ∀ i, i < n → p i = q i) : strncpy p n = strncpy q n := by
  induction n generalizing p q with
  | zero => rfl
  | succ n ih =>
    rw [strncpy, strncpy, same 0 (Nat.succ_pos n), ih fun i less => same (i + 1) (by omega)]

theorem strncpy_idem (p : Nat → UInt8) (n : Nat) :
    strncpy (bytesAt (strncpy p n)) n = strncpy p n := by
  induction n generalizing p with
  | zero => rfl
  | succ n ih =>
    rw [strncpy, strncpy]
    by_cases first : p 0 = 0
    · rw [if_pos first]
      exact if_pos rfl
    · rw [if_neg first, if_neg (show bytesAt (p 0 :: _) 0 ≠ 0 from first)]
      exact congrArg (p 0 :: ·) (ih _)

theorem entryKey_idem (name : Nat → UInt8) : entryKey (bytesAt (entryKey name)) = entryKey name :=
  strncpy_idem name dirsiz

end Strings

section Model

structure Dirent where
  inum : Nat
  name : List UInt8
  deriving DecidableEq, Repr

def direntSize : Nat := 16

def Dirent.bytes (de : Dirent) : List UInt8 := [.ofNat de.inum, .ofNat (de.inum / 256)] ++ de.name

def Dirent.ofBytes (bytes : List UInt8) : Dirent where
  inum := load (bytesAt bytes) 0 2
  name := (bytes.drop 2).take dirsiz

/-- The loop of `dirlookup`, which ends after at most `fuel` rounds: the number of the inode and the
offset of its entry. -/
def dirlookupLoop (name : Nat → UInt8) : Nat → Nat → Inode → FsM (Option (Nat × Nat) × Inode)
  | 0, _, dp => return (none, dp)
  | fuel + 1, off, dp =>
    if off < dp.size then do
      let (r, bytes, dp) ← readi (fun _ => true) dp off direntSize
      let de := Dirent.ofBytes bytes
      if r ≠ direntSize then throw .dirlookupRead
      else if de.inum = 0 then dirlookupLoop name fuel (off + direntSize) dp
      else if namecmp name (bytesAt de.name) = 0 then return (some (de.inum, off), dp)
      else dirlookupLoop name fuel (off + direntSize) dp
    else return (none, dp)

/-- `dirlookup` without the `iget` of the inode that it finds. -/
def dirlookup (dp : Inode) (name : Nat → UInt8) : FsM (Option (Nat × Nat) × Inode) :=
  if dp.type ≠ tDir then throw .dirlookupNotDir
  else dirlookupLoop name dp.size 0 dp

/-- The loop of `dirlink`: the offset of an empty entry, or of the end. -/
def emptyLoop : Nat → Nat → Inode → FsM (Nat × Inode)
  | 0, off, dp => return (off, dp)
  | fuel + 1, off, dp =>
    if off < dp.size then do
      let (r, bytes, dp) ← readi (fun _ => true) dp off direntSize
      if r ≠ direntSize then throw .dirlinkRead
      else if (Dirent.ofBytes bytes).inum = 0 then return (off, dp)
      else emptyLoop fuel (off + direntSize) dp
    else return (off, dp)

def dirlink (dp : Inode) (name : Nat → UInt8) (inum : Nat) : FsM (Int × Inode) := do
  let (found, dp) ← dirlookup dp name
  match found with
  | some _ => return (-1, dp)
  | none =>
    let (off, dp) ← emptyLoop dp.size 0 dp
    let (r, dp) ← writei (fun _ => true) dp off (Dirent.bytes ⟨inum, strncpy name dirsiz⟩)
    if r ≠ direntSize then return (-1, dp)
    else return (0, dp)

/-- What `sys_unlink` does to the directory. -/
def unlinkEntry (dp : Inode) (name : Nat → UInt8) : FsM (Int × Inode) := do
  let (found, dp) ← dirlookup dp name
  match found with
  | none => return (-1, dp)
  | some (_, off) =>
    let (r, dp) ← writei (fun _ => true) dp off (List.replicate direntSize 0)
    if r ≠ direntSize then throw .unlinkWritei
    else return (0, dp)

end Model

section Entries

variable {slots : List Dirent} {de : Dirent} {i j : Nat}

structure Dirent.Fits (de : Dirent) : Prop where
  inum : de.inum < 2 ^ 16
  name : de.name.length = dirsiz

theorem Dirent.Fits.length (fits : de.Fits) : de.bytes.length = direntSize := by
  rw [bytes, length_append, fits.name]
  rfl

theorem Dirent.Fits.ofBytes (fits : de.Fits) : ofBytes de.bytes = de := by
  obtain ⟨inum, name⟩ := de
  have small : inum < 2 ^ 16 := fits.inum
  have length : name.length = dirsiz := fits.name
  unfold ofBytes bytes
  congr 1
  · simp only [bytesAt, cons_append, nil_append, load, getD_cons_zero, getD_cons_succ,
      UInt8.toNat_ofNat']
    omega
  · change name.take dirsiz = name
    rw [← length, take_length]

def encode (slots : List Dirent) : List UInt8 := slots.flatMap Dirent.bytes

theorem encode_length (fits : ∀ de ∈ slots, de.Fits) :
    (encode slots).length = direntSize * slots.length := by
  induction slots with
  | nil => rfl
  | cons de rest ih =>
    rw [forall_mem_cons] at fits
    change (de.bytes ++ encode rest).length = _
    rw [length_append, fits.1.length, ih fits.2, length_cons, Nat.mul_succ, Nat.add_comm]

theorem encode_append (first second : List Dirent) :
    encode (first ++ second) = encode first ++ encode second :=
  flatMap_append

theorem encode_take (fits : ∀ de ∈ slots, de.Fits) (i : Nat) :
    (encode slots).take (direntSize * i) = encode (slots.take i) := by
  induction i generalizing slots with
  | zero => rfl
  | succ i ih =>
    cases slots with
    | nil => exact take_nil
    | cons de rest =>
      rw [forall_mem_cons] at fits
      have longer : direntSize * (i + 1) - direntSize =
        direntSize * i := by rw [Nat.mul_succ, Nat.add_sub_cancel]
      change (de.bytes ++ encode rest).take _ = de.bytes ++ encode (rest.take i)
      rw [take_append, fits.1.length, longer, ih fits.2, take_of_length_le]
      rw [fits.1.length]
      exact Nat.le_mul_of_pos_right _ (Nat.succ_pos i)

theorem encode_drop (fits : ∀ de ∈ slots, de.Fits) (i : Nat) :
    (encode slots).drop (direntSize * i) = encode (slots.drop i) := by
  have whole : encode (slots.take i) ++ encode (slots.drop i) = encode slots := by
    rw [← encode_append, take_append_drop]
  rw [← encode_take fits] at whole
  exact (append_cancel_left (whole.trans (take_append_drop _ _).symm)).symm

theorem encode_get (fits : ∀ de ∈ slots, de.Fits) (there : slots[i]? = some de) :
    ((encode slots).drop (direntSize * i)).take direntSize = de.bytes := by
  obtain ⟨inside, rfl⟩ := List.getElem?_eq_some_iff.mp there
  rw [encode_drop fits, drop_eq_getElem_cons inside]
  have length := (fits _ (getElem_mem inside)).length
  change (slots[i].bytes ++ encode (slots.drop (i + 1))).take direntSize = _
  rw [← length, take_left]

/-- An entry is written over another one or at the end. -/
def put (slots : List Dirent) (i : Nat) (de : Dirent) : List Dirent :=
  slots.take i ++ de :: slots.drop (i + 1)

theorem put_get (inside : i ≤ slots.length) (de : Dirent) (j : Nat) :
    (put slots i de)[j]? = if j = i then some de else slots[j]? := by
  have length : (slots.take i).length = i := length_take_of_le inside
  unfold put
  rcases Nat.lt_trichotomy j i with before | rfl | later
  · rw [if_neg before.ne, getElem?_append_left (by omega), getElem?_take_of_lt before]
  · rw [if_pos rfl, getElem?_append_right (by omega), length, Nat.sub_self]
    rfl
  · rw [if_neg later.ne', getElem?_append_right (by omega), length]
    obtain ⟨k, rfl⟩ := Nat.exists_eq_add_of_lt later
    rw [show i + k + 1 - i = k + 1 by omega, getElem?_cons_succ, getElem?_drop]
    congr 1
    omega

theorem put_encode (fits : ∀ de ∈ slots, de.Fits) (new : de.Fits) (i : Nat) :
    splice (encode slots) (direntSize * i) de.bytes = encode (put slots i de) := by
  have next : direntSize * i + de.bytes.length = direntSize * (i + 1) := by
    rw [new.length]
    rfl
  unfold splice put
  rw [next, encode_take fits, encode_drop fits, encode_append, append_assoc]
  rfl

/-- What the entries have after a change is the new entry or one that stays. -/
theorem exists_put {P : Dirent → Prop} (inside : i ≤ slots.length) :
    (∃ (j : Nat) (de' : Dirent), (put slots i de)[j]? = some de' ∧ P de') ↔
      P de ∨ ∃ (j : Nat) (de' : Dirent), j ≠ i ∧ slots[j]? = some de' ∧ P de' := by
  constructor
  · rintro ⟨j, de', there, holds⟩
    rw [put_get inside] at there
    split at there
    · cases there
      exact .inl holds
    · rename_i other
      exact .inr ⟨j, de', other, there, holds⟩
  · rintro (holds | ⟨j, de', other, there, holds⟩)
    · exact ⟨i, de, by rw [put_get inside, if_pos rfl], holds⟩
    · exact ⟨j, de', by rw [put_get inside, if_neg other, there], holds⟩

theorem put_fits (fits : ∀ de ∈ slots, de.Fits) (new : de.Fits) :
    ∀ de' ∈ put slots i de, de'.Fits := by
  intro de' member
  rcases mem_append.mp member with before | rest
  · exact fits de' (mem_of_mem_take before)
  · rcases mem_cons.mp rest with rfl | later
    · exact new
    · exact fits de' (mem_of_mem_drop later)

end Entries

section Keys

variable {slots : List Dirent} {de : Dirent} {i : Nat} {k : List UInt8}
  {names : List UInt8 → Option Nat}

def Dirent.Matches (de : Dirent) (k : List UInt8) : Prop :=
  de.inum ≠ 0 ∧ entryKey (bytesAt de.name) = k

def Single (slots : List Dirent) : Prop :=
  ∀ (i j : Nat) (a b : Dirent) (k : List UInt8), slots[i]? = some a → slots[j]? = some b →
    a.Matches k → b.Matches k → i = j

def Binds (slots : List Dirent) (names : List UInt8 → Option Nat) : Prop :=
  ∀ k inum, names k = some inum ↔ ∃ (j : Nat) (de : Dirent), slots[j]? = some de ∧ de.Matches k ∧
    de.inum = inum

/-- What `dirlookup` may answer for a key from an entry on. -/
def Found (slots : List Dirent) (k : List UInt8) (i : Nat) (answer : Option (Nat × Nat)) : Prop :=
  (answer = none ∧ ∀ (j : Nat) (de : Dirent), i ≤ j → slots[j]? = some de → ¬ de.Matches k) ∨
    ∃ (j : Nat) (de : Dirent), slots[j]? = some de ∧ de.Matches k ∧
    answer = some (de.inum, direntSize * j)

theorem Found.unique {answer answer' : Option (Nat × Nat)} (single : Single slots)
    (first : Found slots k 0 answer) (second : Found slots k 0 answer') : answer = answer' := by
  rcases first with ⟨rfl, none⟩ | ⟨j, de, there, matching, rfl⟩
  · rcases second with ⟨rfl, _⟩ | ⟨j, de, there, matching, _⟩
    · rfl
    · exact absurd matching (none j de (Nat.zero_le j) there)
  · rcases second with ⟨rfl, none⟩ | ⟨j', de', there', matching', rfl⟩
    · exact absurd matching (none j de (Nat.zero_le j) there)
    · cases single j j' de de' k there there' matching matching'
      cases there.symm.trans there'
      rfl

theorem Found.answer {answer : Option (Nat × Nat)} (binds : Binds slots names)
    (found : Found slots k 0 answer) : answer.map Prod.fst = names k := by
  rcases found with ⟨rfl, none⟩ | ⟨j, de, there, matching, rfl⟩
  · cases bound : names k with
    | none => rfl
    | some inum =>
      obtain ⟨j, de, there, matching, _⟩ := (binds k inum).mp bound
      exact absurd matching (none j de (Nat.zero_le j) there)
  · exact ((binds k de.inum).mpr ⟨j, de, there, matching, rfl⟩).symm

theorem Single.put (single : Single slots) (inside : i ≤ slots.length)
    (new : ∀ k, de.Matches k → ∀ j de', j ≠ i → slots[j]? = some de' → ¬ de'.Matches k) :
    Single (put slots i de) := by
  intro j j' a b k first second matching matching'
  rw [put_get inside] at first second
  split at first <;> split at second
  · omega
  · cases first
    exact absurd matching' (new k matching j' b ‹_› second)
  · cases second
    exact absurd matching (new k matching' j a ‹_› first)
  · exact single j j' a b k first second matching matching'

/-- The answer for a key that neither the old nor the new entry is for. -/
theorem Found.put {answer : Option (Nat × Nat)} (found : Found slots k 0 answer)
    (inside : i ≤ slots.length) (old : ∀ de', slots[i]? = some de' → ¬ de'.Matches k)
    (new : ¬ de.Matches k) : Found (put slots i de) k 0 answer := by
  rcases found with ⟨rfl, none⟩ | ⟨j, de', there, matching, rfl⟩
  · refine .inl ⟨rfl, fun j de' _ there => ?_⟩
    rw [put_get inside] at there
    split at there
    · cases there
      exact new
    · exact none j de' (Nat.zero_le j) there
  · have other : j ≠ i := by
      rintro rfl
      exact old de' there matching
    exact .inr ⟨j, de', by rw [put_get inside, if_neg other, there], matching, rfl⟩

theorem Binds.link (binds : Binds slots names) (inside : i ≤ slots.length)
    (empty : ∀ de', slots[i]? = some de' → de'.inum = 0) (free : names k = none)
    (new : ∀ k', de.Matches k' ↔ k' = k) :
    Binds (put slots i de) (update names k (some de.inum)) := by
  intro k' inum
  rw [exists_put inside, new]
  by_cases here : k' = k
  · subst here
    rw [update_self, Option.some.injEq]
    refine ⟨fun same => .inl ⟨rfl, same⟩, ?_⟩
    rintro (⟨_, same⟩ | ⟨j, de', _, there, matching, same⟩)
    · exact same
    · have bound := (binds k' inum).mpr ⟨j, de', there, matching, same⟩
      rw [free] at bound
      cases bound
  · rw [update_of_ne here, binds k' inum]
    constructor
    · rintro ⟨j, de', there, matching, same⟩
      refine .inr ⟨j, de', ?_, there, matching, same⟩
      rintro rfl
      exact matching.1 (empty de' there)
    · rintro (⟨same, _⟩ | ⟨j, de', _, there, matching, same⟩)
      · exact absurd same here
      · exact ⟨j, de', there, matching, same⟩

theorem Binds.unlink {old : Dirent} (binds : Binds slots names) (single : Single slots)
    (there : slots[i]? = some old) (matching : old.Matches k)
    (empty : de.inum = 0) : Binds (put slots i de) (update names k none) := by
  have inside : i ≤ slots.length := (List.getElem?_eq_some_iff.mp there).1.le
  intro k' inum
  rw [exists_put inside]
  have never : ¬ (de.Matches k' ∧ de.inum = inum) := fun both => both.1.1 empty
  rw [or_iff_right never]
  by_cases here : k' = k
  · subst here
    rw [update_self]
    refine iff_of_false (Option.some_ne_none inum).symm ?_
    rintro ⟨j, de', other, there', matching', _⟩
    exact other (single j i de' old k' there' there matching' matching)
  · rw [update_of_ne here, binds k' inum]
    constructor
    · rintro ⟨j, de', there', matching', same⟩
      refine ⟨j, de', ?_, there', matching', same⟩
      rintro rfl
      cases there.symm.trans there'
      exact here (matching'.2.symm.trans matching.2)
    · rintro ⟨j, de', _, there', matching', same⟩
      exact ⟨j, de', there', matching', same⟩

end Keys

section Kind

variable {s : Volume} {ip : Inode} {copies : Nat → Bool}

theorem bmapAddr_type (i : Nat) :
    Meets (bmapAddr ip i) s (fun r _ => r.2.type = ip.type) fun _ => True := by
  unfold bmapAddr
  split
  · refine meets_any.bind fun addr t _ => ?_
    split <;> exact meets_pure.mpr rfl
  · exact meets_pure.mpr rfl

theorem bmap_type (bn : Nat) :
    Meets (bmap ip bn) s (fun r _ => r.2.type = ip.type) fun _ => True := by
  unfold bmap
  split
  · exact bmapAddr_type bn
  · split
    · refine (bmapAddr_type ndirect).bind fun r t same => ?_
      dsimp only
      split
      · exact meets_pure.mpr same
      · refine meets_any.bind fun u t _ => ?_
        split
        · refine meets_any.bind fun addr t _ => ?_
          split
          · exact meets_pure.mpr same
          · exact meets_any.bind fun _ _ _ => meets_any.bind fun _ _ _ => meets_pure.mpr same
        · exact meets_pure.mpr same
    · exact meets_throw.mpr trivial

theorem writeLoop_type (src : List UInt8) (tot off : Nat) :
    Meets (writeLoop copies ip tot off src) s (fun r _ => r.2.2.type = ip.type) fun _ => True := by
  induction left : src.length using Nat.strong_induction_on generalizing src tot off s ip with
  | _ rest ih =>
    rw [writeLoop]
    split
    · exact meets_pure.mpr rfl
    · rename_i more
      refine (bmap_type _).bind fun r t same => ?_
      obtain ⟨addr, ip1⟩ := r
      dsimp only at same ⊢
      split
      · exact meets_pure.mpr same
      · refine meets_any.bind fun u t _ => ?_
        split
        · refine meets_any.bind fun _ t _ => ?_
          have room := Nat.mod_lt off (show 0 < bsize by decide)
          have some := length_pos_of_ne_nil more
          refine (ih _ ?_ _ _ _ rfl).mono (fun r t later => later.trans same) fun _ => id
          rw [length_drop]
          omega
        · exact meets_any.bind fun _ _ _ => meets_pure.mpr same

theorem writei_type (off : Nat) (src : List UInt8) :
    Meets (writei copies ip off src) s (fun r _ => r.2.type = ip.type) fun _ => True := by
  unfold writei
  dsimp only
  split
  · exact meets_pure.mpr rfl
  · split
    · exact meets_pure.mpr rfl
    · refine (writeLoop_type src 0 off).bind fun r t same => ?_
      refine meets_any.bind fun _ _ _ => meets_pure.mpr ?_
      dsimp only
      split <;> exact same

end Kind

section Calls

variable {s : Volume} {dp : Inode} {slots : List Dirent} {de : Dirent} {name : Nat → UInt8}
  {i : Nat} {stops : Panic → Prop}

structure Listed (s : Volume) (dp : Inode) (slots : List Dirent) : Prop where
  holds : Holds s.disk dp.addrs (encode slots)
  long : dp.size = (encode slots).length
  type : dp.type = tDir
  fits : ∀ de ∈ slots, de.Fits

theorem Listed.size (listed : Listed s dp slots) : dp.size = direntSize * slots.length :=
  listed.long.trans (encode_length listed.fits)

theorem Listed.small (listed : Listed s dp slots) :
    direntSize * slots.length ≤ maxfile * bsize := by
  rw [← encode_length listed.fits]
  exact listed.holds.small

theorem Listed.read (listed : Listed s dp slots) (there : slots[i]? = some de) :
    Meets (readi (fun _ => true) dp (direntSize * i) direntSize) s
      (fun r t => r = ((direntSize : Int), de.bytes, dp) ∧ t = s) stops := by
  have inside := (List.getElem?_eq_some_iff.mp there).1
  have few : maxfile * bsize < 2 ^ 31 := by decide
  have small := listed.small
  have plain : direntSize * i + direntSize < 2 ^ 32 := by
    unfold direntSize at *
    omega
  have meets : Meets _ s _ stops := readi_meets (n := direntSize) listed.holds listed.long plain
  rw [encode_get listed.fits there, (listed.fits de (mem_of_getElem? there)).length] at meets
  exact meets

theorem namecmp_eq_zero (s t : Nat → UInt8) : namecmp s t = 0 ↔ entryKey s = entryKey t :=
  strncmp_eq_zero s t dirsiz

section

variable (listed : Listed s dp slots)

include listed

theorem Listed.below : direntSize * i < dp.size ↔ i < slots.length := by
  rw [listed.size]
  unfold direntSize
  omega

theorem dirlookupLoop_meets (fuel : Nat) (enough : slots.length ≤ i + fuel) :
    Meets (dirlookupLoop name fuel (direntSize * i) dp) s
      (fun r t => (r.2 = dp ∧ t = s) ∧ Found slots (entryKey name) i r.1) stops := by
  induction fuel generalizing i with
  | zero =>
    refine meets_pure.mpr ⟨⟨rfl, rfl⟩, .inl ⟨rfl, fun j de later there => ?_⟩⟩
    have inside := (List.getElem?_eq_some_iff.mp there).1
    omega
  | succ fuel ih =>
    rw [dirlookupLoop]
    by_cases inside : i < slots.length
    · have there : slots[i]? = some slots[i] := getElem?_eq_getElem inside
      have skip (other : ¬ slots[i].Matches (entryKey name)) :
          Meets (dirlookupLoop name fuel (direntSize * i + direntSize) dp) s
          (fun r t => (r.2 = dp ∧ t = s) ∧ Found slots (entryKey name) i r.1) stops := by
        refine (ih (i := i + 1) (by omega)).mono (fun r t after => ⟨after.1, ?_⟩) fun _ => id
        refine after.2.imp_left fun missing => ⟨missing.1, fun j de later at_j => ?_⟩
        rcases later.eq_or_lt with rfl | beyond
        · cases there.symm.trans at_j
          exact other
        · exact missing.2 j de beyond at_j
      rw [if_pos (listed.below.mpr inside)]
      refine (listed.read there).bind fun r t after => ?_
      obtain ⟨rfl, rfl⟩ := after
      have decoded := (listed.fits _ (getElem_mem inside)).ofBytes
      dsimp only
      rw [decoded, if_neg (not_not_intro rfl)]
      by_cases empty : slots[i].inum = 0
      · rw [if_pos empty]
        exact skip fun matching => matching.1 empty
      · rw [if_neg empty]
        by_cases equal : namecmp name (bytesAt slots[i].name) = 0
        · rw [if_pos equal]
          have same := (namecmp_eq_zero _ _).mp equal
          exact meets_pure.mpr ⟨⟨rfl, rfl⟩, .inr ⟨i, slots[i], there, ⟨empty, same.symm⟩, rfl⟩⟩
        · rw [if_neg equal]
          exact skip fun matching => equal ((namecmp_eq_zero _ _).mpr matching.2.symm)
    · rw [if_neg fun below => inside (listed.below.mp below)]
      refine meets_pure.mpr ⟨⟨rfl, rfl⟩, .inl ⟨rfl, fun j de later there => ?_⟩⟩
      have below := (List.getElem?_eq_some_iff.mp there).1
      omega

/-- `dirlookup` finds a live entry for the name if there is one, and changes nothing. -/
theorem dirlookup_meets :
    Meets (dirlookup dp name) s
      (fun r t => (r.2 = dp ∧ t = s) ∧ Found slots (entryKey name) 0 r.1) stops := by
  unfold dirlookup
  rw [if_neg (not_not_intro listed.type)]
  refine dirlookupLoop_meets (i := 0) listed dp.size ?_
  rw [listed.size]
  unfold direntSize
  omega

theorem emptyLoop_meets (fuel : Nat) (start : i ≤ slots.length) (enough : slots.length ≤ i + fuel) :
    Meets (emptyLoop fuel (direntSize * i) dp) s (fun r t => (r.2 = dp ∧ t = s) ∧
      ∃ j, r.1 = direntSize * j ∧
      j ≤ slots.length ∧ ∀ de, slots[j]? = some de → de.inum = 0) stops := by
  have last (whole : i = slots.length) (de : Dirent) (there : slots[i]? = some de) :
      de.inum = 0 := by
    have inside := (List.getElem?_eq_some_iff.mp there).1
    omega
  induction fuel generalizing i with
  | zero => exact meets_pure.mpr ⟨⟨rfl, rfl⟩, i, rfl, start, last (by omega)⟩
  | succ fuel ih =>
    rw [emptyLoop]
    by_cases inside : i < slots.length
    · have there : slots[i]? = some slots[i] := getElem?_eq_getElem inside
      rw [if_pos (listed.below.mpr inside)]
      refine (listed.read there).bind fun r t after => ?_
      obtain ⟨rfl, rfl⟩ := after
      have decoded := (listed.fits _ (getElem_mem inside)).ofBytes
      dsimp only
      rw [decoded, if_neg (not_not_intro rfl)]
      by_cases empty : slots[i].inum = 0
      · rw [if_pos empty]
        refine meets_pure.mpr ⟨⟨rfl, rfl⟩, i, rfl, start, fun de same => ?_⟩
        cases there.symm.trans same
        exact empty
      · rw [if_neg empty]
        exact ih (i := i + 1) inside (by omega) fun whole de at_end => by
          have below := (List.getElem?_eq_some_iff.mp at_end).1
          omega
    · rw [if_neg fun below => inside (listed.below.mp below)]
      exact meets_pure.mpr ⟨⟨rfl, rfl⟩, i, rfl, start, last (by omega)⟩

theorem Listed.write (opened : Opened s dp (encode slots)) (inside : 0 < s.outstanding)
    (start : i ≤ slots.length) (bound : direntSize * i + direntSize ≤ maxfile * bsize)
    (new : de.Fits) :
    Meets (writei (fun _ => true) dp (direntSize * i) de.bytes) s (fun r t => 0 < t.outstanding ∧
      (t.complaints = s.complaints → r.1 = direntSize ∧ Listed t r.2 (put slots i de) ∧
        Opened t r.2 (encode (put slots i de)))) stops := by
  have begins : direntSize * i ≤ (encode slots).length := by
    rw [encode_length listed.fits]
    exact Nat.mul_le_mul_left _ start
  have ends : direntSize * i + de.bytes.length ≤ maxfile * bsize := by
    rw [new.length]
    exact bound
  refine ((writei_meets inside opened begins ends).and (writei_type _ _)).mono
    (fun r t after => ?_) fun _ => id
  obtain ⟨⟨k, content, result, opened', stores, written, whole⟩, type⟩ := after
  refine ⟨stores.outstanding ▸ inside, fun quiet => ?_⟩
  have all := whole quiet fun _ _ => rfl
  have exact := written.all
  rw [all, take_length, put_encode listed.fits new] at exact
  subst exact
  rw [result, all, new.length]
  refine ⟨rfl, ?_, opened'⟩
  exact ⟨opened'.holds, opened'.size, type.trans listed.type, put_fits listed.fits new⟩

end

end Calls

section Paths

def slash : UInt8 := 47

/-- `skipelem` on the bytes before the NUL: what it stores of the name, and the rest. -/
def skipelem (path : List UInt8) : Option (List UInt8 × List UInt8) :=
  let s := path.dropWhile (· == slash)
  if s = [] then none
  else
    some ((s.takeWhile (· != slash)).take dirsiz, (s.dropWhile (· != slash)).dropWhile (· == slash))

/-- The names that the loop of `namex` takes from a path in its first rounds. -/
def namexNames : Nat → List UInt8 → List (List UInt8)
  | 0, _ => []
  | rounds + 1, path => (skipelem path).elim [] fun (name, rest) => name :: namexNames rounds rest

def elements (path : List UInt8) : List (List UInt8) := (path.splitOn slash).filter (· ≠ [])

theorem elements_dropWhile (path : List UInt8) :
    elements (path.dropWhile (· == slash)) = elements path := by
  induction path with
  | nil => rfl
  | cons c rest ih =>
    by_cases same : c == slash <;> simp_all [elements, splitOn_cons_eq_if_modifyHead]

theorem elements_of_head (s : List UInt8) (some : s.takeWhile (· != slash) ≠ []) :
    elements s = s.takeWhile (· != slash) :: elements (s.dropWhile (· != slash)) := by
  have plain : slash ∉ s.takeWhile (· != slash) :=
    fun member => by simpa using mem_takeWhile_imp member
  have whole := takeWhile_append_dropWhile (p := (· != slash)) (l := s)
  have first := head?_dropWhile_not (· != slash) s
  generalize s.takeWhile (· != slash) = name at *
  generalize s.dropWhile (· != slash) = rest at *
  subst whole
  cases rest with
  | nil => simp [elements, splitOn_eq_singleton plain, some]
  | cons c rest =>
    obtain rfl : c = slash := by simpa using first
    simp [elements, splitOn_append_cons_self_of_not_mem plain, some, splitOn_cons_eq_if_modifyHead]

/-- `namex` takes a path apart at its slashes, and of each name it looks up the first `DIRSIZ`
bytes. -/
theorem namex_names (rounds : Nat) (path : List UInt8) :
    namexNames rounds path = ((elements path).map (take dirsiz)).take rounds := by
  induction rounds generalizing path with
  | zero => rfl
  | succ rounds ih =>
    rw [namexNames, skipelem, ← elements_dropWhile path]
    have head := head?_dropWhile_not (· == slash) path
    cases found : path.dropWhile (· == slash) with
    | nil => rfl
    | cons c rest =>
      have plain : c ≠ slash := by simpa [found] using head
      rw [if_neg (cons_ne_nil c rest), elements_of_head (c :: rest) (by simp [plain])]
      simp [ih, elements_dropWhile]

end Paths

end EnhancedXv6.FileSystem
