import EnhancedXv6.FileSystem.Contents
import EnhancedXv6.FileSystem.Directory
import EnhancedXv6.Foundation.Run

namespace EnhancedXv6.FileSystem

open Foundation Function List Option

structure Directory where
  vol : Volume
  dp : Inode
  result : Int

inductive DirEvent where
  | link (name : Nat → UInt8) (inum : Nat)
  | unlink (name : Nat → UInt8)

def Directory.perform (d : Directory) : DirEvent → Except Panic Directory
  | .link name inum => (dirlink d.dp name inum d.vol).map fun r => ⟨r.2, r.1.2, r.1.1⟩
  | .unlink name => (unlinkEntry d.dp name d.vol).map fun r => ⟨r.2, r.1.2, r.1.1⟩

def dirStep : Except Panic Directory → DirEvent → Option (Except Panic Directory)
  | .error _, _ => none
  | .ok d, event => some (d.perform event)

section Machine

variable {d : Directory} {slots : List Dirent} {names : List UInt8 → Option Nat}
  {name other : Nat → UInt8} {inum off : Nat} {de : Dirent}

/-- What `dirlookup` returns for a name. -/
def Directory.lookup (d : Directory) (name : Nat → UInt8) : Except Panic (Option (Nat × Nat)) :=
  (dirlookup d.dp name d.vol).map fun r => r.1.1

structure Directory.EntryAt (d : Directory) (off : Nat) (de : Dirent) : Prop where
  fits : de.Fits
  aligned : direntSize ∣ off
  read : readi (fun _ => true) d.dp off direntSize d.vol = .ok ((direntSize, de.bytes, d.dp), d.vol)

structure Directory.Maps (d : Directory) (slots : List Dirent)
    (names : List UInt8 → Option Nat) : Prop where
  listed : Listed d.vol d.dp slots
  opened : Opened d.vol d.dp (encode slots)
  single : Single slots
  binds : Binds slots names
  inside : 0 < d.vol.outstanding

/-- The map after an event: a name that is there is not linked again. -/
def nameMap (names : List UInt8 → Option Nat) : DirEvent → List UInt8 → Option Nat
  | .link name inum =>
    if names (entryKey name) = none then
      Function.update names (entryKey name) (some inum)
    else
      names
  | .unlink name => Function.update names (entryKey name) none

theorem nameMap_link (free : names (entryKey name) = none) :
    nameMap names (.link name inum) = update names (entryKey name) (some inum) :=
  if_pos free

/-- A link of an inode number that an entry has room for, in a directory below its maximal size,
with a free block for each `balloc`. -/
def Smooth : Except Panic Directory → DirEvent → Prop
  | .ok d, .link name inum => (1 ≤ inum ∧ inum ≤ 65535) ∧ d.dp.size < maxfile * bsize ∧
      ∀ next, d.perform (.link name inum) = .ok next → next.vol.complaints = d.vol.complaints
  | _, _ => True

instance decidableSmooth :
    (state : Except Panic Directory) → (event : DirEvent) → Decidable (Smooth state event)
  | .ok d, .link name inum =>
    decidable_of_iff ((1 ≤ inum ∧ inum ≤ 65535) ∧ d.dp.size < maxfile * bsize ∧
        (d.perform (.link name inum)).toOption.all fun next => next.vol.complaints =
          d.vol.complaints) (by
      cases performed : d.perform (.link name inum) with
      | error e => simp [Smooth, performed, Except.toOption]
      | ok next => simp [Smooth, performed, Except.toOption])
  | .ok _, .unlink _ => .isTrue trivial
  | .error _, .link _ _ => .isTrue trivial
  | .error _, .unlink _ => .isTrue trivial

theorem Directory.Maps.lookup (maps : d.Maps slots names) (name : Nat → UInt8) :
    ∃ answer, dirlookup d.dp name d.vol = .ok ((answer, d.dp), d.vol) ∧
      Found slots (entryKey name) 0 answer := by
  have meets : Meets (dirlookup d.dp name) d.vol _ fun _ => False := dirlookup_meets maps.listed
  obtain ⟨⟨answer, dp⟩, vol, ended, ⟨same, unchanged⟩, found⟩ := meets.ends
  cases same
  cases unchanged
  exact ⟨answer, ended, found⟩

theorem Directory.Maps.entryAt (maps : d.Maps slots names) {i : Nat} (there : slots[i]? = some de) :
    d.EntryAt (direntSize * i) de := by
  have meets :
      Meets (readi (fun _ => true) d.dp (direntSize * i) direntSize) d.vol _ fun _ => False :=
    maps.listed.read there
  obtain ⟨_, _, ended, rfl, rfl⟩ := meets.ends
  exact ⟨maps.listed.fits de (mem_of_getElem? there), ⟨i, rfl⟩, ended⟩

theorem Directory.EntryAt.slot (entry : d.EntryAt off de) (maps : d.Maps slots names) :
    ∃ i, off = direntSize * i ∧ slots[i]? = some de := by
  obtain ⟨i, rfl⟩ := entry.aligned
  refine ⟨i, rfl, ?_⟩
  have opened := maps.opened
  cases there : slots[i]? with
  | some other =>
    have also := (maps.entryAt there)
    have same :=
      congrArg (fun r => r.2.1) (Prod.mk.inj (Except.ok.inj (entry.read.symm.trans also.read))).1
    dsimp only at same
    rw [← entry.fits.ofBytes, same, also.fits.ofBytes]
  | none =>
    have beyond : slots.length ≤ i := getElem?_eq_none_iff.mp there
    have size := maps.listed.size
    have past : d.dp.size ≤ direntSize * i := size ▸ Nat.mul_le_mul_left _ beyond
    have few : maxfile * bsize < 2 ^ 31 := by decide
    have small := maps.listed.small
    have short : Meets (readi (fun _ => true) d.dp (direntSize * i) direntSize) d.vol
        (fun r _ => r.1 = 0) fun _ => True := by
      rcases past.lt_or_eq with strict | last
      · unfold readi
        rw [if_pos (.inl strict)]
        exact meets_pure.mpr rfl
      · have plain : direntSize * i + direntSize < 2 ^ 32 := by
          rw [← last, size]
          unfold direntSize at *
          omega
        refine (readi_meets opened.holds opened.size plain).mono (fun r t after => ?_) fun _ => id
        rw [after.1, drop_eq_nil_of_le (by rw [← opened.size, last])]
        rfl
    cases short.result entry.read

theorem Directory.Maps.dirlink_meets (maps : d.Maps slots names) (real : 1 ≤ inum)
    (bounded : inum ≤ 65535) (room : d.dp.size < maxfile * bsize) (name : Nat → UInt8) :
    Meets (dirlink d.dp name inum) d.vol (fun r t =>
      (names (entryKey name) ≠ none → (r, t) = ((-1, d.dp), d.vol)) ∧
      (names (entryKey name) = none → t.complaints = d.vol.complaints →
        r.1 = 0 ∧ ∃ i, i ≤ slots.length ∧ (∀ de, slots[i]? = some de → de.inum = 0) ∧
        Directory.Maps ⟨t, r.2, r.1⟩ (put slots i ⟨inum, entryKey name⟩)
          (update names (entryKey name) (some inum))))
      fun _ => False := by
  unfold dirlink
  refine (dirlookup_meets maps.listed).bind fun r t after => ?_
  obtain ⟨answer, dp⟩ := r
  obtain ⟨⟨rfl, rfl⟩, found⟩ := after
  have bound := found.answer maps.binds
  cases answer with
  | some place =>
    have present : names (entryKey name) ≠ none := by
      rw [← bound]
      exact some_ne_none _
    exact meets_pure.mpr ⟨fun _ => rfl, fun absent => absurd absent present⟩
  | none =>
    have absent : names (entryKey name) = none := bound.symm
    have free : ∀ (j : Nat) (de : Dirent), slots[j]? = some de →
        ¬ de.Matches (entryKey name) := by
      intro j de there matching
      have there' := (maps.binds (entryKey name) de.inum).mpr ⟨j, de, there, matching, rfl⟩
      rw [absent] at there'
      cases there'
    have size := maps.listed.size
    have enough : slots.length ≤ 0 + d.dp.size := by
      rw [size]
      unfold direntSize
      omega
    dsimp only
    refine (emptyLoop_meets (i := 0) maps.listed d.dp.size (Nat.zero_le _) enough).bind
      fun r t after => ?_
    obtain ⟨off, dp⟩ := r
    obtain ⟨⟨rfl, rfl⟩, i, place, start, empty⟩ := after
    dsimp only at place ⊢
    subst place
    have bound : direntSize * i + direntSize ≤ maxfile * bsize := by
      have whole : maxfile * bsize = direntSize * 17152 := by decide
      unfold direntSize at *
      omega
    have new : Dirent.Fits ⟨inum, entryKey name⟩ :=
      ⟨Nat.lt_succ_of_le bounded, strncpy_length name dirsiz⟩
    have only (k : List UInt8) : Dirent.Matches ⟨inum, entryKey name⟩ k ↔ k = entryKey name := by
      unfold Dirent.Matches
      dsimp only
      rw [entryKey_idem, and_iff_right (by omega)]
      exact eq_comm
    refine (maps.listed.write maps.opened maps.inside start bound new).bind fun r t after => ?_
    obtain ⟨inside, written⟩ := after
    split
    · rename_i short
      exact meets_pure.mpr
        ⟨fun present => absurd absent present, fun _ quiet => absurd (written quiet).1 short⟩
    · refine meets_pure.mpr
        ⟨fun present => absurd absent present, fun _ quiet => ⟨rfl, i, start, empty, ?_⟩⟩
      refine ⟨(written quiet).2.1, (written quiet).2.2,
        maps.single.put start fun k matching j de' _ there => ?_,
        maps.binds.link start empty absent only, inside⟩
      rw [(only k).mp matching]
      exact free j de' there

theorem Directory.Maps.link (maps : d.Maps slots names) (real : 1 ≤ inum) (bounded : inum ≤ 65535)
    (room : d.dp.size < maxfile * bsize) (name : Nat → UInt8) :
    ∃ next, d.perform (.link name inum) = .ok next ∧
      (names (entryKey name) ≠ none → next = ⟨d.vol, d.dp, -1⟩) ∧
      (names (entryKey name) = none → next.vol.complaints = d.vol.complaints →
        next.result = 0 ∧ ∃ i, i ≤ slots.length ∧
        (∀ de, slots[i]? = some de → de.inum = 0) ∧
        next.Maps (put slots i ⟨inum, entryKey name⟩)
          (update names (entryKey name) (some inum))) := by
  obtain ⟨r, t, ended, present, absent⟩ := (maps.dirlink_meets real bounded room name).ends
  refine ⟨⟨t, r.2, r.1⟩, ?_, fun there => ?_, absent⟩
  · change (dirlink d.dp name inum d.vol).map _ = _
    rw [ended]
    rfl
  · cases present there
    rfl

theorem Directory.Maps.unlink (maps : d.Maps slots names) (name : Nat → UInt8) :
    ∃ next slots', d.perform (.unlink name) = .ok next ∧
      next.Maps slots' (update names (entryKey name) none) := by
  have meets : Meets (unlinkEntry d.dp name) d.vol (fun r t => ∃ slots',
      Directory.Maps ⟨t, r.2, r.1⟩ slots' (update names (entryKey name) none)) fun _ => False := by
    unfold unlinkEntry
    refine (dirlookup_meets maps.listed).bind fun r t after => ?_
    obtain ⟨answer, dp⟩ := r
    obtain ⟨⟨rfl, rfl⟩, found⟩ := after
    rcases found with ⟨none, free⟩ | ⟨i, old, there, matching, place⟩
    · cases none
      have absent : names (entryKey name) = none := by
        have answered : Found slots (entryKey name) 0 none := .inl ⟨rfl, free⟩
        exact (answered.answer maps.binds).symm
      refine meets_pure.mpr ⟨slots, maps.listed, maps.opened, maps.single, ?_, maps.inside⟩
      rw [← absent, update_eq_self]
      exact maps.binds
    · cases place
      have inside := (List.getElem?_eq_some_iff.mp there).1
      have small := maps.listed.small
      have bound : direntSize * i + direntSize ≤ maxfile * bsize :=
        (Nat.mul_le_mul_left direntSize (Nat.succ_le_of_lt inside)).trans small
      have zero : Dirent.Fits ⟨0, replicate dirsiz 0⟩ := ⟨by decide, length_replicate⟩
      have opened := maps.opened
      have within : direntSize * i < (encode slots).length := by
        rw [encode_length maps.listed.fits]
        exact Nat.mul_lt_mul_of_pos_left inside (by decide)
      -- an entry does not cross a block, and the block is there
      have block : direntSize * i % bsize + direntSize ≤ bsize := by
        unfold direntSize bsize
        omega
      have quiet : Meets
          (writei (fun _ => true) d.dp (direntSize * i)
            (Dirent.bytes ⟨0, replicate dirsiz 0⟩)) d.vol
          (fun _ t => t.complaints = d.vol.complaints) fun _ => True := by
        refine writei_inside maps.inside (opened.holds.block_lt within)
          (opened.holds.mapped _ ?_) ?_ (by decide)
        · exact (Nat.div_mul_le_self _ _).trans_lt within
        · rw [zero.length]
          exact block
      refine ((maps.listed.write maps.opened maps.inside inside.le bound zero).and quiet).bind
        fun r t after => ?_
      obtain ⟨⟨running, written⟩, silent⟩ := after
      obtain ⟨result, listed, opened'⟩ := written silent
      dsimp only
      rw [if_neg (not_not_intro result)]
      refine meets_pure.mpr ⟨_, listed, opened',
        maps.single.put inside.le fun k matching => absurd rfl matching.1,
        maps.binds.unlink maps.single there matching rfl, running⟩
  obtain ⟨r, t, ended, slots', maps'⟩ := meets.ends
  refine ⟨⟨t, r.2, r.1⟩, slots', ?_, maps'⟩
  change (unlinkEntry d.dp name d.vol).map _ = _
  rw [ended]
  rfl

theorem Directory.Maps.perform (maps : d.Maps slots names) (event : DirEvent)
    (smooth : Smooth (.ok d) event) :
    ∃ next slots', d.perform event = .ok next ∧ next.Maps slots' (nameMap names event) := by
  cases event with
  | unlink name => exact maps.unlink name
  | link name inum =>
    obtain ⟨⟨real, bounded⟩, room, quiet⟩ := smooth
    obtain ⟨next, performed, present, absent⟩ := maps.link real bounded room name
    by_cases free : names (entryKey name) = none
    · obtain ⟨_, i, _, _, maps'⟩ := absent free (quiet next performed)
      rw [nameMap_link free]
      exact ⟨next, _, performed, maps'⟩
    · have kept : nameMap names (.link name inum) = names := if_neg free
      rw [kept]
      cases present free
      exact ⟨_, slots, performed, maps.listed, maps.opened, maps.single, maps.binds, maps.inside⟩

theorem Directory.Maps.run (events : List DirEvent) (maps : d.Maps slots names)
    (smooth : Along dirStep Smooth (.ok d) events) :
    ∃ finish slots', exec dirStep (.ok d) events = some (.ok finish) ∧
      finish.Maps slots' (events.foldl nameMap names) := by
  induction events generalizing d slots names with
  | nil => exact ⟨d, slots, rfl, maps⟩
  | cons event rest ih =>
    obtain ⟨next, slots', performed, maps'⟩ := maps.perform event smooth.1
    have taken : dirStep (.ok d) event = some (.ok next) := congrArg some performed
    obtain ⟨finish, slots'', ended, maps''⟩ := ih maps' (smooth.2 _ taken)
    refine ⟨finish, slots'', ?_, maps''⟩
    rw [exec, taken]
    exact ended

section

variable (same : entryKey name = entryKey other)

include same

theorem dirlookup_congr (dp : Inode) : dirlookup dp name = dirlookup dp other := by
  have compare (t : Nat → UInt8) : (namecmp name t = 0) = (namecmp other t = 0) :=
    propext (by rw [namecmp_eq_zero, namecmp_eq_zero, same])
  have loop (fuel : Nat) :
      ∀ off dp, dirlookupLoop name fuel off dp = dirlookupLoop other fuel off dp := by
    induction fuel with
    | zero => exact fun _ _ => rfl
    | succ fuel ih =>
      intro off dp
      rw [dirlookupLoop, dirlookupLoop]
      simp only [compare, ih]
  unfold dirlookup
  rw [loop]

theorem dirlink_congr (dp : Inode) (inum : Nat) : dirlink dp name inum = dirlink dp other inum := by
  unfold dirlink
  rw [dirlookup_congr same, show strncpy name dirsiz = strncpy other dirsiz from same]

theorem unlinkEntry_congr (dp : Inode) : unlinkEntry dp name = unlinkEntry dp other := by
  unfold unlinkEntry
  rw [dirlookup_congr same]

end

theorem Directory.Maps.link_other {next : Directory} (maps : d.Maps slots names)
    (smooth : Smooth (.ok d) (.link name inum)) (performed : d.perform (.link name inum) = .ok next)
    (apart : entryKey other ≠ entryKey name) : next.lookup other = d.lookup other := by
  obtain ⟨⟨real, bounded⟩, room, quiet⟩ := smooth
  obtain ⟨next', performed', present, absent⟩ := maps.link real bounded room name
  cases Except.ok.inj (performed.symm.trans performed')
  by_cases free : names (entryKey name) = none
  · obtain ⟨_, i, start, empty, maps'⟩ := absent free (quiet next performed)
    obtain ⟨answer, ended, found⟩ := maps.lookup other
    obtain ⟨answer', ended', found'⟩ := maps'.lookup other
    have kept : Found (put slots i ⟨inum, entryKey name⟩) (entryKey other) 0 answer := by
      refine found.put start (fun de there matching => matching.1 (empty de there))
        fun matching => ?_
      exact apart (matching.2.symm.trans (entryKey_idem name))
    unfold Directory.lookup
    rw [ended, ended', kept.unique maps'.single found']
    rfl
  · cases present free
    rfl

end Machine

structure Directory.New (d : Directory) : Prop where
  opened : Opened d.vol d.dp []
  type : d.dp.type = tDir
  inside : 0 < d.vol.outstanding

theorem Directory.New.maps {d : Directory} (new : d.New) : d.Maps [] fun _ => none := by
  refine ⟨⟨new.opened.holds, new.opened.size, new.type, fun _ member => absurd member not_mem_nil⟩,
    new.opened, fun i j a b k there => ?_, fun k inum => ?_, new.inside⟩
  · cases there
  · refine iff_of_false (some_ne_none inum).symm ?_
    rintro ⟨j, de, there, _⟩
    cases there

/-- Directories are finite maps on the first 14 bytes of the names. -/
theorem directory_finite_map (d : Directory) (new : d.New) (events : List DirEvent)
    (smooth : Along dirStep Smooth (.ok d) events) :
    ∃ finish, exec dirStep (.ok d) events = some (.ok finish) ∧
      (∀ off off' a b, finish.EntryAt off a → finish.EntryAt off' b → a.inum ≠ 0 → b.inum ≠ 0 →
        namecmp (bytesAt a.name) (bytesAt b.name) = 0 → off = off') ∧
      (∀ name, ∃ answer, finish.lookup name = .ok answer ∧
        answer.map Prod.fst = events.foldl nameMap (fun _ => none) (entryKey name) ∧
        ∀ inum off, answer = some (inum, off) →
          ∃ de, finish.EntryAt off de ∧ de.inum = inum ∧ namecmp name (bytesAt de.name) = 0) ∧
      (∀ name inum, Smooth (.ok finish) (.link name inum) →
        ∃ next, finish.perform (.link name inum) = .ok next ∧
        (next.result = -1 ↔ finish.lookup name ≠ .ok none) ∧ (next.result = -1 ∨ next.result = 0) ∧
        ∀ other, namecmp other name ≠ 0 → next.lookup other = finish.lookup other) ∧
      (∀ name other, (∀ i, i < 14 → name i = other i) → namecmp name other = 0) ∧
      (∀ name other, namecmp name other = 0 → finish.lookup name = finish.lookup other ∧
        (∀ inum, finish.perform (.link name inum) = finish.perform (.link other inum)) ∧
        finish.perform (.unlink name) = finish.perform (.unlink other)) := by
  obtain ⟨finish, slots, ended, maps⟩ := new.maps.run events smooth
  refine ⟨finish, ended, fun off off' a b first second live live' equal => ?_, fun name => ?_,
    fun name inum smooth => ?_, fun name other same => ?_, fun name other equal => ?_⟩
  · obtain ⟨i, rfl, there⟩ := first.slot maps
    obtain ⟨j, rfl, there'⟩ := second.slot maps
    have same := (namecmp_eq_zero _ _).mp equal
    rw [maps.single i j a b _ there there' ⟨live, same⟩ ⟨live', rfl⟩]
  · obtain ⟨answer, returned, found⟩ := maps.lookup name
    refine ⟨answer, ?_, found.answer maps.binds, fun inum off place => ?_⟩
    · unfold Directory.lookup
      rw [returned]
      rfl
    · rcases found with ⟨none, _⟩ | ⟨j, de, there, matching, at_j⟩
      · rw [none] at place
        cases place
      · cases place.symm.trans at_j
        exact ⟨de, maps.entryAt there, rfl, (namecmp_eq_zero _ _).mpr matching.2.symm⟩
  · obtain ⟨answer, returned, found⟩ := maps.lookup name
    have looked : finish.lookup name = .ok answer := by
      unfold Directory.lookup
      rw [returned]
      rfl
    have bound := found.answer maps.binds
    obtain ⟨⟨real, bounded⟩, room, quiet⟩ := id smooth
    obtain ⟨next, performed, present, absent⟩ := maps.link real bounded room name
    refine ⟨next, performed, ?_, ?_, fun other apart => ?_⟩
    · rw [looked]
      cases answer with
      | none =>
        have result := (absent bound.symm (quiet next performed)).1
        rw [result]
        exact iff_of_false (by decide) fun other => other rfl
      | some place =>
        have there : (events.foldl nameMap fun _ => none) (entryKey name) ≠ none := by
          rw [← bound]
          exact some_ne_none _
        rw [present there]
        exact iff_of_true rfl fun same => some_ne_none _ (Except.ok.inj same)
    · by_cases free : (events.foldl nameMap fun _ => none) (entryKey name) = none
      · exact .inr (absent free (quiet next performed)).1
      · rw [present free]
        exact .inl rfl
    · exact maps.link_other smooth performed fun same => apart ((namecmp_eq_zero _ _).mpr same)
  · exact (namecmp_eq_zero _ _).mpr (strncpy_congr same)
  · have same := (namecmp_eq_zero _ _).mp equal
    refine ⟨?_, fun inum => ?_, ?_⟩
    · unfold Directory.lookup
      rw [dirlookup_congr same]
    · change (dirlink _ _ _ _).map _ = (dirlink _ _ _ _).map _
      rw [dirlink_congr same]
    · change (unlinkEntry _ _ _).map _ = (unlinkEntry _ _ _).map _
      rw [unlinkEntry_congr same]

def smallDirectory : Directory where
  vol := smallVolume
  dp := { smallDinode with type := tDir, size := 0, addrs := oneBlock 0, inum := 0 }
  result := 0

theorem smallDirectory_new : smallDirectory.New := by
  have none : oneBlock 0 = fun _ => 0 := funext fun i => ite_self 0
  refine ⟨⟨smallVolume_sound 0 0 (by decide) (.inl rfl), ?_, ?_, rfl⟩, rfl, by decide⟩
  · change Holds _ (oneBlock 0) []
    rw [none]
    exact holds_nil
  · refine ⟨by decide, by decide, by decide, by decide, by decide, fun i => ?_, fun i _ => ?_⟩
    · change oneBlock 0 i < 2 ^ 32
      rw [none]
      exact Nat.two_pow_pos 32
    · exact congrFun none i

def nameA : Nat → UInt8 := bytesAt [97]

def nameB : Nat → UInt8 := bytesAt [98]

/-- An entry is removed and its name is linked again, which takes the same slot. -/
theorem directory_finite_map_relinked : smallDirectory.New ∧
    ∃ finish, exec dirStep (.ok smallDirectory)
        [.link nameA 1, .link nameB 2, .unlink nameA, .link nameA 3] = some (.ok finish) ∧
      finish.lookup nameA = .ok (some (3, 0)) ∧ finish.lookup nameB = .ok (some (2, 16)) ∧
      ∃ de, finish.EntryAt 0 de ∧ de.inum = 3 ∧ namecmp nameA (bytesAt de.name) = 0 := by
  obtain ⟨finish, ended, _, looked, _⟩ := directory_finite_map smallDirectory smallDirectory_new
    [.link nameA 1, .link nameB 2, .unlink nameA, .link nameA 3] (by decide +kernel)
  have computed : ((exec dirStep (.ok smallDirectory)
      [.link nameA 1, .link nameB 2, .unlink nameA, .link nameA 3]).bind fun result =>
        result.toOption.map fun d => ((d.lookup nameA).toOption, (d.lookup nameB).toOption)) =
      some (some (some (3, 0)), some (some (2, 16))) := by decide +kernel
  rw [ended] at computed
  obtain ⟨first, second⟩ := Prod.mk.inj (some.inj computed)
  obtain ⟨answer, returned, _, entry⟩ := looked nameA
  obtain ⟨other, returned', _⟩ := looked nameB
  rw [returned] at first
  rw [returned'] at second
  cases first
  cases second
  exact ⟨smallDirectory_new, finish, ended, returned, returned', entry 3 0 rfl⟩

end EnhancedXv6.FileSystem
