import EnhancedXv6.FileSystem.Reading

namespace EnhancedXv6.FileSystem

open Foundation Function Volume
open List hiding after

variable {s t : Volume} {ip : Inode} {post : Unit → Volume → Prop}

/-- A block of the volume that is marked in the bitmap. -/
def Volume.Taken (s : Volume) (b : Nat) : Prop :=
  b < s.sb.size ∧ marked (s.disk (s.sb.bblock b)) (b % bpb) = true

/-- The bitmap, the block of the inode and the blocks of the file are taken, and they are
different blocks. -/
structure Sound (s : Volume) (inum : Nat) (addrs : Nat → Nat) : Prop where
  small : s.sb.size < 2 ^ 32
  zero : s.Taken 0
  bitmap : ∀ c < s.sb.size, s.Taken (s.sb.bblock c)
  inode : s.Taken (s.sb.iblock inum)
  table : ∀ c < s.sb.size, s.sb.iblock inum ≠ s.sb.bblock c
  used : ∀ b, Uses s.disk addrs b → s.Taken b
  plain : ∀ b, Uses s.disk addrs b → b ≠ s.sb.iblock inum ∧ ∀ c < s.sb.size, b ≠ s.sb.bblock c

theorem Sound.change (sound : Sound s inum addrs) (sb : t.sb = s.sb)
    (taken : ∀ b, s.Taken b → t.Taken b)
    (uses : ∀ b, Uses t.disk addrs' b → Uses s.disk addrs b ∨ t.Taken b ∧ ¬ s.Taken b) :
    Sound t inum addrs' := by
  refine ⟨by rw [sb]; exact sound.small, taken 0 sound.zero, ?_, ?_, ?_, fun b use => ?_,
    fun b use => ?_⟩
  · rw [sb]
    exact fun c inside => taken _ (sound.bitmap c inside)
  · rw [sb]
    exact taken _ sound.inode
  · rw [sb]
    exact sound.table
  · rcases uses b use with old | new
    · exact taken b (sound.used b old)
    · exact new.1
  · rw [sb]
    rcases uses b use with old | new
    · exact sound.plain b old
    · refine ⟨?_, fun c inside => ?_⟩
      · rintro rfl
        exact new.2 sound.inode
      · rintro rfl
        exact new.2 (sound.bitmap c inside)

/-- A file may get blocks that were free, and nothing that is taken by others changes but the
bitmap. -/
structure Grows (s t : Volume) (addrs addrs' : Nat → Nat) : Prop where
  sb : t.sb = s.sb
  taken : ∀ b, s.Taken b → t.Taken b
  uses : ∀ b, Uses t.disk addrs' b → Uses s.disk addrs b ∨ t.Taken b ∧ ¬ s.Taken b
  others : ∀ b, s.Taken b → ¬ Uses s.disk addrs b → (∀ c < s.sb.size, b ≠ s.sb.bblock c) →
    t.disk b = s.disk b

section Grows

variable {s t u : Volume} {addrs addrs' addrs'' : Nat → Nat}

theorem Grows.of_disk (sb : t.sb = s.sb) (disk : t.disk = s.disk) : Grows s t addrs addrs := by
  refine ⟨sb, fun b => ?_, fun b use => .inl (disk ▸ use), fun b _ _ _ => by rw [disk]⟩
  unfold Taken
  rw [sb, disk]
  exact id

theorem Grows.trans (first : Grows s t addrs addrs')
    (second : Grows t u addrs' addrs'') : Grows s u addrs addrs'' where
  sb := second.sb.trans first.sb
  taken b is := second.taken b (first.taken b is)
  uses b use := by
    rcases second.uses b use with old | ⟨is, new⟩
    · exact (first.uses b old).imp_right fun both => ⟨second.taken b both.1, both.2⟩
    · exact .inr ⟨is, fun before => new (first.taken b before)⟩
  others b is unused plain := by
    have still : ¬ Uses t.disk addrs' b :=
      fun use => (first.uses b use).elim unused fun new => new.2 is
    rw [second.others b (first.taken b is) still (by rw [first.sb]; exact plain),
      first.others b is unused plain]

theorem Sound.grows (sound : Sound s inum addrs) (grows : Grows s t addrs addrs') :
    Sound t inum addrs' :=
  sound.change grows.sb grows.taken grows.uses

end Grows

/-- What `balloc` does with the block it finds. -/
def Volume.allocated (s : Volume) (b : Nat) : Volume :=
  (s.write (s.sb.bblock b) (mark (s.disk (s.sb.bblock b)) (b % bpb))).write b zeroes

theorem meets_logWrite (inside : 0 < s.outstanding)
    (result : post () (s.write b data)) : Meets (logWrite b data) s post stops := by
  unfold logWrite
  rw [meets_bind, meets_get, if_neg (by omega), meets_set]
  exact result

theorem balloc_meets (inside : 0 < s.outstanding) {post : Nat → Volume → Prop}
    (full : post 0 { s with complaints := s.complaints + 1 })
    (found : ∀ b < s.sb.size, ¬ s.Taken b → post b (s.allocated b)) :
    Meets balloc s post stops := by
  unfold balloc
  rw [meets_bind, meets_get]
  cases first : (range s.sb.size).find? fun b => !marked (s.disk (s.sb.bblock b)) (b % bpb) with
  | none =>
    simp only
    rw [meets_bind, meets_set]
    exact meets_pure.mpr full
  | some b =>
    have small := mem_range.mp (mem_of_find?_eq_some first)
    have unmarked := find?_some first
    simp only
    rw [meets_bind]
    refine meets_logWrite inside ?_
    rw [meets_bind]
    refine meets_logWrite inside (meets_pure.mpr (found b small fun taken => ?_))
    rw [taken.2] at unmarked
    cases unmarked

theorem Sound.fresh (sound : Sound s inum addrs) (small : b < s.sb.size) (free : ¬ s.Taken b) :
    Fresh s.disk addrs b where
  ne_zero := by
    rintro rfl
    exact free sound.zero
  unused use := free (sound.used b use)
  bounded := small.trans sound.small

theorem Volume.allocated_self (s : Volume) (b : Nat) : (s.allocated b).disk b = zeroes :=
  update_self _ _ _

/-- What is taken is neither the new block nor, but for the bitmap, written. -/
theorem Volume.allocated_other (small : b < s.sb.size) (free : ¬ s.Taken b) (taken : s.Taken x)
    (plain : ∀ c < s.sb.size, x ≠ s.sb.bblock c) : (s.allocated b).disk x = s.disk x := by
  have other : x ≠ b := by
    rintro rfl
    exact free taken
  exact (update_of_ne other _ _).trans (update_of_ne (plain b small) _ _)

theorem Sound.allocated_used (sound : Sound s inum addrs) (small : b < s.sb.size)
    (free : ¬ s.Taken b) (x : Nat)
    (use : Uses s.disk addrs x) : (s.allocated b).disk x = s.disk x :=
  allocated_other small free (sound.used x use) (sound.plain x use).2

theorem Sound.allocated_taken (sound : Sound s inum addrs) (small : b < s.sb.size)
    (free : ¬ s.Taken b) : (s.allocated b).Taken b ∧ ∀ x, s.Taken x → (s.allocated b).Taken x := by
  have bits : ∀ x < s.sb.size, (s.allocated b).disk (s.sb.bblock x) =
      if s.sb.bblock x = s.sb.bblock b then
        mark (s.disk (s.sb.bblock b)) (b % bpb)
      else
        s.disk (s.sb.bblock x) := by
    intro x inside
    have apart : s.sb.bblock x ≠ b := by
      intro same
      exact free (same ▸ sound.bitmap x inside)
    unfold allocated write
    simp only
    rw [update_of_ne apart]
    by_cases here : s.sb.bblock x = s.sb.bblock b
    · rw [if_pos here, here, update_self]
    · rw [if_neg here, update_of_ne here]
  constructor
  · refine ⟨small, ?_⟩
    change marked ((s.allocated b).disk (s.sb.bblock b)) _ = true
    rw [bits b small, if_pos rfl, marked_mark]
    simp
  · rintro x ⟨inside, set⟩
    refine ⟨inside, ?_⟩
    change marked ((s.allocated b).disk (s.sb.bblock x)) _ = true
    rw [bits x inside]
    split
    · rename_i here
      rw [marked_mark, ← here, set, Bool.or_true]
    · exact set

/-- A block that the file did not have becomes one of its blocks. -/
theorem Sound.allocated_grows (sound : Sound s inum addrs) (small : b < s.sb.size)
    (free : ¬ s.Taken b)
    (uses : ∀ x, Uses (s.allocated b).disk addrs' x → Uses s.disk addrs x ∨ x = b) :
    Grows s (s.allocated b) addrs addrs' := by
  obtain ⟨new, old⟩ := sound.allocated_taken small free
  refine ⟨rfl, old, fun x use => ?_, fun x taken _ plain => allocated_other small free taken plain⟩
  rcases uses x use with before | rfl
  · exact .inl before
  · exact .inr ⟨new, free⟩

theorem Sound.write_grows (sound : Sound s inum addrs) (use : Uses s.disk addrs w)
    (sb : t.sb = s.sb) (disk : t.disk = update s.disk w data)
    (uses : ∀ x, Uses t.disk addrs x → Uses s.disk addrs x ∨ t.Taken x ∧ ¬ s.Taken x) :
    Grows s t addrs addrs := by
  refine ⟨sb, fun x taken => ⟨sb ▸ taken.1, ?_⟩, uses, fun x _ unused _ => ?_⟩
  · rw [sb, disk, update_of_ne ((sound.plain w use).2 x taken.1).symm]
    exact taken.2
  · rw [disk, update_of_ne]
    rintro rfl
    exact unused use

/-- What a step of a write keeps: the volume is sound and the file holds these bytes. -/
structure Keeps (s t : Volume) (ip ip' : Inode) (bytes : List UInt8) : Prop where
  grows : Grows s t ip.addrs ip'.addrs
  outstanding : t.outstanding = s.outstanding
  complaints : s.complaints ≤ t.complaints
  sound : Sound t ip'.inum ip'.addrs
  holds : Holds t.disk ip'.addrs bytes
  fits : ip'.toDinode.Fits
  size : ip'.size = ip.size
  inum : ip'.inum = ip.inum

theorem Keeps.trans (first : Keeps s t ip ip' bytes)
    (second : Keeps t u ip' ip'' more) : Keeps s u ip ip'' more where
  grows := first.grows.trans second.grows
  outstanding := second.outstanding.trans first.outstanding
  complaints := first.complaints.trans second.complaints
  sound := second.sound
  holds := second.holds
  fits := second.fits
  size := second.size.trans first.size
  inum := second.inum.trans first.inum

theorem Keeps.of_disk (sound : Sound s ip.inum ip.addrs) (holds : Holds s.disk ip.addrs bytes)
    (fits : ip.toDinode.Fits) (sb : t.sb = s.sb) (disk : t.disk = s.disk)
    (outstanding : t.outstanding = s.outstanding)
    (complaints : s.complaints ≤ t.complaints) : Keeps s t ip ip bytes :=
  ⟨.of_disk sb disk, outstanding, complaints, sound.grows (.of_disk sb disk), disk ▸ holds,
    fits, rfl, rfl⟩

theorem bmapAddr_meets (inside : 0 < s.outstanding) (sound : Sound s ip.inum ip.addrs)
    (holds : Holds s.disk ip.addrs bytes) (fits : ip.toDinode.Fits) (low : i ≤ ndirect) :
    Meets (bmapAddr ip i) s (fun r t => Keeps s t ip r.2 bytes ∧
      (ip.addrs i ≠ 0 → t = s ∧ r.2 = ip) ∧
      (r.1 = 0 ∧ s.complaints < t.complaints ∨ r.1 ≠ 0 ∧ r.1 = r.2.addrs i)) stops := by
  unfold bmapAddr
  by_cases none : ip.addrs i = 0
  · rw [if_pos none, meets_bind]
    refine balloc_meets inside ?_ fun b small free => ?_
    · simp only [if_true]
      exact meets_pure.mpr ⟨.of_disk sound holds fits rfl rfl rfl (Nat.le_succ _),
        fun found => absurd none found, .inl ⟨rfl, Nat.lt_succ_self _⟩⟩
    · have fresh := sound.fresh small free
      have zero := s.allocated_self b
      have same := sound.allocated_used small free
      have kept : ip.addrs ndirect ≠ 0 →
          (s.allocated b).disk (ip.addrs ndirect) = s.disk (ip.addrs ndirect) :=
        fun table => same _ (uses_indirect table)
      have uses : ∀ x, Uses (s.allocated b).disk (update ip.addrs i b) x →
          Uses s.disk ip.addrs x ∨ x = b := by
        intro x use
        rcases Nat.lt_or_eq_of_le low with direct | rfl
        · exact (uses_direct direct use).imp_left (uses_congr kept).mp
        · exact uses_empty none zero use
      have grows := sound.allocated_grows small free uses
      rw [if_neg fresh.ne_zero]
      refine meets_pure.mpr
        ⟨⟨grows, rfl, le_rfl, sound.grows grows, ?_, fits.addr low fresh.bounded, rfl, rfl⟩,
        fun found => absurd none found, .inr ⟨fresh.ne_zero, by simp⟩⟩
      rcases Nat.lt_or_eq_of_le low with direct | rfl
      · exact holds.direct direct none fresh same
      · exact holds.empty none fresh zero same
  · rw [if_neg none]
    exact meets_pure.mpr
      ⟨.of_disk sound holds fits rfl rfl rfl le_rfl, fun _ => ⟨rfl, rfl⟩, .inr ⟨none, rfl⟩⟩

theorem Sound.enter (sound : Sound s inum addrs) (holds : Holds s.disk addrs bytes)
    (table : addrs ndirect ≠ 0) (outside : ¬ n < ndirect) (unset : entry s.disk addrs n = 0)
    (small : b < s.sb.size) (free : ¬ s.Taken b)
    (t : Volume) (written : t = (s.allocated b).write (addrs ndirect)
      (store (s.disk (addrs ndirect)) (4 * (n - ndirect)) 4 b)) :
    Grows s t addrs addrs ∧ Holds t.disk addrs bytes ∧ entry t.disk addrs n = b := by
  have fresh := sound.fresh small free
  have taken := sound.allocated_taken small free
  have plain := (sound.plain _ (uses_indirect table)).2
  have stored :
      t.disk (addrs ndirect) = store (s.disk (addrs ndirect)) (4 * (n - ndirect)) 4 b := by
    rw [written]
    exact update_self _ _ _
  have elsewhere (x : Nat) (other : x ≠ addrs ndirect) : t.disk x = (s.allocated b).disk x := by
    rw [written]
    exact update_of_ne other _ _
  have marks (x : Nat) (is : (s.allocated b).Taken x) : t.Taken x := by
    have sb : t.sb = s.sb := by
      rw [written]
      rfl
    refine ⟨by rw [sb]; exact is.1, ?_⟩
    rw [sb, elsewhere _ (plain x is.1).symm]
    exact is.2
  refine ⟨⟨by rw [written]; rfl, fun x is => marks x (taken.2 x is), fun x use => ?_,
    fun x is unused bitmap => ?_⟩,
    holds.indirect table outside unset fresh stored fun x use other =>
      (elsewhere x other).trans (sound.allocated_used small free x use), ?_⟩
  · rcases uses_store table outside fresh.bounded stored use with old | rfl
    · exact .inl old
    · exact .inr ⟨marks x taken.1, free⟩
  · rw [elsewhere x fun same => unused (same ▸ uses_indirect table),
      allocated_other small free is bitmap]
  · have placed := entry_store table outside fresh.bounded stored n
    rwa [if_pos rfl] at placed

/-- `bmap` inside a transaction: it returns the address of the block, or the block had none and
there was no free block. -/
theorem bmap_meets (inside : 0 < s.outstanding) (sound : Sound s ip.inum ip.addrs)
    (holds : Holds s.disk ip.addrs bytes) (fits : ip.toDinode.Fits) (block : n < maxfile) :
    Meets (bmap ip n) s (fun r t => Keeps s t ip r.2 bytes ∧
      (r.1 = 0 ∧ s.complaints < t.complaints ∧ entry s.disk ip.addrs n = 0 ∨
        r.1 ≠ 0 ∧ r.1 = entry t.disk r.2.addrs n)) stops := by
  by_cases found : entry s.disk ip.addrs n = 0
  · unfold bmap
    by_cases direct : n < ndirect
    · rw [if_pos direct]
      refine (bmapAddr_meets inside sound holds fits direct.le).mono
        (fun r t ⟨keeps, _, after⟩ => ⟨keeps, ?_⟩)
        fun _ => id
      have there : entry t.disk r.2.addrs n = r.2.addrs n := if_pos direct
      rw [there]
      exact after.imp_left fun refused => ⟨refused.1, refused.2, found⟩
    · have within : n - ndirect < nindirect := by
        unfold maxfile at block
        omega
      rw [if_neg direct, if_pos within]
      refine (bmapAddr_meets inside sound holds fits le_rfl).bind fun r t ⟨keeps, _, first⟩ => ?_
      obtain ⟨table, ip1⟩ := r
      simp only
      rcases first with ⟨none, complained⟩ | ⟨real, same⟩
      · rw [if_pos none]
        exact meets_pure.mpr ⟨keeps, .inl ⟨rfl, complained, found⟩⟩
      · simp only at real same keeps
        subst same
        rw [if_neg real, meets_bind, meets_get]
        have there :
            entry t.disk ip1.addrs n = load (t.disk (ip1.addrs ndirect)) (4 * (n - ndirect)) 4 :=
          (if_neg direct).trans (if_neg real)
        by_cases unset : load (t.disk (ip1.addrs ndirect)) (4 * (n - ndirect)) 4 = 0
        · rw [if_pos unset, meets_bind]
          have inside1 : 0 < t.outstanding := keeps.outstanding ▸ inside
          refine balloc_meets inside1 ?_ fun b small free => ?_
          · simp only [if_true]
            have full : Keeps t { t with complaints := t.complaints + 1 } ip1 ip1 bytes :=
              .of_disk keeps.sound keeps.holds keeps.fits rfl rfl rfl (Nat.le_succ _)
            exact meets_pure.mpr
              ⟨keeps.trans full, .inl ⟨rfl, Nat.lt_succ_of_le keeps.complaints, found⟩⟩
          · have fresh := keeps.sound.fresh small free
            have table := keeps.sound.allocated_used small free _ (uses_indirect real)
            obtain ⟨grows, holds', entered⟩ :=
              keeps.sound.enter keeps.holds real direct (there.trans unset) small free _ rfl
            rw [if_neg fresh.ne_zero, meets_bind, meets_get, meets_bind, table]
            refine meets_logWrite inside1 (meets_pure.mpr ?_)
            exact ⟨keeps.trans
              ⟨grows, rfl, le_rfl, keeps.sound.grows grows, holds', keeps.fits, rfl, rfl⟩,
              .inr ⟨fresh.ne_zero, entered.symm⟩⟩
        · rw [if_neg unset, ← there]
          exact meets_pure.mpr ⟨keeps, .inr ⟨there.trans_ne unset, rfl⟩⟩
  · exact meets_bmap block found ⟨.of_disk sound holds fits rfl rfl rfl le_rfl, .inr ⟨found, rfl⟩⟩

section Write

variable {copies : Nat → Bool} {tot off m k : Nat} {src bytes after : List UInt8}

/-- The bytes of a block of the file that are read before a byte for the same block cannot be read
are those that the file has there. -/
def Calm (copies : Nat → Bool) (tot off : Nat) (src bytes : List UInt8) : Prop :=
  ∀ i j, i < j → j < src.length → (off + i) / bsize = (off + j) / bsize →
    (∀ l, l < j → copies (tot + l) = true) → copies (tot + j) = false → off + i < bytes.length →
    src[i]? = bytes[off + i]?

/-- What the loop of `writei` leaves after it has reported `k` bytes. -/
structure Written (copies : Nat → Bool) (tot off : Nat) (src bytes : List UInt8) (k : Nat)
    (after : List UInt8) : Prop where
  few : k ≤ src.length
  length : after.length = max bytes.length (off + k)
  exact : after = splice bytes off (src.take k) ↔ Calm copies tot off src bytes

theorem copied_le : copied copies tot m ≤ m := by
  induction m generalizing tot with
  | zero => exact le_rfl
  | succ m ih =>
    rw [copied]
    split
    · exact Nat.succ_le_succ ih
    · exact Nat.zero_le _

theorem copied_true (below : k < copied copies tot m) : copies (tot + k) = true := by
  induction m generalizing tot k with
  | zero => exact absurd below (Nat.not_lt_zero k)
  | succ m ih =>
    rw [copied] at below
    split at below
    · rename_i first
      cases k with
      | zero => exact first
      | succ k =>
        rw [← Nat.add_assoc, Nat.add_right_comm]
        exact ih (Nat.lt_of_succ_lt_succ below)
    · exact absurd below (Nat.not_lt_zero k)

theorem copied_false (short : copied copies tot m < m) :
    copies (tot + copied copies tot m) = false := by
  induction m generalizing tot with
  | zero => exact absurd short (Nat.not_lt_zero _)
  | succ m ih =>
    rw [copied] at short ⊢
    split at short
    · rename_i first
      rw [if_pos first, ← Nat.add_assoc, Nat.add_right_comm]
      exact ih (Nat.lt_of_succ_lt_succ short)
    · rename_i first
      rw [if_neg first]
      exact Bool.eq_false_of_not_eq_true first

theorem copied_eq (all : ∀ i, i < m → copies (tot + i) = true) : copied copies tot m = m := by
  by_contra short
  have below := Nat.lt_of_le_of_ne copied_le short
  have first := copied_false below
  rw [all _ below] at first
  cases first

theorem Holds.take {disk : Disk} (holds : Holds disk addrs bytes) (n : Nat) :
    Holds disk addrs (bytes.take n) := by
  have length : (bytes.take n).length ≤ bytes.length := length_take_le' n bytes
  refine ⟨holds.laid, length.trans holds.small,
    fun k below => holds.mapped k (below.trans_le length), fun k inside => ?_⟩
  rw [getElem_take]
  exact holds.byte k (inside.trans_le length)

/-- A chunk is written as a whole; only what comes after it matters. -/
theorem calm_drop (start : off ≤ bytes.length) (chunk : m = min src.length (bsize - off % bsize))
    (all : ∀ l, l < m → copies (tot + l) = true) :
    Calm copies (tot + m) (off + m) (src.drop m) (splice bytes off (src.take m)) ↔
      Calm copies tot off src bytes := by
  have length : (src.take m).length = m := by
    rw [length_take]
    omega
  have grown := length_splice start (src.take m)
  have byte (i : Nat) : (splice bytes off (src.take m))[off + m + i]? = bytes[off + m + i]? := by
    rw [getElem_splice start, if_neg (by omega)]
  constructor
  · intro calm i j less inside block before refused below
    have late : m ≤ j := by
      by_contra early
      rw [all j (by omega)] at refused
      cases refused
    have same : m ≤ i := by
      unfold bsize at chunk block
      omega
    obtain ⟨i, rfl⟩ := Nat.exists_eq_add_of_le same
    obtain ⟨j, rfl⟩ := Nat.exists_eq_add_of_le late
    have there := calm i j (by omega) (by rw [length_drop]; omega)
      (by rw [Nat.add_assoc, Nat.add_assoc]; exact block)
      (fun l less => by rw [Nat.add_assoc]; exact before (m + l) (by omega))
      (by rw [Nat.add_assoc]; exact refused)
      (by omega)
    rwa [byte, getElem?_drop, Nat.add_assoc] at there
  · intro calm i j less inside block before refused below
    rw [length_drop] at inside
    have there :=
      calm (m + i) (m + j) (by omega) (by omega)
        (by rw [← Nat.add_assoc, ← Nat.add_assoc]; exact block)
      (fun l less => ?_) (by rw [← Nat.add_assoc]; exact refused) (by omega)
    · rw [byte, getElem?_drop, there, Nat.add_assoc]
    · by_cases first : l < m
      · exact all l first
      · obtain ⟨l, rfl⟩ := Nat.exists_eq_add_of_le (Nat.le_of_not_lt first)
        rw [← Nat.add_assoc]
        exact before l (by omega)

/-- The chunk that is not read to its end is in the file as far as it was read, and nothing of it is
reported. -/
theorem written_torn (start : off ≤ bytes.length) (chunk : m = min src.length (bsize - off % bsize))
    (short : copied copies tot m < m) :
    Written copies tot off src bytes 0
      ((splice bytes off (src.take (copied copies tot m))).take bytes.length) := by
  have refused := copied_false short
  have before (l : Nat) (less : l < copied copies tot m) := copied_true less
  generalize copied copies tot m = n at *
  have length : (src.take n).length = n := by
    rw [length_take]
    omega
  have grown := length_splice start (src.take n)
  have byte (x : Nat) (below : x < bytes.length) :
      ((splice bytes off (src.take n)).take bytes.length)[x]? =
      if off ≤ x ∧ x < off + n then src[x - off]? else bytes[x]? := by
    rw [getElem?_take_of_lt below, getElem_splice start, length]
    split
    · rw [getElem?_take_of_lt (by omega)]
    · rfl
  refine ⟨Nat.zero_le _, by rw [length_take]; omega, ?_⟩
  rw [take_zero, splice_nil]
  constructor
  · intro same i j less inside block earlier stopped below
    have last : j = n := by
      rcases Nat.lt_trichotomy j n with early | same | late
      · rw [before j early] at stopped
        cases stopped
      · exact same
      · rw [earlier n late] at refused
        cases refused
    have there := byte (off + i) below
    rw [same, if_pos (by omega), Nat.add_sub_cancel_left] at there
    exact there.symm
  · intro calm
    refine ext_getElem? fun x => ?_
    by_cases below : x < bytes.length
    · rw [byte x below]
      split
      · rename_i inside
        obtain ⟨i, rfl⟩ := Nat.exists_eq_add_of_le inside.1
        rw [Nat.add_sub_cancel_left]
        refine calm i n (by omega) (by omega) ?_ before refused below
        unfold bsize at chunk ⊢
        omega
      · rfl
    · rw [getElem?_eq_none (by rw [length_take]; omega), getElem?_eq_none (by omega)]

/-- A part of the source is written to a block of the file. -/
theorem Keeps.writeBlock {u : Volume} {ip1 : Inode} {bytes src : List UInt8} {addr n : Nat}
    (keeps : Keeps s t ip ip1 bytes) (start : off ≤ bytes.length) (block : off / bsize < maxfile)
    (nonzero : addr ≠ 0) (same : addr = entry t.disk ip1.addrs (off / bsize))
    (few : n ≤ min src.length (bsize - off % bsize)) (sb : u.sb = t.sb)
    (outstanding : u.outstanding = t.outstanding) (complaints : u.complaints = t.complaints)
    (disk :
      u.disk = update t.disk addr (copy (t.disk addr) (off % bsize) n fun i => src.getD i 0)) :
    Keeps t u ip1 ip1 (splice bytes off (src.take n)) := by
  have use : Uses t.disk ip1.addrs addr := same ▸ uses_entry block (same ▸ nonzero)
  have other : addr ≠ ip1.addrs ndirect := same ▸ keeps.holds.laid.apart _ block (same ▸ nonzero)
  have length : (src.take n).length = n := by
    rw [length_take]
    omega
  rw [copy_take _ _ (by omega)] at disk
  have grows : Grows t u ip1.addrs ip1.addrs :=
    keeps.sound.write_grows use sb disk fun x used => .inl <| by
    refine (uses_congr fun _ => ?_).mp used
    rw [disk, update_of_ne other.symm]
  refine ⟨grows, outstanding, complaints.ge, keeps.sound.grows grows, ?_, keeps.fits, rfl, rfl⟩
  refine keeps.holds.write start (by unfold bsize at *; omega) block (same ▸ nonzero) ?_
    fun x _ different => ?_
  · rw [disk, ← same, update_self]
  · rw [disk, update_of_ne (same ▸ different)]

/-- A whole chunk, and what is written of the rest of the source. -/
theorem Written.cons {bytes src after : List UInt8} {m k : Nat}
    (written :
      Written copies (tot + m) (off + m) (src.drop m) (splice bytes off (src.take m)) k after)
    (start : off ≤ bytes.length) (chunk : m = min src.length (bsize - off % bsize))
    (readable : ∀ l, l < m → copies (tot + l) = true) :
    Written copies tot off src bytes (m + k) after := by
  have length : (src.take m).length = m := by
    rw [length_take]
    omega
  have grown := length_splice start (src.take m)
  have few := written.few
  rw [length_drop] at few
  have joined : splice (splice bytes off (src.take m)) (off + m) ((src.drop m).take k) =
      splice bytes off (src.take (m + k)) := by
    have twice := splice_splice start (src.take m) ((src.drop m).take k)
    rw [length] at twice
    rw [twice, ← take_add]
  refine ⟨by omega, ?_, ?_⟩
  · rw [written.length]
    omega
  · rw [← calm_drop start chunk readable, ← written.exact, joined]

theorem writeLoop_meets (src : List UInt8) {bytes : List UInt8} (inside : 0 < s.outstanding)
    (sound : Sound s ip.inum ip.addrs) (holds : Holds s.disk ip.addrs bytes)
    (fits : ip.toDinode.Fits)
    (start : off ≤ bytes.length) (bound : off + src.length ≤ maxfile * bsize) :
    Meets (writeLoop copies ip tot off src) s (fun r t => ∃ k after, r.1 = tot + k ∧
      r.2.1 = off + k ∧
      Keeps s t ip r.2.2 after ∧ Written copies tot off src bytes k after ∧
      (t.complaints = s.complaints → (∀ i, i < src.length → copies (tot + i) = true) →
        k = src.length)) stops := by
  induction size : src.length using Nat.strong_induction_on generalizing src s ip bytes off tot with
  | _ n ih =>
    rw [writeLoop]
    by_cases none : src = []
    · rw [if_pos none]
      subst none
      refine meets_pure.mpr ⟨0, bytes, rfl, rfl, .of_disk sound holds fits rfl rfl rfl le_rfl,
        ⟨le_rfl, (max_eq_left start).symm, ?_⟩, fun _ _ => size⟩
      exact iff_of_true splice_nil.symm fun i j _ inside => absurd inside (Nat.not_lt_zero j)
    have positive := length_pos_of_ne_nil none
    have block : off / bsize < maxfile := by
      unfold bsize at *
      omega
    rw [if_neg none]
    refine (bmap_meets inside sound holds fits block).bind fun r t after => ?_
    obtain ⟨keeps, found⟩ := after
    obtain ⟨addr, ip1⟩ := r
    simp only at keeps found ⊢
    rcases found with ⟨full, complained, missing⟩ | ⟨nonzero, same⟩
    · rw [if_pos full]
      refine meets_pure.mpr ⟨0, bytes, rfl, rfl, keeps,
        ⟨Nat.zero_le _, (max_eq_left start).symm, ?_⟩, fun quiet => absurd quiet (by omega)⟩
      -- a block below the end of the file would have an address
      refine iff_of_true (by rw [take_zero, splice_nil]) fun i j _ _ _ _ _ below => ?_
      exact absurd missing (holds.mapped _ (by unfold bsize; omega))
    rw [if_neg nonzero, meets_bind, meets_get]
    have inside1 : 0 < t.outstanding := keeps.outstanding ▸ inside
    generalize chunk : min src.length (bsize - off % bsize) = m at *
    by_cases all : copied copies tot m = m
    · rw [if_pos all, meets_bind, all]
      refine meets_logWrite inside1 ?_
      have readable (l : Nat) (less : l < m) : copies (tot + l) = true :=
        copied_true (all.symm ▸ less)
      have wrote :=
        keeps.writeBlock (u := t.write addr _) start block nonzero same chunk.ge rfl rfl rfl rfl
      have length : (src.take m).length = m := by
        rw [length_take]
        omega
      have grown := length_splice start (src.take m)
      have some : 0 < m := by
        unfold bsize at chunk
        omega
      refine (ih (src.drop m).length (by rw [length_drop]; omega) (src.drop m)
        (show 0 < (t.write addr _).outstanding from inside1) wrote.sound wrote.holds
        wrote.fits (by omega) (by rw [length_drop]; omega) rfl).mono ?_ fun _ => id
      rintro ⟨tot', off', ip2⟩ u ⟨k, after, total, offset, later, written, quiet⟩
      have joined := written.cons start chunk.symm readable
      have few := joined.few
      rw [length_drop] at quiet
      simp only at total offset
      refine ⟨m + k, after, total.trans (Nat.add_assoc _ _ _), offset.trans (Nat.add_assoc _ _ _),
        keeps.trans (wrote.trans later), joined, fun still copies => ?_⟩
      have first := keeps.complaints
      have mid := wrote.complaints
      have last := later.complaints
      have rest := quiet (by omega) fun i inside => by rw [Nat.add_assoc]; exact copies _ (by omega)
      omega
    · have short := Nat.lt_of_le_of_ne copied_le all
      rw [if_neg all, meets_bind, meets_set, meets_pure]
      have wrote :=
        keeps.writeBlock (u := t.spoil addr _) start block nonzero same
          (short.le.trans chunk.ge) rfl rfl rfl rfl
      refine ⟨0, _, rfl, rfl, keeps.trans { wrote with holds := wrote.holds.take bytes.length },
        written_torn start chunk.symm short, fun _ copies => ?_⟩
      exact absurd (copied_eq fun i less => copies i (by omega)) all

end Write

/-- An open file between two operations: its inode says where its bytes are. -/
structure Opened (s : Volume) (ip : Inode) (bytes : List UInt8) : Prop where
  sound : Sound s ip.inum ip.addrs
  holds : Holds s.disk ip.addrs bytes
  fits : ip.toDinode.Fits
  size : ip.size = bytes.length

def Volume.updated (s : Volume) (ip : Inode) : Volume :=
  s.write (s.sb.iblock ip.inum)
    (putDinode (s.disk (s.sb.iblock ip.inum)) (ip.inum % ipb) ip.toDinode)

theorem Opened.updated (opened : Opened s ip bytes) :
    Opened (s.updated ip) ip bytes ∧ (∀ b, s.Taken b → (s.updated ip).Taken b) ∧
      ∀ b, Uses (s.updated ip).disk ip.addrs b ↔ Uses s.disk ip.addrs b := by
  have sound := opened.sound
  have other (x : Nat) (apart : x ≠ s.sb.iblock ip.inum) : (s.updated ip).disk x = s.disk x :=
    update_of_ne apart _ _
  have taken (b : Nat) (is : s.Taken b) : (s.updated ip).Taken b := by
    refine ⟨is.1, ?_⟩
    change marked ((s.updated ip).disk (s.sb.bblock b)) _ = true
    rw [other _ (sound.table b is.1).symm]
    exact is.2
  have uses (b : Nat) : Uses (s.updated ip).disk ip.addrs b ↔ Uses s.disk ip.addrs b :=
    uses_congr fun found => other _ (sound.plain _ (uses_indirect found)).1
  refine ⟨⟨sound.change rfl taken fun b use => .inl ((uses b).mp use), ?_, opened.fits,
    opened.size⟩, taken, uses⟩
  exact opened.holds.congr fun x use => other x (sound.plain x use).1

theorem meets_iupdate (inside : 0 < s.outstanding)
    (result : post () (s.updated ip)) : Meets (iupdate ip) s post stops := by
  unfold iupdate
  rw [meets_bind, meets_get]
  exact meets_logWrite inside result

/-- What `writei` does to the volume: the file may get free blocks, its inode is written, and what
is taken by others stays but for the bitmap. -/
structure Stores (s t : Volume) (ip ip' : Inode) : Prop where
  sb : t.sb = s.sb
  outstanding : t.outstanding = s.outstanding
  complaints : s.complaints ≤ t.complaints
  inum : ip'.inum = ip.inum
  taken : ∀ b, s.Taken b → t.Taken b
  uses : ∀ b, Uses t.disk ip'.addrs b → Uses s.disk ip.addrs b ∨ t.Taken b ∧ ¬ s.Taken b
  inode : t.disk (s.sb.iblock ip.inum) =
    putDinode (s.disk (s.sb.iblock ip.inum)) (ip.inum % ipb) ip'.toDinode
  others : ∀ b, s.Taken b → ¬ Uses s.disk ip.addrs b → (∀ c < s.sb.size, b ≠ s.sb.bblock c) →
    b ≠ s.sb.iblock ip.inum → t.disk b = s.disk b

theorem Keeps.stores {ip1 ip2 : Inode} (keeps : Keeps s t ip ip1 after)
    (sound : Sound s ip.inum ip.addrs) (opened : Opened t ip2 after) (addrs : ip2.addrs = ip1.addrs)
    (inum : ip2.inum = ip1.inum) : Stores s (t.updated ip2) ip ip2 := by
  obtain ⟨_, taken, uses⟩ := opened.updated
  have sb := keeps.grows.sb
  have same := inum.trans keeps.inum
  have block : t.sb.iblock ip2.inum = s.sb.iblock ip.inum := by rw [sb, same]
  have before : t.disk (s.sb.iblock ip.inum) = s.disk (s.sb.iblock ip.inum) :=
    keeps.grows.others _ sound.inode (fun use => (sound.plain _ use).1 rfl) sound.table
  refine ⟨sb, keeps.outstanding, keeps.complaints, same,
    fun b is => taken b (keeps.grows.taken b is), fun b use => ?_,
    ?_, fun b is unused bitmap apart => ?_⟩
  · have use' := (uses b).mp use
    rw [addrs] at use'
    exact (keeps.grows.uses b use').imp_right fun new => ⟨taken b new.1, new.2⟩
  · unfold updated
    rw [block, before, same]
    exact update_self _ _ _
  · rw [← keeps.grows.others b is unused bitmap]
    exact update_of_ne (block ▸ apart) _ _

/-- `writei` inside a transaction: what it returns is what was written, which is everything unless
the disk is full or the source cannot be read. -/
theorem writei_meets {copies : Nat → Bool} (inside : 0 < s.outstanding) (opened : Opened s ip bytes)
    (start : off ≤ bytes.length) (bound : off + src.length ≤ maxfile * bsize) :
    Meets (writei copies ip off src) s (fun r t => ∃ (k : Nat) (after : List UInt8), r.1 = k ∧
      Opened t r.2 after ∧
      Stores s t ip r.2 ∧ Written copies 0 off src bytes k after ∧
      (t.complaints = s.complaints → (∀ i, i < src.length → copies i = true) →
        k = src.length)) stops := by
  have few : maxfile * bsize < 2 ^ 32 := by decide
  have plain : (off + src.length) % 2 ^ 32 = off + src.length := Nat.mod_eq_of_lt (by omega)
  unfold writei
  simp only [plain]
  rw [if_neg (by rw [opened.size]; omega), if_neg (by omega)]
  refine (writeLoop_meets src inside opened.sound opened.holds opened.fits start bound).bind
    fun r t after => ?_
  obtain ⟨tot, off', ip1⟩ := r
  obtain ⟨k, content, total, offset, keeps, written, quiet⟩ := after
  simp only [Nat.zero_add] at total offset keeps quiet
  have length := written.length
  have small := keeps.holds.small
  have size := keeps.size.trans opened.size
  generalize next : (if ip1.size < off' then { ip1 with size := off' } else ip1 : Inode) = ip2
  have opened2 : Opened t ip2 content ∧ ip2.addrs = ip1.addrs ∧ ip2.inum = ip1.inum := by
    rw [← next, size, offset]
    by_cases longer : bytes.length < off + k
    · have whole : off + k = content.length := by omega
      have bounded : off + k < 2 ^ 32 := by omega
      rw [if_pos longer]
      exact ⟨⟨keeps.sound, keeps.holds, ⟨keeps.fits.type, keeps.fits.major, keeps.fits.minor,
        keeps.fits.nlink, bounded, keeps.fits.addrs, keeps.fits.beyond⟩, whole⟩, rfl, rfl⟩
    · rw [if_neg longer]
      exact ⟨⟨keeps.sound, keeps.holds, keeps.fits, by omega⟩, rfl, rfl⟩
  obtain ⟨opened2, addrs, inum⟩ := opened2
  rw [meets_bind]
  refine meets_iupdate (keeps.outstanding ▸ inside) (meets_pure.mpr ?_)
  exact ⟨k, content, congrArg Nat.cast total, opened2.updated.1,
    keeps.stores opened.sound opened2 addrs inum, written, quiet⟩

theorem Written.all (written : Written (fun _ => true) tot off src bytes k after) :
    after = splice bytes off (src.take k) :=
  written.exact.mpr fun _ _ _ _ _ _ refused => by cases refused

/-- Writing inside one block that the file has allocates nothing. -/
theorem writei_inside (inside : 0 < s.outstanding)
    (block : off / bsize < maxfile) (found : entry s.disk ip.addrs (off / bsize) ≠ 0)
    (fits : off % bsize + src.length ≤ bsize) (some : src ≠ []) :
    Meets (writei (fun _ => true) ip off src) s (fun _ t => t.complaints = s.complaints) stops := by
  have least : min src.length (bsize - off % bsize) = src.length := Nat.min_eq_left (by omega)
  have all : copied (fun _ => true) 0 src.length = src.length := copied_eq fun _ _ => rfl
  unfold writei
  simp only
  split
  · exact meets_pure.mpr rfl
  · split
    · exact meets_pure.mpr rfl
    · rw [meets_bind, writeLoop, if_neg some, meets_bind]
      refine meets_bmap block found ?_
      simp only [if_neg found]
      rw [meets_bind, meets_get]
      simp only [least, all, if_true, drop_length]
      rw [meets_bind]
      refine meets_logWrite inside ?_
      rw [writeLoop, if_pos rfl, meets_pure]
      simp only
      rw [meets_bind]
      exact meets_iupdate inside (meets_pure.mpr rfl)

end EnhancedXv6.FileSystem
