import EnhancedXv6.FileSystem.Layout
import EnhancedXv6.FileSystem.Mkfs

namespace EnhancedXv6.FileSystem.Mkfs

open Foundation Function Finset

/-- The blocks of a file of a given length, with its indirect block. -/
def blocksFor (length : Nat) : Nat :=
  (length + (bsize - 1)) / bsize + if ndirect * bsize < length then 1 else 0

theorem blocksFor_mono (le : a ≤ b) : blocksFor a ≤ blocksFor b := by
  unfold blocksFor
  refine Nat.add_le_add (Nat.div_le_div_right (by omega)) ?_
  split <;> split <;> omega

structure Tight (disk : Disk) (addrs : Nat → Nat) (length : Nat) : Prop where
  entries : ∀ n < maxfile, length ≤ n * bsize → entry disk addrs n = 0
  indirect : length ≤ ndirect * bsize → addrs ndirect = 0

theorem Tight.mono (tight : Tight disk addrs a) (le : a ≤ b) : Tight disk addrs b :=
  ⟨fun n inside beyond => tight.entries n inside (le.trans beyond),
    fun small => tight.indirect (le.trans small)⟩

theorem Tight.congr (tight : Tight disk addrs length)
    (same : addrs ndirect ≠ 0 → disk' (addrs ndirect) = disk (addrs ndirect)) :
    Tight disk' addrs length :=
  ⟨fun n inside beyond => (entry_congr same n).trans (tight.entries n inside beyond),
    tight.indirect⟩

/-- The blocks of all files, given where each of them ends. -/
def total (count : Nat) (ends : Nat → Nat) : Nat := ∑ i ∈ Finset.range count, blocksFor (ends i)

theorem total_update (inside : i < count) (ends : Nat → Nat) (e : Nat) :
    total count (update ends i e) + blocksFor (ends i) = total count ends + blocksFor e := by
  have member : i ∈ Finset.range count := mem_range.mpr inside
  unfold total
  rw [← add_sum_erase _ _ member,
    ← add_sum_erase _ (fun j => blocksFor (ends j)) member, update_self]
  have rest : ∑ j ∈ (Finset.range count).erase i, blocksFor (update ends i e j) =
      ∑ j ∈ (Finset.range count).erase i, blocksFor (ends j) := by
    refine sum_congr rfl fun j other => ?_
    rw [update_of_ne (ne_of_mem_erase other)]
  rw [rest]
  omega

/-- The inodes below `count` hold their files, in blocks of their own below `free`. Block
addresses are given out up to `ends`. -/
structure Stored (disk : Disk) (free count : Nat) (inode : Nat → Dinode)
    (contents : Nat → List UInt8) (ends : Nat → Nat) : Prop where
  fits : ∀ i < count, (inode i).Fits
  holds : ∀ i < count, Holds disk (inode i).addrs (contents i)
  tight : ∀ i < count, Tight disk (inode i).addrs (ends i)
  range : ∀ i < count, ∀ b, Uses disk (inode i).addrs b → nmeta ≤ b ∧ b < free
  apart : ∀ i < count, ∀ j < count, ∀ b, Uses disk (inode i).addrs b →
    Uses disk (inode j).addrs b → i = j
  zero : ∀ b, free ≤ b → disk b = zeroes
  spent : free = nmeta + total count ends

section

variable (stored : Stored disk free count inode contents ends)

include stored

theorem Stored.change (inside : i < count) (din : Dinode)
    (bytes : List UInt8) (e : Nat) (fits : din.Fits) (holds : Holds disk' din.addrs bytes)
    (tight : Tight disk' din.addrs e) (grows : free ≤ free')
    (uses : ∀ b, Uses disk' din.addrs b → Uses disk (inode i).addrs b ∨ free ≤ b ∧ b < free')
    (same : ∀ b < free, ¬ Uses disk (inode i).addrs b → disk' b = disk b)
    (zero : ∀ b, free' ≤ b → disk' b = zeroes)
    (spent : free' + blocksFor (ends i) = free + blocksFor e) :
    Stored disk' free' count (update inode i din) (update contents i bytes)
      (update ends i e) := by
  have low : nmeta ≤ free := by
    rw [stored.spent]
    exact Nat.le_add_right _ _
  have other : ∀ j < count, j ≠ i → ∀ b, Uses disk (inode j).addrs b → disk' b = disk b := by
    intro j inJ different b used
    refine same b (stored.range j inJ b used).2 fun mine => ?_
    exact different (stored.apart j inJ i inside b used mine)
  have indirect : ∀ j < count, j ≠ i → (inode j).addrs ndirect ≠ 0 →
      disk' ((inode j).addrs ndirect) = disk ((inode j).addrs ndirect) :=
    fun j inJ different found => other j inJ different _ (uses_indirect found)
  have kept : ∀ j < count, j ≠ i → ∀ b, Uses disk' (inode j).addrs b ↔
      Uses disk (inode j).addrs b :=
    fun j inJ different b => uses_congr (indirect j inJ different)
  have foreign : ∀ j < count, j ≠ i → ∀ b, Uses disk (inode j).addrs b →
      ¬ Uses disk' din.addrs b := by
    intro j inJ different b used mine
    rcases uses b mine with before | new
    · exact different (stored.apart j inJ i inside b used before)
    · have := (stored.range j inJ b used).2
      omega
  refine ⟨fun j inJ => ?_, fun j inJ => ?_, fun j inJ => ?_, fun j inJ b => ?_,
    fun j inJ k inK b => ?_, zero, ?_⟩
  · by_cases here : j = i
    · rw [here, update_self]
      exact fits
    · rw [update_of_ne here]
      exact stored.fits j inJ
  · by_cases here : j = i
    · rw [here, update_self, update_self]
      exact holds
    · rw [update_of_ne here, update_of_ne here]
      exact (stored.holds j inJ).congr (other j inJ here)
  · by_cases here : j = i
    · rw [here, update_self, update_self]
      exact tight
    · rw [update_of_ne here, update_of_ne here]
      exact (stored.tight j inJ).congr (indirect j inJ here)
  · by_cases here : j = i
    · rw [here, update_self]
      intro used
      rcases uses b used with before | new
      · have := stored.range i inside b before
        omega
      · omega
    · rw [update_of_ne here, kept j inJ here]
      intro used
      have := stored.range j inJ b used
      omega
  · by_cases first : j = i
    · by_cases second : k = i
      · intro _ _
        rw [first, second]
      · rw [first, update_self, update_of_ne second, kept k inK second]
        intro mine theirs
        exact absurd mine (foreign k inK second b theirs)
    · rw [update_of_ne first, kept j inJ first]
      by_cases second : k = i
      · rw [second, update_self]
        intro theirs mine
        exact absurd mine (foreign j inJ first b theirs)
      · rw [update_of_ne second, kept k inK second]
        exact stored.apart j inJ k inK b
  · have sum := total_update inside ends e
    have before := stored.spent
    omega

theorem Stored.low : nmeta ≤ free := by
  rw [stored.spent]
  exact Nat.le_add_right _ _

theorem Stored.fresh (inside : i < count)
    (small : b < 2 ^ 32) (beyond : free ≤ b) : Fresh disk (inode i).addrs b where
  ne_zero := by
    have low := stored.low
    unfold nmeta at low
    omega
  unused used := by
    have := (stored.range i inside b used).2
    omega
  bounded := small

end

section Growth

theorem blocksFor_same (partly : off % bsize ≠ 0) : blocksFor (off + 1) = blocksFor off := by
  unfold blocksFor bsize ndirect at *
  split_ifs <;> omega

theorem blocksFor_direct (whole : off % bsize = 0) (direct : off / bsize < ndirect) :
    blocksFor (off + 1) = blocksFor off + 1 := by
  unfold blocksFor bsize ndirect at *
  split_ifs <;> omega

theorem blocksFor_indirect (whole : off % bsize = 0) (beyond : ndirect * bsize < off) :
    blocksFor (off + 1) = blocksFor off + 1 := by
  unfold blocksFor bsize ndirect at *
  split_ifs <;> omega

theorem blocksFor_first (first : off = ndirect * bsize) :
    blocksFor (off + 1) = blocksFor off + 2 := by
  rw [first]
  rfl

theorem blocksFor_block (within : off < e) (block : e ≤ (off / bsize + 1) * bsize) :
    blocksFor e = blocksFor (off + 1) := by
  unfold blocksFor bsize ndirect at *
  split_ifs <;> omega

variable {disk : Disk} {free count i off : Nat} {inode : Nat → Dinode} {contents : Nat → List UInt8}
  {ends : Nat → Nat}

section

variable (stored : Stored disk free count inode contents ends)

include stored

section

variable (inside : i < count)

include inside

section

variable (length : (contents i).length = off)

include length

/-- Block `off / bsize` has an address iff the file ends inside it. -/
theorem Stored.entry_zero_iff (here : ends i = off) (block : off / bsize < maxfile) :
    entry disk (inode i).addrs (off / bsize) = 0 ↔ off % bsize = 0 := by
  constructor
  · intro none
    by_contra partly
    refine (stored.holds i inside).mapped (off / bsize) ?_ none
    rw [length]
    unfold bsize at *
    omega
  · intro whole
    refine (stored.tight i inside).entries _ block ?_
    rw [here]
    unfold bsize at *
    omega

theorem Stored.addDirect (here : ends i = off) (direct : off / bsize < ndirect)
    (none : (inode i).addrs (off / bsize) = 0) (small : free < 2 ^ 32) :
    Stored disk (free + 1) count
      (update inode i { inode i with addrs := update (inode i).addrs (off / bsize) free })
      contents (update ends i (off + 1)) := by
  have block : off / bsize < maxfile := lt_of_lt_of_le direct (by decide)
  have whole := (stored.entry_zero_iff inside length here block).mp ((if_pos direct).trans none)
  have fresh := stored.fresh inside small le_rfl
  have entries := fun m =>
    (entry_direct direct m : entry disk (update (inode i).addrs _ free) m = _)
  have tight := stored.tight i inside
  have indirect : update (inode i).addrs (off / bsize) free ndirect = (inode i).addrs ndirect :=
    update_of_ne (by omega) _ _
  rw [here] at tight
  have changed :=
    stored.change inside _ (contents i) (off + 1) ((stored.fits i inside).addr direct.le small)
    ((stored.holds i inside).direct direct none fresh fun _ _ => rfl) ?_ (Nat.le_succ free) ?_
    (fun _ _ _ => rfl)
    (fun b beyond => stored.zero b (by omega)) ?_
  · rwa [update_eq_self] at changed
  · constructor
    · intro n inN beyond
      rw [entries, if_neg, tight.entries n inN (by omega)]
      rintro rfl
      unfold bsize at *
      omega
    · intro few
      exact indirect.trans (tight.indirect (by omega))
  · intro b used
    rcases uses_direct direct used with old | new
    · exact .inl old
    · exact .inr (by omega)
  · rw [here, blocksFor_direct whole direct]
    omega

theorem Stored.addIndirect (here : ends i = off) (outside : ¬ off / bsize < ndirect)
    (block : off / bsize < maxfile) (table : (inode i).addrs ndirect ≠ 0)
    (none : entry disk (inode i).addrs (off / bsize) = 0) (small : free < 2 ^ 32) :
    Stored (update disk ((inode i).addrs ndirect)
        (store (disk ((inode i).addrs ndirect)) (4 * (off / bsize - ndirect)) 4 free))
      (free + 1) count inode contents (update ends i (off + 1)) := by
  have whole := (stored.entry_zero_iff inside length here block).mp none
  have fresh := stored.fresh inside small le_rfl
  have tight := stored.tight i inside
  rw [here] at tight
  have beyond : ndirect * bsize < off := by
    by_contra few
    exact table (tight.indirect (by omega))
  generalize written : update disk ((inode i).addrs ndirect)
    (store (disk ((inode i).addrs ndirect)) (4 * (off / bsize - ndirect)) 4 free) = disk'
  have there : disk' ((inode i).addrs ndirect) =
      store (disk ((inode i).addrs ndirect)) (4 * (off / bsize - ndirect)) 4 free := by
    rw [← written, update_self]
  have elsewhere : ∀ b, b ≠ (inode i).addrs ndirect → disk' b = disk b := by
    intro b other
    rw [← written, update_of_ne other]
  have entries := entry_store table outside small there
  have owned := stored.range i inside _ (uses_indirect table)
  have changed := stored.change inside (inode i) (contents i) (off + 1) (stored.fits i inside)
    ((stored.holds i inside).indirect table outside none fresh there
      fun x _ other => elsewhere x other) ?_
    (Nat.le_succ free) ?_
    (fun b _ unused => elsewhere b fun same => unused (same ▸ uses_indirect table))
    (fun b above => (elsewhere b (by omega)).trans (stored.zero b (by omega))) ?_
  · rwa [update_eq_self, update_eq_self] at changed
  · constructor
    · intro n inN later
      rw [entries, if_neg, tight.entries n inN (by omega)]
      rintro rfl
      unfold bsize at *
      omega
    · intro few
      omega
  · intro b used
    rcases uses_store table outside small there used with old | new
    · exact .inl old
    · exact .inr (by omega)
  · rw [here, blocksFor_indirect whole beyond]
    omega

/-- A file without an indirect block that needs one ends after its direct blocks. -/
theorem Stored.first_indirect (outside : ¬ off / bsize < ndirect)
    (none : (inode i).addrs ndirect = 0) : off = ndirect * bsize := by
  by_contra other
  refine (stored.holds i inside).mapped ndirect ?_ ?_
  · rw [length]
    unfold bsize ndirect at *
    omega
  · unfold entry
    rw [if_neg (by omega), if_pos none]

theorem Stored.addTable (here : ends i = off) (outside : ¬ off / bsize < ndirect)
    (none : (inode i).addrs ndirect = 0) (small : free + 1 < 2 ^ 32) :
    Stored (update disk free (store zeroes (4 * (off / bsize - ndirect)) 4 (free + 1)))
      (free + 2) count
      (update inode i { inode i with addrs := update (inode i).addrs ndirect free })
      contents (update ends i (off + 1)) := by
  have unset : ∀ n, ndirect ≤ n → entry disk (inode i).addrs n = 0 := by
    intro n beyond
    unfold entry
    rw [if_neg (by omega), if_pos none]
  have holds := stored.holds i inside
  have tight := stored.tight i inside
  rw [here] at tight
  have first := stored.first_indirect inside length outside none
  have zero := stored.zero free le_rfl
  have fresh := stored.fresh inside (show free < 2 ^ 32 by omega) le_rfl
  have fresh' := stored.fresh inside small (Nat.le_succ free)
  generalize addrs : update (inode i).addrs ndirect free = addrs'
  have table : addrs' ndirect = free := by rw [← addrs, update_self]
  have between : ∀ n, entry disk addrs' n = entry disk (inode i).addrs n := by
    intro n
    rw [← addrs]
    exact entry_empty none zero n
  have holds' : Holds disk addrs' (contents i) := by
    rw [← addrs]
    exact holds.empty none fresh zero fun _ _ => rfl
  generalize written :
    update disk free (store zeroes (4 * (off / bsize - ndirect)) 4 (free + 1)) = disk'
  have there : disk' (addrs' ndirect) = store (disk (addrs' ndirect))
      (4 * (off / bsize - ndirect)) 4 (free + 1) := by
    rw [table, zero, ← written, update_self]
  have elsewhere : ∀ b, b ≠ free → disk' b = disk b := by
    intro b other
    rw [← written, update_of_ne other]
  have nonzero : addrs' ndirect ≠ 0 := table.trans_ne fresh.ne_zero
  have entries := entry_store nonzero outside small there
  have unused : Fresh disk addrs' (free + 1) := by
    refine ⟨fresh'.ne_zero, ?_, small⟩
    rintro ⟨_, same | ⟨n, inN, found⟩⟩
    · omega
    · rw [between] at found
      exact fresh'.ne_entry inN found
  have grows : free ≤ free + 2 := by omega
  have changed := stored.change inside
    { inode i with addrs := addrs' } (contents i) (off + 1)
    (by rw [← addrs]; exact (stored.fits i inside).addr le_rfl (by omega))
    (holds'.indirect nonzero outside ((between _).trans (unset _ (by omega))) unused there
      fun x _ other => elsewhere x (table ▸ other)) ?_ grows ?_
        (fun b below _ => elsewhere b (by omega))
    (fun b above => (elsewhere b (by omega)).trans (stored.zero b (by omega))) ?_
  · rwa [update_eq_self] at changed
  · constructor
    · intro n inN later
      rw [entries, if_neg, between, tight.entries n inN (by omega)]
      rintro rfl
      unfold bsize at *
      omega
    · intro few
      omega
  · intro b used
    rcases uses_store nonzero outside small there used with old | new
    · rw [← addrs] at old
      rcases uses_empty none zero old with older | table
      · exact .inl older
      · exact .inr (by omega)
    · exact .inr (by omega)
  · rw [here, blocksFor_first first]
    omega

end

end

end

theorem Stored.writeBlock (stored : Stored disk free count inode contents (update ends i (off + 1)))
    (inside : i < count) (length : (contents i).length = off) (block : off / bsize < maxfile)
    (found : entry disk (inode i).addrs (off / bsize) ≠ 0) (some : chunk ≠ [])
    (fits : off % bsize + chunk.length ≤ bsize) :
    Stored (update disk (entry disk (inode i).addrs (off / bsize))
        (copy (disk (entry disk (inode i).addrs (off / bsize))) (off % bsize) chunk.length
          fun j => chunk.getD j 0))
      free count inode (update contents i (contents i ++ chunk))
      (update ends i (off + chunk.length)) := by
  have used := uses_entry block found
  have owned := stored.range i inside _ used
  have holds := stored.holds i inside
  have positive := List.length_pos_of_ne_nil some
  have tight := stored.tight i inside
  rw [update_self] at tight
  generalize target : entry disk (inode i).addrs (off / bsize) = x at *
  generalize written :
    update disk x (copy (disk x) (off % bsize) chunk.length fun j => chunk.getD j 0) = disk'
  have elsewhere : ∀ b, b ≠ x → disk' b = disk b := by
    intro b other
    rw [← written, update_of_ne other]
  have indirect : (inode i).addrs ndirect ≠ 0 →
      disk' ((inode i).addrs ndirect) = disk ((inode i).addrs ndirect) := by
    intro _
    refine elsewhere _ ?_
    rw [← target]
    exact (holds.laid.apart _ block (target ▸ found)).symm
  have wrote : Holds disk' (inode i).addrs (splice (contents i) off chunk) := by
    refine holds.write (by omega) fits block (target ▸ found) ?_
      fun b _ other => elsewhere b (target ▸ other)
    rw [target, ← written, update_self]
  rw [← length, splice_end] at wrote
  have changed := stored.change inside (inode i) _ (off + chunk.length) (stored.fits i inside) wrote
    ((tight.mono (by omega)).congr indirect) le_rfl
    (fun b use => .inl ((uses_congr indirect).mp use))
    (fun b _ unused => elsewhere b fun same => unused (same ▸ used))
    (fun b above => (elsewhere b (by omega)).trans (stored.zero b above)) ?_
  · rwa [update_eq_self, update_idem] at changed
  · rw [update_self,
      (blocksFor_block (by omega) ?_ : blocksFor (off + chunk.length) = blocksFor (off + 1))]
    unfold bsize at *
    omega

end Growth

section Programs

variable {s : Image} {post : α → Image → Prop} {stops : Failure → Prop}

theorem meets_rsect {post : Block → Image → Prop} (result : sec < s.length → post (s.disk sec) s)
    (ends : ¬ sec < s.length → stops .read) : Meets (rsect sec) s post stops := by
  unfold rsect
  rw [meets_bind, meets_get]
  by_cases inside : sec < s.length
  · rw [if_pos inside]
    exact meets_pure.mpr (result inside)
  · rw [if_neg inside]
    exact meets_throw.mpr (ends inside)

theorem meets_wsect {post : Unit → Image → Prop}
    (result : post () { s with disk := update s.disk sec buf, length := max s.length (sec + 1) }) :
    Meets (wsect sec buf) s post stops := by
  unfold wsect
  exact meets_modify.mpr result

theorem meets_takeBlock {post : Nat → Image → Prop}
    (result : post s.freeblock { s with freeblock := s.freeblock + 1 }) :
    Meets takeBlock s post stops := by
  unfold takeBlock
  rw [meets_bind, meets_get, meets_bind, meets_set]
  exact meets_pure.mpr result

end Programs

/-- Nothing but the disk above the metadata and `freeblock` changes. -/
structure Frame (s t : Image) : Prop where
  length : t.length = s.length
  freeinode : t.freeinode = s.freeinode
  low : ∀ b < nmeta, t.disk b = s.disk b

theorem Frame.trans (first : Frame s t) (second : Frame t u) : Frame s u :=
  ⟨second.length.trans first.length, second.freeinode.trans first.freeinode,
    fun b below => (second.low b below).trans (first.low b below)⟩

structure SameBut (d d' : Dinode) : Prop where
  type : d'.type = d.type
  major : d'.major = d.major
  minor : d'.minor = d.minor
  nlink : d'.nlink = d.nlink
  size : d'.size = d.size

theorem SameBut.trans (first : SameBut a b) (second : SameBut b c) : SameBut a c :=
  ⟨second.type.trans first.type, second.major.trans first.major, second.minor.trans first.minor,
    second.nlink.trans first.nlink, second.size.trans first.size⟩

/-- What the first half of a round of `iappend` leaves: the block at the offset has an
address. -/
structure Mapped (s : Image) (count i off : Nat) (inode : Nat → Dinode)
    (contents : Nat → List UInt8)
    (ends : Nat → Nat) (result : Nat × Dinode) (t : Image) : Prop where
  frame : Frame s t
  same : SameBut (inode i) result.2
  stored : Stored t.disk t.freeblock count (Function.update inode i result.2) contents
    (Function.update ends i (off + 1))
  block : result.1 = entry t.disk result.2.addrs (off / bsize)
  found : result.1 ≠ 0
  last : t.freeblock ≤ max s.freeblock (result.1 + 1)

section BlockOf

variable {s : Image} {inode : Nat → Dinode} {contents : Nat → List UInt8} {ends : Nat → Nat}
  {stops : Failure → Prop}
  (stored : Stored s.disk s.freeblock count inode contents ends) (inside : i < count)
  (length : (contents i).length = off) (here : ends i = off) (block : off / bsize < maxfile)
  (room : s.freeblock ≤ fssize)

include stored inside length here

theorem Stored.mapped (block : off / bsize < maxfile)
    (found : entry s.disk (inode i).addrs (off / bsize) ≠ 0) :
    Mapped s count i off inode contents ends
      (entry s.disk (inode i).addrs (off / bsize), inode i) s := by
  have partly := fun whole => found ((stored.entry_zero_iff inside length here block).mpr whole)
  have tight := stored.tight i inside
  refine ⟨⟨rfl, rfl, fun _ _ => rfl⟩, ⟨rfl, rfl, rfl, rfl, rfl⟩, ?_, rfl, found, le_max_left _ _⟩
  have changed := stored.change inside (inode i) (contents i) (off + 1) (stored.fits i inside)
    (stored.holds i inside) (tight.mono (by omega)) le_rfl (fun _ => .inl)
    (fun _ _ _ => rfl) stored.zero
    (by rw [here, blocksFor_same partly])
  rwa [update_eq_self i contents] at changed

include room

theorem blockOf_direct (direct : off / bsize < ndirect) :
    Meets (blockOf (inode i) (off / bsize)) s (Mapped s count i off inode contents ends) stops := by
  have low := stored.low
  have entry_eq : entry s.disk (inode i).addrs (off / bsize) = (inode i).addrs (off / bsize) :=
    if_pos direct
  unfold blockOf
  rw [if_pos direct, meets_bind]
  unfold addrOf
  by_cases none : (inode i).addrs (off / bsize) = 0
  · rw [if_pos none, meets_bind]
    refine meets_takeBlock ?_
    simp only [meets_pure]
    refine ⟨⟨rfl, rfl, fun _ _ => rfl⟩, ⟨rfl, rfl, rfl, rfl, rfl⟩,
      stored.addDirect inside length here direct none (by unfold fssize at room; omega),
      (if_pos direct).symm, ?_, ?_⟩
    all_goals rw [update_self]
    · unfold nmeta at low
      omega
    · exact le_max_right _ _
  · rw [if_neg none, meets_pure, meets_pure, ← entry_eq]
    exact stored.mapped inside length here (direct.trans_le (by decide)) (entry_eq.trans_ne none)

/-- Neither the indirect block is there nor the block. -/
theorem blockOf_table (outside : ¬ off / bsize < ndirect) (none : (inode i).addrs ndirect = 0)
    (long : s.length = fssize) :
    Meets (blockOf (inode i) (off / bsize)) s (Mapped s count i off inode contents ends)
      fun _ => fssize < s.freeblock + (blocksFor (off + 1) - blocksFor off) := by
  have low := stored.low
  have small : s.freeblock + 1 < 2 ^ 32 := by
    unfold fssize at room
    omega
  have zero := stored.zero s.freeblock le_rfl
  have empty : load zeroes (4 * (off / bsize - ndirect)) 4 = 0 := load_zero fun _ _ _ => rfl
  have slot : entry (update s.disk s.freeblock
      (store zeroes (4 * (off / bsize - ndirect)) 4 (s.freeblock + 1)))
      (update (inode i).addrs ndirect s.freeblock) (off / bsize) = s.freeblock + 1 := by
    unfold entry
    rw [if_neg outside, update_self, if_neg (by unfold nmeta at low; omega), update_self,
      load_store_same small]
  unfold blockOf
  rw [if_neg outside, meets_bind]
  unfold addrOf
  rw [if_pos none, meets_bind]
  refine meets_takeBlock ?_
  simp only [meets_pure, meets_bind, update_self]
  refine meets_rsect (fun inLength => ?_) fun beyond => ?_
  · simp only [zero]
    rw [if_pos empty, meets_bind]
    refine meets_takeBlock ?_
    rw [meets_bind]
    refine meets_wsect (meets_pure.mpr ⟨⟨?_, rfl, fun b below => ?_⟩, ⟨rfl, rfl, rfl, rfl, rfl⟩,
      stored.addTable inside length here outside none small, slot.symm, by simp, le_max_right _ _⟩)
    · exact Nat.max_eq_left inLength
    · exact update_of_ne (by omega) _ _
  · rw [long] at beyond
    rw [blocksFor_first (stored.first_indirect inside length outside none)]
    omega

theorem blockOf_indirect (outside : ¬ off / bsize < ndirect) (block : off / bsize < maxfile)
    (there : (inode i).addrs ndirect ≠ 0) (long : s.length = fssize) :
    Meets (blockOf (inode i) (off / bsize)) s (Mapped s count i off inode contents ends) stops := by
  have low := stored.low
  have small : s.freeblock < 2 ^ 32 := by
    unfold fssize at room
    omega
  have table := stored.range i inside _ (uses_indirect there)
  have entry_eq : entry s.disk (inode i).addrs (off / bsize) =
      load (s.disk ((inode i).addrs ndirect)) (4 * (off / bsize - ndirect)) 4 :=
    (if_neg outside).trans (if_neg there)
  unfold blockOf addrOf
  rw [if_neg outside, meets_bind, if_neg there, meets_pure, meets_bind]
  refine meets_rsect (fun inLength => ?_) fun beyond => absurd (by omega) beyond
  by_cases unset : load (s.disk ((inode i).addrs ndirect)) (4 * (off / bsize - ndirect)) 4 = 0
  · have slot : entry (update s.disk ((inode i).addrs ndirect)
        (store (s.disk ((inode i).addrs ndirect)) (4 * (off / bsize - ndirect)) 4 s.freeblock))
        (inode i).addrs (off / bsize) = s.freeblock := by
      unfold entry
      rw [if_neg outside, if_neg there, update_self, load_store_same small]
    have added :=
      stored.addIndirect inside length here outside block there (entry_eq.trans unset) small
    rw [if_pos unset, meets_bind]
    refine meets_takeBlock ?_
    rw [meets_bind]
    refine meets_wsect (meets_pure.mpr ⟨⟨Nat.max_eq_left inLength, rfl, fun b below => ?_⟩,
      ⟨rfl, rfl, rfl, rfl, rfl⟩, ?_, slot.symm, ?_, le_max_right _ _⟩)
    · exact update_of_ne (by omega) _ _
    · rwa [update_eq_self]
    · unfold nmeta at low
      omega
  · rw [if_neg unset, meets_pure, ← entry_eq]
    exact stored.mapped inside length here block (entry_eq.trans_ne unset)

include block

theorem blockOf_meets (long : s.length = fssize) :
    Meets (blockOf (inode i) (off / bsize)) s (Mapped s count i off inode contents ends)
      fun _ => fssize < s.freeblock + (blocksFor (off + 1) - blocksFor off) := by
  by_cases direct : off / bsize < ndirect
  · exact blockOf_direct stored inside length here room direct
  · by_cases none : (inode i).addrs ndirect = 0
    · exact blockOf_table stored inside length here room direct none long
    · exact blockOf_indirect stored inside length here room direct block none long

end BlockOf

/-- The image and every file still fit: in the blocks of the disk, and of an inode. -/
def Roomy (count : Nat) (contents : Nat → List UInt8) : Prop :=
  nmeta + total count (fun i => (contents i).length) ≤ fssize ∧
    ∀ i < count, (contents i).length ≤ maxfile * bsize

theorem total_mono (le : ∀ i < count, a i ≤ b i) : total count a ≤ total count b :=
  sum_le_sum fun i member => blocksFor_mono (le i (mem_range.mp member))

theorem Roomy.mono (roomy : Roomy count more)
    (le : ∀ i < count, (contents i).length ≤ (more i).length) : Roomy count contents :=
  ⟨(Nat.add_le_add_left (total_mono le) nmeta).trans roomy.1,
    fun i inside => (le i inside).trans (roomy.2 i inside)⟩

theorem ends_update (contents : Nat → List UInt8) (i : Nat) (bytes : List UInt8) :
    (fun j => (update contents i bytes j).length) =
      update (fun j => (contents j).length) i bytes.length := by
  funext j
  by_cases here : j = i
  · rw [here, update_self, update_self]
  · rw [update_of_ne here, update_of_ne here]

/-- The blocks up to any point inside the appended bytes are among those of the result. -/
theorem Roomy.within {contents : Nat → List UInt8} {p : List UInt8} {e : Nat}
    (roomy : Roomy count (update contents i (contents i ++ p)))
    (le : e ≤ (contents i).length + p.length) :
    nmeta + total count (update (fun j => (contents j).length) i e) ≤ fssize := by
  refine (Nat.add_le_add_left (total_mono fun j _ => ?_) nmeta).trans roomy.1
  by_cases same : j = i
  · rw [same, update_self, update_self, List.length_append]
    exact le
  · rw [update_of_ne same, update_of_ne same]

/-- The second half of a round of `iappend` writes a chunk into the block. -/
theorem Mapped.append {inode : Nat → Dinode} {contents : Nat → List UInt8} {result : Nat × Dinode}
    {chunk : List UInt8}
    (mapped : Mapped s count i off inode contents (fun j => (contents j).length) result t)
    (inside : i < count) (length : (contents i).length = off) (block : off / bsize < maxfile)
    (some : chunk ≠ []) (fits : off % bsize + chunk.length ≤ bsize) :
    Stored (update t.disk result.1
        (copy (t.disk result.1) (off % bsize) chunk.length fun j => chunk.getD j 0))
      t.freeblock count (update inode i result.2) (update contents i (contents i ++ chunk))
      fun j => (update contents i (contents i ++ chunk) j).length := by
  have wrote := mapped.stored.writeBlock inside length block
    (by rw [update_self, ← mapped.block]; exact mapped.found) some fits
  rw [update_self, ← mapped.block] at wrote
  have ends := ends_update contents i (contents i ++ chunk)
  rw [List.length_append, length] at ends
  rwa [← ends] at wrote

theorem chunk_fits (off : Nat) (p : List UInt8) (some : p ≠ []) :
    0 < min p.length ((off / bsize + 1) * bsize - off) ∧
      off % bsize + min p.length ((off / bsize + 1) * bsize - off) ≤ bsize ∧
      off - off / bsize * bsize = off % bsize := by
  have positive := List.length_pos_of_ne_nil some
  unfold bsize
  omega

theorem appendLoop_meets (p : List UInt8) {inode : Nat → Dinode} {contents : Nat → List UInt8}
    (stored : Stored s.disk s.freeblock count inode contents fun j => (contents j).length)
    (inside : i < count)
    (length : (contents i).length = off) (room : s.freeblock ≤ fssize) (long : s.length = fssize) :
    Meets (appendLoop p (inode i) off) s
      (fun result t => Frame s t ∧ SameBut (inode i) result.1 ∧ result.2 = off + p.length ∧
        t.freeblock ≤ fssize ∧
        Stored t.disk t.freeblock count (update inode i result.1)
          (update contents i (contents i ++ p))
          fun j => (update contents i (contents i ++ p) j).length)
      fun _ => ¬ Roomy count (update contents i (contents i ++ p)) := by
  induction size : p.length using Nat.strong_induction_on generalizing p s inode contents off with
  | _ n ih =>
    rw [appendLoop]
    by_cases none : p = []
    · rw [if_pos none, meets_pure, none]
      refine ⟨⟨rfl, rfl, fun _ _ => rfl⟩,
        ⟨rfl, rfl, rfl, rfl, rfl⟩, by simp [← size, none], room, ?_⟩
      rwa [List.append_nil, update_eq_self, update_eq_self]
    rw [if_neg none]
    obtain ⟨some, fits, place⟩ := chunk_fits off p none
    by_cases big : maxfile ≤ off / bsize
    · rw [if_pos big, meets_throw]
      intro roomy
      have bound := roomy.2 i inside
      rw [update_self, List.length_append, length] at bound
      unfold bsize at *
      omega
    rw [if_neg big]
    have block : off / bsize < maxfile := by omega
    have found := blockOf_meets stored inside length length block room long
    refine (found.mono (fun _ _ => id) fun _ beyond roomy => ?_).bind fun result t mapped => ?_
    · have sum := total_update inside (fun j => (contents j).length) (off + 1)
      have spent := stored.spent
      have grows := blocksFor_mono (Nat.le_succ off)
      have bound := roomy.within (e := off + 1) (by omega)
      simp only [length] at sum
      omega
    rw [meets_bind]
    have owned := mapped.stored.range i inside result.1 (by
      rw [update_self, mapped.block]
      exact uses_entry block (mapped.block ▸ mapped.found))
    refine meets_rsect (fun inLength => ?_) fun outside roomy => ?_
    · rw [meets_bind]
      refine meets_wsect ?_
      have step : min p.length ((off / bsize + 1) * bsize - off) ≤ p.length := Nat.min_le_left _ _
      rw [place, copy_take _ _ step]
      generalize min p.length ((off / bsize + 1) * bsize - off) = n1 at *
      have size1 : (p.take n1).length = n1 := by rw [List.length_take, Nat.min_eq_left step]
      have wrote := mapped.append inside length block (List.ne_nil_of_length_pos (by omega))
        (size1.symm ▸ fits)
      have grown : (update contents i (contents i ++ p.take n1) i).length = off + n1 := by
        rw [update_self, List.length_append, length, size1]
      have last : t.freeblock ≤ fssize :=
        mapped.last.trans (max_le room (by rw [← long, ← mapped.frame.length]; exact inLength))
      have rest := ih (p.drop n1).length (by rw [List.length_drop]; omega) (p.drop n1)
        (s := { t with disk := _, length := max t.length (result.1 + 1) }) wrote grown last
        ((Nat.max_eq_left inLength).trans (mapped.frame.length.trans long)) rfl
      rw [update_self, update_self, List.append_assoc, List.take_append_drop] at rest
      simp only [update_idem] at rest
      refine rest.mono (fun next u after => ?_) fun _ => id
      obtain ⟨frame, same, offset, bound, stored'⟩ := after
      refine ⟨mapped.frame.trans ⟨?_, frame.freeinode, fun b below => ?_⟩,
        mapped.same.trans same, ?_, bound, stored'⟩
      · exact frame.length.trans (Nat.max_eq_left inLength)
      · exact (frame.low b below).trans (update_of_ne (by omega) _ _)
      · rw [offset, List.length_drop]
        omega
    · have bound := roomy.within (e := off + 1) (by omega)
      have spent := mapped.stored.spent
      rw [mapped.frame.length, long] at outside
      omega

def dinode (disk : Disk) (inum : Nat) : Dinode := getDinode (disk (sb.iblock inum)) (inum % ipb)

theorem dinode_put {d : Dinode} (disk : Disk) (inum : Nat) (fits : d.Fits) :
    dinode (update disk (sb.iblock inum) (putDinode (disk (sb.iblock inum)) (inum % ipb) d)) =
      update (dinode disk) inum d := by
  funext j
  unfold dinode
  by_cases here : j = inum
  · rw [here, update_self, update_self, getDinode_putDinode _ _ fits]
  · rw [update_of_ne here]
    by_cases block : sb.iblock j = sb.iblock inum
    · rw [block, update_self, getDinode_putDinode_of_ne]
      intro slot
      unfold Superblock.iblock ipb bsize at *
      omega
    · rw [update_of_ne block]

theorem iblock_inside (inside : inum < ninodeblocks * ipb) :
    2 + nlog ≤ sb.iblock inum ∧ sb.iblock inum < sb.bmapstart := by
  have bound : inum < 208 := inside
  have block : sb.iblock inum = inum / 16 + 32 := rfl
  have bitmap : sb.bmapstart = 45 := rfl
  rw [block, bitmap]
  unfold nlog Log.logsize Log.maxopblocks
  omega

section

variable (stored : Stored disk free count inode contents ends)

include stored

theorem Stored.metadata (same : ∀ b, nmeta ≤ b → disk' b = disk b) :
    Stored disk' free count inode contents ends := by
  have low := stored.low
  have indirect : ∀ j < count, (inode j).addrs ndirect ≠ 0 →
      disk' ((inode j).addrs ndirect) = disk ((inode j).addrs ndirect) :=
    fun j inJ found => same _ (stored.range j inJ _ (uses_indirect found)).1
  refine ⟨stored.fits,
    fun j inJ => (stored.holds j inJ).congr fun b used => same b (stored.range j inJ b used).1,
    fun j inJ => (stored.tight j inJ).congr (indirect j inJ), fun j inJ b used => ?_,
    fun j inJ k inK b one two => ?_,
    fun b above => (same b (low.trans above)).trans (stored.zero b above), stored.spent⟩
  · exact stored.range j inJ b ((uses_congr (indirect j inJ)).mp used)
  · exact stored.apart j inJ k inK b ((uses_congr (indirect j inJ)).mp one)
      ((uses_congr (indirect k inK)).mp two)

theorem Stored.inodes (fits : ∀ i < count, (inode' i).Fits)
    (same : ∀ i < count, (inode' i).addrs = (inode i).addrs) :
    Stored disk free count inode' contents ends where
  fits := fits
  holds i inside := same i inside ▸ stored.holds i inside
  tight i inside := same i inside ▸ stored.tight i inside
  range i inside := same i inside ▸ stored.range i inside
  apart i inside j inJ := by
    rw [same i inside, same j inJ]
    exact stored.apart i inside j inJ
  zero := stored.zero
  spent := stored.spent

theorem Stored.addInode (fits : (inode count).Fits) (unset : (inode count).addrs = fun _ => 0)
    (empty : contents count = [])
    (none : ends count = 0) : Stored disk free (count + 1) inode contents ends := by
  have unused : ∀ b, ¬ Uses disk (inode count).addrs b := by
    rw [unset]
    exact not_uses_none
  refine ⟨fun i inside => ?_, fun i inside => ?_, fun i inside => ?_, fun i inside b used => ?_,
    fun i inside j inJ b one two => ?_, stored.zero, ?_⟩
  · rcases Nat.lt_succ_iff_lt_or_eq.mp inside with old | rfl
    · exact stored.fits i old
    · exact fits
  · rcases Nat.lt_succ_iff_lt_or_eq.mp inside with old | rfl
    · exact stored.holds i old
    · rw [unset, empty]
      exact holds_nil
  · rcases Nat.lt_succ_iff_lt_or_eq.mp inside with old | rfl
    · exact stored.tight i old
    · rw [unset]
      exact ⟨fun n _ _ => entry_none n, fun _ => rfl⟩
  · rcases Nat.lt_succ_iff_lt_or_eq.mp inside with old | rfl
    · exact stored.range i old b used
    · exact absurd used (unused b)
  · rcases Nat.lt_succ_iff_lt_or_eq.mp inside with old | rfl
    · rcases Nat.lt_succ_iff_lt_or_eq.mp inJ with oldJ | rfl
      · exact stored.apart i old j oldJ b one two
      · exact absurd two (unused b)
    · exact absurd one (unused b)
  · rw [stored.spent, total, total, sum_range_succ, none]
    rfl

end

/-- The image between two calls of `ialloc` and `iappend`. -/
structure Built (s : Image) (contents : Nat → List UInt8) : Prop where
  length : s.length = fssize
  room : s.freeblock ≤ fssize
  count : s.freeinode ≤ ninodeblocks * ipb
  superblock : s.disk 1 = putSuperblock zeroes sb
  size : ∀ i < s.freeinode, (dinode s.disk i).size = (contents i).length
  stored :
    Stored s.disk s.freeblock s.freeinode (dinode s.disk) contents fun j => (contents j).length
  next : ∀ i, s.freeinode ≤ i → contents i = []

theorem meets_winode {post : Unit → Image → Prop} (long : s.length = fssize)
    (inside : inum < ninodeblocks * ipb)
    (result : post () { s with
      disk := update s.disk (sb.iblock inum)
        (putDinode (s.disk (sb.iblock inum)) (inum % ipb) din) }) :
    Meets (winode inum din) s post stops := by
  have block := iblock_inside inside
  have below : sb.iblock inum < s.length := by
    rw [long]
    exact block.2.trans (by decide)
  unfold winode
  rw [meets_bind]
  refine meets_rsect (fun _ => meets_wsect ?_) fun outside => absurd below outside
  rw [Nat.max_eq_left below]
  exact result

theorem meets_rinode {post : Dinode → Image → Prop} (long : s.length = fssize)
    (inside : inum < ninodeblocks * ipb)
    (result : post (dinode s.disk inum) s) : Meets (rinode inum) s post stops := by
  have block := iblock_inside inside
  unfold rinode
  rw [meets_bind]
  refine meets_rsect (fun _ => meets_pure.mpr result) fun outside => absurd ?_ outside
  rw [long]
  exact block.2.trans (by decide)

theorem iappend_meets (built : Built s contents) (inside : i < s.freeinode) (p : List UInt8) :
    Meets (iappend i p) s
      (fun _ t => t.freeinode = s.freeinode ∧ Built t (update contents i (contents i ++ p)))
      fun _ => ¬ Roomy s.freeinode (update contents i (contents i ++ p)) := by
  have low : i < ninodeblocks * ipb := lt_of_lt_of_le inside built.count
  unfold iappend
  rw [meets_bind]
  refine meets_rinode built.length low ?_
  have loop := appendLoop_meets p built.stored inside rfl built.room built.length
  rw [built.size i inside]
  refine loop.bind fun result t after => ?_
  obtain ⟨frame, same, offset, bound, stored⟩ := after
  refine meets_winode (frame.length.trans built.length) low ?_
  have fits := stored.fits i inside
  have small := (stored.holds i inside).small
  rw [update_self] at fits
  rw [update_self, List.length_append] at small
  have block := iblock_inside low
  have fits' : ({ result.1 with size := result.2 } : Dinode).Fits := by
    refine ⟨fits.type, fits.major, fits.minor, fits.nlink, ?_, fits.addrs, fits.beyond⟩
    rw [offset]
    exact small.trans_lt (by decide)
  have inodes := dinode_put t.disk i fits'
  have elsewhere : ∀ b, b ≠ sb.iblock i → update t.disk (sb.iblock i)
      (putDinode (t.disk (sb.iblock i)) (i % ipb) { result.1 with size := result.2 })
        b = t.disk b :=
    fun b other => update_of_ne other _ _
  have kept : ∀ j < s.freeinode, dinode t.disk j = dinode s.disk j := by
    intro j inJ
    have below := iblock_inside (lt_of_lt_of_le inJ built.count)
    unfold dinode
    rw [frame.low _ (below.2.trans (by decide))]
  refine ⟨frame.freeinode, ?_⟩
  constructor
  · exact frame.length.trans built.length
  · exact bound
  · exact frame.freeinode.trans_le built.count
  · have apart : 1 ≠ sb.iblock i := by
      unfold nlog Log.logsize Log.maxopblocks at block
      omega
    exact (elsewhere 1 apart).trans ((frame.low 1 (by decide)).trans built.superblock)
  · intro j inJ
    rw [frame.freeinode] at inJ
    rw [inodes]
    by_cases here : j = i
    · rw [here, update_self, update_self, List.length_append]
      exact offset
    · rw [update_of_ne here, update_of_ne here, kept j inJ]
      exact built.size j inJ
  · have placed := stored.metadata fun b above =>
      elsewhere b (ne_of_gt (block.2.trans (lt_of_lt_of_le (by decide) above)))
    rw [← frame.freeinode] at placed kept
    refine placed.inodes (fun j _ => Dinode.fits_get _ _) fun j inJ => ?_
    rw [inodes]
    by_cases here : j = i
    · rw [here, update_self, update_self]
    · rw [update_of_ne here, update_of_ne here, kept j inJ]
  · intro j beyond
    rw [frame.freeinode] at beyond
    rw [update_of_ne (by omega)]
    exact built.next j beyond

theorem ialloc_meets (built : Built s contents) (more : s.freeinode < ninodeblocks * ipb)
    (small : type < 2 ^ 16) :
    Meets (ialloc type) s
      (fun inum t => inum = s.freeinode ∧ t.freeinode = s.freeinode + 1 ∧
        Built t contents) stops := by
  have block := iblock_inside more
  have fits : ({ type := type, nlink := 1 } : Dinode).Fits :=
    ⟨small, Nat.two_pow_pos 16, Nat.two_pow_pos 16, Nat.one_lt_two_pow (by decide),
      Nat.two_pow_pos 32, fun _ => Nat.two_pow_pos 32, fun _ _ => rfl⟩
  have inodes := dinode_put s.disk s.freeinode fits
  have elsewhere : ∀ b, b ≠ sb.iblock s.freeinode → update s.disk (sb.iblock s.freeinode)
      (putDinode (s.disk (sb.iblock s.freeinode)) (s.freeinode % ipb) { type := type, nlink := 1 })
        b = s.disk b :=
    fun b other => update_of_ne other _ _
  unfold ialloc
  rw [meets_bind, meets_get, meets_bind, meets_set, meets_bind]
  refine meets_winode (s := { s with freeinode := s.freeinode + 1 }) built.length more
    (meets_pure.mpr ?_)
  refine ⟨rfl, rfl, ?_⟩
  constructor
  · exact built.length
  · exact built.room
  · exact more
  · refine (elsewhere 1 ?_).trans built.superblock
    unfold nlog Log.logsize Log.maxopblocks at block
    omega
  · intro j inJ
    have within : j < s.freeinode + 1 := inJ
    rw [inodes]
    by_cases here : j = s.freeinode
    · rw [here, update_self, built.next _ le_rfl]
      rfl
    · rw [update_of_ne here]
      exact built.size j (by omega)
  · have same : ∀ j < s.freeinode, (update (dinode s.disk) s.freeinode
        { type := type, nlink := 1 } j).addrs = (dinode s.disk j).addrs := fun j inJ => by
      rw [update_of_ne (ne_of_lt inJ)]
    have placed := (built.stored.metadata fun b above => elsewhere b
      (ne_of_gt (block.2.trans (lt_of_lt_of_le (by decide) above)))).inodes
      (fun j inJ => by rw [update_of_ne (ne_of_lt inJ)]; exact Dinode.fits_get _ _) same
    rw [inodes]
    refine placed.addInode ?_ ?_ (built.next _ le_rfl) (by rw [built.next _ le_rfl]; rfl)
    · rw [update_self]
      exact fits
    · rw [update_self]
  · intro j beyond
    exact built.next j (Nat.le_of_succ_le beyond)

end EnhancedXv6.FileSystem.Mkfs
