import EnhancedXv6.FileSystem.Writing

namespace EnhancedXv6.FileSystem

open Foundation Function

variable {s t : Volume} {ip ip' : Inode} {contents : Nat → List UInt8}
  {bytes after src : List UInt8} {off n inum j : Nat}

structure Volume.Consistent (s : Volume) (contents : Nat → List UInt8) : Prop where
  opened : ∀ i < s.sb.ninodes, Opened s (s.inode i) (contents i)
  apart : ∀ i < s.sb.ninodes, ∀ j < s.sb.ninodes, i ≠ j → ∀ b, Uses s.disk (s.inode i).addrs b →
    ¬ Uses s.disk (s.inode j).addrs b
  tables : ∀ i < s.sb.ninodes, ∀ j < s.sb.ninodes, ∀ b, Uses s.disk (s.inode i).addrs b →
    b ≠ s.sb.iblock j

/-- What `readi` returns for every offset and length: a part of the bytes, and nothing if the sum of
the two is not a `uint`. -/
def Volume.Shows (s : Volume) (ip : Inode) (bytes : List UInt8) : Prop :=
  ip.size = bytes.length ∧ ∀ off n, off < 2 ^ 32 → n < 2 ^ 32 →
    ∃ part, readi (fun _ => true) ip off n s = .ok (((part.length : Int), part, ip), s) ∧
      part = if off + n < 2 ^ 32 then (bytes.drop off).take n else []

theorem Opened.shows (opened : Opened s ip bytes) : s.Shows ip bytes := by
  refine ⟨opened.size, fun off n offSmall nSmall => ⟨_, ?_, rfl⟩⟩
  split
  · rename_i plain
    have meets : Meets (readi (fun _ => true) ip off n) s _ fun _ => False :=
      readi_meets opened.holds opened.size plain
    obtain ⟨_, _, ended, rfl, rfl⟩ := meets.ends
    exact ended
  · rename_i wraps
    have stop : (off + n) % 2 ^ 32 < off := by omega
    unfold readi
    rw [if_pos (.inr stop)]
    rfl

theorem Volume.Shows.unique (small : ip.size < 2 ^ 32) (first : s.Shows ip bytes)
    (second : s.Shows ip after) : bytes = after := by
  obtain ⟨size, read⟩ := first
  obtain ⟨size', read'⟩ := second
  obtain ⟨part, ended, whole⟩ := read 0 ip.size (by decide) small
  obtain ⟨part', ended', whole'⟩ := read' 0 ip.size (by decide) small
  rw [ended] at ended'
  have same : part = part' := congrArg (fun r => r.2.1) (Prod.mk.inj (Except.ok.inj ended')).1
  rw [Nat.zero_add, if_pos small, List.drop_zero] at whole whole'
  rw [size, List.take_length] at whole
  rw [size', List.take_length] at whole'
  rw [← whole, ← whole', same]

section Write

variable (stores : Stores s t (s.inode inum) ip')
include stores

theorem Stores.inode_self (fits : ip'.toDinode.Fits) : t.inode inum = ip' := by
  have same : ip'.inum = inum := stores.inum
  have read : getDinode (t.disk (s.sb.iblock inum)) (inum % ipb) = ip'.toDinode := by
    have written := stores.inode
    change t.disk (s.sb.iblock inum) = putDinode (s.disk (s.sb.iblock inum))
      (inum % ipb) ip'.toDinode at written
    rw [written, getDinode_putDinode _ _ fits]
  unfold Volume.inode
  rw [stores.sb, read]
  cases ip'
  simp only at same
  rw [same]

variable (consistent : s.Consistent contents) (known : inum < s.sb.ninodes)
  (there : j < s.sb.ninodes) (other : j ≠ inum)
include consistent known there other

theorem Stores.other_block (b : Nat) (use : Uses s.disk (s.inode j).addrs b) :
    t.disk b = s.disk b := by
  have sound := (consistent.opened j there).sound
  exact stores.others b (sound.used b use) (consistent.apart j there inum known other b use)
    (sound.plain b use).2
    (consistent.tables j there inum known b use)

theorem Stores.inode_other : t.inode j = s.inode j := by
  have sound := (consistent.opened j there).sound
  have same : getDinode (t.disk (s.sb.iblock j)) (j % ipb) =
      getDinode (s.disk (s.sb.iblock j)) (j % ipb) := by
    by_cases block : s.sb.iblock j = s.sb.iblock inum
    · have slot : j % ipb ≠ inum % ipb := by
        unfold Superblock.iblock ipb bsize at *
        omega
      have written := stores.inode
      change t.disk (s.sb.iblock inum) = putDinode (s.disk (s.sb.iblock inum))
        (inum % ipb) ip'.toDinode at written
      rw [block, written, getDinode_putDinode_of_ne _ _ slot]
    · rw [stores.others (s.sb.iblock j) sound.inode (fun use => ?_) sound.table block]
      exact consistent.tables inum known j there _ use rfl
  unfold Volume.inode
  rw [stores.sb, same]

theorem Stores.other_uses (b : Nat) :
    Uses t.disk (s.inode j).addrs b ↔ Uses s.disk (s.inode j).addrs b :=
  uses_congr fun found => stores.other_block consistent known there other _ (uses_indirect found)

theorem Stores.other_opened : Opened t (s.inode j) (contents j) := by
  have opened := consistent.opened j there
  refine ⟨opened.sound.change stores.sb stores.taken fun b use => .inl ?_,
    opened.holds.congr fun b use => ?_, opened.fits, opened.size⟩
  · exact (stores.other_uses consistent known there other b).mp use
  · exact stores.other_block consistent known there other b use

end Write

theorem Volume.Consistent.write (consistent : s.Consistent contents) (known : inum < s.sb.ninodes)
    (stores : Stores s t (s.inode inum) ip') (opened : Opened t ip' after) :
    t.Consistent (update contents inum after) := by
  have self : t.inode inum = ip' := stores.inode_self opened.fits
  have others {j : Nat} (there : j < s.sb.ninodes) (other : j ≠ inum) : t.inode j = s.inode j :=
    stores.inode_other consistent known there other
  have same {j : Nat} (there : j < s.sb.ninodes) (other : j ≠ inum) (b : Nat) :
      Uses t.disk (t.inode j).addrs b ↔ Uses s.disk (s.inode j).addrs b := by
    rw [others there other]
    exact stores.other_uses consistent known there other b
  have taken {j : Nat} (there : j < s.sb.ninodes) (b : Nat)
      (use : Uses s.disk (s.inode j).addrs b) : s.Taken b :=
    (consistent.opened j there).sound.used b use
  have own (b : Nat) (use : Uses t.disk (t.inode inum).addrs b) :
      Uses s.disk (s.inode inum).addrs b ∨ ¬ s.Taken b := by
    rw [self] at use
    exact (stores.uses b use).imp_right And.right
  have separate {j : Nat} (there : j < s.sb.ninodes) (other : j ≠ inum) (b : Nat)
      (use : Uses t.disk (t.inode inum).addrs b) : ¬ Uses t.disk (t.inode j).addrs b := by
    intro both
    have theirs := (same there other b).mp both
    rcases own b use with old | new
    · exact consistent.apart inum known j there other.symm b old theirs
    · exact new (taken there b theirs)
  constructor
  · intro j there
    rw [stores.sb] at there
    by_cases here : j = inum
    · subst here
      rw [self, update_self]
      exact opened
    · rw [update_of_ne here, others there here]
      exact stores.other_opened consistent known there here
  · intro i first j second apart b use
    rw [stores.sb] at first second
    by_cases here : i = inum
    · subst here
      exact separate second apart.symm b use
    · by_cases there : j = inum
      · subst there
        exact fun both => separate first here b both use
      · rw [same second there]
        exact consistent.apart i first j second apart b ((same first here b).mp use)
  · intro i first j second b use
    rw [stores.sb] at first second ⊢
    by_cases here : i = inum
    · subst here
      rcases own b use with old | new
      · exact consistent.tables i known j second b old
      · rintro rfl
        exact new (consistent.opened j second).sound.inode
    · exact consistent.tables i first j second b ((same first here b).mp use)

section Small

def oneBlock (b : Nat) : Nat → Nat := fun i => if i = 0 then b else 0

theorem entry_oneBlock (disk : Disk) (b n : Nat) :
    entry disk (oneBlock b) n = if n = 0 then b else 0 := by
  unfold entry oneBlock
  by_cases first : n = 0
  · simp [first, ndirect]
  · simp [first, ndirect]

theorem uses_oneBlock {disk : Disk} {b x : Nat} (use : Uses disk (oneBlock b) x) : x = b := by
  obtain ⟨real, table | ⟨n, _, found⟩⟩ := use
  · exact absurd table real
  · rw [entry_oneBlock] at found
    split at found
    · exact found.symm
    · exact absurd found.symm real

theorem holds_oneBlock {disk : Disk} {b : Nat} (real : b ≠ 0) (few : bytes.length ≤ bsize)
    (byte : ∀ k (inside : k < bytes.length), disk b k = bytes[k]) :
    Holds disk (oneBlock b) bytes := by
  have first {n : Nat} (found : entry disk (oneBlock b) n ≠ 0) : n = 0 := by
    by_contra other
    rw [entry_oneBlock, if_neg other] at found
    exact found rfl
  refine ⟨⟨fun n _ m _ found same => ?_, fun n _ found => ?_⟩, few.trans (by decide),
    fun n below => ?_, fun k inside => ?_⟩
  · have there : entry disk (oneBlock b) m ≠ 0 := same ▸ found
    rw [first found, first there]
  · exact found
  · have zero : n = 0 := by
      unfold bsize at *
      omega
    rw [entry_oneBlock, if_pos zero]
    exact real
  · have small := inside.trans_le few
    rw [Nat.div_eq_of_lt small, Nat.mod_eq_of_lt small, entry_oneBlock, if_pos rfl]
    exact byte k inside

def smallDinode : Dinode := { type := tFile, nlink := 1, size := 2, addrs := oneBlock 3 }

/-- Eight blocks: the bitmap, the inodes, and the one block of a file of two bytes. -/
def smallVolume : Volume where
  disk b :=
    if b = 1 then Function.update zeroes 0 15
    else if b = 2 then putDinode zeroes 1 smallDinode
    else if b = 3 then fun o => [1, 2].getD o 0
    else zeroes
  sb :=
    { magic := 0, size := 8, nblocks := 5, ninodes := 2, nlog := 0, logstart := 0, inodestart := 2,
      bmapstart := 1 }
  outstanding := 1
  complaints := 0

def smallContents (inum : Nat) : List UInt8 :=
  if inum = 1 then [1, 2] else []

theorem smallDinode_fits : smallDinode.Fits := by
  refine ⟨by decide, by decide, by decide, by decide, by decide, fun i => ?_, fun i beyond => ?_⟩
  · unfold smallDinode oneBlock
    dsimp only
    split <;> decide
  · exact if_neg (by omega)

theorem smallVolume_inode : smallVolume.inode 1 = { smallDinode with inum := 1 } := by
  have read : getDinode (putDinode zeroes 1 smallDinode) 1 = smallDinode :=
    getDinode_putDinode _ _ smallDinode_fits
  change ({ getDinode (putDinode zeroes 1 smallDinode) 1 with inum := 1 } : Inode) = _
  rw [read]

theorem smallVolume_empty :
    (smallVolume.inode 0).addrs = oneBlock 0 ∧ (smallVolume.inode 0).size = 0 := by
  have read : getDinode (putDinode zeroes 1 smallDinode) 0 = getDinode zeroes 0 :=
    getDinode_putDinode_of_ne _ _ (by decide)
  have zero (a count : Nat) : load zeroes a count = 0 := load_zero fun _ _ _ => rfl
  constructor
  · change (getDinode (putDinode zeroes 1 smallDinode) 0).addrs = _
    rw [read]
    funext i
    simp [getDinode, zero, oneBlock]
  · change (getDinode (putDinode zeroes 1 smallDinode) 0).size = _
    rw [read]
    exact zero _ _

theorem smallVolume_sound (b inum : Nat) (first : inum < 2) (block : b = 0 ∨ b = 3) :
    Sound smallVolume inum (oneBlock b) := by
  have bitmap (c : Nat) (inside : c < 8) : smallVolume.sb.bblock c = 1 := by
    change c / bpb + 1 = 1
    rw [Nat.div_eq_of_lt (inside.trans (by decide))]
  have inode : smallVolume.sb.iblock inum = 2 := by
    change inum / ipb + 2 = 2
    rw [Nat.div_eq_of_lt (first.trans (by decide))]
  have taken (c : Nat) (inside : c < 4) : smallVolume.Taken c := by
    refine ⟨inside.trans (by decide), ?_⟩
    rw [bitmap c (by omega), Nat.mod_eq_of_lt (inside.trans (by decide))]
    change marked (update zeroes 0 15) c = true
    unfold marked
    rw [Nat.div_eq_of_lt (by omega), Nat.mod_eq_of_lt (by omega)]
    rw [update_self]
    interval_cases c <;> rfl
  have only (x : Nat) (use : Uses smallVolume.disk (oneBlock b) x) : x = 3 := by
    have same := uses_oneBlock use
    rcases block with rfl | rfl
    · exact absurd same use.1
    · exact same
  refine ⟨by decide, taken 0 (by decide), fun c inside => ?_, ?_, fun c inside => ?_,
    fun x use => ?_, fun x use => ?_⟩
  · rw [bitmap c inside]
    exact taken 1 (by decide)
  · rw [inode]
    exact taken 2 (by decide)
  · rw [inode, bitmap c inside]
    decide
  · rw [only x use]
    exact taken 3 (by decide)
  · rw [only x use, inode]
    refine ⟨by decide, fun c inside => ?_⟩
    rw [bitmap c inside]
    decide

theorem smallVolume_opened : Opened smallVolume (smallVolume.inode 1) [1, 2] := by
  rw [smallVolume_inode]
  refine ⟨smallVolume_sound 3 1 (by decide) (.inr rfl),
    holds_oneBlock (by decide) (by decide) fun k inside => ?_, smallDinode_fits, rfl⟩
  exact List.getD_eq_getElem _ _ inside

theorem smallVolume_consistent : smallVolume.Consistent smallContents := by
  obtain ⟨addrs, size⟩ := smallVolume_empty
  have cases {i : Nat} (inside : i < smallVolume.sb.ninodes) : i = 0 ∨ i = 1 := by
    change i < 2 at inside
    omega
  have full : (smallVolume.inode 1).addrs = oneBlock 3 := by
    rw [smallVolume_inode]
    rfl
  have unused (b : Nat) : ¬ Uses smallVolume.disk (smallVolume.inode 0).addrs b := by
    rw [addrs]
    exact fun use => use.1 (uses_oneBlock use)
  refine ⟨fun i inside => ?_, fun i first j second other b use => ?_,
    fun i first j second b use => ?_⟩
  · rcases cases inside with rfl | rfl
    · refine ⟨?_, ?_, Dinode.fits_get _ _, size⟩
      · rw [addrs]
        exact smallVolume_sound 0 0 (by decide) (.inl rfl)
      · have none : oneBlock 0 = fun _ => 0 := funext fun i => ite_self 0
        rw [addrs, none]
        exact holds_nil
    · exact smallVolume_opened
  · rcases cases first with rfl | rfl
    · exact absurd use (unused b)
    · rcases cases second with rfl | rfl
      · exact unused b
      · exact absurd rfl other
  · rcases cases first with rfl | rfl
    · exact absurd use (unused b)
    · rw [full] at use
      rw [uses_oneBlock use]
      rcases cases second with rfl | rfl <;> decide

end Small

/-- `writei` to a file of a consistent volume where no block is missing, and what every later
`readi` returns: each inode is an array of bytes. -/
theorem writei_byte_array (s : Volume) (contents : Nat → List UInt8)
    (consistent : s.Consistent contents) (inside : 0 < s.outstanding) (inum : Nat)
    (known : inum < s.sb.ninodes) (off : Nat) (src : List UInt8)
    (start : off ≤ (s.inode inum).size) (bound : off + src.length ≤ maxfile * bsize) :
    ∃ r ip t, writei (fun _ => true) (s.inode inum) off src s = .ok ((r, ip), t) ∧
      (t.complaints = s.complaints → r = src.length ∧
        ip.size = max (s.inode inum).size (off + src.length) ∧
        t.inode inum = ip ∧ t.Shows ip (splice (contents inum) off src) ∧
        ∀ j, j < s.sb.ninodes → j ≠ inum → s.Shows (s.inode j) (contents j) ∧
        t.Shows (t.inode j) (contents j)) := by
  have opened := consistent.opened inum known
  rw [opened.size] at start ⊢
  have meets : Meets (writei (fun _ => true) (s.inode inum) off src) s _ fun _ => False :=
    writei_meets inside opened start bound
  obtain ⟨⟨r, ip⟩, t, ended, k, content, result, after, stores, written, whole⟩ := meets.ends
  refine ⟨r, ip, t, ended, fun quiet => ?_⟩
  have all := whole quiet fun _ _ => rfl
  have length := written.length
  have exact := written.all
  rw [all] at length
  rw [all, List.take_length] at exact
  rw [exact] at after length
  have consistent' := consistent.write known stores after
  refine ⟨by rw [← all]; exact result, after.size.trans length, stores.inode_self after.fits,
    after.shows, fun j there other => ?_⟩
  have opened' := consistent'.opened j (by rw [stores.sb]; exact there)
  rw [update_of_ne other] at opened'
  exact ⟨(consistent.opened j there).shows, opened'.shows⟩

/-- One byte is written to the small file. -/
theorem writei_byte_array_small : ∃ r ip t, smallVolume.Consistent smallContents ∧
    writei (fun _ => true) (smallVolume.inode 1) 0 [9] smallVolume = .ok ((r, ip), t) ∧ r = 1 ∧
    t.Shows ip [9, 2] := by
  obtain ⟨r, ip, t, ended, after⟩ :=
    writei_byte_array smallVolume smallContents smallVolume_consistent (by decide) 1
    (by decide) 0 [9] (Nat.zero_le _) (by decide)
  have found := smallVolume_opened.holds.mapped 0 (by decide)
  have meets :
      Meets (writei (fun _ => true) (smallVolume.inode 1) 0 [9]) smallVolume _ fun _ => False :=
    writei_inside (by decide) (by decide) found (by decide) (by decide)
  obtain ⟨result, _, _, shows, _⟩ := after (meets.result ended)
  exact ⟨r, ip, t, smallVolume_consistent, ended, result, shows⟩

/-- A sum of offset and length that is not a `uint` makes `readi` return nothing, although there is
a byte at the offset. -/
theorem readi_wrapped_sum : ∃ ip t, smallVolume.Consistent smallContents ∧
    writei (fun _ => true) (smallVolume.inode 1) 0 [9] smallVolume = .ok ((1, ip), t) ∧
    t.complaints = smallVolume.complaints ∧ readi (fun _ => true) ip 1 (2 ^ 32 - 1) t =
    .ok ((0, [], ip), t) ∧
    ((splice (smallContents 1) 0 [9]).drop 1).take (2 ^ 32 - 1) = [2] := by
  have found := smallVolume_opened.holds.mapped 0 (by decide)
  have meets :
      Meets (writei (fun _ => true) (smallVolume.inode 1) 0 [9]) smallVolume _ fun _ => False :=
    (writei_meets (by decide) smallVolume_opened (Nat.zero_le _) (by decide)).and
      (writei_inside (by decide) (by decide) found (by decide) (by decide))
  obtain ⟨⟨r, ip⟩, t, ended, ⟨k, content, result, after, _, _, whole⟩, quiet⟩ := meets.ends
  have all := whole quiet fun _ _ => rfl
  subst all
  subst result
  obtain ⟨part, read, empty⟩ := after.shows.2 1 (2 ^ 32 - 1) (by decide) (by decide)
  rw [if_neg (by decide)] at empty
  subst empty
  exact ⟨ip, t, smallVolume_consistent, ended, quiet, read, rfl⟩

end EnhancedXv6.FileSystem
