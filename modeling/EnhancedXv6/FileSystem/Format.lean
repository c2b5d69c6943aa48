import EnhancedXv6.Foundation.ByteMemory

namespace EnhancedXv6.FileSystem

open Foundation

def bsize : Nat := 1024

def ndirect : Nat := 12

def nindirect : Nat := bsize / 4

def maxfile : Nat := ndirect + nindirect

/-- `IPB`: an inode has 64 bytes. -/
def ipb : Nat := bsize / 64

def bpb : Nat := bsize * 8

def rootino : Nat := 1

def dirsiz : Nat := 14

def tDir : Nat := 1

def tFile : Nat := 2

abbrev Block := Memory

abbrev Disk := Nat → Block

def zeroes : Block := fun _ => 0

structure Superblock where
  magic : Nat
  size : Nat
  nblocks : Nat
  ninodes : Nat
  nlog : Nat
  logstart : Nat
  inodestart : Nat
  bmapstart : Nat
  deriving DecidableEq, Repr

/-- `struct dinode`; `addrs` has `NDIRECT + 1` entries. -/
structure Dinode where
  type : Nat := 0
  major : Nat := 0
  minor : Nat := 0
  nlink : Nat := 0
  size : Nat := 0
  addrs : Nat → Nat := fun _ => 0

def Superblock.iblock (sb : Superblock) (inum : Nat) : Nat := inum / ipb + sb.inodestart

def Superblock.bblock (sb : Superblock) (b : Nat) : Nat := b / bpb + sb.bmapstart

/-- An array of `uint` in memory. -/
def storeWords (m : Memory) (a count : Nat) (words : Nat → Nat) : Memory :=
  fun x => if a ≤ x ∧ x < a + 4 * count then
    .ofNat (words ((x - a) / 4) / 256 ^ ((x - a) % 4)) else m x

def getDinode (b : Block) (slot : Nat) : Dinode where
  type := load b (64 * slot) 2
  major := load b (64 * slot + 2) 2
  minor := load b (64 * slot + 4) 2
  nlink := load b (64 * slot + 6) 2
  size := load b (64 * slot + 8) 4
  addrs i := if i ≤ ndirect then load b (64 * slot + 12 + 4 * i) 4 else 0

def putDinode (b : Block) (slot : Nat) (d : Dinode) : Block :=
  let b := store b (64 * slot) 2 d.type
  let b := store b (64 * slot + 2) 2 d.major
  let b := store b (64 * slot + 4) 2 d.minor
  let b := store b (64 * slot + 6) 2 d.nlink
  let b := store b (64 * slot + 8) 4 d.size
  storeWords b (64 * slot + 12) (ndirect + 1) d.addrs

def getSuperblock (b : Block) : Superblock where
  magic := load b 0 4
  size := load b 4 4
  nblocks := load b 8 4
  ninodes := load b 12 4
  nlog := load b 16 4
  logstart := load b 20 4
  inodestart := load b 24 4
  bmapstart := load b 28 4

def putSuperblock (b : Block) (sb : Superblock) : Block :=
  storeWords b 0 8 fun i => [sb.magic, sb.size, sb.nblocks, sb.ninodes, sb.nlog, sb.logstart,
    sb.inodestart, sb.bmapstart].getD i 0

def marked (b : Block) (bi : Nat) : Bool := (b (bi / 8)).toNat.testBit (bi % 8)

def mark (b : Block) (bi : Nat) : Block :=
  Function.update b (bi / 8) (b (bi / 8) ||| .ofNat (2 ^ (bi % 8)))

section Words

variable {m : Memory} {a count : Nat} {words : Nat → Nat}

theorem storeWords_other (outside : x < a ∨ a + 4 * count ≤ x) :
    storeWords m a count words x = m x :=
  if_neg (by omega)

theorem load_storeWords (inside : i < count) (bounded : words i < 2 ^ 32) :
    load (storeWords m a count words) (a + 4 * i) 4 = words i := by
  have same : load (storeWords m a count words) (a + 4 * i) 4 =
      load (store m (a + 4 * i) 4 (words i)) (a + 4 * i) 4 := by
    refine load_congr fun x low high => ?_
    rw [storeWords, if_pos ⟨by omega, by omega⟩, store, if_pos ⟨low, high⟩,
      show (x - a) / 4 = i by omega, show (x - a) % 4 = x - (a + 4 * i) by omega]
  rw [same, load_store_same bounded]

theorem load_storeWords_other (apart : b + width ≤ a ∨ a + 4 * count ≤ b) :
    load (storeWords m a count words) b width = load m b width :=
  load_congr fun x _ _ => storeWords_other (by omega)

theorem load_store_apart (apart : b + width ≤ a ∨ a + count ≤ b) :
    load (store m a count value) b width = load m b width :=
  load_congr fun x _ _ => store_other (by omega)

end Words

structure Dinode.Fits (d : Dinode) : Prop where
  type : d.type < 2 ^ 16
  major : d.major < 2 ^ 16
  minor : d.minor < 2 ^ 16
  nlink : d.nlink < 2 ^ 16
  size : d.size < 2 ^ 32
  addrs : ∀ i, d.addrs i < 2 ^ 32
  beyond : ∀ i, ndirect < i → d.addrs i = 0

theorem getDinode_putDinode {d : Dinode} (b : Block) (slot : Nat) (fits : d.Fits) :
    getDinode (putDinode b slot d) slot = d := by
  obtain ⟨type, major, minor, nlink, size, addrs⟩ := d
  simp only [getDinode, putDinode, Dinode.mk.injEq]
  refine ⟨?_, ?_, ?_, ?_, ?_, ?_⟩
  · rw [load_storeWords_other (by omega), load_store_apart (by omega), load_store_apart (by omega),
      load_store_apart (by omega), load_store_apart (by omega), load_store_same fits.type]
  · rw [load_storeWords_other (by omega), load_store_apart (by omega), load_store_apart (by omega),
      load_store_apart (by omega), load_store_same fits.major]
  · rw [load_storeWords_other (by omega), load_store_apart (by omega), load_store_apart (by omega),
      load_store_same fits.minor]
  · rw [load_storeWords_other (by omega), load_store_apart (by omega), load_store_same fits.nlink]
  · rw [load_storeWords_other (by omega), load_store_same fits.size]
  · funext i
    by_cases inside : i ≤ ndirect
    · rw [if_pos inside, load_storeWords (by omega) (fits.addrs i)]
    · rw [if_neg inside]
      exact (fits.beyond i (by omega)).symm

theorem getDinode_putDinode_of_ne (b : Block) (d : Dinode) (other : slot' ≠ slot) :
    getDinode (putDinode b slot d) slot' = getDinode b slot' := by
  have kept : ∀ o width, o + width ≤ 64 →
      load (putDinode b slot d) (64 * slot' + o) width = load b (64 * slot' + o) width := by
    intro o width inside
    unfold putDinode
    have apart : 64 * slot' + 64 ≤ 64 * slot ∨ 64 * slot + 64 ≤ 64 * slot' := by omega
    rw [load_storeWords_other (by unfold ndirect; omega), load_store_apart (by omega),
      load_store_apart (by omega), load_store_apart (by omega), load_store_apart (by omega),
      load_store_apart (by omega)]
  unfold getDinode
  simp only [Dinode.mk.injEq]
  refine ⟨kept 0 2 (by omega), kept 2 2 (by omega), kept 4 2 (by omega), kept 6 2 (by omega),
    kept 8 4 (by omega), ?_⟩
  funext i
  by_cases inside : i ≤ ndirect
  · rw [if_pos inside, if_pos inside, add_assoc, kept _ 4 (by unfold ndirect at inside; omega)]
  · rw [if_neg inside, if_neg inside]

theorem Dinode.fits_get (b : Block) (slot : Nat) : (getDinode b slot).Fits where
  type := load_lt
  major := load_lt
  minor := load_lt
  nlink := load_lt
  size := load_lt
  addrs i := by
    by_cases inside : i ≤ ndirect
    · exact (if_pos inside).trans_lt load_lt
    · exact (if_neg inside).trans_lt (by decide)
  beyond i outside := if_neg (by omega)

theorem Dinode.Fits.addr {d : Dinode} (fits : d.Fits) (inside : n ≤ ndirect) (small : b < 2 ^ 32) :
    ({ d with addrs := Function.update d.addrs n b } : Dinode).Fits where
  type := fits.type
  major := fits.major
  minor := fits.minor
  nlink := fits.nlink
  size := fits.size
  addrs i := by
    by_cases here : i = n
    · simpa [here] using small
    · simpa [here] using fits.addrs i
  beyond i outside := by
    have other : i ≠ n := by omega
    simpa [other] using fits.beyond i outside

theorem marked_mark (b : Block) (bi x : Nat) :
    marked (mark b bi) x = (decide (x = bi) || marked b x) := by
  unfold marked mark
  by_cases byte : x / 8 = bi / 8
  · rw [byte, Function.update_self, UInt8.toNat_or, Nat.testBit_or, UInt8.toNat_ofNat',
      Nat.mod_eq_of_lt (Nat.pow_lt_pow_right (by decide) (Nat.mod_lt _ (by decide))),
      Nat.testBit_two_pow, Bool.or_comm]
    congr 1
    exact decide_eq_decide.mpr ⟨fun bit => by omega, fun same => by rw [same]⟩
  · have different : x ≠ bi := fun same => byte (by rw [same])
    rw [Function.update_of_ne byte]
    simp [different]

theorem marked_zeroes : marked zeroes x = false := by
  simp [marked, zeroes]

end EnhancedXv6.FileSystem
