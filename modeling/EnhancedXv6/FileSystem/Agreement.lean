import EnhancedXv6.FileSystem.MkfsMain
import EnhancedXv6.FileSystem.Reading

namespace EnhancedXv6.FileSystem

open Foundation Mkfs
open List hiding count

def mounted (image : Mkfs.Image) (outstanding complaints : Nat) : Volume where
  disk := image.disk
  sb := getSuperblock (image.disk 1)
  outstanding := outstanding
  complaints := complaints

theorem getSuperblock_putSuperblock : getSuperblock (putSuperblock zeroes sb) = sb := by
  have word : ∀ i < 8, load (putSuperblock zeroes sb) (4 * i) 4 =
      [sb.magic, sb.size, sb.nblocks, sb.ninodes, sb.nlog, sb.logstart,
        sb.inodestart, sb.bmapstart].getD i 0 := by
    intro i inside
    have stored : load (storeWords zeroes 0 8 fun i => [sb.magic, sb.size, sb.nblocks,
        sb.ninodes, sb.nlog, sb.logstart, sb.inodestart, sb.bmapstart].getD i 0)
        (0 + 4 * i) 4 = _ := load_storeWords inside (by interval_cases i <;> decide)
    rw [Nat.zero_add] at stored
    exact stored
  unfold getSuperblock
  rw [word 0 (by decide), word 1 (by decide), word 2 (by decide), word 3 (by decide),
    word 4 (by decide), word 5 (by decide), word 6 (by decide), word 7 (by decide)]
  rfl

namespace Mkfs

variable {image : Image} {files : List File}

section

variable (final : Final image files)

include final

theorem Final.mounted_sb (o c : Nat) : (mounted image o c).sb = sb := by
  change getSuperblock (image.disk 1) = sb
  rw [final.superblock, getSuperblock_putSuperblock]

theorem Final.inode_eq (o c inum : Nat) :
    ((mounted image o c).inode inum).toDinode = dinode image.disk inum := by
  unfold Volume.inode
  rw [final.mounted_sb]
  rfl

/-- The root directory has a hole iff its entries fill their blocks. -/
theorem Final.root_noHoles_iff :
    NoHoles image.disk (dinode image.disk rootino) ↔ (files.length + 2) % 64 ≠ 0 := by
  have inside : rootino < files.length + 2 := by
    unfold rootino
    omega
  have length := length_rootBytes files
  have holds := final.stored.holds rootino inside
  have tight := final.stored.tight rootino inside
  have size := final.root
  have small := holds.small
  change (rootBytes files).length ≤ _ at small
  change Tight _ _ (rootBytes files).length at tight
  unfold NoHoles
  rw [size, length]
  rw [length] at tight small
  constructor
  · intro whole full
    have last := whole (16 * (files.length + 2) / bsize) (by unfold bsize; omega)
    exact last.2 (tight.entries _ last.1 (by unfold bsize; omega))
  · intro partly n below
    have within : n * bsize < 16 * (files.length + 2) := by
      unfold bsize at *
      omega
    refine ⟨?_, holds.mapped n ?_⟩
    · unfold bsize maxfile ndirect nindirect bsize at *
      omega
    · change _ < (rootBytes files).length
      rw [length]
      exact within

theorem Final.file_noHoles (inside : k < files.length) :
    NoHoles image.disk (dinode image.disk (k + 2)) := by
  intro n below
  have holds := final.stored.holds (k + 2) (by omega)
  have small := holds.small
  rw [final.size k inside] at below
  refine ⟨?_, holds.mapped n below⟩
  unfold bsize at *
  omega

end

theorem main_ends (few : files.length + 2 ≤ ninodeblocks * ipb) (acceptable : Acceptable files) :
    ∃ image, main files start = .ok ((), image) ∧ Final image files := by
  obtain ⟨_, image, made, final⟩ :=
    ((main_meets files few).mono (fun _ _ => id) fun _ bad => bad acceptable).ends
  exact ⟨image, made, final⟩

theorem sum_getD (values : List (List UInt8)) :
    ∑ k ∈ Finset.range values.length, blocksFor (values.getD k []).length =
      (values.map fun bytes => blocksFor bytes.length).sum := by
  induction values with
  | nil => rfl
  | cons bytes rest ih =>
    rw [length_cons, Finset.sum_range_succ', map_cons, sum_cons, ← ih, add_comm]
    rfl

theorem total_expected (files : List File) :
    total (files.length + 2) (fun j => (expected files j).length) =
      blocksFor (16 * (files.length + 2)) +
        (files.map fun f => blocksFor f.contents.length).sum := by
  have sum := sum_getD (files.map File.contents)
  rw [length_map, map_map] at sum
  unfold total
  rw [Finset.sum_range_succ', Finset.sum_range_succ']
  change ∑ k ∈ Finset.range files.length, blocksFor ((files.map File.contents).getD k []).length +
    blocksFor (rootBytes files).length + blocksFor 0 = _
  rw [sum, length_rootBytes, add_comm (List.sum _)]
  rfl

theorem acceptable_of (names : ∀ f ∈ files, 47 ∉ withoutDir f.name)
    (sizes : ∀ f ∈ files, f.contents.length ≤ maxfile * bsize)
    (root : 16 * (files.length + 2) ≤ maxfile * bsize)
    (blocks : nmeta + (blocksFor (16 * (files.length + 2)) +
      (files.map fun f => blocksFor f.contents.length).sum) ≤ fssize) : Acceptable files := by
  refine ⟨names, by rw [total_expected]; exact blocks, fun i _ => ?_⟩
  match i with
  | 0 => exact Nat.zero_le _
  | 1 =>
    change (rootBytes files).length ≤ _
    rw [length_rootBytes]
    exact root
  | k + 2 =>
    change ((files.map File.contents).getD k []).length ≤ _
    rw [getD_eq_getElem?_getD, getElem?_map]
    cases found : files[k]? with
    | none => exact Nat.zero_le _
    | some f => exact sizes f (mem_of_getElem? found)

end Mkfs

open Mkfs

/-- No inode of an image has a hole, so that reading outside of a transaction never makes
`bmap` allocate. -/
structure Unbroken (image : Image) (count : Nat) : Prop where
  whole : ∀ inum, 0 < inum → inum < count →
    NoHoles image.disk ((mounted image 0 0).inode inum).toDinode
  silent : ∀ inum, 0 < inum → inum < count → ∀ copies off n, off < 2 ^ 32 → n < 2 ^ 32 →
    ∃ result, readi copies ((mounted image 0 0).inode inum) off n (mounted image 0 0) =
      .ok (result, mounted image 0 0)

theorem Unbroken.of_whole
    (whole : ∀ inum, 0 < inum → inum < count →
      NoHoles image.disk ((mounted image 0 0).inode inum).toDinode) :
    Unbroken image count := by
  refine ⟨whole, fun inum positive inside copies off n offSmall nSmall => ?_⟩
  obtain ⟨result, t, ended, same⟩ :=
    (readi_silent (s := mounted image 0 0) (whole inum positive inside) copies offSmall nSmall).ends
  rw [same] at ended
  exact ⟨result, ended⟩

/-- The image that `mkfs` makes of files whose inodes fit in the inode blocks has no hole
iff the entries of the root directory do not fill their last block. -/
theorem mkfs_no_holes_iff (files : List File) (image : Image)
    (few : files.length + 2 ≤ ninodeblocks * ipb) (made : main files start = .ok ((), image)) :
    Unbroken image (files.length + 2) ↔ (files.length + 2) % 64 ≠ 0 := by
  have final := (main_meets files few).result made
  rw [← final.root_noHoles_iff]
  constructor
  · intro unbroken
    have root := unbroken.whole rootino (by decide) (by unfold rootino; omega)
    rwa [final.inode_eq] at root
  · intro root
    refine Unbroken.of_whole fun inum positive inside => ?_
    rw [final.inode_eq]
    match inum with
    | 1 => exact root
    | k + 2 => exact final.file_noHoles (by omega)

/-- An empty file, one that is read in two parts, and one that needs the indirect block. -/
def threeFiles : List File :=
  [{ name := [117, 115, 101, 114, 47, 95, 97], chunks := [] },
    { name := [98], chunks := [[1, 2, 3], [4, 5]] },
    { name := [99], chunks := List.replicate 14 (List.replicate 1024 7) }]

theorem mkfs_no_holes_three :
    ∃ image, main threeFiles start = .ok ((), image) ∧ Unbroken image 5 := by
  have acceptable : Acceptable threeFiles :=
    acceptable_of (by decide) (by decide +kernel) (by decide) (by decide +kernel)
  obtain ⟨image, made, _⟩ := main_ends (by decide) acceptable
  exact ⟨image, made, (mkfs_no_holes_iff threeFiles image (by decide) made).mpr (by decide)⟩

def emptyFiles (n : Nat) : List File := List.replicate n { name := [97], chunks := [] }

theorem emptyFiles_acceptable (few : 16 * (n + 2) ≤ maxfile * bsize)
    (blocks : nmeta + blocksFor (16 * (n + 2)) ≤ fssize) : Acceptable (emptyFiles n) := by
  have one : ∀ f ∈ emptyFiles n, f = { name := [97], chunks := [] } :=
    fun f member => eq_of_mem_replicate member
  refine acceptable_of (fun f member => ?_) (fun f member => ?_) ?_ ?_
  · rw [one f member]
    decide
  · rw [one f member]
    decide
  · simpa [emptyFiles] using few
  · have none : ((emptyFiles n).map fun f => blocksFor f.contents.length).sum = 0 := by
      simp [emptyFiles, File.contents, show blocksFor 0 = 0 from rfl]
    rw [none]
    simpa [emptyFiles] using blocks

/-- With 62 files the root directory fills one block, and its size says two: reading its
second block panics. -/
theorem mkfs_root_hole : ∃ image, main (emptyFiles 62) start = .ok ((), image) ∧
    ¬ NoHoles image.disk ((mounted image 0 0).inode rootino).toDinode ∧
    readi (fun _ => true) ((mounted image 0 0).inode rootino) 1024 1 (mounted image 0 0) =
      .error .logWriteOutside := by
  have few : (emptyFiles 62).length + 2 ≤ ninodeblocks * ipb := by decide
  obtain ⟨image, made, final⟩ := main_ends few (emptyFiles_acceptable (by decide) (by decide))
  have size := final.root
  rw [length_rootBytes] at size
  have free : image.freeblock = 47 := by
    have sum := final.stored.spent
    rw [total_expected] at sum
    exact sum
  have unset : (dinode image.disk rootino).addrs 1 = 0 := by
    have tight := final.stored.tight rootino (by decide)
    change Tight _ _ (rootBytes (emptyFiles 62)).length at tight
    rw [length_rootBytes] at tight
    exact tight.entries 1 (by decide) (by decide)
  refine ⟨image, made, ?_, ?_⟩
  · rw [final.inode_eq, final.root_noHoles_iff]
    decide
  · have inode := final.inode_eq 0 0 rootino
    have sb := final.mounted_sb 0 0
    have unmarked : marked ((mounted image 0 0).disk ((mounted image 0 0).sb.bblock 47))
        (47 % bpb) = false := by
      rw [sb]
      exact (final.bitmap 47).trans (by rw [free]; decide)
    have hole : Meets (readi (fun _ => true) ((mounted image 0 0).inode rootino) 1024 1)
        (mounted image 0 0) _ _ :=
      readi_hole rfl (by rw [sb]; decide) unmarked (by decide) (by rw [inode]; exact unset)
        (by rw [inode, size]; decide) (by decide) (by rw [inode, size]; decide) fun _ => true
    obtain ⟨e, failed, same⟩ := hole.fails
    rw [failed, same]

/-- `mkfs` and the kernel agree: the image has the files, which `readi` returns, and their
blocks are marked in the bitmap that `balloc` reads. -/
structure Agrees (files : List File) (image : Image) : Prop where
  contents : ∀ k (inside : k < files.length) off n, off + n < 2 ^ 32 → ∀ o c,
    readi (fun _ => true) ((mounted image o c).inode (k + 2)) off n (mounted image o c) =
      .ok (((((files[k].contents.drop off).take n).length : Int),
        (files[k].contents.drop off).take n, (mounted image o c).inode (k + 2)), mounted image o c)
  wrapped : ∀ k < files.length, ∀ off n, off < 2 ^ 32 → n < 2 ^ 32 → 2 ^ 32 ≤ off + n → ∀ o c,
    readi (fun _ => true) ((mounted image o c).inode (k + 2)) off n (mounted image o c) =
      .ok ((0, [], (mounted image o c).inode (k + 2)), mounted image o c)
  bitmap : ∀ b, b < nmeta ∨ (∃ inum < files.length + 2,
      Uses image.disk ((mounted image 0 0).inode inum).addrs b) →
    marked (image.disk ((mounted image 0 0).sb.bblock b)) (b % bpb) = true

theorem Mkfs.Final.agrees (final : Final image files) : Agrees files image := by
  constructor
  · intro k inside off n plain o c
    have inode := final.inode_eq o c (k + 2)
    have holds := final.stored.holds (k + 2) (by omega)
    have same : expected files (k + 2) = files[k].contents := by
      change (files.map File.contents).getD k [] = _
      rw [getD_eq_getElem?_getD, getElem?_map, getElem?_eq_getElem inside]
      rfl
    have size := final.size k inside
    rw [same, ← inode] at holds size
    obtain ⟨result, t, ended, result_eq, t_eq⟩ :=
      (readi_meets (s := mounted image o c) holds size plain).ends
    rw [ended, result_eq, t_eq]
  · intro k _ off n offSmall nSmall wraps o c
    have refused : (off + n) % 2 ^ 32 < off := by omega
    unfold readi
    simp only [if_pos (Or.inr refused)]
    rfl
  · intro b used
    have low : b < image.freeblock := by
      rcases used with metadata | ⟨inum, inside, uses⟩
      · exact lt_of_lt_of_le metadata final.stored.low
      · rw [final.inode_eq] at uses
        exact (final.stored.range inum inside b uses).2
    have room := final.room
    have small : b < bpb := lt_of_lt_of_le (lt_of_lt_of_le low room) (by decide)
    have block : sb.bblock b = sb.bmapstart := by
      unfold Superblock.bblock
      rw [Nat.div_eq_of_lt small, Nat.zero_add]
    rw [final.mounted_sb, block, Nat.mod_eq_of_lt small, final.bitmap]
    exact decide_eq_true low

/-- Files that fit are all in the image, as they were given. -/
theorem mkfs_agrees_with_readi (files : List File) (names : ∀ f ∈ files, 47 ∉ withoutDir f.name)
    (sizes : ∀ f ∈ files, f.contents.length ≤ maxfile * bsize) (inodes : files.length + 1 < ninodes)
    (blocks : nmeta + (blocksFor (16 * (files.length + 2)) +
      (files.map fun f => blocksFor f.contents.length).sum) ≤ fssize) :
    ∃ image, main files start = .ok ((), image) ∧ Agrees files image := by
  have few : files.length + 2 ≤ 200 := inodes
  have root : 16 * (files.length + 2) ≤ maxfile * bsize := by
    unfold maxfile ndirect nindirect bsize
    omega
  have bound : files.length + 2 ≤ ninodeblocks * ipb := few.trans (by decide)
  obtain ⟨image, made, final⟩ := main_ends bound (acceptable_of names sizes root blocks)
  exact ⟨image, made, final.agrees⟩

def sixBytes : File := { name := [97], chunks := [[1, 2, 3, 4, 5, 6]] }

theorem mkfs_agrees_six_bytes :
    ∃ image, main [sixBytes] start = .ok ((), image) ∧ Agrees [sixBytes] image :=
  mkfs_agrees_with_readi [sixBytes] (by decide) (by decide) (by decide) (by decide)

/-- `readi` returns nothing where the sum of offset and count wraps, although the file has
a byte there. -/
theorem readi_wraps : ∃ image, main [sixBytes] start = .ok ((), image) ∧
    readi (fun _ => true) ((mounted image 0 0).inode 2) 5 (2 ^ 32 - 1) (mounted image 0 0) =
      .ok ((0, [], (mounted image 0 0).inode 2), mounted image 0 0) ∧
    (sixBytes.contents.take (min (5 + (2 ^ 32 - 1)) sixBytes.contents.length)).drop 5 = [6] := by
  have acceptable : Acceptable [sixBytes] :=
    acceptable_of (by decide) (by decide) (by decide) (by decide)
  obtain ⟨image, made, final⟩ := main_ends (by decide) acceptable
  exact ⟨image, made,
    final.agrees.wrapped 0 (by decide) 5 (2 ^ 32 - 1) (by decide) (by decide) (by decide) 0 0,
    by decide⟩

end EnhancedXv6.FileSystem
