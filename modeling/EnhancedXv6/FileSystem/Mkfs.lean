import EnhancedXv6.FileSystem.Format
import EnhancedXv6.Foundation.Program
import EnhancedXv6.Log.Log

namespace EnhancedXv6.FileSystem.Mkfs

open Foundation

def fssize : Nat := 2000

def ninodes : Nat := 200

def nbitmap : Nat := fssize / (bsize * 8) + 1

def ninodeblocks : Nat := ninodes / ipb + 1

def nlog : Nat := Log.logsize

/-- The boot block, the superblock, the log, the inodes and the bitmap. -/
def nmeta : Nat := 2 + nlog + ninodeblocks + nbitmap

def sb : Superblock where
  magic := 0x10203040
  size := fssize
  nblocks := fssize - nmeta
  ninodes := ninodes
  nlog := nlog
  logstart := 2
  inodestart := 2 + nlog
  bmapstart := 2 + nlog + ninodeblocks

/-- Where `mkfs` gives up: a read past the end of the image, or one of its assertions. -/
inductive Failure where
  | read
  | root
  | name
  | fbn
  | used
  deriving DecidableEq, Repr

structure Image where
  disk : Disk
  length : Nat
  freeinode : Nat
  freeblock : Nat

abbrev MkfsM := Program Failure Image

def wsect (sec : Nat) (buf : Block) : MkfsM Unit :=
  modify
    fun s => { s with disk := Function.update s.disk sec buf, length := max s.length (sec + 1) }

def rsect (sec : Nat) : MkfsM Block := do
  let s ← get
  if sec < s.length then return s.disk sec else throw .read

def winode (inum : Nat) (din : Dinode) : MkfsM Unit := do
  let buf ← rsect (sb.iblock inum)
  wsect (sb.iblock inum) (putDinode buf (inum % ipb) din)

def rinode (inum : Nat) : MkfsM Dinode := do
  let buf ← rsect (sb.iblock inum)
  return getDinode buf (inum % ipb)

def ialloc (type : Nat) : MkfsM Nat := do
  let s ← get
  set { s with freeinode := s.freeinode + 1 }
  winode s.freeinode { type := type, nlink := 1 }
  return s.freeinode

/-- `freeblock++`. -/
def takeBlock : MkfsM Nat := do
  let s ← get
  set { s with freeblock := s.freeblock + 1 }
  return s.freeblock

def addrOf (din : Dinode) (i : Nat) : MkfsM Dinode :=
  if din.addrs i = 0 then do
    let b ← takeBlock
    return { din with addrs := Function.update din.addrs i b }
  else return din

/-- The block of `iappend`'s loop, with the inode that has it. -/
def blockOf (din : Dinode) (fbn : Nat) : MkfsM (Nat × Dinode) :=
  if fbn < ndirect then do
    let din ← addrOf din fbn
    return (din.addrs fbn, din)
  else do
    let din ← addrOf din ndirect
    let indirect ← rsect (din.addrs ndirect)
    if load indirect (4 * (fbn - ndirect)) 4 = 0 then
      let b ← takeBlock
      wsect (din.addrs ndirect) (store indirect (4 * (fbn - ndirect)) 4 b)
      return (b, din)
    else return (load indirect (4 * (fbn - ndirect)) 4, din)

/-- The loop of `iappend`: the rest of the bytes, the inode and the offset. -/
def appendLoop (p : List UInt8) (din : Dinode) (off : Nat) : MkfsM (Dinode × Nat) :=
  if p = [] then return (din, off)
  else do
    let fbn := off / bsize
    if maxfile ≤ fbn then throw .fbn
    else
      let (x, din) ← blockOf din fbn
      let n1 := min p.length ((fbn + 1) * bsize - off)
      let buf ← rsect x
      wsect x (copy buf (off - fbn * bsize) n1 fun i => p.getD i 0)
      appendLoop (p.drop n1) din (off + n1)
  termination_by p.length
  decreasing_by
    have := List.length_pos_of_ne_nil ‹_›
    have := Nat.lt_div_mul_add (a := off) (show 0 < bsize by decide)
    rw [List.length_drop, Nat.add_one_mul]
    omega

def iappend (inum : Nat) (p : List UInt8) : MkfsM Unit := do
  let din ← rinode inum
  let (din, off) ← appendLoop p din din.size
  winode inum { din with size := off }

def balloc (used : Nat) : MkfsM Unit := do
  if bsize * 8 ≤ used then throw .used
  else wsect sb.bmapstart ((List.range used).foldl mark zeroes)

/-- An argument of `mkfs`: its name, and what the calls of `read` return, one after the
other. -/
structure File where
  name : List UInt8
  chunks : List (List UInt8)

def File.contents (f : File) : List UInt8 := f.chunks.flatten

def withoutDir (name : List UInt8) : List UInt8 :=
  if name.take 5 = [117, 115, 101, 114, 47] then name.drop 5 else name

def withoutMark (name : List UInt8) : List UInt8 :=
  if name.head? = some 95 then name.drop 1 else name

/-- `struct dirent`, with a name that is cut or filled up as `strncpy` does. -/
def dirent (inum : Nat) (name : List UInt8) : List UInt8 :=
  [.ofNat inum, .ofNat (inum / 256)] ++
    (name.take dirsiz ++ List.replicate (dirsiz - name.length) 0)

/-- A round of the loop of `main`. -/
def addFile (root : Nat) (f : File) : MkfsM Unit := do
  let shortname := withoutDir f.name
  if 47 ∈ shortname then throw .name
  else
    let inum ← ialloc tFile
    iappend root (dirent inum (withoutMark shortname))
    f.chunks.forM (iappend inum)

/-- The size of the root directory is rounded up, always by at least one byte. -/
def fixRoot (root : Nat) : MkfsM Unit := do
  let din ← rinode root
  winode root { din with size := (din.size / bsize + 1) * bsize }

/-- `main`, on an empty image file. -/
def main (files : List File) : MkfsM Unit := do
  (List.range fssize).forM fun i => wsect i zeroes
  wsect 1 (putSuperblock zeroes sb)
  let root ← ialloc tDir
  if root ≠ rootino then throw .root
  else
    iappend root (dirent root [46])
    iappend root (dirent root [46, 46])
    files.forM (addFile root)
    fixRoot root
    let s ← get
    balloc s.freeblock

/-- The image that `mkfs` leaves, if it does not give up. -/
def start : Image := { disk := fun _ => zeroes, length := 0, freeinode := 1, freeblock := nmeta }

end EnhancedXv6.FileSystem.Mkfs
