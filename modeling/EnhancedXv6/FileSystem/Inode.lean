import EnhancedXv6.FileSystem.Format
import EnhancedXv6.Foundation.Program

/-! `fs.c` below the directories: block allocation, the blocks of an inode, and reading and
writing of its data. The disk is what the buffer cache shows, so a block that was changed
and given to `log_write` is changed for every later `bread`. -/

namespace EnhancedXv6.FileSystem

open Foundation

inductive Panic where
  | logWriteOutside
  | bmapRange
  | dirlookupNotDir
  | dirlookupRead
  | dirlinkRead
  | unlinkWritei
  deriving DecidableEq, Repr

/-- The disk, its superblock, the number of operations between `begin_op` and `end_op`, how
often `balloc: out of blocks` was printed, and the blocks that were given to `log_write`. -/
structure Volume where
  disk : Disk
  sb : Superblock
  outstanding : Nat
  complaints : Nat
  logged : List Nat := []

abbrev FsM := Program Panic Volume

/-- The in-memory `struct inode` of a locked, valid inode. -/
structure Inode extends Dinode where
  inum : Nat

/-- A block is given to `log_write` with its new content. -/
def Volume.write (s : Volume) (b : Nat) (data : Block) : Volume :=
  { s with disk := Function.update s.disk b data, logged := b :: s.logged }

/-- The buffer of a block is changed and not given to `log_write`. -/
def Volume.spoil (s : Volume) (b : Nat) (data : Block) : Volume :=
  { s with disk := Function.update s.disk b data }

def logWrite (b : Nat) (data : Block) : FsM Unit := do
  let s ← get
  if s.outstanding < 1 then throw .logWriteOutside
  else set (s.write b data)

/-- The two loops of `balloc` visit the blocks below `sb.size` in order; the one that is
taken is marked and zeroed. -/
def balloc : FsM Nat := do
  let s ← get
  match (List.range s.sb.size).find? fun b => !marked (s.disk (s.sb.bblock b)) (b % bpb) with
  | none =>
    set { s with complaints := s.complaints + 1 }
    return 0
  | some b =>
    logWrite (s.sb.bblock b) (mark (s.disk (s.sb.bblock b)) (b % bpb))
    logWrite b zeroes
    return b

/-- The first half of `bmap` on an address in the inode: allocate if there is none. -/
def bmapAddr (ip : Inode) (i : Nat) : FsM (Nat × Inode) :=
  if ip.addrs i = 0 then do
    let addr ← balloc
    if addr = 0 then return (0, ip)
    else return (addr, { ip with addrs := Function.update ip.addrs i addr })
  else return (ip.addrs i, ip)

def bmap (ip : Inode) (bn : Nat) : FsM (Nat × Inode) :=
  if bn < ndirect then bmapAddr ip bn
  else if bn - ndirect < nindirect then do
    let (table, ip) ← bmapAddr ip ndirect
    if table = 0 then return (0, ip)
    else
      let s ← get
      let addr := load (s.disk table) (4 * (bn - ndirect)) 4
      if addr = 0 then
        let addr ← balloc
        if addr = 0 then return (0, ip)
        else
          let s ← get
          logWrite table (store (s.disk table) (4 * (bn - ndirect)) 4 addr)
          return (addr, ip)
      else return (addr, ip)
  else throw .bmapRange

/-- The inode that `ilock` reads. -/
def Volume.inode (s : Volume) (inum : Nat) : Inode :=
  { getDinode (s.disk (s.sb.iblock inum)) (inum % ipb) with inum := inum }

def iupdate (ip : Inode) : FsM Unit := do
  let s ← get
  logWrite (s.sb.iblock ip.inum)
    (putDinode (s.disk (s.sb.iblock ip.inum)) (ip.inum % ipb) ip.toDinode)

/-- The loop of `readi`; `copies` tells which copies to the destination succeed. -/
def readLoop (copies : Nat → Bool) (n : Nat) (ip : Inode) (tot off : Nat) (got : List UInt8) :
    FsM (Int × List UInt8 × Inode) :=
  if tot < n then do
    let (addr, ip) ← bmap ip (off / bsize)
    if addr = 0 then return (tot, got, ip)
    else
      let s ← get
      let m := min (n - tot) (bsize - off % bsize)
      if copies tot then
        readLoop copies n ip (tot + m) (off + m)
          (got ++ (List.range m).map fun i => s.disk addr (off % bsize + i))
      else return (-1, got, ip)
  else return (tot, got, ip)
  termination_by n - tot
  decreasing_by
    have := Nat.mod_lt off (show 0 < bsize by decide)
    omega

/-- `readi`: the result, the bytes copied, and the inode as `bmap` leaves it. The sum of
`off` and `n` is a `uint`. -/
def readi (copies : Nat → Bool) (ip : Inode) (off n : Nat) : FsM (Int × List UInt8 × Inode) :=
  let stop := (off + n) % 2 ^ 32
  if ip.size < off ∨ stop < off then return (0, [], ip)
  else readLoop copies (if ip.size < stop then ip.size - off else n) ip 0 off []

/-- How many of `m` bytes `either_copyin` stores; it stops at the first that it cannot read. -/
def copied (copies : Nat → Bool) : Nat → Nat → Nat
  | _, 0 => 0
  | tot, m + 1 => if copies tot then copied copies (tot + 1) m + 1 else 0

/-- The loop of `writei`: what is left of the source, and how far it got; `copies` tells which
bytes of the source can be read. -/
def writeLoop (copies : Nat → Bool) (ip : Inode) (tot off : Nat) (src : List UInt8) :
    FsM (Nat × Nat × Inode) :=
  if src = [] then return (tot, off, ip)
  else do
    let (addr, ip) ← bmap ip (off / bsize)
    if addr = 0 then return (tot, off, ip)
    else
      let s ← get
      let m := min src.length (bsize - off % bsize)
      let data := copy (s.disk addr) (off % bsize) (copied copies tot m) fun i => src.getD i 0
      if copied copies tot m = m then
        logWrite addr data
        writeLoop copies ip (tot + m) (off + m) (src.drop m)
      else
        -- the buffer keeps what was copied, although it is not logged
        set (s.spoil addr data)
        return (tot, off, ip)
  termination_by src.length
  decreasing_by
    have := Nat.mod_lt off (show 0 < bsize by decide)
    have := List.length_pos_of_ne_nil ‹_›
    rw [List.length_drop]
    omega

def writei (copies : Nat → Bool) (ip : Inode) (off : Nat) (src : List UInt8) : FsM (Int × Inode) :=
  let stop := (off + src.length) % 2 ^ 32
  if ip.size < off ∨ stop < off then return (-1, ip)
  else if maxfile * bsize < stop then return (-1, ip)
  else do
    let (tot, off, ip) ← writeLoop copies ip 0 off src
    let ip := if ip.size < off then { ip with size := off } else ip
    iupdate ip
    return (tot, ip)

end EnhancedXv6.FileSystem
