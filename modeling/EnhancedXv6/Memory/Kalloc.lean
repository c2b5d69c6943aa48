import EnhancedXv6.Foundation.ByteMemory
import EnhancedXv6.Foundation.Program
import EnhancedXv6.Memory.Layout

namespace EnhancedXv6.Memory

open Foundation

/-- Physical memory with `nump_using` and `kmem.freelist`, where 0 is the null pointer. -/
structure Kmem where
  mem : Memory
  numpUsing : Nat → Int
  freelist : Nat

/-- The panics of `vm.c` and `exec.c`. A null page-table entry is read by `removecopy` in
`kernelFault`. -/
inductive Panic
  | walk
  | mappagesSize
  | mappagesRemap
  | unmapNotAligned
  | unmapWalk
  | unmapNotMapped
  | unmapNotLeaf
  | freewalkLeaf
  | uvmcopyPte
  | uvmcopyPage
  | removecopyKalloc
  | uvmclear
  | loadseg
  | kernelFault
  /-- More levels than a page table has. -/
  | depth
  deriving DecidableEq, Repr

abbrev KM (α : Type) := Program Panic Kmem α

def loadWord (a : Nat) : KM Nat :=
  return load (← get).mem a 8

def storeWord (a value : Nat) : KM Unit :=
  modify fun s => { s with mem := store s.mem a 8 value }

def memset (dst : Nat) (byte : UInt8) (n : Nat) : KM Unit :=
  modify fun s => { s with mem := fill s.mem dst n byte }

def memmove (dst src n : Nat) : KM Unit :=
  modify fun s => { s with mem := copy s.mem dst n fun i => s.mem (src + i) }

def Kmem.addUsers (s : Kmem) (pa : Nat) (change : Int) : Kmem :=
  { s with
    numpUsing := Function.update s.numpUsing (pa / pgsize) (s.numpUsing (pa / pgsize) + change) }

def kalloc : KM Nat := do
  let r := (← get).freelist
  if r = 0 then
    return 0
  else
    modify fun s => { s with freelist := load s.mem r 8 }
    memset r 5 pgsize
    modify fun s => s.addUsers r 1
    return r

def kfree (pa : Nat) : KM Unit := do
  modify fun s => s.addUsers pa (-1)
  if (← get).numpUsing (pa / pgsize) ≥ 1 then
    return ()
  else
    memset pa 1 pgsize
    storeWord pa (← get).freelist
    modify fun s => { s with freelist := pa }

/-- The loop of `freerange`, with the number of pages that are left. -/
def freePages (p : Nat) : Nat → KM Unit
  | 0 => return ()
  | left + 1 => do
    kfree p
    freePages (p + pgsize) left

def freerange (paStart paEnd : Nat) : KM Unit :=
  let p := pgroundup paStart
  freePages p ((paEnd - p) / pgsize)

def kinit (layout : Layout) : KM Unit := do
  modify fun s =>
    { s with numpUsing := fun i => if i < pgroundup phystop / pgsize then 1 else s.numpUsing i }
  freerange layout.kernelEnd phystop

end EnhancedXv6.Memory
