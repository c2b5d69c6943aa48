import EnhancedXv6.Memory.Kalloc

/-! The page-table functions of `vm.c` and of `proc.c`. A pointer to an entry is its
address, and 0 is the null pointer. -/

namespace EnhancedXv6.Memory

open Foundation

/-- The loop of `walk` over the levels that are left. -/
def walkLevels (va : Nat) (alloc : Bool) : Nat → Nat → KM Nat
  | 0, pagetable => return pagetable + 8 * px 0 va
  | level + 1, pagetable => do
    let pte := pagetable + 8 * px (level + 1) va
    let entry ← loadWord pte
    if entry &&& pteV ≠ 0 then
      walkLevels va alloc level (pte2pa entry)
    else if alloc then
      let page ← kalloc
      if page = 0 then
        return 0
      else
        memset page 0 pgsize
        storeWord pte (pa2pte page ||| pteV)
        walkLevels va alloc level page
    else
      return 0

def walk (pagetable va : Nat) (alloc : Bool) : KM Nat :=
  if va ≥ maxva then
    throw .walk
  else
    walkLevels va alloc 2 pagetable

def walkaddr (pagetable va : Nat) : KM Nat := do
  if va ≥ maxva then
    return 0
  else
    let pte ← walk pagetable va false
    if pte = 0 then
      return 0
    else
      let entry ← loadWord pte
      if entry &&& pteV = 0 then
        return 0
      else if entry &&& pteU = 0 then
        return 0
      else
        return pte2pa entry

/-- The loop of `mappages` with the number of pages after this one. -/
def mapPages (pagetable perm : Nat) : Nat → Nat → Nat → KM Int
  | a, pa, left => do
    let pte ← walk pagetable a true
    if pte = 0 then
      return -1
    else
      let entry ← loadWord pte
      if entry &&& pteV ≠ 0 then
        throw .mappagesRemap
      else
        storeWord pte (pa2pte pa ||| perm ||| pteV)
        match left with
        | 0 => return 0
        | left + 1 => mapPages pagetable perm (a + pgsize) (pa + pgsize) left

def mappages (pagetable va size pa perm : Nat) : KM Int :=
  if size = 0 then
    throw .mappagesSize
  else
    let a := pgrounddown va
    let last := pgrounddown ((va + size - 1) % 2 ^ 64)
    mapPages pagetable perm a pa ((last + 2 ^ 64 - a) % 2 ^ 64 / pgsize)

/-- The loop of `uvmunmap` with the number of pages that are left. -/
def unmapPages (pagetable : Nat) (doFree : Bool) : Nat → Nat → KM Unit
  | _, 0 => return ()
  | a, left + 1 => do
    let pte ← walk pagetable a false
    if pte = 0 then
      throw .unmapWalk
    else
      let entry ← loadWord pte
      if entry &&& pteV = 0 then
        throw .unmapNotMapped
      else if pteFlags entry = pteV then
        throw .unmapNotLeaf
      else
        if doFree then
          kfree (pte2pa entry)
        storeWord pte 0
        unmapPages pagetable doFree (a + pgsize) left

/-- How often a loop from `a` by pages runs below a bound. -/
def pagesBelow (a bound : Nat) : Nat :=
  (bound - a + pgsize - 1) / pgsize

def uvmunmap (pagetable va npages : Nat) (doFree : Bool) : KM Unit :=
  if va % pgsize ≠ 0 then
    throw .unmapNotAligned
  else
    unmapPages pagetable doFree va (pagesBelow va ((va + npages * pgsize) % 2 ^ 64))

def uvmcreate : KM Nat := do
  let pagetable ← kalloc
  if pagetable = 0 then
    return 0
  else
    memset pagetable 0 pgsize
    return pagetable

/-- An `int` that holds the low bits of a `uint64` and is passed on as a `uint64`. -/
def asInt (x : Nat) : Nat :=
  let low := x % 2 ^ 32
  if low < 2 ^ 31 then low else low + 2 ^ 64 - 2 ^ 32

def uvmdealloc (pagetable oldsz newsz : Nat) : KM Nat :=
  if newsz ≥ oldsz then
    return oldsz
  else do
    if pgroundup newsz < pgroundup oldsz then
      let npages := asInt ((pgroundup oldsz - pgroundup newsz) / pgsize)
      uvmunmap pagetable (pgroundup newsz) npages true
    return newsz

/-- The loop of `uvmalloc` with the number of pages that are left. -/
def allocPages (pagetable oldsz newsz xperm : Nat) : Nat → Nat → KM Nat
  | _, 0 => return newsz
  | a, left + 1 => do
    let mem ← kalloc
    if mem = 0 then
      let _ ← uvmdealloc pagetable a oldsz
      return 0
    else
      memset mem 0 pgsize
      let mapped ← mappages pagetable a pgsize mem (pteR ||| pteU ||| xperm)
      if mapped ≠ 0 then
        kfree mem
        let _ ← uvmdealloc pagetable a oldsz
        return 0
      else
        allocPages pagetable oldsz newsz xperm (a + pgsize) left

def uvmalloc (pagetable oldsz newsz xperm : Nat) : KM Nat :=
  if newsz < oldsz then
    return oldsz
  else
    let oldsz := pgroundup oldsz
    allocPages pagetable oldsz newsz xperm oldsz (pagesBelow oldsz newsz)

/-- `freewalk` of a page table of so many levels. -/
def freewalk : Nat → Nat → KM Unit
  | 0, _ => throw .depth
  | level + 1, pagetable => do
    (List.range 512).forM fun i => do
      let pte ← loadWord (pagetable + 8 * i)
      if pte &&& pteV ≠ 0 ∧ pte &&& (pteR ||| pteW ||| pteX) = 0 then
        freewalk level (pte2pa pte)
        storeWord (pagetable + 8 * i) 0
      else if pte &&& pteV ≠ 0 then
        throw .freewalkLeaf
    kfree pagetable

def uvmfree (pagetable sz : Nat) : KM Unit := do
  if sz > 0 then
    uvmunmap pagetable 0 (pgroundup sz / pgsize) true
  freewalk 3 pagetable

/-- The loop of `uvmcopy` with the number of pages that are left. -/
def copyPages (old new : Nat) : Nat → Nat → KM Int
  | _, 0 => return 0
  | i, left + 1 => do
    let pte ← walk old i false
    if pte = 0 then
      throw .uvmcopyPte
    else
      let entry ← loadWord pte
      if entry &&& pteV = 0 then
        throw .uvmcopyPage
      else
        let pa := pte2pa entry
        let flags :=
          if pteFlags entry &&& pteW ≠ 0 then Nat.ldiff (pteFlags entry) pteW ||| pteCow
          else pteFlags entry
        if pteFlags entry &&& pteW ≠ 0 then
          storeWord pte (pa2pte pa ||| flags)
        let mapped ← mappages new i pgsize pa flags
        if mapped ≠ 0 then
          uvmunmap new 0 (i / pgsize) true
          return -1
        else
          modify fun s => s.addUsers pa 1
          copyPages old new (i + pgsize) left

def uvmcopy (old new sz : Nat) : KM Int :=
  copyPages old new 0 (pagesBelow 0 sz)

def removecopy (pt va sz : Nat) : KM Int := do
  let va := pgrounddown va
  if maxva ≤ va then
    return 1
  else if sz ≠ 0 ∧ va > (sz + 2 ^ 64 - pgsize) % 2 ^ 64 ∧ va < sz then
    return 1
  else
    let pte ← walk pt va false
    if pte = 0 then
      throw .kernelFault
    else
      let entry ← loadWord pte
      if entry &&& pteV = 0 ∨ entry &&& pteCow = 0 then
        return 1
      else
        let flags := Nat.ldiff (pteFlags entry) pteCow ||| pteW
        let mem ← kalloc
        if mem = 0 then
          throw .removecopyKalloc
        else
          let pa := pte2pa entry
          memmove mem pa pgsize
          storeWord pte (pa2pte mem ||| flags)
          kfree pa
          return 0

def uvmclear (pagetable va : Nat) : KM Unit := do
  let pte ← walk pagetable va false
  if pte = 0 then
    throw .uvmclear
  else
    storeWord pte (Nat.ldiff (← loadWord pte) pteU)

/-- The loop of `copyout`, which ends after at most `len` rounds. The source buffer is
given by its bytes. -/
def copyoutBytes (pagetable : Nat) : Nat → Nat → (Nat → UInt8) → Nat → KM Int
  | 0, _, _, _ => return 0
  | fuel + 1, dstva, src, len => do
    if len = 0 then
      return 0
    else
      let va0 := pgrounddown dstva
      let pa0 ← walkaddr pagetable va0
      if pa0 = 0 then
        return -1
      else
        let entry ← loadWord (← walk pagetable va0 false)
        let pa0 ←
          if entry &&& pteCow ≠ 0 then do
            let _ ← removecopy pagetable va0 0
            walkaddr pagetable va0
          else
            pure pa0
        let n := min (pgsize - (dstva - va0)) len
        modify fun s => { s with mem := copy s.mem (pa0 + (dstva - va0)) n src }
        copyoutBytes pagetable fuel ((va0 + pgsize) % 2 ^ 64) (fun i => src (n + i)) (len - n)

def copyout (pagetable dstva : Nat) (src : Nat → UInt8) (len : Nat) : KM Int :=
  copyoutBytes pagetable len dstva src len

/-- `proc_pagetable` for a process with the given trapframe page. -/
def procPagetable (layout : Layout) (trapframePage : Nat) : KM Nat := do
  let pagetable ← uvmcreate
  if pagetable = 0 then
    return 0
  else
    let mapped ← mappages pagetable trampoline pgsize layout.trampolinePage (pteR ||| pteX)
    if mapped < 0 then
      uvmfree pagetable 0
      return 0
    else
      let mapped ← mappages pagetable trapframe pgsize trapframePage (pteR ||| pteW)
      if mapped < 0 then
        uvmunmap pagetable trampoline 1 false
        uvmfree pagetable 0
        return 0
      else
        return pagetable

def procFreepagetable (pagetable sz : Nat) : KM Unit := do
  uvmunmap pagetable trampoline 1 false
  uvmunmap pagetable trapframe 1 false
  uvmfree pagetable sz

end EnhancedXv6.Memory
