import EnhancedXv6.Foundation.Run
import EnhancedXv6.Memory.Copyout

namespace EnhancedXv6.Memory

open Foundation

structure Proc where
  pagetable : Nat
  sz : Nat
  trapframe : Nat

def freeproc (p : Proc) : KM Unit := do
  if p.trapframe ≠ 0 then
    kfree p.trapframe
  if p.pagetable ≠ 0 then
    procFreepagetable p.pagetable p.sz

/-- `allocproc` once it has found an unused slot. -/
def allocproc (layout : Layout) : KM (Option Proc) := do
  let page ← kalloc
  if page = 0 then
    freeproc ⟨0, 0, 0⟩
    return none
  else
    let pagetable ← procPagetable layout page
    if pagetable = 0 then
      freeproc ⟨0, 0, page⟩
      return none
    else
      return some ⟨pagetable, 0, page⟩

/-- An `int` is added to a `uint64`. -/
def addInt (sz : Nat) (n : Int) : Nat :=
  ((sz + n) % 2 ^ 64).toNat

/-- `growproc`, where `none` is the result -1. -/
def Proc.growproc (p : Proc) (n : Int) : KM (Option Proc) := do
  if n > 0 then
    let sz ← uvmalloc p.pagetable p.sz (addInt p.sz n) pteW
    if sz = 0 then
      return none
    else
      return some { p with sz := sz }
  else if n < 0 then
    let sz ← uvmdealloc p.pagetable p.sz (addInt p.sz n)
    return some { p with sz := sz }
  else
    return some p

/-- The size of a `struct trapframe` and the places of some of its fields. -/
def trapframeBytes : Nat := 288
def tfEpc : Nat := 24
def tfSp : Nat := 48
def tfA0 : Nat := 112
def tfA1 : Nat := 120

/-- `fork`, where `none` is the result -1. -/
def Proc.fork (layout : Layout) (p : Proc) : KM (Option Proc) := do
  match ← allocproc layout with
  | none => return none
  | some np =>
    let result ← uvmcopy p.pagetable np.pagetable p.sz
    if result < 0 then
      freeproc np
      return none
    else
      memmove np.trapframe p.trapframe trapframeBytes
      storeWord (np.trapframe + tfA0) 0
      return some { np with sz := p.sz }

section Exec

/-- A program header, with the bytes that `readi` finds for its segment and their number. -/
structure Proghdr where
  type : Nat
  flags : Nat
  vaddr : Nat
  filesz : Nat
  memsz : Nat
  file : Nat → UInt8
  readable : Nat

/-- The sizes and the address are `uint64`s, as they are in every file. -/
def Proghdr.Word (ph : Proghdr) : Prop :=
  ph.vaddr < 2 ^ 64 ∧ ph.memsz < 2 ^ 64

/-- An ELF file whose header is good; `none` is a program header that cannot be read. -/
structure Image where
  entry : Nat
  headers : List (Option Proghdr)

def elfProgLoad : Nat := 1

def maxarg : Nat := 32

def flags2perm (flags : Nat) : Nat :=
  (if flags &&& 1 ≠ 0 then pteX else 0) ||| (if flags &&& 2 ≠ 0 then pteW else 0)

/-- The loop of `loadseg` with the number of pages that are left. -/
def loadPages (pagetable va sz : Nat) (file : Nat → UInt8) (readable : Nat) : Nat → Nat → KM Int
  | _, 0 => return 0
  | i, left + 1 => do
    let pa ← walkaddr pagetable ((va + i) % 2 ^ 64)
    if pa = 0 then
      throw .loadseg
    else
      let n := min (sz - i) pgsize
      let read := min n (readable - i)
      modify fun s => { s with mem := copy s.mem pa read fun o => file (i + o) }
      if read ≠ n then
        return -1
      else
        loadPages pagetable va sz file readable (i + pgsize) left

def loadseg (pagetable va : Nat) (file : Nat → UInt8) (readable sz : Nat) : KM Int :=
  loadPages pagetable va sz file readable 0 (pagesBelow 0 sz)

/-- The loop of `exec` over the program headers. It ends with the size that is reached and
whether the segments are loaded. -/
def loadSegments (pagetable : Nat) : List (Option Proghdr) → Nat → KM (Bool × Nat)
  | [], sz => return (true, sz)
  | none :: _, sz => return (false, sz)
  | some ph :: rest, sz => do
    if ph.type ≠ elfProgLoad then
      loadSegments pagetable rest sz
    else if ph.memsz < ph.filesz then
      return (false, sz)
    else if (ph.vaddr + ph.memsz) % 2 ^ 64 < ph.vaddr then
      return (false, sz)
    else if ph.vaddr % pgsize ≠ 0 then
      return (false, sz)
    else
      let sz1 ← uvmalloc pagetable sz ((ph.vaddr + ph.memsz) % 2 ^ 64) (flags2perm ph.flags)
      if sz1 = 0 then
        return (false, sz)
      else
        let loaded ← loadseg pagetable ph.vaddr ph.file ph.readable (ph.filesz % 2 ^ 32)
        if loaded < 0 then
          return (false, sz1)
        else
          loadSegments pagetable rest sz1

/-- Room for some bytes below a stack pointer, aligned. -/
def pushed (sp bytes : Nat) : Nat :=
  let sp := (sp + 2 ^ 64 - bytes % 2 ^ 64) % 2 ^ 64
  sp - sp % 16

/-- The loop of `exec` over the argument strings. `ustack` has the places of those that are on
the stack. -/
def pushArgs (pagetable stackbase : Nat) :
    List (List UInt8) → List Nat → Nat → KM (Option (List Nat × Nat))
  | [], ustack, sp => return some (ustack, sp)
  | arg :: rest, ustack, sp => do
    if ustack.length ≥ maxarg then
      return none
    else
      let sp := pushed sp (arg.length + 1)
      if sp < stackbase then
        return none
      else
        let result ← copyout pagetable sp (arg.getD · 0) (arg.length + 1)
        if result < 0 then
          return none
        else
          pushArgs pagetable stackbase rest (ustack ++ [sp]) sp

def wordBytes (words : List Nat) (i : Nat) : UInt8 :=
  .ofNat (words.getD (i / 8) 0 / 256 ^ (i % 8))

/-- The stack of `exec`. It ends with `argc` and the stack pointer. -/
def pushStack (pagetable sz : Nat) (argv : List (List UInt8)) : KM (Option (Nat × Nat)) := do
  uvmclear pagetable ((sz + 2 ^ 64 - 2 * pgsize) % 2 ^ 64)
  let stackbase := sz - pgsize
  match ← pushArgs pagetable stackbase argv [] sz with
  | none => return none
  | some (ustack, sp) =>
    let sp := pushed sp ((ustack.length + 1) * 8)
    if sp < stackbase then
      return none
    else
      let result ← copyout pagetable sp (wordBytes (ustack ++ [0])) ((ustack.length + 1) * 8)
      if result < 0 then
        return none
      else
        return some (ustack.length, sp)

/-- The new image of `exec` in an empty page table. It ends with the size that is reached, and
without `argc` and the stack pointer where `exec` goes to `bad`. -/
def buildImage (pagetable : Nat) (image : Image) (argv : List (List UInt8)) :
    KM (Option (Nat × Nat) × Nat) := do
  let (loaded, sz) ← loadSegments pagetable image.headers 0
  if loaded = false then
    return (none, sz)
  else
    let sz := pgroundup sz
    let sz1 ← uvmalloc pagetable sz ((sz + 2 * pgsize) % 2 ^ 64) pteW
    if sz1 = 0 then
      return (none, sz)
    else
      let stack ← pushStack pagetable sz1 argv
      return (stack, sz1)

/-- `exec` of a file, if there is a good one under the path. -/
def Proc.exec (layout : Layout) (p : Proc) (image : Option Image) (argv : List (List UInt8)) :
    KM (Int × Proc) := do
  match image with
  | none => return (-1, p)
  | some image =>
    let pagetable ← procPagetable layout p.trapframe
    if pagetable = 0 then
      return (-1, p)
    else
      match ← buildImage pagetable image argv with
      | (none, sz) =>
        procFreepagetable pagetable sz
        return (-1, p)
      | (some (argc, sp), sz) =>
        storeWord (p.trapframe + tfA1) sp
        storeWord (p.trapframe + tfEpc) image.entry
        storeWord (p.trapframe + tfSp) sp
        procFreepagetable p.pagetable p.sz
        return (argc, { p with pagetable := pagetable, sz := sz })

end Exec

section First

def uvmfirst (pagetable : Nat) (code : List UInt8) : KM Int := do
  let mem ← kalloc
  if mem = 0 then
    throw .kernelFault
  else
    memset mem 0 pgsize
    let mapped ← mappages pagetable 0 pgsize mem (pteW ||| pteR ||| pteX ||| pteU)
    modify fun s => { s with mem := copy s.mem mem code.length (code.getD · 0) }
    return mapped

/-- `userinit`, which the kernel does not survive without memory for the first process. -/
def userinit (layout : Layout) (code : List UInt8) : KM (Option Proc) := do
  match ← allocproc layout with
  | none => throw .kernelFault
  | some p =>
    let mapped ← uvmfirst p.pagetable code
    if mapped ≠ 0 then
      return none
    else
      storeWord (p.trapframe + tfEpc) 0
      storeWord (p.trapframe + tfSp) pgsize
      return some { p with sz := pgsize }

end First

section User

/-- The byte that a user loads, unless the address is not the user's. -/
def userLoad (pagetable va : Nat) : KM (Option UInt8) := do
  if va ≥ maxva then
    return none
  else
    let pte ← walk pagetable va false
    if pte = 0 then
      return none
    else
      let entry ← loadWord pte
      if entry &&& pteV = 0 ∨ entry &&& pteU = 0 ∨ entry &&& pteR = 0 then
        return none
      else
        return some ((← get).mem (pte2pa entry + va % pgsize))

/-- A store by a user; it faults with `false`. -/
def tryStore (pagetable va : Nat) (byte : UInt8) : KM Bool := do
  if va ≥ maxva then
    return false
  else
    let pte ← walk pagetable va false
    if pte = 0 then
      return false
    else
      let entry ← loadWord pte
      if entry &&& pteV = 0 ∨ entry &&& pteU = 0 ∨ entry &&& pteW = 0 then
        return false
      else
        modify fun s => { s with mem := Function.update s.mem (pte2pa entry + va % pgsize) byte }
        return true

/-- A store with the fault of `usertrap`, which lets the user store again or kills the process.
Where the second try faults too, `removecopy` has nothing to copy any more and kills it. -/
def userStore (pagetable va sp : Nat) (byte : UInt8) : KM Bool := do
  if ← tryStore pagetable va byte then
    return true
  else
    let killed ← removecopy pagetable va (pgrounddown sp)
    if killed ≠ 0 then
      return false
    else if ← tryStore pagetable va byte then
      return true
    else
      let _ ← removecopy pagetable va (pgrounddown sp)
      return false

end User

section System

/-- The memory, the pages that other parts of the kernel have from `kalloc`, and the processes by
their slots. -/
structure System where
  kmem : Kmem
  pages : List Nat
  procs : Nat → Option Proc
  result : Int

inductive Event
  | kalloc
  | kfree (pa : Nat)
  | fill (pa offset : Nat) (byte : UInt8)
  | userinit (p : Nat) (code : List UInt8)
  | fork (p child : Nat)
  | exec (p : Nat) (image : Option Image) (argv : List (List UInt8))
  | sbrk (p : Nat) (n : Int)
  /-- `exit` and the `wait` that calls `freeproc`. -/
  | reap (p : Nat)
  | store (p va sp : Nat) (byte : UInt8)
  | copyout (p va : Nat) (src : Nat → UInt8) (len : Nat)

/-- A page is freed and written by the one who has it, a new process gets an unused slot, and the
arguments of `sbrk` and the registers have the size of an `int` and of a word. -/
def System.Allows (s : System) : Event → Prop
  | .kfree pa => pa ∈ s.pages
  | .fill pa offset _ => pa ∈ s.pages ∧ offset < pgsize
  | .userinit p code => s.procs p = none ∧ code.length < pgsize
  | .fork _ child => s.procs child = none
  | .sbrk _ n => -2 ^ 31 ≤ n ∧ n < 2 ^ 31
  | .store _ va sp _ => va < 2 ^ 64 ∧ sp < 2 ^ 64
  | .kalloc | .exec _ _ _ | .reap _ | .copyout _ _ _ _ => True

instance System.decidableAllows (s : System) : (event : Event) → Decidable (s.Allows event)
  | .kfree pa => inferInstanceAs (Decidable (pa ∈ s.pages))
  | .fill _ _ _ | .sbrk _ _ | .store _ _ _ _ => inferInstanceAs (Decidable (_ ∧ _))
  | .userinit p code => decidable_of_iff ((s.procs p).isNone = true ∧ code.length < pgsize)
      (and_congr_left fun _ => Option.isNone_iff_eq_none)
  | .fork _ child => decidable_of_iff ((s.procs child).isNone = true) Option.isNone_iff_eq_none
  | .kalloc | .exec _ _ _ | .reap _ | .copyout _ _ _ _ => .isTrue trivial

def System.run (s : System) (program : KM α) (next : α → Kmem → Option System) :
    Except Panic (Option System) :=
  (program s.kmem).map fun (result, k) => next result k

def System.setProc (s : System) (p : Nat) (proc : Option Proc) : System :=
  { s with procs := Function.update s.procs p proc }

def System.withProc (s : System) (p : Nat) (act : Proc → Except Panic (Option System)) :
    Except Panic (Option System) :=
  match s.procs p with
  | none => .ok none
  | some proc => act proc

/-- The state after an event, or the panic that it ends with. -/
def System.perform (layout : Layout) (s : System) : Event → Except Panic (Option System)
  | .kalloc => s.run Memory.kalloc fun pa k =>
      some { s with kmem := k, pages := if pa = 0 then s.pages else pa :: s.pages, result := pa }
  | .kfree pa => s.run (Memory.kfree pa) fun _ k =>
      some { s with kmem := k, pages := s.pages.erase pa, result := 0 }
  | .fill pa offset byte => .ok (some
      { s with
        kmem := { s.kmem with mem := Function.update s.kmem.mem (pa + offset) byte }, result := 0 })
  | .userinit p code => s.run (Memory.userinit layout code) fun first k =>
      first.map fun proc => { s with kmem := k, result := 0 }.setProc p (some proc)
  | .fork p child => s.withProc p fun proc => s.run (proc.fork layout) fun forked k =>
      match forked with
      | none => some { s with kmem := k, result := -1 }
      | some new => some ({ s with kmem := k, result := child }.setProc child (some new))
  | .exec p image argv => s.withProc p fun proc =>
      s.run (proc.exec layout image argv) fun (result, proc) k =>
        some ({ s with kmem := k, result := result }.setProc p (some proc))
  | .sbrk p n => s.withProc p fun proc => s.run (proc.growproc n) fun grown k =>
      match grown with
      | none => some { s with kmem := k, result := -1 }
      | some proc' => some ({ s with kmem := k, result := proc.sz }.setProc p (some proc'))
  | .reap p => s.withProc p fun proc => s.run (freeproc proc) fun _ k =>
      some ({ s with kmem := k, result := 0 }.setProc p none)
  | .store p va sp byte => s.withProc p fun proc =>
      s.run (userStore proc.pagetable va sp byte) fun stored k =>
        some { s with kmem := k, result := if stored then 0 else -1 }
  | .copyout p va src len => s.withProc p fun proc =>
      s.run (Memory.copyout proc.pagetable va src len) fun result k =>
        some { s with kmem := k, result := result }

def System.step (layout : Layout) (s : System) (event : Event) : Option System :=
  if s.Allows event then
    match s.perform layout event with
    | .ok next => next
    | .error _ => none
  else
    none

def System.start (s : Kmem) : System :=
  ⟨s, [], fun _ => none, 0⟩

end System

end EnhancedXv6.Memory
