import EnhancedXv6.Foundation.Ownership
import EnhancedXv6.Foundation.Program
import EnhancedXv6.Process.Proc

/-! The file table of `file.c`, the descriptor tables of the processes, and the
system calls that open, copy and close descriptors. A system call is one program;
what the rest of the kernel decides for it is an argument: whether a path is found,
whether there is a page, whether a user address can be written. -/

namespace EnhancedXv6.OpenFile

open Foundation Process

def nofile : Nat := 16

def nfile : Nat := 100

def ndev : Int := 10

inductive FdType where
  | none
  | pipe
  | inode
  | device
  deriving DecidableEq, Repr

/-- `struct file`; pointers are addresses. -/
structure File where
  type : FdType := .none
  ref : Int := 0
  readable : Bool := false
  writable : Bool := false
  pipe : Nat := 0
  ip : Nat := 0
  off : Nat := 0
  major : Int := 0
  deriving DecidableEq, Repr

inductive Panic where
  | filedup
  | fileclose
  deriving DecidableEq, Repr

/-- The calls with which `fileclose` gives back what a file stood for. -/
inductive Release where
  | pipeclose (pipe : Nat) (writable : Bool)
  | iput (ip : Nat)
  deriving DecidableEq, Repr

/-- `ftable` and `ofile` of every process. -/
structure Files (n : Nat) where
  file : Fin nfile → File
  ofile : Fin n × Fin nofile → Option (Fin nfile)
  state : Fin n → ProcState
  released : List Release

variable {n : Nat}

abbrev Call (n : Nat) (α : Type) := Program Panic (Files n) α

def Files.setFile (s : Files n) (f : Fin nfile) (file : File) : Files n :=
  { s with file := Function.update s.file f file }

def Files.setSlot (s : Files n) (p : Fin n) (fd : Fin nofile) (f : Option (Fin nfile)) : Files n :=
  { s with ofile := Function.update s.ofile (p, fd) f }

def Files.setState (s : Files n) (p : Fin n) (state : ProcState) : Files n :=
  { s with state := Function.update s.state p state }

def Files.Live (s : Files n) (p : Fin n) : Prop :=
  s.state p ≠ .unused ∧ s.state p ≠ .zombie

instance decidableLive (s : Files n) (p : Fin n) : Decidable (s.Live p) :=
  inferInstanceAs (Decidable (_ ∧ _))

def filealloc : Call n (Option (Fin nfile)) := do
  let s ← get
  match (List.finRange nfile).find? fun f => (s.file f).ref = 0 with
  | none => pure none
  | some f =>
    set (s.setFile f { s.file f with ref := 1 })
    pure (some f)

def filedup (f : Fin nfile) : Call n Unit := do
  let s ← get
  if (s.file f).ref < 1 then throw .filedup
  else set (s.setFile f { s.file f with ref := (s.file f).ref + 1 })

/-- What the copy `ff` of the file makes `fileclose` call. -/
def File.release (ff : File) : List Release :=
  match ff.type with
  | .none => []
  | .pipe => [.pipeclose ff.pipe ff.writable]
  | .inode | .device => [.iput ff.ip]

def fileclose (f : Fin nfile) : Call n Unit := do
  let s ← get
  if (s.file f).ref < 1 then throw .fileclose
  else if 0 < (s.file f).ref - 1 then
    set (s.setFile f { s.file f with ref := (s.file f).ref - 1 })
  else
    set { s.setFile f { s.file f with ref := 0, type := .none } with
      released := s.released ++ (s.file f).release }

/-- `argfd`: the descriptor that a system call was given, and its file. -/
def argfd (s : Files n) (p : Fin n) (fd : Int) : Option (Fin nofile × Fin nfile) :=
  if inside : 0 ≤ fd ∧ fd < nofile then
    let fd : Fin nofile := ⟨fd.toNat, by omega⟩
    (s.ofile (p, fd)).map fun f => (fd, f)
  else none

def fdalloc (p : Fin n) (f : Fin nfile) : Call n (Option (Fin nofile)) := do
  let s ← get
  match (List.finRange nofile).find? fun fd => s.ofile (p, fd) = none with
  | none => pure none
  | some fd =>
    set (s.setSlot p fd (some f))
    pure (some fd)

def clearSlot (p : Fin n) (fd : Fin nofile) : Call n Unit :=
  modify fun s => s.setSlot p fd none

def sysDup (p : Fin n) (fd : Int) : Call n Int := do
  let s ← get
  match argfd s p fd with
  | none => pure (-1)
  | some (_, f) =>
    match ← fdalloc p f with
    | none => pure (-1)
    | some copy =>
      filedup f
      pure copy.val

def sysClose (p : Fin n) (fd : Int) : Call n Int := do
  let s ← get
  match argfd s p fd with
  | none => pure (-1)
  | some (fd, f) =>
    clearSlot p fd
    fileclose f
    pure 0

inductive InodeType where
  | dir
  | file
  | device
  deriving DecidableEq, Repr

/-- The inode that `create` or `namei` returns. -/
structure Target where
  ip : Nat
  type : InodeType
  major : Int
  deriving DecidableEq, Repr

/-- `open(path, omode)`: whether `path` can be fetched, and what it leads to. -/
structure OpenRequest where
  fetched : Bool
  omode : UInt32
  target : Option Target
  deriving DecidableEq, Repr

def oRdonly : UInt32 := 0x000
def oWronly : UInt32 := 0x001
def oRdwr : UInt32 := 0x002
def oCreate : UInt32 := 0x200

/-- The assignments of `sys_open` to the new file. -/
def File.opened (f : File) (target : Target) (omode : UInt32) : File :=
  let f := if target.type = .device then { f with type := .device, major := target.major }
    else { f with type := .inode, off := 0 }
  { f with
    ip := target.ip
    readable := omode &&& oWronly = 0
    writable := omode &&& oWronly ≠ 0 ∨ omode &&& oRdwr ≠ 0 }

def sysOpen (p : Fin n) (request : OpenRequest) : Call n Int :=
  if request.fetched = false then pure (-1)
  else match request.target with
    | none => pure (-1)
    | some target =>
      if request.omode &&& oCreate = 0 ∧ target.type = .dir ∧ request.omode ≠ oRdonly then pure (-1)
      else if target.type = .device ∧ (target.major < 0 ∨ ndev ≤ target.major) then pure (-1)
      else do
        match ← filealloc with
        | none => pure (-1)
        | some f =>
          match ← fdalloc p f with
          | none =>
            fileclose f
            pure (-1)
          | some fd =>
            modify fun s => s.setFile f ((s.file f).opened target request.omode)
            pure fd.val

/-- The end of a pipe at address `pi` that a file stands for. -/
def File.piped (f : File) (pi : Nat) (writable : Bool) : File :=
  { f with type := .pipe, readable := !writable, writable := writable, pipe := pi }

/-- `pipealloc`, with the page that `kalloc` returns. -/
def pipealloc (page : Option Nat) : Call n (Option (Fin nfile × Fin nfile)) := do
  match ← filealloc with
  | none => pure none
  | some f0 =>
    match ← filealloc with
    | none =>
      fileclose f0
      pure none
    | some f1 =>
      match page with
      | none =>
        fileclose f0
        fileclose f1
        pure none
      | some pi =>
        modify fun s => s.setFile f0 ((s.file f0).piped pi false)
        modify fun s => s.setFile f1 ((s.file f1).piped pi true)
        pure (some (f0, f1))

/-- `sys_pipe`; `copied` says whether both descriptors reach the user's array. -/
def sysPipe (p : Fin n) (page : Option Nat) (copied : Bool) : Call n Int := do
  match ← pipealloc page with
  | none => pure (-1)
  | some (rf, wf) =>
    match ← fdalloc p rf with
    | none =>
      fileclose rf
      fileclose wf
      pure (-1)
    | some fd0 =>
      match ← fdalloc p wf with
      | none =>
        clearSlot p fd0
        fileclose rf
        fileclose wf
        pure (-1)
      | some fd1 =>
        if copied then pure 0
        else
          clearSlot p fd0
          clearSlot p fd1
          fileclose rf
          fileclose wf
          pure (-1)

/-- A round of the loop of `fork` over the descriptors of the parent. -/
def inherit (p child : Fin n) (fd : Fin nofile) : Call n Unit := do
  let s ← get
  match s.ofile (p, fd) with
  | none => pure ()
  | some f =>
    filedup f
    modify fun s => s.setSlot child fd (some f)

/-- `fork`; `built` says whether `allocproc` has its pages and `copied` whether
`uvmcopy` succeeds. A failed `fork` makes the slot UNUSED again. -/
def fork (p : Fin n) (built copied : Bool) : Call n (Option (Fin n)) := do
  let s ← get
  match (List.finRange n).find? fun slot => s.state slot = .unused with
  | none => pure none
  | some child =>
    if built && copied then
      set (s.setState child .used)
      (List.finRange nofile).forM (inherit p child)
      modify fun s => s.setState child .runnable
      pure (some child)
    else pure none

/-- A round of the loop of `exit`. -/
def closeSlot (p : Fin n) (fd : Fin nofile) : Call n Unit := do
  let s ← get
  match s.ofile (p, fd) with
  | none => pure ()
  | some f =>
    fileclose f
    clearSlot p fd

def exit (p : Fin n) : Call n Unit := do
  (List.finRange nofile).forM (closeSlot p)
  modify fun s => s.setState p .zombie

end EnhancedXv6.OpenFile
