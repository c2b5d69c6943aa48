import EnhancedXv6.Foundation.Run
import EnhancedXv6.Memory.Uvm

namespace EnhancedXv6.Memory

open Foundation Multiset

/-- `frames` lists the pages that a part of the kernel has from `kalloc`, and `roots` the page
tables that are not freed. -/
structure Machine where
  kmem : Kmem
  frames : List Nat
  roots : List Nat
  result : Int

/-- Calls by the kernel, and writes to memory by those who have it. -/
inductive Call
  | kalloc
  | kfree (pa : Nat)
  | uvmcreate
  | procPagetable (trapframe : Nat)
  | mappages (root va pa perm : Nat)
  | uvmunmap (root va npages : Nat) (doFree : Bool)
  | uvmclear (root va : Nat)
  | removecopy (root va sz : Nat)
  | uvmalloc (root oldsz newsz xperm : Nat)
  | uvmdealloc (root oldsz newsz : Nat)
  | uvmcopy (old new sz : Nat)
  | procFreepagetable (root sz : Nat)
  | fill (pa offset : Nat) (byte : UInt8)
  | write (root va : Nat) (byte : UInt8)

/-- How the kernel calls the functions: a page below `TRAPFRAME` is mapped by the one who has it
and freed when it is unmapped, and the pages above are neither counted nor shared. -/
def Machine.Allows (m : Machine) : Call → Prop
  | .kalloc => True
  | .kfree pa => pa ∈ m.frames
  | .uvmcreate => True
  | .procPagetable tf => tf ∈ m.frames
  | .mappages root va pa perm => root ∈ m.roots ∧ va % pgsize = 0 ∧ va < maxva ∧ perm < 2 ^ 10 ∧
      perm.testBit 1 = true ∧ (va < trapframe → pa ∈ m.frames) ∧
      (trapframe ≤ va → pa % pgsize = 0 ∧ pa < 2 ^ 56 ∧ perm.testBit 8 = false)
  | .uvmunmap root va npages doFree => root ∈ m.roots ∧
      va + npages * pgsize ≤ (if doFree = true then trapframe else maxva) ∧
      (doFree = false → trapframe ≤ va)
  | .uvmclear root va => root ∈ m.roots ∧ va < maxva
  | .removecopy root _ _ => root ∈ m.roots
  | .uvmalloc root oldsz _ xperm => root ∈ m.roots ∧ oldsz ≤ trapframe ∧
      pageCount oldsz + 32768 < userPages ∧ xperm < 2 ^ 10
  | .uvmdealloc root oldsz _ => root ∈ m.roots ∧ oldsz ≤ trapframe
  | .uvmcopy old new sz => old ∈ m.roots ∧ new ∈ m.roots ∧ old ≠ new ∧ sz ≤ trapframe
  | .procFreepagetable root sz => root ∈ m.roots ∧ sz ≤ trapframe
  | .fill pa offset _ => pa ∈ m.frames ∧ offset < pgsize
  | .write root va _ => root ∈ m.roots ∧ va < trapframe

instance (m : Machine) : (call : Call) → Decidable (m.Allows call)
  | .kalloc | .uvmcreate => .isTrue trivial
  | .kfree pa => inferInstanceAs (Decidable (pa ∈ m.frames))
  | .procPagetable tf => inferInstanceAs (Decidable (tf ∈ m.frames))
  | .mappages _ va _ _ =>
    inferInstanceAs (Decidable (_ ∧ _ ∧ _ ∧ _ ∧ _ ∧ (va < trapframe → _) ∧ (trapframe ≤ va → _)))
  | .uvmunmap _ _ _ doFree => inferInstanceAs (Decidable (_ ∧ _ ∧ (doFree = false → _)))
  | .uvmclear _ _ | .uvmdealloc _ _ _ | .procFreepagetable _ _ | .fill _ _ _ | .write _ _ _ =>
    inferInstanceAs (Decidable (_ ∧ _))
  | .removecopy root _ _ => inferInstanceAs (Decidable (root ∈ m.roots))
  | .uvmalloc _ _ _ _ | .uvmcopy _ _ _ => inferInstanceAs (Decidable (_ ∧ _ ∧ _ ∧ _))

/-- A program runs on the memory of the machine; a panic ends the run. -/
def Machine.run (m : Machine) (program : KM α) (next : α → Kmem → Machine) : Option Machine :=
  match program m.kmem with
  | .ok (result, s) => some (next result s)
  | .error _ => none

def Machine.perform (layout : Layout) (m : Machine) : Call → Option Machine
  | .kalloc => m.run kalloc fun pa s =>
      { m with kmem := s, frames := if pa = 0 then m.frames else pa :: m.frames, result := pa }
  | .kfree pa =>
    m.run (kfree pa) fun _ s => { m with kmem := s, frames := m.frames.erase pa, result := 0 }
  | .uvmcreate => m.run uvmcreate fun pt s =>
      { m with kmem := s, roots := if pt = 0 then m.roots else pt :: m.roots, result := pt }
  | .procPagetable tf => m.run (procPagetable layout tf) fun pt s =>
      { m with kmem := s, roots := if pt = 0 then m.roots else pt :: m.roots, result := pt }
  | .mappages root va pa perm => m.run (mappages root va pgsize pa perm) fun result s =>
      { m with
        kmem := s
        frames := if result = 0 ∧ va < trapframe then m.frames.erase pa else m.frames
        result := result }
  | .uvmunmap root va npages doFree => m.run (uvmunmap root va npages doFree) fun _ s =>
      { m with kmem := s, result := 0 }
  | .uvmclear root va => m.run (uvmclear root va) fun _ s => { m with kmem := s, result := 0 }
  | .removecopy root va sz => m.run (removecopy root va sz) fun result s =>
      { m with kmem := s, result := result }
  | .uvmalloc root oldsz newsz xperm => m.run (uvmalloc root oldsz newsz xperm) fun result s =>
      { m with kmem := s, result := result }
  | .uvmdealloc root oldsz newsz => m.run (uvmdealloc root oldsz newsz) fun result s =>
      { m with kmem := s, result := result }
  | .uvmcopy old new sz => m.run (uvmcopy old new sz) fun result s =>
      { m with kmem := s, result := result }
  | .procFreepagetable root sz => m.run (procFreepagetable root sz) fun _ s =>
      { m with kmem := s, roots := m.roots.erase root, result := 0 }
  | .fill pa offset byte =>
      some { m with
        kmem := { m.kmem with mem := Function.update m.kmem.mem (pa + offset) byte }, result := 0 }
  | .write root va byte => m.run (walkaddr root va) fun pa s =>
      if pa = 0 then { m with kmem := s, result := -1 }
      else { m with
        kmem := { s with mem := Function.update s.mem (pa + va % pgsize) byte }
        result := 0 }

def Machine.step (layout : Layout) (m : Machine) (call : Call) : Option Machine :=
  if m.Allows call then m.perform layout call else none

def Machine.start (s : Kmem) : Machine :=
  ⟨s, [], [], 0⟩

def smallLayout : Layout :=
  ⟨phystop - 14 * pgsize, kernbase, by decide, by decide, by decide, by decide⟩

section Kinit

variable {layout : Layout} {s : Kmem} {stops : Panic → Prop}

/-- The pages that a loop of `freerange` gives to the allocator. -/
def pagesFrom (p : Nat) : Nat → Multiset Nat
  | 0 => 0
  | left + 1 => p ::ₘ pagesFrom (p + pgsize) left

theorem mem_pagesFrom {pa p : Nat} (left : Nat) :
    pa ∈ pagesFrom p left ↔ ∃ k, k < left ∧ pa = p + k * pgsize := by
  induction left generalizing p with
  | zero => simp [pagesFrom]
  | succ left ih =>
    rw [pagesFrom, mem_cons, ih]
    constructor
    · rintro (rfl | ⟨k, below, rfl⟩)
      · exact ⟨0, by omega, by ring⟩
      · exact ⟨k + 1, by omega, by ring⟩
    · rintro ⟨k, below, rfl⟩
      cases k with
      | zero => exact .inl (by ring)
      | succ k => exact .inr ⟨k, by omega, by ring⟩

theorem nodup_pagesFrom (p left : Nat) : (pagesFrom p left).Nodup := by
  induction left generalizing p with
  | zero => exact nodup_zero
  | succ left ih =>
    refine nodup_cons.mpr ⟨fun again => ?_, ih (p + pgsize)⟩
    obtain ⟨k, _, same⟩ := (mem_pagesFrom left).mp again
    unfold pgsize at same
    omega

/-- The pages of the allocator are those between the end of the kernel and `PHYSTOP`. -/
theorem mem_managed (layout : Layout) (pa : Nat) :
    pa ∈ pagesFrom (pgroundup layout.kernelEnd) ((phystop - pgroundup layout.kernelEnd) / pgsize) ↔
      layout.Managed pa := by
  have start : pgroundup layout.kernelEnd % pgsize = 0 := by
    rw [← pageCount_mul]
    exact Nat.mul_mod_left _ _
  rw [mem_pagesFrom, Layout.Managed, phystop_eq]
  unfold pgsize at *
  constructor
  · rintro ⟨k, below, rfl⟩
    omega
  · rintro ⟨aligned, low, high⟩
    exact ⟨(pa - pgroundup layout.kernelEnd) / 4096, by omega, by omega⟩

theorem freePages_meets {node : Nodes} {books : Books} {p : Nat} (left : Nat)
    (shows : Represents layout s node books) (paid : books.debt = 0)
    (all : books.held = pagesFrom p left) :
    Meets (freePages p left) s
      (fun _ t => Represents layout t node { books with held := 0 }) stops := by
  induction left generalizing s books p with
  | zero =>
    rw [freePages, meets_pure, show (0 : Multiset Nat) = books.held from all.symm]
    exact shows
  | succ left ih =>
    rw [freePages]
    refine (kfree_held shows paid all).bind fun _ t freed => ?_
    have rest := ih freed paid rfl
    exact rest

def Books.empty (data : Nat → Nat → UInt8) : Books :=
  ⟨fun _ => none, 0, 0, data⟩

/-- Before it frees them, `kinit` counts itself as the user of every page. -/
theorem kinit_counts (s : Kmem) (empty : s.freelist = 0) : Represents layout
      { s with numpUsing := fun i => if i < pgroundup phystop / pgsize then 1 else s.numpUsing i }
      (fun _ => none)
      ⟨fun _ => none,
        pagesFrom (pgroundup layout.kernelEnd) ((phystop - pgroundup layout.kernelEnd) / pgsize), 0,
        fun pa o => s.mem (pa + o)⟩ := by
  have noTables (pa : Nat) : tables (fun _ => none) pa = 0 := owners_eq_zero fun _ => by simp
  have one {pa : Nat} (page : layout.Managed pa) : pa / pgsize < pgroundup phystop / pgsize := by
    have high := page.below
    rw [phystop_eq] at high ⊢
    unfold pgroundup pgsize
    dsimp only
    omega
  refine ⟨⟨?_⟩, ?_, ?_, ?_, ?_, ?_, ?_, ?_, ?_⟩
  · intro r d p t i there
    cases there
  · intro r d p t there
    cases there
  · intro name t there
    cases there
  · intro pa held
    exact (mem_managed layout pa).mp held
  · intro r v leaf mapped
    cases mapped
  · intro pa page
    have unmapped : Books.users ⟨fun _ => none, pagesFrom (pgroundup layout.kernelEnd)
        ((phystop - pgroundup layout.kernelEnd) / pgsize), 0, fun pa o => s.mem (pa + o)⟩ pa = 0 :=
      owners_eq_zero fun _ => by simp
    rw [noTables, unmapped]
    dsimp only
    rw [if_pos (one page),
      count_eq_one_of_mem (nodup_pagesFrom _ _) ((mem_managed layout pa).mpr page)]
    rfl
  · intro pa page
    dsimp only
    rw [if_pos (one page)]
    decide
  · intro pa o _ _ _ _
    rfl
  · refine ⟨[], empty, List.nodup_nil, fun pa => ?_⟩
    simp only [List.not_mem_nil, false_iff, not_and]
    intro page
    rw [if_pos (one page)]
    decide

theorem kinit_meets (empty : s.freelist = 0) :
    Meets (kinit layout) s
      (fun _ t => ∃ data, Tables layout t ∅ (fun _ => none) (Books.empty data)) stops := by
  rw [kinit, meets_bind, meets_modify, freerange]
  refine (freePages_meets _ (kinit_counts s empty) rfl rfl).mono
    (fun _ t shows => ⟨_, shows, ?_, ?_⟩)
    fun _ => id
  · intro r
    refine ⟨?_, ?_, ?_⟩
    · intro t there
      cases there
    · intro d q t there
      cases there
    · intro v x mapped
      cases mapped
  · intro r
    simp

end Kinit

end EnhancedXv6.Memory
