import EnhancedXv6.Memory.Eager
import EnhancedXv6.OpenFile.Table
import EnhancedXv6.Scheduler.Waitx

namespace EnhancedXv6.Process

open Option Function Memory
open Foundation EnhancedXv6.OpenFile Scheduler
open EnhancedXv6.Memory (KM Kmem Layout System Sound Nodes Books pgsize userLoad userStore)

variable {post : Option Memory.Proc → Kmem → Prop}

section Model

/-- What `fork` reads and changes; an open file and an inode are known by their numbers. -/
structure Host (n : Nat) where
  kmem : Kmem
  table : Table n
  nextpid : Int
  ofile : Fin n → Fin nofile → Option (Fin nfile)
  cwd : Fin n → Nat
  fileRef : Fin nfile → Int
  inodeRef : Nat → Int

inductive HostPanic where
  | memory (e : Memory.Panic)
  | filedup
  deriving DecidableEq

variable {n : Nat}

abbrev HostM (n : Nat) (α : Type) := Program HostPanic (Host n) α

def kernel {α : Type} (program : KM α) : HostM n α :=
  program.zoom Host.kmem (fun h k => { h with kmem := k }) .memory

def Host.assign (h : Host n) (slot : Fin n) (change : Proc → Proc) : Host n :=
  { h with table := Function.update h.table slot (change (h.table slot)) }

def Host.freeproc (ticks : Nat) (np : Fin n) : HostM n Unit := do
  kernel (Memory.freeproc (space ((← get).table np)))
  modify fun h => h.assign np fun p => p.freed ticks

/-- The first slot that the two scans of `allocproc` find unused. -/
def unusedSlot (table : Table n) : Option (Fin n) :=
  (List.finRange n ++ List.finRange n).find? fun p => (table p).state = .unused

def Host.allocproc (layout : Layout) (ticks : Nat) : HostM n (Option (Fin n)) := do
  match unusedSlot (← get).table with
  | none => return none
  | some p =>
    modify
      fun h => { h.assign p fun slot => slot.found h.nextpid ticks with nextpid := h.nextpid + 1 }
    let page ← kernel Memory.kalloc
    modify fun h => h.assign p fun slot => { slot with trapframe := page }
    if page = 0 then
      freeproc ticks p
      return none
    else
      let pagetable ← kernel (Memory.procPagetable layout page)
      modify fun h => h.assign p fun slot => { slot with pagetable := pagetable }
      if pagetable = 0 then
        freeproc ticks p
        return none
      else
        modify fun h => h.assign p fun slot => slot.started ticks
        return some p

def Host.filedup (p np : Fin n) (i : Fin nofile) : HostM n Unit := do
  let h ← get
  match h.ofile p i with
  | none => return ()
  | some f =>
    if h.fileRef f < 1 then
      throw .filedup
    else
      set { h with
        fileRef := Function.update h.fileRef f (h.fileRef f + 1)
        ofile := Function.update h.ofile np (Function.update (h.ofile np) i (some f)) }

/-- `fork` of the process in a slot; the name of a process is left out. -/
def Host.fork (layout : Layout) (ticks : Nat) (p : Fin n) : HostM n Int := do
  match ← allocproc layout ticks with
  | none => return -1
  | some np =>
    let h ← get
    let copied ← kernel (Memory.uvmcopy (h.table p).pagetable (h.table np).pagetable (h.table p).sz)
    if copied < 0 then
      freeproc ticks np
      return -1
    else
      modify fun h => h.assign np fun slot => { slot with sz := (h.table p).sz }
      kernel (Memory.memmove (h.table np).trapframe (h.table p).trapframe Memory.trapframeBytes)
      kernel (Memory.storeWord ((h.table np).trapframe + Memory.tfA0) 0)
      (List.finRange nofile).forM (filedup p np)
      modify fun h => { h with
        cwd := Function.update h.cwd np (h.cwd p)
        inodeRef := Function.update h.inodeRef (h.cwd p) (h.inodeRef (h.cwd p) + 1) }
      let pid := ((← get).table np).pid
      modify fun h => h.assign np fun slot => { slot with parent := some p.val }
      modify fun h => h.assign np fun slot => { slot with state := .runnable }
      return pid

end Model

section Statement

variable {n : Nat}

/-- The process table agrees with the memory: a slot in use has its address space there, and one
that is not is blank. -/
structure Host.Agrees (h : Host n) (s : System) : Prop where
  kmem : h.kmem = s.kmem
  used : ∀ i, (h.table i).state ≠ .unused → s.procs i = some (space (h.table i))
  blank : ∀ i, (h.table i).state = .unused → space (h.table i) = ⟨0, 0, 0⟩
  pids : 0 < h.nextpid

structure Host.NoTrace (layout : Layout) (h h' : Host n) (p : Fin n) : Prop where
  free : ∀ pa, h'.kmem.Free pa ↔ h.kmem.Free pa
  counts : ∀ pa, layout.Managed pa →
    h'.kmem.numpUsing (pa / pgsize) = h.kmem.numpUsing (pa / pgsize)
  slots : ∀ i, (h'.table i).state = (h.table i).state
  others : ∀ i, (h.table i).state ≠ .unused → h'.table i = h.table i
  files : h'.ofile = h.ofile ∧ h'.fileRef = h.fileRef
  inodes : h'.cwd = h.cwd ∧ h'.inodeRef = h.inodeRef
  loads : ∀ va, (userLoad (h.table p).pagetable va h'.kmem).map Prod.fst =
    (userLoad (h.table p).pagetable va h.kmem).map Prod.fst
  stores : ∀ va sp byte k, sp < 2 ^ 64 →
    userStore (h.table p).pagetable va sp byte h.kmem = .ok (true, k) →
    ∃ k', userStore (h.table p).pagetable va sp byte h'.kmem = .ok (true, k')

end Statement

section Run

variable {n : Nat} {layout : Layout} {h : Host n} {p np : Fin n} {ticks : Nat}
  {stops : HostPanic → Prop}

theorem meets_kernel {α : Type} {program : KM α} {post : α → Host n → Prop} :
    Meets (kernel program) h post stops ↔
      Meets program h.kmem (fun a k => post a { h with kmem := k }) fun e => stops (.memory e) :=
  meets_zoom

/-- A pid was given out, and the slot that was found has these fields. -/
def Host.slotted (h : Host n) (np : Fin n) (slot : Proc) (k : Kmem) : Host n :=
  { h with kmem := k, nextpid := h.nextpid + 1, table := Function.update h.table np slot }

@[simp]
theorem Host.slotted_self (h : Host n) (np : Fin n) (slot : Proc) (k : Kmem) :
    (h.slotted np slot k).table np = slot :=
  update_self _ _ _

theorem Host.slotted_other {other : Fin n} (apart : other ≠ np) (h : Host n) (slot : Proc)
    (k : Kmem) : (h.slotted np slot k).table other = h.table other :=
  update_of_ne apart _ _

@[simp]
theorem Host.slotted_assign (h : Host n) (np : Fin n) (slot : Proc) (k : Kmem)
    (change : Proc → Proc) :
    (h.slotted np slot k).assign np change = h.slotted np (change slot) k := by
  simp only [slotted, assign, update_self, update_idem]

def Host.Unwound (h : Host n) (np : Fin n) (post : Kmem → Prop) (h' : Host n) : Prop :=
  ∃ slot k, slot.state = .unused ∧ post k ∧ h' = h.slotted np slot k

/-- The slot that was found has a trapframe and a page table. -/
def Host.begun (h : Host n) (np : Fin n) (ticks pagetable page : Nat) (k : Kmem) : Host n :=
  h.slotted np
    ({ (h.table np).found h.nextpid ticks with
      trapframe := page, pagetable := pagetable }.started ticks) k

theorem Host.freeproc_meets {slot : Proc} {k : Kmem} {post : Kmem → Prop}
    (memory : Meets (Memory.freeproc (space slot)) k (fun _ => post) fun e => stops (.memory e)) :
    Meets (freeproc ticks np) (h.slotted np slot k)
      (fun _ h' => h.Unwound np post h') stops := by
  rw [freeproc, meets_bind, meets_get, slotted_self, meets_bind, meets_kernel]
  refine memory.mono (fun _ k' freed => ?_) fun _ => id
  rw [meets_modify]
  exact ⟨slot.freed ticks, k', rfl, freed, h.slotted_assign np slot k' _⟩

/-- The memory of `allocproc` is that of the memory model. -/
theorem Host.allocproc_meets (found : unusedSlot h.table = some np)
    (blank : space (h.table np) = ⟨0, 0, 0⟩)
    (memory : Meets (Memory.allocproc layout) h.kmem post fun e => stops (.memory e)) :
    Meets (allocproc layout ticks) h (fun result h' =>
      (result = none ∧ h.Unwound np (post none) h') ∨
      (result = some np ∧ ∃ pagetable page k, post (some ⟨pagetable, 0, page⟩) k ∧
        h' = h.begun np ticks pagetable page k)) stops := by
  obtain ⟨noTable, noSize, _⟩ := Memory.Proc.mk.inj blank
  have unwinds {slot : Proc} {k : Kmem}
      (memory :
        Meets (Memory.freeproc (space slot)) k (fun _ => post none) fun e => stops (.memory e)) :
      Meets (freeproc ticks np >>= fun _ => pure (none : Option (Fin n))) (h.slotted np slot k)
        (fun result h' =>
        (result = none ∧ h.Unwound np (post none) h') ∨
        (result = some np ∧ ∃ pagetable page k, post (some ⟨pagetable, 0, page⟩) k ∧
          h' = h.begun np ticks pagetable page k)) stops := by
    refine (freeproc_meets memory).bind fun _ h' freed => ?_
    rw [meets_pure]
    exact .inl ⟨rfl, freed⟩
  rw [Memory.allocproc, meets_bind] at memory
  rw [allocproc, meets_bind, meets_get, found]
  dsimp only
  rw [meets_bind, meets_modify, meets_bind, meets_kernel]
  refine memory.mono (fun page k inner => ?_) fun _ => id
  rw [meets_bind, meets_modify]
  change Meets _ ((h.slotted np ((h.table np).found h.nextpid ticks) k).assign np _) _ _
  rw [slotted_assign]
  by_cases failed : page = 0
  · rw [if_pos failed, meets_bind] at inner
    rw [if_pos failed]
    simp only [meets_pure] at inner
    refine unwinds ?_
    have same : space { (h.table np).found h.nextpid ticks with trapframe := page } =
        ⟨(h.table np).pagetable, (h.table np).sz, page⟩ := rfl
    rw [same, noTable, noSize, failed]
    exact inner
  · rw [if_neg failed, meets_bind] at inner
    rw [if_neg failed, meets_bind, meets_kernel]
    refine inner.mono (fun pagetable k inner => ?_) fun _ => id
    rw [meets_bind, meets_modify]
    change Meets _ ((h.slotted np _ k).assign np _) _ _
    rw [slotted_assign]
    by_cases refused : pagetable = 0
    · rw [if_pos refused, meets_bind] at inner
      rw [if_pos refused]
      simp only [meets_pure] at inner
      refine unwinds ?_
      have same : space
          { (h.table np).found h.nextpid ticks with trapframe := page, pagetable := pagetable } =
          ⟨pagetable, (h.table np).sz, page⟩ := rfl
      rw [same, noSize, refused]
      exact inner
    · rw [if_neg refused, meets_pure] at inner
      rw [if_neg refused, meets_bind, meets_modify, slotted_assign, meets_pure]
      exact .inr ⟨rfl, pagetable, page, k, inner, rfl⟩

/-- The table of processes is not changed by the loop over the descriptors. -/
theorem Host.filedup_meets {table : Table n} {slots : List (Fin nofile)} (same : h.table = table)
    (dup : stops .filedup) :
    Meets (slots.forM (filedup p np)) h (fun _ h' => h'.table = table) stops := by
  refine meets_forM (fun _ (h : Host n) => h.table = table) slots same fun i rest h same => ?_
  rw [filedup, meets_bind, meets_get]
  split
  · rw [meets_pure]
    exact same
  · split
    · rw [meets_throw]
      exact dup
    · rw [meets_set]
      exact same

/-- The memory of `fork` is that of the memory model, and a call that fails there gives up its slot.
-/
theorem Host.fork_meets (found : unusedSlot h.table = some np)
    (blank : space (h.table np) = ⟨0, 0, 0⟩) (apart : p ≠ np)
    (memory : Meets ((space (h.table p)).fork layout) h.kmem post fun e => stops (.memory e))
    (dup : stops .filedup) :
    Meets (fork layout ticks p) h (fun result h' =>
      (result = -1 ∧ h.Unwound np (post none) h') ∨ result = h.nextpid) stops := by
  rw [Memory.Proc.fork, meets_bind] at memory
  rw [fork]
  refine (allocproc_meets found blank memory).bind fun result h' outcome => ?_
  rcases outcome with ⟨rfl, slot, k, unused, inner, rfl⟩ | ⟨rfl, pagetable, page, k, inner, rfl⟩
  · dsimp only at inner ⊢
    rw [meets_pure] at inner ⊢
    exact .inl ⟨rfl, slot, k, unused, inner, rfl⟩
  dsimp only at inner ⊢
  rw [meets_bind] at inner
  rw [meets_bind, meets_get, meets_bind, meets_kernel]
  unfold begun
  rw [slotted_other apart, slotted_self]
  refine inner.mono (fun copied k inner => ?_) fun _ => id
  by_cases failed : copied < 0
  · rw [if_pos failed, meets_bind] at inner
    rw [if_pos failed]
    simp only [meets_pure] at inner
    have same : space (Proc.started { (h.table np).found h.nextpid ticks with
        trapframe := page,
        pagetable := pagetable } ticks) = ⟨pagetable, (h.table np).sz, page⟩ := rfl
    rw [← (Memory.Proc.mk.inj blank).2.1, ← same] at inner
    change Meets _ (h.slotted np _ k) _ _
    refine (freeproc_meets inner).bind fun _ h' freed => ?_
    rw [meets_pure]
    exact .inl ⟨rfl, freed⟩
  · rw [if_neg failed, meets_bind, meets_modify]
    change Meets _ ((h.slotted np _ k).assign np _) _ _
    rw [slotted_assign, meets_bind, meets_kernel, memmove, meets_modify]
    change Meets _ (h.slotted np _ _) _ _
    rw [meets_bind, meets_kernel, storeWord, meets_modify]
    change Meets _ (h.slotted np _ _) _ _
    refine (filedup_meets rfl dup).bind fun _ h' same => ?_
    rw [meets_bind, meets_modify, meets_bind, meets_get, meets_bind, meets_modify, meets_bind,
      meets_modify, meets_pure]
    dsimp only
    rw [same, slotted_self]
    exact .inr rfl

end Run

section Marks

variable {layout : Layout} {live : Finset Nat} {node : Nodes} {books : Books} {k u : Kmem}
  {q : Memory.Proc} {r : Nat}

/-- The first pages of an address space are marked to be copied on a write, and nothing that was in
use is different. -/
structure Marked (layout : Layout) (live : Finset Nat) (node : Nodes) (books : Books) (r n : Nat)
    (k u : Kmem) (books' : Books) : Prop where
  sound : Sound layout u live node books'
  held : books'.held = books.held
  data : ∀ f, f ∈ books.held ∨ 0 < books.users f → books'.data f = books.data f
  few : n ≤ Memory.userPages
  spare : n = 0 ∨ 0 < k.spare layout
  leaf : books'.leaf = (books.cowed r n).leaf

variable {books' : Books} {n : Nat}

section

variable (marked : Marked layout live node books r n k u books')

include marked

theorem Marked.users (pa : Nat) : books'.users pa = books.users pa := by
  unfold Books.users
  refine owners_congr fun name _ => ?_
  rw [marked.leaf]
  unfold Books.cowed
  dsimp only
  split
  · rw [map_map]
    rfl
  · rfl

section

variable (sound : Sound layout k live node books)

include sound

theorem Marked.count {pa : Nat} (page : layout.Managed pa) :
    u.numpUsing (pa / pgsize) = k.numpUsing (pa / pgsize) :=
  sound.tables.shows.accounts.same_count sound.paid marked.sound.tables.shows.accounts
    marked.sound.paid page
    (marked.users pa) marked.held

theorem Marked.free_iff (pa : Nat) : u.Free pa ↔ k.Free pa := by
  rw [marked.sound.tables.shows.accounts.listed_iff, sound.tables.shows.accounts.listed_iff]
  refine and_congr_right fun page => ?_
  rw [marked.count sound page]

theorem Marked.spare_eq : u.spare layout = k.spare layout := by
  unfold Kmem.spare
  congr 1
  refine Finset.filter_congr fun pa member => ?_
  rw [marked.count sound (Layout.mem_pages.mp member)]

theorem Marked.space_eq (r' sz : Nat) : books'.space r' sz = books.space r' sz := by
  refine Books.space_congr fun v user => ?_
  rw [marked.leaf]
  unfold Books.cowed
  dsimp only
  have same {leaf : Leaf} (here : books.leaf (r', v) = some leaf) :
      books'.page leaf = books.page leaf :=
    Books.page_congr (marked.data _ (.inr
      (Books.users_pos here (sound.tables.shows.accounts.mapped here).1 user)))
  split
  · rw [map_map]
    exact map_congr fun leaf here => (books'.page_cow leaf).trans (same here)
  · exact map_congr fun leaf here => same here

theorem Marked.load_eq {r' : Nat} (root : r' ∈ live) (va : Nat) :
    (userLoad r' va u).map Prod.fst = (userLoad r' va k).map Prod.fst := by
  have before : Meets (userLoad r' va) k _ fun _ => False := userLoad_sound sound root
  have after : Meets (userLoad r' va) u _ fun _ => False := userLoad_sound marked.sound root
  obtain ⟨byte, _, loaded, _, seen⟩ := before.ends
  obtain ⟨byte', _, loaded', _, seen'⟩ := after.ends
  rw [loaded, loaded', Except.map, Except.map, seen 0, seen' 0, marked.space_eq sound]

theorem Marked.store {r' va sp : Nat} {byte : UInt8} (root : r' ∈ live) (word : sp < 2 ^ 64)
    {k' : Kmem} (stored : userStore r' va sp byte k = .ok (true, k')) :
    ∃ u', userStore r' va sp byte u = .ok (true, u') := by
  have before : Meets (userStore r' va sp byte) k _ fun _ => True :=
    userStore_sound sound root word (fun _ => trivial) fun _ _ _ _ _ => trivial
  rcases before.result stored with ⟨refused, _⟩ | ⟨_, leaf, _, _, seen, own, _⟩
  · cases refused
  obtain ⟨low, here, visible⟩ := Books.reach_some.mp seen
  have writable : (leaf.flags.testBit 2 || leaf.flags.testBit 8) = true := by
    rcases own with ⟨writes, _⟩ | ⟨_, shared, _⟩
    · rw [writes, Bool.true_or]
    · rw [shared, Bool.or_true]
  -- the entry of the page after the marking, and why it can be written
  have now : ∃ leaf', books'.reach r' va = some leaf' ∧ (leaf'.flags.testBit 2 = true ∨
      leaf'.flags.testBit 8 = true ∧ 0 < u.spare layout) := by
    rw [marked.spare_eq sound]
    by_cases inside : r' = r ∧ va / pgsize < n
    · have there : books'.leaf (r', va / pgsize) = some leaf.cow := by
        rw [marked.leaf]
        unfold Books.cowed
        dsimp only
        rw [if_pos inside, here, map_some]
      have page := books.page_cow leaf
      have user : leaf.cow.flags.testBit 4 = leaf.flags.testBit 4 := congrArg PrivatePage.user page
      have writes : (leaf.cow.flags.testBit 2 || leaf.cow.flags.testBit 8) = _ :=
        congrArg PrivatePage.writable page
      refine ⟨leaf.cow, Books.reach_some.mpr ⟨low, there, user.trans visible⟩, ?_⟩
      refine (Bool.or_eq_true_iff.mp (writes.trans writable)).imp_right fun shared => ⟨shared, ?_⟩
      exact marked.spare.resolve_left (Nat.ne_of_gt (Nat.zero_lt_of_lt inside.2))
    · have there : books'.leaf (r', va / pgsize) = some leaf := by
        rw [marked.leaf]
        unfold Books.cowed
        dsimp only
        rw [if_neg inside, here]
      refine ⟨leaf, Books.reach_some.mpr ⟨low, there, visible⟩, ?_⟩
      exact own.imp (fun direct => direct.1) fun copies => ⟨copies.2.1, copies.2.2.1⟩
  obtain ⟨leaf', seen', how⟩ := now
  obtain ⟨_, there, _⟩ := Books.reach_some.mp seen'
  have full (x : Leaf) (mapped : books'.leaf (r', va / pgsize) = some x)
      (_ : x.flags.testBit 8 = true)
      (readonly : books'.reach r' va = some x → x.flags.testBit 2 = false)
        (empty : u.spare layout = 0) : False := by
    cases mapped.symm.trans there
    rcases how with writes | ⟨_, free⟩
    · cases (readonly seen').symm.trans writes
    · omega
  have after : Meets (userStore r' va sp byte) u _ fun _ => False :=
    userStore_sound marked.sound root word (fun missing => by cases missing.symm.trans there) full
  obtain ⟨result, u', ended, outcome⟩ := after.ends
  rcases outcome with ⟨_, refused, _⟩ | ⟨rfl, _⟩
  · obtain ⟨readonly, plain⟩ := refused leaf' seen'
    rw [readonly, plain] at how
    simp at how
  · exact ⟨u', ended⟩

end

end

end Marks

section Failure

variable {n : Nat} {layout : Layout} {h h' : Host n} {p np : Fin n} {ticks : Nat} {s : System}

theorem unusedSlot_some (found : unusedSlot h.table = some np) : (h.table np).state = .unused :=
  of_decide_eq_true (List.find?_some (p := fun q => decide ((h.table q).state = .unused)) found)

theorem Host.NoTrace.refl (layout : Layout) (h : Host n) (p : Fin n) : Host.NoTrace layout h h p :=
  ⟨fun _ => Iff.rfl, fun _ _ => rfl, fun _ => rfl, fun _ _ => rfl, ⟨rfl, rfl⟩,
    ⟨rfl, rfl⟩, fun _ => rfl, fun _ _ _ k _ stored => ⟨k, stored⟩⟩

/-- A slot that is unused again, with memory that is only marked, is no trace. -/
theorem Host.NoTrace.of_slotted {live : Finset Nat} {tfs : Multiset Nat} {node : Nodes}
    {books books' : Books} {slot : Proc} {u : Kmem} {m : Nat} (agrees : h.Agrees s)
    (shows : s.Shows layout live tfs node books) (used : (h.table p).state ≠ .unused)
    (found : (h.table np).state = .unused) (unused : slot.state = .unused)
    (marked : Marked layout live node books (h.table p).pagetable m h.kmem u books') :
    Host.NoTrace layout h (h.slotted np slot u) p := by
  have sound : Sound layout h.kmem live node books := by
    rw [agrees.kmem]
    exact shows.sound
  have alive : (h.table p).pagetable ∈ live := (shows.proc (agrees.used p used)).1
  refine ⟨marked.free_iff sound, fun pa page => marked.count sound page, fun i => ?_,
    fun i busy => ?_, ⟨rfl, rfl⟩, ⟨rfl, rfl⟩, marked.load_eq sound alive,
    fun va sp byte k word stored => marked.store sound alive word stored⟩
  · by_cases same : i = np
    · rw [same, slotted_self, unused, found]
    · rw [slotted_other same]
  · refine slotted_other ?_ h slot u
    rintro rfl
    exact busy found

/-- In every reached state, a `fork` that fails leaves no trace, and neither a lack of memory nor
what is done about it ends in a panic. -/
theorem fork_failed_no_trace (n : Nat) (layout : Layout) (mem : Foundation.Memory)
    (counts : Nat → Int) (u : Kmem) (booted : Memory.kinit layout ⟨mem, counts, 0⟩ = .ok ((), u))
    (events : List Memory.Event) (s : System)
    (run : exec (System.step layout) (System.start u) events = some s) (h : Host n)
    (agrees : h.Agrees s) (p : Fin n) (used : (h.table p).state ≠ .unused) (ticks : Nat) :
    (∀ e, Host.fork layout ticks p h ≠ .error (.memory e)) ∧
      ∀ h', Host.fork layout ticks p h = .ok (-1, h') → Host.NoTrace layout h h' p := by
  obtain ⟨live, tfs, node, books, shows⟩ := Memory.System.valid_run booted run
  obtain ⟨alive, _, fits⟩ := shows.proc (agrees.used p used)
  have meets :
      Meets (Host.fork layout ticks p) h (fun result h' => result = -1 → Host.NoTrace layout h h' p)
      fun e => e = .filedup := by
    cases found : unusedSlot h.table with
    | none =>
      rw [Host.fork, Host.allocproc, meets_bind, meets_bind, meets_get, found]
      dsimp only
      rw [meets_pure]
      dsimp only
      rw [meets_pure]
      exact fun _ => .refl layout h p
    | some np =>
      have free := unusedSlot_some found
      have apart : p ≠ np := by
        rintro rfl
        exact used free
      have sound : Sound layout h.kmem live node books := by
        rw [agrees.kmem]
        exact shows.sound
      refine (Host.fork_meets found (agrees.blank np free) apart
        (Memory.fork_sound sound alive fits) rfl).mono
        (fun result h' outcome failed => ?_) fun _ => Eq.symm
      rcases outcome with ⟨_, slot, v, unused, failure, rfl⟩ | returned
      · rcases failure with ⟨_, _, books', after, held, data, m, few, spare, leaf⟩ | ⟨_, absent, _⟩
        · exact .of_slotted agrees shows used free unused ⟨after, held, data, few, spare, leaf⟩
        · cases absent
      · have positive := agrees.pids
        omega
  refine ⟨fun e stopped => ?_, fun h' failed => meets.result failed rfl⟩
  unfold Meets at meets
  rw [stopped] at meets
  cases meets

def twoSlots (k : Kmem) (q : Memory.Proc) : Host 2 where
  kmem := k
  table i :=
    if i.val = 0 then
      { state := .running, pagetable := q.pagetable, sz := q.sz, trapframe := q.trapframe } else {}
  nextpid := 2
  ofile _ _ := none
  cwd _ := 0
  fileRef _ := 0
  inodeRef _ := 1

/-- The first process takes all the memory and calls `fork`. -/
def exhausted : List Memory.Event :=
  [.userinit 0 [], .kalloc, .kalloc, .kalloc, .kalloc, .kalloc, .kalloc, .kalloc]

theorem fork_failed_no_trace_exhausted :
    ∃ u s q h', Memory.kinit Memory.smallLayout ⟨fun _ => 0, fun _ => 0, 0⟩ = .ok ((), u) ∧
      exec (System.step Memory.smallLayout) (System.start u) exhausted = some s ∧
      s.procs 0 = some q ∧
      Host.fork Memory.smallLayout 7 ⟨0, Nat.two_pos⟩ (twoSlots s.kmem q) = .ok (-1, h') ∧
      Host.NoTrace Memory.smallLayout (twoSlots s.kmem q) h' ⟨0, Nat.two_pos⟩ := by
  have computed :
    ((Memory.bootSystem Memory.smallLayout exhausted).bind fun s => (s.procs 0).map fun q =>
      ((s.procs 1).isNone,
        (Host.fork Memory.smallLayout 7 ⟨0, Nat.two_pos⟩
          (twoSlots s.kmem q)).toOption.map Prod.fst)) =
      some (true, some (-1)) := by decide +kernel
  obtain ⟨s, ended, rest⟩ := bind_eq_some_iff.mp computed
  obtain ⟨q, here, facts⟩ := map_eq_some_iff.mp rest
  obtain ⟨vacant, returned⟩ := Prod.mk.inj facts
  obtain ⟨u, booted, run⟩ := Memory.bootSystem_some ended
  have agrees : (twoSlots s.kmem q).Agrees s := by
    refine ⟨rfl, fun i busy => ?_, fun i unused => ?_, two_pos⟩
    · by_cases first : i.val = 0
      · unfold twoSlots
        dsimp only
        rw [if_pos first, first, here]
        rfl
      · unfold twoSlots at busy
        dsimp only at busy
        rw [if_neg first] at busy
        exact absurd rfl busy
    · unfold twoSlots at unused ⊢
      dsimp only at unused ⊢
      by_cases first : i.val = 0
      · rw [if_pos first] at unused
        cases unused
      · rw [if_neg first]
        rfl
  cases forked : Host.fork Memory.smallLayout 7 ⟨0, Nat.two_pos⟩ (twoSlots s.kmem q) with
  | error e =>
    rw [forked] at returned
    cases returned
  | ok outcome =>
    obtain ⟨result, h'⟩ := outcome
    rw [forked] at returned
    cases returned
    have used : ((twoSlots s.kmem q).table ⟨0, Nat.two_pos⟩).state ≠ .unused := by
      simp [twoSlots]
    refine ⟨u, s, q, h', booted, run, here, forked, ?_⟩
    exact (fork_failed_no_trace 2 _ _ _ u booted _ s run _ agrees _ used 7).2 h' forked

end Failure

end EnhancedXv6.Process
