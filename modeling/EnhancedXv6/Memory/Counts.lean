import EnhancedXv6.Memory.FiniteMap

namespace EnhancedXv6.Memory

open Foundation

variable {layout : Layout} {m : Machine} {node : Nodes} {books : Books} {root f : Nat}

/-- How many entries below `TRAPFRAME`, in all page tables, map a frame. -/
noncomputable def Machine.mappings (m : Machine) (f : Nat) : Nat :=
  Set.ncard {name : Nat × Nat | name.1 ∈ m.roots ∧ name.2 < userPages ∧
    m.kmem.frameAt name.1 name.2 = some f}

noncomputable def Machine.tablePages (m : Machine) (f : Nat) : Nat :=
  Set.ncard {name : Nat × Nat × Nat | name.1 ∈ m.roots ∧ name.2.1 < 3 ∧ name.2.2 < 512 ^ name.2.1 ∧
    m.kmem.tableAt name.1 name.2.1 name.2.2 = some f}

section

variable (shows : m.Shows layout node books)

include shows

theorem Machine.Shows.frameAt_eq (alive : root ∈ m.roots) {v : Nat}
    (inside : v < userPages) : m.kmem.frameAt root v = (books.leaf (root, v)).map Leaf.pa := by
  refine shows.tables.frameAt_eq (List.mem_toFinset.mpr alive) ?_
  rw [userPages_eq] at inside
  omega

/-- Who is known under a root is in a page table that is not freed. -/
theorem Machine.Shows.alive_of_node {d p t : Nat} (there : node (root, d, p) = some t) :
    root ∈ m.roots :=
  List.mem_toFinset.mp (shows.tables.alive_of_node there)

theorem Machine.Shows.mappings_eq : m.mappings f = books.users f := by
  unfold Machine.mappings Books.users owners
  rw [← Set.ncard_coe_finset]
  congr 1
  ext ⟨r, v⟩
  simp only [Set.mem_ofPred_eq, Finset.coe_filter, mem_userNames]
  constructor
  · rintro ⟨alive, inside, maps⟩
    rw [shows.frameAt_eq alive inside] at maps
    obtain ⟨leaf, mapped, _⟩ := Option.map_eq_some_iff.mp maps
    exact ⟨⟨(shows.tables.shows.accounts.mapped mapped).1, inside⟩, maps⟩
  · rintro ⟨⟨_, inside⟩, maps⟩
    obtain ⟨leaf, mapped, _⟩ := Option.map_eq_some_iff.mp maps
    obtain ⟨t, there⟩ := (shows.tables.rooted r).below mapped
    have alive := shows.alive_of_node there
    exact ⟨alive, inside, (shows.frameAt_eq alive inside).trans maps⟩

theorem Machine.Shows.tablePages_eq : m.tablePages f = Memory.tables node f := by
  unfold Machine.tablePages Memory.tables owners
  rw [← Set.ncard_coe_finset]
  congr 1
  ext ⟨r, d, p⟩
  simp only [Set.mem_ofPred_eq, Finset.coe_filter, mem_nodeNames]
  constructor
  · rintro ⟨alive, depth, inside, there⟩
    rw [shows.tables.tableAt_eq (List.mem_toFinset.mpr alive) d depth inside] at there
    exact ⟨mem_nodeNames.mp (shows.tables.shows.accounts.mem_names there), there⟩
  · rintro ⟨_, there⟩
    obtain ⟨_, depth, inside⟩ := shows.tables.shows.accounts.named there
    have alive := shows.alive_of_node there
    exact ⟨alive, depth, inside,
      (shows.tables.tableAt_eq (List.mem_toFinset.mpr alive) d depth inside).trans there⟩

end

/-- After any calls the count of a page is the number of its users, and the free list has every page
without users once and no other page. -/
theorem frame_counts_exact (layout : Layout) (mem : Foundation.Memory) (counts : Nat → Int)
    (s : Kmem) (booted : kinit layout ⟨mem, counts, 0⟩ = .ok ((), s)) (calls : List Call)
    (m : Machine) (run : exec (Machine.step layout) (Machine.start s) calls = some m) :
    (∀ f, layout.Managed f →
      m.kmem.numpUsing (f / pgsize) = m.mappings f + (m.tablePages f + m.frames.count f)) ∧
    ∃ pages, Chain (load m.kmem.mem · 8) m.kmem.freelist pages ∧ pages.Nodup ∧
      ∀ f, f ∈ pages ↔ layout.Managed f ∧ m.kmem.numpUsing (f / pgsize) = 0 := by
  obtain ⟨node, books, shows⟩ := Machine.valid_run booted run
  refine ⟨fun f page => ?_, shows.tables.shows.accounts.free⟩
  have count := shows.tables.shows.accounts.count page
  rw [shows.paid, Multiset.count_zero, shows.held, Multiset.coe_count] at count
  rw [shows.mappings_eq, shows.tablePages_eq]
  omega

def oneFork : List Call :=
  [.kalloc, .procPagetable (phystop - pgsize), .uvmalloc (phystop - 2 * pgsize) 0 pgsize pteW,
    .kalloc, .procPagetable (phystop - 8 * pgsize),
    .uvmcopy (phystop - 2 * pgsize) (phystop - 9 * pgsize) pgsize]

theorem frame_counts_exact_one_fork :
    ∃ s m, kinit smallLayout ⟨fun _ => 0, fun _ => 0, 0⟩ = .ok ((), s) ∧
      exec (Machine.step smallLayout) (Machine.start s) oneFork = some m ∧
      m.mappings (phystop - 5 * pgsize) + (m.tablePages (phystop - 5 * pgsize) +
        m.frames.count (phystop - 5 * pgsize)) = 2 := by
  have ends : (bootRun smallLayout oneFork).map
      (fun m => m.kmem.numpUsing ((phystop - 5 * pgsize) / pgsize)) = some 2 := by decide +kernel
  obtain ⟨m, ended, two⟩ := Option.map_eq_some_iff.mp ends
  obtain ⟨s, booted, run⟩ := bootRun_some ended
  have count := (frame_counts_exact smallLayout _ _ s booted oneFork m run).1 (phystop - 5 * pgsize)
    (by decide)
  rw [two] at count
  exact ⟨s, m, booted, run, by omega⟩

end EnhancedXv6.Memory
