import EnhancedXv6.Memory.Calls

namespace EnhancedXv6.Memory

open Foundation

variable {layout : Layout} {m m' : Machine} {node : Nodes} {books : Books}

/-- The table pages form trees: a page is in one place, an entry above the lowest level is empty
or a pointer to the page below, and an entry of the lowest level is empty or readable. -/
structure Machine.Tree (m : Machine) (node : Nodes) : Prop where
  root : ∀ root ∈ m.roots, node (root, 0, 0) = some root
  place : ∀ {name name' t}, node name = some t → node name' = some t → name = name'
  pointer : ∀ {r d p t i}, node (r, d, p) = some t → d < 2 → i < 512 →
    load m.kmem.mem (t + 8 * i) 8 = 0 ∧ node (r, d + 1, p * 512 + i) = none ∨
    load m.kmem.mem (t + 8 * i) 8 &&& pteV ≠ 0 ∧
      load m.kmem.mem (t + 8 * i) 8 &&& (pteR ||| pteW ||| pteX) = 0 ∧
      node (r, d + 1, p * 512 + i) = some (pte2pa (load m.kmem.mem (t + 8 * i) 8))
  readable : ∀ {r p t i}, node (r, 2, p) = some t → i < 512 →
    load m.kmem.mem (t + 8 * i) 8 = 0 ∨
    load m.kmem.mem (t + 8 * i) 8 &&& pteV ≠ 0 ∧ load m.kmem.mem (t + 8 * i) 8 &&& pteR ≠ 0

/-- `walk` and `walkaddr` return what a map from roots and virtual pages says. -/
structure Machine.Implements (m : Machine) (M : Nat × Nat → Option Leaf) : Prop where
  walk : ∀ root ∈ m.roots, ∀ va < maxva, ∃ pte, walk root va false m.kmem = .ok (pte, m.kmem) ∧
    if pte = 0 then M (root, va / pgsize) = none
    else load m.kmem.mem pte 8 = (M (root, va / pgsize)).elim 0 Leaf.pte
  walkaddr : ∀ root ∈ m.roots, ∀ va < maxva,
    walkaddr root va m.kmem = .ok ((M (root, va / pgsize)).elim 0 Leaf.addr, m.kmem)
  tree : ∃ node, m.Tree node

theorem Machine.Shows.tree (shows : m.Shows layout node books) : m.Tree node where
  root := fun root alive => (shows.tables.live root).mp (List.mem_toFinset.mpr alive)
  place := shows.tables.shows.accounts.place
  pointer := by
    intro r d p t i there upper inside
    rw [shows.tables.shows.slots.slot there inside, entry, if_neg (by omega)]
    cases child : node (r, d + 1, p * 512 + i) with
    | none => exact .inl ⟨rfl, rfl⟩
    | some c =>
      have page := (shows.tables.shows.accounts.table child).1
      rw [Option.elim_some, pointer_page page]
      exact .inr ⟨pointer_valid, pointer_plain, rfl⟩
  readable := by
    intro r p t i there inside
    rw [shows.tables.shows.slots.slot there inside, entry, if_pos rfl]
    cases books.leaf (r, p * 512 + i) with
    | none => exact .inl rfl
    | some leaf =>
      have readable : leaf.pte &&& pteR ≠ 0 := (leaf.pte_test (by omega)).mpr leaf.readable
      exact .inr ⟨leaf.pte_valid, readable⟩

theorem Machine.Shows.implements (shows : m.Shows layout node books) : m.Implements books.leaf where
  walk := by
    intro root alive va low
    have meets : Meets (Memory.walk root va false) m.kmem _ fun _ => False :=
      shows.tables.find (List.mem_toFinset.mpr alive) low
    obtain ⟨pte, s, ended, same, found⟩ := meets.ends
    subst same
    refine ⟨pte, ended, ?_⟩
    rcases found with ⟨null, unmapped⟩ | ⟨real, c, there, slot⟩
    · rw [if_pos null]
      exact unmapped
    · rw [if_neg real, slot]
      exact shows.tables.read there
  walkaddr := by
    intro root alive va low
    have meets : Meets (Memory.walkaddr root va) m.kmem _ fun _ => False :=
      walkaddr_meets shows.tables (List.mem_toFinset.mpr alive) low
    obtain ⟨pa, s, ended, found, same⟩ := meets.ends
    rw [ended, found, same]
  tree := ⟨node, shows.tree⟩

/-- The page tables of every state are a map, and every call changes the map only where it says. -/
theorem page_table_finite_map (layout : Layout) (mem : Foundation.Memory) (counts : Nat → Int)
    (s : Kmem) (booted : kinit layout ⟨mem, counts, 0⟩ = .ok ((), s)) (calls : List Call)
    (m : Machine) (run : exec (Machine.step layout) (Machine.start s) calls = some m) :
    ∃ M, m.Implements M ∧ ∀ call m', m.step layout call = some m' →
      ∃ M', m'.Implements M' ∧ call.Effect m'.result M M' := by
  obtain ⟨node, books, shows⟩ := Machine.valid_run booted run
  refine ⟨books.leaf, shows.implements, fun call m' taken => ?_⟩
  obtain ⟨node', books', after, effect⟩ := shows.step taken
  exact ⟨books'.leaf, after.implements, effect⟩

def bootRun (layout : Layout) (calls : List Call) : Option Machine :=
  match kinit layout ⟨fun _ => 0, fun _ => 0, 0⟩ with
  | .ok (_, s) => exec (Machine.step layout) (Machine.start s) calls
  | .error _ => none

theorem bootRun_some {calls : List Call} (ended : bootRun layout calls = some m) :
    ∃ s, kinit layout ⟨fun _ => 0, fun _ => 0, 0⟩ = .ok ((), s) ∧
      exec (Machine.step layout) (Machine.start s) calls = some m := by
  unfold bootRun at ended
  split at ended
  · rename_i s booted
    exact ⟨s, booted, ended⟩
  · cases ended

def onePage : List Call :=
  [.uvmcreate, .kalloc,
    .mappages (phystop - pgsize) 0x5000 (phystop - 2 * pgsize) (pteR ||| pteW ||| pteU)]

theorem page_table_finite_map_one_page :
    ∃ s m M, kinit smallLayout ⟨fun _ => 0, fun _ => 0, 0⟩ = .ok ((), s) ∧
      exec (Machine.step smallLayout) (Machine.start s) onePage = some m ∧ m.Implements M ∧
      (M (phystop - pgsize, 5)).elim 0 Leaf.addr = phystop - 2 * pgsize := by
  have ends : (bootRun smallLayout onePage).map (fun m => (decide (phystop - pgsize ∈ m.roots),
      match walkaddr (phystop - pgsize) 0x5000 m.kmem with
      | .ok (pa, _) => pa
      | .error _ => 0)) = some (true, phystop - 2 * pgsize) := by decide +kernel
  obtain ⟨m, ended, result⟩ := Option.map_eq_some_iff.mp ends
  obtain ⟨s, booted, run⟩ := bootRun_some ended
  obtain ⟨M, implements, _⟩ := page_table_finite_map smallLayout _ _ s booted onePage m run
  simp only [Prod.mk.injEq, decide_eq_true_eq] at result
  obtain ⟨alive, found⟩ := result
  rw [implements.walkaddr _ alive 0x5000 (by decide)] at found
  exact ⟨s, m, M, booted, run, implements, found⟩

end EnhancedXv6.Memory
