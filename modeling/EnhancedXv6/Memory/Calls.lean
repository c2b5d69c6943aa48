import EnhancedXv6.Memory.Machine

namespace EnhancedXv6.Memory

open Foundation Function List Books

variable {layout : Layout} {m m' : Machine} {node node' : Nodes} {books books' : Books}
  {root va pa perm v : Nat} {leaf : Leaf} {sz oldsz newsz : Nat}

structure Machine.Shows (layout : Layout) (m : Machine) (node : Nodes) (books : Books) : Prop where
  tables : Tables layout m.kmem m.roots.toFinset node books
  paid : books.debt = 0
  held : books.held = (m.frames : Multiset Nat)
  special : ∀ {r v leaf}, books.leaf (r, v) = some leaf → userPages ≤ v →
    leaf.flags.testBit 8 = false
  nodup : m.roots.Nodup

/-- What a call that has given a result does to the mapped pages. -/
def Call.Effect (result : Int) (M M' : Nat × Nat → Option Leaf) : Call → Prop
  | .kalloc | .kfree _ | .uvmcreate | .fill _ _ _ | .write _ _ _ => M' = M
  | .mappages root va pa perm =>
    result = -1 ∧ M' = M ∨
      result = 0 ∧ M (root, va / pgsize) = none ∧ ∃ leaf, leaf.pa = pa ∧
        leaf.flags = perm ||| pteV ∧ M' = Function.update M (root, va / pgsize) (some leaf)
  | .uvmunmap root va npages _ =>
    M' = fun name =>
      if name.1 = root ∧ va / pgsize ≤ name.2 ∧ name.2 < va / pgsize + npages then none else M name
  | .uvmclear root va =>
    M' = Function.update M (root, va / pgsize) ((M (root, va / pgsize)).map Leaf.clear)
  | .removecopy root va _ =>
    result = 1 ∧ M' = M ∨
      result = 0 ∧ ∃ old new, M (root, va / pgsize) = some old ∧ old.flags.testBit 8 = true ∧
        new.flags = Nat.ldiff old.flags pteCow ||| pteW ∧
        M' = Function.update M (root, va / pgsize) (some new)
  | .procPagetable _ | .uvmalloc _ _ _ _ | .uvmdealloc _ _ _ | .uvmcopy _ _ _
  | .procFreepagetable _ _ => True

def Machine.Reaches (layout : Layout) (m : Machine) (books : Books) (call : Call) : Prop :=
  ∃ node' books', m.Shows layout node' books' ∧ call.Effect m.result books.leaf books'.leaf

theorem Machine.run_meets {α : Type} {program : KM α} {next : α → Kmem → Machine}
    {post : α → Kmem → Prop} (meets : Meets program m.kmem post fun _ => True)
    (taken : m.run program next = some m') : ∃ a s, post a s ∧ m' = next a s := by
  unfold run at taken
  split at taken
  · rename_i a s ended
    cases taken
    exact ⟨a, s, meets.result ended, rfl⟩
  · cases taken

section

variable (shows : m.Shows layout node books)

include shows

theorem Machine.Shows.member (owned : pa ∈ m.frames) : pa ∈ books.held := by
  rw [shows.held]
  exact Multiset.mem_coe.mpr owned

theorem Machine.Shows.kalloc (taken : m.perform layout .kalloc = some m') :
    m'.Reaches layout books .kalloc := by
  obtain ⟨pa, s, outcome, rfl⟩ := run_meets (kalloc_meets shows.tables.shows shows.paid) taken
  rcases outcome with ⟨rfl, rfl⟩ | ⟨unused, after⟩
  · exact ⟨node, books, ⟨shows.tables, shows.paid, shows.held, shows.special, shows.nodup⟩, rfl⟩
  · refine ⟨node, books.hold pa fun _ => 5, ⟨shows.tables.hold after, shows.paid, ?_, shows.special,
      shows.nodup⟩, rfl⟩
    dsimp only
    rw [if_neg unused.page.ne_zero, ← Multiset.cons_coe, ← shows.held]
    rfl

theorem Machine.Shows.kfree (owned : pa ∈ m.frames)
    (taken : m.perform layout (.kfree pa) = some m') : m'.Reaches layout books (.kfree pa) := by
  have has : books.held = pa ::ₘ (m.frames.erase pa : Multiset Nat) := by
    rw [shows.held, Multiset.cons_coe]
    exact Multiset.coe_eq_coe.mpr (perm_cons_erase owned)
  obtain ⟨_, s, after, rfl⟩ := run_meets (kfree_held shows.tables.shows shows.paid has) taken
  exact ⟨node, _,
    ⟨⟨after, shows.tables.rooted, shows.tables.live⟩, shows.paid, rfl, shows.special, shows.nodup⟩,
    rfl⟩

theorem Machine.Shows.uvmcreate (taken : m.perform layout .uvmcreate = some m') :
    m'.Reaches layout books .uvmcreate := by
  obtain ⟨pt, s, outcome, rfl⟩ := run_meets (uvmcreate_meets shows.tables shows.paid) taken
  rcases outcome with ⟨rfl, rfl, _⟩ | ⟨_, unused, _, node', _, after⟩
  · exact ⟨node, books, ⟨shows.tables, shows.paid, shows.held, shows.special, shows.nodup⟩, rfl⟩
  · have new : pt ∉ m.roots := fun old => shows.tables.not_live unused.plain (mem_toFinset.mpr old)
    refine ⟨node', books, ⟨?_, shows.paid, shows.held, shows.special, ?_⟩, rfl⟩
    · dsimp only
      rw [if_neg unused.page.ne_zero, toFinset_cons]
      exact after
    · dsimp only
      rw [if_neg unused.page.ne_zero]
      exact nodup_cons.mpr ⟨new, shows.nodup⟩

theorem Machine.Shows.procPagetable {tf : Nat} (owned : tf ∈ m.frames)
    (taken : m.perform layout (.procPagetable tf) = some m') :
    m'.Reaches layout books (.procPagetable tf) := by
  have page := shows.tables.shows.accounts.holder (shows.member owned)
  obtain ⟨pt, s, outcome, rfl⟩ :=
    run_meets (procPagetable_meets shows.tables shows.paid page) taken
  rcases outcome with ⟨rfl, _, after⟩ | ⟨_, unused, empty, node', _, after⟩
  · exact ⟨node, books, ⟨after, shows.paid, shows.held, shows.special, shows.nodup⟩, trivial⟩
  · have new : pt ∉ m.roots := fun old => shows.tables.not_live unused.plain (mem_toFinset.mpr old)
    refine ⟨node', books.launch pt layout.trampolineLeaf (trapframeLeaf tf page.1 page.physical),
      ⟨?_, shows.paid, shows.held, ?_, ?_⟩, trivial⟩
    · dsimp only
      rw [if_neg unused.page.ne_zero, toFinset_cons]
      exact after
    · intro r v leaf mapped high
      simp only [launch] at mapped
      by_cases isTrapframe : (r, v) = (pt, userPages)
      · rw [isTrapframe, update_self] at mapped
        cases mapped
        have flags : (pteR ||| pteW ||| pteV).testBit 8 = false := by decide
        exact flags
      · rw [update_of_ne isTrapframe] at mapped
        by_cases isTrampoline : (r, v) = (pt, userPages + 1)
        · rw [isTrampoline, update_self] at mapped
          cases mapped
          have flags : (pteR ||| pteX ||| pteV).testBit 8 = false := by decide
          exact flags
        · rw [update_of_ne isTrampoline] at mapped
          exact shows.special mapped high
    · dsimp only
      rw [if_neg unused.page.ne_zero]
      exact nodup_cons.mpr ⟨new, shows.nodup⟩

theorem Machine.Shows.special_update {r w : Nat} {x : Option Leaf}
    (fine : ∀ leaf, x = some leaf → userPages ≤ v → leaf.flags.testBit 8 = false)
    (mapped : update books.leaf (root, v) x (r, w) = some leaf) (high : userPages ≤ w) :
    leaf.flags.testBit 8 = false := by
  by_cases here : (r, w) = (root, v)
  · rw [here, update_self] at mapped
    obtain ⟨rfl, rfl⟩ : r = root ∧ w = v := by simpa using here
    exact fine leaf mapped high
  · rw [update_of_ne here] at mapped
    exact shows.special mapped high

theorem Machine.Shows.special_unmap {r w n : Nat}
    (mapped : (books.unmap root v n).leaf (r, w) = some leaf) (high : userPages ≤ w) :
    leaf.flags.testBit 8 = false := by
  unfold unmap at mapped
  dsimp only at mapped
  split at mapped
  · cases mapped
  · exact shows.special mapped high

end

theorem trapframe_pages : va < trapframe ↔ va / pgsize < userPages := by
  rw [trapframe_eq, Nat.div_lt_iff_lt_mul (by decide)]

theorem flag_valid {k : Nat} (positive : 0 < k) : (perm ||| pteV).testBit k = perm.testBit k := by
  rw [Nat.testBit_or, pteV, Nat.one_shiftLeft, Nat.testBit_two_pow]
  simp [show ¬ 0 = k by omega]

section

variable (shows : m.Shows layout node books)

include shows

theorem Machine.Shows.mappages (allowed : m.Allows (.mappages root va pa perm))
    (taken : m.perform layout (.mappages root va pa perm) = some m') :
    m'.Reaches layout books (.mappages root va pa perm) := by
  obtain ⟨alive, aligned, low, small, readable, below, above⟩ := allowed
  have frame : pa % pgsize = 0 ∧ pa < 2 ^ 56 := by
    by_cases user : va < trapframe
    · have page := shows.tables.shows.accounts.holder (shows.member (below user))
      exact ⟨page.1, page.physical⟩
    · have special := above (by omega)
      exact ⟨special.1, special.2.1⟩
  let leaf : Leaf :=
    { pa := pa
      flags := perm ||| pteV
      aligned := frame.1
      physical := frame.2
      small := Nat.or_lt_two_pow small (by decide)
      valid := by simp [pteV]
      readable := by rw [flag_valid (by omega), readable] }
  have use (user : va / pgsize < userPages) : leaf.pa ∈ books.held ∨ 0 < books.users leaf.pa :=
    .inl (shows.member (below (trapframe_pages.mpr user)))
  obtain ⟨result, s, outcome, rfl⟩ := run_meets
    (mappages_meets shows.tables shows.paid (mem_toFinset.mpr alive) aligned low leaf rfl use
      fun _ => trivial) taken
  rcases outcome with ⟨rfl, _, node', _, after⟩ | ⟨rfl, _, blank, node', _, after⟩
  · exact ⟨node', books, ⟨after, shows.paid, shows.held, shows.special, shows.nodup⟩,
      .inl ⟨rfl, rfl⟩⟩
  · have special {r v : Nat} {leaf' : Leaf}
        (mapped : update books.leaf (root, va / pgsize) (some leaf) (r, v) = some leaf')
        (high : userPages ≤ v) : leaf'.flags.testBit 8 = false := by
      refine shows.special_update (fun x same high => ?_) mapped high
      cases same
      exact (flag_valid (by omega)).trans (above (by rw [← Nat.not_lt, trapframe_pages]; omega)).2.2
    by_cases user : va < trapframe
    · have has : books.held = pa ::ₘ (m.frames.erase pa : Multiset Nat) := by
        rw [shows.held, Multiset.cons_coe]
        exact Multiset.coe_eq_coe.mpr (perm_cons_erase (below user))
      have settled := after.shows.settle has
        (show _ = pa ::ₘ 0 by rw [share_user (trapframe_pages.mp user)]; rfl)
      refine ⟨node', _, ⟨⟨settled, after.rooted, after.live⟩, rfl, ?_, special, shows.nodup⟩,
        .inr ⟨rfl, blank, leaf, rfl, rfl, rfl⟩⟩
      dsimp only
      rw [if_pos ⟨rfl, user⟩]
    · rw [share_special (by rw [← trapframe_pages]; omega)] at after
      refine ⟨node', _, ⟨after, rfl, ?_, special, shows.nodup⟩,
        .inr ⟨rfl, blank, leaf, rfl, rfl, rfl⟩⟩
      dsimp only
      rw [if_neg fun both => user both.2]
      exact shows.held

theorem Machine.Shows.uvmunmap {npages : Nat} {doFree : Bool}
    (allowed : m.Allows (.uvmunmap root va npages doFree))
    (taken : m.perform layout (.uvmunmap root va npages doFree) = some m') :
    m'.Reaches layout books (.uvmunmap root va npages doFree) := by
  obtain ⟨alive, high, above⟩ := allowed
  by_cases aligned : va % pgsize = 0
  · have start : va = va / pgsize * pgsize := by
      unfold pgsize at aligned ⊢
      omega
    have top : (va / pgsize + npages) * pgsize ≤ maxva := by
      rw [add_mul, ← start]
      refine high.trans ?_
      split
      · exact trapframe_eq ▸ userPages_mul
      · exact le_rfl
    have counted (w : Nat) (low : va / pgsize ≤ w) (below : w < va / pgsize + npages) :
        doFree = true ↔ w < userPages := by
      cases doFree with
      | true =>
        have inside : (va / pgsize + npages) * pgsize ≤ userPages * pgsize := by
          rw [add_mul, ← start]
          exact high
        have := Nat.le_of_mul_le_mul_right inside (by decide)
        simp only [true_iff]
        omega
      | false =>
        have beyond := above rfl
        have pages : va < trapframe ↔ va / pgsize < userPages := trapframe_pages
        simp only [Bool.false_eq_true, false_iff]
        omega
    have meets :
        Meets (Memory.uvmunmap root (va / pgsize * pgsize) npages doFree) m.kmem _ fun _ => True :=
      uvmunmap_meets shows.tables shows.paid (mem_toFinset.mpr alive) top counted fun _ _ => trivial
    rw [← start] at meets
    obtain ⟨_, s, ⟨_, after⟩, rfl⟩ := run_meets meets taken
    refine ⟨node, _, ⟨after, shows.paid, shows.held, ?_, shows.nodup⟩, rfl⟩
    exact shows.special_unmap
  · have panics :
        Meets (Memory.uvmunmap root va npages doFree) m.kmem (fun _ _ => False) fun _ => True := by
      rw [Memory.uvmunmap, if_pos aligned, meets_throw]
      trivial
    obtain ⟨_, _, impossible, _⟩ := run_meets panics taken
    cases impossible

theorem Machine.Shows.uvmclear (alive : root ∈ m.roots)
    (low : va < maxva) (taken : m.perform layout (.uvmclear root va) = some m') :
    m'.Reaches layout books (.uvmclear root va) := by
  obtain ⟨_, s, after, rfl⟩ := run_meets
    (uvmclear_meets shows.tables (mem_toFinset.mpr alive) low fun _ => trivial) taken
  refine ⟨node, _, ⟨after, shows.paid, shows.held, ?_, shows.nodup⟩, rfl⟩
  intro r v leaf mapped high
  refine shows.special_update (fun x cleared high => ?_) mapped high
  obtain ⟨old, here, rfl⟩ := Option.map_eq_some_iff.mp cleared
  have before := shows.special here high
  simp only [Leaf.clear, Nat.testBit_ldiff, before, Bool.false_and]

theorem Machine.Shows.shared_user (leaf : Leaf) (mapped : books.leaf (root, v) = some leaf)
    (shared : leaf.flags.testBit 8 = true) : v < userPages := by
  by_contra high
  rw [shows.special mapped (by omega)] at shared
  cases shared

theorem Machine.Shows.removecopy (alive : root ∈ m.roots)
    (taken : m.perform layout (.removecopy root va sz) = some m') :
    m'.Reaches layout books (.removecopy root va sz) := by
  obtain ⟨result, s, outcome, rfl⟩ := run_meets
    (removecopy_meets shows.tables shows.paid (mem_toFinset.mpr alive) shows.shared_user
      (fun _ _ => trivial) fun _ _ _ _ => trivial) taken
  rcases outcome with ⟨rfl, rfl, _⟩ | ⟨rfl, _, _, leaf, mem, unused, mapped, shared, after⟩
  · exact ⟨node, books, ⟨shows.tables, shows.paid, shows.held, shows.special, shows.nodup⟩,
      .inl ⟨rfl, rfl⟩⟩
  · refine ⟨node, _, ⟨after, shows.paid, shows.held, ?_, shows.nodup⟩,
      .inr ⟨rfl, leaf, _, mapped, shared, rfl, rfl⟩⟩
    intro r v leaf' here high
    refine shows.special_update (fun x _ high => ?_) here high
    have user := shows.shared_user leaf mapped shared
    omega

theorem Machine.Shows.uvmalloc {xperm : Nat} (allowed : m.Allows (.uvmalloc root oldsz newsz xperm))
    (taken : m.perform layout (.uvmalloc root oldsz newsz xperm) = some m') :
    m'.Reaches layout books (.uvmalloc root oldsz newsz xperm) := by
  obtain ⟨alive, low, room, small⟩ := allowed
  obtain ⟨result, s, outcome, rfl⟩ := run_meets
    (uvmalloc_meets small shows.paid (mem_toFinset.mpr alive) low room
      (fun _ => trivial) shows.tables) taken
  rcases outcome with
    ⟨_, _, rfl⟩ | ⟨_, _, node', _, after⟩ | ⟨_, _, high, _, node', books', _, grown, after⟩
  · exact ⟨node, books, ⟨shows.tables, shows.paid, shows.held, shows.special, shows.nodup⟩, trivial⟩
  · exact ⟨node', books, ⟨after, shows.paid, shows.held, shows.special, shows.nodup⟩, trivial⟩
  · refine ⟨node', books', ⟨after, grown.debt.trans shows.paid, grown.held.trans shows.held, ?_,
      shows.nodup⟩, trivial⟩
    intro r v leaf mapped special
    have few := pageCount_le high
    rw [grown.others (r, v) (by dsimp only; omega)] at mapped
    exact shows.special mapped special

theorem Machine.Shows.uvmdealloc (alive : root ∈ m.roots) (low : oldsz ≤ trapframe)
    (taken : m.perform layout (.uvmdealloc root oldsz newsz) = some m') :
    m'.Reaches layout books (.uvmdealloc root oldsz newsz) := by
  obtain ⟨result, s, outcome, rfl⟩ := run_meets
    (uvmdealloc_meets shows.tables shows.paid (mem_toFinset.mpr alive) (pageCount_le low)
      fun _ _ _ => trivial) taken
  rcases outcome with ⟨_, _, rfl⟩ | ⟨_, _, _, after⟩
  · exact ⟨node, books, ⟨shows.tables, shows.paid, shows.held, shows.special, shows.nodup⟩, trivial⟩
  · refine ⟨node, _, ⟨after, shows.paid, shows.held, ?_, shows.nodup⟩, trivial⟩
    exact shows.special_unmap

theorem Machine.Shows.uvmcopy {old new : Nat} (allowed : m.Allows (.uvmcopy old new sz))
    (taken : m.perform layout (.uvmcopy old new sz) = some m') :
    m'.Reaches layout books (.uvmcopy old new sz) := by
  obtain ⟨oldAlive, newAlive, apart, low⟩ := allowed
  obtain ⟨result, s, outcome, rfl⟩ := run_meets
    (uvmcopy_meets shows.tables shows.paid (mem_toFinset.mpr oldAlive)
      (mem_toFinset.mpr newAlive) apart low
      (fun _ _ => trivial) fun _ => trivial) taken
  have few := pageCount_le low
  rcases outcome with ⟨_, _, _, node', _, after⟩ | ⟨_, _, k, inside, _, node', _, after⟩
  · refine ⟨node', _, ⟨after, shows.paid, shows.held, ?_, shows.nodup⟩, trivial⟩
    intro r v leaf mapped high
    simp only [copied, cowed] at mapped
    rw [if_neg (by omega), if_neg (by omega)] at mapped
    exact shows.special mapped high
  · refine ⟨node', _, ⟨after, shows.paid, shows.held, ?_, shows.nodup⟩, trivial⟩
    intro r v leaf mapped high
    simp only [cowed] at mapped
    rw [if_neg (by omega)] at mapped
    exact shows.special mapped high

theorem Machine.Shows.procFreepagetable (alive : root ∈ m.roots) (low : sz ≤ trapframe)
    (taken : m.perform layout (.procFreepagetable root sz) = some m') :
    m'.Reaches layout books (.procFreepagetable root sz) := by
  obtain ⟨_, s, ⟨_, node', _, after⟩, rfl⟩ := run_meets
    (procFreepagetable_meets shows.tables shows.paid (mem_toFinset.mpr alive) (pageCount_le low)
      fun _ _ => trivial) taken
  refine ⟨node', books.discard root,
    ⟨?_, shows.paid, shows.held, ?_, shows.nodup.erase root⟩, trivial⟩
  · have same : (m.roots.erase root).toFinset = m.roots.toFinset.erase root := by
      ext r
      rw [mem_toFinset, Finset.mem_erase, mem_toFinset, shows.nodup.mem_erase_iff]
    dsimp only
    rw [same]
    exact after
  · intro r v leaf mapped high
    unfold Books.discard at mapped
    dsimp only at mapped
    split at mapped
    · cases mapped
    · exact shows.special mapped high

end

theorem Tables.poke {s : Kmem} {live : Finset Nat} {o : Nat} {byte : UInt8}
    (tables : Tables layout s live node books) (paid : books.debt = 0)
    (use : pa ∈ books.held ∨ 0 < books.users pa) (inside : o < pgsize) :
    Tables layout { s with mem := update s.mem (pa + o) byte } live node
      { books with data := update books.data pa fun x => update s.mem (pa + o) byte (pa + x) } := by
  obtain ⟨page, plain⟩ := tables.shows.accounts.in_use use
  refine ⟨tables.shows.rewrite page (tables.shows.accounts.used paid use) plain fun x outside => ?_,
    tables.rooted, tables.live⟩
  exact update_of_ne (by omega) _ _

theorem Machine.Shows.fill {offset : Nat} {byte : UInt8} (shows : m.Shows layout node books)
    (owned : pa ∈ m.frames) (inside : offset < pgsize)
    (taken : m.perform layout (.fill pa offset byte) = some m') :
    m'.Reaches layout books (.fill pa offset byte) := by
  cases taken
  exact ⟨node, _, ⟨shows.tables.poke shows.paid (.inl (shows.member owned)) inside,
    shows.paid, shows.held, shows.special, shows.nodup⟩, rfl⟩

theorem Machine.Shows.write {byte : UInt8} (shows : m.Shows layout node books)
    (alive : root ∈ m.roots)
    (low : va < trapframe) (taken : m.perform layout (.write root va byte) = some m') :
    m'.Reaches layout books (.write root va byte) := by
  obtain ⟨pa, s, ⟨found, rfl⟩, rfl⟩ := run_meets
    (walkaddr_meets shows.tables (mem_toFinset.mpr alive) (low.trans (by decide))) taken
  split
  · exact ⟨node, books, ⟨shows.tables, shows.paid, shows.held, shows.special, shows.nodup⟩, rfl⟩
  · rename_i real
    cases mapped : books.leaf (root, va / pgsize) with
    | none =>
      rw [mapped] at found
      exact absurd found real
    | some leaf =>
      rw [mapped, Option.elim_some, Leaf.addr] at found
      split at found
      · have users := users_pos mapped (shows.tables.shows.accounts.mapped mapped).1
          (trapframe_pages.mp low)
        rw [← found] at users
        exact ⟨node, _,
          ⟨shows.tables.poke shows.paid (.inr users) (Nat.mod_lt _ (by decide)), shows.paid,
          shows.held, shows.special, shows.nodup⟩, rfl⟩
      · exact absurd found real

theorem Machine.Shows.step {call : Call} (shows : m.Shows layout node books)
    (taken : m.step layout call = some m') : m'.Reaches layout books call := by
  unfold Machine.step at taken
  split at taken
  · rename_i allowed
    cases call with
    | kalloc => exact shows.kalloc taken
    | kfree pa => exact shows.kfree allowed taken
    | uvmcreate => exact shows.uvmcreate taken
    | procPagetable tf => exact shows.procPagetable allowed taken
    | mappages root va pa perm => exact shows.mappages allowed taken
    | uvmunmap root va npages doFree => exact shows.uvmunmap allowed taken
    | uvmclear root va => exact shows.uvmclear allowed.1 allowed.2 taken
    | removecopy root va sz => exact shows.removecopy allowed taken
    | uvmalloc root oldsz newsz xperm => exact shows.uvmalloc allowed taken
    | uvmdealloc root oldsz newsz => exact shows.uvmdealloc allowed.1 allowed.2 taken
    | uvmcopy old new sz => exact shows.uvmcopy allowed taken
    | procFreepagetable root sz => exact shows.procFreepagetable allowed.1 allowed.2 taken
    | fill pa offset byte => exact shows.fill allowed.1 allowed.2 taken
    | write root va byte => exact shows.write allowed.1 allowed.2 taken
  · cases taken

def Machine.Valid (layout : Layout) (m : Machine) : Prop :=
  ∃ node books, m.Shows layout node books

/-- After `kinit` and any calls the machine is shown by some books. -/
theorem Machine.valid_run {s : Kmem} {mem : Foundation.Memory} {counts : Nat → Int}
    {calls : List Call} (booted : kinit layout ⟨mem, counts, 0⟩ = .ok ((), s))
    (run : exec (step layout) (start s) calls = some m) : m.Valid layout := by
  have meets : Meets (kinit layout) ⟨mem, counts, 0⟩ _ fun _ => True := kinit_meets rfl
  obtain ⟨data, tables⟩ := meets.result booted
  have preserved (m : Machine) (call : Call) (m' : Machine) (valid : m.Valid layout)
      (taken : m.step layout call = some m') : m'.Valid layout := by
    obtain ⟨node, books, shows⟩ := valid
    obtain ⟨node', books', after, _⟩ := shows.step taken
    exact ⟨node', books', after⟩
  have initial : (start s).Valid layout := by
    refine ⟨_, _, tables, rfl, rfl, ?_, nodup_nil⟩
    intro r v leaf mapped
    cases mapped
  exact exec_invariant preserved initial run

end EnhancedXv6.Memory
