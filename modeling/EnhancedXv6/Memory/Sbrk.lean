import EnhancedXv6.Memory.Extent

namespace EnhancedXv6.Memory

open Foundation Option

variable {layout : Layout} {s : System} {k : Kmem} {node node' : Nodes} {books : Books}
  {live : Finset Nat} {tfs : Multiset Nat} {p r sz : Nat} {q : Proc} {n : Int}

/-- Whether there is a table page at a depth for some indices. -/
def Kmem.shape (k : Kmem) (root d i : Nat) : Bool :=
  decide (d < 3 ∧ i < 512 ^ d) && (k.tableAt root d i).isSome

/-- `sys_sbrk` has returned the old size with the memory of the process changed by `n` bytes, or -1
with nothing changed. -/
def System.Accounts (s : System) (p : Nat) (q : Proc) (n : Int) (s' : System) : Prop :=
  ∃ q', s'.procs p = some q' ∧
    ((s'.result = q.sz ∧ (q'.sz : Int) = q.sz + n ∧
        ∀ v, v < userPages →
        ((s'.kmem.frameAt q'.pagetable v).isSome ↔ v * pgsize < pgroundup q'.sz)) ∨
      (s'.result = -1 ∧ q'.sz = q.sz ∧
        (∀ v, v < userPages → s'.kmem.frameAt q'.pagetable v = s.kmem.frameAt q.pagetable v) ∧
        ∀ pa, s'.kmem.Free pa ↔ s.kmem.Free pa))

/-- The new size is not negative, and the process shrinks, or there is memory for the new pages and
their table pages, or there is so little that the first table page is not reached. -/
def System.Affords (layout : Layout) (s : System) (q : Proc) (n : Int) : Prop :=
  0 ≤ q.sz + n ∧
    (n ≤ 0 ∨
      demand (s.kmem.shape q.pagetable) (pageCount q.sz)
        (pagesBelow (pgroundup q.sz) (resized q.sz n)) ≤
        s.kmem.spare layout ∨
      s.kmem.spare layout ≤
        prepared (s.kmem.shape q.pagetable) (pageCount q.sz)
          (pagesBelow (pgroundup q.sz) (resized q.sz n)) + 1)

theorem Tables.shape_eq (tables : Tables layout k live node books) (root : r ∈ live) :
    k.shape r = node.shape r := by
  funext d i
  unfold Kmem.shape Nodes.shape
  by_cases inside : d < 3 ∧ i < 512 ^ d
  · rw [decide_eq_true inside, Bool.true_and, tables.tableAt_eq root d inside.1 inside.2]
  · rw [decide_eq_false inside, Bool.false_and]
    cases there : node (r, d, i) with
    | none => rfl
    | some t => exact absurd (tables.shows.accounts.named there).2 inside

theorem resized_iff (low : sz ≤ trapframe) (word : -2 ^ 31 ≤ n ∧ n < 2 ^ 31) :
    (resized sz n : Int) = sz + n ↔ 0 ≤ sz + n := by
  rw [trapframe_eq, userPages_eq] at low
  unfold resized addInt pgsize at *
  split <;> omega

theorem Nodes.Extends.taken {u : Kmem} (grows : Nodes.Extends r node node') (new : node' ≠ node)
    (before : Sound layout k live node books) (after : Sound layout u live node' books) :
    ∃ pa, k.Free pa ∧ ¬ u.Free pa := by
  have accounts := after.tables.shows.accounts
  obtain ⟨name, differs⟩ := Function.ne_iff.mp new
  cases old : node name with
  | some t => exact absurd ((grows.kept old).trans old.symm) differs
  | none =>
    rw [old] at differs
    obtain ⟨t, there⟩ := ne_none_iff_exists'.mp differs
    obtain ⟨page, _, unmapped, unheld, _⟩ := accounts.table there
    refine ⟨t, before.tables.shows.accounts.listed_iff.mpr ⟨page, ?_⟩, fun free => ?_⟩
    · refine (before.tables.shows.accounts.free_iff before.paid page).mpr ⟨?_, unmapped, unheld⟩
      by_contra positive
      obtain ⟨name', there'⟩ := exists_of_tables positive
      cases accounts.place there (grows.kept there')
      cases old.symm.trans there'
    · have counted := accounts.table_count there
      have unused := (accounts.listed_iff.mp free).2
      omega

theorem System.Shows.sbrk_steps (shows : s.Shows layout live tfs node books)
    (here : s.procs p = some q)
    (word : -2 ^ 31 ≤ n ∧ n < 2 ^ 31) : ∃ s', s.step layout (.sbrk p n) = some s' ∧
      ((s'.result = -1 ∧ s'.procs p = some q ∧ 0 < n ∧
          ∃ node', Refused layout q.pagetable (pageCount q.sz)
          (pagesBelow (pgroundup q.sz) (resized q.sz n)) s.kmem node node' ∧
          Sound layout s'.kmem live node' books) ∨
        (s'.result = q.sz ∧ s'.procs p = some { q with sz := resized q.sz n } ∧
          (0 < n → demand (node.shape q.pagetable) (pageCount q.sz)
            (pagesBelow (pgroundup q.sz) (resized q.sz n)) ≤ s.kmem.spare layout) ∧
          ∃ node' books', Sound layout s'.kmem live node' books' ∧
          books'.Fits q.pagetable (resized q.sz n))) := by
  obtain ⟨alive, _, fits⟩ := shows.proc here
  have grows : Meets (q.growproc n) s.kmem _ fun _ => False :=
    growproc_sound shows.sound alive fits word.2
  obtain ⟨grown, k, ended, outcome⟩ := grows.ends
  rcases outcome with
    ⟨rfl, positive, node', refused, after⟩ | ⟨rfl, enough, node', books', after, fits', _⟩
  · have done : s.perform layout (.sbrk p n) = .ok (some { s with kmem := k, result := -1 }) := by
      simp only [perform, withProc, here, run, ended, Except.map]
    exact ⟨_, step_of word done, .inl ⟨rfl, here, positive, node', refused, after⟩⟩
  · have done :
      s.perform layout (.sbrk p n) = .ok (some ({ s with kmem := k, result := q.sz }.setProc p
        (some { q with sz := resized q.sz n }))) := by
      simp only [perform, withProc, here, run, ended, Except.map]
    exact ⟨_, step_of word done, .inr ⟨rfl, setProc_self, enough, node', books', after, fits'⟩⟩

/-- In every run, `sys_sbrk` keeps its accounts exactly if the new size is not negative and a lack
of memory is found before a table page is taken, or not at all. -/
theorem sbrk_accounts_iff (layout : Layout) (mem : Foundation.Memory) (counts : Nat → Int)
    (u : Kmem) (booted : kinit layout ⟨mem, counts, 0⟩ = .ok ((), u)) (events : List Event)
    (s : System) (run : exec (System.step layout) (System.start u) events = some s) (p : Nat)
    (q : Proc) (here : s.procs p = some q) (n : Int) (word : -2 ^ 31 ≤ n ∧ n < 2 ^ 31) :
    (∃ s', s.step layout (.sbrk p n) = some s' ∧ s.Accounts p q n s') ↔ s.Affords layout q n := by
  obtain ⟨live, tfs, node, books, shows⟩ := System.valid_run booted run
  obtain ⟨alive, _, fits⟩ := shows.proc here
  obtain ⟨s', taken, outcome⟩ := shows.sbrk_steps here word
  have frames {k : Kmem} {node : Nodes} {books : Books}
      (sound : Sound layout k live node books) (v : Nat)
      (user : v < userPages) :
        k.frameAt q.pagetable v = (books.leaf (q.pagetable, v)).map Leaf.pa := by
    rw [userPages_eq] at user
    exact sound.tables.frameAt_eq alive (by omega)
  unfold System.Affords
  rw [shows.sound.tables.shape_eq alive]
  rcases outcome with ⟨failed, same, positive, node', refused, after⟩ |
    ⟨returned, resizes, enough, node', books', after, fits'⟩
  · have short := refused.short
    constructor
    · rintro ⟨t, also, q', there, accounts⟩
      cases taken.symm.trans also
      rcases accounts with ⟨success, _⟩ | ⟨_, _, _, free⟩
      · rw [failed] at success
        omega
      · refine ⟨by omega, .inr (.inr (refused.idle.mp ?_))⟩
        by_contra new
        obtain ⟨pa, before, gone⟩ := refused.grows.taken new shows.sound after
        exact gone ((free pa).mpr before)
    · rintro ⟨_, affords⟩
      have little := (affords.resolve_left (by omega)).resolve_left (by omega)
      cases refused.idle.mpr little
      refine ⟨s', taken, q, same, .inr ⟨failed, rfl, fun v user => ?_, fun pa => ?_⟩⟩
      · rw [frames after v user, frames shows.sound v user]
      · rw [after.tables.shows.accounts.listed_iff, shows.sound.tables.shows.accounts.listed_iff]
        refine and_congr_right fun page => ?_
        rw [shows.sound.tables.shows.accounts.same_count shows.sound.paid
          after.tables.shows.accounts after.paid page rfl rfl]
  · have exact_iff := resized_iff (n := n) fits.1 word
    constructor
    · rintro ⟨t, also, q', there, accounts⟩
      cases taken.symm.trans also
      cases resizes.symm.trans there
      rcases accounts with ⟨_, size, _⟩ | ⟨failed, _⟩
      · refine ⟨exact_iff.mp size, ?_⟩
        by_cases positive : 0 < n
        · exact .inr (.inl (enough positive))
        · exact .inl (by omega)
      · rw [returned] at failed
        omega
    · rintro ⟨natural, _⟩
      refine ⟨s', taken, _, resizes, .inl ⟨returned, exact_iff.mpr natural, fun v user => ?_⟩⟩
      rw [frames after v user, isSome_map, isSome_iff_exists, fits'.2 v, ← pageCount_mul,
        Nat.mul_lt_mul_right (by decide)]
      dsimp only
      omega

theorem sbrk_overdrawn : ∃ u s s' q, kinit smallLayout ⟨fun _ => 0, fun _ => 0, 0⟩ = .ok ((), u) ∧
      exec (System.step smallLayout) (System.start u) [.userinit 0 []] = some s ∧
      s.procs 0 = some q ∧
      q.sz = 4096 ∧ s.step smallLayout (.sbrk 0 (-5000)) = some s' ∧ s'.result = 4096 ∧
      (s'.procs 0).map Proc.sz = some 4096 ∧ ¬ s.Accounts 0 q (-5000) s' := by
  have computed : ((bootSystem smallLayout [.userinit 0 []]).bind fun s => (s.procs 0).bind fun q =>
      (s.step smallLayout (.sbrk 0 (-5000))).map
        fun s' => (q.sz, s'.result, (s'.procs 0).map Proc.sz)) =
      some (4096, 4096, some 4096) := by decide +kernel
  obtain ⟨s, ended, rest⟩ := bind_eq_some_iff.mp computed
  obtain ⟨q, here, rest⟩ := bind_eq_some_iff.mp rest
  obtain ⟨s', taken, facts⟩ := map_eq_some_iff.mp rest
  simp only [Prod.mk.injEq] at facts
  obtain ⟨size, result, same⟩ := facts
  obtain ⟨u, booted, run⟩ := bootSystem_some ended
  refine ⟨u, s, s', q, booted, run, here, size, taken, result, same, ?_⟩
  rintro ⟨q', there, ⟨_, resized, _⟩ | ⟨failed, _⟩⟩
  · rw [size] at resized
    omega
  · rw [result] at failed
    omega

/-- The child of a process without memory grows by a byte, with two pages left. -/
def tightRun : List Event :=
  [.userinit 0 [], .sbrk 0 (-4096), .fork 0 1, .kalloc, .kalloc]

/-- `sys_sbrk` fails, and a page that was free is a table page now. -/
theorem sbrk_leaks : ∃ u s s' q pa, kinit smallLayout ⟨fun _ => 0, fun _ => 0, 0⟩ = .ok ((), u) ∧
      exec (System.step smallLayout) (System.start u) tightRun = some s ∧ s.procs 1 = some q ∧
      s.step smallLayout (.sbrk 1 1) = some s' ∧ s'.result = -1 ∧ s.kmem.Free pa ∧
      ¬ s'.kmem.Free pa := by
  have computed : ((bootSystem smallLayout tightRun).bind fun s => (s.procs 1).bind fun q =>
      (s.step smallLayout (.sbrk 1 1)).map fun s' =>
        let first := s.kmem.freelist
        let second := load s.kmem.mem first 8
        (decide (first ≠ 0 ∧ second ≠ 0 ∧ second ≠ first), load s.kmem.mem second 8, s'.result,
          decide (s'.kmem.freelist = first), load s'.kmem.mem first 8)) =
      some (true, 0, -1, true, 0) := by decide +kernel
  obtain ⟨s, ended, rest⟩ := bind_eq_some_iff.mp computed
  obtain ⟨q, here, rest⟩ := bind_eq_some_iff.mp rest
  obtain ⟨s', taken, facts⟩ := map_eq_some_iff.mp rest
  simp only [Prod.mk.injEq, decide_eq_true_eq] at facts
  obtain ⟨⟨first, second, other⟩, last, result, same, alone⟩ := facts
  obtain ⟨u, booted, run⟩ := bootSystem_some ended
  refine ⟨u, s, s', q, load s.kmem.mem s.kmem.freelist 8, booted, run, here, taken, result,
    ⟨[_, _], ⟨rfl, first, rfl, second, last⟩, by simp⟩, ?_⟩
  rintro ⟨pages, chain, member⟩
  have only : Chain (load s'.kmem.mem · 8) s'.kmem.freelist [s.kmem.freelist] :=
    ⟨same, first, alone⟩
  rw [chain.unique only, List.mem_singleton] at member
  exact other member

/-- What `sys_sbrk` reports is not what it has done. -/
theorem sbrk_unaccounted :
    (∃ u s s' q, kinit smallLayout ⟨fun _ => 0, fun _ => 0, 0⟩ = .ok ((), u) ∧
      exec (System.step smallLayout) (System.start u) [.userinit 0 []] = some s ∧
      s.procs 0 = some q ∧
      q.sz = 4096 ∧ s.step smallLayout (.sbrk 0 (-5000)) = some s' ∧ s'.result = 4096 ∧
      (s'.procs 0).map Proc.sz = some 4096 ∧ ¬ s.Accounts 0 q (-5000) s') ∧
    ∃ u s s' q, kinit smallLayout ⟨fun _ => 0, fun _ => 0, 0⟩ = .ok ((), u) ∧
      exec (System.step smallLayout) (System.start u) tightRun = some s ∧ s.procs 1 = some q ∧
      s.step smallLayout (.sbrk 1 1) = some s' ∧ s'.result = -1 ∧ ¬ s.Accounts 1 q 1 s' := by
  refine ⟨sbrk_overdrawn, ?_⟩
  obtain ⟨u, s, s', q, pa, booted, run, here, taken, result, free, used⟩ := sbrk_leaks
  refine ⟨u, s, s', q, booted, run, here, taken, result, ?_⟩
  rintro ⟨q', there, ⟨returned, _⟩ | ⟨_, _, _, same⟩⟩
  · rw [result] at returned
    omega
  · exact used ((same pa).mpr free)

/-- The first process ends at a page boundary and grows by a byte, for which one page is needed. -/
theorem sbrk_accounts_boundary :
    ∃ u s s' q, kinit smallLayout ⟨fun _ => 0, fun _ => 0, 0⟩ = .ok ((), u) ∧
      exec (System.step smallLayout) (System.start u) [.userinit 0 []] = some s ∧
      s.procs 0 = some q ∧
      q.sz = pgsize ∧ s.step smallLayout (.sbrk 0 1) = some s' ∧ s'.result = pgsize ∧
      s.Accounts 0 q 1 s' := by
  have computed : ((bootSystem smallLayout [.userinit 0 []]).bind fun s => (s.procs 0).bind fun q =>
      (s.step smallLayout (.sbrk 0 1)).map fun s' => (q.sz, s'.result,
        demand (s.kmem.shape q.pagetable) (pageCount q.sz)
        (pagesBelow (pgroundup q.sz) (resized q.sz 1)),
        s.kmem.numpUsing (smallLayout.kernelEnd / pgsize))) = some (4096, 4096, 1, 0) := by
    decide +kernel
  obtain ⟨s, ended, rest⟩ := bind_eq_some_iff.mp computed
  obtain ⟨q, here, rest⟩ := bind_eq_some_iff.mp rest
  obtain ⟨s', taken, facts⟩ := map_eq_some_iff.mp rest
  simp only [Prod.mk.injEq] at facts
  obtain ⟨size, result, needs, unused⟩ := facts
  obtain ⟨u, booted, run⟩ := bootSystem_some ended
  have enough : 1 ≤ s.kmem.spare smallLayout :=
    Finset.card_pos.mpr
      ⟨smallLayout.kernelEnd, Finset.mem_filter.mpr ⟨Layout.mem_pages.mpr (by decide), unused⟩⟩
  obtain ⟨t, also, accounts⟩ :=
    (sbrk_accounts_iff smallLayout _ _ u booted _ s run 0 q here 1 (by decide)).mpr
    ⟨by omega, .inr (.inl (needs ▸ enough))⟩
  cases taken.symm.trans also
  exact ⟨u, s, s', q, booted, run, here, size, taken, result, accounts⟩

end EnhancedXv6.Memory
