import EnhancedXv6.Memory.Isolation

namespace EnhancedXv6.Memory

open Foundation Function Option Multiset Books

variable {layout : Layout} {s : System} {k : Kmem} {live : Finset Nat} {tfs : Multiset Nat}
  {node : Nodes} {books : Books} {p va sp : Nat} {q : Proc}

/-- A process has a private copy of one page that it shared, and nothing else has changed. -/
structure System.Unshared (s : System) (p : Nat) (q : Proc) (va : Nat) (k : Kmem) : Prop where
  shared : s.kmem.pteOf q.pagetable va &&& pteV ≠ 0 ∧ s.kmem.pteOf q.pagetable va &&& pteCow ≠ 0
  flags : pteFlags (k.pteOf q.pagetable va) =
    Nat.ldiff (pteFlags (s.kmem.pteOf q.pagetable va)) pteCow ||| pteW
  sole : k.numpUsing (pte2pa (k.pteOf q.pagetable va) / pgsize) = 1
  content : ∀ o, o < pgsize →
    k.mem (pte2pa (k.pteOf q.pagetable va) + o) =
      s.kmem.mem (pte2pa (s.kmem.pteOf q.pagetable va) + o)
  entries : ∀ p' q' a, s.procs p' = some q' → p' ≠ p ∨ a / pgsize ≠ va / pgsize →
    k.pteOf q'.pagetable a = s.kmem.pteOf q'.pagetable a
  views : ∀ p' q' a, s.procs p' = some q' →
    (k.userAddr q'.pagetable a).map k.mem = (s.kmem.userAddr q'.pagetable a).map s.kmem.mem

/-- `removecopy` ends a store fault: the page is copied, or the process is killed and nothing has
changed. -/
def System.Handles (s : System) (p : Nat) (q : Proc) (va sp : Nat) : Prop :=
  ∃ result k, removecopy q.pagetable va (pgrounddown sp) s.kmem = .ok (result, k) ∧
    (result = 1 ∧ k = s.kmem ∨ result = 0 ∧ s.Unshared p q va k)

/-- An address below `MAXVA` has a last-level table, and there is a free page if its page is shared.
-/
def System.Faultable (s : System) (q : Proc) (va : Nat) : Prop :=
  va < maxva → (s.kmem.tableAt q.pagetable 2 (va / pgsize / 512)).isSome ∧
    (s.kmem.pteOf q.pagetable va &&& pteCow ≠ 0 → s.kmem.freelist ≠ 0)

section Copy

variable {leaf leaf' : Leaf}

theorem Books.view_unshare (mapped : books.leaf (r, v) = some leaf)
    (flags : leaf'.flags = Nat.ldiff leaf.flags pteCow ||| pteW)
    (fresh : ∀ r' a x, books.reach r' a = some x → x.pa ≠ leaf'.pa) (r' a : Nat) :
    (books.unshare r v leaf leaf').view r' a = books.view r' a := by
  unfold view
  by_cases same : (r', a / pgsize) = (r, v)
  · have now : (books.unshare r v leaf leaf').leaf (r', a / pgsize) = some leaf' := by
      rw [same]
      exact update_self _ _ _
    have before : books.leaf (r', a / pgsize) = some leaf := same ▸ mapped
    have user : leaf'.flags.testBit 4 = leaf.flags.testBit 4 := by
      rw [flags, testBit_own]
      simp
    unfold reach
    rw [now, before]
    split
    · rw [filter_some, filter_some, user]
      split
      · rw [map_some, map_some, some_inj]
        exact congrFun (update_self leaf'.pa (books.data leaf.pa) books.data) _
      · rfl
    · rfl
  · have kept : (books.unshare r v leaf leaf').reach r' a = books.reach r' a :=
      reach_congr (update_of_ne same _ _)
    rw [kept]
    cases seen : books.reach r' a with
    | none => rfl
    | some x =>
      rw [map_some, map_some, some_inj]
      exact congrFun (update_of_ne (fresh r' a x seen) _ _) _

theorem System.Shows.unshared {mem : Nat} (shows : s.Shows layout live tfs node books)
    (here : s.procs p = some q) (low : va < maxva)
    (mapped : books.leaf (q.pagetable, va / pgsize) = some leaf)
    (shared : leaf.flags.testBit 8 = true) (user : va / pgsize < userPages)
    (unused : Unused layout node books mem)
    (after : Tables layout k live node (books.unshare q.pagetable (va / pgsize) leaf
      (leaf.own mem unused.page.1 unused.page.physical))) : s.Unshared p q va k := by
  have sound := shows.sound
  have alive := (shows.proc here).1
  have root := (sound.tables.shows.accounts.mapped mapped).1
  have unmapped (r' w : Nat) (x : Leaf) (there : books.leaf (r', w) = some x)
      (below : w < userPages) : x.pa ≠ mem :=
    sound.tables.unmapped unused.unmapped there below
  have sound' : Sound layout k live node _ :=
    ⟨after, sound.paid, unshare_good sound.good user unused.unheld unmapped⟩
  have before : s.kmem.pteOf q.pagetable va = leaf.pte := by
    rw [sound.tables.pteOf_eq alive, if_pos low, mapped, elim_some]
  have now : k.pteOf q.pagetable va = (leaf.own mem unused.page.1 unused.page.physical).pte := by
    rw [after.pteOf_eq alive, if_pos low]
    unfold unshare
    dsimp only
    rw [update_self, elim_some]
  have sole : k.numpUsing (mem / pgsize) = 1 := by
    have count := after.shows.accounts.count unused.page
    have users :=
      books.users_setLeaf (va / pgsize)
        (some (leaf.own mem unused.page.1 unused.page.physical)) mem root
    rw [mapped, share_user user, share_user user, unused.unmapped, count_singleton,
      count_singleton, if_neg (unmapped _ _ _ mapped user).symm,
      if_pos (show mem = (leaf.own mem unused.page.1 unused.page.physical).pa from rfl)] at users
    have same :
        (books.unshare q.pagetable (va / pgsize) leaf
          (leaf.own mem unused.page.1 unused.page.physical)).users
        mem = 1 := users
    rw [same, unused.plain] at count
    unfold unshare at count
    dsimp only at count
    rw [sound.paid, count_zero, count_eq_zero_of_notMem unused.unheld] at count
    omega
  constructor
  · rw [before]
    exact ⟨leaf.pte_valid, (leaf.pte_test (by omega)).mpr shared⟩
  · rw [before, now, Leaf.pte_flags, Leaf.pte_flags]
    rfl
  · rw [now, Leaf.pte_pa]
    exact sole
  · intro o inside
    have used := users_pos mapped root user
    rw [before, now, Leaf.pte_pa, Leaf.pte_pa]
    calc k.mem (mem + o)
        =
          (books.unshare q.pagetable (va / pgsize) leaf
            (leaf.own mem unused.page.1 unused.page.physical)).data mem o :=
          after.shows.accounts.content unused.page (by rw [sole]; omega) unused.plain inside
      _ = books.data leaf.pa o := by
          change update books.data mem (books.data leaf.pa) mem o = _
          rw [update_self]
      _ = s.kmem.mem (leaf.pa + o) := (sound.byte (.inr used) inside).symm
  · intro p' q' a there other
    have apart : (q'.pagetable, a / pgsize) ≠ (q.pagetable, va / pgsize) := by
      intro same
      rw [Prod.mk.injEq] at same
      rcases other with other | other
      · exact other (shows.distinct there here (.inl same.1))
      · exact other same.2
    rw [after.pteOf_eq (shows.proc there).1, sound.tables.pteOf_eq (shows.proc there).1]
    unfold unshare
    dsimp only
    rw [update_of_ne apart]
  · intro p' q' a there
    rw [sound'.view_eq (shows.proc there).1, sound.view_eq (shows.proc there).1]
    refine view_unshare mapped rfl (fun r' a x seen => ?_) _ _
    exact unmapped _ _ _ (reach_some.mp seen).2.1 ((sound.good.guarded r').below seen)

end Copy

theorem System.Shows.handles_iff (shows : s.Shows layout live tfs node books)
    (here : s.procs p = some q) (word : sp < 2 ^ 64) : s.Handles p q va sp ↔ s.Faultable q va := by
  have tables := shows.sound.tables
  have alive := (shows.proc here).1
  have user (leaf : Leaf) (mapped : books.leaf (q.pagetable, va / pgsize) = some leaf)
      (shared : leaf.flags.testBit 8 = true) : va / pgsize < userPages := by
    by_contra high
    rw [(shows.sound.good.guarded q.pagetable _ _ mapped (by omega)).2] at shared
    cases shared
  have table (low : va < maxva) : s.kmem.tableAt q.pagetable 2 (va / pgsize / 512) =
      node (q.pagetable, 2, va / pgsize / 512) := by
    refine tables.tableAt_eq alive 2 (by omega) ?_
    rw [maxva_eq] at low
    unfold pgsize
    omega
  have entry {leaf : Leaf} (low : va < maxva)
      (mapped : books.leaf (q.pagetable, va / pgsize) = some leaf) :
      s.kmem.pteOf q.pagetable va = leaf.pte := by
    rw [tables.pteOf_eq alive, if_pos low, mapped, elim_some]
  have aligned : pgrounddown sp % pgsize = 0 := by
    unfold pgrounddown pgsize
    omega
  have meets :
    Meets (removecopy q.pagetable va (pgrounddown sp)) s.kmem (fun result k => s.Faultable q va ∧
      (result = 1 ∧ k = s.kmem ∨ result = 0 ∧ s.Unshared p q va k))
        fun _ => ¬ s.Faultable q va := by
    refine (removecopy_meets tables shows.sound.paid alive user ?_ ?_).mono
      (fun result u outcome => ?_) fun _ => id
    · intro low missing faultable
      have there := (faultable low).1
      rw [table low, missing] at there
      cases there
    · intro leaf mapped shared empty faultable
      have below := user leaf mapped shared
      have low : va < maxva := by
        rw [userPages_eq] at below
        rw [maxva_eq]
        unfold pgsize at below
        omega
      refine (faultable low).2 ?_ empty
      rw [entry low mapped]
      exact (leaf.pte_test (by omega)).mpr shared
    · rcases outcome with
        ⟨refused, same, plain⟩ | ⟨done, low, free, leaf, mem, unused, mapped, shared, after⟩
      · refine ⟨fun low => ?_, .inl ⟨refused, same⟩⟩
        obtain ⟨there, unshared⟩ := plain aligned ((Nat.sub_le _ _).trans_lt word) low
        rw [table low, isSome_iff_ne_none]
        refine ⟨there, fun marked => ?_⟩
        rw [tables.pteOf_eq alive, if_pos low] at marked
        cases mapped : books.leaf (q.pagetable, va / pgsize) with
        | none =>
          rw [mapped] at marked
          exact absurd (Nat.zero_and _) marked
        | some leaf =>
          rw [mapped, elim_some] at marked
          have shared : leaf.flags.testBit 8 = true := (leaf.pte_test (by omega)).mp marked
          rw [unshared leaf mapped] at shared
          cases shared
      · refine ⟨fun _ => ⟨?_, fun _ => free⟩, .inr ⟨done, ?_⟩⟩
        · obtain ⟨t, there⟩ := (tables.rooted q.pagetable).below mapped
          rw [table low, there]
          rfl
        · exact shows.unshared here low mapped shared (user leaf mapped shared) unused after
  constructor
  · rintro ⟨result, u, ended, _⟩
    exact (meets.result ended).1
  · intro faultable
    have ends : Meets (removecopy q.pagetable va (pgrounddown sp)) s.kmem _ fun _ => False :=
      meets.mono (fun _ _ => id) fun _ wrong => wrong faultable
    obtain ⟨result, u, ended, _, outcome⟩ := ends.ends
    exact ⟨result, u, ended, outcome⟩

/-- In every run, a store fault is handled exactly if its address has a last-level table or is not
below `MAXVA`, and there is a free page if the page is shared. -/
theorem store_fault_handled_iff (layout : Layout) (mem : Foundation.Memory) (counts : Nat → Int)
    (u : Kmem) (booted : kinit layout ⟨mem, counts, 0⟩ = .ok ((), u)) (events : List Event)
    (s : System) (run : Foundation.exec (System.step layout) (System.start u) events = some s)
    (p : Nat) (q : Proc) (here : s.procs p = some q) (va sp : Nat)
    (word : sp < 2 ^ 64) : s.Handles p q va sp ↔ s.Faultable q va := by
  obtain ⟨live, tfs, node, books, shows⟩ := System.valid_run booted run
  exact shows.handles_iff here word

/-- A store of the first process to an address without tables is not survived by the kernel. -/
theorem store_fault_null :
    ∃ u s q, kinit smallLayout ⟨fun _ => 0, fun _ => 0, 0⟩ = .ok ((), u) ∧
      Foundation.exec (System.step smallLayout) (System.start u) [.userinit 0 []] = some s ∧
      s.procs 0 = some q ∧
      removecopy q.pagetable (2 ^ 30) (pgrounddown pgsize) s.kmem = .error .kernelFault ∧
      ¬ s.Handles 0 q (2 ^ 30) pgsize := by
  have computed : ((bootSystem smallLayout [.userinit 0 []]).bind fun s => (s.procs 0).map fun q =>
      match removecopy q.pagetable (2 ^ 30) (pgrounddown pgsize) s.kmem with
      | .error e => some e
      | .ok _ => none) = some (some .kernelFault) := by decide +kernel
  obtain ⟨s, ended, rest⟩ := bind_eq_some_iff.mp computed
  obtain ⟨q, here, outcome⟩ := map_eq_some_iff.mp rest
  obtain ⟨u, booted, run⟩ := bootSystem_some ended
  have stops :
      removecopy q.pagetable (2 ^ 30) (pgrounddown pgsize) s.kmem = .error .kernelFault := by
    split at outcome
    · rename_i e failed
      cases outcome
      exact failed
    · cases outcome
  refine ⟨u, s, q, booted, run, here, stops, ?_⟩
  rintro ⟨result, k, returned, _⟩
  rw [stops] at returned
  cases returned

/-- The child of a `fork` writes to a page that it shares with its parent. -/
theorem store_fault_handled_fork :
    ∃ u s q, kinit smallLayout ⟨fun _ => 0, fun _ => 0, 0⟩ = .ok ((), u) ∧
      Foundation.exec (System.step smallLayout) (System.start u)
      [.userinit 0 [], .fork 0 1] = some s ∧
      s.procs 1 = some q ∧ s.Handles 1 q 100 pgsize := by
  have computed :
    ((bootSystem smallLayout [.userinit 0 [], .fork 0 1]).bind fun s => (s.procs 1).map fun q =>
      ((s.kmem.tableAt q.pagetable 2 (100 / pgsize / 512)).isSome, decide (s.kmem.freelist ≠ 0))) =
      some (true, true) := by decide +kernel
  obtain ⟨s, ended, rest⟩ := bind_eq_some_iff.mp computed
  obtain ⟨q, here, facts⟩ := map_eq_some_iff.mp rest
  rw [Prod.mk.injEq, decide_eq_true_eq] at facts
  obtain ⟨u, booted, run⟩ := bootSystem_some ended
  refine ⟨u, s, q, booted, run, here, ?_⟩
  exact (store_fault_handled_iff smallLayout _ _ u booted _ s run 1 q here 100 pgsize
    (by decide)).mpr
    fun _ => ⟨facts.1, fun _ => facts.2⟩

end EnhancedXv6.Memory
