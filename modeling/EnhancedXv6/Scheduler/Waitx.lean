import EnhancedXv6.Memory.Writes
import EnhancedXv6.Scheduler.Accounting

/-! `waitx` and `sys_waitx`, on the process table and the memory. A call that finds no exited
child sleeps and scans the table again, so that what it returns is what its last scan returns. -/

namespace EnhancedXv6.Scheduler

open Foundation Process Function Option
open EnhancedXv6.Memory (KM Kmem System Layout Books Nodes Sound Copied)

variable {n : Nat} {layout : Layout} {k : Kmem} {s : System} {table : Table n}
  {caller child : Fin n} {ticks addr addr1 addr2 : Nat}

section Model

/-- The fields of a process that `freeproc` and `copyout` use. -/
def space (p : Proc) : Memory.Proc :=
  ⟨p.pagetable, p.sz, p.trapframe⟩

def zombieChild (table : Table n) (caller : Fin n) : Option (Fin n) :=
  (List.finRange n).find? fun np => (table np).parent = some caller.val ∧ (table np).state = .zombie

def HaveKids (table : Table n) (caller : Fin n) : Prop :=
  ∃ np, (table np).parent = some caller.val

instance decidableHaveKids (table : Table n) (caller : Fin n) : Decidable (HaveKids table caller) :=
  inferInstanceAs (Decidable (∃ np, (table np).parent = some caller.val))

/-- The bytes of an `int` or a `uint`. -/
def intBytes (value : Int) (i : Nat) : UInt8 :=
  UInt8.ofNat ((value % 2 ^ 32).toNat / 256 ^ i)

/-- What a scan of `waitx` returns, and what it has stored in `*wtime` and `*rtime`. -/
structure Waited (n : Nat) where
  ret : Int
  table : Table n
  times : Option (Nat × Nat)

/-- One scan of `waitx`; there is no result if it ends in `sleep`. -/
def waitx (table : Table n) (caller : Fin n) (ticks addr : Nat) : KM (Option (Waited n)) :=
  match zombieChild table caller with
  | some child => do
    let np := table child
    let times := some (waitxWtime np, np.rtime)
    let copied ← if addr ≠ 0 then
      Memory.copyout (table caller).pagetable addr (intBytes np.xstate) 4 else pure 0
    if copied < 0 then
      return some ⟨-1, table, times⟩
    else
      Memory.freeproc (space np)
      return some ⟨np.pid, Function.update table child (np.freed ticks), times⟩
  | none =>
    if ¬ HaveKids table caller ∨ (table caller).killed ≠ 0 then
      return some ⟨-1, table, none⟩
    else
      return none

/-- The two calls of `copyout` at the end of `sys_waitx`. -/
def copyTimes (pagetable addr1 addr2 : Nat) (times : Nat × Nat) : KM Bool := do
  let first ← Memory.copyout pagetable addr1 (intBytes times.1) 4
  if first < 0 then
    return false
  else
    let second ← Memory.copyout pagetable addr2 (intBytes times.2) 4
    return decide (0 ≤ second)

/-- `sys_waitx`; `stack` is what is on the kernel stack where `wtime` and `rtime` are. -/
def sysWaitx (table : Table n) (caller : Fin n) (ticks addr addr1 addr2 : Nat) (stack : Nat × Nat) :
    KM (Option (Int × Table n)) := do
  match ← waitx table caller ticks addr with
  | none => return none
  | some waited =>
    let copied ← copyTimes (waited.table caller).pagetable addr1 addr2 (waited.times.getD stack)
    return some (if copied then waited.ret else -1, waited.table)

/-- The caller runs, and the system has its address space and those of its exited children. -/
structure Backed (s : System) (table : Table n) (caller : Fin n) : Prop where
  running : (table caller).state = .running
  self : s.procs caller = some (space (table caller))
  children : ∀ np, (table np).parent = some caller.val → (table np).state = .zombie →
    s.procs np = some (space (table np))

/-- After the two calls of `copyout` the caller finds what it found before. -/
structure Restores (s : System) (q : Memory.Proc) (addr1 addr2 : Nat)
    (times : Nat × Nat) : Prop where
  second : s.kmem.Writable q.pagetable addr1 4 → ∀ j, s.kmem.Hit q.pagetable addr2 4 j →
    s.sees q (addr2 + j) = some (intBytes times.2 j)
  first : ∀ i, s.kmem.Hit q.pagetable addr1 4 i → s.sees q (addr1 + i) = some (intBytes times.1 i) ∨
    s.kmem.Writable q.pagetable addr1 4 ∧ ∃ j, s.kmem.Hit q.pagetable addr2 4 j ∧
    addr2 + j = addr1 + i

/-- An exited child is reaped only with pointers that can be written, and without children the
kernel stack holds what the caller has where the times are written. -/
structure Prepared (s : System) (table : Table n) (caller : Fin n) (addr addr1 addr2 : Nat)
    (stack : Nat × Nat) : Prop where
  reaps : ∀ np, zombieChild table caller = some np →
    (addr = 0 ∨ s.kmem.Writable (table caller).pagetable addr 4) →
      (table np).pid ≠ -1 ∧ s.kmem.Writable (table caller).pagetable addr1 4 ∧
        s.kmem.Writable (table caller).pagetable addr2 4
  alone : ¬ HaveKids table caller → Restores s (space (table caller)) addr1 addr2 stack

end Model

section Scan

variable {live : Finset Nat} {tfs : Multiset Nat} {node : Nodes} {books books' : Books}
  {r va len : Nat} {src : Nat → UInt8} {result : Int} {times : Nat × Nat}

theorem zombieChild_some (found : zombieChild table caller = some child) :
    (table child).parent = some caller.val ∧ (table child).state = .zombie := by
  have holds := List.find?_some found
  exact of_decide_eq_true holds

theorem copied_same_iff (copied : Copied layout live node books r va src len result k books') :
    (∀ x, books'.view r x = books.view r x) ↔
      ∀ i, books.Hit r va len i → books.view r (va + i) = some (src i) := by
  constructor
  · intro same i hit
    rw [← same, copied.hit hit]
  · intro there x
    by_cases missed : ∀ i, books.Hit r va len i → x ≠ va + i
    · exact copied.missed missed
    · push Not at missed
      obtain ⟨i, hit, rfl⟩ := missed
      rw [copied.hit hit, there i hit]

structure BooksRestore (books : Books) (r addr1 addr2 : Nat) (times : Nat × Nat) : Prop where
  second : books.Writable r addr1 4 → ∀ j, books.Hit r addr2 4 j →
    books.view r (addr2 + j) = some (intBytes times.2 j)
  first : ∀ i, books.Hit r addr1 4 i → books.view r (addr1 + i) = some (intBytes times.1 i) ∨
    books.Writable r addr1 4 ∧ ∃ j, books.Hit r addr2 4 j ∧ addr2 + j = addr1 + i

theorem restores_iff {q : Memory.Proc} (sound : Sound layout s.kmem live node books)
    (root : q.pagetable ∈ live) :
    Restores s q addr1 addr2 times ↔ BooksRestore books q.pagetable addr1 addr2 times := by
  have sees (x : Nat) : s.sees q x = books.view q.pagetable x := sound.view_eq root x
  constructor
  · rintro ⟨second, first⟩
    simp only [sound.writable_iff root, sound.hit_iff root, sees] at second first
    exact ⟨second, first⟩
  · rintro ⟨second, first⟩
    simp only [← sound.writable_iff root, ← sound.hit_iff root, ← sees] at second first
    exact ⟨second, first⟩

/-- What `copyTimes` returns, and when its caller notices it. -/
theorem copyTimes_copied (sound : Sound layout k live node books) (root : r ∈ live) :
    Meets (copyTimes r addr1 addr2 times) k (fun copied u => ∃ books',
      Sound layout u live node books' ∧
      Books.Rewrites r books books' ∧
      (copied = true ↔ books.Writable r addr1 4 ∧ books.Writable r addr2 4) ∧
      ((∀ x, books'.view r x = books.view r x) ↔ BooksRestore books r addr1 addr2 times))
        fun _ => True := by
  rw [copyTimes]
  refine (Memory.copyout_copied sound root).bind fun first u ⟨books₁, copied₁⟩ => ?_
  split
  next negative =>
    have hidden := copied₁.negative.mp negative
    refine meets_pure.mpr ⟨books₁, copied₁.sound, copied₁.rewrites, ?_, ?_⟩
    · simp [hidden]
    · rw [copied_same_iff copied₁]
      refine ⟨fun there =>
        ⟨fun writable => absurd writable hidden, fun i hit => .inl (there i hit)⟩, ?_⟩
      rintro ⟨_, first⟩ i hit
      exact (first i hit).resolve_right fun both => hidden both.1
  next positive =>
    have writable : books.Writable r addr1 4 := not_not.mp (copied₁.negative.not.mp positive)
    refine (Memory.copyout_copied copied₁.sound root).bind
      fun second v ⟨books₂, copied₂⟩ => meets_pure.mpr ?_
    have hits (j : Nat) : books₁.Hit r addr2 4 j ↔ books.Hit r addr2 4 j := copied₁.rewrites.hit
    refine ⟨books₂, copied₂.sound, copied₁.rewrites.trans copied₂.rewrites, ?_, ?_⟩
    · have second_iff := copied₂.negative
      rw [copied₁.rewrites.writable] at second_iff
      rw [decide_eq_true_iff, ← not_lt, second_iff, not_not]
      exact (and_iff_right writable).symm
    · constructor
      · intro same
        refine ⟨fun _ j hit => ?_, fun i hit => ?_⟩
        · rw [← same, copied₂.hit ((hits j).mpr hit)]
        · by_cases missed : ∀ j, books₁.Hit r addr2 4 j → addr1 + i ≠ addr2 + j
          · left
            rw [← same, copied₂.missed missed, copied₁.hit hit]
          · push Not at missed
            obtain ⟨j, other, equal⟩ := missed
            exact .inr ⟨writable, j, (hits j).mp other, equal.symm⟩
      · rintro ⟨second, first⟩ x
        by_cases missed : ∀ j, books₁.Hit r addr2 4 j → x ≠ addr2 + j
        · rw [copied₂.missed missed]
          by_cases kept : ∀ i, books.Hit r addr1 4 i → x ≠ addr1 + i
          · exact copied₁.missed kept
          · push Not at kept
            obtain ⟨i, hit, rfl⟩ := kept
            rcases first i hit with there | ⟨_, j, other, equal⟩
            · rw [copied₁.hit hit, there]
            · exact absurd equal.symm (missed j ((hits j).mpr other))
        · push Not at missed
          obtain ⟨j, hit, rfl⟩ := missed
          rw [copied₂.hit hit, second writable j ((hits j).mp hit)]

/-- The memory after a call that has not taken the address space of its process away. -/
def Kept (layout : Layout) (books : Books) (r : Nat) (u : Kmem) : Prop :=
  ∃ live node books', Sound layout u live node books' ∧ r ∈ live ∧
    ∀ x, (books'.reach r x).isSome = (books.reach r x).isSome

theorem freeproc_kept (shows : s.Shows layout live tfs node books) (backed : Backed s table caller)
    (found : zombieChild table caller = some child) (sound : Sound layout k live node books')
    (keeps : Books.Keeps (table caller).pagetable books books')
    (reach : ∀ x, (books'.reach (table caller).pagetable x).isSome =
      (books.reach (table caller).pagetable x).isSome) :
    Meets (Memory.freeproc (space (table child))) k
      (fun _ u => Kept layout books (table caller).pagetable u)
      fun _ => True := by
  obtain ⟨parent, zombie⟩ := zombieChild_some found
  have here := backed.children child parent zombie
  have other : child ≠ caller := by
    rintro rfl
    rw [backed.running] at zombie
    cases zombie
  obtain ⟨alive, _, fits⟩ := shows.proc here
  have apart : (table caller).pagetable ≠ (table child).pagetable := fun same =>
    other (Fin.ext (shows.distinct here backed.self (.inl same.symm)))
  obtain ⟨held, has⟩ := Multiset.exists_cons_of_mem (shows.tf_held here)
  have fits' : books'.Fits (table child).pagetable (table child).sz :=
    fits.congr fun v => keeps.everywhere _ v
  refine (Memory.freeproc_sound sound alive (keeps.held.trans has) fits').mono ?_ fun _ => id
  rintro _ u ⟨node', _, after⟩
  refine ⟨_, _, _, after, Finset.mem_erase.mpr ⟨apart, (shows.proc backed.self).1⟩, fun x => ?_⟩
  rw [← reach]
  congr 1
  apply Books.reach_congr
  exact if_neg apart

theorem waitx_child (shows : s.Shows layout live tfs node books) (backed : Backed s table caller)
    (found : zombieChild table caller = some child) :
    Meets (waitx table caller ticks addr) s.kmem (fun out u => Kept layout books
      (table caller).pagetable u ∧ ∃ times,
      ((addr = 0 ∨ books.Writable (table caller).pagetable addr 4) ∧
          out = some ⟨(table child).pid, update table child ((table child).freed ticks), times⟩ ∨
        ¬ (addr = 0 ∨ books.Writable (table caller).pagetable addr 4) ∧
        out = some ⟨-1, table, times⟩))
      fun _ => True := by
  have root := (shows.proc backed.self).1
  rw [waitx, found]
  dsimp only
  by_cases null : addr = 0
  · rw [if_neg (not_not.mpr null)]
    refine meets_bind.mpr (meets_pure.mpr ?_)
    rw [if_neg (lt_irrefl 0)]
    refine (freeproc_kept shows backed found shows.sound (Books.Keeps.refl shows.sound.good _)
      fun _ => rfl).bind ?_
    intro _ u kept
    exact meets_pure.mpr ⟨kept, _, .inl ⟨.inl null, rfl⟩⟩
  · rw [if_pos null]
    refine (Memory.copyout_copied shows.sound root).bind fun copied u ⟨books', after⟩ => ?_
    split
    next negative =>
      refine meets_pure.mpr
        ⟨⟨_, _, _, after.sound, root, after.rewrites.reach _⟩, _, .inr ⟨?_, rfl⟩⟩
      exact not_or.mpr ⟨null, after.negative.mp negative⟩
    next positive =>
      refine (freeproc_kept shows backed found after.sound after.keeps
        (after.rewrites.reach _)).bind ?_
      intro _ v kept
      exact meets_pure.mpr ⟨kept, _, .inl ⟨.inr (not_not.mp (after.negative.not.mp positive)), rfl⟩⟩

end Scan

section Failure

variable {live : Finset Nat} {tfs : Multiset Nat} {node : Nodes} {books : Books} {stack : Nat × Nat}

/-- A call that returns -1 has changed nothing: no process, and without children no byte that a user
finds. -/
def FailsCleanly (s : System) (table : Table n) (caller : Fin n) (ret : Int) (table' : Table n)
    (k : Kmem) : Prop :=
  ret = -1 → table' = table ∧ (¬ HaveKids table caller →
    ∀ p q a, s.procs p = some q → { s with kmem := k }.sees q a = s.sees q a)

theorem prepared_child (found : zombieChild table caller = some child) :
    Prepared s table caller addr addr1 addr2 stack ↔
      ((addr = 0 ∨ s.kmem.Writable (table caller).pagetable addr 4) → (table child).pid ≠ -1 ∧
        s.kmem.Writable (table caller).pagetable addr1 4 ∧
        s.kmem.Writable (table caller).pagetable addr2 4) := by
  have kids : HaveKids table caller := ⟨child, (zombieChild_some found).1⟩
  constructor
  · exact fun prepared => prepared.reaps child found
  · refine fun reaps => ⟨fun np same => ?_, fun alone => absurd kids alone⟩
    cases found.symm.trans same
    exact reaps

theorem sysWaitx_child (shows : s.Shows layout live tfs node books) (backed : Backed s table caller)
    (found : zombieChild table caller = some child) :
    Meets (sysWaitx table caller ticks addr addr1 addr2 stack) s.kmem (fun out k => ∀ ret table',
      out = some (ret, table') → (FailsCleanly s table caller ret table' k ↔
        Prepared s table caller addr addr1 addr2 stack)) fun _ => True := by
  have root : (table caller).pagetable ∈ live := (shows.proc backed.self).1
  have kids : HaveKids table caller := ⟨child, (zombieChild_some found).1⟩
  have zombie := (zombieChild_some found).2
  have other : caller ≠ child := by
    rintro rfl
    rw [backed.running] at zombie
    cases zombie
  have reaped : update table child ((table child).freed ticks) ≠ table := by
    intro same
    have now := congrFun same child
    rw [update_self] at now
    rw [← now] at zombie
    cases zombie
  rw [sysWaitx]
  refine (waitx_child shows backed found).bind fun out u ⟨kept, times, outcome⟩ => ?_
  obtain ⟨live', node', books', sound, root', reach⟩ := kept
  have writable (va : Nat) : books'.Writable (table caller).pagetable va 4 ↔
      s.kmem.Writable (table caller).pagetable va 4 := by
    rw [shows.sound.writable_iff root]
    unfold Books.Writable
    simp only [reach]
  rw [prepared_child found, shows.sound.writable_iff root]
  rcases outcome with ⟨allowed, rfl⟩ | ⟨refused, rfl⟩
  · dsimp only
    rw [update_of_ne other]
    refine (copyTimes_copied sound root').bind fun copied v ⟨_, _, _, done, _⟩ => meets_pure.mpr ?_
    rintro ret table' ⟨⟩
    rw [writable, writable] at done
    unfold FailsCleanly
    cases copied with
    | true => simp [reaped, kids, allowed, done.mp rfl]
    | false =>
      have fails := done.not.mp Bool.false_ne_true
      simp [reaped, kids, allowed, fails]
  · dsimp only
    refine (copyTimes_copied sound root').bind fun copied v _ => meets_pure.mpr ?_
    rintro ret table' ⟨⟩
    exact ⟨fun _ allowed => absurd allowed refused,
      fun _ _ => ⟨rfl, fun alone => absurd kids alone⟩⟩

theorem sysWaitx_none (shows : s.Shows layout live tfs node books) (backed : Backed s table caller)
    (missing : zombieChild table caller = none) :
    Meets (sysWaitx table caller ticks addr addr1 addr2 stack) s.kmem (fun out k => ∀ ret table',
      out = some (ret, table') → (FailsCleanly s table caller ret table' k ↔
        Prepared s table caller addr addr1 addr2 stack)) fun _ => True := by
  have root : (table caller).pagetable ∈ live := (shows.proc backed.self).1
  have reaps (np : Fin n) (found : zombieChild table caller = some np) : False := by
    rw [missing] at found
    cases found
  rw [sysWaitx, waitx, missing]
  dsimp only
  split
  · refine meets_bind.mpr (meets_pure.mpr ?_)
    dsimp only
    refine (copyTimes_copied shows.sound root).bind
        fun copied u ⟨books', sound, rewrites, _, same⟩ =>
      meets_pure.mpr ?_
    rintro ret table' ⟨⟩
    by_cases kids : HaveKids table caller
    · exact ⟨fun _ => ⟨fun np found => (reaps np found).elim, fun alone => absurd kids alone⟩,
        fun _ _ => ⟨rfl, fun alone => absurd kids alone⟩⟩
    · have restores : Restores s (space (table caller)) addr1 addr2 stack ↔
          ∀ x, books'.view (table caller).pagetable x = books.view (table caller).pagetable x :=
        (restores_iff shows.sound root).trans same.symm
      have before {p : Nat} {q : Memory.Proc} (there : s.procs p = some q) (a : Nat) :
          s.sees q a = books.view q.pagetable a := shows.sound.view_eq (shows.proc there).1 a
      have after {p : Nat} {q : Memory.Proc} (there : s.procs p = some q) (a : Nat) :
          { s with kmem := u }.sees q a = books'.view q.pagetable a :=
            sound.view_eq (shows.proc there).1 a
      constructor
      · intro clean
        have failed : (if copied = true then (-1 : Int) else -1) = -1 := ite_self _
        refine ⟨fun np found => (reaps np found).elim, fun _ => restores.mpr fun x => ?_⟩
        have unseen := (clean failed).2 kids caller _ x backed.self
        rwa [before backed.self, after backed.self] at unseen
      · intro prepared _
        refine ⟨rfl, fun _ p q a there => ?_⟩
        rw [before there, after there]
        exact rewrites.unseen (restores.mp (prepared.alone kids)) q.pagetable a
  · refine meets_bind.mpr (meets_pure.mpr (meets_pure.mpr fun ret table' impossible => ?_))
    cases impossible

def parentSlot : Fin 2 := ⟨0, by decide⟩

def childSlot : Fin 2 := ⟨1, by decide⟩

def parentAndZombie (parent child : Memory.Proc) : Table 2 := fun np =>
  if np = parentSlot then
    { state := .running, pid := 1, pagetable := parent.pagetable, sz := parent.sz,
      trapframe := parent.trapframe }
  else
    { state := .zombie, pid := 2, parent := some 0, pagetable := child.pagetable, sz := child.sz,
      trapframe := child.trapframe }

def loneProcess (q : Memory.Proc) : Table 1 := fun _ =>
  { state := .running, pid := 1, pagetable := q.pagetable, sz := q.sz, trapframe := q.trapframe }

theorem backed_parentAndZombie {q q' : Memory.Proc} (here : s.procs 0 = some q)
    (there : s.procs 1 = some q') : Backed s (parentAndZombie q q') parentSlot := by
  refine ⟨rfl, here, fun np parent zombie => ?_⟩
  by_cases first : np = parentSlot
  · subst first
    cases zombie
  · obtain rfl : np = childSlot := by
      apply Fin.ext
      have := Fin.val_ne_of_ne first
      have := np.isLt
      unfold parentSlot at *
      unfold childSlot
      dsimp only at *
      omega
    exact there

theorem backed_loneProcess {q : Memory.Proc} (here : s.procs 0 = some q) :
    Backed s (loneProcess q) ⟨0, Nat.one_pos⟩ :=
  ⟨rfl, here, fun _ parent => by cases parent⟩

/-- In every run, a failing `sys_waitx` changes nothing exactly if its pointers are good enough for
what it finds. -/
theorem sys_waitx_fails_cleanly_iff (layout : Layout) (mem : Foundation.Memory) (counts : Nat → Int)
    (u : Kmem) (booted : Memory.kinit layout ⟨mem, counts, 0⟩ = .ok ((), u))
    (events : List Memory.Event) (s : System)
    (run : Foundation.exec (System.step layout) (System.start u) events = some s) (n : Nat)
    (table : Table n) (caller : Fin n) (backed : Backed s table caller)
    (ticks addr addr1 addr2 : Nat) (stack : Nat × Nat) (ret : Int) (table' : Table n) (k : Kmem)
    (done : sysWaitx table caller ticks addr addr1 addr2 stack s.kmem =
      .ok (some (ret, table'), k)) :
    FailsCleanly s table caller ret table' k ↔ Prepared s table caller addr addr1 addr2 stack := by
  obtain ⟨live, tfs, node, books, shows⟩ := System.valid_run booted run
  cases found : zombieChild table caller with
  | none => exact (sysWaitx_none shows backed found).result done ret table' rfl
  | some child => exact (sysWaitx_child shows backed found).result done ret table' rfl

def wild : Nat := 2 ^ 63

/-- What a call of `sys_waitx` returns that does not sleep. -/
def returned (s : System) (table : Table n) (caller : Fin n) (addr addr1 addr2 : Nat)
    (stack : Nat × Nat) : Option (Int × Table n × Kmem) :=
  match sysWaitx table caller 0 addr addr1 addr2 stack s.kmem with
  | .ok (some result, k) => some (result.1, result.2, k)
  | _ => none

theorem sysWaitx_returned {ret : Int} {table' : Table n}
    (ended : returned s table caller addr addr1 addr2 stack = some (ret, table', k)) :
    sysWaitx table caller 0 addr addr1 addr2 stack s.kmem = .ok (some (ret, table'), k) := by
  unfold returned at ended
  split at ended
  next result u done =>
    cases ended
    exact done
  next => cases ended

theorem copyout_wild (pagetable : Nat) (src : Nat → UInt8) :
    Meets (Memory.copyout pagetable wild src 4) k (fun result _ => result = -1) fun _ => False := by
  rw [Memory.copyout, Memory.copyoutBytes, if_neg (by decide)]
  refine meets_bind.mpr ?_
  rw [Memory.walkaddr, if_pos (by decide)]
  refine meets_pure.mpr ?_
  rw [if_pos rfl]
  exact meets_pure.mpr rfl

theorem sysWaitx_wild (shows : s.Shows layout live tfs node books) (backed : Backed s table caller)
    (found : zombieChild table caller = some child) :
    Meets (sysWaitx table caller ticks 0 wild addr2 stack) s.kmem (fun out _ =>
      out = some (-1, update table child ((table child).freed ticks))) fun _ => False := by
  obtain ⟨parent, zombie⟩ := zombieChild_some found
  have here := backed.children child parent zombie
  obtain ⟨alive, _, fits⟩ := shows.proc here
  obtain ⟨held, has⟩ := Multiset.exists_cons_of_mem (shows.tf_held here)
  rw [sysWaitx, waitx, found]
  dsimp only
  rw [if_neg (not_not.mpr rfl)]
  refine meets_bind.mpr (meets_bind.mpr (meets_pure.mpr ?_))
  rw [if_neg (lt_irrefl 0)]
  refine (Memory.freeproc_sound shows.sound alive has fits).bind fun _ u _ => meets_pure.mpr ?_
  dsimp only
  rw [copyTimes]
  refine meets_bind.mpr ((copyout_wild _ _).bind fun result v failed => ?_)
  rw [failed, if_pos (by decide)]
  exact meets_pure.mpr (meets_pure.mpr rfl)

theorem returned_exposed : ((Memory.bootSystem Memory.smallLayout [.userinit 0 []]).bind fun s =>
    (s.procs 0).bind fun q =>
      (returned s (loneProcess q) ⟨0, Nat.one_pos⟩ 0 0 8 (7, 7)).map fun r =>
      (r.1, s.sees q 0, { s with kmem := r.2.2 }.sees q 0)) = some (-1, some 0, some 7) := by
  decide +kernel

/-- A child is reaped although the call returns -1, and a caller without children finds what was
on the kernel stack. -/
theorem sys_waitx_fails_with_effects :
    (∃ u s q q' table' k, Memory.kinit Memory.smallLayout
      ⟨fun _ => 0, fun _ => 0, 0⟩ = .ok ((), u) ∧
      Foundation.exec (System.step Memory.smallLayout) (System.start u)
      [.userinit 0 [], .fork 0 1] = some s ∧
      Backed s (parentAndZombie q q') parentSlot ∧
      sysWaitx (parentAndZombie q q') parentSlot 0 0 wild 0 (0, 0) s.kmem =
      .ok (some (-1, table'), k) ∧
      (table' childSlot).state = .unused) ∧
    ∃ u s q table' k, Memory.kinit Memory.smallLayout ⟨fun _ => 0, fun _ => 0, 0⟩ = .ok ((), u) ∧
      Foundation.exec (System.step Memory.smallLayout) (System.start u) [.userinit 0 []] = some s ∧
      Backed s (loneProcess q) ⟨0, Nat.one_pos⟩ ∧ ¬ HaveKids (loneProcess q) ⟨0, Nat.one_pos⟩ ∧
      sysWaitx (loneProcess q) ⟨0, Nat.one_pos⟩ 0 0 0 8 (7, 7) s.kmem = .ok (some (-1, table'), k) ∧
      s.sees q 0 = some 0 ∧ { s with kmem := k }.sees q 0 = some 7 := by
  constructor
  · have computed : (Memory.bootSystem Memory.smallLayout [.userinit 0 [], .fork 0 1]).map (fun s =>
        ((s.procs 0).isSome, (s.procs 1).isSome)) = some (true, true) := by decide +kernel
    obtain ⟨s, ended, both⟩ := map_eq_some_iff.mp computed
    obtain ⟨first, second⟩ := Prod.mk.inj both
    obtain ⟨q, here⟩ := isSome_iff_exists.mp first
    obtain ⟨q', there⟩ := isSome_iff_exists.mp second
    obtain ⟨u, booted, run⟩ := Memory.bootSystem_some ended
    obtain ⟨live, tfs, node, books, shows⟩ := System.valid_run booted run
    have backed := backed_parentAndZombie here there
    obtain ⟨_, k, done, rfl⟩ := (sysWaitx_wild shows backed rfl).ends
    exact ⟨u, s, q, q', _, k, booted, run, backed, done, rfl⟩
  · obtain ⟨s, ended, rest⟩ := bind_eq_some_iff.mp returned_exposed
    obtain ⟨q, here, rest⟩ := bind_eq_some_iff.mp rest
    obtain ⟨⟨ret, table', k⟩, done, facts⟩ := map_eq_some_iff.mp rest
    obtain ⟨rfl, bytes⟩ := Prod.mk.inj facts
    obtain ⟨before, after⟩ := Prod.mk.inj bytes
    obtain ⟨u, booted, run⟩ := Memory.bootSystem_some ended
    refine ⟨u, s, q, table', k, booted, run, backed_loneProcess here, ?_, sysWaitx_returned done,
      before, after⟩
    rintro ⟨np, parent⟩
    cases parent

theorem returned_wild :
    ((Memory.bootSystem Memory.smallLayout [.userinit 0 [], .fork 0 1]).bind fun s =>
    (s.procs 0).bind fun q => (s.procs 1).bind fun q' =>
      (returned s (parentAndZombie q q') parentSlot wild wild 0 (0, 0)).map fun r =>
        (r.1, (s.kmem.userAddr q.pagetable wild).isSome)) = some (-1, false) := by
  decide +kernel

/-- A call that cannot store the exit status leaves the child to the next one. -/
theorem sys_waitx_fails_cleanly_iff_wild :
    ∃ u s q q' table' k, Memory.kinit Memory.smallLayout ⟨fun _ => 0, fun _ => 0, 0⟩ = .ok ((), u) ∧
      Foundation.exec (System.step Memory.smallLayout) (System.start u)
      [.userinit 0 [], .fork 0 1] = some s ∧
      Backed s (parentAndZombie q q') parentSlot ∧
      sysWaitx (parentAndZombie q q') parentSlot 0 wild wild 0 (0, 0) s.kmem =
      .ok (some (-1, table'), k) ∧
      table' = parentAndZombie q q' := by
  obtain ⟨s, ended, rest⟩ := bind_eq_some_iff.mp returned_wild
  obtain ⟨q, here, rest⟩ := bind_eq_some_iff.mp rest
  obtain ⟨q', there, rest⟩ := bind_eq_some_iff.mp rest
  obtain ⟨⟨ret, table', k⟩, done, facts⟩ := map_eq_some_iff.mp rest
  obtain ⟨rfl, hidden⟩ := Prod.mk.inj facts
  obtain ⟨u, booted, run⟩ := Memory.bootSystem_some ended
  have backed := backed_parentAndZombie here there
  have kids : HaveKids (parentAndZombie q q') parentSlot := ⟨childSlot, rfl⟩
  have prepared : Prepared s (parentAndZombie q q') parentSlot wild wild 0 (0, 0) := by
    refine ⟨fun np _ allowed => ?_, fun alone => absurd kids alone⟩
    rcases allowed with null | writable
    · exact absurd null (by decide)
    · have first := writable 0 (by decide)
      exact absurd first (by rw [Nat.add_zero]; exact Bool.not_eq_true _ ▸ hidden)
  have clean :=
    (sys_waitx_fails_cleanly_iff Memory.smallLayout _ _ u booted _ s run 2 _ parentSlot
      backed 0 wild wild 0
    (0, 0) _ table' k (sysWaitx_returned done)).mpr prepared
  exact ⟨u, s, q, q', table', k, booted, run, backed, sysWaitx_returned done, (clean rfl).1⟩

end Failure

end EnhancedXv6.Scheduler
