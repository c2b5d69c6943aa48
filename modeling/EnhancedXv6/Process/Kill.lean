import EnhancedXv6.Memory.Isolation
import EnhancedXv6.Process.Proc

/-! The flag that `kill` sets and what `usertrap` does with it. The CPUs, the page tables and the
system calls that do not touch the flag are left open: any runnable process can be dispatched, and
a store fault meets any memory. -/

namespace EnhancedXv6.Process

open Foundation Function
open EnhancedXv6.Memory (Kmem pgrounddown pteV pteCow removecopy)

/-- A store fault from which `removecopy` comes back, with the memory that it finds. -/
structure StoreFault where
  kmem : Kmem
  pagetable : Nat
  va : Nat
  sp : Nat
  result : Int
  word : sp < 2 ^ 64
  returns : ∃ after, removecopy pagetable va (pgrounddown sp) kmem = .ok (result, after)

/-- The page of the fault is mapped, and it is shared since a `fork`. -/
def StoreFault.Shared (fault : StoreFault) : Prop :=
  fault.kmem.pteOf fault.pagetable (pgrounddown fault.va) &&& pteV ≠ 0 ∧
    fault.kmem.pteOf fault.pagetable (pgrounddown fault.va) &&& pteCow ≠ 0

instance StoreFault.decidableShared (fault : StoreFault) : Decidable fault.Shared :=
  inferInstanceAs (Decidable (_ ∧ _))

/-- The cases of `scause` in `usertrap`. -/
inductive Cause where
  | storeFault
  | syscall
  | device
  | unexpected
  deriving DecidableEq, Repr

/-- Where a process is: in its program, at the cases of `usertrap`, before the assignment of what
`removecopy` has returned, in a system call, in the loop of `kill`, in `fork`, before the last look
at the flag, on the way back to its program, in `exit`, or not yet started. -/
inductive TrapPc where
  | user
  | trap (cause : Cause)
  | returned (fault : StoreFault)
  | syscall
  | killing (pid : Int) (slot : Nat)
  | forking (child : Nat)
  | check
  | leaving
  | exiting
  | newborn

/-- The process table with the places of the processes. `marked` are the processes for which a
`kill` has returned 0, `late` those that have entered `usertrap` since then. -/
structure Killing (n : Nat) where
  proc : Table n
  pc : Fin n → TrapPc
  /-- An `int` of the source that has not overflowed. -/
  nextpid : Int
  ticks : Nat
  marked : Fin n → Bool
  late : Fin n → Bool

variable {n : Nat}

def Killing.goto (s : Killing n) (p : Fin n) (pc : TrapPc) : Killing n :=
  { s with pc := Function.update s.pc p pc }

def Killing.setProc (s : Killing n) (p : Fin n) (proc : Proc) : Killing n :=
  { s with proc := Function.update s.proc p proc }

/-- `freeproc`, which ends the life of the process that was marked. -/
def Killing.free (s : Killing n) (p : Fin n) : Killing n :=
  { (s.setProc p ((s.proc p).freed s.ticks)).goto p .newborn with
    marked := Function.update s.marked p false
    late := Function.update s.late p false }

/-- The critical section of `kill` on the slot with the pid. The pid 0 is that of the unused
slots, which are no live processes. -/
def Killing.kill (s : Killing n) (p : Fin n) : Killing n :=
  { s.setProc p ((s.proc p).killedBy s.ticks) with
    marked := Function.update s.marked p (s.marked p || decide ((s.proc p).state ≠ .unused)) }

/-- The events of a run: the first ones are of a running process. -/
inductive Killing.Event (n : Nat) where
  | instruction (p : Fin n)
  | trap (p : Fin n) (cause : Cause)
  | removecopy (p : Fin n) (fault : StoreFault)
  | proceed (p : Fin n)
  | kill (p : Fin n) (pid : Int)
  | fork (p child : Fin n)
  | forked (p child : Fin n) (success : Bool)
  | wait (p child : Fin n)
  | exit (p : Fin n)
  | sysret (p : Fin n)
  | sleep (p : Fin n) (chan : Chan)
  | yield (p : Fin n)
  | wakeup (p : Fin n)
  | dispatch (p : Fin n)
  | tick

/-- The next step of `usertrap` and of the loop of `kill`, where nothing else decides it. -/
def Killing.proceed (s : Killing n) (p : Fin n) : Option (Killing n) :=
  match s.pc p with
  | .trap .syscall => some (s.goto p (if (s.proc p).killed ≠ 0 then .exiting else .syscall))
  | .trap .device => some (s.goto p .check)
  -- `setkilled`
  | .trap .unexpected => some ((s.setProc p { s.proc p with killed := 1 }).goto p .check)
  | .returned fault => some ((s.setProc p { s.proc p with killed := fault.result }).goto p .check)
  | .killing pid slot =>
    if inside : slot < n then
      if (s.proc ⟨slot, inside⟩).pid = pid then some ((s.kill ⟨slot, inside⟩).goto p .check)
      else some (s.goto p (.killing pid (slot + 1)))
    else some (s.goto p .check)
  | .check => some (s.goto p (if (s.proc p).killed ≠ 0 then .exiting else .leaving))
  | .leaving => some (s.goto p .user)
  -- the first process panics in `exit`
  | .exiting =>
    if p.val = 0 then
      none
    else
      some (s.setProc p { s.proc p with state := .zombie, etime := s.ticks })
  | .user | .trap .storeFault | .syscall | .forking _ | .newborn => none

def Killing.run (s : Killing n) : Killing.Event n → Option (Killing n)
  | .instruction p =>
    match s.pc p with
    | .user => some s
    | _ => none
  | .trap p cause =>
    match s.pc p with
    | .user => some { s.goto p (.trap cause) with late := Function.update s.late p (s.marked p) }
    | _ => none
  | .removecopy p fault =>
    match s.pc p with
    | .trap .storeFault => some (s.goto p (.returned fault))
    | _ => none
  | .proceed p => s.proceed p
  | .kill p pid =>
    match s.pc p with
    | .syscall => some (s.goto p (.killing pid 0))
    | _ => none
  | .fork p child =>
    match s.pc p with
    | .syscall =>
      if (s.proc child).state = .unused then
        some { (s.setProc child ((s.proc child).found s.nextpid s.ticks)).goto p
          (.forking child) with
          nextpid := s.nextpid + 1 }
      else none
    | _ => none
  | .forked p child success =>
    match s.pc p with
    | .forking slot =>
      if slot = child.val ∧ (s.proc child).state = .used then
        if success then
          some (((s.setProc child { (s.proc child).started s.ticks with
            state := .runnable, parent := some p.val }).goto child .leaving).goto p .check)
        else some ((s.free child).goto p .check)
      else none
    | _ => none
  | .wait p child =>
    match s.pc p with
    | .syscall => if (s.proc child).state = .zombie then some (s.free child) else none
    | _ => none
  | .exit p =>
    match s.pc p with
    | .syscall => some (s.goto p .exiting)
    | _ => none
  | .sysret p =>
    match s.pc p with
    | .syscall => some (s.goto p .check)
    | _ => none
  | .sleep p chan =>
    match s.pc p with
    | .syscall | .exiting =>
      some (s.setProc p { s.proc p with state := .sleeping, chan := some chan })
    | _ => none
  | .yield p =>
    match s.pc p with
    | .user => none
    | _ => some (s.setProc p { s.proc p with state := .runnable })
  | .wakeup _ | .dispatch _ | .tick => none

def Killing.Event.process : Killing.Event n → Option (Fin n)
  | .instruction p | .trap p _ | .removecopy p _ | .proceed p | .kill p _ | .fork p _
  | .forked p _ _ | .wait p _ | .exit p | .sysret p | .sleep p _ | .yield p => some p
  | .wakeup _ | .dispatch _ | .tick => none

def Killing.step (s : Killing n) (event : Killing.Event n) : Option (Killing n) :=
  match event with
  | .wakeup p =>
    if (s.proc p).state = .sleeping then some (s.setProc p ((s.proc p).roused s.ticks)) else none
  | .dispatch p =>
    if (s.proc p).state = .runnable then
      some (s.setProc p { s.proc p with state := .running })
    else
      none
  | .tick => some { s with ticks := (s.ticks + 1) % 2 ^ 32 }
  | event => if event.process.any fun p => (s.proc p).state = .running then s.run event else none

/-- After `userinit`, with the first process runnable. -/
def bootKilling (n : Nat) : Killing n where
  proc i := if i.val = 0 then { state := .runnable, pid := 1 } else {}
  pc i := if i.val = 0 then .leaving else .newborn
  nextpid := 2
  ticks := 0
  marked _ := false
  late _ := false

/-- A killed process stays killed, and executes no instruction of its program once it has entered
`usertrap` after the kill. -/
def Killing.Respected (s : Killing n) : Prop :=
  ∀ p, (s.marked p = true → (s.proc p).killed ≠ 0) ∧
    (s.late p = true → s.step (.instruction p) = none)

/-- No process for which `kill` has returned 0 comes out of a store fault on a shared page. -/
def Killing.Spares (s : Killing n) : Killing.Event n → Prop
  | .proceed p =>
    ∀ fault, (s.proc p).state = .running → s.pc p = .returned fault → fault.Shared →
      s.marked p = false
  | _ => True

section Fault

open EnhancedXv6.Memory (walk walkLevels pgsize maxva maxva_eq meets_loadWord guard_dead)

variable {k : Kmem}

theorem walkLevels_reads (va level pagetable : Nat) :
    Meets (walkLevels va false level pagetable) k (fun _ u => u = k) fun _ => True := by
  induction level generalizing pagetable with
  | zero => exact meets_pure.mpr rfl
  | succ level ih =>
    rw [walkLevels, meets_bind, meets_loadWord]
    split
    · exact ih _
    · exact meets_pure.mpr rfl

theorem walk_reads (pagetable va : Nat) : Meets (walk pagetable va false) k (fun pte u =>
    u = k ∧ k.pteOf pagetable va = if pte = 0 then 0
      else Foundation.load k.mem pte 8) fun _ => True := by
  have reads : Meets (walk pagetable va false) k (fun _ u => u = k) fun _ => True := by
    rw [walk]
    split
    · exact meets_throw.mpr trivial
    · exact walkLevels_reads va 2 pagetable
  unfold Kmem.pteOf
  unfold Meets at reads ⊢
  cases ended : walk pagetable va false k with
  | error panic => trivial
  | ok result =>
    rw [ended] at reads
    exact ⟨reads, rfl⟩

/-- A store to a shared page is let through, any other store kills the process. -/
theorem removecopy_decides {pagetable va sz : Nat} (aligned : sz % pgsize = 0)
    (word : sz < 2 ^ 64) :
    Meets (removecopy pagetable va sz) k (fun result _ => result =
      if k.pteOf pagetable (pgrounddown va) &&& pteV ≠ 0 ∧
      k.pteOf pagetable (pgrounddown va) &&& pteCow ≠ 0
      then 0 else 1) fun _ => True := by
  rw [removecopy]
  dsimp only
  split
  · rename_i high
    have unmapped : k.pteOf pagetable (pgrounddown va) = 0 := by
      unfold Kmem.pteOf walk
      rw [if_pos high]
      rfl
    rw [meets_pure, unmapped]
    rfl
  · rename_i low
    have low : va < maxva := by
      rw [maxva_eq] at low ⊢
      unfold pgrounddown pgsize at low
      omega
    rw [if_neg (guard_dead aligned word)]
    refine (walk_reads pagetable _).bind fun pte u found => ?_
    obtain ⟨rfl, entry⟩ := found
    split
    · exact meets_throw.mpr trivial
    · rename_i null
      rw [meets_bind, meets_loadWord, entry, if_neg null]
      split
      · rename_i refused
        rw [meets_pure, if_neg (by tauto)]
      · rename_i shared
        rw [if_pos (by tauto), meets_bind]
        refine meets_any.mono (fun mem v _ => ?_) fun _ _ => trivial
        split
        · exact meets_throw.mpr trivial
        · iterate 3 refine meets_any.bind fun _ _ _ => ?_
          exact meets_pure.mpr rfl

theorem StoreFault.result_eq (fault : StoreFault) :
    fault.result = if fault.Shared then 0 else 1 := by
  obtain ⟨after, returned⟩ := fault.returns
  have aligned : pgrounddown fault.sp % pgsize = 0 := by
    unfold pgrounddown pgsize
    omega
  have word : pgrounddown fault.sp < 2 ^ 64 := (Nat.sub_le _ _).trans_lt fault.word
  exact (removecopy_decides aligned word).result returned

end Fault

/-- The places from which a killed process only goes to `exit`. -/
def TrapPc.Doomed : TrapPc → Prop
  | .trap _ | .returned _ | .check | .exiting => True
  | _ => False

structure Marks (proc : Proc) (pc : TrapPc) (marked late : Bool) : Prop where
  killed : marked = true → proc.killed ≠ 0
  live : marked = true → proc.state ≠ .unused
  marked : late = true → marked = true
  started : late = true → proc.state ≠ .used
  doomed : late = true → pc.Doomed

def Killing.Inv (s : Killing n) : Prop :=
  ∀ p, Marks (s.proc p) (s.pc p) (s.marked p) (s.late p)

section Steps

variable {s t : Killing n} {p : Fin n} {event : Killing.Event n}

theorem Killing.Inv.respected (inv : s.Inv) : s.Respected := by
  intro p
  refine ⟨(inv p).killed, fun late => ?_⟩
  have doomed := (inv p).doomed late
  simp only [step, run]
  cases place : s.pc p with
  | user =>
    rw [place] at doomed
    exact doomed.elim
  | _ => exact ite_self none

theorem Killing.Inv.update {proc : Proc} {pc : TrapPc} {marked late : Bool} (inv : s.Inv)
    (marks : Marks proc pc marked late) (p : Fin n) (nextpid : Int) (ticks : Nat) :
    Killing.Inv
      { proc := update s.proc p proc, pc := update s.pc p pc, nextpid := nextpid, ticks := ticks
        marked := update s.marked p marked, late := update s.late p late } := by
  intro q
  dsimp only
  by_cases here : q = p
  · rw [here, update_self, update_self, update_self, update_self]
    exact marks
  · rw [update_of_ne here, update_of_ne here, update_of_ne here, update_of_ne here]
    exact inv q

theorem Killing.Inv.goto {pc : TrapPc} (inv : s.Inv) (doomed : s.late p = true → pc.Doomed) :
    (s.goto p pc).Inv := by
  have marks : Marks (s.proc p) pc (s.marked p) (s.late p) := { inv p with doomed := doomed }
  have updated := inv.update marks p s.nextpid s.ticks
  simp only [update_eq_self] at updated
  exact updated

theorem Killing.Inv.setProc {proc : Proc} (inv : s.Inv)
    (killed : s.marked p = true → proc.killed ≠ 0) (live : s.marked p = true → proc.state ≠ .unused)
    (started : s.late p = true → proc.state ≠ .used) : (s.setProc p proc).Inv := by
  have marks : Marks proc (s.pc p) (s.marked p) (s.late p) :=
    { inv p with killed := killed, live := live, started := started }
  have updated := inv.update marks p s.nextpid s.ticks
  simp only [update_eq_self] at updated
  exact updated

/-- A process keeps its flag and comes to a state of a started process. -/
theorem Killing.Inv.setState {proc : Proc} (inv : s.Inv) (same : proc.killed = (s.proc p).killed)
    (live : proc.state ≠ .unused) (started : proc.state ≠ .used) : (s.setProc p proc).Inv :=
  inv.setProc (fun marked => same ▸ (inv p).killed marked) (fun _ => live) fun _ => started

theorem Killing.Inv.free (inv : s.Inv) (p : Fin n) : (s.free p).Inv := by
  have marks : Marks ((s.proc p).freed s.ticks) .newborn false false := by
    constructor <;> intro absent <;> cases absent
  exact inv.update marks p s.nextpid s.ticks

theorem killedBy_killed (proc : Proc) (ticks : Nat) : (proc.killedBy ticks).killed = 1 := by
  unfold Proc.killedBy
  split <;> rfl

/-- `kill` leaves a process where it is, or it wakes it. -/
theorem killedBy_state (proc : Proc) (ticks : Nat) :
    (proc.killedBy ticks).state = proc.state ∨ (proc.killedBy ticks).state = .runnable := by
  unfold Proc.killedBy
  split
  · exact .inr rfl
  · exact .inl rfl

section

variable (inv : s.Inv)

include inv

theorem Killing.Inv.kill (p : Fin n) : (s.kill p).Inv := by
  have keeps (state : ProcState) (other : .runnable ≠ state) (before : (s.proc p).state ≠ state) :
      ((s.proc p).killedBy s.ticks).state ≠ state := by
    rcases killedBy_state (s.proc p) s.ticks with same | woken
    · exact same ▸ before
    · exact woken ▸ other
  have marks : Marks ((s.proc p).killedBy s.ticks) (s.pc p)
      (s.marked p || decide ((s.proc p).state ≠ .unused)) (s.late p) := by
    constructor
    · intro _
      rw [killedBy_killed]
      decide
    · intro marked
      apply keeps _ (by decide)
      rcases Bool.or_eq_true_iff.mp marked with before | now
      · exact (inv p).live before
      · exact of_decide_eq_true now
    · intro late
      rw [(inv p).marked late, Bool.true_or]
    · intro late
      exact keeps _ (by decide) ((inv p).started late)
    · exact (inv p).doomed
  have updated := inv.update marks p s.nextpid s.ticks
  simp only [update_eq_self] at updated
  exact updated

theorem Killing.Inv.not_late {pc : TrapPc} (place : s.pc p = pc) (safe : ¬ pc.Doomed) :
    s.late p = false := by
  cases late : s.late p with
  | false => rfl
  | true => exact absurd (place ▸ (inv p).doomed late) safe

theorem Killing.Inv.move {pc : TrapPc} (place : s.pc p = pc) (safe : ¬ pc.Doomed) (next : TrapPc) :
    (s.goto p next).Inv := by
  have early := inv.not_late place safe
  exact inv.goto fun late => absurd (early.symm.trans late) (by decide)

/-- A killed process that looks at its flag goes to `exit`. -/
theorem Killing.Inv.look (next : TrapPc) :
    (s.goto p (if (s.proc p).killed ≠ 0 then .exiting else next)).Inv := by
  apply inv.goto
  intro late
  rw [if_pos ((inv p).killed ((inv p).marked late))]
  trivial

theorem Killing.Inv.proceed
    (spares : ∀ fault, s.pc p = .returned fault → fault.Shared → s.marked p = false)
    (taken : s.proceed p = some t) : t.Inv := by
  unfold Killing.proceed at taken
  split at taken
  next =>
    cases taken
    exact inv.look .syscall
  next =>
    cases taken
    exact inv.goto fun _ => trivial
  next =>
    cases taken
    have set : (s.setProc p { s.proc p with killed := 1 }).Inv :=
      inv.setProc (fun _ => one_ne_zero) (inv p).live (inv p).started
    exact set.goto fun _ => trivial
  next fault place =>
    cases taken
    have set : (s.setProc p { s.proc p with killed := fault.result }).Inv := by
      refine inv.setProc (fun marked => ?_) (inv p).live (inv p).started
      by_cases shared : fault.Shared
      · exact absurd ((spares fault place shared).symm.trans marked) (by decide)
      · change fault.result ≠ 0
        rw [fault.result_eq, if_neg shared]
        decide
    exact set.goto fun _ => trivial
  next pid slot place =>
    split_ifs at taken with inside same
    · cases taken
      exact (inv.kill _).goto fun _ => trivial
    · cases taken
      exact inv.move place id _
    · cases taken
      exact inv.goto fun _ => trivial
  next =>
    cases taken
    exact inv.look .leaving
  next place =>
    cases taken
    exact inv.move place id _
  next =>
    split_ifs at taken
    cases taken
    exact inv.setState rfl (by simp) (by simp)
  all_goals cases taken

theorem Killing.Inv.run (spares : s.Spares event)
    (running : ∀ p, event.process = some p → (s.proc p).state = .running)
    (taken : s.run event = some t) : t.Inv := by
  cases event with
  | instruction p =>
    simp only [Killing.run] at taken
    split at taken <;> cases taken
    exact inv
  | trap p cause =>
    simp only [Killing.run] at taken
    split at taken <;> cases taken
    have marks : Marks (s.proc p) (.trap cause) (s.marked p) (s.marked p) := by
      refine ⟨(inv p).killed, (inv p).live, id, fun _ => ?_, fun _ => trivial⟩
      rw [running p rfl]
      simp
    have updated := inv.update marks p s.nextpid s.ticks
    simp only [update_eq_self] at updated
    exact updated
  | removecopy | exit | sysret =>
    simp only [Killing.run] at taken
    split at taken <;> cases taken
    exact inv.goto fun _ => trivial
  | proceed p =>
    exact inv.proceed (fun fault place shared => spares fault (running p rfl) place shared) taken
  | kill p pid =>
    simp only [Killing.run] at taken
    split at taken <;> cases taken
    next place => exact inv.move place id _
  | fork p child =>
    simp only [Killing.run] at taken
    split at taken
    next place =>
      split_ifs at taken with unused
      cases taken
      have unmarked : ¬ s.marked child = true := fun marked => (inv child).live marked unused
      have found : (s.setProc child ((s.proc child).found s.nextpid s.ticks)).Inv :=
        inv.setProc (fun marked => absurd marked unmarked) (fun marked => absurd marked unmarked)
          fun late => absurd ((inv child).marked late) unmarked
      exact (found.move place id (.forking child) :)
    next => cases taken
  | forked p child success =>
    simp only [Killing.run] at taken
    split at taken
    next place =>
      split_ifs at taken with used
      · cases taken
        have early : ¬ s.late child = true := fun late => (inv child).started late used.2
        have started : (s.setProc child { (s.proc child).started s.ticks with
            state := .runnable, parent := some p.val }).Inv := inv.setState rfl (by simp) (by simp)
        have left : (Killing.goto _ child .leaving).Inv :=
          started.goto fun late => absurd late early
        exact left.goto fun _ => trivial
      · cases taken
        exact (inv.free child).goto fun _ => trivial
    next => cases taken
  | wait p child =>
    simp only [Killing.run] at taken
    split at taken
    next =>
      split_ifs at taken
      cases taken
      exact inv.free child
    next => cases taken
  | sleep | yield =>
    simp only [Killing.run] at taken
    split at taken <;> cases taken
    all_goals exact inv.setState rfl (by simp) (by simp)
  | wakeup | dispatch | tick => cases taken

theorem Killing.Inv.step (spares : s.Spares event) (taken : s.step event = some t) : t.Inv := by
  cases event with
  | wakeup p =>
    simp only [step] at taken
    split_ifs at taken
    cases taken
    exact inv.setState rfl (by simp [Proc.roused]) (by simp [Proc.roused])
  | dispatch p =>
    simp only [step] at taken
    split_ifs at taken
    cases taken
    exact inv.setState rfl (by simp) (by simp)
  | tick =>
    cases taken
    exact inv
  | _ =>
    simp only [step] at taken
    split_ifs at taken with running
    refine inv.run spares (fun p acts => ?_) taken
    rw [acts] at running
    exact of_decide_eq_true running

end

theorem Killing.step_returned {fault : StoreFault} (running : (s.proc p).state = .running)
    (place : s.pc p = .returned fault) : s.step (.proceed p) =
      some ((s.setProc p { s.proc p with killed := fault.result }).goto p .check) := by
  simp [step, Killing.Event.process, running, run, proceed, place]

/-- The assignment that breaks the condition takes the flag back. -/
theorem Killing.Respected.spares (respected : t.Respected) (taken : s.step event = some t) :
    s.Spares event := by
  cases event with
  | proceed p =>
    intro fault running place shared
    cases (step_returned running place).symm.trans taken
    by_contra marked
    apply (respected p).1 (Bool.eq_true_of_not_eq_false marked)
    simp [goto, setProc, fault.result_eq, shared]
  | _ => trivial

theorem Killing.spares_of_none (blocked : s.step event = none) : s.Spares event := by
  cases event with
  | proceed p =>
    intro fault running place _
    rw [step_returned running place] at blocked
    cases blocked
  | _ => trivial

theorem bootKilling_inv (n : Nat) : (bootKilling n).Inv := by
  intro p
  constructor <;> intro absent <;> cases absent

end Steps

/-- Kills are kept in exactly the runs in which no killed process comes out of a store fault on a
shared page. -/
theorem kill_kept_iff (n : Nat) (events : List (Killing.Event n)) :
    Throughout Killing.step Killing.Respected (bootKilling n) events ↔
      Along Killing.step Killing.Spares (bootKilling n) events := by
  constructor
  · apply along_of_throughout
    · intro s event t _ after taken
      exact after.spares taken
    · intro s event blocked
      exact Killing.spares_of_none blocked
  · intro spared
    have inv : Throughout Killing.step Killing.Inv (bootKilling n) events :=
      throughout_of_along (fun s event t inv spares taken => inv.step spares taken)
        (bootKilling_inv n) spared
    exact inv.mono fun s holds => holds.respected

section Undone

/-- A memory with one user page, at address 0, that two processes share. -/
def sharedPage : Kmem where
  mem :=
    let root := Memory.kernbase + 0x100000
    let middle := root + Memory.pgsize
    let last := middle + Memory.pgsize
    let page := last + Memory.pgsize
    Foundation.store (Foundation.store
      (Foundation.store (fun _ => 0) root 8 (Memory.pa2pte middle ||| pteV))
      middle 8 (Memory.pa2pte last ||| pteV))
      last 8 (Memory.pa2pte page ||| pteV ||| Memory.pteR ||| Memory.pteU ||| pteCow)
  numpUsing _ := 2
  freelist := Memory.kernbase + 0x200000

def sharedStore : StoreFault where
  kmem := sharedPage
  pagetable := Memory.kernbase + 0x100000
  va := 8
  sp := 3 * Memory.pgsize
  result := 0
  word := by decide
  returns := ⟨_, rfl⟩

theorem victim_inside : 1 < nproc := by decide

def victim : Fin nproc := ⟨1, victim_inside⟩

/-- The first process forks a child and kills it, and then the child writes to a shared page. -/
def undoneKill : List (Killing.Event nproc) :=
  [.dispatch firstSlot, .proceed firstSlot, .trap firstSlot .syscall, .proceed firstSlot,
    .fork firstSlot victim, .forked firstSlot victim true, .proceed firstSlot, .proceed firstSlot,
    .dispatch victim, .proceed victim, .instruction victim,
    .trap firstSlot .syscall, .proceed firstSlot, .kill firstSlot 2, .proceed firstSlot,
    .proceed firstSlot, .trap victim .storeFault, .removecopy victim sharedStore, .proceed victim,
    .proceed victim, .proceed victim]

end Undone

theorem undoneKill_ends :
    ∃ s, exec Killing.step (bootKilling nproc) undoneKill = some s ∧ s.marked victim = true ∧
    (s.proc victim).killed = 0 ∧ s.late victim = true ∧
    (s.step (.instruction victim)).isSome = true :=
  ⟨_, rfl, rfl, rfl, rfl, rfl⟩

/-- The child was killed before its store fault, and runs on after it. -/
theorem kill_undone :
    ¬ Throughout Killing.step Killing.Respected (bootKilling nproc) undoneKill := by
  intro respected
  obtain ⟨s, ended, marked, undone, _⟩ := undoneKill_ends
  exact (respected.final ended victim).1 marked undone

end EnhancedXv6.Process
