import EnhancedXv6.Foundation.Ownership
import EnhancedXv6.Scheduler.Clock

/-! The RR loop of `scheduler` and `sched_pbs` on several CPUs. Both dispatch a process under the
lock under which they have seen it RUNNABLE; `sched_pbs` keeps that lock while it scans the rest of
the table. A step is one section under process locks, or the part of one up to a `swtch`. -/

namespace EnhancedXv6.Scheduler

open Foundation Process Function Option Finset

/-- The two builds whose schedulers hold a lock between look and dispatch. -/
inductive Loop where
  | rr
  | pbs
  deriving DecidableEq, Repr

/-- Where a CPU is: in the scan with the slot it looks at next and the slot selected so far, at
the assignments before `swtch`, in the context of a process that still holds the lock taken for
it, in a process that runs, or back in the scheduler with the lock that the process took. -/
inductive LoopPc (n : Nat) where
  | scan (next : Nat) (selected : Option (Fin n))
  | chosen (slot : Fin n)
  | entered (slot : Fin n)
  | running (slot : Fin n)
  | back (slot : Fin n)
  deriving DecidableEq, Repr

/-- The process table, with `c->proc`, the process locks and the place of every CPU. -/
structure Handover (n m : Nat) where
  proc : Table n
  current : Fin m → Option (Fin n)
  held : Fin m → Finset (Fin n)
  pc : Fin m → LoopPc n
  ticks : Nat
  /-- An `int` of the source that has not overflowed. -/
  nextpid : Int

/-- The sections under the lock of one slot that a running process or an interrupt makes. -/
inductive Visit where
  | wakeup (chan : Chan)
  | kill
  | allocproc
  | runnable
  | freeproc
  | clock
  | prioritize (priority : Int)
  deriving DecidableEq, Repr

def Visit.apply (visit : Visit) (ticks : Nat) (nextpid : Int) (p : Proc) : Option Proc :=
  match visit with
  | .wakeup chan => some (p.wakeupOn chan ticks)
  | .kill => some (p.killedBy ticks)
  | .allocproc => if p.state = .unused then some ((p.found nextpid ticks).started ticks) else none
  | .runnable => if p.state = .used then some { p with state := .runnable } else none
  | .freeproc => if p.state = .zombie ∨ p.state = .used then some (p.freed ticks) else none
  | .clock => some (clocked p)
  | .prioritize priority => some (Proc.prioritize p priority)

/-- `scan`, `dispatch` and `back` are steps of the scheduler of a CPU, `resume`, `yield`, `sleep`
and `exit` of the process that it has switched to. -/
inductive Handover.Event (n m : Nat) where
  | scan (c : Fin m)
  | dispatch (c : Fin m)
  | resume (c : Fin m)
  | yield (c : Fin m)
  | sleep (c : Fin m) (chan : Chan)
  | exit (c : Fin m) (status : Int)
  | back (c : Fin m)
  | visit (slot : Fin n) (visit : Visit)
  | tick

variable {n m : Nat}

def Handover.setProc (s : Handover n m) (slot : Fin n) (p : Proc) : Handover n m :=
  { s with proc := Function.update s.proc slot p }

/-- A CPU goes to a place with the locks that it then holds. -/
def Handover.goto (s : Handover n m) (c : Fin m) (pc : LoopPc n) (current : Option (Fin n))
    (held : Finset (Fin n)) : Handover n m :=
  { s with
    pc := Function.update s.pc c pc
    current := Function.update s.current c current
    held := Function.update s.held c held }

/-- `acquire` spins while another CPU holds the lock. -/
def Handover.Available (s : Handover n m) (c : Fin m) (slot : Fin n) : Prop :=
  ∀ d, d ≠ c → slot ∉ s.held d

instance Handover.decidableAvailable (s : Handover n m) (c : Fin m) (slot : Fin n) :
    Decidable (s.Available c slot) :=
  inferInstanceAs (Decidable (∀ d, d ≠ c → slot ∉ s.held d))

/-- The locks of a CPU after `acquire`, which panics on a lock that the CPU holds. -/
def acquired (held : Finset (Fin n)) (slot : Fin n) : Option (Finset (Fin n)) :=
  if slot ∈ held then none else some (insert slot held)

/-- The locks of a CPU after `release`, which panics on a lock that the CPU does not hold. -/
def released (held : Finset (Fin n)) (slot : Fin n) : Option (Finset (Fin n)) :=
  if slot ∈ held then some (held.erase slot) else none

/-- One round of the loop of a scheduler, on a slot that no other CPU has locked. -/
def Loop.round (loop : Loop) (s : Handover n m) (c : Fin m) (slot : Fin n)
    (selected : Option (Fin n)) : Option (Handover n m) :=
  match loop with
  | .rr =>
    (acquired (s.held c) slot).bind fun held =>
      if (s.proc slot).state = .runnable then some (s.goto c (.chosen slot) (s.current c) held)
      else (released held slot).map fun held => s.goto c (.scan (slot + 1) none) (s.current c) held
  | .pbs =>
    (pbsRound { table := s.proc, selected := selected, locked := s.held c } slot).map fun scan =>
      { s with proc := scan.table }.goto c (.scan (slot + 1) scan.selected)
        (s.current c) scan.locked

/-- The end of the loop: RR starts anew, `sched_pbs` runs the process that it has selected or is
called again. -/
def Loop.finish (loop : Loop) (s : Handover n m) (c : Fin m) (selected : Option (Fin n)) :
    Handover n m :=
  match loop, selected with
  | .pbs, some slot => s.goto c (.chosen slot) (s.current c) (s.held c)
  | .pbs, none => s.goto c (.scan 0 (s.current c)) (s.current c) (s.held c)
  | .rr, _ => s.goto c (.scan 0 none) (s.current c) (s.held c)

/-- Where the scan goes on after a dispatch: the RR loop at the next slot, `sched_pbs` from the
start when it is called again. -/
def Loop.resumeAt : Loop → Fin n → Nat
  | .rr, slot => slot + 1
  | .pbs, _ => 0

/-- The assignments before `swtch`. -/
def Loop.run : Loop → Proc → Proc
  | .rr, p => { p with state := .running }
  | .pbs, p => runPbs p

/-- The process that runs on a CPU takes its own lock, changes its state and switches back to
the scheduler. -/
def Handover.giveUp (s : Handover n m) (c : Fin m) (change : Proc → Proc) : Option (Handover n m) :=
  match s.pc c with
  | .running slot =>
    if s.Available c slot then
      (acquired (s.held c) slot).map fun held =>
        (s.setProc slot (change (s.proc slot))).goto c (.back slot) (s.current c) held
    else none
  | _ => none

def Handover.step (loop : Loop) (s : Handover n m) : Handover.Event n m → Option (Handover n m)
  | .scan c =>
    match s.pc c with
    | .scan next selected =>
      if inside : next < n then
        if s.Available c ⟨next, inside⟩ then loop.round s c ⟨next, inside⟩ selected else none
      else some (loop.finish s c selected)
    | _ => none
  | .dispatch c =>
    match s.pc c with
    | .chosen slot =>
      some ((s.setProc slot (loop.run (s.proc slot))).goto c (.entered slot) (some slot) (s.held c))
    | _ => none
  | .resume c =>
    match s.pc c with
    | .entered slot =>
      -- `sleep` clears its channel before it releases the lock; elsewhere it is null already
      (released (s.held c) slot).map fun held =>
        (s.setProc slot { s.proc slot with chan := none }).goto c (.running slot) (s.current c) held
    | _ => none
  | .yield c => s.giveUp c fun p => { p with state := .runnable }
  | .sleep c chan => s.giveUp c fun p => { p with chan := some chan, state := .sleeping }
  | .exit c status =>
    s.giveUp c fun p => { p with xstate := status, state := .zombie, etime := s.ticks }
  | .back c =>
    match s.pc c with
    | .back slot =>
      (released (s.held c) slot).map fun held =>
        s.goto c (.scan (loop.resumeAt slot) none) none held
    | _ => none
  | .visit slot visit =>
    if ∀ d, slot ∉ s.held d then
      (visit.apply s.ticks s.nextpid (s.proc slot)).map fun p =>
        { s.setProc slot p with nextpid := if visit = .allocproc then s.nextpid + 1 else s.nextpid }
    else none
  | .tick => some { s with ticks := (s.ticks + 1) % 2 ^ 32 }

def Handover.start (table : Table n) (m : Nat) : Handover n m where
  proc := table
  current _ := none
  held _ := ∅
  pc _ := .scan 0 none
  ticks := 0
  nextpid := 1

/-- No process is `c->proc` of two CPUs. -/
def Handover.Exclusive (s : Handover n m) : Prop :=
  Sole fun c slot => s.current c = some slot

/-- A dispatch changes a RUNNABLE process to RUNNING, and its CPU then holds the lock of that
process and no other one. -/
def Handover.DispatchesUnderLock (loop : Loop) (s : Handover n m) : Handover.Event n m → Prop
  | .dispatch c => ∀ t, s.step loop (.dispatch c) = some t →
    ∃ slot, t.current c = some slot ∧ (s.proc slot).state = .runnable ∧
      (t.proc slot).state = .running ∧ t.held c = {slot}
  | _ => True

section Invariant

/-- What a CPU holds at its place, and what it knows of the process there. -/
def LoopPc.Fits (loop : Loop) (table : Table n) (current : Option (Fin n))
    (held : Finset (Fin n)) : LoopPc n → Prop
  | .scan next selected => current = none ∧ held = selected.toFinset ∧
    ∀ slot, selected = some slot → loop = .pbs ∧ (table slot).state = .runnable ∧ slot.val < next
  | .chosen slot => current = none ∧ held = {slot} ∧ (table slot).state = .runnable
  | .entered slot => current = some slot ∧ held = {slot} ∧ (table slot).state = .running
  | .running slot => current = some slot ∧ held = ∅ ∧ (table slot).state = .running
  | .back slot => current = some slot ∧ held = {slot}

structure Handover.Inv (loop : Loop) (s : Handover n m) : Prop where
  fits : ∀ c, (s.pc c).Fits loop s.proc (s.current c) (s.held c)
  distinct : Sole fun c slot => slot ∈ s.held c
  exclusive : s.Exclusive

variable {loop : Loop} {table : Table n} {current : Option (Fin n)} {held : Finset (Fin n)}
  {pc : LoopPc n} {slot : Fin n} {p : Proc}

theorem LoopPc.Fits.running (fits : pc.Fits loop table (some slot) held) (free : slot ∉ held) :
    (table slot).state = .running := by
  cases pc with
  | scan | chosen => cases fits.1
  | entered | running =>
    obtain ⟨same, locked, runs⟩ := fits
    cases same
    exact runs
  | back other =>
    obtain ⟨same, locked⟩ := fits
    cases same
    exact absurd (locked ▸ mem_singleton_self slot) free

theorem LoopPc.Fits.update (fits : pc.Fits loop table current held) (free : slot ∉ held)
    (runs : current = some slot → p.state = .running) :
    pc.Fits loop (update table slot p) current held := by
  have other {best : Fin n} (locked : held = {best}) : best ≠ slot := by
    rintro rfl
    exact free (locked ▸ mem_singleton_self best)
  cases pc with
  | scan next selected =>
    obtain ⟨vacant, locked, waits⟩ := fits
    refine ⟨vacant, locked, fun best chosen => ?_⟩
    rw [update_of_ne (other (by rw [locked, chosen, toFinset_some]))]
    exact waits best chosen
  | chosen best =>
    obtain ⟨vacant, locked, waits⟩ := fits
    refine ⟨vacant, locked, ?_⟩
    rw [update_of_ne (other locked)]
    exact waits
  | entered best =>
    obtain ⟨here, locked, run⟩ := fits
    refine ⟨here, locked, ?_⟩
    rw [update_of_ne (other locked)]
    exact run
  | running best =>
    obtain ⟨here, empty, run⟩ := fits
    refine ⟨here, empty, ?_⟩
    by_cases same : best = slot
    · rw [same, update_self]
      exact runs (same ▸ here)
    · rw [update_of_ne same]
      exact run
  | back best => exact fits

end Invariant

section Steps

variable {loop : Loop} {s t : Handover n m} {c : Fin m} {slot : Fin n} {p : Proc} {pc : LoopPc n}
  {current : Option (Fin n)} {held : Finset (Fin n)}

theorem Handover.start_inv (table : Table n) (m : Nat) : (start table m).Inv loop where
  fits _ := ⟨rfl, rfl, fun _ absent => by cases absent⟩
  distinct := by simp [Sole, start]
  exclusive := by simp [Handover.Exclusive, Sole, start]

section

variable (inv : s.Inv loop)

include inv

/-- A process that does not run and whose lock no other CPU holds is `c->proc` of none of them. -/
theorem Handover.Inv.absent_of_idle (available : s.Available c slot)
    (idle : (s.proc slot).state ≠ .running) : ∀ d, d ≠ c → s.current d ≠ some slot := by
  intro d other here
  have fits := inv.fits d
  rw [here] at fits
  exact idle (fits.running (available d other))

theorem Handover.Inv.absent_of_current (here : s.current c = some slot) :
    ∀ d, d ≠ c → s.current d ≠ some slot := by
  intro d other there
  exact other (inv.exclusive d c slot there here)

theorem Handover.Inv.available_of_held (locked : slot ∈ s.held c) : s.Available c slot := by
  intro d other there
  exact other (inv.distinct d c slot there locked)

/-- A CPU moves, and the process in one slot changes that no other CPU has. -/
theorem Handover.Inv.move (fits : pc.Fits loop (update s.proc slot p) current held)
    (available : s.Available c slot) (absent : ∀ d, d ≠ c → s.current d ≠ some slot)
    (locks : ∀ l ∈ held, l = slot ∨ l ∈ s.held c)
    (source : ∀ l, current = some l → l = slot ∨ s.current c = some l) :
    ((s.setProc slot p).goto c pc current held).Inv loop where
  fits d := by
    unfold setProc goto
    dsimp only
    by_cases same : d = c
    · rw [same, update_self, update_self, update_self]
      exact fits
    · rw [update_of_ne same, update_of_ne same, update_of_ne same]
      exact (inv.fits d).update (available d same) fun here => absurd here (absent d same)
  distinct := by
    refine Sole.update (o := fun held l => l ∈ held) inv.distinct fun l locked d other there => ?_
    rcases locks l locked with rfl | before
    · exact available d other there
    · exact other (inv.distinct d c l there before)
  exclusive := by
    refine Sole.update (o := fun x l => x = some l) inv.exclusive fun l here d other there => ?_
    rcases source l here with rfl | before
    · exact absent d other there
    · exact other (inv.exclusive d c l there before)

theorem Handover.Inv.pass (fits : pc.Fits loop s.proc (s.current c) (s.held c)) :
    (s.goto c pc (s.current c) (s.held c)).Inv loop where
  fits d := by
    unfold goto
    rw [update_eq_self, update_eq_self]
    dsimp only
    by_cases same : d = c
    · rw [same, update_self]
      exact fits
    · rw [update_of_ne same]
      exact inv.fits d
  distinct := by
    unfold goto
    rw [update_eq_self, update_eq_self]
    exact inv.distinct
  exclusive := by
    unfold goto
    rw [update_eq_self, update_eq_self]
    exact inv.exclusive

theorem Handover.Inv.relock (fits : pc.Fits loop s.proc current held)
    (available : s.Available c slot) (absent : ∀ d, d ≠ c → s.current d ≠ some slot)
    (locks : ∀ l ∈ held, l = slot ∨ l ∈ s.held c)
    (source : ∀ l, current = some l → l = slot ∨ s.current c = some l) :
    (s.goto c pc current held).Inv loop := by
  have same : s.setProc slot (s.proc slot) = s := by
    unfold setProc
    rw [update_eq_self]
  have moved := inv.move (p := s.proc slot) (by rwa [update_eq_self]) available absent locks source
  rwa [same] at moved

end

@[simp]
theorem released_singleton : released {slot} slot = some ∅ := by
  rw [released, if_pos (mem_singleton_self slot), erase_singleton]

@[simp]
theorem acquired_empty : acquired ∅ slot = some {slot} := rfl

theorem pbsRound_isSome {table : Table n} {selected : Option (Fin n)}
    (free : slot ∉ selected.toFinset) :
    (pbsRound { table := table, selected := selected, locked := selected.toFinset } slot).isSome =
      true := by
  have release {scan : PbsScan n} {l : Fin n} (held : l ∈ scan.locked) :
      (scan.release l).isSome = true := by
    rw [PbsScan.release, if_pos held]
    rfl
  unfold pbsRound PbsScan.acquire
  rw [if_neg free, bind_some]
  dsimp only
  split
  · exact release (mem_insert_self slot _)
  · cases selected with
    | none => rfl
    | some best =>
      have handed {scan : PbsScan n} (held : best ∈ scan.locked) :
          (scan.takeOver best slot).isSome = true := by
        rw [PbsScan.takeOver, isSome_map]
        exact release held
      have kept : best ∈ insert slot (some best).toFinset := by simp
      dsimp only
      split_ifs
      iterate 3 exact handed kept
      exact release (mem_insert_self slot _)

/-- The outcomes of a round of `sched_pbs` that starts with the lock of the selected process. -/
theorem pbsRound_cases {table : Table n} {selected : Option (Fin n)} {scan : PbsScan n}
    (taken :
      pbsRound
      { table := table, selected := selected, locked := selected.toFinset } slot = some scan) :
    (table slot).state ≠ .runnable ∧
      scan = { table := table, selected := selected, locked := selected.toFinset } ∨
      (table slot).state = .runnable ∧ scan.table = update table slot (score (table slot)) ∧
        (scan.selected = some slot ∨ scan.selected = selected) ∧
        scan.locked = scan.selected.toFinset := by
  unfold pbsRound PbsScan.acquire at taken
  dsimp only at taken
  split at taken
  · cases taken
  · rename_i free
    rw [bind_some] at taken
    have put : slot ∈ insert slot selected.toFinset := mem_insert_self slot _
    have back : (insert slot selected.toFinset).erase slot = selected.toFinset := erase_insert free
    dsimp only at taken
    split at taken
    · rename_i idle
      rw [PbsScan.release, if_pos put, some_inj, back] at taken
      exact .inl ⟨idle, taken.symm⟩
    · rename_i waits
      refine .inr ⟨not_not.mp waits, ?_⟩
      cases selected with
      | none =>
        cases taken
        exact ⟨rfl, .inl rfl, rfl⟩
      | some best =>
        have other : best ≠ slot := by
          rintro rfl
          exact free (by simp)
        have rest : (insert slot (some best).toFinset).erase best = {slot} := by
          rw [toFinset_some, pair_comm, erase_insert (by simpa using other)]
        have handed (table : Table n) :
            (⟨table, some best, insert slot (some best).toFinset⟩ : PbsScan n).takeOver best slot =
              some ⟨table, some slot, {slot}⟩ := by
          rw [PbsScan.takeOver, PbsScan.release, if_pos (by simp), map_some, rest]
        dsimp only at taken
        rw [handed] at taken
        split_ifs at taken
        iterate 3
          · cases taken
            exact ⟨rfl, .inl rfl, rfl⟩
        · rw [PbsScan.release, if_pos put, some_inj, back] at taken
          cases taken
          exact ⟨rfl, .inr rfl, rfl⟩

theorem Handover.Inv.round {selected : Option (Fin n)} (inv : s.Inv loop)
    (place : s.pc c = .scan slot selected) (available : s.Available c slot)
    (taken : loop.round s c slot selected = some t) : t.Inv loop := by
  have fits := inv.fits c
  rw [place] at fits
  obtain ⟨vacant, locked, waits⟩ := fits
  unfold Loop.round at taken
  cases loop with
  | rr =>
    have empty : s.held c = ∅ := by
      cases selected with
      | none => exact locked
      | some best => cases (waits best rfl).1
    dsimp only at taken
    rw [empty, acquired_empty, bind_some, released_singleton, map_some] at taken
    split at taken
    · rename_i ready
      cases taken
      refine inv.relock ⟨vacant, rfl, ready⟩ available ?_ ?_ fun l here => .inr here
      · exact inv.absent_of_idle available (by rw [ready]; simp)
      · intro l member
        exact .inl (mem_singleton.mp member)
    · cases taken
      rw [← empty]
      exact inv.pass ⟨vacant, empty, fun _ absent => by cases absent⟩
  | pbs =>
    dsimp only at taken
    obtain ⟨scan, rounded, rfl⟩ := map_eq_some_iff.mp taken
    rw [locked] at rounded
    have later (best : Fin n) (chosen : selected = some best) : best.val < slot.val + 1 :=
      (waits best chosen).2.2.trans (Nat.lt_succ_self _)
    rcases pbsRound_cases rounded with ⟨idle, rfl⟩ | ⟨ready, table, chosen, locks⟩
    · dsimp only
      rw [← locked]
      exact inv.pass
        ⟨vacant, locked, fun best chosen => ⟨rfl, (waits best chosen).2.1, later best chosen⟩⟩
    · rw [table]
      have waiting (best : Fin n) (kept : scan.selected = some best) :
          (update s.proc slot (score (s.proc slot)) best).state = .runnable ∧
          best.val < slot.val + 1 := by
        by_cases same : best = slot
        · rw [same, update_self]
          exact ⟨ready, Nat.lt_succ_self _⟩
        · rw [update_of_ne same]
          rcases chosen with new | old
          · exact absurd (some.inj (kept.symm.trans new)) same
          · exact ⟨(waits best (old ▸ kept)).2.1, later best (old ▸ kept)⟩
      refine inv.move ⟨vacant, locks, fun best kept => ⟨rfl, waiting best kept⟩⟩ available ?_ ?_
        fun l here => .inr here
      · exact inv.absent_of_idle available (by rw [ready]; simp)
      · intro l member
        rw [locks, mem_toFinset] at member
        rcases chosen with new | old
        · exact .inl (some.inj ((mem_def.mp member).symm.trans new))
        · rw [locked, mem_toFinset, ← old]
          exact .inr member

/-- No round panics: a CPU acquires no lock that it holds, and releases none that it does not. -/
theorem Handover.Inv.round_isSome {selected : Option (Fin n)} (inv : s.Inv loop)
    (place : s.pc c = .scan slot selected) : (loop.round s c slot selected).isSome = true := by
  have fits := inv.fits c
  rw [place] at fits
  obtain ⟨_, locked, waits⟩ := fits
  have free : slot ∉ selected.toFinset := by
    intro member
    exact lt_irrefl _ (waits slot (mem_toFinset.mp member)).2.2
  unfold Loop.round
  cases loop with
  | rr =>
    have put : slot ∈ insert slot selected.toFinset := mem_insert_self slot _
    dsimp only
    rw [locked, acquired, if_neg free, bind_some, released, if_pos put]
    split <;> rfl
  | pbs =>
    rw [isSome_map, locked]
    exact pbsRound_isSome free

theorem Handover.Inv.finish {selected : Option (Fin n)} {next : Nat} (inv : s.Inv loop)
    (place : s.pc c = .scan next selected) : (loop.finish s c selected).Inv loop := by
  have fits := inv.fits c
  rw [place] at fits
  obtain ⟨vacant, locked, waits⟩ := fits
  cases selected with
  | none =>
    have again : (LoopPc.scan 0 none).Fits loop s.proc (s.current c) (s.held c) :=
      ⟨vacant, locked, fun _ absent => by cases absent⟩
    cases loop with
    | rr => exact inv.pass again
    | pbs =>
      unfold Loop.finish
      dsimp only
      rw [vacant] at again ⊢
      exact vacant ▸ inv.pass (vacant ▸ again)
  | some slot =>
    obtain ⟨rfl, ready, _⟩ := waits slot rfl
    exact inv.pass ⟨vacant, locked, ready⟩

theorem Handover.Inv.giveUp {change : Proc → Proc} (inv : s.Inv loop)
    (taken : s.giveUp c change = some t) : t.Inv loop := by
  unfold Handover.giveUp at taken
  split at taken
  · rename_i slot place
    split at taken
    · rename_i available
      have fits := inv.fits c
      rw [place] at fits
      obtain ⟨here, empty, runs⟩ := fits
      rw [empty, acquired_empty, map_some] at taken
      cases taken
      refine inv.move ⟨here, rfl⟩ available (inv.absent_of_current here) ?_ fun l same => .inr same
      intro l member
      exact .inl (mem_singleton.mp member)
    · cases taken
  · cases taken

theorem Visit.apply_running {visit : Visit} {ticks : Nat} {nextpid : Int} {q : Proc}
    (applied : visit.apply ticks nextpid p = some q) (runs : p.state = .running) :
    q.state = .running := by
  cases visit with
  | wakeup chan =>
    cases applied
    simp [Proc.wakeupOn, runs]
  | kill =>
    cases applied
    simp [Proc.killedBy, runs]
  | allocproc | runnable | freeproc => simp [apply, runs] at applied
  | clock =>
    cases applied
    rw [clocked_state, runs]
  | prioritize priority =>
    cases applied
    exact runs

theorem Handover.Inv.visit (inv : s.Inv loop) (free : ∀ d, slot ∉ s.held d)
    (runs : (s.proc slot).state = .running → p.state = .running) : (s.setProc slot p).Inv loop where
  fits d := by
    refine (inv.fits d).update (free d) fun here => runs ?_
    have fits := inv.fits d
    rw [here] at fits
    exact fits.running (free d)
  distinct := inv.distinct
  exclusive := inv.exclusive

theorem Handover.Inv.step {event : Handover.Event n m} (inv : s.Inv loop)
    (taken : s.step loop event = some t) : t.Inv loop := by
  cases event with
  | scan c =>
    simp only [Handover.step] at taken
    split at taken
    · rename_i next selected place
      split_ifs at taken with inside available
      · exact inv.round place available taken
      · cases taken
        exact inv.finish place
    · cases taken
  | dispatch c =>
    simp only [Handover.step] at taken
    split at taken
    · rename_i slot place
      cases taken
      have fits := inv.fits c
      rw [place] at fits
      obtain ⟨vacant, locked, ready⟩ := fits
      have available := inv.available_of_held (locked ▸ mem_singleton_self slot)
      refine inv.move ⟨rfl, locked, ?_⟩ available ?_ (fun l member => .inr member) fun l same => ?_
      · rw [update_self]
        cases loop <;> rfl
      · exact inv.absent_of_idle available (by rw [ready]; simp)
      · exact .inl (some.inj same).symm
    · cases taken
  | resume c =>
    simp only [Handover.step] at taken
    split at taken
    · rename_i slot place
      have fits := inv.fits c
      rw [place] at fits
      obtain ⟨here, locked, runs⟩ := fits
      have available := inv.available_of_held (locked ▸ mem_singleton_self slot)
      rw [locked, released_singleton, map_some] at taken
      cases taken
      refine inv.move ⟨here, rfl, ?_⟩ available (inv.absent_of_current here) (by simp)
        fun l same => .inr same
      rw [update_self]
      exact runs
    · cases taken
  | yield c | sleep c chan | exit c status =>
    simp only [Handover.step] at taken
    exact inv.giveUp taken
  | back c =>
    simp only [Handover.step] at taken
    split at taken
    · rename_i slot place
      have fits := inv.fits c
      rw [place] at fits
      obtain ⟨here, locked⟩ := fits
      have available := inv.available_of_held (locked ▸ mem_singleton_self slot)
      rw [locked, released_singleton, map_some] at taken
      cases taken
      exact inv.relock ⟨rfl, rfl, fun _ absent => by cases absent⟩ available
        (inv.absent_of_current here) (by simp)
        fun _ absent => by cases absent
    · cases taken
  | visit slot visit =>
    simp only [Handover.step] at taken
    split at taken
    · rename_i free
      obtain ⟨p, applied, rfl⟩ := map_eq_some_iff.mp taken
      have visited := inv.visit free (Visit.apply_running applied)
      exact ⟨visited.fits, visited.distinct, visited.exclusive⟩
    · cases taken
  | tick =>
    cases taken
    exact ⟨inv.fits, inv.distinct, inv.exclusive⟩

theorem Handover.Inv.dispatchesUnderLock (inv : s.Inv loop) (event : Handover.Event n m) :
    s.DispatchesUnderLock loop event := by
  cases event with
  | dispatch c =>
    intro t taken
    simp only [Handover.step] at taken
    split at taken
    · rename_i slot place
      cases taken
      have fits := inv.fits c
      rw [place] at fits
      obtain ⟨vacant, locked, ready⟩ := fits
      refine ⟨slot, ?_, ready, ?_, ?_⟩
      · exact update_self _ _ _
      · change (update s.proc slot (loop.run (s.proc slot)) slot).state = .running
        rw [update_self]
        cases loop <;> rfl
      · exact (update_self _ _ _).trans locked
    · cases taken
  | _ => trivial

/-- The `acquire` or `release` that a CPU is at does not panic: those of a round of the scan, the
`release` of the process that was switched to, its `acquire` when it gives up the CPU, and the
`release` of the scheduler then. -/
def Handover.Unpanicked (loop : Loop) (s : Handover n m) (c : Fin m) : Prop :=
  match s.pc c with
  | .scan next selected =>
    ∀ inside : next < n, (loop.round s c ⟨next, inside⟩ selected).isSome = true
  | .chosen _ => True
  | .entered slot => (released (s.held c) slot).isSome = true
  | .running slot => (acquired (s.held c) slot).isSome = true
  | .back slot => (released (s.held c) slot).isSome = true

theorem Handover.Inv.unpanicked (inv : s.Inv loop) (c : Fin m) : s.Unpanicked loop c := by
  have fits := inv.fits c
  unfold Handover.Unpanicked
  cases place : s.pc c with
  | scan next selected =>
    intro inside
    exact inv.round_isSome place
  | chosen slot => trivial
  | entered slot | back slot =>
    rw [place] at fits
    simp [fits.2]
  | running slot =>
    rw [place] at fits
    simp [fits.2.1]

/-- The scheduler of a CPU, or the process that it has just switched to, can take a step. -/
def Handover.GoesOn (loop : Loop) (s : Handover n m) : Prop :=
  ∃ d, ∃ event ∈ [Handover.Event.scan d, .dispatch d, .resume d, .back d],
    (s.step loop event).isSome = true

def LoopPc.left : LoopPc n → Nat
  | .scan next _ => n - next
  | _ => 0

theorem Handover.Inv.left_lt {next : Nat} {d : Fin m} (inv : s.Inv loop) (inside : next < n)
    (member : ⟨next, inside⟩ ∈ s.held d) : (s.pc d).left < n - next := by
  have fits := inv.fits d
  cases there : s.pc d with
  | scan later selected =>
    rw [there] at fits
    obtain ⟨_, locked, behind⟩ := fits
    rw [locked, mem_toFinset] at member
    have order := (behind _ member).2.2
    dsimp only [LoopPc.left] at *
    omega
  | _ => exact Nat.sub_pos_of_lt inside

theorem Handover.Inv.goesOn (inv : s.Inv loop) (c : Fin m) (off : ∀ slot, s.pc c ≠ .running slot) :
    s.GoesOn loop := by
  induction left : (s.pc c).left using Nat.strong_induction_on generalizing c with
  | _ k ih =>
    cases place : s.pc c with
    | running slot => exact absurd place (off slot)
    | chosen slot => exact ⟨c, .dispatch c, by simp, by simp [Handover.step, place]⟩
    | entered slot =>
      have calm := inv.unpanicked c
      exact ⟨c, .resume c, by simp, by simpa [Handover.step, Handover.Unpanicked, place] using calm⟩
    | back slot =>
      have calm := inv.unpanicked c
      exact ⟨c, .back c, by simp, by simpa [Handover.step, Handover.Unpanicked, place] using calm⟩
    | scan next selected =>
      by_cases inside : next < n
      · by_cases available : s.Available c ⟨next, inside⟩
        · have round : (loop.round s c ⟨next, inside⟩ selected).isSome = true :=
            inv.round_isSome place
          refine ⟨c, .scan c, by simp, ?_⟩
          simpa [Handover.step, place, inside, available] using round
        · -- another CPU has the lock, and that one is closer to the end of its scan
          obtain ⟨d, _, held⟩ : ∃ d, d ≠ c ∧ ⟨next, inside⟩ ∈ s.held d := by
            simpa [Handover.Available] using available
          have closer := inv.left_lt inside held
          rw [place] at left
          refine ih _ (left ▸ closer) d (fun slot runs => ?_) rfl
          have fits := inv.fits d
          rw [runs] at fits
          rw [fits.2.1] at held
          exact absurd held (notMem_empty _)
      · exact ⟨c, .scan c, by simp, by simp [Handover.step, place, inside]⟩

end Steps

/-- In every run of either scheduler, from any table and on any number of CPUs, a process is on
one CPU at most, and it is dispatched from RUNNABLE under its own lock and no other one. -/
theorem dispatch_under_lock (loop : Loop) (table : Table n) (m : Nat)
    (events : List (Handover.Event n m)) :
    Throughout (Handover.step loop) Handover.Exclusive (Handover.start table m) events ∧
      Along (Handover.step loop) (Handover.DispatchesUnderLock loop)
        (Handover.start table m) events := by
  have inv : Throughout (Handover.step loop) (Handover.Inv loop) (Handover.start table m) events :=
    throughout_of_preserved (fun s event t inv taken => inv.step taken) (Handover.start_inv table m)
  constructor
  · exact inv.mono fun s holds => holds.exclusive
  · exact inv.along fun s event holds => holds.dispatchesUnderLock event

/-- No run of either scheduler panics in `acquire` or `release`, or comes to a deadlock, though
`sched_pbs` takes process locks while it holds one: as long as a CPU is not in a process, some CPU
can go on. -/
theorem schedulers_never_deadlock (loop : Loop) (table : Table n) (m : Nat)
    (events : List (Handover.Event n m)) :
    Throughout (Handover.step loop)
      (fun s => ∀ c, s.Unpanicked loop c ∧ ((∀ slot, s.pc c ≠ .running slot) → s.GoesOn loop))
      (Handover.start table m) events := by
  have inv : Throughout (Handover.step loop) (Handover.Inv loop) (Handover.start table m) events :=
    throughout_of_preserved (fun s event t inv taken => inv.step taken) (Handover.start_inv table m)
  exact inv.mono fun s holds c => ⟨holds.unpanicked c, holds.goesOn c⟩

end EnhancedXv6.Scheduler
