import EnhancedXv6.Scheduler.Mlfq

namespace EnhancedXv6.Scheduler

open Foundation Process Function List Option

variable {n : Nat} {table : Table n}

/-- The `int` that an operation leaves. -/
def wrapInt (value : Int) : Int :=
  value.bmod (2 ^ 32)

/-- The division of the machine, with −1 for a division by zero. -/
def divw (dividend divisor : Int) : Int :=
  if divisor = 0 then -1 else wrapInt (dividend.tdiv divisor)

/-- The first assignment of `sched_pbs` to `dynamic_priority`. -/
def recentBehaviour (p : Proc) : Int :=
  divw (wrapInt (wrapInt (wrapInt (wrapInt (3 * p.runTime) - p.waitTime) - p.sleepTime) * 50))
    (wrapInt (wrapInt (wrapInt (p.runTime + p.waitTime) + p.sleepTime) + 1))

def dynamicPriority (p : Proc) : Int :=
  let raised := if recentBehaviour p < 0 then 0 else recentBehaviour p
  let sum := wrapInt (raised + p.priority)
  if 100 < sum then 100 else sum

def score (p : Proc) : Proc :=
  { p with dynamicPriority := dynamicPriority p }

/-- The table, the selected process, and the process locks that the CPU holds. -/
structure PbsScan (n : Nat) where
  table : Table n
  selected : Option (Fin n)
  locked : Finset (Fin n)

/-- `acquire` panics on a lock that the CPU holds. -/
def PbsScan.acquire (s : PbsScan n) (slot : Fin n) : Option (PbsScan n) :=
  if slot ∈ s.locked then none else some { s with locked := insert slot s.locked }

/-- `release` panics on a lock that it does not hold. -/
def PbsScan.release (s : PbsScan n) (slot : Fin n) : Option (PbsScan n) :=
  if slot ∈ s.locked then some { s with locked := s.locked.erase slot } else none

/-- The selected process makes room for the one in `slot`, which stays locked. -/
def PbsScan.takeOver (s : PbsScan n) (best slot : Fin n) : Option (PbsScan n) :=
  (s.release best).map fun s => { s with selected := some slot }

def pbsRound (s : PbsScan n) (slot : Fin n) : Option (PbsScan n) :=
  (s.acquire slot).bind fun s =>
    if (s.table slot).state ≠ .runnable then s.release slot
    else
      let s := { s with table := Function.update s.table slot (score (s.table slot)) }
      let p := s.table slot
      match s.selected with
      | none => some { s with selected := some slot }
      | some best =>
        let selected := s.table best
        if p.dynamicPriority < selected.dynamicPriority then s.takeOver best slot
        else if p.dynamicPriority = selected.dynamicPriority ∧ p.numShed < selected.numShed then
          s.takeOver best slot
        else if p.dynamicPriority = selected.dynamicPriority ∧ p.numShed = selected.numShed ∧
            p.ctime < selected.ctime then
          s.takeOver best slot
        else s.release slot

def pbsScan (table : Table n) : Option (PbsScan n) :=
  (List.finRange n).foldlM pbsRound { table := table, selected := none, locked := ∅ }

def runPbs (p : Proc) : Proc :=
  { p with
    state := .running, runTime := 0, waitTime := 0, sleepTime := 0,
    numShed := wrapInt (p.numShed + 1) }

/-- `sched_pbs` up to its `swtch`. -/
def schedPbs (table : Table n) : Option (PbsScan n) :=
  (pbsScan table).map fun s =>
    match s.selected with
    | none => s
    | some best => { s with table := Function.update s.table best (runPbs (s.table best)) }

section Selection

/-- The order of selection: the priority computed in this pass, the number of dispatches, the
time of creation, and the place in the table. -/
def pbsRank (table : Table n) (slot : Fin n) : Int ×ₗ Int ×ₗ Nat ×ₗ Fin n :=
  toLex
    (dynamicPriority (table slot), toLex ((table slot).numShed, toLex ((table slot).ctime, slot)))

theorem pbsRank_injective (table : Table n) : Function.Injective (pbsRank table) := by
  intro left right same
  exact congrArg (fun key => (ofLex (ofLex (ofLex key).2).2).2) same

/-- The comparisons of the loop are the order of selection, because the loop looks at a slot
after every smaller one. -/
theorem pbsRank_lt {slot best : Fin n} (earlier : best < slot) :
    pbsRank table slot < pbsRank table best ↔
      dynamicPriority (table slot) < dynamicPriority (table best) ∨
      dynamicPriority (table slot) = dynamicPriority (table best) ∧
      (table slot).numShed < (table best).numShed ∨
      dynamicPriority (table slot) = dynamicPriority (table best) ∧
        (table slot).numShed = (table best).numShed ∧ (table slot).ctime < (table best).ctime := by
  have later : ¬ slot < best := earlier.asymm
  simp only [pbsRank, Prod.Lex.toLex_lt_toLex, later, and_false, or_false]
  constructor
  · rintro (less | ⟨same, less | ⟨shed, less⟩⟩)
    · exact .inl less
    · exact .inr (.inl ⟨same, less⟩)
    · exact .inr (.inr ⟨same, shed, less⟩)
  · rintro (less | ⟨same, less⟩ | ⟨same, shed, less⟩)
    · exact .inl less
    · exact .inr ⟨same, .inl less⟩
    · exact .inr ⟨same, .inr ⟨shed, less⟩⟩

def scored (table : Table n) (slots : List (Fin n)) : Table n := fun slot =>
  if slot ∈ slots ∧ (table slot).state = .runnable then score (table slot) else table slot

theorem scored_new (absent : slot ∉ slots) : scored table slots slot = table slot :=
  if_neg fun both => absent both.1

theorem scored_waiting (waits : (table slot).state = .runnable) :
    scored table (slots ++ [slot]) = update (scored table slots) slot (score (table slot)) := by
  funext other
  by_cases same : other = slot
  · subst other
    rw [update_self, scored, if_pos ⟨by simp, waits⟩]
  · rw [update_of_ne same]
    simp [scored, same]

theorem scored_other (idle : (table slot).state ≠ .runnable) :
    scored table (slots ++ [slot]) = scored table slots := by
  funext other
  by_cases same : other = slot
  · subst other
    simp [scored, idle]
  · simp [scored, same]

/-- Where a scan is that has looked at the slots: the least waiting process is selected, and
its lock alone is held. -/
def scanned (table : Table n) (slots : List (Fin n)) (selected : Option (Fin n)) : PbsScan n :=
  { table := scored table slots, selected := selected, locked := selected.toFinset }

theorem acquire_scanned (absent : slot ∉ slots)
    (inside : ∀ best, selected = some best → best ∈ slots) :
    (scanned table slots selected).acquire slot =
      some { scanned table slots selected with locked := insert slot selected.toFinset } := by
  rw [PbsScan.acquire, if_neg]
  · rfl
  · intro held
    exact absent (inside slot (by simpa [scanned] using held))

theorem pbsRound_idle (absent : slot ∉ slots) (inside : ∀ best, selected = some best → best ∈ slots)
    (idle : (table slot).state ≠ .runnable) :
    pbsRound (scanned table slots selected) slot =
      some (scanned table (slots ++ [slot]) selected) := by
  have free : slot ∉ selected.toFinset := fun held => absent (inside slot (by simpa using held))
  rw [pbsRound, acquire_scanned absent inside, bind_some]
  simp only [scanned, scored_new absent, scored_other idle]
  rw [if_pos idle, PbsScan.release, if_pos (Finset.mem_insert_self _ _), Finset.erase_insert free]

theorem pbsRound_first (absent : slot ∉ slots) (waits : (table slot).state = .runnable) :
    pbsRound (scanned table slots none) slot =
      some (scanned table (slots ++ [slot]) (some slot)) := by
  rw [pbsRound, acquire_scanned absent (by simp), bind_some]
  simp [scanned, scored_new absent, scored_waiting waits, waits]

theorem pbsRound_compare (before : ∀ other ∈ slots, other < slot) (member : best ∈ slots)
    (waits : (table slot).state = .runnable) (waited : (table best).state = .runnable) :
    pbsRound (scanned table slots (some best)) slot = some (scanned table (slots ++ [slot])
      (if pbsRank table slot < pbsRank table best then some slot else some best)) := by
  have absent : slot ∉ slots := fun inside => absurd (before slot inside) (lt_irrefl slot)
  have different : best ≠ slot := ne_of_lt (before best member)
  have own : scored table (slots ++ [slot]) slot = score (table slot) := by
    rw [scored_waiting waits, update_self]
  have other : scored table (slots ++ [slot]) best = score (table best) := by
    rw [scored_waiting waits, update_of_ne different, scored, if_pos ⟨member, waited⟩]
  rw [pbsRound, acquire_scanned absent (by simpa using member), bind_some]
  simp only [scanned, scored_new absent, waits, ne_eq, not_true_eq_false, if_false,
    ← scored_waiting waits, own, other, PbsScan.takeOver, PbsScan.release, toFinset_some,
    Finset.mem_insert, Finset.mem_singleton, true_or, or_true, if_true, map_some]
  have handed : (insert slot {best} : Finset (Fin n)).erase best = {slot} := by
    rw [Finset.erase_insert_of_ne different.symm, Finset.erase_singleton]
    rfl
  have kept : (insert slot {best} : Finset (Fin n)).erase slot = {best} := by
    rw [Finset.erase_insert (by simpa using different.symm)]
  -- the three branches that take over are one comparison of the ranks
  simp only [score, handed, kept, ← ite_or, ← pbsRank_lt (before best member)]
  by_cases better : pbsRank table slot < pbsRank table best
  · rw [if_pos better, if_pos better, toFinset_some]
  · rw [if_neg better, if_neg better, toFinset_some]

def waiting (table : Table n) (slots : List (Fin n)) : List (Fin n) :=
  slots.filter fun slot => (table slot).state = .runnable

theorem waiting_append (table : Table n) (slots : List (Fin n)) (slot : Fin n) :
    waiting table (slots ++ [slot]) =
      if (table slot).state = .runnable then waiting table slots ++ [slot]
        else waiting table slots := by
  by_cases waits : (table slot).state = .runnable <;> simp [waiting, filter_append, waits]

/-- The loop over an increasing list of slots selects the least waiting process. -/
theorem pbsScan_eq (table : Table n) (slots : List (Fin n)) (increasing : slots.Pairwise (· < ·)) :
    slots.foldlM pbsRound { table := table, selected := none, locked := ∅ } =
      some (scanned table slots ((waiting table slots).argmin (pbsRank table))) := by
  induction slots using reverseRecOn with
  | nil =>
    have none : scored table [] = table := funext fun _ => if_neg (by simp)
    simp [scanned, waiting, none]
  | append_singleton slots slot ih =>
    obtain ⟨first, _, before⟩ := pairwise_append.mp increasing
    have earlier : ∀ other ∈ slots, other < slot := fun other member =>
      before other member slot (mem_singleton_self slot)
    have absent : slot ∉ slots := fun inside => absurd (earlier slot inside) (lt_irrefl slot)
    rw [foldlM_append, ih first, waiting_append]
    simp only [bind_eq_bind, bind_some, foldlM_cons, foldlM_nil, Option.pure_def, bind_fun_some]
    by_cases waits : (table slot).state = .runnable
    · rw [if_pos waits, argmin_concat]
      cases least : (waiting table slots).argmin (pbsRank table) with
      | none => exact pbsRound_first absent waits
      | some best =>
        have member := mem_filter.mp (argmin_mem least)
        exact pbsRound_compare earlier member.1 waits (by simpa using member.2)
    · rw [if_neg waits]
      apply pbsRound_idle absent _ waits
      intro best least
      exact mem_of_mem_filter (argmin_mem least)

/-- A process after the pass: the selected one is dispatched, and the others that wait keep
everything but their dynamic priority. -/
def passed (table : Table n) (selected : Option (Fin n)) : Table n := fun slot =>
  let p := table slot
  if selected = some slot then
    { p with
      state := .running
      dynamicPriority := dynamicPriority p
      runTime := 0
      waitTime := 0
      sleepTime := 0
      numShed := wrapInt (p.numShed + 1) }
  else if p.state = .runnable then { p with dynamicPriority := dynamicPriority p }
  else p

noncomputable def leastWaiting (table : Table n) : Option (Fin n) :=
  (waiting table (List.finRange n)).argmin (pbsRank table)

theorem mem_waiting_all : slot ∈ waiting table (finRange n) ↔ (table slot).state = .runnable := by
  simp [waiting]

theorem leastWaiting_eq_some : leastWaiting table = some best ↔ (table best).state = .runnable ∧
    ∀ other, (table other).state = .runnable → pbsRank table best ≤ pbsRank table other := by
  constructor
  · intro least
    obtain ⟨inside, smallest, _⟩ := argmin_eq_some_iff.mp least
    exact ⟨mem_waiting_all.mp inside, fun other waits => smallest other (mem_waiting_all.mpr waits)⟩
  · intro ⟨waits, lowest⟩
    cases least : leastWaiting table with
    | none =>
      rw [leastWaiting, argmin_eq_none] at least
      exact absurd (mem_waiting_all.mpr waits) (by simp [least])
    | some other =>
      obtain ⟨inside, smallest, _⟩ := argmin_eq_some_iff.mp least
      -- no two processes have one rank
      have same := pbsRank_injective table
        (le_antisymm (smallest best (mem_waiting_all.mpr waits))
          (lowest other (mem_waiting_all.mp inside)))
      exact congrArg some same

theorem leastWaiting_eq_none :
    leastWaiting table = none ↔ ∀ slot, (table slot).state ≠ .runnable := by
  rw [leastWaiting, argmin_eq_none, eq_nil_iff_forall_not_mem]
  exact forall_congr' fun slot => not_congr mem_waiting_all

theorem schedPbs_eq (table : Table n) : schedPbs table =
    some { table := passed table (leastWaiting table), selected := leastWaiting table,
           locked := (leastWaiting table).toFinset } := by
  have scan : pbsScan table = some (scanned table (finRange n) (leastWaiting table)) :=
    pbsScan_eq table _ (pairwise_lt_finRange n)
  have all : scored table (finRange n) = fun slot =>
      if (table slot).state = .runnable then score (table slot) else table slot := by
    funext slot
    simp [scored]
  rw [schedPbs, scan, map_some, scanned, all]
  cases least : leastWaiting table with
  | none =>
    have same : passed table none = fun slot =>
        if (table slot).state = .runnable then score (table slot) else table slot := by
      funext slot
      simp [passed, score]
    rw [same]
  | some best =>
    have waits := (leastWaiting_eq_some.mp least).1
    have same : passed table (some best) = update (fun slot =>
        if (table slot).state = .runnable then score (table slot) else table slot) best
        (runPbs (score (table best))) := by
      funext slot
      by_cases same : slot = best
      · subst slot
        simp [passed, runPbs, score]
      · simp [passed, same, Ne.symm same, score]
    simp only [same, waits, if_true]

/-- A pass dispatches the least waiting process, changes nothing else but the dynamic priority
of those that wait, and holds the lock of the process that it dispatches. -/
theorem sched_pbs_selects_least (table : Table n) : ∃ s, schedPbs table = some s ∧
    (∀ best, s.selected = some best ↔ (table best).state = .runnable ∧
      ∀ other, (table other).state = .runnable → pbsRank table best ≤ pbsRank table other) ∧
    (s.selected = none ↔ ∀ slot, (table slot).state ≠ .runnable) ∧
    s.table = passed table s.selected ∧ s.locked = s.selected.toFinset :=
  ⟨_, schedPbs_eq table, fun _ => leastWaiting_eq_some, leastWaiting_eq_none, rfl, rfl⟩

end Selection

end EnhancedXv6.Scheduler
