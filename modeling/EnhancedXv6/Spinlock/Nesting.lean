import EnhancedXv6.Foundation.Run
import EnhancedXv6.Spinlock.Spinlock

namespace EnhancedXv6.Spinlock

open Foundation Process Option List
open Function (update update_self update_of_ne)

variable {C P L : Type} {lock : Lock P L → Option C} {cpu : Cpu C P}

/-- In code of its own or in the loop of `acquire`. -/
def Place.active : Place P L → Bool
  | .normal | .spinning _ => true
  | _ => false

/-- A process in the `swtch` of `sched`, or before its first step: it has its own lock only, and
it will put back what its interrupts were. -/
structure Thread.Parked (p : P) (t : Thread P L) : Prop where
  held : t.held = [.own p]
  bare : t.bare = 0
  place : t.place = .forkret ∧ t.enabled = none ∨
    ∃ i, t.place = .sched i ∧ ∀ b, t.enabled = some b → i = b

theorem Thread.Parked.unmatched {p : P} {t : Thread P L} (parked : t.Parked p) :
    t.unmatched = 1 := by
  unfold Thread.unmatched
  rw [parked.held, parked.bare]
  rcases parked.place with ⟨place, _⟩ | ⟨i, place, _⟩ <;> rw [place] <;> rfl

theorem Thread.Parked.inactive {p : P} {t : Thread P L} (parked : t.Parked p) :
    t.place.active = false := by
  rcases parked.place with ⟨place, _⟩ | ⟨i, place, _⟩ <;> rw [place] <;> rfl

theorem Thread.unmatched_normal {t : Thread P L} (place : t.place = .normal) :
    t.unmatched = t.held.length + t.bare := by
  rw [unmatched, place]
  rfl

/-- `scheduler` in its `swtch`. -/
structure Thread.Lent (p : P) (t : Thread P L) : Prop where
  held : t.held = [.own p]
  bare : t.bare = 0
  place : t.place = .scheduler

structure Machine.Fits (s : Machine C P L) (c : C) : Prop where
  noff : (s.cpu c).noff = (s.running c).unmatched
  off : 0 < (s.running c).unmatched → (s.cpu c).intr = false
  owner : ∀ lk, s.lock lk = some c ↔ lk ∈ (s.running c).held
  nodup : (s.running c).held.Nodup
  intena : ∀ p b, (s.cpu c).current = .proc p → (s.running c).place.active = true →
    0 < (s.running c).unmatched → (s.running c).enabled = some b → (s.cpu c).intena = b
  current : (s.cpu c).current = .scheduler c ∨
    ∃ p, (s.cpu c).current = .proc p ∧ (s.cpu c).proc = some p ∧
    s.state p = .running ∧ (s.thread (.scheduler c)).Lent p

structure Machine.Sound (s : Machine C P L) : Prop where
  calm : s.panic = none
  single : ∀ c d, (s.cpu c).current = (s.cpu d).current → c = d
  fits : ∀ c, s.Fits c
  procs : ∀ p, (s.thread (.proc p)).Parked p ∨
    (s.thread (.proc p)).place.active = true ∧ ∃ c, (s.cpu c).current = .proc p

/-- A process that undoes its last `push_off` has its interrupts as they were. -/
def Machine.Restores (s : Machine C P L) (c : C) (t : Machine C P L) : Prop :=
  ∀ p b, (s.cpu c).current = .proc p → 0 < (s.running c).unmatched →
    (t.thread (.proc p)).unmatched = 0 → (s.running c).enabled = some b → (t.cpu c).intr = b

/-- The `scheduler` of a CPU that runs a process is not the thread of any CPU. -/
theorem Machine.Sound.current_ne_scheduler {s : Machine C P L} {d : C} {p : P} (sound : s.Sound)
    (busy : (s.cpu d).current = .proc p) (c : C) : (s.cpu c).current ≠ .scheduler d := by
  intro same
  rcases (sound.fits c).current with own | ⟨q, run, _⟩
  · cases own.symm.trans same
    cases busy.symm.trans same
  · cases run.symm.trans same

/-- A process whose state is not `RUNNING` is on no CPU. -/
theorem Machine.Sound.away {s : Machine C P L} {p : P} (sound : s.Sound)
    (still : s.state p ≠ .running) (d : C) : (s.cpu d).current ≠ .proc p := by
  intro busy
  rcases (sound.fits d).current with own | ⟨q, run, _, state, _⟩
  · cases own.symm.trans busy
  · cases run.symm.trans busy
    exact still state

/-- A step that gives no thread a `push_off` less. -/
theorem Machine.restores_of_thread {s t : Machine C P L} {c : C}
    (kept : ∀ p, (s.cpu c).current = .proc p → t.thread (.proc p) = s.thread (.proc p)) :
    s.Restores c t := by
  intro p b busy nested undone
  rw [kept p busy] at undone
  rw [running, busy] at nested
  omega

section States

variable [DecidableEq P] {s : Machine C P L} {p : P}

theorem Machine.Sound.setState {state : ProcState} (sound : s.Sound)
    (still : s.state p ≠ .running) : (s.setState p state).Sound := by
  refine ⟨sound.calm, sound.single, fun d => ?_, sound.procs⟩
  have fits := sound.fits d
  refine ⟨fits.noff, fits.off, fits.owner, fits.nodup, fits.intena, ?_⟩
  refine fits.current.imp_right fun ⟨q, busy, proc, running, lent⟩ => ⟨q, busy, proc, ?_, lent⟩
  refine (update_of_ne ?_ ..).trans running
  rintro rfl
  exact still running

end States

section Steps

variable [DecidableEq C] [DecidableEq P] {s : Machine C P L} {c : C} {p : P}

theorem Machine.put_cpu (s : Machine C P L) (c : C) (cpu : Cpu C P) (t : Thread P L) :
    (s.put c cpu t).cpu c = cpu :=
  update_self ..

theorem Machine.put_other {d : C} (other : d ≠ c) (cpu : Cpu C P) (t : Thread P L) :
    (s.put c cpu t).cpu d = s.cpu d :=
  update_of_ne other ..

theorem Machine.put_running (same : cpu.current = (s.cpu c).current) (t : Thread P L) :
    (s.put c cpu t).running c = t := by
  rw [running, put_cpu, same]
  exact update_self ..

section

variable (sound : s.Sound)

include sound

theorem Machine.Sound.put_running_other {d : C} (other : d ≠ c) (cpu : Cpu C P) (t : Thread P L) :
    (s.put c cpu t).running d = s.running d := by
  rw [running, put_other other]
  exact update_of_ne (fun same => other (sound.single d c same)) ..

theorem Machine.Sound.fits_put {d : C} {t : Thread P L} {state : P → ProcState} (other : d ≠ c)
    (others : ∀ lk, lock lk = some d ↔ s.lock lk = some d)
    (states : ∀ q, (s.cpu d).current = .proc q → state q = s.state q) :
    Machine.Fits { s.put c cpu t with lock := lock, state := state } d := by
  have run : running { s.put c cpu t with lock := lock, state := state } d = s.running d :=
    sound.put_running_other other cpu t
  have fits := sound.fits d
  refine ⟨?_, ?_, ?_, ?_, ?_, ?_⟩
  all_goals try rw [run]
  all_goals try rw [put_other other]
  · exact fits.noff
  · exact fits.off
  · exact fun lk => (others lk).trans (fits.owner lk)
  · exact fits.nodup
  · exact fits.intena
  · refine fits.current.imp_right fun ⟨p, busy, rest⟩ =>
      ⟨p, busy, rest.1, (states p busy).trans rest.2.1, ?_⟩
    have kept : (s.put c cpu t).thread (.scheduler d) = s.thread (.scheduler d) :=
      update_of_ne (sound.current_ne_scheduler busy c).symm ..
    exact kept ▸ rest.2.2

theorem Machine.Sound.local {t : Thread P L} (current : cpu.current = (s.cpu c).current)
    (proc : cpu.proc = (s.cpu c).proc ∨ (s.cpu c).current = .scheduler c)
    (noff : cpu.noff = t.unmatched) (off : 0 < t.unmatched → cpu.intr = false)
    (owner : ∀ lk, lock lk = some c ↔ lk ∈ t.held)
    (others : ∀ lk d, d ≠ c → (lock lk = some d ↔ s.lock lk = some d)) (nodup : t.held.Nodup)
    (active : t.place.active = true)
    (intena : ∀ p b, (s.cpu c).current = .proc p → 0 < t.unmatched → t.enabled = some b →
      cpu.intena = b)
    (restored : ∀ p b, (s.cpu c).current = .proc p → 0 < (s.running c).unmatched → t.unmatched = 0 →
      (s.running c).enabled = some b → cpu.intr = b) :
    Machine.Sound { s.put c cpu t with lock := lock } ∧
    s.Restores c { s.put c cpu t with lock := lock } := by
  have currents (d : C) : ((s.put c cpu t).cpu d).current = (s.cpu d).current := by
    by_cases same : d = c
    · rw [same, put_cpu, current]
    · rw [put_other same]
  have run : running { s.put c cpu t with lock := lock } c = t := put_running current t
  refine ⟨⟨sound.calm, fun d e same => ?_, fun d => ?_, fun p => ?_⟩,
    fun p b busy nested undone before => ?_⟩
  · exact sound.single d e ((currents d).symm.trans (same.trans (currents e)))
  · by_cases same : d = c
    · subst same
      refine ⟨?_, ?_, ?_, ?_, ?_, ?_⟩
      all_goals try rw [run]
      all_goals try rw [put_cpu]
      · exact noff
      · exact off
      · exact owner
      · exact nodup
      · exact fun p b busy _ => intena p b (current ▸ busy)
      · rw [current]
        rcases (sound.fits d).current with own | ⟨p, busy, mine, rest⟩
        · exact .inl own
        · have kept : (s.put d cpu t).thread (.scheduler d) = s.thread (.scheduler d) :=
            update_of_ne (sound.current_ne_scheduler busy d).symm ..
          refine .inr ⟨p, busy, ?_, rest.1, kept ▸ rest.2⟩
          rcases proc with same | own
          · rw [same, mine]
          · cases busy.symm.trans own
    · exact sound.fits_put same (fun lk => others lk d same) fun _ _ => rfl
  · by_cases busy : (s.cpu c).current = .proc p
    · have thread : (s.put c cpu t).thread (.proc p) = t := by
        rw [← busy]
        exact update_self ..
      refine .inr ⟨?_, c, (currents c).trans busy⟩
      change ((s.put c cpu t).thread (.proc p)).place.active = true
      rw [thread]
      exact active
    · have thread : (s.put c cpu t).thread (.proc p) = s.thread (.proc p) :=
        update_of_ne (Ne.symm busy) ..
      refine (sound.procs p).imp (fun parked => thread ▸ parked)
        fun ⟨place, d, there⟩ => ⟨thread ▸ place, d, ?_⟩
      exact (currents d).trans there
  · have thread : (s.put c cpu t).thread (.proc p) = t := by
      rw [← busy]
      exact update_self ..
    rw [thread] at undone
    rw [put_cpu]
    exact restored p b busy nested undone before

/-- What a thread finds when it puts another `push_off` around what it does. -/
theorem Machine.Sound.push {t : Thread P L} (normal : (s.running c).place = .normal)
    (held : t.held = (s.running c).held) (more : t.unmatched = (s.running c).unmatched + 1)
    (enabled : t.enabled = if (s.running c).unmatched = 0 then some (s.cpu c).intr
      else (s.running c).enabled)
    (active : t.place.active = true) :
    (s.put c (s.cpu c).pushOff t).Sound ∧ s.Restores c (s.put c (s.cpu c).pushOff t) := by
  have fits := sound.fits c
  refine sound.local rfl (.inl rfl) ?_ (fun _ => rfl) ?_ (fun _ _ _ => .rfl) ?_ active ?_ ?_
  · rw [more]
    change (s.cpu c).noff + 1 = _
    rw [fits.noff]
    rfl
  · rw [held]
    exact fits.owner
  · rw [held]
    exact fits.nodup
  · intro p b busy _ before
    change (if (s.cpu c).noff = 0 then (s.cpu c).intr else (s.cpu c).intena) = b
    rw [enabled] at before
    rw [fits.noff]
    split at before
    · rename_i first
      rw [if_pos (by rw [first]; rfl)]
      exact some.inj before
    · rename_i nested
      rw [if_neg (by omega)]
      exact fits.intena p b busy (by rw [normal]; rfl) (by omega) before
  · intro _ _ _ _ none
    omega

theorem Machine.Sound.pop {t : Thread P L} (normal : (s.running c).place = .normal)
    (less : t.unmatched + 1 = (s.running c).unmatched)
    (owner : ∀ lk, lock lk = some c ↔ lk ∈ t.held)
    (others : ∀ lk d, d ≠ c → (lock lk = some d ↔ s.lock lk = some d)) (nodup : t.held.Nodup)
    (enabled : t.enabled = (s.running c).enabled) (active : t.place.active = true) :
    Machine.Sound (popOff { s with lock := lock } c t) ∧
    s.Restores c (popOff { s with lock := lock } c t) := by
  have fits := sound.fits c
  have off := fits.off (by omega)
  have noff := fits.noff
  have before (p : P) (b : Bool) (busy : (s.cpu c).current = .proc p)
      (same : (s.running c).enabled = some b) :
      (s.cpu c).intena = b := fits.intena p b busy (by rw [normal]; rfl) (by omega) same
  have popped : (s.cpu c).popOff = .ok { s.cpu c with
      noff := (s.cpu c).noff - 1,
      intr := decide ((s.cpu c).noff - 1 = 0) && (s.cpu c).intena } := by
    rw [Cpu.popOff, off, if_neg (by simp), if_neg (by omega)]
  have next : popOff { s with lock := lock } c t = { s.put c { s.cpu c with
      noff := (s.cpu c).noff - 1,
      intr := decide ((s.cpu c).noff - 1 = 0) && (s.cpu c).intena } t with lock := lock } := by
    unfold popOff
    dsimp only
    rw [popped]
    rfl
  rw [next]
  refine sound.local rfl (.inl rfl) ?_ ?_ owner others nodup active ?_ ?_
  · change (s.cpu c).noff - 1 = _
    omega
  · intro nested
    dsimp only
    rw [decide_eq_false (by omega), Bool.false_and]
  · intro p b busy _ same
    exact before p b busy (enabled ▸ same)
  · intro p b busy _ last same
    dsimp only
    rw [decide_eq_true (by omega), Bool.true_and]
    exact before p b busy same

theorem Machine.Sound.back (current : cpu.current = (s.cpu c).current)
    (proc : cpu.proc = (s.cpu c).proc ∨ (s.cpu c).current = .scheduler c)
    (noff : cpu.noff = (s.cpu c).noff) (intr : cpu.intr = (s.cpu c).intr)
    (idle : (s.running c).place.active = false)
    (intena : ∀ p b, (s.cpu c).current = .proc p → (s.running c).enabled = some b →
      cpu.intena = b) :
    (s.put c cpu { s.running c with place := .normal }).Sound ∧
      s.Restores c (s.put c cpu { s.running c with place := .normal }) := by
  have fits := sound.fits c
  have same : Thread.unmatched { s.running c with place := .normal } = (s.running c).unmatched := by
    unfold Thread.unmatched
    cases place : (s.running c).place with
    | normal | spinning lk => simp [place, Place.active] at idle
    | sched i | scheduler | forkret => rfl
  refine sound.local current proc ?_ ?_ fits.owner (fun _ _ _ => .rfl) fits.nodup rfl ?_ ?_
  · rw [same, noff]
    exact fits.noff
  · rw [same, intr]
    exact fits.off
  · exact fun p b busy _ before => intena p b busy before
  · intro p b _ nested none
    omega

/-- A CPU goes over to a thread that has the locks of the one before. -/
theorem Machine.Sound.switch {t : Thread P L} {state : P → ProcState}
    (new : ∀ d, (s.cpu d).current ≠ cpu.current) (noff : cpu.noff = (s.cpu c).noff)
    (intr : cpu.intr = (s.cpu c).intr) (held : (s.thread cpu.current).held = (s.running c).held)
    (count : (s.thread cpu.current).unmatched = (s.running c).unmatched)
    (idle : (s.thread cpu.current).place.active = false)
    (states : ∀ d q, d ≠ c → (s.cpu d).current = .proc q → state q = s.state q)
    (current : cpu.current = .scheduler c ∨ ∃ p, cpu.current = .proc p ∧ cpu.proc = some p ∧
      state p = .running ∧
      ((s.put c cpu t).thread (.scheduler c)).Lent p)
    (procs : ∀ p, ((s.put c cpu t).thread (.proc p)).Parked p ∨
      ((s.put c cpu t).thread (.proc p)).place.active = true ∧
      ∃ d, ((s.put c cpu t).cpu d).current = .proc p) :
    Machine.Sound { s.put c cpu t with state := state } := by
  have run : running { s.put c cpu t with state := state } c = s.thread cpu.current := by
    change (s.put c cpu t).thread ((s.put c cpu t).cpu c).current = _
    rw [put_cpu]
    exact update_of_ne (new c).symm ..
  have fits := sound.fits c
  refine ⟨sound.calm, fun d e same => ?_, fun d => ?_, procs⟩
  · change ((s.put c cpu t).cpu d).current = ((s.put c cpu t).cpu e).current at same
    by_cases first : d = c
    · by_cases second : e = c
      · rw [first, second]
      · rw [first, put_cpu, put_other second] at same
        exact absurd same.symm (new e)
    · rw [put_other first] at same
      by_cases second : e = c
      · rw [second, put_cpu] at same
        exact absurd same (new d)
      · rw [put_other second] at same
        exact sound.single d e same
  · by_cases here : d = c
    · subst here
      refine ⟨?_, ?_, ?_, ?_, ?_, ?_⟩
      all_goals try rw [run]
      all_goals try rw [put_cpu]
      · rw [noff, count]
        exact fits.noff
      · rw [intr, count]
        exact fits.off
      · rw [held]
        exact fits.owner
      · rw [held]
        exact fits.nodup
      · intro p b _ active
        rw [idle] at active
        cases active
      · exact current
    · exact sound.fits_put here (fun _ => .rfl) (states d · here)

theorem Machine.Sound.sched {state : ProcState} (busy : (s.cpu c).current = .proc p)
    (normal : (s.running c).place = .normal) (held : (s.running c).held = [.own p])
    (bare : (s.running c).bare = 0) (stops : state ≠ .running) :
    ((s.setState p state).sched c p).Sound ∧ s.Restores c ((s.setState p state).sched c p) := by
  have fits := sound.fits c
  have one : (s.running c).unmatched = 1 := by
    rw [Thread.unmatched_normal normal, held, bare]
    rfl
  have mine : s.lock (.own p) = some c := (fits.owner _).mpr (by rw [held]; simp)
  have noff : (s.cpu c).noff = 1 := by rw [fits.noff, one]; rfl
  have changed : (s.setState p state).state p = state := update_self ..
  have off : (s.cpu c).intr = false := fits.off (by omega)
  have lent : (s.thread (.scheduler c)).Lent p := by
    rcases fits.current with own | ⟨q, run, _, _, lent⟩
    · cases own.symm.trans busy
    · cases run.symm.trans busy
      exact lent
  have passes : (s.setState p state).sched c p = { s.put c { s.cpu c with current := .scheduler c }
      { s.running c with place := .sched (s.cpu c).intena } with
        state := update s.state p state } := by
    refine (if_neg (not_not.mpr mine)).trans
      ((if_neg (not_not.mpr noff)).trans ((if_neg ?_).trans (if_neg ?_)))
    · exact fun same => stops (changed.symm.trans same)
    · exact Bool.eq_false_iff.mp off
  have own : (s.put c { s.cpu c with current := .scheduler c }
      { s.running c with place := .sched (s.cpu c).intena }).thread (.proc p) =
        { s.running c with place := .sched (s.cpu c).intena } := by
    rw [← busy]
    exact update_self ..
  rw [passes]
  refine ⟨sound.switch (sound.current_ne_scheduler busy) rfl rfl ?_ ?_ ?_ ?_ (.inl rfl)
    fun q => ?_, ?_⟩
  · rw [lent.held, held]
  · rw [one, Thread.unmatched, lent.held, lent.bare, lent.place]
    rfl
  · rw [lent.place]
    rfl
  · intro d q other there
    refine update_of_ne ?_ ..
    rintro rfl
    exact other (sound.single d c (there.trans busy.symm))
  · by_cases same : q = p
    · subst same
      rw [own]
      refine .inl ⟨held, bare, .inr ⟨_, rfl, fun b before => ?_⟩⟩
      exact fits.intena q b busy (by rw [normal]; rfl) (by omega) before
    · have kept : (s.put c { s.cpu c with current := .scheduler c }
          { s.running c with place := .sched (s.cpu c).intena }).thread (.proc q) =
            s.thread (.proc q) :=
        update_of_ne (fun equal => same (Tid.proc.inj (equal.trans busy))) ..
      rw [kept]
      refine (sound.procs q).imp_right fun ⟨active, d, there⟩ => ⟨active, d, ?_⟩
      rw [put_other]
      · exact there
      · rintro rfl
        exact same (Tid.proc.inj (there.symm.trans busy))
  · intro q b run _ none
    obtain rfl : p = q := Tid.proc.inj (busy.symm.trans run)
    change Thread.unmatched (thread _ _) = 0 at none
    rw [own] at none
    simp [Thread.unmatched, held] at none

theorem Machine.Sound.dispatch (own : (s.cpu c).current = .scheduler c)
    (normal : (s.running c).place = .normal) (held : (s.running c).held = [.own p])
    (bare : (s.running c).bare = 0)
    (ready : s.state p = .runnable) : (s.dispatch c p).Sound ∧ s.Restores c (s.dispatch c p) := by
  have away := sound.away (p := p) (by rw [ready]; simp)
  have parked : (s.thread (.proc p)).Parked p :=
    (sound.procs p).resolve_right fun ⟨_, d, there⟩ => away d there
  have one : (s.running c).unmatched = 1 := by
    rw [Thread.unmatched_normal normal, held, bare]
    rfl
  have lent : (s.put c { s.cpu c with proc := some p, current := .proc p }
      { s.running c with place := .scheduler }).thread (.scheduler c) =
        { s.running c with place := .scheduler } := by
    rw [← own]
    exact update_self ..
  have threads (q : P) : (s.put c { s.cpu c with proc := some p, current := .proc p }
      { s.running c with place := .scheduler }).thread (.proc q) = s.thread (.proc q) :=
    update_of_ne (fun equal => by cases equal.trans own) ..
  refine ⟨sound.switch away rfl rfl ?_ ?_ parked.inactive ?_
    (.inr ⟨p, rfl, rfl, update_self .., ?_⟩) ?_, ?_⟩
  · exact parked.held.trans held.symm
  · exact parked.unmatched.trans one.symm
  · intro d q other there
    refine update_of_ne ?_ ..
    rintro rfl
    exact away d there
  · rw [lent]
    exact ⟨held, bare, rfl⟩
  · intro q
    rw [threads]
    refine (sound.procs q).imp_right fun ⟨active, d, there⟩ => ⟨active, d, ?_⟩
    rw [put_other]
    · exact there
    · rintro rfl
      cases own.symm.trans there
  · intro q b busy
    cases own.symm.trans busy

theorem Machine.Sound.allocproc (unused : s.state p = .unused) :
    Machine.Sound { s with thread := update s.thread (.proc p) (.fresh p) } := by
  have away := sound.away (p := p) (by rw [unused]; simp)
  have run (d : C) :
      running { s with thread := update s.thread (.proc p) (.fresh p) } d = s.running d :=
    update_of_ne (away d) ..
  refine ⟨sound.calm, sound.single, fun d => ?_, fun q => ?_⟩
  · have fits := sound.fits d
    refine ⟨?_, ?_, ?_, ?_, ?_, fits.current⟩
    all_goals rw [run]
    · exact fits.noff
    · exact fits.off
    · exact fits.owner
    · exact fits.nodup
    · exact fits.intena
  · by_cases same : q = p
    · subst same
      have fresh : update s.thread (.proc q) (.fresh q) (.proc q) = .fresh q := update_self ..
      dsimp only
      rw [fresh]
      exact .inl ⟨rfl, rfl, .inl ⟨rfl, rfl⟩⟩
    · have kept : update s.thread (.proc p) (.fresh p) (.proc q) = s.thread (.proc q) :=
        update_of_ne (fun equal => same (Tid.proc.inj equal)) ..
      dsimp only
      rw [kept]
      exact sound.procs q

end

variable [DecidableEq L]

theorem Machine.Sound.release {lk : Lock P L} (sound : s.Sound)
    (normal : (s.running c).place = .normal)
    (mine : lk ∈ (s.running c).held) : (s.release c lk).Sound ∧ s.Restores c (s.release c lk) := by
  have fits := sound.fits c
  have nodup := fits.nodup
  unfold Machine.release
  dsimp only
  rw [if_neg (not_not.mpr ((fits.owner lk).mpr mine))]
  refine sound.pop normal ?_ ?_ ?_ (nodup.erase lk) rfl (by rw [normal]; rfl)
  · have before := Thread.unmatched_normal normal
    have after : Thread.unmatched { s.running c with held := (s.running c).held.erase lk } =
        ((s.running c).held.erase lk).length + (s.running c).bare := Thread.unmatched_normal normal
    have some := length_pos_of_mem mine
    rw [length_erase_of_mem mine] at after
    dsimp only at after
    omega
  · intro other
    rw [nodup.mem_erase_iff, ← fits.owner]
    by_cases same : other = lk
    · subst same
      simp [update_self]
    · simp [same]
  · intro other d different
    by_cases same : other = lk
    · subst same
      rw [update_self, (fits.owner other).mpr mine]
      simp [Ne.symm different]
    · rw [update_of_ne same]

theorem Machine.Sound.spin {lk : Lock P L} (sound : s.Sound)
    (spinning : (s.running c).place = .spinning lk) (free : s.lock lk = none) :
    Machine.Sound ((s.setLock lk (some c)).put c (s.cpu c)
        { s.running c with place := .normal, held := lk :: (s.running c).held }) ∧
      s.Restores c ((s.setLock lk (some c)).put c (s.cpu c)
        { s.running c with place := .normal, held := lk :: (s.running c).held }) := by
  have fits := sound.fits c
  have same :
      Thread.unmatched { s.running c with place := .normal, held := lk :: (s.running c).held } =
      (s.running c).unmatched := by
    unfold Thread.unmatched
    rw [spinning, length_cons]
    dsimp only
    omega
  refine sound.local (s := s) rfl (.inl rfl) ?_ ?_ ?_ ?_ ?_ rfl ?_ ?_
  · rw [same]
    exact fits.noff
  · rw [same]
    exact fits.off
  · intro other
    change update s.lock lk (some c) other = some c ↔ _
    rw [mem_cons, ← fits.owner]
    by_cases equal : other = lk
    · subst equal
      simp [update_self]
    · simp [equal]
  · intro other d different
    change update s.lock lk (some c) other = some d ↔ _
    by_cases equal : other = lk
    · subst equal
      rw [update_self, free]
      simp [Ne.symm different]
    · rw [update_of_ne equal]
  · refine nodup_cons.mpr ⟨fun mine => ?_, fits.nodup⟩
    rw [(fits.owner lk).mpr mine] at free
    cases free
  · intro p b busy
    rw [same]
    exact fits.intena p b busy (by rw [spinning]; rfl)
  · intro p b _ nested none
    omega

theorem Machine.Sound.resume (sound : s.Sound) (taken : s.step ⟨c, .resume⟩ = some t) :
    t.Sound ∧ s.Restores c t := by
  have parked (p : P) (busy : (s.cpu c).current = .proc p)
      (idle : (s.running c).place.active = false) :
      (s.running c).Parked p := by
    have same : s.thread (.proc p) = s.running c := by rw [running, busy]
    refine same ▸ (sound.procs p).resolve_right fun active => ?_
    rw [same, idle] at active
    cases active.1
  simp only [step, sound.calm, ne_eq, not_true_eq_false, if_false] at taken
  cases place : (s.running c).place with
  | normal | spinning lk => simp [place] at taken
  | sched i =>
    simp only [place, some.injEq] at taken
    subst taken
    refine sound.back rfl (.inl rfl) rfl rfl (by rw [place]; rfl) fun p b busy before => ?_
    rcases (parked p busy (by rw [place]; rfl)).place with ⟨fresh, _⟩ | ⟨j, same, kept⟩
    · cases place.symm.trans fresh
    · cases place.symm.trans same
      exact kept b before
  | scheduler =>
    simp only [place, some.injEq] at taken
    subst taken
    have own : (s.cpu c).current = .scheduler c := by
      refine (sound.fits c).current.resolve_right fun ⟨p, busy, _⟩ => ?_
      rcases (parked p busy (by rw [place]; rfl)).place with ⟨fresh, _⟩ | ⟨j, same, _⟩
      · cases place.symm.trans fresh
      · cases place.symm.trans same
    refine sound.back rfl (.inr own) rfl rfl (by rw [place]; rfl) fun p b busy _ => ?_
    cases own.symm.trans busy
  | forkret =>
    simp only [place, some.injEq] at taken
    subst taken
    refine sound.back rfl (.inl rfl) rfl rfl (by rw [place]; rfl) fun p b busy before => ?_
    rcases (parked p busy (by rw [place]; rfl)).place with ⟨_, none⟩ | ⟨j, same, _⟩
    · rw [none] at before
      cases before
    · cases place.symm.trans same

theorem Machine.Sound.step {e : Event C P L} {t : Machine C P L} (sound : s.Sound)
    (taken : s.step e = some t) : t.Sound ∧ s.Restores e.cpu t := by
  obtain ⟨c, act⟩ := e
  have fits := sound.fits c
  cases act
  case resume => exact sound.resume taken
  all_goals simp only [Machine.step, sound.calm, ne_eq, not_true_eq_false, if_false,
    ite_none_right_eq_some, some.injEq] at taken
  case setIntr on =>
    obtain ⟨⟨normal, none⟩, rfl⟩ := taken
    refine sound.local rfl (.inl rfl) fits.noff ?_ fits.owner (fun _ _ _ => .rfl) fits.nodup
      (by rw [normal]; rfl) ?_ ?_
    all_goals intros; omega
  case pushOff =>
    obtain ⟨normal, rfl⟩ := taken
    refine sound.push normal rfl ?_ rfl (by rw [Thread.pushing, normal]; rfl)
    simp only [Thread.unmatched, Thread.pushing, normal]
    omega
  case popOff =>
    obtain ⟨⟨normal, some⟩, rfl⟩ := taken
    refine sound.pop normal ?_ fits.owner (fun _ _ _ => .rfl) fits.nodup rfl (by rw [normal]; rfl)
    simp only [Thread.unmatched, normal]
    omega
  case acquire lk =>
    obtain ⟨⟨normal, fresh⟩, rfl⟩ := taken
    rw [Machine.acquire, if_neg ((fits.owner lk).not.mpr fresh)]
    refine sound.push normal rfl ?_ rfl rfl
    rw [Thread.unmatched_normal normal]
    rfl
  case spin =>
    cases place : (s.running c).place with
    | spinning lk =>
      simp only [place, ite_none_right_eq_some, some.injEq] at taken
      obtain ⟨free, rfl⟩ := taken
      exact sound.spin place free
    | _ => simp [place] at taken
  case release lk =>
    obtain ⟨⟨normal, mine⟩, rfl⟩ := taken
    exact sound.release normal mine
  case setState p state =>
    obtain ⟨⟨_, _, still, _⟩, rfl⟩ := taken
    exact ⟨sound.setState still, restores_of_thread fun _ _ => rfl⟩
  case allocproc p =>
    obtain ⟨⟨_, _, unused⟩, rfl⟩ := taken
    rw [← sound.calm]
    refine ⟨sound.allocproc unused, restores_of_thread fun q busy => update_of_ne ?_ ..⟩
    exact busy ▸ sound.away (by rw [unused]; simp) c
  case sched state =>
    cases own : (s.cpu c).proc with
    | none => simp [own] at taken
    | some p =>
      simp only [own, ite_none_right_eq_some, some.injEq] at taken
      obtain ⟨⟨busy, normal, held, bare, stops⟩, rfl⟩ := taken
      exact sound.sched busy normal held bare stops
  case dispatch p =>
    obtain ⟨⟨own, normal, held, bare, ready⟩, rfl⟩ := taken
    exact sound.dispatch own normal held bare ready

end Steps

theorem Machine.Sound.boot (intr intena : C → Bool) :
    (Machine.boot intr intena : Machine C P L).Sound := by
  refine ⟨rfl, fun c d same => Tid.scheduler.inj same, fun c => ?_,
    fun p => .inl ⟨rfl, rfl, .inl ⟨rfl, rfl⟩⟩⟩
  refine ⟨rfl, fun nested => ?_, fun lk => ?_, nodup_nil, fun p b busy => ?_, .inl rfl⟩
  · cases nested
  · simp [Machine.boot, Machine.running]
  · cases busy

/-- In every run, `noff` counts the `push_off`s that the thread on the CPU has not undone, there
is no panic, interrupts are off while it is positive, and a process that undoes its last one has
its interrupts as they were at the first. -/
theorem interrupt_state_restored [DecidableEq C] [DecidableEq P] [DecidableEq L]
    (intr intena : C → Bool) (events : List (Event C P L)) (s : Machine C P L)
    (run : exec Machine.step (Machine.boot intr intena) events = some s) :
    s.panic = none ∧ (∀ c, (s.cpu c).noff = (s.running c).unmatched) ∧
      (∀ c, 0 < (s.cpu c).noff → (s.cpu c).intr = false) ∧
      ∀ e t, s.step e = some t → t.panic = none ∧ s.Restores e.cpu t := by
  have sound : s.Sound :=
    exec_invariant (fun _ _ _ sound taken => (Machine.Sound.step sound taken).1)
      (Machine.Sound.boot intr intena) run
  refine ⟨sound.calm, fun c => (sound.fits c).noff, fun c nested => (sound.fits c).off ?_,
    fun e t taken => ?_⟩
  · have noff := (sound.fits c).noff
    omega
  · have next := sound.step taken
    exact ⟨next.1.calm, next.2⟩

/-- A process enables interrupts, takes its lock on a CPU and gets on on the other one. -/
def migration : List (Event Bool Unit Empty) :=
  let lk := .own ()
  [⟨false, .acquire lk⟩, ⟨false, .spin⟩, ⟨false, .setState () .runnable⟩, ⟨false, .dispatch ()⟩,
    ⟨false, .resume⟩, ⟨false, .release lk⟩, ⟨false, .setIntr true⟩, ⟨false, .acquire lk⟩,
    ⟨false, .spin⟩, ⟨false, .sched .runnable⟩, ⟨false, .resume⟩, ⟨false, .release lk⟩,
    ⟨true, .acquire lk⟩, ⟨true, .spin⟩, ⟨true, .dispatch ()⟩, ⟨true, .resume⟩]

theorem interrupt_state_restored_migration :
    ∃ s t, exec Machine.step (Machine.boot (fun _ => false) fun _ => false) migration = some s ∧
      s.step ⟨true, .release (.own ())⟩ = some t ∧ (s.cpu true).intr = false ∧
      (t.cpu true).intr = true := by
  refine ⟨_, _, rfl, rfl, rfl, ?_⟩
  have restored := interrupt_state_restored (fun _ => false) (fun _ => false) migration _ rfl
  exact (restored.2.2.2 ⟨true, .release (.own ())⟩ _ rfl).2 () true rfl (by decide) rfl rfl

end EnhancedXv6.Spinlock
