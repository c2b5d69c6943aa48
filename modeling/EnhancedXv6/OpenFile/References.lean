import EnhancedXv6.OpenFile.Table
import EnhancedXv6.Foundation.Run

namespace EnhancedXv6.OpenFile

open Foundation Process List

variable {n : Nat}

/-- The counts are exact up to what a system call has in hand. -/
structure Exact (s : Files n) (hand : Fin nfile → Int) : Prop where
  count : ∀ f, (s.file f).ref = owners Finset.univ s.ofile f + hand f
  closed : ∀ f, (s.file f).ref = 0 → (s.file f).type = .none
  vacant : ∀ p, ¬ s.Live p → ∀ fd, s.ofile (p, fd) = none

variable {s : Files n} {hand : Fin nfile → Int} {p : Fin n} {fd : Fin nofile} {f : Fin nfile}

theorem Exact.held (exact : Exact s hand) (inHand : 1 ≤ hand f) : 1 ≤ (s.file f).ref := by
  have count := exact.count f
  omega

theorem Exact.pointed (exact : Exact s 0) (points : s.ofile (p, fd) = some f) :
    1 ≤ (s.file f).ref := by
  have count := exact.count f
  have positive : 0 < owners Finset.univ s.ofile f := owners_pos (Finset.mem_univ (p, fd)) points
  simp only [Pi.zero_apply] at count
  omega

section

variable (exact : Exact s hand)

include exact

theorem Exact.count_setSlot (p : Fin n) (fd : Fin nofile) (x : Option (Fin nfile))
    (g : Fin nfile) :
    ((s.setSlot p fd x).file g).ref = owners Finset.univ (s.setSlot p fd x).ofile g +
      (hand g + (if s.ofile (p, fd) = some g then 1 else 0) - if x = some g then 1 else 0) := by
  have moved := owners_update (f := s.ofile) (a := g) (Finset.mem_univ (p, fd)) x
  have count := exact.count g
  unfold Files.setSlot
  dsimp only
  split_ifs at moved ⊢ <;> omega

theorem Exact.take (points : s.ofile (p, fd) = some f) :
    Exact (s.setSlot p fd none) (hand + Pi.single f 1) where
  count g := by
    simpa [points, Pi.single_apply, eq_comm] using exact.count_setSlot p fd none g
  closed := exact.closed
  vacant q dead other := by
    have before := exact.vacant q dead other
    by_cases same : (q, other) = (p, fd)
    · simp [Files.setSlot, same]
    · simpa [Files.setSlot, same] using before

theorem Exact.put (empty : s.ofile (p, fd) = none) (live : s.Live p) :
    Exact (s.setSlot p fd (some f)) (hand - Pi.single f 1) where
  count g := by
    simpa [empty, Pi.single_apply, eq_comm] using exact.count_setSlot p fd (some f) g
  closed := exact.closed
  vacant q dead other := by
    have different : (q, other) ≠ (p, fd) := by
      intro same
      obtain ⟨rfl, rfl⟩ := Prod.mk.inj same
      exact dead live
    simpa [Files.setSlot, different] using exact.vacant q dead other

theorem Exact.setFile (f : Fin nfile) (file : File) (d : Int)
    (difference : file.ref = (s.file f).ref + d) (closed : file.ref = 0 → file.type = .none) :
    Exact (s.setFile f file) (hand + Pi.single f d) where
  count g := by
    have count := exact.count g
    by_cases same : g = f
    · subst g
      simp [Files.setFile]
      omega
    · simpa [Files.setFile, same] using count
  closed g := by
    by_cases same : g = f
    · subst g
      simpa [Files.setFile] using closed
    · simpa [Files.setFile, same] using exact.closed g
  vacant := exact.vacant

theorem Exact.assign (f : Fin nfile) (file : File) (same : file.ref = (s.file f).ref)
    (used : 1 ≤ (s.file f).ref) : Exact (s.setFile f file) hand := by
  have changed := exact.setFile f file 0 (by omega) (by omega)
  simpa using changed

/-- A process may change its state as long as it has no descriptor in a dead one. -/
theorem Exact.setState (dead : state = .unused ∨ state = .zombie → ∀ fd, s.ofile (p, fd) = none) :
    Exact (s.setState p state) hand where
  count := exact.count
  closed := exact.closed
  vacant q notLive fd := by
    by_cases same : q = p
    · subst q
      refine dead ?_ fd
      simp only [Files.Live, Files.setState, Function.update_self, not_and_or, not_not] at notLive
      exact notLive
    · refine exact.vacant q ?_ fd
      simpa [Files.Live, Files.setState, same] using notLive

theorem filealloc_meets : Meets filealloc s (fun result t => (result = none → t = s) ∧
      ∀ f, result = some f → Exact t (hand + Pi.single f 1) ∧ t.state = s.state)
      fun _ => False := by
  refine meets_bind.mpr (meets_get.mpr ?_)
  cases found : (finRange nfile).find? fun f => (s.file f).ref = 0 with
  | none => exact meets_pure.mpr ⟨fun _ => rfl, by simp⟩
  | some f =>
    have unused : (s.file f).ref = 0 := by simpa using find?_some found
    refine meets_bind.mpr (meets_set.mpr (meets_pure.mpr ⟨by simp, ?_⟩))
    rintro g same
    cases same
    exact ⟨exact.setFile f _ 1 (by simp [unused]) (by simp), rfl⟩

theorem filedup_meets (used : 1 ≤ (s.file f).ref) :
    Meets (filedup f) s (fun _ t => Exact t (hand + Pi.single f 1) ∧ t.state = s.state ∧
      t.ofile = s.ofile) fun _ => False := by
  refine meets_bind.mpr (meets_get.mpr ?_)
  rw [if_neg (by omega)]
  refine meets_set.mpr ⟨exact.setFile f _ 1 rfl ?_, rfl, rfl⟩
  intro zero
  have positive : (s.file f).ref + 1 = 0 := zero
  omega

theorem fileclose_meets (used : 1 ≤ (s.file f).ref) :
    Meets (fileclose f) s (fun _ t => Exact t (hand - Pi.single f 1) ∧ t.state = s.state ∧
      t.ofile = s.ofile) fun _ => False := by
  have lost : hand - Pi.single f 1 = hand + Pi.single f (-1) := by
    rw [Pi.single_neg, sub_eq_add_neg]
  rw [lost]
  refine meets_bind.mpr (meets_get.mpr ?_)
  rw [if_neg (by omega)]
  split
  · rename_i shared
    refine meets_set.mpr ⟨exact.setFile f _ (-1) rfl ?_, rfl, rfl⟩
    intro zero
    have positive : (s.file f).ref - 1 = 0 := zero
    omega
  · refine meets_set.mpr ⟨?_, rfl, rfl⟩
    have dropped := exact.setFile f { s.file f with ref := 0, type := .none } (-1)
      (by simp only; omega) fun _ => rfl
    exact ⟨dropped.count, dropped.closed, dropped.vacant⟩

theorem fdalloc_meets (live : s.Live p) :
    Meets (fdalloc p f) s (fun result t => (result = none → t = s) ∧
      ∀ fd, result = some fd → Exact t (hand - Pi.single f 1) ∧ s.ofile (p, fd) = none ∧
        t = s.setSlot p fd (some f)) fun _ => False := by
  refine meets_bind.mpr (meets_get.mpr ?_)
  cases found : (finRange nofile).find? fun fd => s.ofile (p, fd) = none with
  | none => exact meets_pure.mpr ⟨fun _ => rfl, by simp⟩
  | some fd =>
    have empty : s.ofile (p, fd) = none := by simpa using find?_some found
    refine meets_bind.mpr (meets_set.mpr (meets_pure.mpr ⟨by simp, ?_⟩))
    rintro other same
    cases same
    exact ⟨exact.put empty live, empty, rfl⟩

theorem clearSlot_meets (points : s.ofile (p, fd) = some f) :
    Meets (clearSlot p fd) s (fun _ t => Exact t (hand + Pi.single f 1) ∧ t = s.setSlot p fd none)
      fun _ => False :=
  meets_modify.mpr ⟨exact.take points, rfl⟩

end

theorem argfd_points (found : argfd s p given = some (fd, f)) : s.ofile (p, fd) = some f := by
  unfold argfd at found
  split at found
  · simp only [Option.map_eq_some_iff, Prod.mk.injEq] at found
    obtain ⟨g, points, rfl, rfl⟩ := found
    exact points
  · cases found

theorem sysDup_meets (exact : Exact s 0) (live : s.Live p) :
    Meets (sysDup p given) s (fun _ t => Exact t 0) fun _ => False := by
  refine meets_bind.mpr (meets_get.mpr ?_)
  cases found : argfd s p given with
  | none => exact meets_pure.mpr exact
  | some pair =>
    obtain ⟨fd, f⟩ := pair
    have used := exact.pointed (argfd_points found)
    refine (fdalloc_meets exact live).bind fun result t outcome => ?_
    cases result with
    | none =>
      cases outcome.1 rfl
      exact meets_pure.mpr exact
    | some copy =>
      -- the copied descriptor points to the file before the count says so
      obtain ⟨ahead, _, rfl⟩ := outcome.2 copy rfl
      refine (filedup_meets ahead used).bind fun _ u counted => meets_pure.mpr ?_
      simpa using counted.1

theorem sysClose_meets (exact : Exact s 0) :
    Meets (sysClose p given) s (fun _ t => Exact t 0) fun _ => False := by
  refine meets_bind.mpr (meets_get.mpr ?_)
  cases found : argfd s p given with
  | none => exact meets_pure.mpr exact
  | some pair =>
    obtain ⟨fd, f⟩ := pair
    refine (clearSlot_meets exact (argfd_points found)).bind fun _ t cleared => ?_
    refine (fileclose_meets cleared.1 (cleared.1.held (by simp))).bind fun _ u dropped =>
      meets_pure.mpr ?_
    simpa using dropped.1

theorem File.opened_ref (file : File) (target : Target) (omode : UInt32) :
    (file.opened target omode).ref = file.ref := by
  unfold File.opened
  simp only
  split <;> rfl

theorem Files.Live.kept {t : Files n} (live : s.Live p) (kept : t.state = s.state) : t.Live p := by
  unfold Files.Live
  rw [kept]
  exact live

theorem sysOpen_meets (exact : Exact s 0) (live : s.Live p) :
    Meets (sysOpen p request) s (fun _ t => Exact t 0) fun _ => False := by
  unfold sysOpen
  split
  · exact meets_pure.mpr exact
  · cases request.target with
    | none => exact meets_pure.mpr exact
    | some target =>
      simp only
      split
      · exact meets_pure.mpr exact
      · split
        · exact meets_pure.mpr exact
        · refine (filealloc_meets exact).bind fun result t outcome => ?_
          cases result with
          | none =>
            cases outcome.1 rfl
            exact meets_pure.mpr exact
          | some f =>
            obtain ⟨fresh, kept⟩ := outcome.2 f rfl
            have used := fresh.held (f := f) (by simp)
            refine (fdalloc_meets fresh (live.kept kept)).bind fun result u outcome => ?_
            cases result with
            | none =>
              cases outcome.1 rfl
              refine (fileclose_meets fresh used).bind fun _ v dropped => meets_pure.mpr ?_
              simpa using dropped.1
            | some fd =>
              obtain ⟨given, _, rfl⟩ := outcome.2 fd rfl
              refine meets_bind.mpr (meets_modify.mpr (meets_pure.mpr ?_))
              simpa using given.assign f _ (File.opened_ref _ _ _) used

theorem closeBoth_meets (exact : Exact s (Pi.single f 1 + Pi.single g 1)) (result : α) :
    Meets (do fileclose f; fileclose g; pure result) s (fun r t => r = result ∧ Exact t 0)
      fun _ => False := by
  refine (fileclose_meets exact (exact.held ?_)).bind fun _ t first => ?_
  · simp only [Pi.add_apply, Pi.single_eq_same, Pi.single_apply]
    split <;> omega
  · refine (fileclose_meets first.1 (first.1.held (by simp))).bind fun _ u second =>
      meets_pure.mpr ⟨rfl, ?_⟩
    simpa using second.1

theorem pipealloc_meets (exact : Exact s 0) :
    Meets (pipealloc page) s (fun result t => (result = none → Exact t 0) ∧
      ∀ rf wf, result = some (rf, wf) →
        Exact t (Pi.single rf 1 + Pi.single wf 1) ∧ t.state = s.state) fun _ => False := by
  refine (filealloc_meets exact).bind fun result t outcome => ?_
  cases result with
  | none =>
    cases outcome.1 rfl
    exact meets_pure.mpr ⟨fun _ => exact, by simp⟩
  | some f0 =>
    obtain ⟨first, kept⟩ := outcome.2 f0 rfl
    rw [zero_add] at first
    refine (filealloc_meets first).bind fun result u outcome => ?_
    cases result with
    | none =>
      cases outcome.1 rfl
      refine (fileclose_meets first (first.held (by simp))).bind fun _ v dropped =>
        meets_pure.mpr ⟨fun _ => ?_, by simp⟩
      simpa using dropped.1
    | some f1 =>
      obtain ⟨second, kept'⟩ := outcome.2 f1 rfl
      cases page with
      | none =>
        refine (closeBoth_meets second none).mono (fun r v closed => ?_) fun _ => id
        obtain ⟨rfl, exact⟩ := closed
        exact ⟨fun _ => exact, by simp⟩
      | some pi =>
        refine meets_bind.mpr (meets_modify.mpr (meets_bind.mpr (meets_modify.mpr
          (meets_pure.mpr ⟨by simp, ?_⟩))))
        intro rf wf same
        cases same
        have readable := second.assign f0 ((u.file f0).piped pi false) rfl (second.held (by
          simp only [Pi.add_apply, Pi.single_eq_same, Pi.single_apply]
          split <;> omega))
        refine ⟨readable.assign f1 _ rfl (readable.held ?_), kept'.trans kept⟩
        simp only [Pi.add_apply, Pi.single_eq_same, Pi.single_apply]
        split <;> omega

theorem sysPipe_meets (exact : Exact s 0) (live : s.Live p) :
    Meets (sysPipe p page copied) s (fun _ t => Exact t 0) fun _ => False := by
  refine (pipealloc_meets exact).bind fun result t outcome => ?_
  cases result with
  | none => exact meets_pure.mpr (outcome.1 rfl)
  | some pair =>
    obtain ⟨rf, wf⟩ := pair
    obtain ⟨both, kept⟩ := outcome.2 rf wf rfl
    refine (fdalloc_meets both (live.kept kept)).bind fun result u outcome => ?_
    cases result with
    | none =>
      cases outcome.1 rfl
      exact (closeBoth_meets both (-1)).mono (fun _ _ closed => closed.2) fun _ => id
    | some fd0 =>
      obtain ⟨one, _, rfl⟩ := outcome.2 fd0 rfl
      have points : (t.setSlot p fd0 (some rf)).ofile (p, fd0) = some rf := by simp [Files.setSlot]
      refine (fdalloc_meets one (live.kept kept)).bind fun result v outcome => ?_
      cases result with
      | none =>
        cases outcome.1 rfl
        refine (clearSlot_meets one points).bind fun _ w cleared => ?_
        have restored : Exact w (Pi.single rf 1 + Pi.single wf 1) := by
          simpa [add_comm] using cleared.1
        exact (closeBoth_meets restored (-1)).mono (fun _ _ closed => closed.2) fun _ => id
      | some fd1 =>
        obtain ⟨settled, empty, rfl⟩ := outcome.2 fd1 rfl
        have different : fd0 ≠ fd1 := by
          rintro rfl
          rw [points] at empty
          cases empty
        have none : Exact ((t.setSlot p fd0 (some rf)).setSlot p fd1 (some wf)) 0 := by
          simpa using settled
        simp only
        split
        · exact meets_pure.mpr none
        · refine (clearSlot_meets none (f := rf) ?_).bind fun _ w cleared => ?_
          · simp [Files.setSlot, different]
          · obtain ⟨half, rfl⟩ := cleared
            refine (clearSlot_meets half (f := wf) ?_).bind fun _ w cleared => ?_
            · simp [Files.setSlot, different.symm]
            · have restored : Exact w (Pi.single rf 1 + Pi.single wf 1) := by
                simpa [add_comm] using cleared.1
              exact (closeBoth_meets restored (-1)).mono (fun _ _ closed => closed.2) fun _ => id

theorem fork_meets (exact : Exact s 0) (live : s.Live p) :
    Meets (fork p built copied) s (fun _ t => Exact t 0) fun _ => False := by
  refine meets_bind.mpr (meets_get.mpr ?_)
  cases found : (finRange n).find? fun slot => s.state slot = .unused with
  | none => exact meets_pure.mpr exact
  | some child =>
    have unused : s.state child = .unused := by simpa using find?_some found
    have other : p ≠ child := by
      rintro rfl
      exact live.1 unused
    have vacant := exact.vacant child (by simp [Files.Live, unused])
    simp only
    split
    · -- the descriptors that are still to be copied are free in the child
      refine meets_bind.mpr (meets_set.mpr ?_)
      refine (meets_forM (fun rest t => rest.Nodup ∧ Exact t 0 ∧ t.Live child ∧
        ∀ fd ∈ rest, t.ofile (child, fd) = none) _ ⟨nodup_finRange nofile, ?_, ?_, ?_⟩ ?_).bind
        fun _ t done => ?_
      · exact exact.setState fun dead => by simp at dead
      · simp [Files.Live, Files.setState]
      · intro fd _
        exact vacant fd
      · rintro fd rest t ⟨distinct, exact, alive, free⟩
        obtain ⟨absent, restDistinct⟩ := nodup_cons.mp distinct
        refine meets_bind.mpr (meets_get.mpr ?_)
        cases points : t.ofile (p, fd) with
        | none =>
          exact meets_pure.mpr ⟨restDistinct, exact, alive, fun other member =>
            free other (mem_cons_of_mem fd member)⟩
        | some f =>
          refine (filedup_meets exact (exact.pointed points)).bind fun _ u counted =>
            meets_modify.mpr ⟨restDistinct, ?_, alive.kept counted.2.1, fun other member => ?_⟩
          · have empty : u.ofile (child, fd) = none := by
              rw [counted.2.2]
              exact free fd mem_cons_self
            simpa using counted.1.put empty (alive.kept counted.2.1) (f := f)
          · have different : other ≠ fd := fun same => absent (same ▸ member)
            have before := free other (mem_cons_of_mem fd member)
            simpa [Files.setSlot, different, counted.2.2] using before
      · refine meets_bind.mpr (meets_modify.mpr (meets_pure.mpr ?_))
        exact done.2.1.setState fun dead => by simp at dead
    · exact meets_pure.mpr exact

theorem exit_meets (exact : Exact s 0) :
    Meets (exit p) s (fun _ t => Exact t 0) fun _ => False := by
  -- the descriptors that the loop has passed are free
  refine (meets_forM (fun rest t => Exact t 0 ∧ ∀ fd, fd ∉ rest → t.ofile (p, fd) = none) _
    ⟨exact, fun fd absent => absurd (mem_finRange fd) absent⟩ ?_).bind fun _ t done => ?_
  · rintro fd rest t ⟨exact, closed⟩
    refine meets_bind.mpr (meets_get.mpr ?_)
    cases points : t.ofile (p, fd) with
    | none =>
      refine meets_pure.mpr ⟨exact, fun other absent => ?_⟩
      by_cases same : other = fd
      · rw [same, points]
      · exact closed other (by simp [same, absent])
    | some f =>
      refine (fileclose_meets exact (exact.pointed points)).bind fun _ u dropped => ?_
      have still : u.ofile (p, fd) = some f := by rw [dropped.2.2, points]
      refine (clearSlot_meets dropped.1 still).mono (fun _ v cleared => ?_) fun _ => id
      obtain ⟨exact, rfl⟩ := cleared
      refine ⟨by simpa using exact, fun other absent => ?_⟩
      by_cases same : other = fd
      · simp [Files.setSlot, same]
      · have before := closed other (by simp [same, absent])
        simpa [Files.setSlot, same, dropped.2.2] using before
  · exact meets_modify.mpr (done.1.setState fun _ fd => done.2 fd not_mem_nil)

/-- A system call of a process, or one of the two kernel actions that change which
slots are in use: `userinit` and the `freeproc` of `wait`. -/
inductive Event (n : Nat) where
  | userinit (p : Fin n)
  | open (p : Fin n) (request : OpenRequest)
  | dup (p : Fin n) (fd : Int)
  | pipe (p : Fin n) (page : Option Nat) (copied : Bool)
  | close (p : Fin n) (fd : Int)
  | fork (p : Fin n) (built copied : Bool)
  | exec (p : Fin n)
  | exit (p : Fin n)
  | wait (child : Fin n)

def Files.Enabled (s : Files n) : Event n → Prop
  | .userinit p => s.state p = .unused
  | .open p _ | .dup p _ | .pipe p _ _ | .close p _ | .fork p _ _ | .exec p | .exit p => s.Live p
  | .wait child => s.state child = .zombie

instance decidableEnabled (s : Files n) (event : Event n) : Decidable (s.Enabled event) := by
  cases event <;> unfold Files.Enabled <;> infer_instance

/-- `exec` keeps the descriptors of the process, whether it succeeds or not. -/
def perform : Event n → Call n Unit
  | .userinit p => modify fun s => s.setState p .runnable
  | .open p request => discard (sysOpen p request)
  | .dup p fd => discard (sysDup p fd)
  | .pipe p page copied => discard (sysPipe p page copied)
  | .close p fd => discard (sysClose p fd)
  | .fork p built copied => discard (fork p built copied)
  | .exec _ => pure ()
  | .exit p => exit p
  | .wait child => modify fun s => s.setState child .unused

def step : Except Panic (Files n) → Event n → Option (Except Panic (Files n))
  | .error _, _ => none
  | .ok s, event => if s.Enabled event then some ((perform event s).map (·.2)) else none

def boot (n : Nat) : Files n :=
  { file := fun _ => {}, ofile := fun _ => none, state := fun _ => .unused, released := [] }

/-- No panic, every count the number of descriptors, and no type without a reference. -/
def Counted : Except Panic (Files n) → Prop
  | .error _ => False
  | .ok s => ∀ f, (s.file f).ref = owners Finset.univ s.ofile f ∧
      ((s.file f).ref = 0 → (s.file f).type = .none)

theorem perform_meets (exact : Exact s 0) (enabled : s.Enabled event) :
    Meets (perform event) s (fun _ t => Exact t 0) fun _ => False := by
  cases event with
  | userinit p => exact meets_modify.mpr (exact.setState fun dead => by simp at dead)
  | «open» p request => exact meets_discard.mpr (sysOpen_meets exact enabled)
  | dup p fd => exact meets_discard.mpr (sysDup_meets exact enabled)
  | pipe p page copied => exact meets_discard.mpr (sysPipe_meets exact enabled)
  | close p fd => exact meets_discard.mpr (sysClose_meets exact)
  | fork p built copied => exact meets_discard.mpr (fork_meets exact enabled)
  | exec p => exact meets_pure.mpr exact
  | exit p => exact exit_meets exact
  | wait child =>
    refine meets_modify.mpr (exact.setState fun _ fd => ?_)
    have zombie : s.state child = .zombie := enabled
    exact exact.vacant child (by simp [Files.Live, zombie]) fd

/-- The invariant between system calls, with nothing in hand. -/
def Settled : Except Panic (Files n) → Prop
  | .error _ => False
  | .ok s => Exact s 0

theorem settled_step {state next : Except Panic (Files n)} (settled : Settled state)
    (taken : step state event = some next) : Settled next := by
  cases state with
  | error panic => cases taken
  | ok s =>
    simp only [step, Option.ite_none_right_eq_some, Option.some.injEq] at taken
    obtain ⟨enabled, rfl⟩ := taken
    obtain ⟨_, t, ended, after⟩ := (perform_meets settled enabled).ends
    rw [ended]
    exact after

/-- Whatever the processes do with descriptors, failing calls included, the count of
every file is the number of descriptors that point to it. -/
theorem file_references_counted (n : Nat) (events : List (Event n)) :
    Throughout step Counted (.ok (boot n)) events := by
  have start : Settled (.ok (boot n)) := by
    refine ⟨fun f => ?_, fun f _ => rfl, fun p _ fd => rfl⟩
    rw [owners_eq_zero fun _ => by simp [boot]]
    rfl
  have settled : Throughout step Settled (.ok (boot n)) events :=
    throughout_of_preserved (fun _ _ _ => settled_step) start
  refine settled.mono fun state holds => ?_
  cases state with
  | error panic => exact holds
  | ok s =>
    intro f
    refine ⟨?_, holds.closed f⟩
    simpa using holds.count f

end EnhancedXv6.OpenFile
