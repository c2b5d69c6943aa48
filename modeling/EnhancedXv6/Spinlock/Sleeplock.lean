import EnhancedXv6.Foundation.Run

/-! The sleep locks of `sleeplock.c`, with any number of processes. A step is a section under
`lk->lk`: `sleep` ends one, and the process tests again in the next. -/

namespace EnhancedXv6.Sleeplock

open Foundation Function

/-- A process is outside, in the `sleep` of `acquiresleep`, before the next test, or behind
`acquiresleep`. -/
inductive Phase
  | idle
  | asleep
  | woken
  | holding
  deriving DecidableEq

def Phase.wake : Phase → Phase
  | .asleep => .woken
  | phase => phase

/-- `struct sleeplock`, and the processes by their pids. -/
structure State where
  locked : Bool
  pid : Nat
  phase : Nat → Phase

def initsleeplock : State := ⟨false, 0, fun _ => .idle⟩

def State.acquiresleep (s : State) (p : Nat) : State :=
  if s.locked = true then
    { s with phase := update s.phase p .asleep }
  else
    ⟨true, p, update s.phase p .holding⟩

def State.releasesleep (s : State) (p : Nat) : State :=
  ⟨false, 0, update (fun q => (s.phase q).wake) p .idle⟩

def State.holdingsleep (s : State) (p : Nat) : Bool := s.locked && s.pid == p

/-- What `kill` does to a process: a sleeper is woken although the lock may be taken. -/
def State.kill (s : State) (p : Nat) : State :=
  { s with phase := update s.phase p (s.phase p).wake }

inductive Event
  | acquiresleep (p : Nat)
  | releasesleep (p : Nat)
  | kill (p : Nat)

def State.step (s : State) : Event → Option State
  | .acquiresleep p =>
    if s.phase p = .idle ∨ s.phase p = .woken then some (s.acquiresleep p) else none
  | .releasesleep p => if s.phase p = .holding then some (s.releasesleep p) else none
  | .kill p => some (s.kill p)

structure State.Good (s : State) : Prop where
  held : ∀ p, s.holdingsleep p = true ↔ s.phase p = .holding
  asleep : ∀ p, s.phase p = .asleep → s.locked = true

variable {s : State} {p : Nat}

theorem State.Good.acquiresleep (good : s.Good) (outside : s.phase p ≠ .holding) :
    (s.acquiresleep p).Good := by
  unfold State.acquiresleep
  split
  · rename_i locked
    refine ⟨(forall_update_iff s.phase fun q phase => s.holdingsleep q = true ↔
      phase = .holding).mpr ?_,
      fun _ _ => locked⟩
    exact ⟨iff_of_false (mt (good.held p).mp outside) nofun, fun q _ => good.held q⟩
  · rename_i free
    refine ⟨(forall_update_iff s.phase fun q phase => (true && p == q) = true ↔
      phase = .holding).mpr ?_, fun _ _ => rfl⟩
    refine ⟨by simp, fun q other => ?_⟩
    simp [← good.held q, holdingsleep, free, other.symm]

theorem State.Good.releasesleep (good : s.Good) (mine : s.phase p = .holding) :
    (s.releasesleep p).Good := by
  have owner : s.locked = true ∧ s.pid = p := by simpa [holdingsleep] using (good.held p).mpr mine
  refine ⟨(forall_update_iff _ fun _ phase => false = true ↔ phase = Phase.holding).mpr
    ⟨by simp, fun q other => ?_⟩,
    (forall_update_iff _ fun _ phase => phase = Phase.asleep → _).mpr ⟨nofun, fun q _ => ?_⟩⟩
  · have before := good.held q
    cases phase : s.phase q <;> simp_all [Phase.wake, holdingsleep]
  · cases s.phase q <;> simp [Phase.wake]

theorem State.Good.kill (good : s.Good) : (s.kill p).Good := by
  refine ⟨(forall_update_iff s.phase fun q phase => s.holdingsleep q = true ↔ phase = .holding).mpr
    ⟨?_, fun q _ => good.held q⟩, (forall_update_iff s.phase fun _ phase => phase = .asleep → _).mpr
    ⟨?_, fun q _ => good.asleep q⟩⟩
  · rw [good.held p]
    cases s.phase p <;> simp [Phase.wake]
  · cases s.phase p <;> simp [Phase.wake]

/-- A sleep lock is with one process at most, the one for which `holdingsleep` answers 1, and a
process sleeps only while the lock is with another one. -/
theorem sleeplock_exclusive (events : List Event) :
    Throughout State.step (fun s => (∀ p q, s.phase p = .holding → s.phase q = .holding → p = q) ∧
      (∀ p, s.holdingsleep p = true ↔ s.phase p = .holding) ∧
      ∀ p, s.phase p = .asleep → ∃ q ≠ p, s.phase q = .holding) initsleeplock events := by
  have always : Throughout State.step State.Good initsleeplock events := by
    refine throughout_of_preserved (fun s event t good taken => ?_)
      ⟨by simp [initsleeplock, State.holdingsleep], nofun⟩
    cases event with
    | acquiresleep p =>
      obtain ⟨outside, ⟨⟩⟩ := Option.ite_none_right_eq_some.mp taken
      exact good.acquiresleep (by rintro holds; simp [holds] at outside)
    | releasesleep p =>
      obtain ⟨mine, ⟨⟩⟩ := Option.ite_none_right_eq_some.mp taken
      exact good.releasesleep mine
    | kill p =>
      cases taken
      exact good.kill
  refine always.mono fun s good => ⟨fun p q first second => ?_, good.held, fun p asleep => ?_⟩
  · rw [← good.held, State.holdingsleep, Bool.and_eq_true, beq_iff_eq] at first second
    exact first.2.symm.trans second.2
  · have holds : s.phase s.pid = .holding := by
      rw [← good.held, State.holdingsleep, good.asleep p asleep, beq_self_eq_true, Bool.and_self]
    refine ⟨s.pid, fun same => ?_, holds⟩
    rw [same, asleep] at holds
    cases holds

end EnhancedXv6.Sleeplock
