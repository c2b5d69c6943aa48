import EnhancedXv6.Pipe.Pipe

namespace EnhancedXv6.Pipe

open Foundation Option Function List Bool Phase

variable {s t : State} {p q : Nat} {ch : UInt8} {copied : Bool} {i n : Int} {next : Phase}
  {file : End} {event : Event}

section Stream

/-- Every accepted byte has been delivered or is in the buffer, in order. -/
structure State.Stream (s : State) : Prop where
  reads : s.pipe.nread < 2 ^ 32
  writes : s.pipe.nwrite < 2 ^ 32
  few : ringCount (2 ^ 32) s.pipe.nread s.pipe.nwrite ≤ pipesize
  kept : s.delivered ++ s.pipe.buffered = s.accepted

structure State.Still (s t : State) : Prop where
  data : t.pipe.data = s.pipe.data
  nread : t.pipe.nread = s.pipe.nread
  nwrite : t.pipe.nwrite = s.pipe.nwrite
  accepted : t.accepted = s.accepted
  delivered : t.delivered = s.delivered

section

variable (stream : s.Stream)

include stream

theorem State.Stream.still (still : s.Still t) : t.Stream := by
  obtain ⟨data, nread, nwrite, accepted, delivered⟩ := still
  refine ⟨?_, ?_, ?_, ?_⟩
  · rw [nread]
    exact stream.reads
  · rw [nwrite]
    exact stream.writes
  · rw [nread, nwrite]
    exact stream.few
  · rw [accepted, delivered, ← stream.kept, PipeBuffer.buffered, data, nread, nwrite,
      PipeBuffer.buffered]

theorem State.Stream.push (room : ringCount (2 ^ 32) s.pipe.nread s.pipe.nwrite < pipesize) :
    State.Stream { s.goto p next with
      pipe := { s.pipe with
        data := update s.pipe.data (s.pipe.nwrite % pipesize) ch
        nwrite := (s.pipe.nwrite + 1) % 2 ^ 32 }
      accepted := s.accepted ++ [ch] } := by
  have bound : ringCount (2 ^ 32) s.pipe.nread s.pipe.nwrite + 1 < 2 ^ 32 :=
    Nat.lt_of_le_of_lt room (by decide)
  have count := ringCount_push stream.reads stream.writes bound
  have pushed : ringItems (update s.pipe.data (s.pipe.nwrite % pipesize) ch) pipesize _ _ _ = _ :=
    ringItems_push ch (by decide) (by decide) stream.reads stream.writes room
  refine ⟨stream.reads, Nat.mod_lt _ (by decide), count.trans_le room, ?_⟩
  calc s.delivered ++ ringItems _ pipesize _ _ _
      = s.delivered ++ (s.pipe.buffered ++ [ch]) := congrArg _ pushed
    _ = s.accepted ++ [ch] := by rw [← append_assoc, stream.kept]

theorem State.Stream.writeRound : (s.writeRound p i n ch copied).Stream := by
  unfold State.writeRound
  split
  · split
    · exact stream.still ⟨rfl, rfl, rfl, rfl, rfl⟩
    · split
      · exact stream.still ⟨rfl, rfl, rfl, rfl, rfl⟩
      · rename_i space
        rw [ring_full_iff stream.reads stream.writes (by decide)] at space
        have room : ringCount (2 ^ 32) s.pipe.nread s.pipe.nwrite < pipesize :=
          lt_of_le_of_ne stream.few space
        split
        · exact stream.still ⟨rfl, rfl, rfl, rfl, rfl⟩
        · exact stream.push room
  · exact stream.still ⟨rfl, rfl, rfl, rfl, rfl⟩

theorem State.Stream.pop (some : s.pipe.nread ≠ s.pipe.nwrite) : State.Stream { s.goto p next with
      pipe := { s.pipe with nread := (s.pipe.nread + 1) % 2 ^ 32 }
      delivered := s.delivered ++ [s.pipe.data (s.pipe.nread % pipesize)] } := by
  have popped : ringItems s.pipe.data pipesize _ _ _ = _ :=
    ringItems_pop stream.reads stream.writes some
  have count := ringCount_pop stream.reads stream.writes some
  refine ⟨Nat.mod_lt _ (by decide), stream.writes, ?_, ?_⟩
  · have few := stream.few
    dsimp only
    omega
  · calc s.delivered ++ [_] ++ ringItems s.pipe.data pipesize _ _ _
        = s.delivered ++ s.pipe.buffered := by
          rw [append_assoc, singleton_append, PipeBuffer.buffered, popped]
      _ = s.accepted := stream.kept

theorem State.Stream.readRound : (s.readRound p i n true).Stream := by
  unfold State.readRound
  split
  · rename_i more
    exact stream.pop more.2
  · exact stream.still ⟨rfl, rfl, rfl, rfl, rfl⟩

theorem State.Stream.waitRound : (s.waitRound p n).Stream := by
  unfold State.waitRound
  split
  · split <;> exact stream.still ⟨rfl, rfl, rfl, rfl, rfl⟩
  · exact stream.still ⟨rfl, rfl, rfl, rfl, rfl⟩

end

theorem State.still_pipeclose (s : State) (p : Nat) (file : End) :
    s.Still (s.pipeclose p file) := by
  unfold pipeclose
  dsimp only
  cases file <;> split <;> exact ⟨rfl, rfl, rfl, rfl, rfl⟩

end Stream

section Ends

/-- The end that a process is about to close, or that it is about to free the page. -/
def Phase.ending : Phase → Option (Option End)
  | .closing file => some (some file)
  | .freeing => some none
  | _ => none

def Phase.using : Phase → Option End
  | .writing _ _ _ => some .write
  | .waiting _ _ => some .read
  | .reading _ _ => some .read
  | _ => none

def State.isOpen (s : State) : End → Bool
  | .read => s.pipe.readopen
  | .write => s.pipe.writeopen

def State.ending (s : State) (p : Nat) : Option (Option End) := (s.phase p).ending

/-- Who has a descriptor of an end, which ends are open, how often the page was freed, and what
each process is about to end. -/
structure Closing (owners : End → List Nat) (flag : End → Bool) (freed : Nat)
    (ending : Nat → Option (Option End)) : Prop where
  isOpen : ∀ {file}, flag file = true ↔ owners file ≠ [] ∨ ∃ p, ending p = some (some file)
  closing : ∀ {p file}, ending p = some (some file) → owners file = []
  single : ∀ {p q x}, ending p = some x → ending q = some x → p = q
  before : ∀ {file}, flag file = true → freed = 0 ∧ ∀ p, ending p ≠ some none
  after : (∀ file, flag file = false) →
    freed = 1 ∧ (∀ p, ending p ≠ some none) ∨ freed = 0 ∧ ∃ p, ending p = some none

structure State.Ends (s : State) : Prop extends Closing s.owners s.isOpen s.freed s.ending where
  inside : ∀ {p file}, (s.phase p).using = some file → p ∈ s.owners file

section Closing

variable {owners owners' : End → List Nat} {flag : End → Bool} {freed : Nat}
  {ending : Nat → Option (Option End)}

theorem Closing.congr (closing : Closing owners flag freed ending)
    (empty : ∀ file, owners' file = [] ↔ owners file = []) : Closing owners' flag freed ending := by
  refine ⟨fun {file} => ?_, fun closes => (empty _).mpr (closing.closing closes), closing.single,
    closing.before, closing.after⟩
  rw [closing.isOpen, ne_eq, ne_eq, empty]

/-- The flag of an end is cleared by the process that closes it, which frees the page if no other
end is open. -/
theorem Closing.shut {next : Option (Option End)} (closing : Closing owners flag freed ending)
    (closes : ending p = some (some file))
    (outcome : next = some none ∧ (∀ f, update flag file false f = false) ∨
      next = none ∧ ∃ f, update flag file false f = true) :
    Closing owners (update flag file false) freed (update ending p next) := by
  obtain ⟨unfreed, nobody⟩ := closing.before (closing.isOpen.mpr (.inr ⟨p, closes⟩))
  -- who is closing an end afterwards was closing it before, and it is another end
  have still {q : Nat} {f : End} (later : update ending p next q = some (some f)) :
      f ≠ file ∧ ending q = some (some f) := by
    by_cases same : q = p
    · rw [same, update_self] at later
      rcases outcome with ⟨frees, _⟩ | ⟨leaves, _⟩
      · cases frees.symm.trans later
      · cases leaves.symm.trans later
    · rw [update_of_ne same] at later
      exact ⟨fun this => same (closing.single (this ▸ later) closes), later⟩
  have freesMe {q : Nat} (later : update ending p next q = some none) : q = p := by
    by_contra differ
    rw [update_of_ne differ] at later
    exact nobody q later
  refine ⟨fun {f} => ?_, fun later => closing.closing (still later).2,
    fun {q r x} first second => ?_, fun {f} stillOpen => ⟨unfreed, fun q later => ?_⟩,
    fun allShut => .inr ⟨unfreed, p, ?_⟩⟩
  · by_cases same : f = file
    · rw [same, update_self, closing.closing closes]
      refine iff_of_false false_ne_true ?_
      rintro (owned | ⟨q, later⟩)
      · exact owned rfl
      · exact (still later).1 rfl
    · rw [update_of_ne same, closing.isOpen]
      refine or_congr_right ⟨?_, fun ⟨q, later⟩ => ⟨q, (still later).2⟩⟩
      rintro ⟨q, earlier⟩
      have differ : q ≠ p := by
        rintro rfl
        cases closes.symm.trans earlier
        exact same rfl
      exact ⟨q, (update_of_ne differ _ _).trans earlier⟩
  · cases x with
    | none => rw [freesMe first, freesMe second]
    | some f => exact closing.single (still first).2 (still second).2
  · obtain rfl := freesMe later
    rw [update_self] at later
    rcases outcome with ⟨_, allShut⟩ | ⟨leaves, _⟩
    · cases (allShut f).symm.trans stillOpen
    · cases leaves.symm.trans later
  · rw [update_self]
    rcases outcome with ⟨frees, _⟩ | ⟨_, f, stillOpen⟩
    · exact frees
    · cases (allShut f).symm.trans stillOpen

theorem Closing.free (closing : Closing owners flag freed ending) (frees : ending p = some none) :
    Closing owners flag (freed + 1) (update ending p none) := by
  have shut (f : End) : flag f = false :=
    eq_false_of_not_eq_true fun isOpen => (closing.before isOpen).2 p frees
  have unfreed : freed = 0 := by
    rcases closing.after shut with ⟨_, nobody⟩ | ⟨zero, _⟩
    · exact absurd frees (nobody p)
    · exact zero
  have still {q : Nat} {x : Option End} (later : update ending p none q = some x) :
      q ≠ p ∧ ending q = some x := by
    by_cases same : q = p
    · rw [same, update_self] at later
      cases later
    · rw [update_of_ne same] at later
      exact ⟨same, later⟩
  refine ⟨fun {f} => ?_, fun later => closing.closing (still later).2,
    fun first second => closing.single (still first).2 (still second).2,
    fun {f} isOpen => absurd ((shut f).symm.trans isOpen) false_ne_true,
    fun _ => .inl ⟨by rw [unfreed], ?_⟩⟩
  · rw [closing.isOpen]
    refine or_congr_right ⟨fun ⟨q, earlier⟩ => ?_, fun ⟨q, later⟩ => ⟨q, (still later).2⟩⟩
    have stillOpen := closing.isOpen.mpr (.inr ⟨q, earlier⟩)
    cases (shut f).symm.trans stillOpen
  · intro q later
    exact (still later).1 (closing.single (still later).2 frees)

/-- A process gives up a descriptor; the last one goes on to close the end. -/
theorem Closing.close (closing : Closing owners flag freed ending) (member : p ∈ owners file)
    (idle : ending p = none) : Closing (update owners file ((owners file).erase p)) flag freed
      (update ending p (if (owners file).erase p = [] then some (some file) else none)) := by
  have isOpen : flag file = true := closing.isOpen.mpr (.inl (ne_nil_of_mem member))
  have nobody (q : Nat) : ending q ≠ some (some file) :=
    fun closes => ne_nil_of_mem member (closing.closing closes)
  generalize remain : (owners file).erase p = left
  have later {q : Nat} {x : Option End}
      (ends : update ending p (if left = [] then some (some file) else none) q = some x) :
      (q = p ∧ x = some file ∧ left = []) ∨ ending q = some x := by
    by_cases same : q = p
    · rw [same, update_self] at ends
      split at ends
      · rename_i empty
        exact .inl ⟨same, (some.inj ends).symm, empty⟩
      · cases ends
    · rw [update_of_ne same] at ends
      exact .inr ends
  refine ⟨fun {f} => ?_, fun {q f} closes => ?_, fun {q r x} first second => ?_,
    fun {f} _ => ⟨(closing.before isOpen).1, fun q frees => ?_⟩, fun shut => ?_⟩
  · by_cases this : f = file
    · rw [this, update_self]
      refine iff_of_true isOpen ?_
      by_cases empty : left = []
      · exact .inr ⟨p, by rw [update_self, if_pos empty]⟩
      · exact .inl empty
    · rw [update_of_ne this, closing.isOpen]
      refine or_congr_right ⟨fun ⟨q, closes⟩ => ⟨q, ?_⟩, fun ⟨q, closes⟩ => ⟨q, ?_⟩⟩
      · rw [update_of_ne (by rintro rfl; cases idle.symm.trans closes)]
        exact closes
      · exact (later closes).resolve_left fun ⟨_, same, _⟩ => this (some.inj same)
  · rcases later closes with ⟨_, same, empty⟩ | earlier
    · rw [some.inj same, update_self, empty]
    · rw [update_of_ne (by rintro rfl; exact nobody q earlier)]
      exact closing.closing earlier
  · rcases later first with ⟨me, ours, _⟩ | was <;> rcases later second with ⟨also, too, _⟩ | then_
    · exact me.trans also.symm
    · exact absurd (ours ▸ then_) (nobody r)
    · exact absurd (too ▸ was) (nobody q)
    · exact closing.single was then_
  · rcases later frees with ⟨_, same, _⟩ | earlier
    · cases same
    · exact (closing.before isOpen).2 q earlier
  · cases (shut file).symm.trans isOpen

end Closing

theorem Phase.wake_ending (chan : Chan) (phase : Phase) :
    (phase.wake chan).ending = phase.ending := by
  unfold wake
  split
  · split <;> rfl
  · split <;> rfl
  · rfl

theorem Phase.wake_using (chan : Chan) (phase : Phase) : (phase.wake chan).using = phase.using := by
  unfold wake
  split
  · split <;> rfl
  · split <;> rfl
  · rfl

theorem State.Ends.keep (ends : s.Ends) (empty : ∀ file, t.owners file = [] ↔ s.owners file = [])
    (inside : ∀ p file, (t.phase p).using = some file → p ∈ t.owners file)
    (ending : t.ending = s.ending) (flags : t.isOpen = s.isOpen) (freed : t.freed = s.freed) :
    t.Ends := by
  refine ⟨?_, fun {p file} => inside p file⟩
  rw [ending, flags, freed]
  exact ends.toClosing.congr empty

theorem State.isOpen_congr (read : t.pipe.readopen = s.pipe.readopen)
    (write : t.pipe.writeopen = s.pipe.writeopen) : t.isOpen = s.isOpen := by
  funext file
  cases file with
  | read => exact read
  | write => exact write

theorem State.goto_ending (s : State) (p : Nat) (next : Phase) :
    (s.goto p next).ending = update s.ending p next.ending :=
  comp_update Phase.ending s.phase p next

theorem State.goto_inside (inside : ∀ {q file}, (s.phase q).using = some file → q ∈ s.owners file)
    (own : ∀ file, next.using = some file → p ∈ s.owners file) (q : Nat) (file : End)
    (uses : ((s.goto p next).phase q).using = some file) : q ∈ s.owners file :=
  (forall_update_iff s.phase fun q phase => ∀ file, phase.using = some file → q ∈ s.owners file).mpr
    ⟨own, fun _ _ _ => inside⟩ q file uses

/-- A process goes on inside the code of the same end, or leaves it. -/
theorem State.Ends.goto (ends : s.Ends) (owners : t.owners = s.owners)
    (read : t.pipe.readopen = s.pipe.readopen) (write : t.pipe.writeopen = s.pipe.writeopen)
    (freed : t.freed = s.freed) (phase : t.phase = (s.goto p next).phase)
    (own : next.using = none ∨ ∃ file, next.using = some file ∧ p ∈ s.owners file)
    (ending : (s.phase p).ending = next.ending) : t.Ends := by
  refine ends.keep (fun file => by rw [owners]) (fun q file => ?_) ?_
    (isOpen_congr read write) freed
  · rw [owners, phase]
    refine goto_inside ends.inside (fun f uses => ?_) q file
    rcases own with none | ⟨f, some, member⟩
    · cases none.symm.trans uses
    · cases some.symm.trans uses
      exact member
  · have same : t.ending = (s.goto p next).ending := congrArg (Phase.ending ∘ ·) phase
    rw [same, goto_ending, ← ending]
    exact update_eq_self p s.ending

theorem State.Ends.wakeup (ends : s.Ends) (chan : Chan) : (s.wakeup chan).Ends := by
  refine ends.keep (fun _ => .rfl) ?_ (funext fun _ => wake_ending chan _)
    (isOpen_congr rfl rfl) rfl
  intro p file inside
  exact ends.inside ((wake_using chan _).symm.trans inside)

theorem State.Ends.writeRound (ends : s.Ends) (member : p ∈ s.owners .write)
    (ending : (s.phase p).ending = none) : (s.writeRound p i n ch copied).Ends := by
  have woken : ((s.wakeup .nread).phase p).ending = none := (wake_ending _ _).trans ending
  unfold State.writeRound
  split
  · split
    · exact ends.goto rfl rfl rfl rfl rfl (.inl rfl) ending
    · split
      · exact (ends.wakeup .nread).goto rfl rfl rfl rfl rfl (.inr ⟨.write, rfl, member⟩) woken
      · split
        · exact (ends.wakeup .nread).goto rfl rfl rfl rfl rfl (.inl rfl) woken
        · exact ends.goto rfl rfl rfl rfl rfl (.inr ⟨.write, rfl, member⟩) ending
  · exact (ends.wakeup .nread).goto rfl rfl rfl rfl rfl (.inl rfl) woken

theorem State.Ends.waitRound (ends : s.Ends) (member : p ∈ s.owners .read)
    (ending : (s.phase p).ending = none) : (s.waitRound p n).Ends := by
  unfold State.waitRound
  split
  · split
    · exact ends.goto rfl rfl rfl rfl rfl (.inl rfl) ending
    · exact ends.goto rfl rfl rfl rfl rfl (.inr ⟨.read, rfl, member⟩) ending
  · exact ends.goto rfl rfl rfl rfl rfl (.inr ⟨.read, rfl, member⟩) ending

theorem State.Ends.readRound (ends : s.Ends) (member : p ∈ s.owners .read)
    (ending : (s.phase p).ending = none) : (s.readRound p i n copied).Ends := by
  have woken : ((s.wakeup .nwrite).phase p).ending = none := (wake_ending _ _).trans ending
  unfold State.readRound
  split
  · dsimp only
    split
    · exact ends.goto rfl rfl rfl rfl rfl (.inr ⟨.read, rfl, member⟩) ending
    · exact (ends.wakeup .nwrite).goto rfl rfl rfl rfl rfl (.inl rfl) woken
  · exact (ends.wakeup .nwrite).goto rfl rfl rfl rfl rfl (.inl rfl) woken

theorem State.shut_isOpen (s : State) (file : End) :
    (s.shut file).isOpen = update s.isOpen file false := by
  funext other
  cases file <;> cases other <;> rfl

theorem State.shut_ending (s : State) (file : End) : (s.shut file).ending = s.ending := by
  funext p
  cases file <;> exact wake_ending _ _

theorem State.shut_using (s : State) (p : Nat) (file : End) :
    ((s.shut file).phase p).using = (s.phase p).using := by
  cases file <;> exact wake_using _ _

theorem State.shut_owners (s : State) (file : End) : (s.shut file).owners = s.owners := by
  cases file <;> rfl

theorem State.shut_freed (s : State) (file : End) : (s.shut file).freed = s.freed := by
  cases file <;> rfl

theorem State.allShut_iff (s : State) :
    (s.pipe.readopen = false ∧ s.pipe.writeopen = false) ↔ ∀ file, s.isOpen file = false := by
  constructor
  · rintro ⟨read, write⟩ (_ | _)
    · exact read
    · exact write
  · intro shut
    exact ⟨shut .read, shut .write⟩

/-- `pipeclose` goes on to free the page if both ends are closed. -/
theorem State.pipeclose_eq (s : State) (p : Nat) (file : End) :
    ∃ next, s.pipeclose p file = (s.shut file).goto p next ∧ next.using = none ∧
      (next.ending = some none ∧ (∀ f, (s.shut file).isOpen f = false) ∨
        next.ending = none ∧ ∃ f, (s.shut file).isOpen f = true) := by
  unfold State.pipeclose
  dsimp only
  split
  · rename_i both
    exact ⟨.freeing, rfl, rfl, .inl ⟨rfl, (allShut_iff _).mp both⟩⟩
  · rename_i one
    rw [allShut_iff, not_forall] at one
    obtain ⟨f, stillOpen⟩ := one
    exact ⟨.idle, rfl, rfl, .inr ⟨rfl, f, eq_true_of_not_eq_false stillOpen⟩⟩

/-- The last one to close an end is the only one that frees the page. -/
theorem State.Ends.pipeclose (ends : s.Ends) (phase : s.phase p = .closing file) :
    (s.pipeclose p file).Ends := by
  have closes : s.ending p = some (some file) := congrArg Phase.ending phase
  obtain ⟨next, result, unused, outcome⟩ := s.pipeclose_eq p file
  rw [result]
  refine ⟨?_, fun {q f} => goto_inside (fun {q f} uses => ?_) (fun f uses => ?_) q f⟩
  · rw [shut_isOpen] at outcome
    have shut := ends.toClosing.shut closes outcome
    rw [← shut_isOpen, ← s.shut_ending file, ← goto_ending, ← s.shut_owners file,
      ← s.shut_freed file] at shut
    exact shut
  · rw [shut_using] at uses
    rw [shut_owners]
    exact ends.inside uses
  · cases unused.symm.trans uses

theorem State.Ends.free (ends : s.Ends) (phase : s.phase p = .freeing) :
    State.Ends { s.goto p .idle with freed := s.freed + 1 } := by
  have frees : s.ending p = some none := congrArg Phase.ending phase
  refine ⟨?_, fun {q f} => goto_inside ends.inside (fun _ uses => by cases uses) q f⟩
  have freed := ends.toClosing.free frees
  rw [show update s.ending p none =
    (s.goto p .idle).ending from (s.goto_ending p .idle).symm] at freed
  exact freed

/-- The reference count of the file reaches zero for the process that goes on to close the end. -/
theorem State.Ends.fileclose (ends : s.Ends) (phase : s.phase p = .idle)
    (member : p ∈ s.owners file) : (s.fileclose p file).Ends := by
  have idle : s.ending p = none := congrArg Phase.ending phase
  have closed := ends.toClosing.close member idle
  have ending : (s.fileclose p file).ending =
      update s.ending p (if (s.owners file).erase p = [] then some (some file) else none) := by
    refine (s.goto_ending p _).trans (congrArg (update s.ending p) ?_)
    split <;> rfl
  rw [← ending] at closed
  refine ⟨closed, fun {q f} uses => ?_⟩
  have quiet (f : End) :
      (if (s.owners file).erase p = [] then Phase.closing file else .idle).using ≠ some f := by
    split <;> nofun
  by_cases same : q = p
  · subst same
    exact absurd (((congrArg Phase.using (update_self q _ s.phase)).symm).trans uses) (quiet f)
  · have earlier : (s.phase q).using = some f :=
      (congrArg Phase.using (update_of_ne same _ s.phase)).symm.trans uses
    refine (forall_update_iff s.owners fun f list => q ∈ s.owners f → q ∈ list).mpr
      ⟨?_, fun _ _ => id⟩ f
      (ends.inside earlier)
    exact (mem_erase_of_ne same).mpr

theorem State.Ends.kill (ends : s.Ends) (p : Nat) : (s.kill p).Ends := by
  have woken : ∀ phase : Phase, ((phase.wake .nread).wake .nwrite).using = phase.using ∧
      ((phase.wake .nread).wake .nwrite).ending = phase.ending := fun phase =>
    ⟨(wake_using _ _).trans (wake_using _ _), (wake_ending _ _).trans (wake_ending _ _)⟩
  refine ends.goto (p := p) rfl rfl rfl rfl rfl ?_ (woken _).2.symm
  rw [(woken _).1]
  cases inside : (s.phase p).using with
  | none => exact .inl rfl
  | some file => exact .inr ⟨file, rfl, ends.inside inside⟩

theorem State.Ends.filedup (ends : s.Ends) (member : p ∈ s.owners file) (child : Nat) :
    State.Ends { s with owners := update s.owners file (child :: s.owners file) } := by
  refine ends.keep
    (forall_update_iff s.owners (fun f list => list = [] ↔ s.owners f = []) |>.mpr ?_)
    (fun q f uses => ?_) rfl (isOpen_congr rfl rfl) rfl
  · exact ⟨iff_of_false (cons_ne_nil _ _) (ne_nil_of_mem member), fun _ _ => .rfl⟩
  · refine (forall_update_iff s.owners fun f list => q ∈ s.owners f → q ∈ list).mpr
      ⟨mem_cons_of_mem _, fun _ _ => id⟩ f (ends.inside uses)

theorem State.Ends.boot (creator : Nat) (page : Nat → UInt8) : (State.boot creator page).Ends := by
  have isOpen (file : End) : (State.boot creator page).isOpen file = true := by cases file <;> rfl
  refine ⟨⟨fun {file} => iff_of_true (isOpen file) (.inl (cons_ne_nil _ _)), nofun, nofun,
    fun _ => ⟨rfl, fun _ => nofun⟩, fun shut => ?_⟩, nofun⟩
  cases (shut .read).symm.trans (isOpen .read)

end Ends

theorem State.Stream.boot (creator : Nat) (page : Nat → UInt8) :
    (State.boot creator page).Stream := by
  have empty : ringCount (2 ^ 32) 0 0 = 0 := ringCount_self
  refine ⟨show 0 < 2 ^ 32 by decide, show 0 < 2 ^ 32 by decide, ?_, ?_⟩
  · exact empty.trans_le (by decide)
  · simp only [State.boot, PipeBuffer.buffered, ringItems, empty, range_zero, map_nil, append_nil]

section Steps

theorem State.keeps_acquire (stream : s.Stream) (ends : s.Ends) (taken : s.acquire p next = some t)
    (inside : (s.phase p).using = some file) (stays : next.using = some file)
    (ending : (s.phase p).ending = next.ending) : t.Stream ∧ t.Ends := by
  simp only [acquire, ite_none_right_eq_some, some.injEq] at taken
  obtain ⟨_, rfl⟩ := taken
  exact ⟨stream.still ⟨rfl, rfl, rfl, rfl, rfl⟩,
    ends.goto rfl rfl rfl rfl rfl (.inr ⟨file, stays, ends.inside inside⟩) ending⟩

theorem State.keeps_advance (stream : s.Stream) (ends : s.Ends)
    (taken : s.advance p ch true = some t) : t.Stream ∧ t.Ends := by
  unfold advance at taken
  cases phase : s.phase p with
  | idle => simp [phase] at taken
  | writing stage i n =>
    have inside : (s.phase p).using = some .write := by rw [phase]; rfl
    have ending : (s.phase p).ending = none := by rw [phase]; rfl
    cases stage with
    | acquire =>
      simp only [phase] at taken
      exact keeps_acquire stream ends taken inside rfl ending
    | locked =>
      simp only [phase, some.injEq] at taken
      subst taken
      exact ⟨stream.writeRound, ends.writeRound (ends.inside inside) ending⟩
    | asleep chan => simp [phase] at taken
  | waiting stage n =>
    have inside : (s.phase p).using = some .read := by rw [phase]; rfl
    have ending : (s.phase p).ending = none := by rw [phase]; rfl
    cases stage with
    | acquire =>
      simp only [phase] at taken
      exact keeps_acquire stream ends taken inside rfl ending
    | locked =>
      simp only [phase, some.injEq] at taken
      subst taken
      exact ⟨stream.waitRound, ends.waitRound (ends.inside inside) ending⟩
    | asleep chan => simp [phase] at taken
  | reading i n =>
    simp only [phase, some.injEq] at taken
    subst taken
    exact ⟨stream.readRound, ends.readRound (ends.inside (by rw [phase]; rfl)) (by rw [phase]; rfl)⟩
  | closing file =>
    simp only [phase, ite_none_right_eq_some, some.injEq] at taken
    obtain ⟨_, rfl⟩ := taken
    exact ⟨stream.still (s.still_pipeclose p file), ends.pipeclose phase⟩
  | freeing =>
    simp only [phase, some.injEq] at taken
    subst taken
    exact ⟨stream.still ⟨rfl, rfl, rfl, rfl, rfl⟩, ends.free phase⟩

/-- The `copyin` or `copyout` of a round succeeds. -/
def Event.Copies : Event → Prop
  | .advance _ _ copied => copied = true
  | _ => True

theorem State.keeps_step (stream : s.Stream) (ends : s.Ends) (copies : event.Copies)
    (taken : s.step event = some t) : t.Stream ∧ t.Ends := by
  cases event with
  | advance p ch copied =>
    cases copies
    exact keeps_advance stream ends taken
  | kill p =>
    cases taken
    exact ⟨stream.still ⟨rfl, rfl, rfl, rfl, rfl⟩, ends.kill p⟩
  | write p n | read p n =>
    simp only [step, ite_none_right_eq_some, some.injEq] at taken
    obtain ⟨⟨phase, member⟩, rfl⟩ := taken
    exact ⟨stream.still ⟨rfl, rfl, rfl, rfl, rfl⟩,
      ends.goto (p := p) rfl rfl rfl rfl rfl (.inr ⟨_, rfl, member⟩) (by rw [phase]; rfl)⟩
  | filedup p file child =>
    simp only [step, ite_none_right_eq_some, some.injEq] at taken
    obtain ⟨⟨_, member⟩, rfl⟩ := taken
    exact ⟨stream.still ⟨rfl, rfl, rfl, rfl, rfl⟩, ends.filedup member child⟩
  | fileclose p file =>
    simp only [step, ite_none_right_eq_some, some.injEq] at taken
    obtain ⟨⟨phase, member⟩, rfl⟩ := taken
    exact ⟨stream.still ⟨rfl, rfl, rfl, rfl, rfl⟩, ends.fileclose phase member⟩

end Steps

theorem State.Ends.shut_of_freed (ends : s.Ends) (freed : 0 < s.freed) (file : End) :
    s.isOpen file = false := by
  refine eq_false_of_not_eq_true fun isOpen => ?_
  have none := (ends.before isOpen).1
  omega

theorem State.Ends.idle (ends : s.Ends) (freed : 0 < s.freed) (p : Nat) : s.phase p = .idle := by
  have shut := ends.shut_of_freed freed
  have nobody (file : End) : ¬ (s.owners file ≠ [] ∨ ∃ q, s.ending q = some (some file)) := by
    rw [← ends.isOpen, shut file]
    exact false_ne_true
  have unused (file : End) : (s.phase p).using ≠ some file := by
    intro inside
    exact nobody file (.inl (ne_nil_of_mem (ends.inside inside)))
  have notFreeing : (s.phase p).ending ≠ some none := by
    rcases ends.after shut with ⟨_, none⟩ | ⟨zero, _⟩
    · exact none p
    · omega
  cases phase : s.phase p with
  | idle => rfl
  | writing stage i n => exact absurd (by rw [phase]; rfl) (unused .write)
  | waiting | reading => exact absurd (by rw [phase]; rfl) (unused .read)
  | closing file => exact absurd (.inr ⟨p, congrArg Phase.ending phase⟩) (nobody file)
  | freeing => exact absurd (by rw [phase]; rfl) notFreeing

theorem Phase.ending_freeing {phase : Phase} (frees : phase.ending = some none) :
    phase = .freeing := by
  cases phase <;> first | rfl | cases frees

theorem State.Ends.freed_le (ends : s.Ends) : s.freed ≤ 1 := by
  by_cases shut : ∀ file, s.isOpen file = false
  · rcases ends.after shut with ⟨one, _⟩ | ⟨zero, _⟩ <;> omega
  · obtain ⟨file, isOpen⟩ := not_forall.mp shut
    have zero := (ends.before (eq_true_of_not_eq_false isOpen)).1
    omega

theorem State.Ends.freed_once (ends : s.Ends) (shut : ∀ file, s.isOpen file = false) :
    s.freed = 1 ∨ s.freed = 0 ∧ ∃! p, s.phase p = .freeing := by
  rcases ends.after shut with ⟨one, _⟩ | ⟨zero, p, frees⟩
  · exact .inl one
  · refine .inr ⟨zero, p, ending_freeing frees, fun q also => ?_⟩
    exact ends.single (congrArg Phase.ending also) frees

/-- Any number of processes may be at the ends of the pipe. Its page is freed at most once, never
before both ends are closed, and never while a process is in the code of an end; once both
are closed it has been freed or one process is about to free it. -/
theorem pipe_lossless_fifo (creator : Nat) (page : Nat → UInt8) (events : List Event) (s : State)
    (copies : ∀ event ∈ events, event.Copies)
    (run : exec State.step (State.boot creator page) events = some s) :
    ringCount (2 ^ 32) s.pipe.nread s.pipe.nwrite ≤ pipesize ∧
      s.delivered ++ s.pipe.buffered = s.accepted ∧
      s.freed ≤ 1 ∧
      (0 < s.freed → s.pipe.readopen = false ∧ s.pipe.writeopen = false ∧
        ∀ p, s.phase p = .idle) ∧
      (s.pipe.readopen = false → s.pipe.writeopen = false →
        s.freed = 1 ∨ s.freed = 0 ∧ ∃! p, s.phase p = .freeing) := by
  have preserved (s : State) (event : Event) (t : State) (holds : s.Stream ∧ s.Ends)
      (copies : event.Copies) (taken : s.step event = some t) : t.Stream ∧ t.Ends :=
    State.keeps_step holds.1 holds.2 copies taken
  obtain ⟨stream, ends⟩ := (throughout_of_along preserved
    ⟨State.Stream.boot creator page, State.Ends.boot creator page⟩
      (along_of_forall copies)).final run
  refine ⟨stream.few, stream.kept, ends.freed_le, fun freed => ?_, fun read write => ?_⟩
  · exact ⟨ends.shut_of_freed freed .read, ends.shut_of_freed freed .write, ends.idle freed⟩
  · exact ends.freed_once (s.allShut_iff.mp ⟨read, write⟩)

/-- Process 0 makes the pipe and forks process 1. Each closes the end it does not use; one byte
goes from 0 to 1, who sleeps before it comes, and then both close their ends. -/
def oneByte : List Event :=
  [.filedup 0 .read 1, .filedup 0 .write 1, .fileclose 0 .read, .fileclose 1 .write,
    .read 1 4, .advance 1 0 true, .advance 1 0 true,
    .write 0 1, .advance 0 0 true, .advance 0 88 true, .advance 0 0 true,
    .advance 1 0 true, .advance 1 0 true, .advance 1 0 true, .advance 1 0 true,
    .fileclose 0 .write, .fileclose 1 .read, .advance 1 0 true, .advance 0 0 true,
    .advance 0 0 true]

theorem pipe_lossless_fifo_one_byte :
    ∃ s, exec State.step (State.boot 0 fun _ => 0) oneByte = some s ∧ s.accepted = [88] ∧
      s.delivered ++ s.pipe.buffered = [88] ∧ 0 < s.freed ∧ s.freed ≤ 1 := by
  have ends : (exec State.step (State.boot 0 fun _ => 0) oneByte).map
      (fun s => (s.accepted, s.delivered, s.freed)) = some ([88], [88], 1) := by decide +kernel
  obtain ⟨s, run, result⟩ := map_eq_some_iff.mp ends
  simp only [Prod.mk.injEq] at result
  obtain ⟨accepted, _, freed⟩ := result
  have copies : ∀ event ∈ oneByte, event.Copies := by
    unfold oneByte Event.Copies
    simp
  obtain ⟨_, kept, once, _⟩ := pipe_lossless_fifo 0 _ oneByte s copies run
  exact ⟨s, run, accepted, kept.trans accepted, by omega, once⟩

end EnhancedXv6.Pipe
