import EnhancedXv6.Log.Commit

namespace EnhancedXv6.Log

open Foundation Function Option Phase
open List hiding tail count

/-- The file system after all groups whose commit has ended. -/
def State.base (s : State) (image : Disk) : Disk := applyAll s.completed image

/-- Processes read the file system as the current group leaves it. -/
def State.Sees (s : State) (layout : Layout) (image : Disk) : Prop :=
  ∀ blockno, ¬ layout.Holds blockno → s.bread blockno = s.current.apply (s.base image) blockno

/-- A disk from which recovery gives the file system either as the completed groups
left it or with the whole interrupted group added; `tail` counts the blocks that
this recovery has installed. -/
def Recoverable (layout : Layout) (base : Disk) (interrupted : Option Group) (disk : Disk)
    (tail : Nat) : Prop :=
  Logging layout base [] [] disk 0 ∨
    ∃ group blocks, interrupted = some group ∧ blocks ≠ [] ∧ Covers layout group blocks ∧
      Committed layout base group blocks disk tail

/-- What the disk and the header in memory hold in each phase. -/
def State.PhaseHolds (layout : Layout) (image : Disk) (s : State) : Prop :=
  match s.phase with
  | .running => s.committing = false ∧ Covers layout s.current s.lh ∧
      Logging layout (s.base image) s.current s.lh s.disk 0 ∧ s.Sees layout image ∧
      ∀ blockno ∈ s.lh, blockno ∈ s.pins
  | .writeLog tail => s.committing = true ∧ s.active = [] ∧ s.lh ≠ [] ∧
      Covers layout s.current s.lh ∧
      Logging layout (s.base image) s.current s.lh s.disk tail ∧ s.Sees layout image
  | .install tail => s.committing = true ∧ s.active = [] ∧ s.lh ≠ [] ∧
      Covers layout s.current s.lh ∧
      Committed layout (s.base image) s.current s.lh s.disk tail ∧ s.Sees layout image
  | .unlock => s.committing = true ∧ s.active = [] ∧ s.lh = [] ∧ s.current = [] ∧
      Logging layout (s.base image) [] [] s.disk 0 ∧ s.Sees layout image
  | .readHead => s.active = [] ∧ s.current = [] ∧ s.pins = [] ∧ s.committing = false ∧
      Recoverable layout (s.base image) s.interrupted s.disk 0
  | .recover tail => s.active = [] ∧ s.current = [] ∧ s.pins = [] ∧ s.committing = false ∧
      s.lh = readHead (s.disk layout.start) ∧
      Recoverable layout (s.base image) s.interrupted s.disk tail

/-- The operations that may still log or whose group is not settled. -/
def State.open (s : State) : List Nat :=
  s.current.map Write.op ++ s.interrupted.toList.flatten.map Write.op ++ s.active.map Prod.snd

/-- Operations are numbered in the order of their groups. -/
structure State.Ordered (s : State) : Prop where
  groups : s.completed.Pairwise fun earlier later =>
    ∀ write ∈ earlier, ∀ next ∈ later, write.op < next.op
  settled : ∀ group ∈ s.completed, ∀ write ∈ group, write.op < s.nextOp ∧
    ∀ op ∈ s.open, write.op < op
  fresh : ∀ op ∈ s.open, op < s.nextOp

structure State.Valid (layout : Layout) (image : Disk) (s : State) : Prop where
  coherent : ∀ blockno data, blockno ∉ s.pins → s.cached blockno = some data →
    data = s.disk blockno
  pinned : ∀ blockno ∈ s.pins, ¬ layout.Holds blockno
  counted : s.outstanding = s.active.length
  recovered : s.phase.recovering = false → s.interrupted = none
  ordered : s.Ordered
  phase : s.PhaseHolds layout image

variable {layout : Layout} {image : Disk} {s t : State}

/-- `log_write` enters a block in the header unless it is there. -/
theorem Covers.log {group : Group} {blocks : List Nat} (covers : Covers layout group blocks)
    (outside : ¬ layout.Holds blockno) (room : blocks.length < layout.size - 1) (op : Nat)
    (data : Block) :
    Covers layout (group ++ [⟨op, blockno, data⟩])
      (if blockno ∈ blocks then blocks else blocks ++ [blockno]) := by
  refine ⟨fun other listed => ?_, ?_, fun write member => ?_⟩
  · split at listed
    · exact covers.outside other listed
    · rcases mem_append.mp listed with old | new
      · exact covers.outside other old
      · exact (mem_singleton.mp new) ▸ outside
  · split
    · exact covers.fits
    · simp only [length_append, length_singleton]
      omega
  · rcases mem_append.mp member with old | new
    · have listed := covers.lists write old
      split
      · exact listed
      · exact mem_append_left _ listed
    · rw [mem_singleton.mp new]
      split
      · assumption
      · simp

theorem State.Valid.bread_unpinned (valid : s.Valid layout image) (free : blockno ∉ s.pins) :
    s.bread blockno = s.disk blockno := by
  unfold bread
  cases found : s.cached blockno with
  | none => rfl
  | some data => exact valid.coherent blockno data free found

theorem State.Valid.bread_log (valid : s.Valid layout image) (held : layout.Holds blockno) :
    s.bread blockno = s.disk blockno :=
  valid.bread_unpinned fun member => valid.pinned blockno member held

private theorem mem_of_lookup {entries : List (Nat × Nat)}
    (found : entries.lookup key = some value) : (key, value) ∈ entries := by
  obtain ⟨before, after, split, _⟩ := lookup_eq_some_iff.mp found
  simp [split]

theorem State.open_logWrite {op : Nat} (found : s.active.lookup process = some op)
    (current : t.current = s.current ++ [⟨op, blockno, data⟩])
    (interrupted : t.interrupted = s.interrupted)
    (active : t.active = s.active) (other : Nat) (waiting : other ∈ t.open) : other ∈ s.open := by
  have own : op ∈ s.active.map Prod.snd := mem_map.mpr ⟨_, mem_of_lookup found, rfl⟩
  simp only [State.open, current, interrupted, active, map_append, mem_append] at waiting ⊢
  rcases waiting with ((old | new) | before) | now
  · exact .inl (.inl old)
  · simp only [map_cons, map_nil, mem_singleton] at new
    exact .inr (new ▸ own)
  · exact .inl (.inr before)
  · exact .inr now

open State

/-- Only in the phase `running` are there processes inside an operation. -/
theorem State.Valid.running_of_active (valid : s.Valid layout image)
    (found : s.active.lookup process = some op) : s.phase = .running := by
  have occupied : s.active ≠ [] := by
    intro empty
    simp [empty] at found
  have holds := valid.phase
  unfold PhaseHolds at holds
  cases phase : s.phase with
  | running => rfl
  | writeLog | install | unlock =>
    simp only [phase] at holds
    exact absurd holds.2.1 occupied
  | readHead | recover =>
    simp only [phase] at holds
    exact absurd holds.1 occupied

theorem State.Valid.boot (formatted : readHead (image layout.start) = []) :
    (State.boot image).Valid layout image where
  coherent := by simp [State.boot]
  pinned := by simp [State.boot]
  counted := rfl
  recovered := fun _ => rfl
  ordered := ⟨by simp [State.boot], by simp [State.boot], by simp [State.boot, State.open]⟩
  phase := by
    refine ⟨rfl, rfl, rfl, rfl, .inl ⟨formatted, ?_, by simp⟩⟩
    intro blockno _
    rfl

theorem State.Ordered.shrink (ordered : s.Ordered) (groups : t.completed = s.completed)
    (numbers : t.nextOp = s.nextOp) (subset : ∀ op ∈ t.open, op ∈ s.open) : t.Ordered where
  groups := groups ▸ ordered.groups
  settled := by
    intro group member write present
    rw [groups] at member
    obtain ⟨old, before⟩ := ordered.settled group member write present
    exact ⟨numbers ▸ old, fun op waiting => before op (subset op waiting)⟩
  fresh := fun op waiting => numbers ▸ ordered.fresh op (subset op waiting)

theorem State.Ordered.complete (ordered : s.Ordered) (groups : t.completed = s.completed ++ [group])
    (numbers : t.nextOp = s.nextOp) (waiting : ∀ write ∈ group, write.op ∈ s.open)
    (none : t.open = []) : t.Ordered where
  groups := by
    rw [groups, pairwise_append]
    refine ⟨ordered.groups, by simp, ?_⟩
    intro earlier member later last write present next following
    simp only [mem_singleton] at last
    subst last
    exact (ordered.settled earlier member write present).2 _ (waiting next following)
  settled := by
    intro settled member write present
    rw [groups, mem_append, mem_singleton] at member
    rw [numbers, none]
    refine ⟨?_, by simp⟩
    rcases member with old | last
    · exact (ordered.settled settled old write present).1
    · subst last
      exact ordered.fresh _ (waiting write present)
  fresh := by simp [none]

section

variable (valid : s.Valid layout image)

include valid

theorem State.Valid.beginOp (taken : s.beginOp process = some t) : t.Valid layout image := by
  unfold State.beginOp at taken
  simp only [ite_none_left_eq_some, some.injEq, not_or] at taken
  obtain ⟨⟨up, unlocked, _, _⟩, rfl⟩ := taken
  have holds := valid.phase
  have running : s.phase = .running := by
    unfold PhaseHolds at holds
    cases phase : s.phase with
    | running => rfl
    | writeLog tail | install tail | unlock =>
      simp only [phase] at holds
      exact absurd holds.1 unlocked
    | readHead | recover tail => simp [phase, recovering] at up
  refine ⟨valid.coherent, valid.pinned, by simp [valid.counted], valid.recovered, ?_, ?_⟩
  · refine ⟨valid.ordered.groups, ?_, ?_⟩
    · intro group member write present
      obtain ⟨old, before⟩ := valid.ordered.settled group member write present
      refine ⟨by simp only; omega, ?_⟩
      intro op waiting
      by_cases same : op = s.nextOp
      · subst same
        exact old
      · exact before op (by simpa [State.open, same] using waiting)
    · intro op waiting
      by_cases same : op = s.nextOp
      · simp [same]
      · have older := valid.ordered.fresh op (by simpa [State.open, same] using waiting)
        simp only
        omega
  · unfold PhaseHolds at holds ⊢
    simp only [running] at holds ⊢
    exact holds

theorem State.Valid.logWrite (taken : s.logWrite layout process blockno data = some t) :
    t.Valid layout image := by
  unfold State.logWrite at taken
  split at taken
  · cases taken
  · rename_i op found
    simp only [ite_none_left_eq_some, some.injEq, not_or, not_le] at taken
    obtain ⟨outside, ⟨_, room⟩, _, rfl⟩ := taken
    have running := valid.running_of_active found
    have holds := valid.phase
    unfold PhaseHolds at holds
    simp only [running] at holds
    obtain ⟨unlocked, covers, logging, sees, pinned⟩ := holds
    have listed (other : Nat) (there : other ∈ if blockno ∈ s.lh then s.lh else s.lh ++ [blockno]) :
        other ∈ if blockno ∈ s.lh then s.pins else blockno :: s.pins := by
      split at there
      · rename_i already
        rw [if_pos already]
        exact pinned other there
      · rename_i absent
        rw [if_neg absent]
        exact (mem_append.mp there).elim (fun old => mem_cons_of_mem _ (pinned other old))
          fun new => mem_cons.mpr (.inl (mem_singleton.mp new))
    refine ⟨fun other contents free cachedOther => ?_, ?_, valid.counted, valid.recovered, ?_, ?_⟩
    · have same : other ≠ blockno := by
        rintro rfl
        exact free (listed other (by split <;> simp_all))
      simp only [update_of_ne same] at cachedOther
      refine valid.coherent other contents (fun member => free ?_) cachedOther
      simp only
      split
      · exact member
      · exact mem_cons_of_mem _ member
    · intro other member
      simp only at member
      split at member
      · exact valid.pinned other member
      · rcases mem_cons.mp member with same | old
        · exact same ▸ outside
        · exact valid.pinned other old
    · exact valid.ordered.shrink rfl rfl (open_logWrite found rfl rfl rfl)
    · unfold PhaseHolds
      simp only [running]
      refine ⟨unlocked, covers.log outside room op data, ⟨logging.empty, logging.home, by simp⟩,
        fun other away => ?_, listed⟩
      have before := sees other away
      rw [Group.apply_concat]
      by_cases same : other = blockno
      · subst same
        simp [State.bread]
      · rw [update_of_ne same]
        simpa [State.bread, base, same] using before

theorem State.Valid.endOp (taken : s.endOp process = some t) : t.Valid layout image := by
  unfold State.endOp at taken
  split at taken
  · cases taken
  · rename_i op found
    have running := valid.running_of_active found
    have recovered : s.interrupted = none := valid.recovered (by simp [running, recovering])
    have present : (process, op) ∈ s.active := mem_of_lookup found
    have left : (s.active.erase (process, op)).length = s.outstanding - 1 := by
      rw [length_erase_of_mem present, valid.counted]
    have subset : ∀ other ∈ (s.active.erase (process, op)).map Prod.snd,
        other ∈ s.active.map Prod.snd := by
      intro other member
      obtain ⟨entry, remaining, rfl⟩ := mem_map.mp member
      exact mem_map_of_mem (mem_of_mem_erase remaining)
    have holds := valid.phase
    unfold PhaseHolds at holds
    simp only [running] at holds
    obtain ⟨unlocked, covers, logging, sees, pinned⟩ := holds
    simp only [ite_none_left_eq_some] at taken
    obtain ⟨_, taken⟩ := taken
    have ordered (u : State) (groups : u.completed = s.completed) (numbers : u.nextOp = s.nextOp)
        (group : u.current = s.current) (crashed : u.interrupted = s.interrupted)
        (active : u.active = s.active.erase (process, op)) : u.Ordered := by
      refine valid.ordered.shrink groups numbers ?_
      intro other waiting
      simp only [State.open, mem_append, group, crashed, active] at waiting ⊢
      rcases waiting with earlier | remaining
      · exact .inl earlier
      · exact .inr (subset other remaining)
    split at taken
    · rename_i last
      cases taken
      have alone : s.active.erase (process, op) = [] := eq_nil_of_length_eq_zero (left.trans last)
      refine ⟨valid.coherent, valid.pinned, left.symm, fun _ => recovered,
        ordered _ rfl rfl rfl rfl rfl, ?_⟩
      unfold PhaseHolds
      by_cases empty : s.lh = []
      · have nothing : s.current = [] := by
          apply eq_nil_iff_forall_not_mem.mpr
          intro write member
          have listed := covers.lists write member
          simp [empty] at listed
        simp only [empty, if_true]
        exact ⟨trivial, alone, trivial, nothing, ⟨logging.empty, logging.home, by simp⟩, sees⟩
      · simp only [empty, if_false]
        exact ⟨trivial, alone, empty, covers, logging, sees⟩
    · cases taken
      refine ⟨valid.coherent, valid.pinned, left.symm, fun _ => recovered,
        ordered _ rfl rfl rfl rfl rfl, ?_⟩
      unfold PhaseHolds
      simp only [running]
      exact ⟨unlocked, covers, logging, sees, pinned⟩

theorem State.Valid.recache {buffers : Nat → Option Block}
    (coherent : ∀ blockno data, blockno ∉ s.pins → buffers blockno = some data →
      data = s.disk blockno)
    (same : { s with cached := buffers }.bread = s.bread) :
    { s with cached := buffers }.Valid layout image := by
  refine ⟨coherent, valid.pinned, valid.counted, valid.recovered,
    valid.ordered.shrink rfl rfl fun _ => id, ?_⟩
  have holds := valid.phase
  unfold PhaseHolds Sees at holds ⊢
  rw [same]
  exact holds

theorem State.Valid.bread (blockno : Nat) :
    { s with cached := update s.cached blockno (some (s.bread blockno)) }.Valid
      layout image := by
  apply valid.recache
  · intro other data free found
    by_cases same : other = blockno
    · subst same
      rw [update_self] at found
      rw [← some.inj found, valid.bread_unpinned free]
    · rw [update_of_ne same] at found
      exact valid.coherent other data free found
  · funext other
    by_cases same : other = blockno
    · subst same
      simp [State.bread]
    · simp [State.bread, same]

theorem State.Valid.recycle (free : blockno ∉ s.pins) :
    { s with cached := update s.cached blockno none }.Valid layout image := by
  apply valid.recache
  · intro other data unpinned found
    by_cases same : other = blockno
    · simp [same] at found
    · rw [update_of_ne same] at found
      exact valid.coherent other data unpinned found
  · funext other
    by_cases same : other = blockno
    · subst same
      rw [valid.bread_unpinned free]
      simp [State.bread]
    · simp [State.bread, same]

end

theorem State.bread_bwrite (s : State) (blockno : Nat) (data : Block) :
    (s.bwrite blockno data).bread = update s.bread blockno data := by
  funext other
  by_cases same : other = blockno
  · simp [bread, bwrite, same]
  · simp [bread, bwrite, same]

/-- A `bwrite` leaves the cache coherent, also if it releases the pin of its block. -/
theorem State.Valid.bwrite_coherent {left : List Nat} (valid : s.Valid layout image)
    (kept : ∀ other ∈ s.pins, other ≠ blockno → other ∈ left) (other : Nat) (contents : Block)
    (free : other ∉ left) (found : (s.bwrite blockno data).cached other = some contents) :
    contents = (s.bwrite blockno data).disk other := by
  unfold bwrite at found ⊢
  by_cases same : other = blockno
  · subst same
    simp only [update_self] at found ⊢
    exact (some.inj found).symm
  · simp only [update_of_ne same] at found ⊢
    exact valid.coherent other contents (fun member => free (kept other member same)) found

/-- A `bwrite` to the log changes nothing that processes read. -/
theorem State.Sees.bwrite_log (sees : s.Sees layout image) (held : layout.Holds blockno)
    (data : Block) : (s.bwrite blockno data).Sees layout image := by
  intro other outside
  have different : other ≠ blockno := fun same => outside (same ▸ held)
  rw [bread_bwrite, update_of_ne different]
  exact sees other outside

section

variable (valid : s.Valid layout image)

include valid

theorem State.Valid.writeLog (phase : s.phase = .writeLog tail)
    (taken : s.commitStep layout = some t) : t.Valid layout image := by
  have kept (blockno : Nat) : ∀ other ∈ s.pins, other ≠ blockno → other ∈ s.pins :=
    fun _ member _ => member
  have recovered : s.interrupted = none := valid.recovered (by simp [phase, recovering])
  have holds := valid.phase
  simp only [PhaseHolds, phase] at holds
  simp only [commitStep, phase] at taken
  obtain ⟨locked, alone, nonempty, covers, logging, sees⟩ := holds
  cases found : s.lh[tail]? with
  | some blockno =>
    simp only [found, some.injEq] at taken
    subst taken
    have contents : s.bread blockno = s.current.apply (s.base image) blockno :=
      sees blockno (covers.outside blockno (mem_of_getElem? found))
    refine ⟨valid.bwrite_coherent (kept _), valid.pinned, valid.counted, fun _ => recovered,
      valid.ordered.shrink rfl rfl fun _ => id, locked, alone, nonempty, covers, ?_,
      sees.bwrite_log (covers.holds_copy found) _⟩
    simp only [bwrite, contents]
    exact logging.copy covers found
  | none =>
    simp only [found, some.injEq] at taken
    subst taken
    exact ⟨valid.bwrite_coherent (kept _), valid.pinned, valid.counted, fun _ => recovered,
      valid.ordered.shrink rfl rfl fun _ => id, locked, alone, nonempty, covers,
      logging.commit found _, sees.bwrite_log layout.holds_start _⟩

theorem State.Valid.install (phase : s.phase = .install tail)
    (taken : s.commitStep layout = some t) : t.Valid layout image := by
  have recovered : s.interrupted = none := valid.recovered (by simp [phase, recovering])
  have holds := valid.phase
  simp only [PhaseHolds, phase] at holds
  simp only [State.commitStep, phase] at taken
  obtain ⟨locked, alone, nonempty, covers, committed, sees⟩ := holds
  cases found : s.lh[tail]? with
  | some blockno =>
    simp only [found, some.injEq] at taken
    subst taken
    have contents : s.bread (layout.copy tail) = s.current.apply (s.base image) blockno :=
      (valid.bread_log (covers.holds_copy found)).trans (committed.copies tail blockno found)
    refine ⟨valid.bwrite_coherent ?_, ?_, valid.counted, fun _ => recovered,
      valid.ordered.shrink rfl rfl fun _ => id, locked, alone, nonempty, covers, ?_, ?_⟩
    · intro other member different
      exact (mem_erase_of_ne different).mpr member
    · intro other member
      exact valid.pinned other (mem_of_mem_erase member)
    · simp only [bwrite, contents]
      exact committed.install covers found
    · intro other outside
      refine (congrFun (s.bread_bwrite blockno (s.bread (layout.copy tail))) other).trans ?_
      by_cases same : other = blockno
      · subst same
        rw [update_self]
        exact contents
      · rw [update_of_ne same]
        exact sees other outside
  | none =>
    simp only [found, some.injEq] at taken
    subst taken
    have base : applyAll (s.completed ++ [s.current]) image = s.current.apply (s.base image) :=
      applyAll_concat s.completed s.current image
    refine ⟨valid.bwrite_coherent fun _ member _ => member, valid.pinned, valid.counted,
      fun _ => recovered, ?_, locked, alone, rfl, rfl, ?_, ?_⟩
    · refine valid.ordered.complete rfl rfl ?_ ?_
      · intro write member
        simp only [State.open, append_assoc, mem_append]
        exact .inl (mem_map_of_mem member)
      · simp [State.open, writeHead, bwrite, recovered, alone]
    · refine Logging.erased ?_ _
      intro other outside
      exact (committed.installed covers found outside).trans (congrFun base other).symm
    · intro other outside
      refine (sees.bwrite_log layout.holds_start _ other outside).trans ?_
      exact (congrFun base other).symm

theorem State.Valid.commitStep (taken : s.commitStep layout = some t) : t.Valid layout image := by
  cases phase : s.phase with
  | running | readHead | recover tail => simp [State.commitStep, phase] at taken
  | writeLog tail => exact valid.writeLog phase taken
  | install tail => exact valid.install phase taken
  | unlock =>
    have holds := valid.phase
    simp only [PhaseHolds, phase] at holds
    simp only [State.commitStep, phase, some.injEq] at taken
    obtain ⟨_, _, empty, nothing, logging, sees⟩ := holds
    subst taken
    have recovered : s.interrupted = none := valid.recovered (by simp [phase, recovering])
    refine ⟨valid.coherent, valid.pinned, valid.counted, fun _ => recovered,
      valid.ordered.shrink rfl rfl fun _ => id, rfl, ?_, ?_, sees, by simp [empty]⟩
    · exact ⟨by simp [empty], by simp [empty], by simp [nothing]⟩
    · exact ⟨logging.empty, logging.home, by simp⟩

/-- What the end of a recovery settles: the interrupted group is on the disk as a
whole or not at all. -/
theorem State.Valid.settled (phase : s.phase = .recover tail) (all : s.lh[tail]? = none) :
    ∃ kept, (kept = none ∨ kept = s.interrupted) ∧
      (if s.lh = [] then s.completed else s.completed ++ s.interrupted.toList) =
      s.completed ++ kept.toList ∧
      ∀ blockno, ¬ layout.Holds blockno →
        s.disk blockno = applyAll (s.completed ++ kept.toList) image blockno := by
  have holds := valid.phase
  simp only [PhaseHolds, phase] at holds
  obtain ⟨_, _, _, _, header, recoverable⟩ := holds
  rcases recoverable with logging | ⟨group, blocks, crashed, nonempty, covers, committed⟩
  · have empty : s.lh = [] := header.trans logging.empty
    refine ⟨none, .inl rfl, by simp [empty], ?_⟩
    simpa [base] using logging.home
  · have same : s.lh = blocks := header.trans committed.listed
    subst same
    refine ⟨some group, .inr crashed.symm, by simp [nonempty, crashed], ?_⟩
    intro blockno outside
    rw [toList_some, applyAll_concat]
    exact committed.installed covers all outside

theorem State.Valid.endRecovery (phase : s.phase = .recover tail)
    (all : s.lh[tail]? = none) (taken : s.recoverStep layout = some t) : t.Valid layout image := by
  obtain ⟨kept, whole, groups, home⟩ := valid.settled phase all
  have holds := valid.phase
  simp only [PhaseHolds, phase] at holds
  simp only [State.recoverStep, phase, all, some.injEq] at taken
  rw [groups] at taken
  obtain ⟨alone, nothing, unpinned, unlocked, _, _⟩ := holds
  subst taken
  have closed : s.open = s.interrupted.toList.flatten.map Write.op := by
    simp [State.open, alone, nothing]
  refine ⟨valid.bwrite_coherent fun _ member _ => member, valid.pinned, valid.counted, fun _ => rfl,
    ?_, unlocked, ?_, ?_, ?_, by simp [writeHead, bwrite]⟩
  · cases kept with
    | none =>
      refine valid.ordered.shrink (append_nil _) rfl ?_
      simp [State.open, writeHead, bwrite, alone, nothing]
    | some group =>
      refine valid.ordered.complete rfl rfl ?_ ?_
      · intro write member
        have crashed : s.interrupted = some group := by
          rcases whole with absent | same
          · cases absent
          · exact same.symm
        rw [closed, crashed]
        exact mem_map_of_mem (by simpa using member)
      · simp [State.open, writeHead, bwrite, alone, nothing]
  · exact ⟨by simp [writeHead, bwrite], by simp [writeHead, bwrite],
      by simp [writeHead, bwrite, nothing]⟩
  · have erased := Logging.erased home (s.bread layout.start)
    exact ⟨erased.empty, erased.home, by simp⟩
  · intro blockno outside
    have different : blockno ≠ layout.start := fun same => outside (same ▸ layout.holds_start)
    have free : blockno ∉ s.pins := by simp [unpinned]
    have read :=
      congrFun (s.bread_bwrite layout.start (Log.writeHead [] (s.bread layout.start))) blockno
    rw [update_of_ne different, valid.bread_unpinned free, home blockno outside] at read
    simp only [writeHead, bwrite, nothing]
    exact read

theorem State.Valid.recoverStep (taken : s.recoverStep layout = some t) : t.Valid layout image := by
  have holds := valid.phase
  cases phase : s.phase with
  | running | writeLog tail | install tail | unlock => simp [State.recoverStep, phase] at taken
  | readHead =>
    simp only [PhaseHolds, phase] at holds
    simp only [State.recoverStep, phase, some.injEq] at taken
    obtain ⟨alone, nothing, unpinned, unlocked, recoverable⟩ := holds
    subst taken
    refine ⟨(valid.bread layout.start).coherent, valid.pinned, valid.counted, by simp [recovering],
      valid.ordered.shrink rfl rfl fun _ => id, alone, nothing, unpinned, unlocked, ?_, recoverable⟩
    simp only [valid.bread_log layout.holds_start]
  | recover tail =>
    simp only [PhaseHolds, phase] at holds
    obtain ⟨alone, nothing, unpinned, unlocked, header, recoverable⟩ := holds
    cases found : s.lh[tail]? with
    | none => exact valid.endRecovery phase found taken
    | some blockno =>
      simp only [State.recoverStep, phase, found, some.injEq] at taken
      subst taken
      rcases recoverable with logging | ⟨group, blocks, crashed, nonempty, covers, committed⟩
      · simp [header, logging.empty] at found
      · have same : s.lh = blocks := header.trans committed.listed
        rw [same] at found
        have contents : s.bread (layout.copy tail) = group.apply (s.base image) blockno :=
          (valid.bread_log (covers.holds_copy found)).trans (committed.copies tail blockno found)
        have installed := committed.install covers found
        rw [← contents] at installed
        exact ⟨valid.bwrite_coherent fun _ member _ => member, valid.pinned, valid.counted,
          by simp [recovering], valid.ordered.shrink rfl rfl fun _ => id, alone, nothing, unpinned,
          unlocked, same.trans installed.listed.symm,
          .inr ⟨group, blocks, crashed, nonempty, covers, installed⟩⟩

theorem State.Valid.crash : s.crash.Valid layout image := by
  have holds := valid.phase
  refine ⟨by simp [State.crash], by simp [State.crash], rfl, by simp [State.crash, recovering],
    ?_, rfl, rfl, rfl, rfl, ?_⟩
  · refine valid.ordered.shrink rfl rfl ?_
    intro op waiting
    simp only [State.open, State.crash, map_nil, nil_append, append_nil] at waiting
    simp only [State.open, mem_append]
    split at waiting
    · exact .inl (.inl (by simpa using waiting))
    · split at waiting
      · exact .inl (.inr waiting)
      · simp at waiting
  · simp only [State.crash]
    unfold PhaseHolds at holds
    cases phase : s.phase with
    | running =>
      simp only [phase] at holds
      obtain ⟨_, _, logging, _⟩ := holds
      exact .inl ⟨logging.empty, logging.home, by simp⟩
    | writeLog tail =>
      simp only [phase] at holds
      obtain ⟨_, _, _, _, logging, _⟩ := holds
      exact .inl ⟨logging.empty, logging.home, by simp⟩
    | install tail =>
      simp only [phase] at holds
      obtain ⟨_, _, nonempty, covers, committed, _⟩ := holds
      exact .inr ⟨s.current, s.lh, rfl, nonempty, covers, committed.restart⟩
    | unlock =>
      simp only [phase] at holds
      obtain ⟨_, _, _, _, logging, _⟩ := holds
      exact .inl logging
    | readHead =>
      simp only [phase] at holds
      exact holds.2.2.2.2
    | recover tail =>
      simp only [phase] at holds
      obtain ⟨_, _, _, _, _, recoverable⟩ := holds
      rcases recoverable with logging | ⟨group, blocks, crashed, nonempty, covers, committed⟩
      · exact .inl logging
      · exact .inr ⟨group, blocks, crashed, nonempty, covers, committed.restart⟩

theorem State.Valid.step (taken : s.step layout call = some t) : t.Valid layout image := by
  cases call with
  | beginOp process => exact valid.beginOp taken
  | logWrite process blockno data => exact valid.logWrite taken
  | endOp process => exact valid.endOp taken
  | bread blockno =>
    cases taken
    exact valid.bread blockno
  | recycle blockno =>
    simp only [State.step, ite_none_left_eq_some, some.injEq] at taken
    obtain ⟨free, same⟩ := taken
    subst same
    exact valid.recycle free
  | commit => exact valid.commitStep taken
  | recover => exact valid.recoverStep taken
  | crash =>
    cases taken
    exact valid.crash

end

theorem State.Valid.reachable (formatted : readHead (image layout.start) = [])
    (run : exec (State.step layout) (State.boot image) calls = some s) : s.Valid layout image :=
  exec_invariant (fun _ _ _ valid taken => valid.step taken) (State.Valid.boot formatted) run

/-- Recovery from an erased log writes the header that is already there. -/
theorem State.recover_erased (erased : readHead (s.disk layout.start) = []) :
    ∃ t, exec (step layout) s [.crash, .recover, .recover] = some t ∧ t.phase = .running ∧
      t.disk = s.disk := by
  simp only [exec, step, crash, recoverStep, bread, writeHead,
    bwrite, bind_some, getD_none, erased, getElem?_nil, update_self,
    getD_some, some.injEq, exists_eq_left', writeHead_nil erased, update_eq_self,
    and_self]

/-- Recovery writes one block a step, so it completes unless it is interrupted. -/
theorem State.recovery_completes (layout : Layout) (phase : s.phase = .recover tail)
    (left : s.lh.length = tail + count) :
    ∃ t, exec (step layout) s (replicate (count + 1) .recover) = some t ∧ t.phase = .running := by
  induction count generalizing s tail with
  | zero =>
    have all : s.lh[tail]? = none := getElem?_eq_none (by omega)
    simp [exec, step, recoverStep, phase, all]
  | succ count ih =>
    have below : tail < s.lh.length := by omega
    have found : s.lh[tail]? = some s.lh[tail] := getElem?_eq_getElem below
    rw [replicate_succ]
    simp only [exec, step, recoverStep, phase, found, bind_some]
    apply ih rfl
    simp only [bwrite]
    omega

theorem State.crash_recovers (layout : Layout) (s : State) :
    ∃ count t, exec (step layout) s (.crash :: replicate count .recover) = some t ∧
      t.phase = .running := by
  obtain ⟨u, taken, phase⟩ : ∃ u, s.crash.step layout .recover = some u ∧ u.phase = .recover 0 :=
    ⟨_, rfl, rfl⟩
  obtain ⟨t, run, running⟩ := recovery_completes layout phase (Nat.zero_add _).symm
  refine ⟨u.lh.length + 1 + 1, t, ?_, running⟩
  have crashed : s.step layout .crash = some s.crash := rfl
  rw [replicate_succ, exec, crashed, bind_some, exec, taken]
  exact run

theorem State.recovery_ends (taken : s.step layout .recover = some t)
    (running : t.phase = .running) : ∃ tail, s.phase = .recover tail ∧ s.lh[tail]? = none := by
  simp only [step, recoverStep] at taken
  cases phase : s.phase with
  | running | writeLog tail | install tail | unlock => simp [phase] at taken
  | readHead =>
    simp only [phase, some.injEq] at taken
    subst taken
    cases running
  | recover tail =>
    refine ⟨tail, rfl, ?_⟩
    cases found : s.lh[tail]? with
    | none => rfl
    | some blockno =>
      simp only [phase, found, some.injEq] at taken
      subst taken
      cases running

/-- No operation has writes in two groups, whatever happened to the groups. -/
theorem State.Valid.undivided (valid : s.Valid layout image) :
    (s.completed ++ s.interrupted.toList ++ [s.current]).Pairwise fun earlier later =>
      ∀ write ∈ earlier, ∀ next ∈ later, write.op ≠ next.op := by
  have single : s.interrupted = none ∨ s.current = [] := by
    have holds := valid.phase
    cases phase : s.phase with
    | running | writeLog tail | install tail | unlock =>
      exact .inl (valid.recovered (by simp [phase, recovering]))
    | readHead | recover tail =>
      simp only [PhaseHolds, phase] at holds
      exact .inr holds.2.1
  rw [append_assoc, pairwise_append]
  refine ⟨?_, ?_, ?_⟩
  · apply valid.ordered.groups.imp
    intro earlier later before write present next following
    exact (before write present next following).ne
  · rcases single with recovered | nothing
    · simp [recovered]
    · cases s.interrupted with
      | none => simp
      | some group => simp [nothing]
  · intro earlier member later waiting write present next following
    have unsettled : next.op ∈ s.open := by
      simp only [State.open, append_assoc, mem_append]
      rcases mem_append.mp waiting with crashed | last
      · exact .inr (.inl (mem_map_of_mem (mem_flatten_of_mem crashed following)))
      · rw [mem_singleton.mp last] at following
        exact .inl (mem_map_of_mem following)
    exact ((valid.ordered.settled earlier member write present).2 _ unsettled).ne

/-- The log is crash-atomic on a disk whose log is empty, as `mkfs` leaves it. A
recovery that completes leaves the file system as all completed groups made it, of
which the interrupted group is one or not; a further recovery changes nothing;
recovery completes unless it is interrupted; no operation is split between groups. -/
theorem log_crash_atomic (layout : Layout) (image : Disk) (calls : List Call) (s : State)
    (formatted : readHead (image layout.start) = [])
    (run : exec (State.step layout) (State.boot image) calls = some s) :
    (∀ t, s.step layout .recover = some t → t.phase = .running →
      (t.completed = s.completed ∨
        ∃ group, s.interrupted = some group ∧ t.completed = s.completed ++ [group]) ∧
      (∀ blockno, ¬ layout.Holds blockno → t.disk blockno = applyAll t.completed image blockno) ∧
      ∃ u, exec (State.step layout) t [.crash, .recover, .recover] = some u ∧
        u.phase = .running ∧ u.disk = t.disk) ∧
    (∃ count t, exec (State.step layout) s (.crash :: List.replicate count .recover) = some t ∧
      t.phase = .running) ∧
    (s.completed ++ s.interrupted.toList ++ [s.current]).Pairwise fun earlier later =>
      ∀ write ∈ earlier, ∀ next ∈ later, write.op ≠ next.op := by
  have valid := State.Valid.reachable formatted run
  refine ⟨?_, State.crash_recovers layout s, valid.undivided⟩
  intro t taken running
  have after := valid.step taken
  have holds := after.phase
  simp only [State.PhaseHolds, running] at holds
  obtain ⟨_, _, logging, _, _⟩ := holds
  refine ⟨?_, fun blockno outside => logging.home blockno outside,
    State.recover_erased logging.empty⟩
  obtain ⟨tail, phase, all⟩ := State.recovery_ends taken running
  obtain ⟨kept, whole, groups, _⟩ := valid.settled phase all
  simp only [State.step, State.recoverStep, phase, all, some.injEq] at taken
  subst taken
  simp only [groups]
  cases kept with
  | none => exact .inl (append_nil _)
  | some group =>
    rcases whole with absent | same
    · cases absent
    · exact .inr ⟨group, same.symm, rfl⟩

/-- A write that is committed but not installed when the machine crashes, and a
recovery up to its last block write. -/
def interruptedCommit : List Call :=
  [.recover, .recover, .beginOp 1, .logWrite 1 20 (fun _ => 7), .endOp 1, .commit, .commit, .crash,
    .recover, .recover]

theorem log_crash_atomic_interrupted :
    ∃ s t, exec (State.step ⟨2, 11, by decide⟩)
      (State.boot fun _ _ => 0) interruptedCommit = some s ∧
      s.step ⟨2, 11, by decide⟩ .recover = some t ∧ t.completed.length = 1 ∧
      t.disk 20 = applyAll t.completed (fun _ _ => 0) 20 := by
  have ends :
    ((exec (State.step ⟨2, 11, by decide⟩) (State.boot fun _ _ => 0) interruptedCommit).bind
      fun s => s.step ⟨2, 11, by decide⟩ .recover).map (fun t => (t.phase, t.completed.length)) =
        some (.running, 1) := by decide +kernel
  obtain ⟨t, found, result⟩ := map_eq_some_iff.mp ends
  obtain ⟨s, run, taken⟩ := bind_eq_some_iff.mp found
  obtain ⟨running, one⟩ := Prod.mk.inj result
  refine ⟨s, t, run, taken, one, ?_⟩
  exact ((log_crash_atomic _ _ _ s rfl run).1 t taken running).2.1 20 (by decide)

end EnhancedXv6.Log
