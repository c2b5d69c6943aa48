import EnhancedXv6.Log.CrashAtomic

namespace EnhancedXv6.Log

open Foundation List Option

def Group.opBlocks (group : Group) (op : Nat) : List Nat :=
  ((group.filter fun write => write.op = op).map Write.blockno).dedup

/-- No operation logs more than `MAXOPBLOCKS` distinct blocks. -/
def State.Modest (s : State) : Call → Prop
  | .logWrite process blockno _ =>
    ∀ op ∈ s.active.lookup process, ((s.current.opBlocks op).insert blockno).length ≤ maxopblocks
  | _ => True

/-- The call is a `log_write` that panics with "too big a transaction". -/
def State.TooBig (layout : Layout) (s : State) : Call → Prop
  | .logWrite process _ _ => (s.active.lookup process).isSome = true ∧
    (logsize ≤ s.lh.length ∨ layout.size - 1 ≤ s.lh.length)
  | _ => False

/-- An operation is let in only if the log keeps a free block when all operations write
as much as they may. -/
def State.Reserves (layout : Layout) (s : State) : Call → Prop
  | .beginOp _ => s.lh.length + (s.outstanding + 1) * maxopblocks < layout.size - 1
  | _ => True

instance (s : State) (call : Call) : Decidable (s.Modest call) :=
  match call with
  | .logWrite process blockno _ =>
    inferInstanceAs (Decidable (∀ op ∈ s.active.lookup process,
      ((s.current.opBlocks op).insert blockno).length ≤ maxopblocks))
  | .beginOp _ | .endOp _ | .bread _ | .recycle _ | .commit | .recover | .crash => .isTrue trivial

instance (layout : Layout) (s : State) (call : Call) : Decidable (s.Reserves layout call) :=
  match call with
  | .beginOp _ =>
    inferInstanceAs (Decidable (s.lh.length + (s.outstanding + 1) * maxopblocks < layout.size - 1))
  | .logWrite _ _ _ | .endOp _ | .bread _ | .recycle _ | .commit | .recover | .crash =>
    .isTrue trivial

def State.allowance (s : State) : Nat :=
  (s.active.map fun entry => maxopblocks - (s.current.opBlocks entry.2).length).sum

/-- While operations run, the log has room for all that they may still write. -/
structure State.Reserved (layout : Layout) (s : State) : Prop where
  room : s.active ≠ [] → s.lh.length + s.allowance < layout.size - 1
  booting : s.phase = .readHead → s.lh = []

variable {layout : Layout} {image : Disk} {s t : State} {process op blockno : Nat} {data : Block}
  {call : Call}

theorem Group.opBlocks_subset {group : Group} {blocks : List Nat}
    (logged : ∀ write ∈ group, write.blockno ∈ blocks) (member : blockno ∈ group.opBlocks op) :
    blockno ∈ blocks := by
  obtain ⟨write, found, rfl⟩ := mem_map.mp (mem_dedup.mp member)
  exact logged write (mem_filter.mp found).1

theorem Group.opBlocks_nodup (group : Group) (op : Nat) : (group.opBlocks op).Nodup :=
  nodup_dedup _

/-- What an operation has logged after one more `log_write`. -/
theorem Group.mem_opBlocks_append (group : Group) (write : Write) (op : Nat) :
    blockno ∈ opBlocks (group ++ [write]) op ↔
      blockno ∈ group.opBlocks op ∨ write.op = op ∧ blockno = write.blockno := by
  unfold opBlocks
  by_cases own : write.op = op <;> simp [filter_append, own, or_comm]

theorem Group.opBlocks_grows (group : Group) (write : Write) (op : Nat) :
    (group.opBlocks op).length ≤ (opBlocks (group ++ [write]) op).length := by
  refine (subperm_of_subset (group.opBlocks_nodup op) fun b member => ?_).length_le
  exact (group.mem_opBlocks_append write op).mpr (.inl member)

theorem Group.opBlocks_new {group : Group} {write : Write}
    (fresh : write.blockno ∉ group.opBlocks write.op) :
    (opBlocks (group ++ [write]) write.op).length = (group.opBlocks write.op).length + 1 := by
  have nodup : (write.blockno :: group.opBlocks write.op).Nodup :=
    nodup_cons.mpr ⟨fresh, group.opBlocks_nodup write.op⟩
  refine ((perm_ext_iff_of_nodup (opBlocks_nodup _ _) nodup).mpr fun b => ?_).length_eq
  rw [group.mem_opBlocks_append write, mem_cons]
  simp [or_comm]

theorem State.Valid.logged (valid : s.Valid layout image) (running : s.phase = .running) :
    ∀ write ∈ s.current, write.blockno ∈ s.lh := by
  have holds := valid.phase
  simp only [State.PhaseHolds, running] at holds
  exact holds.2.1.lists

/-- The header in memory never lists more blocks than the log has for copies. -/
theorem State.Reserved.fits (reserved : s.Reserved layout) (valid : s.Valid layout image) :
    s.lh.length ≤ layout.size - 1 := by
  have holds := valid.phase
  unfold State.PhaseHolds at holds
  cases phase : s.phase with
  | running =>
    simp only [phase] at holds
    exact holds.2.1.fits
  | writeLog tail | install tail =>
    simp only [phase] at holds
    exact holds.2.2.2.1.fits
  | unlock =>
    simp only [phase] at holds
    rw [holds.2.2.1]
    exact Nat.zero_le _
  | readHead =>
    rw [reserved.booting phase]
    exact Nat.zero_le _
  | recover tail =>
    simp only [phase] at holds
    obtain ⟨_, _, _, _, same, logging | ⟨group, blocks, _, _, covers, committed⟩⟩ := holds
    · rw [same, logging.empty]
      exact Nat.zero_le _
    · rw [same, committed.listed]
      exact covers.fits

theorem State.allowance_le (s : State) : s.allowance ≤ s.active.length * maxopblocks := by
  unfold allowance
  refine (sum_le_card_nsmul _ maxopblocks fun left member => ?_).trans_eq (by simp)
  obtain ⟨entry, _, rfl⟩ := mem_map.mp member
  exact Nat.sub_le _ _

theorem State.Reserved.idle (valid : s.Valid layout image) (waiting : s.phase ≠ .running)
    (active : t.active = s.active) (phase : t.phase ≠ .readHead) : t.Reserved layout := by
  refine ⟨fun occupied => ?_, fun same => absurd same phase⟩
  rw [active] at occupied
  obtain ⟨⟨process, op⟩, rest, split⟩ := exists_cons_of_ne_nil occupied
  have found : s.active.lookup process = some op := by simp [split]
  exact absurd (valid.running_of_active found) waiting

theorem State.Reserved.beginOp (valid : s.Valid layout image)
    (room : s.lh.length + (s.outstanding + 1) * maxopblocks < layout.size - 1)
    (taken : s.beginOp process = some t) : t.Reserved layout := by
  unfold State.beginOp at taken
  simp only [ite_none_left_eq_some, some.injEq] at taken
  obtain ⟨free, rfl⟩ := taken
  refine ⟨fun _ => ?_, fun phase => absurd
    (.inl (by simp [show s.phase = .readHead from phase, Phase.recovering])) free⟩
  refine lt_of_le_of_lt (Nat.add_le_add_left (State.allowance_le _) _) ?_
  simpa [valid.counted] using room

section

variable (reserved : s.Reserved layout)

include reserved

section

variable (valid : s.Valid layout image)

include valid

/-- A `log_write` uses up at least as much of the allowance as of the log. -/
theorem State.Reserved.logWrite (modest : s.Modest (.logWrite process blockno data))
    (taken : s.logWrite layout process blockno data = some t) : t.Reserved layout := by
  unfold State.logWrite at taken
  split at taken
  · cases taken
  · rename_i op found
    simp only [ite_none_left_eq_some, some.injEq] at taken
    obtain ⟨_, _, _, rfl⟩ := taken
    have running := valid.running_of_active found
    refine ⟨fun occupied => ?_, fun phase => absurd (running.symm.trans phase) (by simp)⟩
    have room := reserved.room occupied
    have member : (process, op) ∈ s.active := by
      obtain ⟨before, after, split, _⟩ := lookup_eq_some_iff.mp found
      simp [split]
    have logged := valid.logged running
    have within : ((s.current.opBlocks op).insert blockno).length ≤ maxopblocks := modest op found
    have less : ∀ entry ∈ s.active,
        maxopblocks - (Group.opBlocks (s.current ++ [⟨op, blockno, data⟩]) entry.2).length ≤
          maxopblocks - (s.current.opBlocks entry.2).length :=
      fun entry _ => Nat.sub_le_sub_left (s.current.opBlocks_grows _ entry.2) _
    by_cases listed : blockno ∈ s.lh
    · simp only [listed, if_true]
      exact lt_of_le_of_lt (Nat.add_le_add_left (sum_le_sum less) _) room
    · simp only [listed, if_false, length_append, length_singleton]
      have fresh : blockno ∉ s.current.opBlocks op :=
        fun member => listed (Group.opBlocks_subset logged member)
      rw [insert_of_not_mem fresh, length_cons] at within
      have more : (Group.opBlocks (s.current ++ [⟨op, blockno, data⟩]) op).length =
          (s.current.opBlocks op).length + 1 := Group.opBlocks_new fresh
      have drop := sum_lt_sum _ _ less ⟨(process, op), member, by simp only [more]; omega⟩
      simp only [State.allowance] at room ⊢
      omega

theorem State.Reserved.endOp (taken : s.endOp process = some t) : t.Reserved layout := by
  have fewer (op : Nat) (occupied : s.active.erase (process, op) ≠ []) :
      s.lh.length + ((s.active.erase (process, op)).map fun entry =>
        maxopblocks - (s.current.opBlocks entry.2).length).sum < layout.size - 1 := by
    have room := reserved.room fun empty => occupied (by simp [empty])
    refine lt_of_le_of_lt (Nat.add_le_add_left ?_ _) room
    exact ((erase_sublist (a := (process, op))).map _).sum_le_sum (by simp)
  unfold State.endOp at taken
  split at taken
  · cases taken
  · rename_i op found
    have running := valid.running_of_active found
    simp only [ite_none_left_eq_some] at taken
    obtain ⟨_, taken⟩ := taken
    split at taken
    · cases taken
      refine ⟨fewer op, ?_⟩
      intro phase
      dsimp only at phase
      split at phase <;> cases phase
    · cases taken
      exact ⟨fewer op, fun phase => absurd (running.symm.trans phase) (by simp)⟩

theorem State.Reserved.step (modest : s.Modest call) (reserves : s.Reserves layout call)
    (taken : s.step layout call = some t) : t.Reserved layout := by
  cases call with
  | beginOp process => exact beginOp valid reserves taken
  | logWrite process blockno data => exact reserved.logWrite valid modest taken
  | endOp process => exact reserved.endOp valid taken
  | bread blockno =>
    cases taken
    exact ⟨reserved.room, reserved.booting⟩
  | recycle blockno =>
    simp only [step, ite_none_left_eq_some, some.injEq] at taken
    obtain ⟨_, rfl⟩ := taken
    exact ⟨reserved.room, reserved.booting⟩
  | commit =>
    simp only [step, commitStep] at taken
    split at taken
    · rename_i tail phase
      split at taken <;> cases taken <;> exact idle valid (by simp [phase]) rfl (by simp)
    · rename_i tail phase
      split at taken <;> cases taken <;> exact idle valid (by simp [phase]) rfl (by simp)
    · rename_i phase
      cases taken
      exact idle valid (by simp [phase]) rfl (by simp)
    · cases taken
  | recover =>
    simp only [step, recoverStep] at taken
    split at taken
    · rename_i phase
      cases taken
      exact idle valid (by simp [phase]) rfl (by simp)
    · rename_i tail phase
      split at taken <;> cases taken <;> exact idle valid (by simp [phase]) rfl (by simp)
    · cases taken
  | crash =>
    cases taken
    exact ⟨fun occupied => absurd rfl occupied, fun _ => rfl⟩

end

end

/-- If operations are let in only while the log keeps a free block, no `log_write` finds the
log full, and every copy has its block in the log. -/
theorem log_admission_with_reserve (layout : Layout) (image : Disk) (calls : List Call) (s : State)
    (size : layout.size = logsize) (formatted : readHead (image layout.start) = [])
    (run : exec (State.step layout) (State.boot image) calls = some s)
    (met : Along (State.step layout) (fun s call => s.Modest call ∧ s.Reserves layout call)
      (State.boot image) calls) :
    (∀ call, ¬ s.TooBig layout call) ∧ ∀ tail, tail < s.lh.length →
    layout.Holds (layout.copy tail) := by
  have preserved (s : State) (call : Call) (t : State)
      (holds : s.Valid layout image ∧ s.Reserved layout)
      (met : s.Modest call ∧ s.Reserves layout call) (taken : s.step layout call = some t) :
      t.Valid layout image ∧ t.Reserved layout :=
    ⟨holds.1.step taken, holds.2.step holds.1 met.1 met.2 taken⟩
  have initial : (State.boot image).Reserved layout :=
    ⟨fun occupied => absurd rfl occupied, fun _ => rfl⟩
  obtain ⟨valid, reserved⟩ :=
    (throughout_of_along preserved ⟨State.Valid.boot formatted, initial⟩ met).final run
  refine ⟨fun call big => ?_, fun tail inside => ?_⟩
  · cases call with
    | logWrite process blockno data =>
      obtain ⟨active, full⟩ := big
      have occupied : s.active ≠ [] := by
        intro empty
        simp [empty] at active
      have room := reserved.room occupied
      omega
    | _ => exact big
  · have fits := reserved.fits valid
    unfold Layout.Holds Layout.copy
    omega

/-- The log as `mkfs` lays it out. -/
def mkfsLayout : Layout := ⟨2, logsize, by decide⟩

/-- Two operations in turn, each of which logs ten blocks. -/
def twoOperations : List Call :=
  [.recover, .recover, .beginOp 0, .beginOp 1] ++
    (List.range 20).map fun i => .logWrite (i % 2) (100 + i) fun _ => 1

theorem log_admission_with_reserve_two :
    ∃ s, exec (State.step mkfsLayout) (State.boot fun _ _ => 0) twoOperations = some s ∧
      s.lh.length = 20 ∧ s.active.length = 2 ∧ ∀ call, ¬ s.TooBig mkfsLayout call := by
  have ends : (exec (State.step mkfsLayout) (State.boot fun _ _ => 0) twoOperations).map
      (fun s => (s.lh.length, s.active.length)) = some (20, 2) := by decide +kernel
  obtain ⟨s, run, facts⟩ := map_eq_some_iff.mp ends
  obtain ⟨blocks, two⟩ := Prod.mk.inj facts
  exact ⟨s, run, blocks, two, (log_admission_with_reserve mkfsLayout _ twoOperations s rfl rfl run
    (by decide +kernel)).1⟩

/-- Three operations are let in together and log ten blocks each, up to the last one. -/
def threeOperations : List Call :=
  [.recover, .recover, .beginOp 0, .beginOp 1, .beginOp 2] ++
    (List.range 29).map fun i => .logWrite (i / maxopblocks) (100 + i) fun _ => 1

theorem log_admission_overrun :
    ∃ s, exec (State.step mkfsLayout) (State.boot fun _ _ => 0) threeOperations = some s ∧
      Along (State.step mkfsLayout) State.Modest (State.boot fun _ _ => 0) threeOperations ∧
      s.Modest (.logWrite 2 129 fun _ => 1) ∧ s.TooBig mkfsLayout (.logWrite 2 129 fun _ => 1) := by
  have ends : (exec (State.step mkfsLayout) (State.boot fun _ _ => 0) threeOperations).map
      (fun s => (s.lh.length, s.active.lookup 2, (s.current.opBlocks 2).insert 129 |>.length)) =
        some (29, some 2, 10) := by decide +kernel
  obtain ⟨s, run, result⟩ := map_eq_some_iff.mp ends
  simp only [Prod.mk.injEq] at result
  obtain ⟨full, active, ten⟩ := result
  refine ⟨s, run, by decide +kernel, ?_, ?_⟩
  · intro op found
    rw [active] at found
    cases found
    exact ten.le
  · refine ⟨by rw [active]; rfl, .inr ?_⟩
    rw [full]
    decide

end EnhancedXv6.Log
