import EnhancedXv6.Log.Log

namespace EnhancedXv6.Log

open Foundation Function

theorem readHead_writeHead (blocks : List Nat) (header : Block) :
    readHead (writeHead blocks header) = blocks := by
  apply List.ext_getElem
  · simp [readHead, writeHead]
  · intro i inList inBlocks
    simp [readHead, writeHead, inBlocks]

theorem writeHead_nil (empty : readHead header = []) : writeHead [] header = header := by
  have zero : header 0 = 0 := by simpa [readHead] using empty
  funext word
  cases word with
  | zero => simp [writeHead, zero]
  | succ i => simp [writeHead]

theorem Group.apply_concat (group : Group) (write : Write) (disk : Disk) :
    Group.apply (group ++ [write]) disk =
      update (group.apply disk) write.blockno write.data := by
  unfold Group.apply
  rw [List.map_append]
  exact replay_concat _ _ _

theorem Group.apply_untouched {group : Group} (absent : ∀ write ∈ group, write.blockno ≠ blockno)
    (disk : Disk) : group.apply disk blockno = disk blockno := by
  apply replay_untouched
  intro entry member
  obtain ⟨write, present, same⟩ := List.mem_map.mp member
  subst same
  exact absent write present

theorem applyAll_concat (groups : List Group) (group : Group) (disk : Disk) :
    applyAll (groups ++ [group]) disk = group.apply (applyAll groups disk) := by
  simp [applyAll]

/-- A header that lists every block of a group, none of them a block of the log,
and no more blocks than the log has room for. -/
structure Covers (layout : Layout) (group : Group) (blocks : List Nat) : Prop where
  outside : ∀ blockno ∈ blocks, ¬ layout.Holds blockno
  fits : blocks.length ≤ layout.size - 1
  lists : ∀ write ∈ group, write.blockno ∈ blocks

/-- A disk before the commit point of a group: its header is empty, the file system
is as the earlier groups left it, and the first `tail` copies are in the log. -/
structure Logging (layout : Layout) (base : Disk) (group : Group) (blocks : List Nat) (disk : Disk)
    (tail : Nat) : Prop where
  empty : readHead (disk layout.start) = []
  home : ∀ blockno, ¬ layout.Holds blockno → disk blockno = base blockno
  copies : ∀ i blockno, i < tail → blocks[i]? = some blockno →
    disk (layout.copy i) = group.apply base blockno

/-- A disk after the commit point: the header lists the group, every copy is in the
log, and the first `tail` blocks are installed. -/
structure Committed (layout : Layout) (base : Disk) (group : Group) (blocks : List Nat)
    (disk : Disk) (tail : Nat) : Prop where
  listed : readHead (disk layout.start) = blocks
  copies : ∀ i blockno, blocks[i]? = some blockno →
    disk (layout.copy i) = group.apply base blockno
  redo : Redoing (fun blockno => ¬ layout.Holds blockno) blocks base (group.apply base) disk tail

variable {layout : Layout} {base disk : Disk} {group : Group} {blocks : List Nat}

theorem Layout.holds_start (layout : Layout) : layout.Holds layout.start := by
  have header := layout.header
  exact ⟨le_refl _, by omega⟩

theorem Covers.holds_copy (covers : Covers layout group blocks)
    (found : blocks[tail]? = some blockno) : layout.Holds (layout.copy tail) := by
  have inside : tail < blocks.length := by
    by_contra beyond
    rw [List.getElem?_eq_none (by omega)] at found
    cases found
  have room := covers.fits
  unfold Layout.Holds Layout.copy
  omega

theorem Covers.apply_eq (covers : Covers layout group blocks) (base : Disk)
    (absent : blockno ∉ blocks) : group.apply base blockno = base blockno := by
  apply Group.apply_untouched
  intro write member same
  exact absent (same ▸ covers.lists write member)

theorem Logging.copy (logging : Logging layout base group blocks disk tail)
    (covers : Covers layout group blocks) (found : blocks[tail]? = some blockno) :
    Logging layout base group blocks
      (update disk (layout.copy tail) (group.apply base blockno)) (tail + 1) := by
  have held := covers.holds_copy found
  refine ⟨?_, ?_, ?_⟩
  · rw [update_of_ne (by unfold Layout.copy; omega)]
    exact logging.empty
  · intro other outside
    have different : other ≠ layout.copy tail := fun same => outside (same ▸ held)
    rw [update_of_ne different]
    exact logging.home other outside
  · intro i other below listed
    by_cases last : i = tail
    · subst i
      rw [update_self, Option.some.inj (found.symm.trans listed)]
    · rw [update_of_ne (by unfold Layout.copy; omega)]
      exact logging.copies i other (by omega) listed

/-- The `write_head` of a commit, once every copy is in the log. -/
theorem Logging.commit (logging : Logging layout base group blocks disk tail)
    (all : blocks[tail]? = none) (header : Block) :
    Committed layout base group blocks
      (update disk layout.start (writeHead blocks header)) 0 := by
  refine ⟨?_, ?_, ?_⟩
  · rw [update_self, readHead_writeHead]
  · intro i blockno listed
    have below : i < tail := by
      have short := List.getElem?_eq_none_iff.mp all
      obtain ⟨inside, _⟩ := List.getElem?_eq_some_iff.mp listed
      omega
    rw [update_of_ne (by unfold Layout.copy; omega)]
    exact logging.copies i blockno below listed
  · refine ⟨by simp, ?_⟩
    intro blockno outside _
    have different : blockno ≠ layout.start := fun same => outside (same ▸ layout.holds_start)
    rw [update_of_ne different]
    exact logging.home blockno outside

theorem Logging.erased (home : ∀ blockno, ¬ layout.Holds blockno → disk blockno = base blockno)
    (header : Block) :
    Logging layout base [] [] (update disk layout.start (writeHead [] header)) 0 := by
  refine ⟨?_, ?_, by simp⟩
  · rw [update_self, readHead_writeHead]
  · intro blockno outside
    have different : blockno ≠ layout.start := fun same => outside (same ▸ layout.holds_start)
    rw [update_of_ne different]
    exact home blockno outside

section

variable (committed : Committed layout base group blocks disk tail)

include committed

theorem Committed.install (covers : Covers layout group blocks)
    (found : blocks[tail]? = some blockno) :
    Committed layout base group blocks
      (update disk blockno (group.apply base blockno)) (tail + 1) := by
  have outside := covers.outside blockno (List.mem_of_getElem? found)
  refine ⟨?_, ?_, committed.redo.write found⟩
  · have different : layout.start ≠ blockno := fun same => outside (same ▸ layout.holds_start)
    rw [update_of_ne different]
    exact committed.listed
  · intro i other listed
    have different : layout.copy i ≠ blockno :=
      fun same => outside (same ▸ covers.holds_copy listed)
    rw [update_of_ne different]
    exact committed.copies i other listed

theorem Committed.restart : Committed layout base group blocks disk 0 :=
  ⟨committed.listed, committed.copies, committed.redo.restart⟩

/-- Once every block is installed, the file system is as the group leaves it. -/
theorem Committed.installed (covers : Covers layout group blocks) (all : blocks[tail]? = none)
    (outside : ¬ layout.Holds blockno) : disk blockno = group.apply base blockno :=
  committed.redo.complete (List.getElem?_eq_none_iff.mp all)
    (fun _ absent => covers.apply_eq base absent) outside

end

end EnhancedXv6.Log
