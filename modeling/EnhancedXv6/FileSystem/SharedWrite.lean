import EnhancedXv6.FileSystem.Agreement
import EnhancedXv6.FileSystem.Contents
import EnhancedXv6.Foundation.Run
import EnhancedXv6.Log.Log

/-! Processes that share one `struct file` of an inode and write through it. A call of
`filewrite` is cut into sections, each under the lock of the inode. -/

namespace EnhancedXv6.FileSystem

open Foundation Function List Option

/-- `max` in `filewrite`: `((MAXOPBLOCKS-1-1-2) / 2) * BSIZE`. -/
def maxChunk : Nat := ((Log.maxopblocks - 1 - 1 - 2) / 2) * bsize

/-- A call of `filewrite`: its bytes, how many of them are written, and whether `writei`
came back with fewer than it was given. -/
structure Call where
  data : List UInt8
  i : Nat := 0
  failed : Bool := false
  deriving DecidableEq, Repr

structure Chunk where
  call : Nat
  off : Nat
  bytes : List UInt8
  deriving DecidableEq, Repr

/-- The volume, the inode and the offset of the file, the calls, and the sections so far. -/
structure Shared where
  vol : Volume
  ip : Inode
  off : Nat
  calls : Nat → Option Call
  chunks : List Chunk

def Call.next (call : Call) : List UInt8 :=
  (call.data.drop call.i).take (min (call.data.length - call.i) maxChunk)

/-- `f->off` and the call after `writei` has returned. -/
def Shared.advance (s : Shared) (who : Nat) (call : Call) (r : Int) (ip : Inode)
    (vol : Volume) : Shared where
  vol := { vol with outstanding := vol.outstanding - 1 }
  ip := ip
  off := if 0 < r then (s.off + r.toNat) % 2 ^ 32 else s.off
  calls := Function.update s.calls who (some
    (if r = call.next.length then { call with i := call.i + r.toNat }
      else { call with failed := true }))
  chunks := if 0 < r then s.chunks ++ [⟨who, s.off, call.next.take r.toNat⟩] else s.chunks

/-- A section: `begin_op`, `ilock`, `writei`, the new offset, `iunlock`, `end_op`. -/
def Shared.write (s : Shared) (who : Nat) (copies : Nat → Bool) : Option (Except Panic Shared) :=
  match s.calls who with
  | none => none
  | some call =>
    if call.failed ∨ call.data.length ≤ call.i then none
    else
      some ((writei copies s.ip s.off call.next
        { s.vol with outstanding := s.vol.outstanding + 1 }).map
      fun result => s.advance who call result.1.1 result.1.2 result.2)

inductive Label where
  | call (who : Nat) (data : List UInt8)
  | write (who : Nat) (copies : Nat → Bool)

def step : Except Panic Shared → Label → Option (Except Panic Shared)
  | .error _, _ => none
  | .ok s, .call who data =>
    if s.calls who = none then
      some (.ok { s with calls := Function.update s.calls who (some { data := data }) })
    else none
  | .ok s, .write who copies => s.write who copies

/-- Every range starts where the one before it has ended. -/
def tiles (start : Nat) : List Chunk → Prop
  | [] => True
  | c :: rest => c.off = start ∧ tiles (start + c.bytes.length) rest

def stored (chunks : List Chunk) : List UInt8 := chunks.flatMap Chunk.bytes

/-- The sections tile the file from `start` on, each call's in its order, and the file has
what they have stored. -/
structure Tiled (start : Nat) (bytes : List UInt8) (s : Shared) : Prop where
  ranges : tiles start s.chunks
  off : s.off = start + (stored s.chunks).length
  opened : Opened s.vol s.ip (splice bytes start (stored s.chunks))
  calls : ∀ who call, s.calls who = some call →
    call.failed = false ∧ stored (s.chunks.filter fun c => c.call = who) = call.data.take call.i
  begun : ∀ c ∈ s.chunks, s.calls c.call ≠ none

/-- Nothing goes wrong in a step: the copy succeeds, the file stays below its greatest
size, and no block is missing. -/
def Untroubled (state : Except Panic Shared) (label : Label) : Prop :=
  ∀ s who copies, state = .ok s → label = .write who copies →
    (copies = fun _ => true) ∧
    (∀ call, s.calls who = some call → s.off + call.next.length ≤ maxfile * bsize) ∧
    ∀ t, step state label = some (.ok t) → t.vol.complaints = s.vol.complaints

theorem tiles_append (start : Nat) (chunks : List Chunk) (c : Chunk) :
    tiles start (chunks ++ [c]) ↔ tiles start chunks ∧ c.off = start + (stored chunks).length := by
  induction chunks generalizing start with
  | nil => simp [tiles, stored]
  | cons first rest ih =>
    simp only [cons_append, tiles, ih, stored, flatMap_cons, length_append, and_assoc,
      Nat.add_assoc]

theorem stored_append (chunks : List Chunk) (c : Chunk) :
    stored (chunks ++ [c]) = stored chunks ++ c.bytes := by
  simp [stored]

theorem Call.length_next (call : Call) :
    call.next.length = min (call.data.length - call.i) maxChunk := by
  unfold Call.next
  rw [length_take, length_drop]
  omega

theorem Tiled.write (tiled : Tiled start bytes s) (below : start ≤ bytes.length)
    (found : s.calls who = some call) (more : call.i < call.data.length)
    (fits : s.off + call.next.length ≤ maxfile * bsize)
    (quiet : ∀ t, s.write who (fun _ => true) = some (.ok t) →
      t.vol.complaints = s.vol.complaints) :
    ∃ t, s.write who (fun _ => true) = some (.ok t) ∧ Tiled start bytes t := by
  have state := tiled.calls who call found
  have length := length_splice below (stored s.chunks)
  have offset := tiled.off
  have begun : Opened { s.vol with outstanding := s.vol.outstanding + 1 } s.ip
      (splice bytes start (stored s.chunks)) :=
    ⟨tiled.opened.sound.change rfl (fun _ => id) fun _ => .inl, tiled.opened.holds,
      tiled.opened.fits, tiled.opened.size⟩
  obtain ⟨⟨r, ip⟩, vol, ended, k, content, result, opened, _, written, whole⟩ :=
    (writei_meets (Nat.succ_pos _) begun (by omega) fits :
      Meets (writei (fun _ => true) s.ip s.off call.next) _ _ _).ends
  rw [written.all] at opened
  have stepped : s.write who (fun _ => true) = some (.ok (s.advance who call r ip vol)) := by
    simp only [Shared.write, found]
    rw [if_neg (by simp [state.1]; omega), ended]
    rfl
  have size := call.length_next
  have some : 0 < call.next.length := by
    rw [size]
    unfold maxChunk Log.maxopblocks bsize
    omega
  have all := whole (quiet _ stepped) fun _ _ => rfl
  simp only at result
  have positive : 0 < r := by omega
  have count : r.toNat = call.next.length := by omega
  have whole' : call.next.take k = call.next := take_of_length_le all.ge
  rw [whole'] at opened
  have joined := splice_splice below (stored s.chunks) call.next
  rw [← offset] at joined
  have wrapped : (s.off + call.next.length) % 2 ^ 32 = s.off + call.next.length :=
    Nat.mod_eq_of_lt (fits.trans_lt (by decide))
  refine ⟨_, stepped, ?_⟩
  have chunks : (s.advance who call r ip vol).chunks = s.chunks ++ [⟨who, s.off, call.next⟩] := by
    simp only [Shared.advance, if_pos positive, count, take_length]
  constructor
  · rw [chunks, tiles_append]
    exact ⟨tiled.ranges, offset⟩
  · rw [chunks, stored_append, length_append, ← Nat.add_assoc, ← offset]
    simp only [Shared.advance, if_pos positive, count]
    exact wrapped
  · rw [chunks, stored_append, ← joined]
    exact ⟨opened.sound.change rfl (fun _ => id) fun _ => .inl, opened.holds,
      opened.fits, opened.size⟩
  · intro other later found'
    rw [chunks, filter_append]
    by_cases here : other = who
    · subst here
      simp only [Shared.advance, update_self, Option.some.injEq] at found'
      rw [if_pos (by omega)] at found'
      subst found'
      refine ⟨state.1, ?_⟩
      have mine : [(⟨other, s.off, call.next⟩ : Chunk)].filter (fun c => c.call = other) =
          [⟨other, s.off, call.next⟩] := by simp
      rw [mine, stored_append, state.2, count]
      unfold Call.next at size ⊢
      rw [size, ← take_add]
    · simp only [Shared.advance, update_of_ne here] at found'
      have theirs : [(⟨who, s.off, call.next⟩ : Chunk)].filter (fun c => c.call = other) = [] := by
        simp [Ne.symm here]
      rw [theirs, append_nil]
      exact tiled.calls other later found'
  · intro c member
    rw [chunks] at member
    by_cases here : c.call = who
    · simp [Shared.advance, here]
    · rcases mem_append.mp member with old | new
      · simpa [Shared.advance, here] using tiled.begun c old
      · rw [mem_singleton.mp new] at here
        exact absurd rfl here

theorem Tiled.call (tiled : Tiled start bytes s) (new : s.calls who = none) (data : List UInt8) :
    Tiled start bytes { s with calls := update s.calls who (some { data := data }) } where
  ranges := tiled.ranges
  off := tiled.off
  opened := tiled.opened
  calls other later found := by
    simp only at found ⊢
    by_cases here : other = who
    · subst here
      rw [update_self, some.injEq] at found
      subst found
      refine ⟨rfl, ?_⟩
      have none : (s.chunks.filter fun c => c.call = other) = [] := by
        refine filter_eq_nil_iff.mpr fun c member same => ?_
        exact tiled.begun c member (by rw [of_decide_eq_true same, new])
      rw [none]
      rfl
    · rw [update_of_ne here] at found
      exact tiled.calls other later found
  begun c member := by
    by_cases here : c.call = who
    · simp [here]
    · simpa [here] using tiled.begun c member

/-- Any number of calls that share a file, in any order of their sections: nothing that is
written is lost. -/
theorem shared_writes_tile (s : Shared) (bytes : List UInt8) (opened : Opened s.vol s.ip bytes)
    (below : s.off ≤ bytes.length) (idle : s.calls = fun _ => none) (fresh : s.chunks = [])
    (labels : List Label) (met : Along step Untroubled (.ok s) labels) :
    Throughout step (fun state => ∃ t, state = .ok t ∧ Tiled s.off bytes t) (.ok s) labels := by
  refine throughout_of_along ?_ ⟨s, rfl, ?_⟩ met
  · rintro _ label next ⟨t, rfl, tiled⟩ untroubled taken
    cases label with
    | call who data =>
      simp only [step, ite_none_right_eq_some, some.injEq] at taken
      obtain ⟨new, rfl⟩ := taken
      exact ⟨_, rfl, tiled.call new data⟩
    | write who copies =>
      obtain ⟨rfl, fits, quiet⟩ := untroubled t who copies rfl rfl
      have stepped : t.write who (fun _ => true) = some next := taken
      cases found : t.calls who with
      | none => simp [Shared.write, found] at stepped
      | some call =>
        have more : call.i < call.data.length := by
          by_contra finished
          simp [Shared.write, found, Nat.le_of_not_lt finished] at stepped
        obtain ⟨u, wrote, tiled'⟩ := tiled.write below found more (fits call found) quiet
        exact ⟨u, some.inj (stepped.symm.trans wrote), tiled'⟩
  · refine ⟨by rw [fresh]; trivial, by rw [fresh]; rfl, ?_, fun who call found => ?_,
      fun c member => ?_⟩
    · rw [fresh]
      simpa [stored, splice_nil] using opened
    · rw [idle] at found
      cases found
    · rw [fresh] at member
      cases member

theorem Mkfs.Final.opened {image : Mkfs.Image} {files : List Mkfs.File}
    (final : Mkfs.Final image files)
    (inside : k < files.length) (few : files.length + 2 ≤ Mkfs.ninodeblocks * ipb) (o c : Nat) :
    Opened (mounted image o c) ((mounted image o c).inode (k + 2))
      (Mkfs.expected files (k + 2)) := by
  have sb := final.mounted_sb o c
  have inode := final.inode_eq o c (k + 2)
  have low := final.stored.low
  have room := final.room
  have block := Mkfs.iblock_inside (show k + 2 < _ from lt_of_lt_of_le (by omega) few)
  have bitmap : ∀ b < Mkfs.fssize, Mkfs.sb.bblock b = Mkfs.sb.bmapstart := by
    intro b small
    unfold Superblock.bblock
    rw [Nat.div_eq_of_lt (small.trans (by decide)), Nat.zero_add]
  have taken : ∀ b < image.freeblock, (mounted image o c).Taken b := by
    intro b used
    have small : b < Mkfs.fssize := lt_of_lt_of_le used room
    refine ⟨by rw [sb]; exact small, ?_⟩
    rw [sb, bitmap b small, Nat.mod_eq_of_lt (small.trans (by decide))]
    exact (final.bitmap b).trans (decide_eq_true used)
  have high : ∀ b, Uses image.disk ((mounted image o c).inode (k + 2)).addrs b →
      Mkfs.nmeta ≤ b ∧ b < image.freeblock := by
    rw [inode]
    exact final.stored.range (k + 2) (by omega)
  have last : Mkfs.sb.bmapstart < Mkfs.nmeta := by decide
  refine ⟨⟨?_, taken 0 (by omega), fun x small => ?_, ?_, fun x small => ?_,
    fun b use => taken b (high b use).2, fun b use => ⟨?_, fun x small => ?_⟩⟩, ?_,
    Dinode.fits_get _ _, ?_⟩
  · rw [sb]
    decide
  · rw [sb] at small ⊢
    rw [bitmap x small]
    exact taken _ (by omega)
  · rw [sb]
    exact taken _ (lt_of_lt_of_le (block.2.trans last) low)
  · rw [sb] at small ⊢
    rw [bitmap x small]
    exact ne_of_lt block.2
  · rw [sb]
    exact ne_of_gt (lt_of_lt_of_le (block.2.trans last) (high b use).1)
  · rw [sb] at small ⊢
    rw [bitmap x small]
    exact ne_of_gt (lt_of_lt_of_le last (high b use).1)
  · rw [inode]
    exact final.stored.holds (k + 2) (by omega)
  · rw [inode]
    exact final.size k inside

/-- The file of six bytes in a new image, opened at an offset. -/
def openedAt (image : Mkfs.Image) (off : Nat) : Shared where
  vol := mounted image 0 0
  ip := (mounted image 0 0).inode 2
  off := off
  calls := fun _ => none
  chunks := []

theorem openedAt_opened (final : Mkfs.Final image [sixBytes]) (off : Nat) :
    Opened (openedAt image off).vol (openedAt image off).ip [1, 2, 3, 4, 5, 6] :=
  final.opened (k := 0) (by decide) (by decide) 0 0

def writeOne : List Label := [.call 0 [7], .write 0 fun _ => true]

def calledAt (image : Mkfs.Image) (off : Nat) : Shared :=
  { openedAt image off with calls := Function.update (fun _ => none) 0 (some { data := [7] }) }

theorem writeOne_untroubled (image : Mkfs.Image) (off : Nat) (fits : off + 1 ≤ maxfile * bsize)
    (quiet : ∀ t, (calledAt image off).write 0 (fun _ => true) = some (.ok t) →
      t.vol.complaints = 0) :
    Along step Untroubled (.ok (openedAt image off)) writeOne := by
  refine ⟨fun s who copies _ label => Label.noConfusion label,
    fun next taken => ⟨fun s who copies same label => ?_,
    fun _ _ => trivial⟩⟩
  have first : next = .ok (calledAt image off) := (some.inj taken).symm
  rw [first] at same
  cases same
  cases label
  refine ⟨rfl, fun call found => ?_, fun t stepped => ?_⟩
  · simp only [calledAt, update_self, some.injEq] at found
    subst found
    exact fits
  · rw [first] at stepped
    exact quiet t stepped

/-- What can be computed of an untroubled step. -/
def Quiet : Except Panic Shared → Label → Prop
  | .ok s, .write who copies =>
    ((s.calls who).all fun call => s.off + call.next.length ≤ maxfile * bsize) ∧
      (s.write who copies).all fun result =>
        result.toOption.all fun t => t.vol.complaints = s.vol.complaints
  | _, _ => True

instance decidableQuiet :
    (state : Except Panic Shared) → (label : Label) → Decidable (Quiet state label)
  | .ok _, .write _ _ => inferInstanceAs (Decidable (_ ∧ _))
  | .ok _, .call _ _ => .isTrue trivial
  | .error _, .write _ _ => .isTrue trivial
  | .error _, .call _ _ => .isTrue trivial

theorem along_untroubled (copies : ∀ who f, .write who f ∈ labels → f = fun _ => true)
    (quiet : Along step Quiet state labels) : Along step Untroubled state labels := by
  induction labels generalizing state with
  | nil => trivial
  | cons label rest ih =>
    obtain ⟨first, later⟩ := quiet
    refine ⟨fun s who f state label => ?_, fun next taken => ?_⟩
    · subst state label
      obtain ⟨fits, silent⟩ := first
      refine ⟨copies who f mem_cons_self, fun call found => ?_, fun t stepped => ?_⟩
      · rw [found] at fits
        exact of_decide_eq_true fits
      · rw [show s.write who f = some (.ok t) from stepped] at silent
        exact of_decide_eq_true silent
    · exact ih (fun who f member => copies who f (mem_cons_of_mem _ member)) (later next taken)

def smallShared : Shared := ⟨smallVolume, smallVolume.inode 1, 1, fun _ => none, []⟩

/-- The second call writes between the two sections of the first. -/
def twoWriters : List Label :=
  [.call 0 (List.replicate 3072 7 ++ [8]), .call 1 [9, 10], .write 0 fun _ => true,
    .write 1 fun _ => true, .write 0 fun _ => true]

theorem shared_writes_tile_two_writers :
    ∃ t, exec step (.ok smallShared) twoWriters = some (.ok t) ∧
      t.chunks.map (fun c => (c.call, c.off, c.bytes.length)) =
        [(0, 1, 3072), (1, 3073, 2), (0, 3075, 1)] ∧ Tiled 1 [1, 2] t := by
  have computed : ((exec step (.ok smallShared) twoWriters).bind fun result =>
      result.toOption.map fun t => t.chunks.map fun c => (c.call, c.off, c.bytes.length)) =
        some [(0, 1, 3072), (1, 3073, 2), (0, 3075, 1)] := by decide +kernel
  obtain ⟨state, run, facts⟩ := bind_eq_some_iff.mp computed
  have met : Along step Untroubled (.ok smallShared) twoWriters := by
    refine along_untroubled (fun who f member => ?_) (by decide +kernel)
    simp only [twoWriters, mem_cons, Label.write.injEq, reduceCtorEq, false_or, not_mem_nil,
      or_false] at member
    rcases member with ⟨_, rfl⟩ | ⟨_, rfl⟩ | ⟨_, rfl⟩ <;> rfl
  obtain ⟨t, rfl, tiled⟩ :=
    (shared_writes_tile smallShared [1, 2] smallVolume_opened
      (by decide) rfl rfl twoWriters met).final run
  exact ⟨t, run, some.inj facts, tiled⟩

/-- An offset beyond the end, as another process's truncation leaves it: `writei` refuses
every chunk. -/
theorem shared_write_beyond_end : ∃ image t, Mkfs.main [sixBytes] Mkfs.start = .ok ((), image) ∧
    Opened (openedAt image 7).vol (openedAt image 7).ip [1, 2, 3, 4, 5, 6] ∧
    Along step Untroubled (.ok (openedAt image 7)) writeOne ∧
    exec step (.ok (openedAt image 7)) writeOne = some (.ok t) ∧
    t.off = 7 ∧ t.chunks = [] ∧ t.calls 0 = some { data := [7], failed := true } := by
  have acceptable : Mkfs.Acceptable [sixBytes] :=
    Mkfs.acceptable_of (by decide) (by decide) (by decide) (by decide)
  obtain ⟨image, made, final⟩ := Mkfs.main_ends (by decide) acceptable
  have opened := openedAt_opened final 7
  have short : (openedAt image 7).ip.size < 7 := by
    rw [opened.size]
    decide
  have refused : writei (fun _ => true) (openedAt image 7).ip 7 [7]
      { (openedAt image 7).vol with outstanding := 1 } =
      .ok ((-1, (openedAt image 7).ip), { (openedAt image 7).vol with outstanding := 1 }) := by
    unfold writei
    simp only [if_pos (Or.inl short)]
    rfl
  have wrote : (calledAt image 7).write 0 (fun _ => true) =
      some ((writei (fun _ => true) (openedAt image 7).ip 7 [7]
        { (openedAt image 7).vol with outstanding := 1 }).map
        fun r => (calledAt image 7).advance 0 { data := [7] } r.1.1 r.1.2 r.2) := rfl
  rw [refused] at wrote
  refine ⟨image, (calledAt image 7).advance 0 { data := [7] } (-1) (openedAt image 7).ip
    { (openedAt image 7).vol with outstanding := 1 }, made, opened,
    writeOne_untroubled image 7 (by decide) fun t stepped => ?_, ?_⟩
  · rw [wrote] at stepped
    cases stepped
    rfl
  · refine ⟨?_, rfl, rfl, rfl⟩
    change ((calledAt image 7).write 0 fun _ => true).bind (fun next => some next) = _
    rw [wrote]
    rfl

end EnhancedXv6.FileSystem
