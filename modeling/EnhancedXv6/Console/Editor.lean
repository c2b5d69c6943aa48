import EnhancedXv6.Console.Console

namespace EnhancedXv6.Console

open Foundation List

/-- The line that is being typed, the committed characters that no reader has taken, the ones that
were taken, and all that were committed. -/
structure Editor where
  line : List UInt8
  queue : List UInt8
  taken : List UInt8
  committed : List UInt8

def Editor.empty : Editor := ⟨[], [], [], []⟩

def Editor.commit (a : Editor) : Editor :=
  { a with line := [], queue := a.queue ++ a.line, committed := a.committed ++ a.line }

def Editor.put (a : Editor) (ch : UInt8) : Editor :=
  let a := { a with line := a.line ++ [ch] }
  if ch = newline ∨ ch = ctrlD ∨ a.queue.length + a.line.length = inputBufSize then a.commit else a

def Editor.type (a : Editor) (ch : UInt8) : Editor :=
  if ch = ctrlP then a
  else if ch = ctrlU then { a with line := [] }
  else if ch = ctrlH ∨ ch = delete then { a with line := a.line.dropLast }
  else if ch ≠ 0 ∧ a.queue.length + a.line.length < inputBufSize then
    a.put (if ch = carriageReturn then newline else ch)
  else a

theorem Editor.type_taken (a : Editor) (ch : UInt8) : (a.type ch).taken = a.taken := by
  unfold type put commit
  dsimp only
  split_ifs <;> rfl

/-- Kill, backspace and delete shorten the line and leave the queue. -/
theorem Editor.type_erases (a : Editor) {ch : UInt8}
    (erases : ch = ctrlU ∨ ch = ctrlH ∨ ch = delete) :
    (a.type ch).queue = a.queue ∧ (a.type ch).line <+: a.line := by
  have other : ch ≠ ctrlP := by
    rcases erases with rfl | rfl | rfl <;> decide
  rw [type, if_neg other]
  by_cases kill : ch = ctrlU
  · rw [if_pos kill]
    exact ⟨rfl, nil_prefix⟩
  · rw [if_neg kill, if_pos (erases.resolve_left kill)]
    exact ⟨rfl, dropLast_prefix _⟩

/-- Another character is stored if it is not NUL and there is room. -/
theorem Editor.type_stores (a : Editor) {ch : UInt8}
    (ordinary : ¬ (ch = ctrlP ∨ ch = ctrlU ∨ ch = ctrlH ∨ ch = delete)) (real : ch ≠ 0)
    (room : a.queue.length + a.line.length < inputBufSize) :
    (a.type ch).queue ++ (a.type ch).line = a.queue ++ a.line ++
      [if ch = carriageReturn then newline else ch] := by
  obtain ⟨notP, others⟩ := not_or.mp ordinary
  obtain ⟨notU, erases⟩ := not_or.mp others
  rw [type, if_neg notP, if_neg notU, if_neg erases, if_pos ⟨real, room⟩]
  generalize (if ch = carriageReturn then newline else ch) = entered
  unfold put
  dsimp only
  split
  · exact (append_nil _).trans (append_assoc _ _ _).symm
  · exact (append_assoc _ _ _).symm

inductive Edit
  | type (ch : UInt8)
  | take

def Editor.step (a : Editor) : Edit → Option Editor
  | .type ch => some (a.type ch)
  | .take =>
    match a.queue with
    | [] => none
    | ch :: rest => some { a with queue := rest, taken := a.taken ++ [ch] }

/-- What is committed has been taken or waits, in order. -/
def Editor.Kept (a : Editor) : Prop :=
  a.committed = a.taken ++ a.queue

theorem Editor.Kept.commit {a : Editor} (kept : a.Kept) : a.commit.Kept := by
  change a.committed ++ a.line = a.taken ++ (a.queue ++ a.line)
  rw [← append_assoc, kept]

theorem Editor.Kept.put {a : Editor} (kept : a.Kept) (ch : UInt8) : (a.put ch).Kept := by
  unfold Editor.put
  dsimp only
  split
  · exact Editor.Kept.commit kept
  · exact kept

theorem Editor.Kept.type {a : Editor} (kept : a.Kept) (ch : UInt8) : (a.type ch).Kept := by
  unfold Editor.type
  split
  · exact kept
  · split
    · exact kept
    · split
      · exact kept
      · split
        · exact kept.put _
        · exact kept

theorem Editor.Kept.step {a b : Editor} {edit : Edit} (kept : a.Kept)
    (taken : a.step edit = some b) : b.Kept := by
  cases edit with
  | type ch =>
    cases taken
    exact kept.type ch
  | take =>
    unfold Editor.step at taken
    dsimp only at taken
    split at taken
    · cases taken
    · rename_i ch rest front
      cases taken
      change a.committed = (a.taken ++ [ch]) ++ rest
      rw [kept, front, append_cons]

section Ring

variable {c : Cons} {a : Editor} {ch : UInt8}

def Cons.pending (c : Cons) : List UInt8 :=
  ringItems c.buf inputBufSize (2 ^ 32) c.r c.w

def Cons.line (c : Cons) : List UInt8 :=
  ringItems c.buf inputBufSize (2 ^ 32) c.w c.e

/-- The indices are in order and not further apart than the buffer is long. -/
structure Cons.Good (c : Cons) : Prop where
  r : c.r < 2 ^ 32
  w : c.w < 2 ^ 32
  e : c.e < 2 ^ 32
  order : ringCount (2 ^ 32) c.r c.w ≤ ringCount (2 ^ 32) c.r c.e
  room : ringCount (2 ^ 32) c.r c.e ≤ inputBufSize

theorem Cons.Good.line_count (good : c.Good) :
    ringCount (2 ^ 32) c.w c.e = ringCount (2 ^ 32) c.r c.e - ringCount (2 ^ 32) c.r c.w :=
  ringCount_between good.r good.w good.e good.order

theorem Cons.Good.length (good : c.Good) :
    c.pending.length + c.line.length = ringCount (2 ^ 32) c.r c.e := by
  have order := good.order
  rw [pending, line, length_ringItems, length_ringItems, good.line_count]
  omega

/-- The buffer shows the state of the editor, and a line that is being typed has no newline. -/
structure Cons.Shows (c : Cons) (a : Editor) : Prop where
  good : c.Good
  queue : a.queue = c.pending
  line : a.line = c.line
  plain : newline ∉ a.line

section

variable (good : c.Good)

include good

section

variable (room : ringCount (2 ^ 32) c.r c.e < inputBufSize)

include room

theorem Cons.Good.push_count (ch : UInt8) :
    ringCount (2 ^ 32) (c.push ch).r (c.push ch).e = ringCount (2 ^ 32) c.r c.e + 1 :=
  ringCount_push good.r good.e (Nat.lt_of_le_of_lt room (by decide))

theorem Cons.Good.push : (c.push ch).Good := by
  have count := good.push_count room ch
  refine ⟨good.r, good.w, Nat.mod_lt _ (by decide), ?_, ?_⟩
  · have order := good.order
    rw [count]
    change ringCount (2 ^ 32) c.r c.w ≤ _
    omega
  · rw [count]
    exact room

theorem Cons.Good.push_pending : (c.push ch).pending = c.pending := by
  have spare :
      ringItems (Function.update c.buf (c.e % inputBufSize) ch) inputBufSize (2 ^ 32) c.r c.e =
      ringItems c.buf inputBufSize (2 ^ 32) c.r c.e :=
    ringItems_spare ch (by decide) good.r good.e room
  rw [ringItems_between good.r good.w good.e good.order,
    ringItems_between good.r good.w good.e good.order] at spare
  refine (append_inj spare ?_).1
  rw [length_ringItems, length_ringItems]

theorem Cons.Good.push_line : (c.push ch).line = c.line ++ [ch] := by
  have count := good.line_count
  have few : ringCount (2 ^ 32) c.w c.e < inputBufSize := by omega
  exact ringItems_push ch (by decide) (by decide) good.w good.e few

end

theorem Cons.Good.commit : Cons.Good { c with w := c.e } :=
  ⟨good.r, good.e, good.e, le_rfl, good.room⟩

theorem Cons.Shows.commit (queue : a.queue = c.pending) (line : a.line = c.line) :
    Cons.Shows { c with w := c.e } a.commit where
  good := good.commit
  queue := by
    change a.queue ++ a.line = _
    rw [queue, line]
    exact (ringItems_between good.r good.w good.e good.order).symm
  line := by
    symm
    apply length_eq_zero_iff.mp
    rw [Cons.line, length_ringItems, ringCount_self]
  plain := not_mem_nil

end

theorem Cons.Shows.store (shows : c.Shows a) (room : ringCount (2 ^ 32) c.r c.e < inputBufSize)
    (ch : UInt8) : (c.store ch).1.Shows (a.put ch) := by
  have good := shows.good
  have queue : a.queue = (c.push ch).pending := shows.queue.trans (good.push_pending room).symm
  have line : a.line ++ [ch] = (c.push ch).line := by rw [good.push_line room, shows.line]
  have length : a.queue.length + (a.line ++ [ch]).length =
      ringCount (2 ^ 32) (c.push ch).r (c.push ch).e := by
    rw [queue, line, (good.push room).length]
  unfold Cons.store Editor.put
  dsimp only
  rw [length]
  split
  · exact .commit (good.push room) queue line
  · rename_i open_
    refine ⟨good.push room, queue, line, fun member => ?_⟩
    rcases mem_append.mp member with old | new
    · exact shows.plain old
    · exact open_ (.inl (mem_singleton.mp new).symm)

theorem edit_keeps (c : Cons) (e : Nat) :
    ({ c with e := e } : Cons).r = c.r ∧ ({ c with e := e } : Cons).w = c.w :=
  ⟨rfl, rfl⟩

theorem edit_pending (c : Cons) (e : Nat) : Cons.pending { c with e := e } = c.pending := rfl

theorem edit_line (c : Cons) (e : Nat) :
    Cons.line { c with e := e } = ringItems c.buf inputBufSize (2 ^ 32) c.w e := rfl

theorem Cons.Shows.erase (shows : c.Shows a) (some : c.e ≠ c.w) :
    Cons.Shows { c with e := c.before } { a with line := a.line.dropLast } ∧
      a.line = a.line.dropLast ++ [c.buf (c.before % inputBufSize)] ∧
      ringCount (2 ^ 32) c.w c.e = ringCount (2 ^ 32) c.w c.before + 1 := by
  obtain ⟨good, queue, line, plain⟩ := shows
  obtain ⟨r, w, e, order, room⟩ := good
  have last : (c.before + 1) % 2 ^ 32 = c.e := by
    unfold Cons.before
    omega
  have before : c.before < 2 ^ 32 := by
    unfold Cons.before
    omega
  have fewer : ringCount (2 ^ 32) c.w c.e = ringCount (2 ^ 32) c.w c.before + 1 := by
    unfold ringCount Cons.before
    omega
  have total : ringCount (2 ^ 32) c.r c.e = ringCount (2 ^ 32) c.r c.before + 1 := by
    unfold ringCount Cons.before
    unfold ringCount at order
    omega
  have bound : ringCount (2 ^ 32) c.w c.e < 2 ^ 32 := ringCount_lt w
  have next : c.line = ringItems c.buf inputBufSize
      (2 ^ 32) c.w c.before ++ [c.buf (c.before % inputBufSize)] := by
    rw [Cons.line, ← ringItems_next w before (by omega), last]
  have short : a.line.dropLast = ringItems c.buf inputBufSize (2 ^ 32) c.w c.before := by
    rw [line, next, dropLast_concat]
  have split := ringCount_between r w e order
  have inside : ringCount (2 ^ 32) c.r c.before ≤ inputBufSize := by omega
  have between : ringCount (2 ^ 32) c.r c.w ≤ ringCount (2 ^ 32) c.r c.before := by omega
  refine ⟨⟨⟨r, w, before, between, inside⟩, queue.trans (edit_pending c _).symm,
    short.trans (edit_line c _).symm, fun member => ?_⟩, by rw [short, line, next], fewer⟩
  exact plain (mem_of_mem_dropLast member)

theorem Cons.Shows.line_nil (shows : c.Shows a) (none : c.e = c.w) : a.line = [] := by
  apply length_eq_zero_iff.mp
  rw [shows.line, Cons.line, length_ringItems, none, ringCount_self]

theorem Cons.Shows.backspace (shows : c.Shows a) :
    c.backspace.Shows { a with line := a.line.dropLast } := by
  unfold Cons.backspace
  split
  · rename_i none
    rw [shows.line_nil none, dropLast_nil, ← shows.line_nil none]
    exact shows
  · rename_i some
    exact (shows.erase some).1

theorem Cons.Shows.killLine {fuel : Nat} (shows : c.Shows a)
    (enough : ringCount (2 ^ 32) c.w c.e ≤ fuel) :
    (Cons.killLine fuel c).Shows { a with line := [] } := by
  induction fuel generalizing c a with
  | zero =>
    have none : a.line = [] := by
      apply length_eq_zero_iff.mp
      rw [shows.line, Cons.line, length_ringItems]
      exact Nat.le_zero.mp enough
    rw [← none]
    exact shows
  | succ fuel ih =>
    unfold Cons.killLine
    split
    · rename_i more
      obtain ⟨after, _, fewer⟩ := shows.erase more.1
      have rounds : ringCount (2 ^ 32) c.w c.before ≤ fuel := by omega
      exact ih (a := { a with line := a.line.dropLast }) after rounds
    · rename_i stopped
      have none : a.line = [] := by
        by_cases same : c.e = c.w
        · exact shows.line_nil same
        · have last := (shows.erase same).2.1
          have found : c.buf (c.before % inputBufSize) = newline :=
            not_not.mp fun other => stopped ⟨same, other⟩
          rw [found] at last
          exact absurd (by rw [last]; simp) shows.plain
      rw [← none]
      exact shows

theorem killLine_keeps (fuel : Nat) (c : Cons) :
    (Cons.killLine fuel c).r = c.r ∧ (Cons.killLine fuel c).w = c.w := by
  induction fuel generalizing c with
  | zero => exact ⟨rfl, rfl⟩
  | succ fuel ih =>
    rw [Cons.killLine]
    by_cases more : c.e ≠ c.w ∧ c.buf (c.before % inputBufSize) ≠ newline
    · rw [if_pos more]
      obtain ⟨r, w⟩ := ih { c with e := c.before }
      exact ⟨r.trans (edit_keeps c _).1, w.trans (edit_keeps c _).2⟩
    · rw [if_neg more]
      exact ⟨rfl, rfl⟩

theorem backspace_keeps (c : Cons) : c.backspace.r = c.r ∧ c.backspace.w = c.w := by
  unfold Cons.backspace
  by_cases none : c.e = c.w
  · rw [if_pos none]
    exact ⟨rfl, rfl⟩
  · rw [if_neg none]
    exact edit_keeps c _

theorem consoleintr_erases (c : Cons) (erases : ch = ctrlU ∨ ch = ctrlH ∨ ch = delete) :
    (c.consoleintr ch).1.r = c.r ∧ (c.consoleintr ch).1.w = c.w := by
  have other : ch ≠ ctrlP := by
    rcases erases with rfl | rfl | rfl <;> decide
  rw [Cons.consoleintr, if_neg other]
  by_cases kill : ch = ctrlU
  · rw [if_pos kill]
    exact killLine_keeps _ c
  · rw [if_neg kill, if_pos (erases.resolve_left kill)]
    exact backspace_keeps c

/-- `consoleintr` is what the editor does with the character. -/
theorem Cons.Shows.consoleintr (shows : c.Shows a) (ch : UInt8) :
    (c.consoleintr ch).1.Shows (a.type ch) := by
  have length : a.queue.length + a.line.length = ringCount (2 ^ 32) c.r c.e := by
    rw [shows.queue, shows.line, shows.good.length]
  unfold Cons.consoleintr Editor.type
  split
  · exact shows
  · split
    · exact shows.killLine le_rfl
    · split
      · exact shows.backspace
      · unfold Cons.insert
        rw [length]
        split
        · rename_i room
          exact shows.store room.2 _
        · exact shows

theorem Cons.Shows.take (shows : c.Shows a) (more : c.r ≠ c.w) :
    ∃ b, a.step .take = some b ∧ Cons.Shows { c with r := (c.r + 1) % 2 ^ 32 } b ∧
      b.taken = a.taken ++ [c.buf (c.r % inputBufSize)] := by
  obtain ⟨⟨r, w, e, order, room⟩, queue, line, plain⟩ := shows
  have front :
      a.queue = c.buf (c.r % inputBufSize) :: pending { c with r := (c.r + 1) % 2 ^ 32 } := by
    rw [queue]
    exact ringItems_pop r w more
  have first := ringCount_pop r w more
  have other : c.r ≠ c.e := by
    intro same
    rw [← same, ringCount_self] at order
    omega
  have last := ringCount_pop r e other
  have between : ringCount (2 ^ 32) ((c.r + 1) % 2 ^ 32) c.w ≤
    ringCount (2 ^ 32) ((c.r + 1) % 2 ^ 32) c.e := by omega
  have inside : ringCount (2 ^ 32) ((c.r + 1) % 2 ^ 32) c.e ≤ inputBufSize := by omega
  refine ⟨{ a with
    queue := pending { c with r := (c.r + 1) % 2 ^ 32 }
    taken := a.taken ++ [c.buf (c.r % inputBufSize)] }, ?_,
    ⟨⟨Nat.mod_lt _ (by decide), w, e, between, inside⟩, rfl, line, plain⟩, rfl⟩
  unfold Editor.step
  rw [front]

end Ring

end EnhancedXv6.Console
