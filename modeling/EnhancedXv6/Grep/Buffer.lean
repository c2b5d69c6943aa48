import EnhancedXv6.Grep.Match

namespace EnhancedXv6.Grep

open List

def newline : UInt8 := 10

def bufSize : Nat := 1024

structure Buffer where
  bytes : List UInt8
  size : bytes.length = bufSize

def Buffer.set (b : Buffer) (i : Nat) (x : UInt8) : Buffer where
  bytes := b.bytes.set i x
  size := by rw [List.length_set, b.size]

/-- A copy of bytes to a place of the buffer; what is beyond its end is dropped. -/
def Buffer.put (b : Buffer) (i : Nat) (data : List UInt8) : Buffer where
  bytes := (b.bytes.take i ++ (data ++ b.bytes.drop (i + data.length))).take bufSize
  size := by
    have size := b.size
    simp only [List.length_take, List.length_append, List.length_drop, size]
    omega

def strchr (c : UInt8) : List UInt8 → Option Nat
  | [] => none
  | x :: s => if x = 0 then none else if x = c then some 0 else (strchr c s).map (· + 1)

def cstring (s : List UInt8) : List UInt8 := s.takeWhile (· ≠ 0)

theorem strchr_lt {c : UInt8} {s : List UInt8} {i : Nat} (found : strchr c s = some i) :
    i < s.length := by
  induction s generalizing i with
  | nil => cases found
  | cons x s ih =>
    rw [strchr] at found
    split at found
    · cases found
    · split at found
      · cases found
        exact Nat.zero_lt_succ _
      · obtain ⟨j, there, rfl⟩ := Option.map_eq_some_iff.mp found
        exact Nat.succ_lt_succ (ih there)

/-- The loop over the lines in the buffer from `p` on, with what it writes, the buffer that
it leaves and its last `p`. -/
def lineLoop (pattern : List UInt8) (b : Buffer) (p : Nat) : List (List UInt8) × Buffer × Nat :=
  match found : strchr newline (b.bytes.drop p) with
  | none => ([], b, p)
  | some i =>
    let cut := b.set (p + i) 0
    if matchText pattern (cstring (cut.bytes.drop p)) then
      let whole := cut.set (p + i) newline
      let rest := lineLoop pattern whole (p + i + 1)
      ((whole.bytes.drop p).take (i + 1) :: rest.1, rest.2)
    else lineLoop pattern cut (p + i + 1)
termination_by bufSize - p
decreasing_by
  all_goals
    have inside := strchr_lt found
    rw [List.length_drop, b.size] at inside
    omega

/-- A `read` of at most `size` bytes. With `k` bytes left in the file it returns `cut k`
bytes if it can, but never none unless the file has ended or none are asked for. -/
def read (cut : Nat → Nat) (size : Nat) (stream : List UInt8) : List UInt8 :=
  stream.take (min size (max 1 (cut stream.length)))

/-- The loop of `grep`, with `m` bytes of an unfinished line in the buffer. -/
def grepLoop (pattern : List UInt8) (cut : Nat → Nat) (b : Buffer) (m : Nat) (stream : List UInt8) :
    List (List UInt8) :=
  let piece := read cut (bufSize - m - 1) stream
  if 0 < piece.length then
    let m' := m + piece.length
    let filled := (b.put m piece).set m' 0
    let scanned := lineLoop pattern filled 0
    -- the test `m > 0` before the move succeeds here
    let left := m' - scanned.2.2
    scanned.1 ++ grepLoop pattern cut
      (scanned.2.1.put 0 ((scanned.2.1.bytes.drop scanned.2.2).take left)) left
        (stream.drop piece.length)
  else []
termination_by stream.length
decreasing_by
  rename_i more
  rw [List.length_drop]
  exact Nat.sub_lt (more.trans_le (List.length_take_le' _ _)) more

/-- What `grep` writes for a file that is read in pieces, whatever the buffer holds before. -/
def grep (pattern : List UInt8) (cut : Nat → Nat) (b : Buffer) (stream : List UInt8) :
    List (List UInt8) :=
  grepLoop pattern cut b 0 stream

/-- The lines of a file that end in a newline, without it. -/
def lines (stream : List UInt8) : List (List UInt8) := (stream.splitOn newline).dropLast

def wanted (pattern : List UInt8) (rows : List (List UInt8)) : List (List UInt8) :=
  (rows.filter (matchText pattern)).map (· ++ [newline])

section Lines

variable {pattern line more text : List UInt8}

theorem lines_cons (single : newline ∉ line) :
    lines (line ++ newline :: more) = line :: lines more := by
  rw [lines, splitOn_append_cons_self_of_not_mem single,
    dropLast_cons_of_ne_nil (splitOn_ne_nil newline more)]
  rfl

theorem lines_none (single : newline ∉ text) : lines text = [] := by
  rw [lines, splitOn_eq_singleton single]
  rfl

theorem lines_long (single : newline ∉ text) : ∀ first rest, lines (text ++ more) = first :: rest →
    text.length ≤ first.length := by
  intro first rest found
  by_cases ends : newline ∈ more
  · obtain ⟨line, next, rfl, clean⟩ := eq_append_cons_of_mem ends
    rw [← append_assoc, lines_cons (by simp [single, clean])] at found
    obtain ⟨rfl, _⟩ := cons.inj found
    rw [length_append]
    omega
  · rw [lines_none (by simp [single, ends])] at found
    cases found

theorem strchr_line (clean : 0 ∉ line) (single : newline ∉ line) :
    strchr newline (line ++ newline :: more) = some line.length := by
  induction line with
  | nil => rfl
  | cons x line ih =>
    simp only [mem_cons, not_or] at clean single
    rw [cons_append, strchr, if_neg (Ne.symm clean.1), if_neg (Ne.symm single.1),
      ih clean.2 single.2]
    rfl

theorem strchr_none (clean : 0 ∉ text) (single : newline ∉ text) :
    strchr newline (text ++ 0 :: more) = none := by
  induction text with
  | nil => rfl
  | cons x text ih =>
    simp only [mem_cons, not_or] at clean single
    rw [cons_append, strchr, if_neg (Ne.symm clean.1), if_neg (Ne.symm single.1),
      ih clean.2 single.2]
    rfl

theorem cstring_append (clean : 0 ∉ line) : cstring (line ++ 0 :: more) = line := by
  rw [cstring, takeWhile_append_of_pos]
  · simp
  · intro x member
    exact decide_eq_true fun zero => clean (zero ▸ member)

end Lines

section Scan

variable {pattern text after : List UInt8} {b : Buffer} {p : Nat}

/-- What the loop over the lines does to a text in the buffer: `left` is its unfinished line. -/
structure Scanned (pattern text after : List UInt8) (p : Nat)
    (result : List (List UInt8) × Buffer × Nat) (left : List UInt8) : Prop where
  writes : result.1 = wanted pattern (lines text)
  rest : result.2.1.bytes.drop result.2.2 = left ++ 0 :: after
  place : result.2.2 + left.length = p + text.length
  clean : 0 ∉ left
  single : newline ∉ left
  split : ∀ more, lines (text ++ more) = lines text ++ lines (left ++ more)
  short : ∀ line ∈ lines text, line.length < text.length

/-- A byte is put into the part of the buffer that the loop looks at. -/
theorem Buffer.set_drop {line : List UInt8} {x y : UInt8}
    (here : b.bytes.drop p = line ++ x :: after) :
    (b.set (p + line.length) y).bytes.drop p = line ++ y :: after := by
  rw [set, drop_set, if_neg (by omega), here, set_append_right _ _ (by omega)]
  simp

/-- The loop has dealt with one more line in front of what it has scanned. -/
theorem Scanned.line {line left : List UInt8} {result : List (List UInt8) × Buffer × Nat}
    {writes : List (List UInt8)}
    (scanned : Scanned pattern text after (p + line.length + 1) result left)
    (single : newline ∉ line)
    (written : writes = if matchText pattern line then (line ++ [newline]) :: result.1
      else result.1) :
    Scanned pattern (line ++ newline :: text) after p (writes, result.2) left where
  writes := by
    rw [written, lines_cons single, wanted, filter_cons, scanned.writes]
    split <;> rfl
  rest := scanned.rest
  place := by
    have place := scanned.place
    simp only [length_append, length_cons]
    omega
  clean := scanned.clean
  single := scanned.single
  split := by
    intro more
    rw [append_assoc, cons_append, lines_cons single, lines_cons single, scanned.split]
    rfl
  short := by
    intro row member
    rw [lines_cons single] at member
    simp only [length_append, length_cons]
    rcases mem_cons.mp member with rfl | later
    · omega
    · have shorter := scanned.short row later
      omega

theorem lineLoop_scanned (pattern : List UInt8) (here : b.bytes.drop p = text ++ 0 :: after)
    (clean : 0 ∉ text) : ∃ left, Scanned pattern text after p (lineLoop pattern b p) left := by
  induction length : text.length using Nat.strong_induction_on generalizing text b p with
  | _ n ih =>
  by_cases ends : newline ∈ text
  · obtain ⟨line, more, rfl, single⟩ := eq_append_cons_of_mem ends
    simp only [mem_append, mem_cons, not_or] at clean
    rw [append_assoc, cons_append] at here
    have found : strchr newline (b.bytes.drop p) = some line.length := by
      rw [here]
      exact strchr_line clean.1 single
    have cut := Buffer.set_drop (y := 0) here
    have whole := Buffer.set_drop (y := newline) cut
    -- what comes after the line is scanned in the same way whether or not its newline is put back
    have onward (b' : Buffer) (y : UInt8)
        (same : b'.bytes.drop p = line ++ y :: (more ++ 0 :: after)) :
        ∃ left, Scanned pattern more after (p + line.length + 1)
          (lineLoop pattern b' (p + line.length + 1)) left := by
      refine ih more.length ?_ ?_ clean.2.2 rfl
      · rw [← length, length_append, length_cons]
        omega
      · rw [Nat.add_assoc, ← drop_drop, same, append_cons, drop_left' (by simp)]
    rw [lineLoop]
    split
    · rename_i missing
      rw [found] at missing
      cases missing
    · rename_i i there
      cases found.symm.trans there
      dsimp only
      rw [cut, cstring_append clean.1]
      split
      · rename_i matched
        obtain ⟨left, scanned⟩ := onward _ _ whole
        refine ⟨left, scanned.line single ?_⟩
        rw [if_pos matched, whole, append_cons, take_left' (by simp)]
      · rename_i other
        obtain ⟨left, scanned⟩ := onward _ _ cut
        exact ⟨left, scanned.line single (if_neg other).symm⟩
  · have nothing : lines text = [] := lines_none ends
    rw [lineLoop]
    split
    · refine ⟨text, ?_, here, rfl, clean, ends, ?_, ?_⟩
      · rw [nothing]
        rfl
      · intro more
        rw [nothing]
        rfl
      · simp [nothing]
    · rename_i i there
      rw [here, strchr_none clean ends] at there
      cases there

end Scan

section Reads

variable {pattern pending stream data : List UInt8} {cut : Nat → Nat} {b : Buffer} {i size : Nat}

theorem Buffer.put_bytes (fits : i + data.length ≤ bufSize) :
    (b.put i data).bytes = b.bytes.take i ++ (data ++ b.bytes.drop (i + data.length)) := by
  apply take_of_length_le
  simp only [length_append, length_take, length_drop, b.size]
  omega

theorem Buffer.read_drop (here : b.bytes.take pending.length = pending)
    (fits : pending.length + data.length < bufSize) :
    ∃ after, ((b.put pending.length data).set (pending.length + data.length) 0).bytes.drop 0 =
      pending ++ data ++ 0 :: after := by
  have room : pending.length + data.length < b.bytes.length := by
    rw [b.size]
    exact fits
  refine ⟨b.bytes.drop (pending.length + data.length + 1), ?_⟩
  have filled : (b.put pending.length data).bytes.drop 0 =
      pending ++ data ++ b.bytes[pending.length + data.length] :: b.bytes.drop
        (pending.length + data.length + 1) := by
    rw [drop_zero, put_bytes fits.le, here, drop_eq_getElem_cons room, append_assoc]
  have set := set_drop (y := 0) filled
  rwa [Nat.zero_add, length_append] at set

theorem read_append (cut : Nat → Nat) (size : Nat) (stream : List UInt8) :
    read cut size stream ++ stream.drop (read cut size stream).length = stream :=
  prefix_iff_eq_append.mp ( take_prefix _ _)

theorem read_length_le (cut : Nat → Nat) (size : Nat) (stream : List UInt8) :
    (read cut size stream).length ≤ size :=
  (length_take_le _ _).trans (min_le_left _ _)

/-- A read returns nothing only at the end of the file, or if it is asked for nothing. -/
theorem read_eq_nil (none : (read cut size stream).length = 0) : size = 0 ∨ stream = [] := by
  rw [read, length_take] at none
  have least : 1 ≤ max 1 (cut stream.length) := le_max_left _ _
  by_cases empty : stream = []
  · exact .inr empty
  · have long := length_pos_iff.mpr empty
    omega

/-- Lines that `grep` can hold in its buffer with their newline and a NUL. -/
def fits (line : List UInt8) : Bool := line.length ≤ bufSize - 2

theorem wanted_append (rows more : List (List UInt8)) :
    wanted pattern (rows ++ more) = wanted pattern rows ++ wanted pattern more := by
  simp [wanted]

theorem grepLoop_writes (here : b.bytes.take pending.length = pending)
    (room : pending.length < bufSize) (single : newline ∉ pending) (clean : 0 ∉ pending ++ stream) :
    grepLoop pattern cut b pending.length stream =
      wanted pattern ((lines (pending ++ stream)).takeWhile fits) := by
  induction length : stream.length using Nat.strong_induction_on generalizing stream pending b with
  | _ n ih =>
  rw [grepLoop]
  dsimp only
  have few := read_length_le cut (bufSize - pending.length - 1) stream
  split
  · rename_i some
    have whole := read_append cut (bufSize - pending.length - 1) stream
    generalize read cut (bufSize - pending.length - 1) stream = piece at some whole few ⊢
    generalize stream.drop piece.length = rest at whole ⊢
    subst whole
    rw [← append_assoc] at clean ⊢
    obtain ⟨after, filled⟩ :=
      Buffer.read_drop here (show pending.length + piece.length < bufSize by omega)
    obtain ⟨left, scanned⟩ :=
      lineLoop_scanned pattern filled fun zero => clean (mem_append_left _ zero)
    generalize lineLoop pattern _ 0 = result at scanned ⊢
    have place := scanned.place
    rw [length_append] at place
    have count : pending.length + piece.length - result.2.2 = left.length := by omega
    have moved : (result.2.1.put 0 left).bytes.take left.length = left := by
      rw [Buffer.put_bytes (by omega), take_zero, nil_append, take_left' rfl]
    have less : rest.length < n := by
      rw [← length, length_append]
      omega
    have unread : 0 ∉ left ++ rest := by
      simp only [mem_append, not_or] at clean ⊢
      exact ⟨scanned.clean, clean.2⟩
    rw [count, scanned.rest, take_left' rfl,
      ih rest.length less moved (by omega) scanned.single unread rfl,
      scanned.writes, scanned.split, takeWhile_append_of_pos, wanted_append]
    intro line member
    have short := scanned.short line member
    rw [length_append] at short
    exact decide_eq_true (by unfold bufSize at *; omega)
  · rename_i none
    rcases read_eq_nil (Nat.eq_zero_of_not_pos none) with full | rfl
    · -- the buffer is full of one line, which is then the first of those that do not fit
      cases rows : lines (pending ++ stream) with
      | nil => rfl
      | cons first rest =>
        have long := lines_long single first rest rows
        rw [takeWhile_cons_of_neg]
        · rfl
        · simp only [fits, decide_eq_true_eq]
          unfold bufSize at *
          omega
    · rw [append_nil, lines_none single]
      rfl

theorem grep_writes (text : 0 ∉ stream) :
    grep pattern cut b stream = wanted pattern ((lines stream).takeWhile fits) :=
  grepLoop_writes rfl (show ([] : List UInt8).length < bufSize by decide) not_mem_nil text

end Reads

/-- `grep` writes the matching lines of a file, however it is read, exactly if no line from
the first one on that has more than 1022 bytes matches. -/
theorem grep_writes_iff (pattern : List UInt8) (cut : Nat → Nat) (b : Buffer) (stream : List UInt8)
    (text : 0 ∉ stream) :
    grep pattern cut b stream = wanted pattern (lines stream) ↔
      ∀ line ∈ (lines stream).dropWhile fits, matchText pattern line = false := by
  have split := takeWhile_append_dropWhile (p := fits) (l := lines stream)
  have rest : wanted pattern ((lines stream).dropWhile fits) = [] ↔
      ∀ line ∈ (lines stream).dropWhile fits, matchText pattern line = false := by
    rw [wanted, map_eq_nil_iff, filter_eq_nil_iff]
    simp
  rw [grep_writes text, ← rest]
  constructor
  · intro same
    rw [← split, wanted_append] at same
    simpa using same
  · intro none
    conv_rhs => rw [← split, wanted_append, none, append_nil]

def blank : Buffer := ⟨List.replicate bufSize 0, List.length_replicate⟩

theorem grep_writes_first_line :
    grep [97] (fun _ => 1) blank [97, newline, 98, newline] = [[97, newline]] :=
  ((grep_writes_iff [97] (fun _ => 1) blank [97, newline, 98, newline] (by decide)).mpr
    (by decide)).trans (by decide)

def long (n : Nat) : List UInt8 := List.replicate n 97

theorem long_not_mem {n : Nat} {x : UInt8} (other : x ≠ 97) : x ∉ long n :=
  fun member => other (eq_of_mem_replicate member)

/-- A line of 1023 bytes fills the buffer, and the next `read` asks for nothing. -/
theorem grep_loses_long_line :
    grep [97] (fun _ => 512) blank (long 1023 ++ [newline]) = [] ∧
      wanted [97] (lines (long 1023 ++ [newline])) = [long 1023 ++ [newline]] := by
  have text : 0 ∉ long 1023 ++ [newline] := by
    simp only [mem_append, not_or]
    exact ⟨long_not_mem (by decide), by decide⟩
  have rows : lines (long 1023 ++ [newline]) = [long 1023] := by
    rw [lines_cons (long_not_mem (by decide)), lines_none not_mem_nil]
  have found : matchText [97] (long 1023) = true := rfl
  have unfit : ¬ fits (long 1023) = true := by
    rw [fits, long, length_replicate]
    decide
  constructor
  · rw [grep_writes text, rows, takeWhile_cons_of_neg unfit]
    rfl
  · rw [rows, wanted, filter_cons_of_pos found]
    rfl

end EnhancedXv6.Grep
