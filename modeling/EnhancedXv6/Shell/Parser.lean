import Mathlib

/-! The parser of `sh.c`. A pointer into the line is the list of characters from it up to
`es`, where the terminating NUL is; a pointer that is kept in a tree is the length of that
list. -/

namespace EnhancedXv6.Shell

abbrev Cursor := List UInt8

/-- One of `" \t\r\n\v"`. -/
def isSpace (c : UInt8) : Bool := c == 32 || c == 9 || c == 13 || c == 10 || c == 11

/-- One of `"<|>&;()"`. -/
def isSymbol (c : UInt8) : Bool :=
  c == 60 || c == 124 || c == 62 || c == 38 || c == 59 || c == 40 || c == 41

/-- The results of `gettoken`: 0, the symbols, `+` for `>>`, and `a` for a word. -/
inductive Tok where
  | eof
  | bar
  | lparen
  | rparen
  | semi
  | amp
  | lt
  | gt
  | append
  | word
  deriving DecidableEq, Repr

inductive Panic where
  | syntaxError
  | missingFile
  | parseblock
  | missingParen
  | tooManyArgs
  | leftovers
  | fuel
  deriving DecidableEq, Repr

/-- A counted string: the pointers to its start and to its end. -/
structure Span where
  q : Nat
  eq : Nat
  deriving DecidableEq, Repr

inductive Cmd where
  | exec (argv : List Span)
  | redir (cmd : Cmd) (file : Span) (mode fd : Nat)
  | pipe (left right : Cmd)
  | list (left right : Cmd)
  | back (cmd : Cmd)
  deriving DecidableEq, Repr

def skip (s : Cursor) : Cursor := s.dropWhile isSpace

/-- The `switch` of `gettoken`: the token at a character and what follows it. -/
def scan : Cursor → Tok × Cursor
  | [] => (.eof, [])
  | c :: rest =>
    if c = 124 then (.bar, rest)
    else if c = 40 then (.lparen, rest)
    else if c = 41 then (.rparen, rest)
    else if c = 59 then (.semi, rest)
    else if c = 38 then (.amp, rest)
    else if c = 60 then (.lt, rest)
    else if c = 62 then
      if rest.head? = some 62 then (.append, rest.tail) else (.gt, rest)
    else (.word, (c :: rest).dropWhile fun c => !isSpace c && !isSymbol c)

structure Found where
  tok : Tok
  q : Cursor
  eq : Cursor
  rest : Cursor

def gettoken (s : Cursor) : Found where
  tok := (scan (skip s)).1
  q := skip s
  eq := (scan (skip s)).2
  rest := skip (scan (skip s)).2

def Found.span (t : Found) : Span := { q := t.q.length, eq := t.eq.length }

/-- `peek` moves the cursor and tells whether one of the characters is there. -/
def peek (s : Cursor) (toks : List UInt8) : Cursor × Bool :=
  (skip s, (skip s).head?.any toks.contains)

@[simp]
theorem skip_skip (s : Cursor) : skip (skip s) = skip s := List.dropWhile_idempotent isSpace s

theorem length_skip_le (s : Cursor) : (skip s).length ≤ s.length :=
  (List.dropWhile_suffix isSpace).length_le

theorem length_scan_le (s : Cursor) : (scan s).2.length ≤ s.length := by
  cases s with
  | nil => exact le_rfl
  | cons c rest =>
    have word :=
      (List.dropWhile_suffix (l := c :: rest) fun c => !isSpace c && !isSymbol c).length_le
    have tail : rest.tail.length ≤ rest.length := by simp
    simp only [scan, List.length_cons] at *
    split_ifs <;> simp only <;> omega

theorem length_gettoken_le (s : Cursor) : (gettoken s).rest.length ≤ s.length :=
  (length_skip_le _).trans ((length_scan_le _).trans (length_skip_le s))

theorem length_gettoken_lt (there : (skip s).head?.any isSymbol = true) :
    (gettoken s).rest.length < s.length := by
  have less : (scan (skip s)).2.length < (skip s).length := by
    cases found : skip s with
    | nil => simp [found] at there
    | cons c rest =>
      have tail : rest.tail.length ≤ rest.length := by simp
      have symbol : isSymbol c = true := by simpa [found] using there
      simp only [isSymbol, Bool.or_eq_true, beq_iff_eq] at symbol
      simp only [scan, List.length_cons]
      split_ifs <;> simp only <;> first | omega | simp_all
  exact (length_skip_le _).trans_lt (less.trans_le (length_skip_le s))

theorem peek_symbol (toks : List UInt8) (only : ∀ c ∈ toks, isSymbol c = true)
    (there : (peek s toks).2 = true) : (skip (peek s toks).1).head?.any isSymbol = true := by
  obtain ⟨c, head, member⟩ := (Option.any_eq_true _ _).mp there
  have same : skip (peek s toks).1 = skip s := skip_skip s
  rw [same, head]
  exact only c (List.contains_iff_mem.mp member)

def oRdonly : Nat := 0x000
def oWronly : Nat := 0x001
def oCreate : Nat := 0x200
def oTrunc : Nat := 0x400

/-- The `switch` of `parseredirs`. -/
def redirect (cmd : Cmd) (tok : Tok) (file : Span) : Cmd :=
  match tok with
  | .lt => .redir cmd file oRdonly 0
  | .gt => .redir cmd file (oWronly ||| oCreate ||| oTrunc) 1
  | .append => .redir cmd file (oWronly ||| oCreate) 1
  | _ => cmd

def redirSymbols : List UInt8 := [60, 62]

theorem redirs_shorter (there : (peek s redirSymbols).2 = true) :
    (gettoken (gettoken (peek s redirSymbols).1).rest).rest.length < s.length := by
  have first :=
    length_gettoken_lt (peek_symbol redirSymbols (by simp [redirSymbols, isSymbol]) there)
  have second := length_gettoken_le (gettoken (peek s redirSymbols).1).rest
  have third : (peek s redirSymbols).1.length ≤ s.length := length_skip_le s
  omega

def parseredirs (cmd : Cmd) (s : Cursor) : Except Panic (Cmd × Cursor) :=
  if _ : (peek s redirSymbols).2 then
    let t := gettoken (peek s redirSymbols).1
    let f := gettoken t.rest
    if f.tok ≠ .word then .error .missingFile else parseredirs (redirect cmd t.tok f.span) f.rest
  else .ok (cmd, (peek s redirSymbols).1)
  termination_by s.length
  decreasing_by
    exact redirs_shorter ‹_›

def maxargs : Nat := 10

/-- `cmd->argv[argc] = q`, where `cmd` is the node inside the redirections of `ret`. -/
def Cmd.addArg : Cmd → Span → Cmd
  | .exec argv, arg => .exec (argv ++ [arg])
  | .redir cmd file mode fd, arg => .redir (cmd.addArg arg) file mode fd
  | ret, _ => ret

/-- The loop of `parseexec`. -/
def parseargs (argc : Nat) (ret : Cmd) (s : Cursor) : Except Panic (Cmd × Cursor) :=
  let p := peek s [124, 41, 38, 59]
  if p.2 then .ok (ret, p.1)
  else
    let t := gettoken p.1
    if t.tok = .eof then .ok (ret, t.rest)
    else if t.tok ≠ .word then .error .syntaxError
    else if maxargs ≤ argc + 1 then .error .tooManyArgs
    else (parseredirs (ret.addArg t.span) t.rest).bind fun r => parseargs (argc + 1) r.1 r.2
  termination_by maxargs - argc

/-- The loop over `&` in `parseline`. -/
def parsebacks (cmd : Cmd) (s : Cursor) : Cmd × Cursor :=
  if _ : (peek s [38]).2 then parsebacks (.back cmd) (gettoken (peek s [38]).1).rest
  else (cmd, (peek s [38]).1)
  termination_by s.length
  decreasing_by
    have first := length_gettoken_lt (peek_symbol [38] (by simp [isSymbol]) ‹_›)
    have second : (peek s [38]).1.length ≤ s.length := length_skip_le s
    omega

mutual

def parseline : Nat → Cursor → Except Panic (Cmd × Cursor)
  | 0, _ => .error .fuel
  | fuel + 1, s =>
    (parsepipe fuel s).bind fun r =>
      let b := parsebacks r.1 r.2
      let p := peek b.2 [59]
      if p.2 then (parseline fuel (gettoken p.1).rest).map fun l => (.list b.1 l.1, l.2)
      else .ok (b.1, p.1)

def parsepipe : Nat → Cursor → Except Panic (Cmd × Cursor)
  | 0, _ => .error .fuel
  | fuel + 1, s =>
    (parseexec fuel s).bind fun r =>
      let p := peek r.2 [124]
      if p.2 then (parsepipe fuel (gettoken p.1).rest).map fun l => (.pipe r.1 l.1, l.2)
      else .ok (r.1, p.1)

def parseexec : Nat → Cursor → Except Panic (Cmd × Cursor)
  | 0, _ => .error .fuel
  | fuel + 1, s =>
    let p := peek s [40]
    if p.2 then parseblock fuel p.1
    else (parseredirs (.exec []) p.1).bind fun r => parseargs 0 r.1 r.2

def parseblock : Nat → Cursor → Except Panic (Cmd × Cursor)
  | 0, _ => .error .fuel
  | fuel + 1, s =>
    let p := peek s [40]
    if p.2 then
      (parseline fuel (gettoken p.1).rest).bind fun r =>
        let p := peek r.2 [41]
        if p.2 then parseredirs r.1 (gettoken p.1).rest else .error .missingParen
    else .error .parseblock

end

/-- The characters that `strlen` counts. -/
def lineOf (s : List UInt8) : List UInt8 := s.takeWhile (· != 0)

/-- `parsecmd` up to `nulterminate`. -/
def parsecmd (s : List UInt8) : Except Panic Cmd :=
  (parseline (4 * (lineOf s).length + 4) (lineOf s)).bind fun r =>
    if (peek r.2 []).1 = [] then .ok r.1 else .error .leftovers

/-- The bytes of the line by their distance from the terminating NUL. -/
abbrev Buffer := Nat → UInt8

def buffer (line : List UInt8) : Buffer := fun r => (line.drop (line.length - r)).head?.getD 0

def nulterminate : Cmd → Buffer → Buffer
  | .exec argv, buf => argv.foldl (fun buf span => Function.update buf span.eq 0) buf
  | .redir cmd file _ _, buf => Function.update (nulterminate cmd buf) file.eq 0
  | .pipe left right, buf => nulterminate right (nulterminate left buf)
  | .list left right, buf => nulterminate right (nulterminate left buf)
  | .back cmd, buf => nulterminate cmd buf

/-- The C string at a pointer; at distance 0 is the NUL that ends the line. -/
def cstring (buf : Buffer) : Nat → List UInt8
  | 0 => []
  | r + 1 => if buf (r + 1) = 0 then [] else buf (r + 1) :: cstring buf r

end EnhancedXv6.Shell
