import EnhancedXv6.Shell.Parser

namespace EnhancedXv6.Shell

open List

structure Token where
  tok : Tok
  span : Span
  deriving DecidableEq, Repr

def isWord (c : UInt8) : Bool := !isSpace c && !isSymbol c

def symbolTok (c : UInt8) : Tok :=
  if c = 124 then .bar
  else if c = 40 then .lparen
  else if c = 41 then .rparen
  else if c = 59 then .semi
  else if c = 38 then .amp
  else if c = 60 then .lt
  else .gt

/-- Words are as long as they can be, and `>>` is one token. -/
def lex : List UInt8 → List Token
  | [] => []
  | c :: rest =>
    if isSpace c then lex rest
    else if isWord c then
      { tok := .word, span := { q := rest.length + 1, eq := (rest.dropWhile isWord).length } }
        :: lex (rest.dropWhile isWord)
    else if c = 62 ∧ rest.head? = some 62 then
      { tok := .append, span := { q := rest.length + 1, eq := rest.tail.length } } :: lex rest.tail
    else { tok := symbolTok c, span := { q := rest.length + 1, eq := rest.length } } :: lex rest
  termination_by s => s.length
  decreasing_by
  · simp
  · exact Nat.lt_succ_of_le (List.dropWhile_suffix _).length_le
  · simp only [List.length_tail, List.length_cons]; omega
  · simp

/-- The mode in which a redirection opens its file, and the descriptor that it replaces: `<` reads,
`>` writes and creates or truncates, and `>>` writes and creates. -/
inductive Redirects : Tok → Nat → Nat → Prop where
  | input : Redirects .lt 0 0
  | output : Redirects .gt 0x601 1
  | append : Redirects .append 0x201 1

/-- `(('<' | '>' | '>>') word)*` after a command. A later redirection is around the earlier ones. -/
inductive Redirs : List Token → Cmd → Cmd → Prop where
  | nil : Redirs [] cmd cmd
  | cons (sign : Redirects o.tok mode fd) (word : f.tok = .word)
      (rest : Redirs ts (.redir cmd f.span mode fd) cmd') :
      Redirs (o :: f :: ts) cmd cmd'

/-- `(word redir*)*`, with the words and with what the redirections make of a command. -/
inductive Args : List Token → List Span → Cmd → Cmd → Prop where
  | nil : Args [] [] cmd cmd
  | cons (word : w.tok = .word) (redirs : Redirs ts cmd cmd') (rest : Args us ws cmd' cmd'') :
      Args (w :: (ts ++ us)) (w.span :: ws) cmd cmd''

/-- `'&'*` after a command. -/
inductive Backs : List Token → Cmd → Cmd → Prop where
  | nil : Backs [] cmd cmd
  | cons (sign : t.tok = .amp) (rest : Backs ts (.back cmd) cmd') : Backs (t :: ts) cmd cmd'

inductive Nonterminal where
  | line
  | pipe
  | exec

inductive Derives : Nonterminal → List Token → Cmd → Prop where
  | last (first : Derives .pipe ts cmd) (backs : Backs us cmd cmd') : Derives .line (ts ++ us) cmd'
  | seq (first : Derives .pipe ts cmd) (backs : Backs us cmd cmd') (sign : t.tok = .semi)
      (rest : Derives .line vs cmd'') : Derives .line (ts ++ (us ++ t :: vs)) (.list cmd' cmd'')
  | single (first : Derives .exec ts cmd) : Derives .pipe ts cmd
  | more (first : Derives .exec ts cmd) (sign : t.tok = .bar) (rest : Derives .pipe vs cmd') :
      Derives .pipe (ts ++ t :: vs) (.pipe cmd cmd')
  | block (opening : l.tok = .lparen) (body : Derives .line ts cmd) (closing : r.tok = .rparen)
      (redirs : Redirs us cmd cmd') : Derives .exec (l :: (ts ++ r :: us)) cmd'
  | simple (redirs : Redirs us (.exec ws) cmd) (args : Args ts ws cmd cmd') (few : ws.length ≤ 9) :
      Derives .exec (us ++ ts) cmd'

/-- The character at which a token starts; `a` stands for that of a word. -/
def Tok.char : Tok → UInt8
  | .eof => 0
  | .bar => 124
  | .lparen => 40
  | .rparen => 41
  | .semi => 59
  | .amp => 38
  | .lt => 60
  | .gt => 62
  | .append => 62
  | .word => 97

theorem lex_skip (s : Cursor) : lex (skip s) = lex s := by
  induction s with
  | nil => rfl
  | cons c rest ih =>
    by_cases space : isSpace c
    · have skipped : skip (c :: rest) = skip rest := by simp [skip, space]
      rw [skipped, ih, lex, if_pos space]
    · have kept : skip (c :: rest) = c :: rest := by simp [skip, space]
      rw [kept]

@[simp]
theorem lex_peek (s : Cursor) (toks : List UInt8) : lex (peek s toks).1 = lex s := lex_skip s

theorem lex_scan (space : isSpace c = false) : lex (c :: rest) =
    { tok := (scan (c :: rest)).1
      span := { q := rest.length + 1, eq := (scan (c :: rest)).2.length } }
      :: lex (scan (c :: rest)).2 := by
  by_cases symbol : isSymbol c
  · have noWord : isWord c = false := by simp [isWord, symbol]
    rw [lex, if_neg (by simp [space]), if_neg (by simp [noWord])]
    simp only [isSymbol, Bool.or_eq_true, beq_iff_eq] at symbol
    rcases symbol with ((((((same | same) | same) | same) | same) | same) | same) <;> subst same <;>
      simp [scan, symbolTok]
    split_ifs <;> simp
  · have word : isWord c = true := by simp [isWord, symbol, space]
    have dropped :
        (c :: rest).dropWhile (fun c => !isSpace c && !isSymbol c) = rest.dropWhile isWord := by
      rw [dropWhile_cons, if_pos (by simp [symbol, space])]; rfl
    have scanned : scan (c :: rest) = (.word, rest.dropWhile isWord) := by
      simp only [isSymbol, Bool.or_eq_true, beq_iff_eq, not_or] at symbol
      simp [scan, symbol, ← dropped]
    rw [scanned, lex, if_neg (by simp [space]), if_pos word]

theorem head_skip (found : skip s = c :: rest) : isSpace c = false := by
  have kept := head?_dropWhile_not isSpace s
  rw [show s.dropWhile isSpace = c :: rest from found] at kept
  exact kept

theorem lex_gettoken (found : skip s = c :: rest) :
    lex s = { tok := (gettoken s).tok, span := (gettoken s).span } :: lex (gettoken s).rest := by
  rw [← lex_skip s, found, lex_scan (head_skip found)]
  simp only [gettoken, Found.span, found, lex_skip, length_cons]

theorem skip_of_lex_nil (found : lex s = []) : skip s = [] := by
  cases skipped : skip s with
  | nil => rfl
  | cons c rest => exact absurd ((lex_gettoken skipped).symm.trans found) (by simp)

theorem skip_of_lex_cons (found : lex s = t :: ts) : ∃ c rest, skip s = c :: rest := by
  cases skipped : skip s with
  | nil => rw [← lex_skip, skipped, lex] at found; exact absurd found (by simp)
  | cons c rest => exact ⟨c, rest, rfl⟩

theorem gettoken_nil (found : lex s = []) :
    (gettoken s).tok = .eof ∧ lex (gettoken s).rest = [] := by
  have last : scan (skip s) = (.eof, []) := by rw [skip_of_lex_nil found]; rfl
  have same : skip [] = [] := rfl
  simp only [gettoken, last, same, lex, and_self]

theorem gettoken_cons (found : lex s = t :: ts) :
    (gettoken s).tok = t.tok ∧ (gettoken s).span = t.span ∧ lex (gettoken s).rest = ts := by
  obtain ⟨c, rest, skipped⟩ := skip_of_lex_cons found
  have same := (lex_gettoken skipped).symm.trans found
  simp only [cons.injEq] at same
  exact ⟨congrArg Token.tok same.1, congrArg Token.span same.1, same.2⟩

theorem scan_of_lex_cons (found : lex s = t :: ts) (skipped : skip s = c :: rest) :
    (scan (c :: rest)).1 = t.tok := by
  have same := (gettoken_cons found).1
  rwa [gettoken, skipped] at same

theorem scan_char (symbol : isSymbol c = true) : (scan (c :: rest)).1.char = c := by
  simp only [isSymbol, Bool.or_eq_true, beq_iff_eq] at symbol
  rcases symbol with ((((((same | same) | same) | same) | same) | same) | same) <;> subst same <;>
    simp [scan, Tok.char]
  split_ifs <;> rfl

theorem scan_word (symbol : isSymbol c = false) : (scan (c :: rest)).1 = .word := by
  simp only [isSymbol, Bool.or_eq_false_iff, beq_eq_false_iff_ne, ne_eq] at symbol
  simp [scan, symbol]

/-- Whether the first token starts with one of the characters. -/
def starts (ts : List Token) (toks : List UInt8) : Bool :=
  ts.head?.any fun t => toks.contains t.tok.char

theorem peek_lex (s : Cursor) (toks : List UInt8) (only : ∀ c ∈ toks, isSymbol c = true) :
    (peek s toks).2 = starts (lex s) toks := by
  cases found : lex s with
  | nil => simp [peek, skip_of_lex_nil found, starts]
  | cons t ts =>
    obtain ⟨c, rest, skipped⟩ := skip_of_lex_cons found
    have peeked : (peek s toks).2 = toks.contains c := by simp [peek, skipped]
    have started : starts (t :: ts) toks = toks.contains t.tok.char := rfl
    rw [peeked, started, ← scan_of_lex_cons found skipped]
    cases symbol : isSymbol c with
    | true => rw [scan_char symbol]
    | false =>
      rw [scan_word symbol]
      have absent : c ∉ toks := fun member => by simp [only c member] at symbol
      have noWord : (97 : UInt8) ∉ toks :=
        fun member => absurd (only 97 member) (by simp [isSymbol])
      simp [Tok.char, absent, noWord]

theorem tok_ne_eof (found : lex s = t :: ts) : t.tok ≠ .eof := by
  obtain ⟨c, rest, skipped⟩ := skip_of_lex_cons found
  rw [← scan_of_lex_cons found skipped]
  cases symbol : isSymbol c with
  | true =>
    intro none
    have zero : (scan (c :: rest)).1.char = c := scan_char symbol
    rw [none] at zero
    subst zero
    exact absurd symbol (by simp [isSymbol, Tok.char])
  | false => rw [scan_word symbol]; decide

theorem length_lex_le (s : Cursor) : (lex s).length ≤ s.length := by
  induction length : s.length using Nat.strong_induction_on generalizing s with
  | _ n ih =>
    cases s with
    | nil => simp [lex]
    | cons c rest =>
      have dropped : (rest.dropWhile isWord).length ≤ rest.length := (dropWhile_suffix _).length_le
      have tail : rest.tail.length ≤ rest.length := by simp
      simp only [length_cons] at length
      rw [lex]
      split_ifs
      · exact (ih _ (by omega) rest rfl).trans (by omega)
      · have := ih _ (by omega) (rest.dropWhile isWord) rfl
        simp only [length_cons]; omega
      · have := ih _ (by omega) rest.tail rfl
        simp only [length_cons]; omega
      · have := ih _ (by omega) rest rfl
        simp only [length_cons]; omega

end EnhancedXv6.Shell
