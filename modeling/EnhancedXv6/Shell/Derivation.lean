import EnhancedXv6.Shell.Grammar

namespace EnhancedXv6.Shell

open List Nonterminal Tok

variable {x : Except Panic α} {tok : Tok}

theorem bind_eq_ok (done : x.bind f = .ok b) : ∃ a, x = .ok a ∧ f a = .ok b := by
  cases x with
  | error e => exact absurd done (by simp [Except.bind])
  | ok a => exact ⟨a, rfl, done⟩

theorem map_eq_ok (done : x.map f = .ok b) : ∃ a, x = .ok a ∧ f a = b := by
  cases x with
  | error e => exact absurd done (by simp [Except.map])
  | ok a => exact ⟨a, rfl, Except.ok.inj done⟩

theorem bind_eq_error (failed : x.bind f = .error e) :
    x = .error e ∨ ∃ a, x = .ok a ∧ f a = .error e := by
  cases x with
  | error e' => exact .inl (congrArg Except.error (Except.error.inj failed))
  | ok a => exact .inr ⟨a, rfl, failed⟩

theorem map_eq_error (failed : x.map f = .error e) : x = .error e := by
  cases x with
  | error e' => exact congrArg Except.error (Except.error.inj failed)
  | ok a => exact absurd failed (by simp [Except.map])

/-- A successful `peek` is at a token with that character. -/
theorem starts_cons (there : starts ts toks = true) : ∃ t us, ts = t :: us ∧ t.tok.char ∈ toks := by
  cases ts with
  | nil => exact absurd there (by simp [starts])
  | cons t us => exact ⟨t, us, rfl, contains_iff_mem.mp there⟩

theorem semi_of_char (sign : tok.char ∈ [59]) : tok = .semi := by
  cases tok <;> simp_all [char]

theorem bar_of_char (sign : tok.char ∈ [124]) : tok = .bar := by
  cases tok <;> simp_all [char]

theorem lparen_of_char (sign : tok.char ∈ [40]) : tok = .lparen := by
  cases tok <;> simp_all [char]

theorem rparen_of_char (sign : tok.char ∈ [41]) : tok = .rparen := by
  cases tok <;> simp_all [char]

theorem amp_of_char (sign : tok.char ∈ [38]) : tok = .amp := by
  cases tok <;> simp_all [char]

theorem redirect_of_char (sign : tok.char ∈ redirSymbols) (cmd : Cmd) (file : Span) :
    ∃ mode fd, Redirects tok mode fd ∧ redirect cmd tok file = .redir cmd file mode fd := by
  cases tok with
  | lt => exact ⟨_, _, .input, rfl⟩
  | gt => exact ⟨_, _, .output, rfl⟩
  | append => exact ⟨_, _, .append, rfl⟩
  | _ => simp [char, redirSymbols] at sign

theorem Redirects.char {mode fd : Nat} (sign : Redirects tok mode fd) :
    tok.char ∈ redirSymbols := by
  cases sign <;> simp [Tok.char, redirSymbols]

theorem Redirects.redirect {mode fd : Nat} (sign : Redirects tok mode fd) (cmd : Cmd)
    (file : Span) : redirect cmd tok file = .redir cmd file mode fd := by
  cases sign <;> rfl

theorem gettoken_peek (toks : List UInt8) (found : lex s = t :: ts) :
    (gettoken (peek s toks).1).tok = t.tok ∧ (gettoken (peek s toks).1).span = t.span ∧
      lex (gettoken (peek s toks).1).rest = ts :=
  gettoken_cons ((lex_peek s toks).trans found)

theorem parseredirs_sound (done : parseredirs cmd s = .ok r) :
    ∃ ts, lex s = ts ++ lex r.2 ∧ Redirs ts cmd r.1 := by
  induction size : (lex s).length using Nat.strong_induction_on generalizing cmd s with
  | _ n ih =>
    rw [parseredirs] at done
    by_cases there : (peek s redirSymbols).2 = true
    · obtain ⟨o, ts, found, sign⟩ :=
        starts_cons ((peek_lex s redirSymbols (by simp [redirSymbols, isSymbol])).symm.trans there)
      obtain ⟨tok, _, left⟩ := gettoken_peek redirSymbols found
      by_cases word : (gettoken (gettoken (peek s redirSymbols).1).rest).tok = .word
      · simp only [dif_pos there, if_neg (not_not_intro word), tok] at done
        cases ts with
        | nil => exact absurd ((gettoken_nil left).1.symm.trans word) (by decide)
        | cons f us =>
          obtain ⟨file, span, next⟩ := gettoken_cons left
          obtain ⟨vs, split, redirs⟩ := ih _ (by rw [← size, found, next]; simp) done rfl
          obtain ⟨mode, fd, sign, node⟩ := redirect_of_char sign cmd f.span
          rw [span, node] at redirs
          exact ⟨o :: f :: vs, by rw [found, ← next, split]; rfl,
            .cons sign (file.symm.trans word) redirs⟩
      · simp [dif_pos there, if_pos word] at done
    · rw [dif_neg there] at done
      cases done
      exact ⟨[], (lex_peek s redirSymbols).symm, .nil⟩

theorem parseredirs_complete (redirs : Redirs ts cmd cmd') (found : lex s = ts ++ us)
    (stop : starts us redirSymbols = false) :
    ∃ s', parseredirs cmd s = .ok (cmd', s') ∧ lex s' = us := by
  induction redirs generalizing s with
  | nil =>
    have stopped : (peek s redirSymbols).2 = false := by
      rw [peek_lex s redirSymbols (by simp [redirSymbols, isSymbol]), found]
      exact stop
    refine ⟨(peek s redirSymbols).1, ?_, (lex_peek _ _).trans found⟩
    rw [parseredirs, dif_neg (by simp [stopped])]
  | cons sign word rest ih =>
    have there : (peek s redirSymbols).2 = true := by
      rw [peek_lex s redirSymbols (by simp [redirSymbols, isSymbol]), found]
      exact contains_iff_mem.mpr sign.char
    obtain ⟨tok, _, left⟩ := gettoken_peek redirSymbols found
    obtain ⟨file, span, next⟩ := gettoken_cons left
    obtain ⟨s', done, left⟩ := ih next
    refine ⟨s', ?_, left⟩
    rw [parseredirs, dif_pos there]
    simp only [if_neg (not_not_intro (file.trans word)), tok, span, sign.redirect, done]

theorem parseredirs_fuel (cmd : Cmd) (s : Cursor) : parseredirs cmd s ≠ .error .fuel := by
  induction size : s.length using Nat.strong_induction_on generalizing cmd s with
  | _ n ih =>
    rw [parseredirs]
    split
    next there =>
      dsimp only
      split
      · simp
      · exact ih _ (size ▸ redirs_shorter there) _ _ rfl
    next => simp

theorem foldl_addArg_redir (ws : List Span) (cmd : Cmd) (file : Span) (mode fd : Nat) :
    ws.foldl Cmd.addArg (.redir cmd file mode fd) =
      .redir (ws.foldl Cmd.addArg cmd) file mode fd := by
  induction ws generalizing cmd with
  | nil => rfl
  | cons w ws ih => exact ih (cmd.addArg w)

theorem foldl_addArg_exec (ws vs : List Span) :
    ws.foldl Cmd.addArg (.exec vs) = .exec (vs ++ ws) := by
  induction ws generalizing vs with
  | nil => rw [append_nil, foldl_nil]
  | cons w ws ih =>
    rw [foldl_cons, Cmd.addArg, ih, append_assoc]
    rfl

/-- A word that comes after redirections is an argument of the command inside them. -/
theorem Redirs.addArgs (ws : List Span) (redirs : Redirs ts cmd cmd') :
    Redirs ts (ws.foldl Cmd.addArg cmd) (ws.foldl Cmd.addArg cmd') := by
  induction redirs with
  | nil => exact .nil
  | cons sign word _ ih =>
    rw [foldl_addArg_redir] at ih
    exact .cons sign word ih

theorem Redirs.of_addArgs (ws : List Span) (redirs : Redirs ts (ws.foldl Cmd.addArg cmd) ret) :
    ∃ cmd', Redirs ts cmd cmd' ∧ ret = ws.foldl Cmd.addArg cmd' := by
  generalize start : ws.foldl Cmd.addArg cmd = full at redirs
  induction redirs generalizing cmd with
  | nil => exact ⟨cmd, .nil, start.symm⟩
  | cons sign word _ ih =>
    obtain ⟨cmd', rest, same⟩ := ih (by rw [foldl_addArg_redir, start])
    exact ⟨cmd', .cons sign word rest, same⟩

def Nonterminal.follow : Nonterminal → List UInt8
  | .line => [41]
  | .pipe => [41, 38, 59]
  | .exec => [124, 41, 38, 59]

def Nonterminal.Ends (nt : Nonterminal) (us : List Token) : Prop :=
  us = [] ∨ starts us nt.follow = true

theorem Nonterminal.Ends.starts {nt : Nonterminal} (ends : nt.Ends us)
    (apart : ∀ c ∈ nt.follow, c ∉ toks) : starts us toks = false := by
  rcases ends with empty | there
  · rw [empty]
    rfl
  · obtain ⟨t, us, rfl, member⟩ := starts_cons there
    have absent := apart _ member
    simpa [Shell.starts] using absent

theorem Nonterminal.Ends.mono {nt nt' : Nonterminal} (ends : nt.Ends us)
    (more : ∀ c ∈ nt.follow, c ∈ nt'.follow) : nt'.Ends us := by
  rcases ends with empty | there
  · exact .inl empty
  · obtain ⟨t, us, rfl, member⟩ := starts_cons there
    exact .inr (contains_iff_mem.mpr (more _ member))

theorem Nonterminal.ends_cons {nt : Nonterminal} (member : t.tok.char ∈ nt.follow) :
    nt.Ends (t :: ts) :=
  .inr (contains_iff_mem.mpr member)

theorem Args.starts (args : Args ts ws cmd cmd') (ends : exec.Ends us) (word : 97 ∉ toks)
    (apart : ∀ c ∈ exec.follow, c ∉ toks) : starts (ts ++ us) toks = false := by
  cases args with
  | nil => exact ends.starts apart
  | cons isWord _ _ => simp [Shell.starts, isWord, char, word]

theorem parseargs_sound (done : parseargs argc ret s = .ok r) (few : argc ≤ 9) : ∃ ts ws,
    lex s = ts ++ lex r.2 ∧ Args ts ws (ws.foldl Cmd.addArg ret) r.1 ∧ argc + ws.length ≤ 9 := by
  induction room : maxargs - argc using Nat.strong_induction_on generalizing argc ret s with
  | _ n ih =>
    rw [parseargs] at done
    simp only at done
    by_cases stop : (peek s [124, 41, 38, 59]).2 = true
    · rw [if_pos stop] at done
      cases done
      exact ⟨[], [], (lex_peek s [124, 41, 38, 59]).symm, .nil, few⟩
    · rw [if_neg stop] at done
      cases found : lex s with
      | nil =>
        have last := gettoken_nil ((lex_peek s [124, 41, 38, 59]).trans found)
        rw [if_pos last.1] at done
        cases done
        exact ⟨[], [], last.2.symm, .nil, few⟩
      | cons w ts =>
        obtain ⟨tok, span, next⟩ := gettoken_peek [124, 41, 38, 59] found
        rw [tok, if_neg (tok_ne_eof found)] at done
        by_cases word : w.tok = .word
        · rw [if_neg (not_not_intro word)] at done
          by_cases full : maxargs ≤ argc + 1
          · rw [if_pos full] at done
            cases done
          · rw [if_neg full, span] at done
            obtain ⟨inner, first, done⟩ := bind_eq_ok done
            obtain ⟨us, split, redirs⟩ := parseredirs_sound first
            unfold maxargs at full room
            obtain ⟨vs, ws, remains, args, bound⟩ :=
              ih (maxargs - (argc + 1)) (by unfold maxargs; omega) done (by omega) rfl
            refine ⟨w :: (us ++ vs), w.span :: ws, ?_, .cons word (redirs.addArgs ws) args, ?_⟩
            · rw [← next, split, remains, ← append_assoc]
              rfl
            · rw [length_cons]
              omega
        · rw [if_pos word] at done
          cases done

theorem parseargs_complete (args : Args ts ws (ws.foldl Cmd.addArg ret) cmd)
    (few : argc + ws.length ≤ 9) (found : lex s = ts ++ us)
    (ends : exec.Ends us) : ∃ s', parseargs argc ret s = .ok (cmd, s') ∧ lex s' = us := by
  generalize start : ws.foldl Cmd.addArg ret = full at args
  induction args generalizing argc ret s with
  | nil =>
    obtain rfl : ret = _ := start
    rw [nil_append] at found
    rw [parseargs]
    rcases ends with empty | there
    · have stop : (peek s [124, 41, 38, 59]).2 = false := by
        rw [peek_lex s [124, 41, 38, 59] (by simp [isSymbol]), found, empty]
        rfl
      have last := gettoken_nil ((lex_peek s [124, 41, 38, 59]).trans (found.trans empty))
      exact ⟨_, by simp only [stop, last.1, if_true]; rfl, last.2.trans empty.symm⟩
    · have stop : (peek s [124, 41, 38, 59]).2 = true := by
        rw [peek_lex s [124, 41, 38, 59] (by simp [isSymbol]), found]
        exact there
      exact ⟨_, by simp only [stop, if_true], (lex_peek s [124, 41, 38, 59]).trans found⟩
  | @cons ts full inside vs ws cmd w word redirs rest ih =>
    have stop : (peek s [124, 41, 38, 59]).2 = false := by
      rw [peek_lex s [124, 41, 38, 59] (by simp [isSymbol]), found]
      simp [starts, word, char]
    rw [cons_append, append_assoc] at found
    rw [length_cons] at few
    rw [foldl_cons] at start
    subst start
    obtain ⟨ret', redirs', same⟩ := redirs.of_addArgs ws
    obtain ⟨tok, span, next⟩ := gettoken_peek [124, 41, 38, 59] found
    obtain ⟨s1, done, left⟩ :=
      parseredirs_complete redirs' next (rest.starts ends (by simp [redirSymbols])
      (by simp [redirSymbols, follow]))
    have fewer : argc + 1 + ws.length ≤ 9 := by omega
    obtain ⟨s2, finished, left⟩ := ih fewer left same.symm
    refine ⟨s2, ?_, left⟩
    rw [parseargs]
    simp only [stop, tok, word, span, done]
    rw [if_neg (by simp), if_neg (by simp), if_neg (by simp), if_neg (by unfold maxargs; omega)]
    exact finished

theorem parseargs_fuel (argc : Nat) (ret : Cmd) (s : Cursor) :
    parseargs argc ret s ≠ .error .fuel := by
  induction room : maxargs - argc using Nat.strong_induction_on generalizing argc ret s with
  | _ n ih =>
    rw [parseargs]
    simp only
    split_ifs with stop last word full
    · simp
    · simp
    · simp
    · simp
    · intro failed
      rcases bind_eq_error failed with failed | ⟨inner, _, failed⟩
      · exact parseredirs_fuel _ _ failed
      · exact ih (maxargs - (argc + 1)) (by unfold maxargs at *; omega) _ _ _ rfl failed

theorem parsebacks_sound (cmd : Cmd) (s : Cursor) :
    ∃ ts, lex s = ts ++ lex (parsebacks cmd s).2 ∧ Backs ts cmd (parsebacks cmd s).1 := by
  induction size : (lex s).length using Nat.strong_induction_on generalizing s cmd with
  | _ n ih =>
    rw [parsebacks]
    by_cases there : (peek s [38]).2 = true
    · rw [dif_pos there]
      obtain ⟨t, ts, found, sign⟩ :=
        starts_cons ((peek_lex s [38] (by simp [isSymbol])).symm.trans there)
      obtain ⟨_, _, next⟩ := gettoken_peek [38] found
      obtain ⟨us, split, backs⟩ := ih _ (by rw [← size, found, next]; simp) (.back cmd)
        (gettoken (peek s [38]).1).rest rfl
      refine ⟨t :: us, ?_, .cons (amp_of_char sign) backs⟩
      rw [found, ← next, split]
      rfl
    · rw [dif_neg there]
      exact ⟨[], (lex_peek s [38]).symm, .nil⟩

theorem parsebacks_complete (backs : Backs ts cmd cmd') (found : lex s = ts ++ us)
    (stop : starts us [38] = false) : ∃ s', parsebacks cmd s = (cmd', s') ∧ lex s' = us := by
  induction backs generalizing s with
  | nil =>
    have stopped : (peek s [38]).2 = false := by
      rw [peek_lex s [38] (by simp [isSymbol]), found]
      exact stop
    exact ⟨(peek s [38]).1, by rw [parsebacks, dif_neg (by simp [stopped])],
      (lex_peek _ _).trans found⟩
  | cons sign rest ih =>
    have there : (peek s [38]).2 = true := by
      rw [peek_lex s [38] (by simp [isSymbol]), found]
      simp [starts, sign, char]
    obtain ⟨_, _, next⟩ := gettoken_peek [38] found
    obtain ⟨s', done, left⟩ := ih next
    exact ⟨s', by rw [parsebacks, dif_pos there, done], left⟩

theorem Backs.ends (backs : Backs ts cmd cmd') (ends : pipe.Ends us) :
    pipe.Ends (ts ++ us) := by
  cases backs with
  | nil => exact ends
  | cons sign _ => exact ends_cons (by simp [sign, char, follow])

/-- What the function of a nonterminal returns is derived. -/
def SoundFor (nt : Nonterminal) (parse : Cursor → Except Panic (Cmd × Cursor)) : Prop :=
  ∀ s r, parse s = .ok r → ∃ ts, lex s = ts ++ lex r.2 ∧ Derives nt ts r.1

theorem parseline_sound (pipe : SoundFor .pipe (parsepipe fuel))
    (line : SoundFor .line (parseline fuel)) : SoundFor .line (parseline (fuel + 1)) := by
  intro s r done
  rw [parseline] at done
  obtain ⟨first, parsed, done⟩ := bind_eq_ok done
  obtain ⟨ts, split, derives⟩ := pipe s first parsed
  obtain ⟨us, split', backs⟩ := parsebacks_sound first.1 first.2
  simp only at done
  by_cases there : (peek (parsebacks first.1 first.2).2 [59]).2 = true
  · rw [if_pos there] at done
    obtain ⟨rest, more, same⟩ := map_eq_ok done
    obtain ⟨t, vs, found, sign⟩ :=
      starts_cons ((peek_lex _ [59] (by simp [isSymbol])).symm.trans there)
    obtain ⟨_, _, next⟩ := gettoken_peek [59] found
    obtain ⟨ws, split'', later⟩ := line _ rest more
    subst same
    refine ⟨ts ++ (us ++ t :: ws), ?_, .seq derives backs (semi_of_char sign) later⟩
    rw [split, split', found, ← next, split'']
    simp
  · rw [if_neg there] at done
    cases done
    refine ⟨ts ++ us, ?_, .last derives backs⟩
    rw [split, split', append_assoc, lex_peek]

theorem parsepipe_sound (exec : SoundFor .exec (parseexec fuel))
    (pipe : SoundFor .pipe (parsepipe fuel)) : SoundFor .pipe (parsepipe (fuel + 1)) := by
  intro s r done
  rw [parsepipe] at done
  obtain ⟨first, parsed, done⟩ := bind_eq_ok done
  obtain ⟨ts, split, derives⟩ := exec s first parsed
  simp only at done
  by_cases there : (peek first.2 [124]).2 = true
  · rw [if_pos there] at done
    obtain ⟨rest, more, same⟩ := map_eq_ok done
    obtain ⟨t, vs, found, sign⟩ :=
      starts_cons ((peek_lex _ [124] (by simp [isSymbol])).symm.trans there)
    obtain ⟨_, _, next⟩ := gettoken_peek [124] found
    obtain ⟨ws, split', later⟩ := pipe _ rest more
    subst same
    refine ⟨ts ++ t :: ws, ?_, .more derives (bar_of_char sign) later⟩
    rw [split, found, ← next, split']
    simp
  · rw [if_neg there] at done
    cases done
    exact ⟨ts, by rw [split, lex_peek], .single derives⟩

theorem parseexec_sound (block : SoundFor .exec (parseblock fuel)) :
    SoundFor .exec (parseexec (fuel + 1)) := by
  intro s r done
  rw [parseexec] at done
  by_cases there : (peek s [40]).2 = true
  · rw [if_pos there] at done
    rw [← lex_peek s [40]]
    exact block _ r done
  · rw [if_neg there] at done
    obtain ⟨first, parsed, done⟩ := bind_eq_ok done
    obtain ⟨us, split, redirs⟩ := parseredirs_sound parsed
    obtain ⟨ts, ws, split', args, few⟩ := parseargs_sound done (Nat.zero_le 9)
    have around := redirs.addArgs ws
    rw [foldl_addArg_exec, nil_append] at around
    rw [lex_peek] at split
    refine ⟨us ++ ts, ?_, .simple around args (by omega)⟩
    rw [split, split', append_assoc]

theorem parseblock_sound (line : SoundFor .line (parseline fuel)) :
    SoundFor .exec (parseblock (fuel + 1)) := by
  intro s r done
  rw [parseblock] at done
  simp only at done
  by_cases there : (peek s [40]).2 = true
  · rw [if_pos there] at done
    obtain ⟨body, parsed, done⟩ := bind_eq_ok done
    obtain ⟨l, ts, found, sign⟩ :=
      starts_cons ((peek_lex _ [40] (by simp [isSymbol])).symm.trans there)
    obtain ⟨_, _, next⟩ := gettoken_peek [40] found
    obtain ⟨us, split, derives⟩ := line _ body parsed
    by_cases closed : (peek body.2 [41]).2 = true
    · rw [if_pos closed] at done
      obtain ⟨r', vs, found', sign'⟩ :=
        starts_cons ((peek_lex _ [41] (by simp [isSymbol])).symm.trans closed)
      obtain ⟨_, _, next'⟩ := gettoken_peek [41] found'
      obtain ⟨ws, split', redirs⟩ := parseredirs_sound done
      refine ⟨l :: (us ++ r' :: ws), ?_,
        .block (lparen_of_char sign) derives (rparen_of_char sign') redirs⟩
      rw [found, ← next, split, found', ← next', split']
      simp
    · rw [if_neg closed] at done
      cases done
  · rw [if_neg there] at done
    cases done

theorem parse_sound (fuel : Nat) :
    SoundFor .line (parseline fuel) ∧ SoundFor .pipe (parsepipe fuel) ∧
    SoundFor .exec (parseexec fuel) ∧ SoundFor .exec (parseblock fuel) := by
  induction fuel with
  | zero =>
    refine ⟨?_, ?_, ?_, ?_⟩ <;> intro s r done
    · rw [parseline] at done
      cases done
    · rw [parsepipe] at done
      cases done
    · rw [parseexec] at done
      cases done
    · rw [parseblock] at done
      cases done
  | succ fuel ih =>
    obtain ⟨line, pipe, exec, block⟩ := ih
    exact ⟨parseline_sound pipe line, parsepipe_sound exec pipe, parseexec_sound block,
      parseblock_sound line⟩

def parse : Nonterminal → Nat → Cursor → Except Panic (Cmd × Cursor)
  | .line => parseline
  | .pipe => parsepipe
  | .exec => parseexec

def Nonterminal.need : Nonterminal → Nat → Nat
  | .line, n => 4 * n + 4
  | .pipe, n => 4 * n + 3
  | .exec, n => 4 * n + 2

/-- The function of a nonterminal finds the tree and stops behind the tokens. -/
def Finds (nt : Nonterminal) (ts : List Token) (cmd : Cmd) : Prop :=
  ∀ fuel s us, nt.need ts.length ≤ fuel → lex s = ts ++ us → nt.Ends us →
    ∃ s', parse nt fuel s = .ok (cmd, s') ∧ lex s' = us

theorem Finds.last (first : Finds .pipe ts cmd) (backs : Backs vs cmd cmd') :
    Finds .line (ts ++ vs) cmd' := by
  intro fuel s us enough found ends
  rw [append_assoc] at found
  rw [need, length_append] at enough
  obtain ⟨fuel, rfl⟩ := Nat.exists_eq_add_of_le' (Nat.one_le_of_lt enough)
  obtain ⟨s1, parsed, left⟩ := first fuel s (vs ++ us) (by rw [need]; omega) found
    (backs.ends (ends.mono (by simp [follow])))
  obtain ⟨s2, closed, left⟩ := parsebacks_complete backs left (ends.starts (by simp [follow]))
  have stop : (peek s2 [59]).2 = false := by
    rw [peek_lex s2 [59] (by simp [isSymbol]), left]
    exact ends.starts (by simp [follow])
  refine ⟨(peek s2 [59]).1, ?_, (lex_peek _ _).trans left⟩
  rw [parse, parseline, show parsepipe fuel s = _ from parsed]
  simp [Except.bind, closed, stop]

theorem Finds.seq (first : Finds .pipe ts cmd) (backs : Backs vs cmd cmd') (sign : t.tok = .semi)
    (rest : Finds .line ws cmd'') : Finds .line (ts ++ (vs ++ t :: ws)) (.list cmd' cmd'') := by
  intro fuel s us enough found ends
  rw [append_assoc, append_assoc, cons_append] at found
  rw [need, length_append, length_append, length_cons] at enough
  obtain ⟨fuel, rfl⟩ := Nat.exists_eq_add_of_le' (Nat.one_le_of_lt enough)
  obtain ⟨s1, parsed, left⟩ := first fuel s (vs ++ t :: (ws ++ us)) (by rw [need]; omega) found
    (backs.ends (ends_cons (by simp [sign, char, follow])))
  obtain ⟨s2, closed, left⟩ := parsebacks_complete backs left (by simp [starts, sign, char])
  have there : (peek s2 [59]).2 = true := by
    rw [peek_lex s2 [59] (by simp [isSymbol]), left]
    simp [starts, sign, char]
  obtain ⟨_, _, next⟩ := gettoken_peek [59] left
  obtain ⟨s3, later, left⟩ := rest fuel _ us (by rw [need]; omega) next ends
  refine ⟨s3, ?_, left⟩
  rw [parse, parseline, show parsepipe fuel s = _ from parsed]
  simp only [Except.bind, closed, there, if_true]
  rw [show parseline fuel _ = _ from later]
  rfl

theorem Finds.single (first : Finds .exec ts cmd) : Finds .pipe ts cmd := by
  intro fuel s us enough found ends
  rw [need] at enough
  obtain ⟨fuel, rfl⟩ := Nat.exists_eq_add_of_le' (Nat.one_le_of_lt enough)
  obtain ⟨s1, parsed, left⟩ := first fuel s us (by rw [need]; omega) found
    (ends.mono (by simp [follow]))
  have stop : (peek s1 [124]).2 = false := by
    rw [peek_lex s1 [124] (by simp [isSymbol]), left]
    exact ends.starts (by simp [follow])
  refine ⟨(peek s1 [124]).1, ?_, (lex_peek _ _).trans left⟩
  rw [parse, parsepipe, show parseexec fuel s = _ from parsed]
  simp [Except.bind, stop]

theorem Finds.more (first : Finds .exec ts cmd) (sign : t.tok = .bar) (rest : Finds .pipe ws cmd') :
    Finds .pipe (ts ++ t :: ws) (.pipe cmd cmd') := by
  intro fuel s us enough found ends
  rw [append_assoc, cons_append] at found
  rw [need, length_append, length_cons] at enough
  obtain ⟨fuel, rfl⟩ := Nat.exists_eq_add_of_le' (Nat.one_le_of_lt enough)
  obtain ⟨s1, parsed, left⟩ := first fuel s (t :: (ws ++ us)) (by rw [need]; omega) found
    (ends_cons (by simp [sign, char, follow]))
  have there : (peek s1 [124]).2 = true := by
    rw [peek_lex s1 [124] (by simp [isSymbol]), left]
    simp [starts, sign, char]
  obtain ⟨_, _, next⟩ := gettoken_peek [124] left
  obtain ⟨s2, later, left⟩ := rest fuel _ us (by rw [need]; omega) next ends
  refine ⟨s2, ?_, left⟩
  rw [parse, parsepipe, show parseexec fuel s = _ from parsed]
  simp only [Except.bind, there, if_true]
  rw [show parsepipe fuel _ = _ from later]
  rfl

theorem Finds.block (opening : l.tok = .lparen) (body : Finds .line ts cmd)
    (closing : r.tok = .rparen)
    (redirs : Redirs vs cmd cmd') : Finds .exec (l :: (ts ++ r :: vs)) cmd' := by
  intro fuel s us enough found ends
  rw [cons_append, append_assoc, cons_append] at found
  rw [need, length_cons, length_append, length_cons] at enough
  obtain ⟨fuel, rfl⟩ := Nat.exists_eq_add_of_le' (show 2 ≤ fuel by omega)
  have there : (peek s [40]).2 = true := by
    rw [peek_lex s [40] (by simp [isSymbol]), found]
    simp [starts, opening, char]
  have again : peek (peek s [40]).1 [40] = peek s [40] := by simp [peek]
  obtain ⟨_, _, next⟩ := gettoken_peek [40] found
  obtain ⟨s1, parsed, left⟩ := body fuel _ (r :: (vs ++ us)) (by rw [need]; omega) next
    (ends_cons (by simp [closing, char, follow]))
  have closed : (peek s1 [41]).2 = true := by
    rw [peek_lex s1 [41] (by simp [isSymbol]), left]
    simp [starts, closing, char]
  obtain ⟨_, _, next⟩ := gettoken_peek [41] left
  obtain ⟨s2, done, left⟩ := parseredirs_complete redirs next
    (ends.starts (by simp [redirSymbols, follow]))
  refine ⟨s2, ?_, left⟩
  rw [parse, parseexec]
  simp only [there, if_true]
  rw [parseblock, again]
  simp only [there, if_true]
  rw [show parseline fuel _ = _ from parsed]
  simp only [Except.bind, closed, if_true, done]

theorem Finds.simple (redirs : Redirs vs (.exec ws) cmd) (args : Args ts ws cmd cmd')
    (few : ws.length ≤ 9) : Finds .exec (vs ++ ts) cmd' := by
  intro fuel s us enough found ends
  rw [append_assoc] at found
  rw [need] at enough
  obtain ⟨fuel, rfl⟩ := Nat.exists_eq_add_of_le' (show 1 ≤ fuel by omega)
  have noBlock : (peek s [40]).2 = false := by
    rw [peek_lex s [40] (by simp [isSymbol]), found]
    cases redirs with
    | nil => exact args.starts ends (by simp) (by simp [follow])
    | cons sign =>
      have other (same : Tok.char _ = 40) : False := absurd (same ▸ sign.char) (by decide)
      simpa [starts] using other
  rw [← nil_append ws, ← foldl_addArg_exec ws []] at redirs
  obtain ⟨ret, plain, rfl⟩ := redirs.of_addArgs ws
  obtain ⟨s1, done, left⟩ := parseredirs_complete plain ((lex_peek s [40]).trans found)
    (args.starts ends (by simp [redirSymbols]) (by simp [redirSymbols, follow]))
  have fewer : 0 + ws.length ≤ 9 := by omega
  obtain ⟨s2, finished, left⟩ := parseargs_complete args fewer left ends
  refine ⟨s2, ?_, left⟩
  rw [parse, parseexec]
  simp [noBlock, done, Except.bind, finished]

theorem Derives.finds (derives : Derives nt ts cmd) : Finds nt ts cmd := by
  induction derives with
  | last _ backs ih => exact ih.last backs
  | seq _ backs sign _ ih ih' => exact ih.seq backs sign ih'
  | single _ ih => exact ih.single
  | more _ sign _ ih ih' => exact ih.more sign ih'
  | block opening _ closing redirs ih => exact ih.block opening closing redirs
  | simple redirs args few => exact Finds.simple redirs args few

theorem lex_le_of_split {ts us vs : List Token} (split : ts = us ++ vs) :
    vs.length ≤ ts.length := by
  rw [split, length_append]
  exact Nat.le_add_left _ _

theorem parse_fuel (fuel : Nat) :
    (∀ s, 4 * (lex s).length + 4 ≤ fuel → parseline fuel s ≠ .error .fuel) ∧
    (∀ s, 4 * (lex s).length + 3 ≤ fuel → parsepipe fuel s ≠ .error .fuel) ∧
    (∀ s, 4 * (lex s).length + 2 ≤ fuel → parseexec fuel s ≠ .error .fuel) ∧
    ∀ s, 4 * (lex s).length + 1 ≤ fuel → parseblock fuel s ≠ .error .fuel := by
  induction fuel with
  | zero => exact ⟨fun _ none => absurd none (by omega), fun _ none => absurd none (by omega),
      fun _ none => absurd none (by omega), fun _ none => absurd none (by omega)⟩
  | succ fuel ih =>
    obtain ⟨line, pipe, exec, block⟩ := ih
    obtain ⟨lineSound, pipeSound, execSound, _⟩ := parse_sound fuel
    refine ⟨fun s enough => ?_, fun s enough => ?_, fun s enough => ?_, fun s enough => ?_⟩
    · rw [parseline]
      intro failed
      rcases bind_eq_error failed with failed | ⟨r, parsed, failed⟩
      · exact pipe s (by omega) failed
      · obtain ⟨ts, split, _⟩ := pipeSound s r parsed
        obtain ⟨us, split', _⟩ := parsebacks_sound r.1 r.2
        have shorter := (lex_le_of_split split').trans (lex_le_of_split split)
        simp only at failed
        split at failed
        next there =>
          obtain ⟨t, vs, found, _⟩ :=
            starts_cons ((peek_lex _ [59] (by simp [isSymbol])).symm.trans there)
          obtain ⟨_, _, next⟩ := gettoken_peek [59] found
          rw [found, length_cons] at shorter
          exact line _ (by rw [next]; omega) (map_eq_error failed)
        next => cases failed
    · rw [parsepipe]
      intro failed
      rcases bind_eq_error failed with failed | ⟨r, parsed, failed⟩
      · exact exec s (by omega) failed
      · obtain ⟨ts, split, _⟩ := execSound s r parsed
        have shorter := lex_le_of_split split
        simp only at failed
        split at failed
        next there =>
          obtain ⟨t, vs, found, _⟩ :=
            starts_cons ((peek_lex _ [124] (by simp [isSymbol])).symm.trans there)
          obtain ⟨_, _, next⟩ := gettoken_peek [124] found
          rw [found, length_cons] at shorter
          exact pipe _ (by rw [next]; omega) (map_eq_error failed)
        next => cases failed
    · rw [parseexec]
      intro failed
      split at failed
      next => exact block _ (by rw [lex_peek]; omega) failed
      next =>
        rcases bind_eq_error failed with failed | ⟨r, _, failed⟩
        · exact parseredirs_fuel _ _ failed
        · exact parseargs_fuel _ _ _ failed
    · rw [parseblock]
      intro failed
      simp only at failed
      split at failed
      next there =>
        obtain ⟨t, vs, found, _⟩ :=
          starts_cons ((peek_lex _ [40] (by simp [isSymbol])).symm.trans there)
        obtain ⟨_, _, next⟩ := gettoken_peek [40] found
        rw [found, length_cons] at enough
        rcases bind_eq_error failed with failed | ⟨r, _, failed⟩
        · exact line _ (by rw [next]; omega) failed
        · split at failed
          · exact parseredirs_fuel _ _ failed
          · cases failed
      next => cases failed

end EnhancedXv6.Shell
