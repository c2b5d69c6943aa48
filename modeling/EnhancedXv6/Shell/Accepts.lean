import EnhancedXv6.Shell.Derivation

namespace EnhancedXv6.Shell

open Function
open List hiding span

def Cmd.spans : Cmd → List Span
  | .exec argv => argv
  | .redir cmd file _ _ => cmd.spans ++ [file]
  | .pipe left right => left.spans ++ right.spans
  | .list left right => left.spans ++ right.spans
  | .back cmd => cmd.spans

def text (line : List UInt8) (span : Span) : List UInt8 :=
  (line.drop (line.length - span.q)).take (span.q - span.eq)

def Named (ts : List Token) (span : Span) : Prop := ∃ t ∈ ts, t.tok = .word ∧ t.span = span

theorem Named.mono (named : Named ts span)
    (sub : ts ⊆ us := by exact fun _ inside => by simp [inside]) : Named us span := by
  obtain ⟨t, member, word, same⟩ := named
  exact ⟨t, sub member, word, same⟩

theorem Redirs.named (redirs : Redirs ts cmd cmd') :
    ∀ span ∈ cmd'.spans, span ∈ cmd.spans ∨ Named ts span := by
  induction redirs with
  | nil => exact fun _ => .inl
  | cons _ word _ ih =>
    intro span member
    rcases ih span member with inside | named
    · rcases mem_append.mp inside with inner | file
      · exact .inl inner
      · exact .inr ⟨_, mem_cons_of_mem _ mem_cons_self, word, (mem_singleton.mp file).symm⟩
    · exact .inr named.mono

theorem Args.words (args : Args ts ws cmd cmd') : ∀ span ∈ ws, Named ts span := by
  induction args with
  | nil => simp
  | cons word _ _ ih =>
    intro span member
    rcases mem_cons.mp member with rfl | member
    · exact ⟨_, mem_cons_self, word, rfl⟩
    · exact (ih span member).mono

theorem Args.named (args : Args ts ws cmd cmd') :
    ∀ span ∈ cmd'.spans, span ∈ cmd.spans ∨ Named ts span := by
  induction args with
  | nil => exact fun _ => .inl
  | cons _ redirs _ ih =>
    intro span member
    rcases ih span member with inside | named
    · exact (redirs.named span inside).imp_right fun named => named.mono
    · exact .inr named.mono

theorem Backs.spans (backs : Backs ts cmd cmd') : cmd'.spans = cmd.spans := by
  induction backs with
  | nil => rfl
  | cons _ _ ih => exact ih

theorem Derives.named (derives : Derives nt ts cmd) : ∀ span ∈ cmd.spans, Named ts span := by
  induction derives with
  | last _ backs ih =>
    intro span member
    rw [backs.spans] at member
    exact (ih span member).mono
  | seq _ backs _ _ ih ih' =>
    intro span member
    rw [Cmd.spans, backs.spans, mem_append] at member
    rcases member with member | member
    · exact (ih span member).mono
    · exact (ih' span member).mono
  | single _ ih => exact ih
  | more _ _ _ ih ih' =>
    intro span member
    rw [Cmd.spans, mem_append] at member
    rcases member with member | member
    · exact (ih span member).mono
    · exact (ih' span member).mono
  | block _ _ _ redirs ih =>
    intro span member
    rcases redirs.named span member with inside | named
    · exact (ih span inside).mono
    · exact named.mono
  | simple redirs args _ =>
    intro span member
    rcases args.named span member with inside | named
    · rcases redirs.named span inside with inside | named
      · exact (args.words span inside).mono
      · exact named.mono
    · exact named.mono

theorem foldl_terminate (argv : List Span) (buf : Buffer) (r : Nat) :
    argv.foldl (fun buf span => update buf span.eq 0) buf r =
      if r ∈ argv.map Span.eq then 0 else buf r := by
  induction argv generalizing buf with
  | nil => rfl
  | cons span argv ih =>
    rw [foldl_cons, ih, map_cons]
    by_cases later : r ∈ argv.map Span.eq
    · rw [if_pos later, if_pos (mem_cons_of_mem _ later)]
    · rw [if_neg later]
      by_cases here : r = span.eq
      · rw [here, update_self, if_pos mem_cons_self]
      · rw [update_of_ne here, if_neg (by simp [here, later])]

theorem nulterminate_apply (cmd : Cmd) (buf : Buffer) (r : Nat) :
    nulterminate cmd buf r = if r ∈ cmd.spans.map Span.eq then 0 else buf r := by
  induction cmd generalizing buf with
  | exec argv => exact foldl_terminate argv buf r
  | redir cmd file mode fd ih =>
    rw [nulterminate, update_apply, ih, Cmd.spans, map_append]
    by_cases last : r = file.eq
    · rw [if_pos last, if_pos (by simp [last])]
    · simp [last]
  | pipe left right ihLeft ihRight | list left right ihLeft ihRight =>
    rw [nulterminate, ihRight, ihLeft, Cmd.spans, map_append]
    by_cases later : r ∈ right.spans.map Span.eq
    · rw [if_pos later, if_pos (mem_append_right _ later)]
    · simp [later]
  | back cmd ih => exact ih buf

theorem buffer_suffix (inside : s <:+ line) (few : r ≤ s.length) : buffer line r = buffer s r := by
  obtain ⟨before, rfl⟩ := inside
  have offset : (before ++ s).length - r = before.length + (s.length - r) := by
    rw [length_append]
    omega
  rw [buffer, buffer, offset, drop_append]
  simp

theorem buffer_head (c : UInt8) (rest : List UInt8) : buffer (c :: rest) (rest.length + 1) = c := by
  simp [buffer]

/-- Where a word is: its characters are word characters, and what is behind it is none, or
the end of the line. -/
structure WordAt (line : List UInt8) (span : Span) : Prop where
  start : span.q ≤ line.length
  some : span.eq < span.q
  inside : ∀ r, span.eq < r → r ≤ span.q → isWord (buffer line r) = true
  stop : span.eq = 0 ∨ isWord (buffer line span.eq) = false

theorem WordAt.suffix (at' : WordAt s span) (inside : s <:+ line) : WordAt line span where
  start := at'.start.trans inside.length_le
  some := at'.some
  inside r low high := by
    rw [buffer_suffix inside (high.trans at'.start)]
    exact at'.inside r low high
  stop := by
    rw [buffer_suffix inside (at'.some.le.trans at'.start)]
    exact at'.stop

theorem buffer_word (s : List UInt8) (low : (s.dropWhile isWord).length < r) (high : r ≤ s.length) :
    isWord (buffer s r) = true := by
  induction s with
  | nil => exact absurd high (by simp at low ⊢; omega)
  | cons c rest ih =>
    by_cases word : isWord c = true
    · rw [dropWhile_cons_of_pos word] at low
      by_cases first : r = rest.length + 1
      · rw [first, buffer_head]
        exact word
      · rw [length_cons] at high
        rw [buffer_suffix (suffix_cons c rest) (by omega)]
        exact ih low (by omega)
    · rw [dropWhile_cons_of_neg word] at low
      omega

theorem buffer_stop (s : List UInt8) :
    (s.dropWhile isWord).length = 0 ∨ isWord (buffer s (s.dropWhile isWord).length) = false := by
  have head := head?_dropWhile_not isWord s
  rw [buffer_suffix (dropWhile_suffix isWord) le_rfl]
  cases left : s.dropWhile isWord with
  | nil => exact .inl rfl
  | cons c rest =>
    rw [left] at head
    exact .inr (by rw [length_cons, buffer_head]; exact head)

theorem lex_wordAt (member : t ∈ lex s) (word : t.tok = .word) : WordAt s t.span := by
  induction length : s.length using Nat.strong_induction_on generalizing s with
  | _ n ih =>
    cases s with
    | nil => rw [lex] at member; cases member
    | cons c rest =>
      have dropped : (rest.dropWhile isWord).length ≤ rest.length := (dropWhile_suffix _).length_le
      have tail : rest.tail.length ≤ rest.length := by simp
      have within : rest <:+ c :: rest := suffix_cons c rest
      rw [length_cons] at length
      rw [lex] at member
      split_ifs at member with space isWord' twice
      · exact (ih _ (by omega) member rfl).suffix within
      · rcases mem_cons.mp member with rfl | member
        · refine ⟨le_rfl, Nat.lt_succ_of_le dropped, fun r low high => ?_, ?_⟩
          · by_cases first : r = rest.length + 1
            · rw [first, buffer_head]
              exact isWord'
            · have high : r ≤ rest.length + 1 := high
              rw [buffer_suffix within (by omega)]
              exact buffer_word rest low (by omega)
          · rw [buffer_suffix within dropped]
            exact buffer_stop rest
        · exact (ih _ (by omega) member rfl).suffix ((dropWhile_suffix _).trans within)
      · rcases mem_cons.mp member with rfl | member
        · cases word
        · exact (ih _ (by omega) member rfl).suffix ((tail_suffix _).trans within)
      · rcases mem_cons.mp member with rfl | member
        · simp only [symbolTok] at word
          split_ifs at word
        · exact (ih _ (by omega) member rfl).suffix within

theorem cstring_eq (chars : List UInt8) {buf : Buffer} (noNul : 0 ∉ chars) (q : Nat)
    (start : q ≤ chars.length) (some : e ≤ q) (same : ∀ r, e < r → r ≤ q → buf r = buffer chars r)
    (stop : e = 0 ∨ buf e = 0) : cstring buf q = (chars.drop (chars.length - q)).take (q - e) := by
  induction q with
  | zero => simp [cstring]
  | succ q ih =>
    by_cases last : e = q + 1
    · have zero : buf (q + 1) = 0 := last ▸ stop.resolve_left (by omega)
      rw [cstring, if_pos zero, last, Nat.sub_self, take_zero]
    · have within : chars.length - (q + 1) < chars.length := by omega
      have value : buf (q + 1) = chars[chars.length - (q + 1)] := by
        rw [same (q + 1) (by omega) le_rfl, buffer, drop_eq_getElem_cons within]
        rfl
      have nonzero : buf (q + 1) ≠ 0 :=
        fun zero => noNul (by rw [← zero, value]; exact getElem_mem within)
      have next : chars.length - (q + 1) + 1 = chars.length - q := by omega
      have more : q + 1 - e = (q - e) + 1 := by omega
      rw [cstring, if_neg nonzero, drop_eq_getElem_cons within, next, more, take_succ_cons, value,
        ih (by omega) (by omega) fun r low high => same r low (by omega)]

theorem cstring_nulterminate (line : List UInt8) (noNul : 0 ∉ line) (cmd : Cmd)
    (named : ∀ span ∈ cmd.spans, Named (lex line) span) (member : span ∈ cmd.spans) :
    cstring (nulterminate cmd (buffer line)) span.q = text line span := by
  have place : ∀ other ∈ cmd.spans, WordAt line other := by
    intro other inside
    obtain ⟨t, found, word, rfl⟩ := named other inside
    exact lex_wordAt found word
  have here := place span member
  refine cstring_eq line noNul span.q here.start here.some.le (fun r low high => ?_) (.inr ?_)
  · rw [nulterminate_apply, if_neg]
    intro cut
    obtain ⟨other, inside, rfl⟩ := mem_map.mp cut
    rcases (place other inside).stop with zero | noWord
    · omega
    · rw [here.inside _ low high] at noWord
      cases noWord
  · rw [nulterminate_apply, if_pos (mem_map_of_mem member)]

theorem skip_lex_iff (s : Cursor) : skip s = [] ↔ lex s = [] := by
  refine ⟨fun none => ?_, skip_of_lex_nil⟩
  rw [← lex_skip, none, lex]

theorem parsecmd_ok_iff (s : List UInt8) (cmd : Cmd) :
    parsecmd s = .ok cmd ↔ Derives .line (lex (lineOf s)) cmd := by
  constructor
  · intro done
    obtain ⟨r, parsed, done⟩ := bind_eq_ok done
    obtain ⟨ts, split, derives⟩ := (parse_sound _).1 _ r parsed
    by_cases none : (peek r.2 []).1 = []
    · rw [if_pos none] at done
      cases done
      rw [(skip_lex_iff r.2).mp none, append_nil] at split
      rw [split]
      exact derives
    · rw [if_neg none] at done
      cases done
  · intro derives
    have few := length_lex_le (lineOf s)
    obtain ⟨s', parsed, left⟩ := derives.finds (4 * (lineOf s).length + 4) (lineOf s) []
      (by rw [Nonterminal.need]; omega) (append_nil _).symm (.inl rfl)
    have none : (peek s' []).1 = [] := (skip_lex_iff s').mpr left
    rw [parsecmd, show parseline _ _ = _ from parsed]
    simp only [Except.bind, none, if_true]

theorem parsecmd_fuel (s : List UInt8) : parsecmd s ≠ .error .fuel := by
  intro failed
  have few := length_lex_le (lineOf s)
  rcases bind_eq_error failed with failed | ⟨r, _, failed⟩
  · exact (parse_fuel _).1 _ (by omega) failed
  · split at failed <;> cases failed

theorem zero_notMem_lineOf (s : List UInt8) : 0 ∉ lineOf s := by
  intro member
  have nonzero := mem_takeWhile_imp member
  simp at nonzero

/-- The parser terminates and accepts its grammar, with the trees of the derivations; it
panics on all other lines; and the strings of a tree are, as C strings, the words of the
line. -/
theorem parsecmd_accepts_grammar (s : List UInt8) :
    (∀ cmd, parsecmd s = .ok cmd ↔ Derives .line (lex (lineOf s)) cmd) ∧
    ((∀ cmd, ¬ Derives .line (lex (lineOf s)) cmd) → ∃ e, parsecmd s = .error e ∧ e ≠ .fuel) ∧
    ∀ cmd, parsecmd s = .ok cmd → ∀ span ∈ cmd.spans, Named (lex (lineOf s)) span ∧
      cstring (nulterminate cmd (buffer (lineOf s))) span.q = text (lineOf s) span := by
  refine ⟨parsecmd_ok_iff s, fun none => ?_, fun cmd done span member => ?_⟩
  · cases result : parsecmd s with
    | ok cmd => exact absurd ((parsecmd_ok_iff s cmd).mp result) (none cmd)
    | error e => exact ⟨e, rfl, fun same => parsecmd_fuel s (same ▸ result)⟩
  · have named := ((parsecmd_ok_iff s cmd).mp done).named
    exact ⟨named span member, cstring_nulterminate _ (zero_notMem_lineOf s) cmd named member⟩

end EnhancedXv6.Shell
