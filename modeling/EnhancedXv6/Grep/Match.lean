import Mathlib.Computability.Language

/-! The matcher of `grep.c`, and the regular expressions that it implements. A string is
the list of its bytes before the NUL. -/

namespace EnhancedXv6.Grep

open Computability List Bool Language

def caret : UInt8 := 94
def dollar : UInt8 := 36
def dot : UInt8 := 46
def star : UInt8 := 42

/-- `matchstar`, where `here` is `matchhere` with the rest of the pattern. -/
def matchstar (here : List UInt8 → Bool) (c : UInt8) : List UInt8 → Bool
  | [] => here []
  | x :: text => here (x :: text) || ((x = c || c = dot) && matchstar here c text)

/-- The last test of `matchhere`, with the recursive call in `rest`. -/
def matchOne (c : UInt8) (rest : List UInt8 → Bool) : List UInt8 → Bool
  | [] => false
  | x :: text => (c = dot || c = x) && rest text

def matchhere : List UInt8 → List UInt8 → Bool
  | [] => fun _ => true
  | [c] => fun text => if c = dollar then text.isEmpty else matchOne c (fun _ => true) text
  | c :: d :: re => fun text =>
    if d = star then matchstar (matchhere re) c text else matchOne c (matchhere (d :: re)) text

def matchLoop (re : List UInt8) : List UInt8 → Bool
  | [] => matchhere re []
  | x :: text => matchhere re (x :: text) || matchLoop re text

/-- `match` of `grep.c`. -/
def matchText (re text : List UInt8) : Bool :=
  match re with
  | [] => matchLoop [] text
  | c :: rest => if c = caret then matchhere rest text else matchLoop (c :: rest) text

/-- One or any number of occurrences of a character, or of any character for a dot. -/
inductive Item where
  | one (c : UInt8)
  | many (c : UInt8)
  deriving DecidableEq, Repr

/-- What a pattern says: its items in order, and whether it ends in a `$`. -/
structure Regex where
  items : List Item
  final : Bool
  deriving DecidableEq, Repr

def Regex.before (r : Regex) (item : Item) : Regex := { r with items := item :: r.items }

/-- A character that a star follows is a starred item. A `$` is special at the end only. -/
def Regex.read : List UInt8 → Regex
  | [] => ⟨[], false⟩
  | [c] => if c = dollar then ⟨[], true⟩ else ⟨[.one c], false⟩
  | c :: d :: re =>
    if d = star then (read re).before (.many c) else (read (d :: re)).before (.one c)

def oneOf (c : UInt8) : Language UInt8 := { w | ∃ x, (c = dot ∨ c = x) ∧ w = [x] }

def Item.language : Item → Language UInt8
  | .one c => oneOf c
  | .many c => (oneOf c)∗

/-- The items match a part of a text, and nothing comes after it if the pattern says so. -/
def Regex.Matches (r : Regex) (part after : List UInt8) : Prop :=
  part ∈ (r.items.map Item.language).prod ∧ (r.final = true → after = [])

def Regex.Starts (r : Regex) (text : List UInt8) : Prop :=
  ∃ part after, text = part ++ after ∧ r.Matches part after

section Languages

variable {r : Regex} {c x : UInt8} {text : List UInt8}

theorem starts_before {item : Item} :
    (r.before item).Starts text ↔ ∃ u v, text = u ++ v ∧ u ∈ item.language ∧ r.Starts v := by
  unfold Regex.Starts Regex.Matches Regex.before
  simp only [map_cons, prod_cons, mem_mul]
  constructor
  · rintro ⟨_, after, rfl, ⟨u, first, v, rest, rfl⟩, last⟩
    exact ⟨u, v ++ after, append_assoc u v after, first, v, after, rfl, rest, last⟩
  · rintro ⟨u, _, rfl, first, v, after, rfl, rest, last⟩
    exact ⟨u ++ v, after, (append_assoc u v after).symm, ⟨u, first, v, rest, rfl⟩, last⟩

theorem starts_nil {final : Bool} : Regex.Starts ⟨[], final⟩ text ↔ (final = true → text = []) := by
  unfold Regex.Starts Regex.Matches
  simp only [map_nil, prod_nil, mem_one]
  constructor
  · rintro ⟨_, after, rfl, rfl, last⟩
    exact last
  · intro last
    exact ⟨[], text, rfl, rfl, last⟩

/-- A starred item is empty, or it begins with one of its characters. -/
theorem kstar_oneOf_cons : x :: text ∈ (oneOf c)∗ ↔ (c = dot ∨ c = x) ∧ text ∈ (oneOf c)∗ := by
  rw [← one_add_self_mul_kstar_eq_kstar (oneOf c)]
  constructor
  · rintro (nil | ⟨_, ⟨y, fits, rfl⟩, v, rest, same⟩)
    · cases nil
    · obtain ⟨rfl, rfl⟩ := cons.inj same
      rw [one_add_self_mul_kstar_eq_kstar]
      exact ⟨fits, rest⟩
  · rintro ⟨fits, rest⟩
    rw [one_add_self_mul_kstar_eq_kstar] at rest
    exact .inr ⟨[x], ⟨x, fits, rfl⟩, text, rest, rfl⟩

end Languages

section Matcher

variable {here : List UInt8 → Bool} {c : UInt8}

theorem matchOne_iff (text : List UInt8) :
    matchOne c here text = true ↔ ∃ u v, text = u ++ v ∧ u ∈ oneOf c ∧ here v = true := by
  cases text with
  | nil =>
    constructor
    · intro absent
      cases absent
    · rintro ⟨_, v, same, ⟨x, _, rfl⟩, _⟩
      cases same
  | cons x text =>
    simp only [matchOne, and_eq_true, or_eq_true, decide_eq_true_eq]
    constructor
    · rintro ⟨fits, rest⟩
      exact ⟨[x], text, rfl, ⟨x, fits, rfl⟩, rest⟩
    · rintro ⟨_, v, same, ⟨y, fits, rfl⟩, rest⟩
      obtain ⟨rfl, rfl⟩ := cons.inj same
      exact ⟨fits, rest⟩

theorem matchstar_iff (text : List UInt8) :
    matchstar here c text = true ↔ ∃ u v, text = u ++ v ∧ u ∈ (oneOf c)∗ ∧ here v = true := by
  induction text with
  | nil =>
    constructor
    · intro found
      exact ⟨[], [], rfl, nil_mem_kstar _, found⟩
    · rintro ⟨u, v, same, _, found⟩
      obtain ⟨rfl, rfl⟩ := append_eq_nil_iff.mp same.symm
      exact found
  | cons x text ih =>
    simp only [matchstar, or_eq_true, and_eq_true, decide_eq_true_eq, ih]
    constructor
    · rintro (found | ⟨fits, u, v, rfl, some, found⟩)
      · exact ⟨[], x :: text, rfl, nil_mem_kstar _, found⟩
      · exact ⟨x :: u, v, rfl, kstar_oneOf_cons.mpr ⟨fits.symm.imp_right Eq.symm, some⟩, found⟩
    · rintro ⟨u, v, same, some, found⟩
      cases u with
      | nil =>
        rw [same]
        exact .inl found
      | cons y u =>
        obtain ⟨rfl, rfl⟩ := cons.inj same
        obtain ⟨fits, some⟩ := kstar_oneOf_cons.mp some
        exact .inr ⟨fits.symm.imp_left Eq.symm, u, v, rfl, some, found⟩

theorem matchhere_iff (re text : List UInt8) :
    matchhere re text = true ↔ (Regex.read re).Starts text := by
  induction re using matchhere.induct generalizing text with
  | case1 => simp [matchhere, Regex.read, starts_nil]
  | case2 c =>
    rw [matchhere, Regex.read]
    split
    · simp [starts_nil]
    · change _ ↔ (Regex.before ⟨[], false⟩ (.one c)).Starts text
      rw [matchOne_iff, starts_before]
      simp [starts_nil, Item.language]
  | case3 c d re starred plain =>
    rw [matchhere, Regex.read]
    split
    · rw [matchstar_iff, starts_before]
      simp only [starred, Item.language]
    · rw [matchOne_iff, starts_before]
      simp only [plain, Item.language]

theorem matchLoop_iff (re text : List UInt8) :
    matchLoop re text = true ↔ ∃ before rest, text = before ++ rest ∧
    (Regex.read re).Starts rest := by
  induction text with
  | nil =>
    rw [matchLoop, matchhere_iff]
    constructor
    · intro found
      exact ⟨[], [], rfl, found⟩
    · rintro ⟨before, rest, same, found⟩
      obtain ⟨rfl, rfl⟩ := append_eq_nil_iff.mp same.symm
      exact found
  | cons x text ih =>
    rw [matchLoop, or_eq_true, matchhere_iff, ih]
    constructor
    · rintro (found | ⟨before, rest, rfl, found⟩)
      · exact ⟨[], x :: text, rfl, found⟩
      · exact ⟨x :: before, rest, rfl, found⟩
    · rintro ⟨before, rest, same, found⟩
      cases before with
      | nil =>
        rw [same]
        exact .inl found
      | cons y before =>
        obtain ⟨rfl, rfl⟩ := cons.inj same
        exact .inr ⟨before, rest, rfl, found⟩

/-- Without a leading `^` some part of the text is matched, with one a part at its beginning. -/
theorem matchText_iff (re text : List UInt8) :
    matchText re text = true ↔ ∃ before part after, text = before ++ (part ++ after) ∧
      if re.head? = some caret then before = [] ∧ (Regex.read re.tail).Matches part after
      else (Regex.read re).Matches part after := by
  have searched (pattern : List UInt8) : matchLoop pattern text = true ↔
      ∃ before part after, text = before ++ (part ++ after) ∧
      (Regex.read pattern).Matches part after := by
    rw [matchLoop_iff]
    constructor
    · rintro ⟨before, _, rfl, part, after, rfl, found⟩
      exact ⟨before, part, after, rfl, found⟩
    · rintro ⟨before, part, after, same, found⟩
      exact ⟨before, part ++ after, same, part, after, rfl, found⟩
  cases re with
  | nil => exact searched []
  | cons c rest =>
    simp only [matchText, head?_cons, Option.some.injEq, tail_cons]
    split
    · rw [matchhere_iff]
      constructor
      · rintro ⟨part, after, same, found⟩
        exact ⟨[], part, after, same, rfl, found⟩
      · rintro ⟨_, part, after, same, rfl, found⟩
        exact ⟨part, after, same, found⟩
    · exact searched (c :: rest)

/-- The pattern `*a` finds a literal star. -/
example : matchText [star, 97] [97, star, 97] = true := by decide

end Matcher

end EnhancedXv6.Grep
