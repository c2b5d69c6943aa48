import EnhancedXv6.Foundation.Run

/-! `read_count` of `syscall.c`: `sys_read` loads it and stores it again in two steps and
without a lock, on any number of CPUs. -/

namespace EnhancedXv6.Syscall

open Foundation Option Function Finset

/-- Where a process is in `sys_read`: outside of it, between the load and the store of
`read_count++`, or in the rest of it. -/
inductive Call where
  | outside
  | loaded (count : Nat)
  | counted
  deriving DecidableEq, Repr

/-- `read_count` as a 32-bit word, the calls of the processes, and how many have returned. -/
structure Counter where
  readCount : Nat
  call : Nat → Call
  returned : Nat

inductive Event where
  | load (p : Nat)
  | store (p : Nat)
  | finish (p : Nat)
  deriving DecidableEq, Repr

def Counter.goto (s : Counter) (p : Nat) (next : Call) : Counter :=
  { s with call := Function.update s.call p next }

def Counter.step (s : Counter) : Event → Option Counter
  | .load p => if s.call p = .outside then some (s.goto p (.loaded s.readCount)) else none
  | .store p =>
    match s.call p with
    | .loaded count => some { s.goto p .counted with readCount := (count + 1) % 2 ^ 32 }
    | _ => none
  | .finish p =>
    if s.call p = .counted then some { s.goto p .outside with returned := s.returned + 1 } else none

/-- `sys_getreadcount`: an `int` becomes a `uint64`. -/
def Counter.sysGetreadcount (s : Counter) : Nat :=
  if s.readCount < 2 ^ 31 then s.readCount else 2 ^ 64 - 2 ^ 32 + s.readCount

/-- Nobody loads the counter while another process has still to store it. -/
def Exclusive (s : Counter) : Event → Prop
  | .load _ => ∀ q count, s.call q ≠ .loaded count
  | _ => True

section Run

variable {s t : Counter} {p : Nat} {start : Nat}

theorem Counter.goto_self (s : Counter) (p : Nat) (next : Call) :
    (s.goto p next).call p = next := by
  change update s.call p next p = next
  exact update_self ..

theorem Counter.goto_other (next : Call) (other : q ≠ p) : (s.goto p next).call q = s.call q := by
  change update s.call p next q = s.call q
  exact update_of_ne other ..

/-- Every store that was made is in the counter: those of calls that have returned and those of
calls that are still inside. -/
structure Counts (start : Nat) (s : Counter) : Prop where
  fresh : ∀ p count, s.call p = .loaded count → count = s.readCount
  one : ∀ p q a b, s.call p = .loaded a → s.call q = .loaded b → p = q
  total : ∃ inside : Finset Nat, (∀ p, p ∈ inside ↔ s.call p = .counted) ∧
    s.readCount = (start + s.returned + inside.card) % 2 ^ 32

open Counter

theorem step_cases {event : Event} (taken : s.step event = some t) :
    (∃ p, event = .load p ∧ s.call p = .outside ∧ t = s.goto p (.loaded s.readCount)) ∨
    (∃ p count, event = .store p ∧ s.call p = .loaded count ∧
      t = { s.goto p .counted with readCount := (count + 1) % 2 ^ 32 }) ∨
    ∃ p, event = .finish p ∧ s.call p = .counted ∧
      t = { s.goto p .outside with returned := s.returned + 1 } := by
  cases event with
  | load p =>
    obtain ⟨outside, same⟩ := ite_none_right_eq_some.mp taken
    exact .inl ⟨p, rfl, outside, (some.inj same).symm⟩
  | store p =>
    cases at_p : s.call p with
    | loaded count =>
      simp only [step, at_p, some.injEq] at taken
      exact .inr (.inl ⟨p, count, rfl, at_p, taken.symm⟩)
    | outside | counted =>
      simp only [step, at_p] at taken
      cases taken
  | finish p =>
    obtain ⟨counted, same⟩ := ite_none_right_eq_some.mp taken
    exact .inr (.inr ⟨p, rfl, counted, (some.inj same).symm⟩)

theorem Counts.load (counts : Counts start s) (alone : ∀ q count, s.call q ≠ .loaded count)
    (outside : s.call p = .outside) : Counts start (s.goto p (.loaded s.readCount)) := by
  have only (q a : Nat) (loaded : (s.goto p (.loaded s.readCount)).call q = .loaded a) : q = p := by
    by_contra other
    rw [goto_other _ other] at loaded
    exact alone q a loaded
  obtain ⟨inside, member, total⟩ := counts.total
  refine ⟨fun q a loaded => ?_, fun q q' a b one two => ?_, inside, fun q => ?_, total⟩
  · obtain rfl := only q a loaded
    rw [goto_self] at loaded
    exact (Call.loaded.inj loaded).symm
  · rw [only q a one, only q' b two]
  · rw [member]
    by_cases here : q = p
    · subst here
      rw [goto_self, outside]
      exact iff_of_false Call.noConfusion Call.noConfusion
    · rw [goto_other _ here]

theorem Counts.store (counts : Counts start s) (loaded : s.call p = .loaded count) :
    Counts start { s.goto p .counted with readCount := (count + 1) % 2 ^ 32 } := by
  have none (q a : Nat) : (s.goto p .counted).call q ≠ .loaded a := by
    intro two
    by_cases here : q = p
    · subst here
      rw [goto_self] at two
      cases two
    · rw [goto_other _ here] at two
      exact here (counts.one q p a count two loaded)
  obtain ⟨inside, member, total⟩ := counts.total
  have new : p ∉ inside := by
    rw [member, loaded]
    exact Call.noConfusion
  refine ⟨fun q a two => absurd two (none q a), fun q q' a b one => absurd one (none q a),
    insert p inside, fun q => ?_, ?_⟩
  · rw [mem_insert, member]
    by_cases here : q = p
    · subst here
      exact iff_of_true (.inl rfl) (goto_self s q .counted)
    · change _ ↔ (s.goto p .counted).call q = .counted
      rw [goto_other _ here, or_iff_right here]
  · change (count + 1) % 2 ^ 32 = (start + s.returned + (insert p inside).card) % 2 ^ 32
    rw [counts.fresh p count loaded, total, card_insert_of_notMem new, Nat.mod_add_mod,
      Nat.add_assoc]

theorem Counts.finish (counts : Counts start s) (counted : s.call p = .counted) :
    Counts start { s.goto p .outside with returned := s.returned + 1 } := by
  have kept (q a : Nat) (loaded : (s.goto p .outside).call q = .loaded a) :
      s.call q = .loaded a := by
    by_cases here : q = p
    · subst here
      rw [goto_self] at loaded
      cases loaded
    · rwa [goto_other _ here] at loaded
  obtain ⟨inside, member, total⟩ := counts.total
  refine ⟨fun q a loaded => counts.fresh q a (kept q a loaded),
    fun q q' a b one two => counts.one q q' a b (kept q a one) (kept q' b two), inside.erase p,
    fun q => ?_, ?_⟩
  · rw [mem_erase, member]
    change _ ↔ (s.goto p .outside).call q = .counted
    by_cases here : q = p
    · subst here
      rw [goto_self]
      exact iff_of_false (fun both => both.1 rfl) Call.noConfusion
    · rw [goto_other _ here, and_iff_right here]
  · have there : p ∈ inside := (member p).mpr counted
    have one := card_erase_add_one there
    change s.readCount = (start + (s.returned + 1) + (inside.erase p).card) % 2 ^ 32
    rw [total, ← one]
    congr 1
    omega

theorem Counts.step {event : Event} (counts : Counts start s) (alone : Exclusive s event)
    (taken : s.step event = some t) : Counts start t := by
  rcases step_cases taken with
    ⟨p, rfl, outside, rfl⟩ | ⟨p, count, rfl, loaded, rfl⟩ | ⟨p, rfl, counted, rfl⟩
  · exact counts.load alone outside
  · exact counts.store loaded
  · exact counts.finish counted

end Run

theorem sysGetreadcount_mod (s : Counter) (small : s.readCount < 2 ^ 32) :
    s.sysGetreadcount % 2 ^ 32 = s.readCount := by
  unfold Counter.sysGetreadcount
  split <;> omega

/-- Where no two updates of the counter overlap, it counts every call of `sys_read`. -/
theorem read_count_exact (s t : Counter) (small : s.readCount < 2 ^ 32)
    (idle : ∀ p, s.call p = .outside) (events : List Event)
    (run : exec Counter.step s events = some t) (alone : Along Counter.step Exclusive s events)
    (done : ∀ p, t.call p = .outside) (k : Nat) (calls : t.returned = s.returned + k) :
    t.sysGetreadcount % 2 ^ 32 = (s.sysGetreadcount + k) % 2 ^ 32 := by
  -- counted from the value that the counter would have had without the calls that had returned
  -- before
  have before : ∃ start, (start + s.returned) % 2 ^ 32 = s.readCount :=
    ⟨s.readCount + (2 ^ 32 - 1) * s.returned, by omega⟩
  obtain ⟨start, same⟩ := before
  have none (q a : Nat) : s.call q ≠ .loaded a := by
    rw [idle]
    exact Call.noConfusion
  have initial : Counts start s := by
    refine ⟨fun q a loaded => absurd loaded (none q a),
      fun q _ a _ loaded => absurd loaded (none q a), ∅, fun q => ?_, ?_⟩
    · rw [idle]
      exact iff_of_false (Finset.notMem_empty q) Call.noConfusion
    · exact same.symm
  have final : Counts start t :=
    (throughout_of_along
      (fun _ _ _ counts alone taken => counts.step alone taken) initial alone).final run
  obtain ⟨inside, member, total⟩ := final.total
  have empty : inside = ∅ := by
    refine Finset.eq_empty_of_forall_notMem fun q there => ?_
    rw [member, done] at there
    cases there
  rw [empty, Finset.card_empty, calls] at total
  have bounded : t.readCount < 2 ^ 32 := total ▸ Nat.mod_lt _ (by decide)
  rw [sysGetreadcount_mod t bounded, Nat.add_mod, sysGetreadcount_mod s small, total, ← same]
  omega

def Counter.boot : Counter where
  readCount := 0
  call _ := .outside
  returned := 0

/-- The second call counts and returns while the first one is still reading. -/
theorem read_count_exact_two : ∃ t, exec Counter.step .boot
    [.load 0, .store 0, .load 1, .store 1, .finish 1, .finish 0] = some t ∧
    t.sysGetreadcount % 2 ^ 32 = 2 := by
  refine ⟨_, rfl, ?_⟩
  refine read_count_exact .boot _ (by decide) (fun _ => rfl)
    [.load 0, .store 0, .load 1, .store 1, .finish 1, .finish 0] rfl ?_ (fun p => ?_) 2 rfl
  · refine ⟨fun _ _ => Call.noConfusion, fun s taken => ?_⟩
    cases taken
    refine ⟨trivial, fun s taken => ?_⟩
    cases taken
    refine ⟨fun p count loaded => ?_,
      fun _ _ => ⟨trivial, fun _ _ => ⟨trivial, fun _ _ => ⟨trivial, fun _ _ => trivial⟩⟩⟩⟩
    by_cases first : p = 0 <;> simp [Counter.goto, Counter.boot, first] at loaded
  · by_cases first : p = 0 <;> by_cases second :
      p = 1 <;> simp [Counter.goto, Counter.boot, first, second]

/-- Two calls that load the same value. -/
theorem read_count_loses_update : ∃ t, exec Counter.step .boot
    [.load 0, .load 1, .store 0, .store 1, .finish 0, .finish 1] = some t ∧
      (∀ p, t.call p = .outside) ∧
      t.returned = Counter.boot.returned + 2 ∧
      t.sysGetreadcount % 2 ^ 32 ≠ (Counter.boot.sysGetreadcount + 2) % 2 ^ 32 := by
  refine ⟨_, rfl, fun p => ?_, rfl, by decide⟩
  by_cases first : p = 0
  · subst first
    rfl
  · by_cases second : p = 1
    · subst second
      rfl
    · simp [Counter.goto, first, second, Counter.boot]

end EnhancedXv6.Syscall
