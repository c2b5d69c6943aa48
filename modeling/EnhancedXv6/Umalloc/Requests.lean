import EnhancedXv6.Umalloc.Conservation

namespace EnhancedXv6.Umalloc

open Foundation List Option

variable {base nbytes nunits : Nat} {sbrk : Sbrk} {h t : Heap} {s u : State} {nodes l : List Nat}

/-- A free block that is large enough is found by following the links from `freep`. -/
def Heap.Fits (h : Heap) (nunits : Nat) : Prop :=
  ∃ k, nunits ≤ h.size (h.ptr^[k] h.freep)

/-- A request for which there is a free block, or for whose memory `sbrk` can be asked. -/
def Sensible (base : Nat) (s : State) (nbytes : Nat) : Prop :=
  (s.heap.started base).Fits (unitsFor nbytes) ∨ coreUnits (unitsFor nbytes) * unit < 2 ^ 31

def Event.Sensible (base : Nat) (s : State) : Event → Prop
  | .malloc nbytes => nbytes < 2 ^ 32 ∧ Umalloc.Sensible base s nbytes
  | .free _ => True

def request (base : Nat) (sbrk : Sbrk) (fuel : Nat) (s : State) : Event → Option State
  | .malloc nbytes =>
    (malloc base sbrk fuel s.heap nbytes).map
      fun result => ⟨result.1, served s.live nbytes result.2⟩
  | .free block => perform base sbrk fuel s (.free block)

def Call (base : Nat) (sbrk : Sbrk) (s t : State) : Prop :=
  ∃ fuel event, event.Sensible base s ∧ request base sbrk fuel s event = some t

/-- What a program may expect of `malloc`: a null pointer or bytes from `sbrk` that belong to no
other block, and no call of `sbrk` that asks for anything but the memory of the block. -/
structure Answer (s : State) (nbytes : Nat) (t : Heap) (p : Nat) : Prop where
  block : p = 0 ∨ ∀ x, p ≤ x → x < p + nbytes → Granted t.calls x ∧
    ∀ b ∈ s.live, ¬ (b.1 ≤ x ∧ x < b.1 + unit + b.2)
  asks : ∃ new, t.calls = new ++ s.heap.calls ∧
    ∀ call ∈ new, call.1 = ((coreUnits (unitsFor nbytes) * unit : Nat) : Int) ∧ 0 < call.1

theorem FreeList.fits_iff (list : FreeList base h nodes) :
    h.Fits nunits ↔ ∃ a ∈ nodes, nunits ≤ h.size a := by
  constructor
  · rintro ⟨k, fits⟩
    refine ⟨_, ?_, fits⟩
    clear fits
    induction k with
    | zero => exact list.start
    | succ k ih =>
      rw [Function.iterate_succ_apply']
      exact list.circle.next_mem ih
  · rintro ⟨a, member, fits⟩
    obtain ⟨l, chain, members, _⟩ := list.tour
    obtain ⟨k, rfl⟩ := chain_iterate chain ((members a).mpr member)
    exact ⟨k, fits⟩

section Calls

theorem joins_calls (h : Heap) (bp p : Nat) :
    ((h.joinUpper bp p).joinLower bp p).calls = h.calls := by
  unfold Heap.joinLower Heap.joinUpper
  split <;> split <;> rfl

theorem take_calls (h : Heap) (nunits prevp p : Nat) :
    (h.take nunits prevp p).1.calls = h.calls := by
  unfold Heap.take
  split <;> rfl

theorem free_calls (returns : free fuel h ap = some t) : t.calls = h.calls := by
  obtain ⟨p, _, rfl⟩ := map_eq_some_iff.mp returns
  exact joins_calls ..

theorem morecore_calls (returns : morecore sbrk fuel h nunits = some (t, grown)) :
    ∃ outcome, t.calls = (sbrkArgument (coreUnits nunits * unit), outcome) :: h.calls := by
  unfold morecore at returns
  dsimp only at returns
  split at returns
  · cases returns
    exact ⟨_, rfl⟩
  · obtain ⟨u, freed, same⟩ := map_eq_some_iff.mp returns
    cases same
    exact ⟨_, free_calls freed⟩

/-- The calls of `sbrk` only become more. -/
theorem mallocLoop_calls (returns : mallocLoop sbrk fuel h nunits prevp p = some (t, q)) :
    ∃ new, t.calls = new ++ h.calls := by
  induction fuel generalizing h prevp p with
  | zero => cases returns
  | succ fuel ih =>
    rw [mallocLoop] at returns
    split at returns
    · have same := take_calls h nunits prevp p
      rw [some.inj returns] at same
      exact ⟨[], same⟩
    · split at returns
      · split at returns
        · cases returns
        · rename_i core
          obtain ⟨outcome, calls⟩ := morecore_calls core
          cases returns
          exact ⟨[_], calls⟩
        · rename_i core
          obtain ⟨outcome, calls⟩ := morecore_calls core
          obtain ⟨new, later⟩ := ih returns
          exact ⟨new ++ [_], by rw [later, calls, append_assoc]; rfl⟩
      · exact ih returns

theorem mallocLoop_last (link : h.ptr prevp = h.freep) (less : h.size h.freep < nunits)
    (returns : mallocLoop sbrk (fuel + 1) h nunits prevp (h.ptr prevp) = some (t, q)) :
    ∃ new outcome, t.calls =
      new ++ (sbrkArgument (coreUnits nunits * unit), outcome) :: h.calls := by
  rw [mallocLoop, link, if_neg (not_le.mpr less), if_pos rfl] at returns
  split at returns
  · cases returns
  · rename_i core
    obtain ⟨outcome, calls⟩ := morecore_calls core
    cases returns
    exact ⟨[], outcome, calls⟩
  · rename_i core
    obtain ⟨outcome, calls⟩ := morecore_calls core
    obtain ⟨new, later⟩ := mallocLoop_calls returns
    exact ⟨new, outcome, by rw [later, calls]⟩

/-- If no block on the way to `freep` fits, `sbrk` is called. -/
theorem mallocLoop_asks (chain : List.IsChain (fun a b => h.ptr a = b) (prevp :: (l ++ [h.freep])))
    (small : ∀ a ∈ l ++ [h.freep], h.size a < nunits)
    (returns : mallocLoop sbrk fuel h nunits prevp (h.ptr prevp) = some (t, q)) :
    ∃ new outcome, t.calls =
      new ++ (sbrkArgument (coreUnits nunits * unit), outcome) :: h.calls := by
  induction l generalizing prevp fuel with
  | nil =>
    cases fuel with
    | zero => cases returns
    | succ fuel =>
      have link : h.ptr prevp = h.freep := (isChain_cons_cons.mp chain).1
      exact mallocLoop_last link (small _ (by simp)) returns
  | cons a l ih =>
    cases fuel with
    | zero => cases returns
    | succ fuel =>
      obtain ⟨link, rest⟩ := isChain_cons_cons.mp chain
      have less : h.size a < nunits := small a (by simp)
      by_cases last : a = h.freep
      · exact mallocLoop_last (link.trans last) (last ▸ less) returns
      · rw [mallocLoop, link, if_neg (not_le.mpr less), if_neg last] at returns
        exact ih rest (fun b member => small b (mem_cons_of_mem a member)) returns

end Calls

theorem sbrkArgument_small {bytes : Nat} (same : sbrkArgument bytes = bytes) : bytes < 2 ^ 31 := by
  unfold sbrkArgument at same
  split at same <;> omega

section Runs

/-- The memory is shared out, and all of it comes from `sbrk`. -/
def Owned (base : Nat) (s : State) : Prop :=
  (s.heap.freep = 0 ∧ s.live = [] ∧ s.heap.calls = [] ∨ ∃ nodes, Sound base s.heap s.live nodes ∧
    ∀ x, Occupied s.heap nodes s.live x → Granted s.heap.calls x) ∧
    granted s.heap.calls < unit * 2 ^ 32

theorem Granted.append {calls new : List (Int × Option Nat)}
    (there : Granted calls x ∨ Granted new x) : Granted (new ++ calls) x := by
  rcases there with ⟨bytes, start, member, inside⟩ | ⟨bytes, start, member, inside⟩
  · exact ⟨bytes, start, mem_append_right _ member, inside⟩
  · exact ⟨bytes, start, mem_append_left _ member, inside⟩

theorem Owned.started (positive : 0 < base) (owned : Owned base s) :
    ∃ nodes, Sound base (s.heap.started base) s.live nodes ∧
      ∀ x, Occupied (s.heap.started base) nodes s.live x →
        Granted (s.heap.started base).calls x := by
  rcases owned.1 with ⟨fresh, empty, calls⟩ | ⟨nodes, sound, inside⟩
  · have sound := started_sound base fresh calls
    refine ⟨[base], by rwa [empty], fun x there => ?_⟩
    obtain ⟨a, member, low, high⟩ := there
    rw [empty] at member
    obtain rfl : a = base := by simpa using member
    rw [Heap.fin, sound.list.empty] at high
    omega
  · have used : s.heap.freep ≠ 0 := by
      have low := sound.list.base_le sound.list.start
      omega
    rw [Heap.started, if_neg used]
    exact ⟨nodes, sound, inside⟩

/-- A sensible request returns, with the answer that was expected and a heap that is owned. -/
theorem Owned.malloc (positive : 0 < base) (fresh : Fresh base sbrk) (bounded : Bounded sbrk)
    (owned : Owned base s) (word : nbytes < 2 ^ 32) (sensible : Sensible base s nbytes) :
    ∃ enough t p, (∀ fuel, enough ≤ fuel → malloc base sbrk fuel s.heap nbytes = some (t, p)) ∧
      Owned base ⟨t, served s.live nbytes p⟩ ∧ Answer s nbytes t p := by
  obtain ⟨nodes, sound, inside⟩ := owned.started positive
  obtain ⟨enough, t, p, nodes', new, returns, total, after, calls, asked, used⟩ :=
    sound.serve fresh bounded (by rw [started_calls]; exact owned.2) word
      (sensible.imp_left sound.list.fits_iff.mp)
  have granted : ∀ x, Occupied t nodes' (served s.live nbytes p) x → Granted t.calls x := by
    intro x there
    rw [calls]
    exact .append ((used x there).imp_left (inside x))
  refine ⟨enough, t, p, returns, ⟨.inr ⟨nodes', after, granted⟩, total⟩, ?_,
    new, by rw [calls, started_calls], asked⟩
  by_cases null : p = 0
  · exact .inl null
  · refine .inr fun x low high => ?_
    rw [served, if_neg null] at after granted
    have large := after.large _ mem_cons_self
    have above := after.above _ mem_cons_self
    dsimp only at large above
    have start : p - unit ≤ x := (Nat.sub_le _ _).trans low
    have stop : x < t.fin (p - unit) := by
      unfold Heap.fin
      omega
    refine ⟨granted x (occupied_cons.mpr (.inr ⟨start, stop⟩)), fun b member within => ?_⟩
    have room := after.large b (mem_cons_of_mem _ member)
    have clear := (pairwise_cons.mp after.apart).1 b member
    have ends : t.fin b.1 = b.1 + unit * t.size b.1 := rfl
    dsimp only at clear
    omega

theorem Owned.free (owned : Owned base s) (member : block ∈ s.live)
    (freed : free fuel s.heap (block.1 + unit) = some t) : Owned base ⟨t, s.live.erase block⟩ := by
  rcases owned.1 with ⟨_, empty, _⟩ | ⟨nodes, sound, inside⟩
  · rw [empty] at member
    cases member
  · have same := perm_cons_erase member
    obtain ⟨t', nodes', returns, after, calls, sizes, spread⟩ := (sound.perm same).freed owned.2
    have one := (free_steady _ _).more freed (le_max_left fuel nodes.length)
    rw [returns _ (le_max_right fuel nodes.length)] at one
    cases one
    refine ⟨.inr ⟨nodes', after, fun x there => ?_⟩, calls ▸ owned.2⟩
    rw [calls]
    refine inside x ?_
    obtain ⟨a, place, low, high⟩ := (occupied_freed sizes spread).mp there
    refine ⟨a, ?_, low, high⟩
    rw [mem_append] at place ⊢
    exact place.imp_right ((same.map Prod.fst).mem_iff.mpr)

theorem Owned.call (positive : 0 < base) (fresh : Fresh base sbrk) (bounded : Bounded sbrk)
    (owned : Owned base s) (taken : Call base sbrk s u) : Owned base u := by
  obtain ⟨fuel, event, sensible, returns⟩ := taken
  cases event with
  | malloc nbytes =>
    obtain ⟨⟨t, p⟩, found, rfl⟩ := map_eq_some_iff.mp returns
    obtain ⟨enough, t', p', ended, after, _⟩ :=
      owned.malloc positive fresh bounded sensible.1 sensible.2
    have one := (malloc_steady _ _ _ _).more found (le_max_left fuel enough)
    rw [ended _ (le_max_right fuel enough)] at one
    cases one
    exact after
  | free block =>
    obtain ⟨member, found⟩ := ite_none_right_eq_some.mp returns
    obtain ⟨t, freed, rfl⟩ := map_eq_some_iff.mp found
    exact owned.free member freed

end Runs

/-- After any sensible calls, `malloc` answers a request as expected if and only if the request is
sensible itself. -/
theorem malloc_answers_iff (base : Nat) (sbrk : Sbrk) (positive : 0 < base)
    (fresh : Fresh base sbrk) (bounded : Bounded sbrk) (s : State)
    (reached : Relation.ReflTransGen (Call base sbrk) start s) (nbytes : Nat)
    (word : nbytes < 2 ^ 32) :
    (∃ enough t p, (∀ fuel, enough ≤ fuel → malloc base sbrk fuel s.heap nbytes = some (t, p)) ∧
      Answer s nbytes t p) ↔ Sensible base s nbytes := by
  have owned : Owned base s := by
    induction reached with
    | refl => exact ⟨.inl ⟨rfl, rfl, rfl⟩, by simp [start, granted, unit]⟩
    | tail _ taken ih => exact ih.call positive fresh bounded taken
  constructor
  · rintro ⟨enough, t, p, returns, _, new, calls, asked⟩
    by_contra refused
    obtain ⟨lacking, large⟩ := not_or.mp refused
    obtain ⟨nodes, sound, _⟩ := owned.started positive
    rw [sound.list.fits_iff] at lacking
    obtain ⟨l, chain, members, _⟩ := sound.list.tour
    have small : ∀ a ∈ l ++ [(s.heap.started base).freep],
        (s.heap.started base).size a < unitsFor nbytes :=
      fun a member => not_le.mp fun fits => lacking ⟨a, (members a).mp member, fits⟩
    obtain ⟨later, outcome, asks⟩ := mallocLoop_asks chain small (returns enough le_rfl)
    rw [calls, started_calls, append_cons] at asks
    have same := append_cancel_right asks
    have argument :=
      (asked (sbrkArgument (coreUnits (unitsFor nbytes) * unit), outcome) (by rw [same]; simp)).1
    exact large (sbrkArgument_small argument)
  · intro sensible
    obtain ⟨enough, t, p, returns, _, answer⟩ := owned.malloc positive fresh bounded word sensible
    exact ⟨enough, t, p, returns, answer⟩

theorem calls_reach {events : List Event} {s t : State}
    (small : ∀ nbytes, .malloc nbytes ∈ events →
      nbytes < 2 ^ 32 ∧ coreUnits (unitsFor nbytes) * unit < 2 ^ 31)
    (run : exec (request base sbrk fuel) s events = some t) :
    Relation.ReflTransGen (Call base sbrk) s t := by
  induction events generalizing s with
  | nil =>
    cases run
    exact .refl
  | cons event events ih =>
    obtain ⟨u, taken, rest⟩ := exec_cons run
    have sensible : event.Sensible base s := by
      cases event with
      | malloc nbytes => exact (small nbytes mem_cons_self).imp_right .inr
      | free block => trivial
    exact .head ⟨fuel, event, sensible, taken⟩
      (ih (fun nbytes member => small nbytes (mem_cons_of_mem _ member)) rest)

/-- A request after two others, of which the first was freed again. -/
theorem malloc_answers_mixed : ∃ s enough t p,
    Relation.ReflTransGen (Call baseAddress (growing baseAddress (unit * 2 ^ 32))) start s ∧
      s.live = [(69488, 1)] ∧
      (∀ fuel, enough ≤ fuel →
        malloc baseAddress (growing baseAddress (unit * 2 ^ 32)) fuel s.heap 40 = some (t, p)) ∧
      Answer s 40 t p := by
  have ended : (exec (request baseAddress (growing baseAddress (unit * 2 ^ 32)) 9) start
      [.malloc 100, .malloc 1, .free (69520, 100)]).map State.live =
        some [(69488, 1)] := by decide +kernel
  obtain ⟨s, run, live⟩ := map_eq_some_iff.mp ended
  have reached := calls_reach (by simp [unitsFor, coreUnits, unit]) run
  obtain ⟨enough, t, p, returns, answer⟩ :=
    (malloc_answers_iff baseAddress _ (by decide) (growing_fresh _ _)
    (growing_bounded _) s reached 40 (by decide)).mpr (.inr (by decide))
  exact ⟨s, enough, t, p, reached, live, returns, answer⟩

/-- The largest request asks `sbrk` for one unit and is given a block that is not there. One of `2 ^
31` bytes asks for the process to be shrunk. -/
theorem malloc_truncated_request :
    Fresh baseAddress (growing baseAddress (unit * 2 ^ 32)) ∧
    Bounded (growing baseAddress (unit * 2 ^ 32)) ∧
    (∃ t p, malloc baseAddress (growing baseAddress (unit * 2 ^ 32)) 3 start.heap
      (2 ^ 32 - 1) = some (t, p) ∧
      p ≠ 0 ∧ t.calls = [(16, some (baseAddress + unit))] ∧ ¬ Granted t.calls p ∧
      ¬ Answer start (2 ^ 32 - 1) t p) ∧
    ∃ t p, malloc baseAddress (growing baseAddress (unit * 2 ^ 32)) 3 start.heap
      (2 ^ 31) = some (t, p) ∧
      t.calls.map Prod.fst = [-(2 ^ 31 - 16)] := by
  have computed :
      (malloc baseAddress (growing baseAddress (unit * 2 ^ 32)) 3 start.heap (2 ^ 32 - 1)).map
      (fun result => (result.1.calls, result.2)) =
        some ([(16, some (baseAddress + unit))], baseAddress + 2 * unit) := by decide +kernel
  have negative :
      (malloc baseAddress (growing baseAddress (unit * 2 ^ 32)) 3 start.heap (2 ^ 31)).map
      (fun result => result.1.calls.map Prod.fst) = some [-(2 ^ 31 - 16)] := by decide +kernel
  obtain ⟨⟨t, p⟩, ended, facts⟩ := map_eq_some_iff.mp computed
  obtain ⟨calls, place⟩ := Prod.mk.inj facts
  dsimp only at calls place
  have outside : ¬ Granted t.calls p := by
    rintro ⟨bytes, start, member, low, high⟩
    rw [calls] at member
    cases mem_singleton.mp member
    rw [place] at high
    exact absurd high (by decide)
  have real : p ≠ 0 := by
    rw [place]
    decide
  obtain ⟨⟨t', p'⟩, ended', calls'⟩ := map_eq_some_iff.mp negative
  refine ⟨growing_fresh _ _, growing_bounded _,
    ⟨t, p, ended, real, calls, outside, fun answer => ?_⟩, t', p', ended', calls'⟩
  exact outside ((answer.block.resolve_left real) p le_rfl (by omega)).1

end EnhancedXv6.Umalloc
