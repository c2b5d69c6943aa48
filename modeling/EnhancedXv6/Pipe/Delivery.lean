import EnhancedXv6.Memory.Copyin
import EnhancedXv6.Pipe.Pipe

namespace EnhancedXv6.Pipe

open Foundation List Option
open EnhancedXv6.Memory (Kmem Layout System kinit bootSystem smallLayout)

variable {pi : PipeBuffer}

structure Transfer where
  pipe : PipeBuffer
  kmem : Kmem

abbrev TransferM (α : Type) := Program Memory.Panic Transfer α

/-- `copyout` of one byte. -/
def copyoutByte (pagetable va : Nat) (ch : UInt8) : TransferM Int :=
  Program.zoom Transfer.kmem (fun s kmem => { s with kmem }) id
    (Memory.copyout pagetable va (fun _ => ch) 1)

/-- The second loop of `piperead`, with a bound on its rounds. -/
def readLoop (pagetable addr : Nat) (n : Int) : Nat → Nat → TransferM Nat
  | 0, i => return i
  | fuel + 1, i =>
    if i < n then do
      let s ← get
      if s.pipe.nread = s.pipe.nwrite then
        return i
      else
        -- the byte has left the pipe before `copyout` is called
        let ch := s.pipe.data (s.pipe.nread % pipesize)
        set { s with pipe := { s.pipe with nread := (s.pipe.nread + 1) % 2 ^ 32 } }
        let result ← copyoutByte pagetable ((addr + i) % 2 ^ 64) ch
        if result = -1 then
          return i
        else
          readLoop pagetable addr n fuel (i + 1)
    else
      return i

/-- `piperead`, or `none` for a reader that goes to sleep. -/
def piperead (pagetable addr : Nat) (n : Int) (killed : Bool) : TransferM (Option Int) := do
  let s ← get
  if s.pipe.nread = s.pipe.nwrite ∧ s.pipe.writeopen = true then
    return if killed = true then some (-1) else none
  else
    let i ← readLoop pagetable addr n n.toNat 0
    return some i

/-- The bytes that left the pipe are the ones that the caller has been told of. -/
structure Delivered (pagetable addr : Nat) (s t : Transfer) (i : Nat) : Prop where
  nread : t.pipe.nread = (s.pipe.nread + i) % 2 ^ 32
  left : t.pipe.buffered = s.pipe.buffered.drop i
  bytes :
    (List.range i).map (fun j => t.kmem.userByte pagetable (addr + j)) = s.pipe.buffered.take i

/-- The user has a page at each address that the read may come to. -/
def Transfer.Covers (s : Transfer) (pagetable addr : Nat) (n : Int) : Prop :=
  ∀ j : Nat, j < n → j < s.pipe.buffered.length → s.kmem.Accessible pagetable ((addr + j) % 2 ^ 64)

section Loop

variable {layout : Layout} {s t : Transfer} {live : Finset Nat} {r addr i fuel : Nat} {n : Int}

structure PipeBuffer.Words (pi : PipeBuffer) : Prop where
  nread : pi.nread < 2 ^ 32
  nwrite : pi.nwrite < 2 ^ 32

def PipeBuffer.next (pi : PipeBuffer) : PipeBuffer :=
  { pi with nread := (pi.nread + 1) % 2 ^ 32 }

theorem PipeBuffer.Words.next (words : pi.Words) : pi.next.Words :=
  ⟨Nat.mod_lt _ (by decide), words.nwrite⟩

theorem PipeBuffer.Words.buffered (words : pi.Words) (some : pi.nread ≠ pi.nwrite) :
    pi.buffered = pi.data (pi.nread % pipesize) :: pi.next.buffered :=
  ringItems_pop words.nread words.nwrite some

theorem PipeBuffer.Words.length_pos (words : pi.Words) (some : pi.nread ≠ pi.nwrite) :
    0 < pi.buffered.length := by
  rw [words.buffered some, length_cons]
  exact Nat.succ_pos _

theorem PipeBuffer.buffered_empty (none : pi.nread = pi.nwrite) : pi.buffered = [] := by
  apply length_eq_zero_iff.mp
  rw [PipeBuffer.buffered, length_ringItems, ← none, ringCount_self]

/-- What a loop has done that had `n` bytes to go from an address on, and ended after `d` of them.
-/
inductive Outcome (r addr : Nat) (n : Int) (s t : Transfer) (d : Nat) : Prop
  | whole (covers : s.Covers r addr n) (delivered : Delivered r addr s t d)
      (before : ∀ a, a < addr → s.kmem.Accessible r a → t.kmem.userByte r a = s.kmem.userByte r a)
  | torn (gap : ¬ s.Covers r addr n) (nread : t.pipe.nread = (s.pipe.nread + d + 1) % 2 ^ 32)

theorem Outcome.stay (words : s.pipe.Words) (done : ¬ 0 < n ∨ s.pipe.nread = s.pipe.nwrite) :
    Outcome r addr n s s 0 := by
  refine .whole (fun j below inside => ?_) ⟨?_, drop_zero.symm, take_zero.symm⟩ fun a _ _ => rfl
  · rcases done with no | none
    · omega
    · rw [PipeBuffer.buffered_empty none] at inside
      exact absurd inside (Nat.not_lt_zero j)
  · rw [Nat.add_zero, Nat.mod_eq_of_lt words.nread]

theorem Transfer.covers_next {u : Kmem} (words : s.pipe.Words) (some : s.pipe.nread ≠ s.pipe.nwrite)
    (here : s.kmem.Accessible r (addr % 2 ^ 64))
    (same : ∀ a, u.Accessible r a ↔ s.kmem.Accessible r a) :
    Transfer.Covers ⟨s.pipe.next, u⟩ r (addr + 1) (n - 1) ↔ s.Covers r addr n := by
  have length : s.pipe.buffered.length = s.pipe.next.buffered.length + 1 := by
    rw [words.buffered some, length_cons]
  constructor
  · intro covers j below inside
    cases j with
    | zero => exact here
    | succ j =>
      have later :=
        (same _).mp (covers j (by omega) (by change j < s.pipe.next.buffered.length; omega))
      rwa [show addr + 1 + j = addr + (j + 1) by omega] at later
  · intro covers j below inside
    change j < s.pipe.next.buffered.length at inside
    have later := (same _).mpr (covers (j + 1) (by omega) (by omega))
    rwa [show addr + (j + 1) = addr + 1 + j by omega] at later

theorem Outcome.round {u : Kmem} {d : Nat} (words : s.pipe.Words)
    (some : s.pipe.nread ≠ s.pipe.nwrite) (low : addr < 2 ^ 64) (here : s.kmem.Accessible r addr)
    (same : ∀ a, u.Accessible r a ↔ s.kmem.Accessible r a)
    (byte : ∀ a, s.kmem.Accessible r a → u.userByte r a =
      if addr ≤ a ∧ a < addr + 1 then s.pipe.data (s.pipe.nread % pipesize)
        else s.kmem.userByte r a)
    (rest : Outcome r (addr + 1) (n - 1) ⟨s.pipe.next, u⟩ t d) : Outcome r addr n s t (d + 1) := by
  have here' : s.kmem.Accessible r (addr % 2 ^ 64) := by rwa [Nat.mod_eq_of_lt low]
  have covers := Transfer.covers_next (n := n) words some here' same
  have nread (k : Nat) : (s.pipe.next.nread + k) % 2 ^ 32 = (s.pipe.nread + (k + 1)) % 2 ^ 32 := by
    change ((s.pipe.nread + 1) % 2 ^ 32 + k) % 2 ^ 32 = _
    rw [Nat.mod_add_mod, Nat.add_assoc, Nat.add_comm 1 k]
  cases rest with
  | torn gap moved =>
    refine .torn (fun all => gap (covers.mpr all)) (moved.trans ?_)
    rw [Nat.add_assoc, nread, Nat.add_assoc s.pipe.nread (d + 1) 1]
  | whole all delivered before =>
    refine .whole (covers.mp all) ⟨delivered.nread.trans (nread d), ?_, ?_⟩ fun a below there => ?_
    · rw [delivered.left, words.buffered some, drop_succ_cons]
    · have head : t.kmem.userByte r addr = s.pipe.data (s.pipe.nread % pipesize) := by
        rw [before addr (Nat.lt_succ_self _) ((same _).mpr here), byte addr here,
          if_pos ⟨le_rfl, Nat.lt_succ_self _⟩]
      rw [words.buffered some, take_succ_cons, ← delivered.bytes, range_succ_eq_map, map_cons,
        List.map_map, Nat.add_zero, head]
      refine congrArg _ (map_congr_left fun j _ => ?_)
      change t.kmem.userByte r (addr + (j + 1)) = t.kmem.userByte r (addr + 1 + j)
      rw [Nat.add_assoc, Nat.add_comm 1 j]
    · rw [before a (by omega) ((same _).mpr there), byte a there, if_neg (by omega)]

theorem readLoop_meets {node : Memory.Nodes} {books : Memory.Books}
    (sound : Memory.Sound layout s.kmem live node books) (root : r ∈ live) (words : s.pipe.Words)
    (low : addr + i < 2 ^ 64) (enough : n ≤ i + fuel) :
    Meets (readLoop r addr n fuel i) s
      (fun k t => ∃ d, k = i + d ∧ Outcome r (addr + i) (n - i) s t d)
      fun _ => True := by
  induction fuel generalizing s i node books with
  | zero => exact meets_pure.mpr ⟨0, rfl, .stay words (.inl (by omega))⟩
  | succ fuel ih =>
    unfold readLoop
    split
    · rename_i more
      refine meets_bind.mpr (meets_get.mpr ?_)
      split
      · rename_i none
        exact meets_pure.mpr ⟨0, rfl, .stay words (.inr none)⟩
      · rename_i some
        refine meets_bind.mpr (meets_set.mpr (meets_bind.mpr (meets_zoom.mpr ?_)))
        refine meets_self.mono (fun result u copied => ?_) fun _ => id
        rw [Nat.mod_eq_of_lt low] at copied
        obtain ⟨⟨node', books', sound'⟩, status, zero, same, byte⟩ :=
          sound.copyout_bytes root copied
        have here : result = 0 ↔ s.kmem.Accessible r (addr + i) := by
          rw [zero]
          exact ⟨fun all => all 0 Nat.one_pos, fun one j below => by rwa [Nat.lt_one_iff.mp below]⟩
        split
        · rename_i failed
          refine meets_pure.mpr ⟨0, rfl, .torn (fun covers => ?_) (by rw [Nat.add_zero])⟩
          have first := covers 0 (by omega) (words.length_pos some)
          rw [Nat.add_zero, Nat.mod_eq_of_lt low, ← here] at first
          omega
        · rename_i stored
          have done : result = 0 := status.resolve_right stored
          have mapped := here.mp done
          have bound : addr + (i + 1) < 2 ^ 64 := by
            have := mapped.1
            have : Memory.maxva < 2 ^ 64 := by decide
            omega
          refine (ih (s := ⟨s.pipe.next, u⟩) sound' words.next bound (by omega)).mono
            (fun k t ended => ?_) fun _ => id
          obtain ⟨d, rfl, outcome⟩ := ended
          refine ⟨d + 1, by omega, .round words some low mapped same (byte done) ?_⟩
          rwa [Nat.add_assoc, show n - i - 1 = n - ((i + 1 : Nat) : Int) by omega]
    · rename_i no
      exact meets_pure.mpr ⟨0, rfl, .stay words (.inl (by omega))⟩

end Loop

/-- No byte is lost exactly when `copyout` has no address to fail at. -/
theorem piperead_lossless_iff (layout : Layout) (mem : Foundation.Memory) (counts : Nat → Int)
    (u : Kmem) (booted : kinit layout ⟨mem, counts, 0⟩ = .ok ((), u)) (events : List Memory.Event)
    (m : System) (run : exec (System.step layout) (System.start u) events = some m) (p : Nat)
    (q : Memory.Proc) (here : m.procs p = some q) (pi : PipeBuffer) (words : pi.Words) (addr : Nat)
    (low : addr < 2 ^ 64) (n : Int) (killed : Bool) (i : Nat) (t : Transfer)
    (returned : piperead q.pagetable addr n killed ⟨pi, m.kmem⟩ = .ok (some (i : Int), t)) :
    Delivered q.pagetable addr ⟨pi, m.kmem⟩ t i ↔
      Transfer.Covers ⟨pi, m.kmem⟩ q.pagetable addr n := by
  obtain ⟨live, tfs, node, books, shows⟩ := System.valid_run booted run
  have root := (shows.proc here).1
  have meets : Meets (piperead q.pagetable addr n killed) ⟨pi, m.kmem⟩
      (fun result t => ∀ k : Nat, result = some (k : Int) →
        Outcome q.pagetable addr n ⟨pi, m.kmem⟩ t k)
      fun _ => True := by
    unfold piperead
    refine meets_bind.mpr (meets_get.mpr ?_)
    split
    · refine meets_pure.mpr fun k told => ?_
      split at told
      · have := some.inj told
        omega
      · cases told
    · refine meets_bind.mpr ((readLoop_meets (i := 0) shows.sound root words low (by omega)).mono
        (fun k t ended => meets_pure.mpr fun k' told => ?_) fun _ => id)
      obtain ⟨d, rfl, outcome⟩ := ended
      have same := some.inj told
      rw [show k' = d by omega]
      simpa using outcome
  cases meets.result returned i rfl with
  | whole covers delivered => exact iff_of_true delivered covers
  | torn gap nread =>
    refine iff_of_false (fun delivered => ?_) gap
    have moved := delivered.nread.symm.trans nread
    omega

def twoBytes : PipeBuffer :=
  ⟨fun k => if k = 0 then 65 else 66, 0, 2, true, true⟩

/-- Both bytes arrive at the end of the user's page. -/
theorem piperead_lossless_two :
    ∃ u m q t, kinit smallLayout ⟨fun _ => 0, fun _ => 0, 0⟩ = .ok ((), u) ∧
      exec (System.step smallLayout) (System.start u) [.userinit 0 []] = some m ∧
      m.procs 0 = some q ∧
      piperead q.pagetable 4094 2 false ⟨twoBytes, m.kmem⟩ = .ok (some 2, t) ∧
      Transfer.Covers ⟨twoBytes, m.kmem⟩ q.pagetable 4094 2 ∧
      Delivered q.pagetable 4094 ⟨twoBytes, m.kmem⟩ t 2 := by
  have computed : ((bootSystem smallLayout [.userinit 0 []]).bind fun m => (m.procs 0).bind fun q =>
      (piperead q.pagetable 4094 2 false ⟨twoBytes, m.kmem⟩).toOption.map fun out =>
        (out.1, decide (∀ j : Nat, j < 2 → m.kmem.Accessible q.pagetable ((4094 + j) % 2 ^ 64)))) =
      some (some 2, true) := by decide +kernel
  obtain ⟨m, ended, rest⟩ := bind_eq_some_iff.mp computed
  obtain ⟨q, here, rest⟩ := bind_eq_some_iff.mp rest
  obtain ⟨⟨result, t⟩, read, facts⟩ := map_eq_some_iff.mp rest
  obtain ⟨rfl, mapped⟩ := Prod.mk.inj facts
  obtain ⟨u, booted, run⟩ := Memory.bootSystem_some ended
  have returned := ended_of_toOption read
  have covers : Transfer.Covers ⟨twoBytes, m.kmem⟩ q.pagetable 4094 2 :=
    fun j below _ => of_decide_eq_true mapped j (by omega)
  exact ⟨u, m, q, t, booted, run, here, returned, covers,
    (piperead_lossless_iff smallLayout _ _ u booted _ m run 0 q here twoBytes
      ⟨by decide, by decide⟩ 4094
      (by decide) 2 false 2 t returned).mpr covers⟩

/-- One byte fits on the user's last page. The call returns 1, and the other byte is gone. -/
theorem piperead_drops_byte :
    ∃ u m q t, kinit smallLayout ⟨fun _ => 0, fun _ => 0, 0⟩ = .ok ((), u) ∧
      exec (System.step smallLayout) (System.start u) [.userinit 0 []] = some m ∧
      m.procs 0 = some q ∧
      piperead q.pagetable 4095 2 false ⟨twoBytes, m.kmem⟩ = .ok (some 1, t) ∧
      twoBytes.buffered = [65, 66] ∧
      t.pipe.buffered = [] ∧ t.pipe.nread = 2 ∧
      ¬ Delivered q.pagetable 4095 ⟨twoBytes, m.kmem⟩ t 1 := by
  have computed : ((bootSystem smallLayout [.userinit 0 []]).bind fun m => (m.procs 0).bind fun q =>
      (piperead q.pagetable 4095 2 false ⟨twoBytes, m.kmem⟩).toOption.map fun out =>
        (out.1, out.2.pipe.buffered, out.2.pipe.nread)) = some (some 1, [], 2) := by decide +kernel
  obtain ⟨m, ended, rest⟩ := bind_eq_some_iff.mp computed
  obtain ⟨q, here, rest⟩ := bind_eq_some_iff.mp rest
  obtain ⟨⟨result, t⟩, read, facts⟩ := map_eq_some_iff.mp rest
  obtain ⟨rfl, gone⟩ := Prod.mk.inj facts
  obtain ⟨left, nread⟩ := Prod.mk.inj gone
  obtain ⟨u, booted, run⟩ := Memory.bootSystem_some ended
  refine ⟨u, m, q, t, booted, run, here, ended_of_toOption read, by decide +kernel, left, nread,
    fun delivered => ?_⟩
  have moved : 2 = (0 + 1) % 2 ^ 32 := nread.symm.trans delivered.nread
  omega

end EnhancedXv6.Pipe
