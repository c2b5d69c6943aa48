import EnhancedXv6.Virtio.Protocol

namespace EnhancedXv6.Virtio

open Foundation Function List

variable {p : Pc}

def Pc.descs : Pc → List Nat
  | .format _ i j k | .publish _ i j k | .check _ i j k | .asleep _ i j k | .wake _ i j k
  | .finish _ i j k => [i, j, k]
  | _ => []

def Pc.chain : Pc → Option (Request × Nat × Nat × Nat)
  | .publish r i j k | .check r i j k | .asleep r i j k | .wake r i j k | .finish r i j k =>
    some (r, i, j, k)
  | _ => none

/-- The request of a caller and the first descriptor of its chain, once the device sees it. -/
def Pc.head : Pc → Option (Request × Nat)
  | .check r i _ _ | .asleep r i _ _ | .wake r i _ _ | .finish r i _ _ => some (r, i)
  | _ => none

def Pc.Locked : Pc → Prop
  | .alloc _ | .format _ _ _ _ | .publish _ _ _ _ | .check _ _ _ _ | .finish _ _ _ _ => True
  | _ => False

/-- The caller has set `b->disk` and has not yet seen it cleared. -/
def Pc.Waiting : Pc → Prop
  | .publish _ _ _ _ | .asleep _ _ _ _ => True
  | _ => False

def Pc.Finishing : Pc → Prop
  | .finish _ _ _ _ => True
  | _ => False

/-- The entry of the avail ring that a caller is about to publish. -/
def Pc.entry : Pc → Option Nat
  | .publish _ i _ _ => some i
  | _ => none

/-- The chains in the avail ring that the device has not found yet. -/
def State.avail (s : State) : List Nat := ringItems s.availRing num wrap s.devIdx s.availIdx

/-- The completions in the used ring that the driver has not handled yet. -/
def State.used (s : State) : List Nat := ringItems s.usedRing num wrap s.seenIdx s.usedIdx

/-- The three descriptors of a chain, as the device reads them. -/
structure Chained (s : State) (b : Nat) (r : Request) (i j k : Nat) : Prop where
  header : s.desc i = { addr := .op i, flagNext := true, next := j }
  data : s.desc j = { addr := .data b, flagNext := true, flagWrite := !r.write, next := k }
  status : s.desc k = { addr := .status i, flagWrite := true }
  op : s.ops i = r
  buf : (s.info i).b = some b

/-- How far the request of a caller is: not executed, executed, handled. -/
structure Counted (s : State) (b : Nat) : Prop where
  none : (s.pc b).head = none →
    s.issued b = s.served b ∧ (s.served b).length = s.handled b ∧ s.handled b = s.freed b
  waiting : ∀ r i, (s.pc b).head = some (r, i) → i ∈ s.avail ++ s.working →
    s.issued b = s.served b ++ [r] ∧ (s.served b).length = s.handled b ∧ s.handled b = s.freed b
  executed : ∀ r i, (s.pc b).head = some (r, i) → i ∈ s.done ++ s.used →
    s.issued b = s.served b ∧ (s.served b).length = s.handled b + 1 ∧ s.handled b = s.freed b
  handled : ∀ r i, (s.pc b).head = some (r, i) → s.busy b = false →
    s.issued b = s.served b ∧ (s.served b).length = s.handled b ∧ s.handled b = s.freed b + 1

structure Inv (s : State) : Prop where
  locked : ∀ b, (s.pc b).Locked → s.lock = some (.caller b)
  held : ∀ b, ∀ i ∈ (s.pc b).descs, i < num ∧ s.free i = false
  distinct : ∀ b, (s.pc b).descs.Nodup
  apart : ∀ b c i, i ∈ (s.pc b).descs → i ∈ (s.pc c).descs → b = c
  chained : ∀ b r i j k, (s.pc b).chain = some (r, i, j, k) → Chained s b r i j k
  inside : s.availIdx < wrap ∧ s.usedIdx < wrap ∧ s.seenIdx < wrap ∧ s.devIdx < wrap
  once : (s.avail ++ s.working ++ (s.done ++ s.used)).Nodup
  pending : ∀ i, i ∈ s.avail ++ s.working ++ (s.done ++ s.used) ↔
    ∃ b r, (s.pc b).head = some (r, i) ∧ s.busy b = true
  status : ∀ i ∈ s.done ++ s.used, (s.info i).status = 0
  waiting : ∀ b, (s.pc b).Waiting → s.busy b = true
  finishing : ∀ b, (s.pc b).Finishing → s.busy b = false
  entry : ∀ b i, (s.pc b).entry = some i → s.availRing (s.availIdx % num) = i
  counted : ∀ b, Counted s b

theorem Counted.congr (counted : Counted s b) (head : (t.pc b).head = (s.pc b).head)
    (issued : t.issued b = s.issued b) (served : t.served b = s.served b)
    (handled : t.handled b = s.handled b) (freed : t.freed b = s.freed b)
    (front : ∀ r i, (s.pc b).head = some (r, i) → i ∈ t.avail ++ t.working →
      i ∈ s.avail ++ s.working)
    (back : ∀ r i, (s.pc b).head = some (r, i) → i ∈ t.done ++ t.used → i ∈ s.done ++ s.used)
    (busy : ∀ r i, (s.pc b).head = some (r, i) → t.busy b = false → s.busy b = false) :
    Counted t b := by
  constructor
  all_goals rw [head, issued, served, handled, freed]
  · exact counted.none
  · intro r i found member
    exact counted.waiting r i found (front r i found member)
  · intro r i found member
    exact counted.executed r i found (back r i found member)
  · intro r i found idle
    exact counted.handled r i found (busy r i found idle)

theorem Counted.quiet (hidden : (s.pc b).head = .none)
    (same : s.issued b = s.served b ∧ (s.served b).length = s.handled b ∧
      s.handled b = s.freed b) : Counted s b := by
  refine ⟨fun _ => same, fun r i found => ?_, fun r i found => ?_, fun r i found => ?_⟩
  all_goals
    rw [hidden] at found
    cases found

theorem Chained.congr (chained : Chained s b r i j k) (desc : ∀ x ∈ [i, j, k], t.desc x = s.desc x)
    (op : t.ops i = s.ops i) (buf : (t.info i).b = (s.info i).b) : Chained t b r i j k where
  header := (desc i (by simp)).trans chained.header
  data := (desc j (by simp)).trans chained.data
  status := (desc k (by simp)).trans chained.status
  op := op.trans chained.op
  buf := buf.trans chained.buf

structure Same (p q : Pc) : Prop where
  descs : p.descs = q.descs
  chain : p.chain = q.chain
  head : p.head = q.head

theorem Same.trans {p q r : Pc} (first : Same p q) (second : Same q r) : Same p r :=
  ⟨first.descs.trans second.descs, first.chain.trans second.chain, first.head.trans second.head⟩

theorem Inv.move (inv : Inv s) (pc : Nat → Pc) (lock : Option Holder)
    (same : ∀ b, Same (pc b) (s.pc b)) (locked : ∀ b, (pc b).Locked → lock = some (.caller b))
    (waiting : ∀ b, (pc b).Waiting → s.busy b = true)
    (finishing : ∀ b, (pc b).Finishing → s.busy b = false)
    (entry : ∀ b i, (pc b).entry = some i → s.availRing (s.availIdx % num) = i) :
    Inv { s with pc := pc, lock := lock } where
  locked := locked
  held b := (same b).descs ▸ inv.held b
  distinct b := (same b).descs ▸ inv.distinct b
  apart b c i := by
    intro one two
    have one' : i ∈ (s.pc b).descs := (same b).descs ▸ one
    have two' : i ∈ (s.pc c).descs := (same c).descs ▸ two
    exact inv.apart b c i one' two'
  chained b r i j k found := by
    exact (inv.chained b r i j k ((same b).chain ▸ found)).congr (fun _ _ => rfl) rfl rfl
  inside := inv.inside
  once := inv.once
  pending i := by
    refine (inv.pending i).trans (exists_congr fun b => exists_congr fun r => ?_)
    rw [← (same b).head]
  status := inv.status
  waiting := waiting
  finishing := finishing
  entry := entry
  counted b :=
    (inv.counted b).congr (same b).head rfl rfl rfl rfl (fun _ _ _ => id) (fun _ _ _ => id)
    (fun _ _ _ => id)

theorem Inv.goto (inv : Inv s) (b : Nat) (p : Pc) (lock : Option Holder) (same : Same p (s.pc b))
    (own : p.Locked → lock = some (.caller b))
    (others : ∀ c, c ≠ b → (s.pc c).Locked → lock = some (.caller c))
    (waiting : p.Waiting → s.busy b = true) (finishing : p.Finishing → s.busy b = false)
    (entry : ∀ i, p.entry = some i → s.availRing (s.availIdx % num) = i) :
    Inv (s.goto b p lock) := by
  refine inv.move _ lock (fun c => ?_) (fun c => ?_) (fun c => ?_) (fun c => ?_) (fun c => ?_)
  all_goals by_cases here : c = b
  · subst c
    simpa using same
  · simpa [here] using (⟨rfl, rfl, rfl⟩ : Same (s.pc c) (s.pc c))
  · subst c
    simpa using own
  · simpa [here] using others c here
  · subst c
    simpa using waiting
  · simpa [here] using inv.waiting c
  · subst c
    simpa using finishing
  · simpa [here] using inv.finishing c
  · subst c
    simpa using entry
  · simpa [here] using inv.entry c

theorem Inv.alone (inv : Inv s) (mine : (s.pc b).Locked) (other : c ≠ b) : ¬ (s.pc c).Locked := by
  intro theirs
  have one := inv.locked b mine
  rw [inv.locked c theirs] at one
  exact other (Holder.caller.inj (Option.some.inj one))

theorem Inv.unlocked (inv : Inv s) (unlocked : s.lock = none) (c : Nat) : ¬ (s.pc c).Locked := by
  intro theirs
  rw [inv.locked c theirs] at unlocked
  cases unlocked

theorem Pc.head_mem (found : p.head = some (r, i)) : i ∈ p.descs := by
  cases p <;> simp_all [head, descs]

theorem Pc.head_chain (found : p.head = some (r, i)) :
    ∃ j k, p.chain = some (r, i, j, k) ∧ p.descs = [i, j, k] := by
  cases p <;> simp_all [head, chain, descs]

def State.queue (s : State) : List Nat := s.avail ++ s.working ++ (s.done ++ s.used)

theorem Inv.queue_lt (inv : Inv s) (queued : i ∈ s.queue) : i < num := by
  obtain ⟨c, r, head, _⟩ := (inv.pending i).mp queued
  exact (inv.held c i (Pc.head_mem head)).1

theorem Inv.room (inv : Inv s) (small : i < num) (absent : i ∉ s.queue) : s.queue.length < num := by
  have distinct : (i :: s.queue).Nodup := nodup_cons.mpr ⟨absent, inv.once⟩
  have within : (i :: s.queue) ⊆ range num := by
    intro x member
    rcases mem_cons.mp member with rfl | queued
    · exact mem_range.mpr small
    · exact mem_range.mpr (inv.queue_lt queued)
  have bound := (subperm_of_subset distinct within).length_le
  simpa using bound

theorem Inv.avail_room (inv : Inv s) (small : i < num) (absent : i ∉ s.queue) :
    ringCount wrap s.devIdx s.availIdx < num := by
  have room := inv.room small absent
  unfold State.queue State.avail at room
  simp only [length_append, length_ringItems] at room
  omega

theorem allocDesc_spec (found : allocDesc s = some (i, t)) :
    i < num ∧ s.free i = true ∧ t = { s with free := update s.free i false } := by
  simp only [allocDesc, Option.map_eq_some_iff, Prod.mk.injEq] at found
  obtain ⟨x, first, rfl, rfl⟩ := found
  exact ⟨mem_range.mp (mem_of_find?_eq_some first), find?_some first, rfl⟩

theorem freeDesc_spec (small : i < num) (used : s.free i = false) : freeDesc s i = .ok { s with
      desc := update s.desc i {}
      free := update s.free i true
      pc := fun b => (s.pc b).wakeFree } := by
  unfold freeDesc
  rw [if_neg (by omega), if_neg (by simp [used])]

theorem Same.wakeFree (p : Pc) : Same p.wakeFree p := by
  cases p <;> exact ⟨rfl, rfl, rfl⟩

theorem Pc.wakeFree_locked : p.wakeFree.Locked ↔ p.Locked := by
  cases p <;> exact Iff.rfl

theorem Pc.wakeFree_waiting : p.wakeFree.Waiting ↔ p.Waiting := by
  cases p <;> exact Iff.rfl

theorem Pc.wakeFree_finishing : p.wakeFree.Finishing ↔ p.Finishing := by
  cases p <;> exact Iff.rfl

theorem Pc.wakeFree_entry : p.wakeFree.entry = p.entry := by
  cases p <;> rfl

theorem Inv.wakeFree (inv : Inv s) : Inv { s with pc := fun b => (s.pc b).wakeFree } :=
  inv.move _ s.lock (fun b => Same.wakeFree (s.pc b))
    (fun b holds => inv.locked b (Pc.wakeFree_locked.mp holds))
    (fun b waits => inv.waiting b (Pc.wakeFree_waiting.mp waits))
    (fun b ends => inv.finishing b (Pc.wakeFree_finishing.mp ends))
    (fun b i found => inv.entry b i (Pc.wakeFree_entry ▸ found))

theorem Pc.chain_descs (found : p.chain = some (r, i, j, k)) : p.descs = [i, j, k] := by
  cases p <;> simp_all [chain, descs]

/-- Descriptors that nobody has may change, and be taken or given back. -/
theorem Inv.redesc (inv : Inv s) (desc : Nat → Desc) (free : Nat → Bool)
    (kept : ∀ b, ∀ i ∈ (s.pc b).descs, desc i = s.desc i ∧ free i = false) :
    Inv { s with desc := desc, free := free } where
  locked := inv.locked
  held b i member := ⟨(inv.held b i member).1, (kept b i member).2⟩
  distinct := inv.distinct
  apart := inv.apart
  chained b r i j k found := by
    refine (inv.chained b r i j k found).congr (fun x member => ?_) rfl rfl
    exact (kept b x (Pc.chain_descs found ▸ member)).1
  inside := inv.inside
  once := inv.once
  pending := inv.pending
  status := inv.status
  waiting := inv.waiting
  finishing := inv.finishing
  entry := inv.entry
  counted b := (inv.counted b).congr rfl rfl rfl rfl rfl (fun _ _ _ => id) (fun _ _ _ => id)
    (fun _ _ _ => id)

theorem Pc.entry_locked (found : p.entry = some i) : p.Locked := by
  cases p <;> simp_all [entry, Pc.Locked]

section

variable (inv : Inv s)

include inv

theorem Inv.foreign (other : c ≠ b) (theirs : i ∈ (s.pc c).descs) : i ∉ (s.pc b).descs :=
  fun mine => other (inv.apart c b i theirs mine)

/-- A caller that is not waiting for the device has nothing in the queue. -/
theorem Inv.queue_others (out : ∀ r i, (s.pc b).head = some (r, i) → s.busy b = false) :
    x ∈ s.queue ↔ ∃ c, c ≠ b ∧ ∃ r, (s.pc c).head = some (r, x) ∧ s.busy c = true := by
  refine (inv.pending x).trans
    ⟨fun ⟨c, r, head, busy⟩ => ⟨c, ?_, r, head, busy⟩, fun ⟨c, _, rest⟩ => ⟨c, rest⟩⟩
  rintro rfl
  rw [out r x head] at busy
  cases busy

/-- A descriptor of a caller that is not waiting for the device is not in the queue. -/
theorem Inv.not_queued (mine : i ∈ (s.pc b).descs)
    (out : ∀ r i, (s.pc b).head = some (r, i) → s.busy b = false) : i ∉ s.queue := by
  intro queued
  obtain ⟨c, other, r, head, _⟩ := (inv.queue_others out).mp queued
  exact inv.foreign other (Pc.head_mem head) mine

/-- One caller moves while no other has the lock, and may take, write or give up descriptors
that no other has. What is left to show is about this caller, and about the queue. -/
theorem Inv.advance (alone : ∀ c, c ≠ b → ¬ (s.pc c).Locked)
    (pc : t.pc = update s.pc b p)
    (frame : ∀ c, c ≠ b → ∀ x ∈ (s.pc c).descs, x ∉ p.descs ∧ t.free x = false ∧
      t.desc x = s.desc x ∧
      t.ops x = s.ops x ∧ (t.info x).b = (s.info x).b)
    (busy : ∀ c, c ≠ b → t.busy c = s.busy c)
    (ghosts : ∀ c, c ≠ b → t.issued c = s.issued c ∧ t.served c = s.served c ∧
      t.handled c = s.handled c ∧
      t.freed c = s.freed c)
    (front : ∀ x, x ∉ p.descs → x ∈ t.avail ++ t.working → x ∈ s.avail ++ s.working)
    (back : ∀ x, x ∈ t.done ++ t.used → x ∈ s.done ++ s.used)
    (locked : p.Locked → t.lock = some (.caller b))
    (held : ∀ x ∈ p.descs, x < num ∧ t.free x = false) (distinct : p.descs.Nodup)
    (chained : ∀ r i j k, p.chain = some (r, i, j, k) → Chained t b r i j k)
    (inside : t.availIdx < wrap ∧ t.usedIdx < wrap ∧ t.seenIdx < wrap ∧ t.devIdx < wrap)
    (once : t.queue.Nodup)
    (pending : ∀ x, x ∈ t.queue ↔ (∃ r, p.head = some (r, x) ∧ t.busy b = true) ∨
      ∃ c, c ≠ b ∧ ∃ r, (s.pc c).head = some (r, x) ∧ s.busy c = true)
    (status : ∀ i ∈ t.done ++ t.used, (t.info i).status = 0)
    (waiting : p.Waiting → t.busy b = true) (finishing : p.Finishing → t.busy b = false)
    (entry : ∀ i, p.entry = some i → t.availRing (t.availIdx % num) = i) (counted : Counted t b) :
    Inv t := by
  have now : t.pc b = p := by rw [pc, update_self]
  have elsewhere (c : Nat) (other : c ≠ b) : t.pc c = s.pc c := by rw [pc, update_of_ne other]
  refine ⟨?_, ?_, ?_, fun c d x one two => ?_, ?_, inside, once, fun x => (pending x).trans ?_,
    status, ?_, ?_, ?_, fun c => ?_⟩
  · rw [pc, forall_update_iff s.pc fun c p => p.Locked → t.lock = some (.caller c)]
    exact ⟨locked, fun c other holds => absurd holds (alone c other)⟩
  · rw [pc, forall_update_iff s.pc fun _ p => ∀ x ∈ p.descs, x < num ∧ t.free x = false]
    exact ⟨held, fun c other x member => ⟨(inv.held c x member).1, (frame c other x member).2.1⟩⟩
  · rw [pc, forall_update_iff s.pc fun _ p => p.descs.Nodup]
    exact ⟨distinct, fun c _ => inv.distinct c⟩
  · by_cases first : c = b
    · by_cases second : d = b
      · rw [first, second]
      · rw [first, now] at one
        rw [elsewhere d second] at two
        exact absurd one (frame d second x two).1
    · rw [elsewhere c first] at one
      by_cases second : d = b
      · rw [second, now] at two
        exact absurd two (frame c first x one).1
      · rw [elsewhere d second] at two
        exact inv.apart c d x one two
  · rw [pc, forall_update_iff s.pc fun c p => ∀ r i j k, p.chain = some (r, i, j, k) →
      Chained t c r i j k]
    refine ⟨chained, fun c other r i j k found => ?_⟩
    have kept (x : Nat) (member : x ∈ [i, j, k]) :=
      (frame c other x (Pc.chain_descs found ▸ member)).2.2
    have first := (kept i (by simp)).2
    exact (inv.chained c r i j k found).congr (fun x member => (kept x member).1) first.1 first.2
  · constructor
    · rintro (⟨r, head, waits⟩ | ⟨c, other, r, head, waits⟩)
      · exact ⟨b, r, now ▸ head, waits⟩
      · exact ⟨c, r, elsewhere c other ▸ head, (busy c other).trans waits⟩
    · rintro ⟨c, r, head, waits⟩
      by_cases own : c = b
      · subst own
        exact .inl ⟨r, now ▸ head, waits⟩
      · exact .inr ⟨c, own, r, elsewhere c own ▸ head, (busy c own).symm.trans waits⟩
  · rw [pc, forall_update_iff s.pc fun c p => p.Waiting → t.busy c = true]
    exact ⟨waiting, fun c other waits => (busy c other).trans (inv.waiting c waits)⟩
  · rw [pc, forall_update_iff s.pc fun c p => p.Finishing → t.busy c = false]
    exact ⟨finishing, fun c other ends => (busy c other).trans (inv.finishing c ends)⟩
  · rw [pc, forall_update_iff s.pc fun _ p => ∀ i, p.entry = some i →
      t.availRing (t.availIdx % num) = i]
    exact ⟨entry, fun c other i found => absurd (Pc.entry_locked found) (alone c other)⟩
  · by_cases own : c = b
    · rw [own]
      exact counted
    · obtain ⟨issued, served, handled, freed⟩ := ghosts c own
      refine (inv.counted c).congr (by rw [elsewhere c own]) issued served handled freed
        (fun r x head => ?_)
        (fun _ x _ => back x) fun _ _ _ => busy c own ▸ id
      exact front x (frame c own x (Pc.head_mem head)).1

theorem Inv.taken (here : s.pc b = .alloc r) (distinct : [i, j, k].Nodup)
    (mine : ∀ x ∈ [i, j, k], x < num ∧ s.free x = true) (free : Nat → Bool)
    (now : ∀ x, free x = if x ∈ [i, j, k] then false else s.free x) :
    Inv ({ s with free := free }.goto b (.format r i j k) s.lock) := by
  have own : (s.pc b).Locked := by rw [here]; trivial
  have hidden : (s.pc b).head = none := by rw [here]; rfl
  have theirs (c x : Nat) (member : x ∈ (s.pc c).descs) : x ∉ [i, j, k] := by
    intro inside
    have held := (inv.held c x member).2
    rw [(mine x inside).2] at held
    cases held
  refine inv.advance (fun c => inv.alone own) rfl
    (fun c _ x member => ⟨theirs c x member, ?_, rfl, rfl, rfl⟩)
    (fun _ _ => rfl) (fun _ _ => ⟨rfl, rfl, rfl, rfl⟩) (fun _ _ => id) (fun _ => id)
    (fun _ => inv.locked b own)
    (fun x member => ⟨(mine x member).1, (now x).trans (if_pos member)⟩) distinct
    (fun _ _ _ _ found => by cases found) inv.inside inv.once
    (fun x => ?_) inv.status False.elim False.elim
    (fun _ found => by cases found)
      (.quiet (by simp [State.goto, Pc.head]) ((inv.counted b).none hidden))
  · exact (now x).trans ((if_neg (theirs c x member)).trans (inv.held c x member).2)
  · refine (inv.queue_others (by simp [hidden])).trans ⟨.inr, fun found => found.resolve_left ?_⟩
    rintro ⟨_, head, _⟩
    cases head

theorem Inv.nobody (unused : s.free i = true) (b : Nat) : i ∉ (s.pc b).descs := by
  intro member
  have held := (inv.held b i member).2
  rw [unused] at held
  cases held

theorem Inv.mark (unused : s.free i = true) : Inv { s with free := update s.free i false } := by
  refine inv.redesc s.desc _ fun b x member => ⟨rfl, ?_⟩
  have different : x ≠ i := fun same => inv.nobody unused b (same ▸ member)
  simp [different, (inv.held b x member).2]

theorem Inv.unmark (small : i < num) (used : s.free i = false) (nobody : ∀ b, i ∉ (s.pc b).descs) :
    ∃ t, freeDesc s i = .ok t ∧ Inv t ∧ t.free = update s.free i true ∧
      (∀ c, Same (t.pc c) (s.pc c)) ∧ ∀ c r, s.pc c = .alloc r → t.pc c = .alloc r := by
  refine ⟨_, freeDesc_spec small used, ?_, rfl, fun c => Same.wakeFree _,
    fun c r here => congrArg Pc.wakeFree here⟩
  refine (inv.redesc (update s.desc i {}) (update s.free i true)
    fun b x member => ?_).wakeFree
  have different : x ≠ i := fun same => nobody b (same ▸ member)
  simp [different, (inv.held b x member).2]

end

/-- No descriptor is lost: one that is not free belongs to a caller. -/
def State.Whole (s : State) : Prop :=
  ∀ i < num, s.free i = false → ∃ b, i ∈ (s.pc b).descs

theorem State.Whole.congr {s t : State} (whole : s.Whole)
    (free : ∀ i, t.free i = false → s.free i = false)
    (descs : ∀ b, (t.pc b).descs = (s.pc b).descs) : t.Whole := by
  intro i small used
  obtain ⟨b, member⟩ := whole i small (free i used)
  exact ⟨b, by rw [descs b]; exact member⟩

theorem State.goto_descs {s : State} (same : p.descs = (s.pc b).descs) (lock : Option Holder)
    (c : Nat) : ((s.goto b p lock).pc c).descs = (s.pc c).descs := by
  by_cases own : c = b
  · simp [goto, own, same]
  · simp [goto, own]

/-- `alloc3_desc` has given back what it had taken, with the `wakeup` of each `free_desc`. -/
structure GivenBack (s t : State) : Prop where
  inv : Inv t
  free : t.free = s.free
  same : ∀ c, Same (t.pc c) (s.pc c)
  alloc : ∀ c r, s.pc c = .alloc r → t.pc c = .alloc r

structure Three (s t : State) (i j k : Nat) : Prop where
  state : t = { s with free := t.free }
  distinct : [i, j, k].Nodup
  mine : ∀ x ∈ [i, j, k], x < num ∧ s.free x = true
  now : ∀ x, t.free x = if x ∈ [i, j, k] then false else s.free x

theorem free_of_marked {free : Nat → Bool} (unused : update free i false j = true) :
    j ≠ i ∧ free j = true := by
  have differ : j ≠ i := by
    rintro rfl
    simp at unused
  exact ⟨differ, by rwa [update_of_ne differ] at unused⟩

theorem unmarked {free : Nat → Bool} (unused : free i = true) :
    update (update free i false) i true = free := by
  rw [update_idem, ← unused, update_eq_self]

theorem three_of_marked (smallI : i < num) (freeI : s.free i = true) (smallJ : j < num)
    (freeJ : update s.free i false j = true) (smallK : k < num)
    (freeK : update (update s.free i false) j false k = true) :
    Three s { s with free := update (update (update s.free i false) j false) k false } i j k := by
  obtain ⟨differ, freeJ⟩ := free_of_marked freeJ
  obtain ⟨differJ, freeK⟩ := free_of_marked freeK
  obtain ⟨differI, freeK⟩ := free_of_marked freeK
  refine ⟨rfl, by simp [differ.symm, differI.symm, differJ.symm], fun x member => ?_, fun x => ?_⟩
  · simp only [mem_cons, not_mem_nil, or_false] at member
    rcases member with rfl | rfl | rfl
    · exact ⟨smallI, freeI⟩
    · exact ⟨smallJ, freeJ⟩
    · exact ⟨smallK, freeK⟩
  · by_cases one : x = i <;> by_cases two : x = j <;> by_cases three : x = k <;>
      simp [update_apply, one, two, three]

theorem Inv.alloc3Desc (inv : Inv s) : ∃ t result, alloc3Desc s = .ok (t, result) ∧
    (result = none ∧ GivenBack s t ∨ ∃ i j k, result = some (i, j, k) ∧ Three s t i j k) := by
  unfold Virtio.alloc3Desc
  cases first : allocDesc s with
  | none => exact ⟨s, none, rfl, .inl ⟨rfl, inv, rfl, fun _ => ⟨rfl, rfl, rfl⟩, fun _ _ => id⟩⟩
  | some pair =>
    obtain ⟨i, s1⟩ := pair
    obtain ⟨smallI, freeI, rfl⟩ := allocDesc_spec first
    have inv1 := inv.mark freeI
    dsimp only
    cases second : allocDesc { s with free := update s.free i false } with
    | none =>
      obtain ⟨t, freed, invT, freeT, same, kept⟩ :=
        inv1.unmark smallI (update_self _ _ _) (inv.nobody freeI)
      refine ⟨t, none, by rw [freed]; rfl, .inl ⟨rfl, invT, ?_, same, kept⟩⟩
      exact freeT.trans (unmarked freeI)
    | some pair =>
      obtain ⟨j, s2⟩ := pair
      obtain ⟨smallJ, freeJ, rfl⟩ := allocDesc_spec second
      obtain ⟨differ, wasFree⟩ := free_of_marked freeJ
      have inv2 := inv1.mark freeJ
      dsimp only
      cases third : allocDesc { s with free := update (update s.free i false) j false } with
      | none =>
        obtain ⟨t, freedI, invT, freeT, same, kept⟩ := inv2.unmark smallI
          ((update_of_ne differ.symm _ _).trans (update_self _ _ _)) (inv.nobody freeI)
        have nobody (c : Nat) : j ∉ (t.pc c).descs := by
          rw [(same c).descs]
          exact inv.nobody wasFree c
        obtain ⟨u, freedJ, invU, freeU, same', kept'⟩ :=
          invT.unmark smallJ (by simp [freeT, differ]) nobody
        refine ⟨u, none, by rw [freedI]; simp [Except.bind, Except.map, freedJ],
          .inl ⟨rfl, invU, ?_, fun c => (same' c).trans (same c),
            fun c r here => kept' c r (kept c r here)⟩⟩
        rw [freeU, freeT, update_comm differ, unmarked freeI, unmarked wasFree]
      | some pair =>
        obtain ⟨k, s3⟩ := pair
        obtain ⟨smallK, freeK, rfl⟩ := allocDesc_spec third
        exact ⟨_, _, rfl,
          .inr ⟨i, j, k, rfl, three_of_marked smallI freeI smallJ freeJ smallK freeK⟩⟩

/-- The first loop of `virtio_disk_rw`: three descriptors, or sleep with none. -/
theorem Inv.alloc (inv : Inv s) (here : s.pc b = .alloc r) :
    ∃ t, s.caller b = some (.ok t) ∧ Inv t ∧ (s.Whole → t.Whole) := by
  obtain ⟨t, result, ended, outcome⟩ := inv.alloc3Desc
  simp only [State.caller, here, ended]
  rcases outcome with ⟨rfl, back⟩ | ⟨i, j, k, rfl, three⟩
  · have hereT := back.alloc b r here
    refine ⟨_, rfl, ?_, fun whole => ?_⟩
    · refine back.inv.goto b _ none (by rw [hereT]; exact ⟨rfl, rfl, rfl⟩) False.elim
        (fun c other holds => ?_)
        False.elim False.elim (fun i found => by cases found)
      exact absurd holds (back.inv.alone (by rw [hereT]; trivial) other)
    · refine whole.congr (fun x used => back.free ▸ used) fun c => ?_
      exact (State.goto_descs (by rw [hereT]; rfl) none c).trans (back.same c).descs
  · rw [three.state]
    refine ⟨_, rfl, inv.taken here three.distinct three.mine _ three.now,
      fun whole x small used => ?_⟩
    by_cases mine : x ∈ [i, j, k]
    · exact ⟨b, by simpa [State.goto, Pc.descs] using mine⟩
    · obtain ⟨c, member⟩ := whole x small ((if_neg mine).symm.trans ((three.now x).symm.trans used))
      have other : c ≠ b := by
        rintro rfl
        simp [here, Pc.descs] at member
      exact ⟨c, by simpa [State.goto, other] using member⟩

/-- A request that is not published yet has room in the ring and is not queued. -/
theorem Inv.unpublished (inv : Inv s) (mine : i ∈ (s.pc b).descs) (hidden : (s.pc b).head = none) :
    (∀ r i, (s.pc b).head = some (r, i) → s.busy b = false) ∧ i ∉ s.queue ∧
      ringCount wrap s.devIdx s.availIdx < num := by
  have out : ∀ r i, (s.pc b).head = some (r, i) → s.busy b = false := by simp [hidden]
  have absent := inv.not_queued mine out
  exact ⟨out, absent, inv.avail_room (inv.held b i mine).1 absent⟩

theorem Inv.format (inv : Inv s) (here : s.pc b = .format r i j k) :
    Inv ((s.format b r i j k).goto b (.publish r i j k) s.lock) := by
  have descs : (s.pc b).descs = (Pc.publish r i j k).descs := by rw [here]; rfl
  have own : (s.pc b).Locked := by rw [here]; trivial
  have hidden : (s.pc b).head = none := by rw [here]; rfl
  have mine : i ∈ (s.pc b).descs := by simp [here, Pc.descs]
  obtain ⟨out, absent, room⟩ := inv.unpublished mine hidden
  have distinct := descs ▸ inv.distinct b
  have different := distinct
  simp only [Pc.descs, nodup_cons, mem_cons, not_mem_nil, or_false, not_or] at different
  obtain ⟨⟨ij, ik⟩, jk, _⟩ := different
  have avail : ((s.format b r i j k).goto b (.publish r i j k) s.lock).avail = s.avail :=
    ringItems_spare i (by decide) inv.inside.2.2.2 inv.inside.1 room
  have queue : ((s.format b r i j k).goto b (.publish r i j k) s.lock).queue = s.queue := by
    rw [State.queue, avail]
    rfl
  refine inv.advance (fun c => inv.alone own) rfl (fun c other x member => ?_) (fun c other => ?_)
    (fun _ _ => ⟨rfl, rfl, rfl, rfl⟩) (fun x _ => by rw [avail]; exact id) (fun _ => id)
    (fun _ => inv.locked b own)
    (descs ▸ inv.held b) distinct (fun r' i' j' k' found => ?_) inv.inside
    (queue ▸ inv.once) (fun x => ?_)
    (fun x member => ?_) (fun _ => update_self ..) False.elim (fun x found => ?_)
    (.quiet (by simp [State.goto, Pc.head]) ((inv.counted b).none hidden))
  · have foreign := descs ▸ inv.foreign other member
    refine ⟨foreign, (inv.held c x member).2, ?_⟩
    simp only [Pc.descs, mem_cons, not_mem_nil, or_false, not_or] at foreign
    simp [State.goto, State.format, foreign]
  · simp [State.goto, State.format, other]
  · cases found
    constructor <;> simp [State.goto, State.format, ij, ik, jk]
  · rw [queue]
    refine (inv.queue_others out).trans ⟨.inr, fun found => found.resolve_left ?_⟩
    rintro ⟨_, head, _⟩
    cases head
  · have different : x ≠ i := by
      rintro rfl
      exact absent (mem_append_right _ member)
    simpa [State.goto, State.format, different] using inv.status x member
  · cases found
    simp [State.goto, State.format]

theorem Inv.publish (inv : Inv s) (here : s.pc b = .publish r i j k) :
    Inv { s.goto b (.check r i j k) s.lock with
      availIdx := (s.availIdx + 1) % wrap
      issued := update s.issued b (s.issued b ++ [r]) } := by
  have descs : (s.pc b).descs = (Pc.check r i j k).descs := by rw [here]; rfl
  have own : (s.pc b).Locked := by rw [here]; trivial
  have hidden : (s.pc b).head = none := by rw [here]; rfl
  have mine : i ∈ (s.pc b).descs := by simp [here, Pc.descs]
  obtain ⟨out, absent, room⟩ := inv.unpublished mine hidden
  have slot := inv.entry b i (by rw [here]; rfl)
  have busy := inv.waiting b (by rw [here]; trivial)
  have avail :
      ringItems s.availRing num wrap s.devIdx ((s.availIdx + 1) % wrap) = s.avail ++ [i] := by
    rw [← slot]
    exact ringItems_next inv.inside.2.2.2 inv.inside.1
      (lt_of_le_of_lt (Nat.succ_le_of_lt room) (by decide))
  have queue : (s.avail ++ [i] ++ s.working ++ (s.done ++ s.used)).Perm (i :: s.queue) := by
    simp only [append_assoc, singleton_append, State.queue]
    exact perm_middle
  rw [← avail] at queue
  refine inv.advance (fun c => inv.alone own) rfl
    (fun c other x member =>
      ⟨descs ▸ inv.foreign other member, (inv.held c x member).2, rfl, rfl, rfl⟩)
    (fun _ _ => rfl) (fun c other => ⟨update_of_ne other .., rfl, rfl, rfl⟩)
    (fun x foreign member => ?_)
    (fun _ => id) (fun _ => inv.locked b own) (descs ▸ inv.held b) (descs ▸ inv.distinct b)
    (fun r' i' j' k' found => ?_) ⟨Nat.mod_lt _ (by decide), inv.inside.2⟩
    (queue.nodup_iff.mpr (nodup_cons.mpr ⟨absent, inv.once⟩))
    (fun x => ?_) inv.status False.elim False.elim
    (fun _ found => by cases found) ?_
  · have different : x ≠ i := fun same => foreign (same ▸ mem_cons_self)
    change x ∈ ringItems s.availRing num wrap s.devIdx
      ((s.availIdx + 1) % wrap) ++ s.working at member
    rw [avail] at member
    simpa [different] using member
  · exact (inv.chained b r' i' j' k' (by rw [here]; exact found)).congr (fun _ _ => rfl) rfl rfl
  · refine queue.mem_iff.trans (mem_cons.trans (or_congr ⟨?_, ?_⟩ (inv.queue_others out)))
    · rintro rfl
      exact ⟨r, rfl, busy⟩
    · rintro ⟨_, head, _⟩
      cases head
      rfl
  · obtain ⟨same, seen, past⟩ := (inv.counted b).none hidden
    have issued : update s.issued b (s.issued b ++ [r]) b = s.served b ++ [r] := by
      rw [update_self, same]
    have shown : ((s.goto b (.check r i j k) s.lock).pc b).head = some (r, i) := by
      simp [State.goto, Pc.head]
    refine ⟨fun none => ?_, fun r' i' found _ => ?_, fun r' i' found member => ?_,
      fun _ _ _ idle => ?_⟩
    · cases shown.symm.trans none
    · cases shown.symm.trans found
      exact ⟨issued, seen, past⟩
    · cases shown.symm.trans found
      exact absurd (mem_append_right _ member) absent
    · cases busy.symm.trans idle

@[simp] theorem Pc.wakeFree_wakeFree (p : Pc) : p.wakeFree.wakeFree = p.wakeFree := by
  cases p <;> rfl

/-- `free_chain` of a chain frees its three descriptors. -/
theorem freeChain_spec (s : State) (i : Nat)
    (header : s.desc i = { addr := .op i, flagNext := true, next := j })
    (data : s.desc j = { addr := .data b, flagNext := true, flagWrite := write, next := k })
    (status : s.desc k = { addr := .status i, flagWrite := true }) (distinct : [i, j, k].Nodup)
    (mine : ∀ x ∈ [i, j, k], x < num ∧ s.free x = false) :
    freeChain (num + 1) s i = .ok { s with
      desc := update (update (update s.desc i {}) j {}) k {}
      free := update (update (update s.free i true) j true) k true
      pc := fun c => (s.pc c).wakeFree } := by
  simp only [nodup_cons, mem_cons, not_mem_nil, or_false, not_or] at distinct
  obtain ⟨⟨ij, ik⟩, jk, _⟩ := distinct
  obtain ⟨smallI, heldI⟩ := mine i (by simp)
  obtain ⟨smallJ, heldJ⟩ := mine j (by simp)
  obtain ⟨smallK, heldK⟩ := mine k (by simp)
  have first := freeDesc_spec smallI heldI
  rw [freeChain, first]
  simp only [Except.bind, header, if_true]
  rw [num, freeChain, freeDesc_spec smallJ (by simp [Ne.symm ij, heldJ])]
  simp only [Except.bind, update_of_ne (Ne.symm ij), data, if_true]
  rw [freeChain, freeDesc_spec smallK (by simp [Ne.symm ik, Ne.symm jk, heldK])]
  simp [Except.bind, Ne.symm ik, Ne.symm jk, status]

theorem Inv.release (inv : Inv s) (here : s.pc b = .finish r i j k) : Inv { s.goto b .idle none with
      info := update s.info i { s.info i with b := none }
      freed := update s.freed b (s.freed b + 1) } := by
  have mine : i ∈ (s.pc b).descs := by simp [here, Pc.descs]
  have idle := inv.finishing b (by rw [here]; trivial)
  have out : ∀ r i, (s.pc b).head = some (r, i) → s.busy b = false := fun _ _ _ => idle
  refine inv.advance (fun c => inv.alone (by rw [here]; trivial)) rfl (fun c other x member => ?_)
    (fun _ _ => rfl)
    (fun c other => ⟨rfl, rfl, rfl, update_of_ne other ..⟩) (fun _ _ => id) (fun _ => id) False.elim
    (fun _ member => by cases member) nodup_nil
    (fun _ _ _ _ found => by cases found) inv.inside inv.once
    (fun x => ?_) (fun x member => ?_) False.elim False.elim (fun _ found => by cases found)
    (.quiet (by simp [State.goto, Pc.head]) ?_)
  · have different : x ≠ i := fun same => inv.foreign other member (same ▸ mine)
    refine ⟨not_mem_nil, (inv.held c x member).2, rfl, rfl, ?_⟩
    simp [different]
  · refine (inv.queue_others out).trans ⟨.inr, fun found => found.resolve_left ?_⟩
    rintro ⟨_, head, _⟩
    cases head
  · have different : x ≠ i := by
      rintro rfl
      exact inv.not_queued mine out (mem_append_right _ member)
    simpa [different] using inv.status x member
  · simpa [State.goto] using (inv.counted b).handled r i (by rw [here]; rfl) idle

theorem Inv.finish (inv : Inv s) (here : s.pc b = .finish r i j k) :
    ∃ t, s.caller b = some (.ok t) ∧ Inv t ∧ (s.Whole → t.Whole) := by
  have descs : (s.pc b).descs = [i, j, k] := by rw [here]; rfl
  have chained := inv.chained b r i j k (by rw [here]; rfl)
  have mine := descs ▸ inv.held b
  generalize cleared : update s.info i { s.info i with b := none } = info
  have freed := freeChain_spec { s with info := info } i chained.header chained.data chained.status
    (descs ▸ inv.distinct b) mine
  have released := inv.release here
  rw [cleared] at released
  -- the descriptors of the caller belong to nobody once it is out
  have others : ∀ c, ∀ x ∈ ((update s.pc b .idle) c).descs, x ∉ [i, j, k] := by
    intro c x member inside
    by_cases own : c = b
    · simp [own, Pc.descs] at member
    · rw [update_of_ne own] at member
      exact own (inv.apart c b x member (descs ▸ inside))
  have inv' := (released.redesc
    (update (update (update s.desc i {}) j {}) k {})
    (update (update (update s.free i true) j true) k true)
    fun c x member => ?_).wakeFree
  · refine ⟨_, ?_, inv', fun whole x small used => ?_⟩
    rotate_left
    · have foreign : x ∉ [i, j, k] ∧ s.free x = false := by
        simp only [mem_cons, not_mem_nil, or_false, not_or]
        by_cases one : x = k
        · simp [one] at used
        · by_cases two : x = j
          · simp [two, update_apply] at used
          · by_cases three : x = i
            · simp [three, update_apply] at used
            · exact ⟨⟨three, two, one⟩, by simpa [one, two, three] using used⟩
      obtain ⟨c, member⟩ := whole x small foreign.2
      have other : c ≠ b := by
        rintro rfl
        exact foreign.1 (descs ▸ member)
      exact ⟨c, by simpa [State.goto, other, (Same.wakeFree _).descs] using member⟩
    simp only [State.caller, here, cleared, freed, Except.map, State.goto, Option.some.injEq,
      Except.ok.injEq, State.mk.injEq, true_and, and_true]
    funext c
    by_cases own : c = b
    · simp [own, Pc.wakeFree]
    · simp [own]
  · have foreign := others c x member
    simp only [mem_cons, not_mem_nil, or_false, not_or] at foreign
    have held := (released.held c x member).2
    simpa [foreign, State.goto] using held

end EnhancedXv6.Virtio
