import EnhancedXv6.InodeTable.Table

namespace EnhancedXv6.InodeTable

open Finset
open EnhancedXv6.FileSystem Foundation Function Option

variable {n : Nat}

def replay (pending : List (Fin n × (Dinode → Dinode))) (d : Dinode) : Dinode :=
  pending.foldl (fun d change => change.2 d) d

/-- `iput` frees an allocated inode without links, and looked when there was one reference. -/
def Freed.Allowed (f : Freed) : Prop := f.before.nlink = 0 ∧ f.before.type ≠ 0 ∧ f.refs = 1

/-- An inode has one entry at most, `ref` is the number of references, and the copy in a
locked entry is what the last `iupdate` left on the disk with the changes of the holder;
the disk still has that, unless the holder is an `iput` that has given the inode up. -/
structure State.Consistent (s : State n) : Prop where
  unique : ∀ i j, 0 < (s.entry i).ref → 0 < (s.entry j).ref →
    (s.entry i).key = (s.entry j).key → i = j
  counted : ∀ i, (s.entry i).ref = ∑ p, (s.entry i).refs p
  locked : ∀ i p stage, (s.entry i).lock = some (p, stage) → (s.entry i).valid = true →
    (s.entry i).fields = replay (s.entry i).pending (s.entry i).synced ∧
      (∀ change ∈ (s.entry i).pending, change.1 = p) ∧
      ((s.entry i).synced = s.disk (s.entry i).key ∨ ∃ refs, stage = .invalidate refs)
  freed : ∀ f ∈ s.freed, f.Allowed

/-- The stage in which `iput` has freed the inode on the disk. -/
def Entry.Gone (e : Entry n) : Prop := ∃ p refs, e.lock = some (p, .invalidate refs)

def Entry.Going (e : Entry n) : Prop := ∃ p refs, e.lock = some (p, .clearUpdate refs)

def Entry.StageOk (e : Entry n) : Stage → Prop
  | .loading => True
  | .held => e.valid = true
  | .trunc refs | .truncUpdate refs | .clear refs | .clearUpdate refs =>
    refs = 1 ∧ e.valid = true ∧ e.fields.nlink = 0 ∧ e.synced.nlink = 0
  | .invalidate _ => e.valid = true ∧ e.pending = []
  | .unlock _ => e.valid = false

structure Entry.Live (e : Entry n) (d : Dinode) : Prop where
  stage : ∀ p stage, e.lock = some (p, stage) → e.StageOk stage
  value : e.valid = true → e.fields = replay e.pending e.synced
  current : e.valid = true → ¬ e.Gone → e.synced = d ∧ d.type ≠ 0
  typed : e.valid = true → ¬ e.Gone → ¬ e.Going → e.fields.type ≠ 0

structure Entry.Sound (e : Entry n) (d : Dinode) : Prop where
  counted : e.ref = ∑ p, e.refs p
  owner : ∀ p, e.holder = some p → 0 < e.refs p
  clean : e.lock = none → e.pending = []
  mine : ∀ p, e.holder = some p → ∀ change ∈ e.pending, change.1 = p
  invalid : e.valid = false → e.pending = []
  live : 0 < e.ref → e.Live d

def Pc.Ok (entry : Fin ninode → Entry n) (p : Fin n) : Pc → Prop
  | .lockWait i => 0 < (entry i).refs p
  | .put i | .drop i => (entry i).Spare p
  | _ => True

structure State.Inv (s : State n) : Prop where
  unique : ∀ i j, 0 < (s.entry i).ref → 0 < (s.entry j).ref →
    (s.entry i).key = (s.entry j).key → i = j
  sound : ∀ i, (s.entry i).Sound (s.disk (s.entry i).key)
  pcs : ∀ p, (s.pc p).Ok s.entry p
  freed : ∀ f ∈ s.freed, f.Allowed

theorem holder_of_lock {e : Entry n} (found : e.lock = some (p, stage)) : e.holder = some p := by
  rw [Entry.holder, found]
  rfl

theorem State.Inv.consistent {s : State n} (inv : s.Inv) : s.Consistent where
  unique := inv.unique
  counted i := (inv.sound i).counted
  locked i p stage found valid := by
    have sound := inv.sound i
    have holder := holder_of_lock found
    have used : 0 < (s.entry i).ref := by
      rw [sound.counted]
      exact (sound.owner p holder).trans_le (single_le_sum (fun _ _ => Nat.zero_le _) (mem_univ p))
    have live := sound.live used
    refine ⟨live.value valid, sound.mine p holder, ?_⟩
    by_cases gone : (s.entry i).Gone
    · obtain ⟨q, refs, same⟩ := gone
      rw [found] at same
      exact .inr ⟨refs, (Prod.mk.inj (some.inj same)).2⟩
    · exact .inl (live.current valid gone).1
  freed := inv.freed

section Entry

variable {e e' : Entry n} {d d' : Dinode} {p : Fin n}

theorem sum_update (refs : Fin n → Nat) (p : Fin n) (x : Nat) :
    ∑ q, update refs p x q + refs p = ∑ q, refs q + x := by
  have others : ∑ q ∈ Finset.univ.erase p, update refs p x q = ∑ q ∈ Finset.univ.erase p, refs q :=
    sum_congr rfl fun q member => update_of_ne (ne_of_mem_erase member) _ _
  rw [← add_sum_erase Finset.univ (update refs p x) (mem_univ p),
    ← add_sum_erase Finset.univ refs (mem_univ p), others, update_self]
  omega

theorem Entry.Sound.refs_le (sound : e.Sound d) (p : Fin n) : e.refs p ≤ e.ref := by
  rw [sound.counted]
  exact single_le_sum (fun _ _ => Nat.zero_le _) (mem_univ p)

/-- With one reference only, its owner is the only one that can have the lock. -/
theorem Entry.Sound.sole (sound : e.Sound d) (single : e.ref = 1) (has : 0 < e.refs p)
    (other : 0 < e.refs q) : q = p := by
  by_contra different
  have pair : ∑ r ∈ {p, q}, e.refs r ≤ ∑ r, e.refs r :=
    sum_le_sum_of_subset (subset_univ _)
  rw [sum_pair (Ne.symm different), ← sound.counted] at pair
  omega

theorem Entry.Sound.unused (sound : e.Sound d) (none : e.ref = 0) : e.Sound d' :=
  { sound with live := fun used => absurd used (by omega) }

theorem Entry.Sound.hold (sound : e.Sound d) (has : 0 < e.refs p) (ref : e'.ref = e.ref)
    (refs : e'.refs = e.refs) (found : e'.lock = some (p, stage))
    (mine : ∀ change ∈ e'.pending, change.1 = p)
    (invalid : e'.valid = false → e'.pending = []) (live : e'.Live d') : e'.Sound d' where
  counted := by rw [ref, refs, sound.counted]
  owner q holder := by
    rw [holder_of_lock found] at holder
    rw [refs, ← some.inj holder]
    exact has
  clean none := by rw [found] at none; cases none
  mine q holder := by
    rw [holder_of_lock found] at holder
    rw [← some.inj holder]
    exact mine
  invalid := invalid
  live _ := live

theorem live_of_stage (found : e.lock = some (p, stage)) (ok : e.StageOk stage)
    (value : e.valid = true → e.fields = replay e.pending e.synced)
    (current : e.valid = true → (∀ refs, stage ≠ .invalidate refs) → e.synced = d ∧ d.type ≠ 0)
    (typed : e.valid = true → (∀ refs, stage ≠ .invalidate refs) →
      (∀ refs, stage ≠ .clearUpdate refs) →
      e.fields.type ≠ 0) : e.Live d where
  stage q stage' same := by
    rw [found] at same
    rw [← (Prod.mk.inj (some.inj same)).2]
    exact ok
  value := value
  current valid here := current valid fun refs same => here ⟨p, refs, same ▸ found⟩
  typed valid here going := typed valid (fun refs same => here ⟨p, refs, same ▸ found⟩)
    fun refs same => going ⟨p, refs, same ▸ found⟩

theorem Entry.not_gone (found : e.lock = some (p, stage))
    (other : ∀ refs, stage ≠ .invalidate refs) : ¬ e.Gone := by
  rintro ⟨q, refs, same⟩
  rw [found] at same
  exact other refs (Prod.mk.inj (some.inj same)).2

theorem Entry.not_going (found : e.lock = some (p, stage))
    (other : ∀ refs, stage ≠ .clearUpdate refs) : ¬ e.Going := by
  rintro ⟨q, refs, same⟩
  rw [found] at same
  exact other refs (Prod.mk.inj (some.inj same)).2

theorem Entry.not_gone_of_none (none : e.lock = none) : ¬ e.Gone := by
  rintro ⟨q, refs, same⟩
  rw [none] at same
  cases same

theorem Entry.not_going_of_none (none : e.lock = none) : ¬ e.Going := by
  rintro ⟨q, refs, same⟩
  rw [none] at same
  cases same

theorem Entry.Live.congr (live : e.Live d) (lock : e'.lock = e.lock) (valid : e'.valid = e.valid)
    (fields : e'.fields = e.fields) (synced : e'.synced = e.synced)
    (pending : e'.pending = e.pending) : e'.Live d := by
  obtain ⟨dev, inum, ref, _, _, _, refs, _, _⟩ := e'
  simp only at lock valid fields synced pending
  subst lock valid fields synced pending
  exact ⟨fun q stage found => by
    have ok := live.stage q stage found
    cases stage <;> exact ok, live.value, live.current, live.typed⟩

theorem addRef_self (e : Entry n) (p : Fin n) : (e.addRef p).refs p = e.refs p + 1 :=
  update_self _ _ _

theorem addRef_other (e : Entry n) (other : q ≠ p) : (e.addRef p).refs q = e.refs q :=
  update_of_ne other _ _

theorem dropRef_self (e : Entry n) (p : Fin n) : (e.dropRef p).refs p = e.refs p - 1 :=
  update_self _ _ _

theorem dropRef_other (e : Entry n) (other : q ≠ p) : (e.dropRef p).refs q = e.refs q :=
  update_of_ne other _ _

theorem Entry.Sound.addRef (sound : e.Sound d) (used : 0 < e.ref)
    (p : Fin n) : (e.addRef p).Sound d where
  counted := by
    have sum := sum_update e.refs p (e.refs p + 1)
    have counted := sound.counted
    simp only [Entry.addRef]
    omega
  owner q holder := by
    have has := sound.owner q holder
    by_cases here : q = p
    · rw [here, addRef_self]
      exact Nat.succ_pos _
    · rw [addRef_other e here]
      exact has
  clean := sound.clean
  mine := sound.mine
  invalid := sound.invalid
  live _ := (sound.live used).congr rfl rfl rfl rfl rfl

theorem Entry.Sound.dropRef (sound : e.Sound d) (spare : e.Spare p) : (e.dropRef p).Sound d where
  counted := by
    have sum := sum_update e.refs p (e.refs p - 1)
    have counted := sound.counted
    have has := spare.1
    simp only [Entry.dropRef]
    omega
  owner q holder := by
    have has := sound.owner q holder
    by_cases here : q = p
    · have two := spare.2 (here ▸ holder)
      rw [here, dropRef_self]
      omega
    · rw [dropRef_other e here]
      exact has
  clean := sound.clean
  mine := sound.mine
  invalid := sound.invalid
  live used := (sound.live (Nat.lt_of_lt_of_le used (Nat.sub_le _ _))).congr rfl rfl rfl rfl rfl

theorem Entry.Sound.recycle (sound : e.Sound d) (none : e.ref = 0) (dev inum : Nat) (p : Fin n)
    (d' : Dinode) :
    ({ e with dev := dev, inum := inum, ref := 0, valid := false }.addRef p :
      Entry n).Sound d' := by
  have unlocked : e.lock = .none := by
    cases found : e.lock with
    | none => rfl
    | some pair =>
      have has := sound.owner pair.1 (holder_of_lock found)
      have few := sound.refs_le pair.1
      omega
  have empty := sound.clean unlocked
  have sum := sum_update e.refs p (e.refs p + 1)
  have counted := sound.counted
  refine ⟨?_, fun q holder => ?_, fun _ => empty, fun q holder => ?_, fun _ => empty, fun _ => ?_⟩
  · simp only [Entry.addRef]
    omega
  · rw [Entry.holder] at holder
    simp only [Entry.addRef, unlocked] at holder
    cases holder
  · rw [Entry.holder] at holder
    simp only [Entry.addRef, unlocked] at holder
    cases holder
  · refine ⟨fun q stage found => ?_, fun valid => ?_, fun valid => ?_, fun valid => ?_⟩
    · simp only [Entry.addRef, unlocked] at found
      cases found
    · cases valid
    · cases valid
    · cases valid

theorem Entry.Sound.release (sound : e.Sound d) (found : e.lock = some (p, stage))
    (here : ∀ refs, stage ≠ .invalidate refs) (stays : ∀ refs, stage ≠ .clearUpdate refs)
    (empty : e.pending = []) : ({ e with lock := none } : Entry n).Sound d where
  counted := sound.counted
  owner q holder := nomatch holder
  clean _ := empty
  mine q holder := nomatch holder
  invalid _ := empty
  live used := by
    have live := sound.live used
    exact ⟨fun q stage found => (nomatch found), live.value,
      fun valid _ => live.current valid (not_gone found here),
      fun valid _ _ => live.typed valid (not_gone found here) (not_going found stays)⟩

theorem replay_snoc (pending : List (Fin n × (Dinode → Dinode))) (p : Fin n) (f : Dinode → Dinode)
    (d : Dinode) : replay (pending ++ [(p, f)]) d = f (replay pending d) := by
  simp [replay]

theorem Entry.Live.change {st next : Stage} (live : e.Live d) (found : e.lock = some (p, st))
    (valid : e.valid = true) (here : ∀ refs, st ≠ .invalidate refs)
    (ok : (e.change p next f).StageOk next)
    (typed : (∀ refs, next ≠ .clearUpdate refs) → (f e.fields).type ≠ 0) :
    (e.change p next f).Live d := by
  have current := live.current valid (Entry.not_gone found here)
  refine live_of_stage rfl ok (fun _ => ?_) (fun _ _ => current) fun _ _ => typed
  rw [Entry.change, replay_snoc, ← live.value valid]

theorem live_sync (ok : (e.sync p stage d).StageOk stage)
    (typed : (∀ refs, stage ≠ .invalidate refs) → d.type ≠ 0) : (e.sync p stage d).Live d :=
  live_of_stage rfl ok (fun _ => rfl) (fun _ here => ⟨rfl, typed here⟩) fun _ here _ => typed here

theorem mine_change (mine : ∀ change ∈ e.pending, change.1 = p) (stage : Stage)
    (f : Dinode → Dinode) : ∀ change ∈ (e.change p stage f).pending, change.1 = p := by
  intro change member
  rcases List.mem_append.mp member with old | new
  · exact mine change old
  · rw [List.mem_singleton.mp new]

end Entry

section State

variable {s : State n} {p : Fin n} {pc : Pc} {i : Fin ninode} {e : Entry n} {d : Dinode}
  {stage : Stage} {log : List Freed}

theorem Pc.Ok.mono {entry entry' : Fin ninode → Entry n} {pc : Pc} (ok : pc.Ok entry p)
    (more : ∀ i, (entry i).refs p ≤ (entry' i).refs p)
    (held : ∀ i, (entry' i).holder = some p → (entry i).holder = some p) : pc.Ok entry' p := by
  have spare : ∀ i, (entry i).Spare p → (entry' i).Spare p := fun i spare =>
    ⟨spare.1.trans_le (more i), fun mine => (spare.2 (held i mine)).trans (more i)⟩
  cases pc with
  | idle | scan | get | inside => trivial
  | lockWait i => exact Nat.lt_of_lt_of_le ok (more i)
  | put i | drop i => exact spare i ok

section

variable (inv : s.Inv)

include inv

theorem State.Inv.alone (used : 0 < (s.entry i).ref) :
    ∀ j, j ≠ i → 0 < (s.entry j).ref → (s.entry j).key ≠ (s.entry i).key :=
  fun j different usedJ same => different (inv.unique j i usedJ used same)

/-- One process changes one entry, and the inode of it on the disk. -/
theorem State.Inv.write (sound : e.Sound d)
    (alone : ∀ j, j ≠ i → 0 < (s.entry j).ref → (s.entry j).key ≠ e.key)
    (others : ∀ q, q ≠ p → (s.entry i).refs q ≤ e.refs q ∧
      (e.holder = some q → (s.entry i).holder = some q))
    (own : Pc.Ok (update s.entry i e) p pc) (freed : ∀ f ∈ log, f.Allowed) :
    State.Inv { s.set p pc i e with disk := update s.disk e.key d, freed := log } where
  unique a b usedA usedB same := by
    simp only [set] at usedA usedB same
    by_cases first : a = i
    · by_cases second : b = i
      · rw [first, second]
      · rw [first, update_self, update_of_ne second] at same
        rw [update_of_ne second] at usedB
        exact absurd same.symm (alone b second usedB)
    · rw [update_of_ne first] at usedA same
      by_cases second : b = i
      · rw [second, update_self] at same
        exact absurd same (alone a first usedA)
      · rw [update_of_ne second] at usedB same
        exact inv.unique a b usedA usedB same
  sound j := by
    simp only [set]
    by_cases here : j = i
    · rw [here, update_self, update_self]
      exact sound
    · rw [update_of_ne here]
      by_cases used : 0 < (s.entry j).ref
      · rw [update_of_ne (alone j here used)]
        exact inv.sound j
      · exact (inv.sound j).unused (by omega)
  pcs q := by
    simp only [set, goto]
    by_cases here : q = p
    · rw [here, update_self]
      exact own
    · rw [update_of_ne here]
      refine (inv.pcs q).mono (fun j => ?_) fun j => ?_
      · by_cases same : j = i
        · rw [same, update_self]
          exact (others q here).1
        · rw [update_of_ne same]
      · by_cases same : j = i
        · rw [same, update_self]
          exact (others q here).2
        · rw [update_of_ne same]
          exact fun held => held
  freed := freed

theorem State.Inv.set (sound : e.Sound (s.disk e.key))
    (alone : ∀ j, j ≠ i → 0 < (s.entry j).ref → (s.entry j).key ≠ e.key)
    (others : ∀ q, q ≠ p → (s.entry i).refs q ≤ e.refs q ∧
      (e.holder = some q → (s.entry i).holder = some q))
    (own : Pc.Ok (update s.entry i e) p pc) : (s.set p pc i e).Inv := by
  have written := inv.write sound alone others own inv.freed
  rwa [update_eq_self] at written

theorem State.Inv.goto (own : Pc.Ok s.entry p pc) : (s.goto p pc).Inv where
  unique := inv.unique
  sound := inv.sound
  pcs q := by
    simp only [State.goto]
    by_cases here : q = p
    · rw [here, update_self]
      exact own
    · rw [update_of_ne here]
      exact inv.pcs q
  freed := inv.freed

theorem State.Inv.used (has : 0 < (s.entry i).refs p) : 0 < (s.entry i).ref :=
  has.trans_le ((inv.sound i).refs_le p)

/-- The holder of a lock goes on, and may write the inode to the disk. -/
theorem State.Inv.hold (has : 0 < (s.entry i).refs p) (key : e.key = (s.entry i).key)
    (ref : e.ref = (s.entry i).ref) (refs : e.refs = (s.entry i).refs)
    (found : e.lock = some (p, stage)) (mine : ∀ change ∈ e.pending, change.1 = p)
    (invalid : e.valid = false → e.pending = []) (live : e.Live d)
    (own : ∀ entry, Pc.Ok entry p pc) (freed : ∀ f ∈ log, f.Allowed) :
    State.Inv { s.set p pc i e with disk := update s.disk e.key d, freed := log } := by
  refine inv.write ((inv.sound i).hold has ref refs found mine invalid live) ?_
    (fun q other => ⟨?_, ?_⟩) (own _) freed
  · rw [key]
    exact inv.alone (inv.used has)
  · rw [refs]
  · rw [holder_of_lock found]
    exact fun same => absurd (some.inj same).symm other

theorem State.Inv.keep (has : 0 < (s.entry i).refs p) (key : e.key = (s.entry i).key)
    (ref : e.ref = (s.entry i).ref) (refs : e.refs = (s.entry i).refs)
    (found : e.lock = some (p, stage)) (mine : ∀ change ∈ e.pending, change.1 = p)
    (invalid : e.valid = false → e.pending = []) (live : e.Live (s.disk (s.entry i).key))
    (own : ∀ entry, Pc.Ok entry p pc) : (s.set p pc i e).Inv := by
  have held := inv.hold has key ref refs found mine invalid (key ▸ live) own inv.freed
  rwa [update_eq_self] at held

/-- The holder of a lock has a reference, and the entry is in use. -/
theorem State.Inv.holding (found : (s.entry i).lock = some (p, stage)) :
    0 < (s.entry i).refs p ∧ (s.entry i).Live (s.disk (s.entry i).key) ∧
      ∀ change ∈ (s.entry i).pending, change.1 = p := by
  have sound := inv.sound i
  have has := sound.owner p (holder_of_lock found)
  exact ⟨has, sound.live (inv.used has), sound.mine p (holder_of_lock found)⟩

/-- A process that keeps what it has drops or adds a reference, or unlocks. -/
theorem State.Inv.same (sound : e.Sound (s.disk (s.entry i).key)) (key : e.key = (s.entry i).key)
    (used : 0 < (s.entry i).ref)
    (others : ∀ q, q ≠ p → (s.entry i).refs q ≤ e.refs q ∧
      (e.holder = some q → (s.entry i).holder = some q))
    (own : Pc.Ok (update s.entry i e) p pc) : (s.set p pc i e).Inv :=
  inv.set (key ▸ sound) (by rw [key]; exact inv.alone used) others own

theorem State.Inv.change (found : (s.entry i).lock = some (p, stage))
    (valid : (s.entry i).valid = true) (here : ∀ refs, stage ≠ .invalidate refs)
    (ok : ((s.entry i).change p stage' f).StageOk stage')
    (typed : (∀ refs, stage' ≠ .clearUpdate refs) → (f (s.entry i).fields).type ≠ 0)
    (own : ∀ entry, Pc.Ok entry p pc) : (s.set p pc i ((s.entry i).change p stage' f)).Inv := by
  obtain ⟨has, live, mine⟩ := inv.holding found
  exact inv.keep has rfl rfl rfl rfl (mine_change mine stage' f)
    (fun none => absurd (none.symm.trans valid) (by decide))
      (live.change found valid here ok typed) own

theorem State.Inv.iupdate (found : (s.entry i).lock = some (p, stage))
    (ok : ((s.entry i).sync p stage' (s.entry i).fields).StageOk stage')
    (typed : (∀ refs, stage' ≠ .invalidate refs) → (s.entry i).fields.type ≠ 0)
    (own : ∀ entry, Pc.Ok entry p pc)
    (freed : ∀ f ∈ log, f.Allowed) : State.Inv { s.iupdate p pc i stage' with freed := log } := by
  obtain ⟨has, _, _⟩ := inv.holding found
  exact inv.hold has rfl rfl rfl rfl (fun _ member => (nomatch member)) (fun _ => rfl)
    (live_sync ok typed) own freed

end

def Kept : Except Panic (State n) → Prop
  | .ok s => s.Inv
  | .error e => e = .igetNoInodes ∨ e = .ilockNoType

theorem Entry.Live.typed_of_stage {e : Entry n} {st : Stage} (live : e.Live d)
    (found : e.lock = some (p, st)) (valid : e.valid = true) (here : ∀ refs, st ≠ .invalidate refs)
    (stays : ∀ refs, st ≠ .clearUpdate refs) :
    e.fields.type ≠ 0 := live.typed valid (not_gone found here) (not_going found stays)

theorem State.Inv.inside (inv : s.Inv) (found : (s.entry i).lock = some (p, stage))
    (taken : s.inside p i stage = some result) : Kept result := by
  obtain ⟨has, live, mine⟩ := inv.holding found
  have ok := live.stage p stage found
  cases stage with
  | held => cases taken
  | loading =>
    simp only [inside] at taken
    split_ifs at taken with valid untyped
    · cases taken
      exact inv.keep has rfl rfl rfl rfl mine (inv.sound i).invalid
        (live_of_stage rfl valid live.value
          (fun _ _ => live.current valid (Entry.not_gone found fun _ => nofun))
          fun _ _ _ => live.typed_of_stage found valid (fun _ => nofun) fun _ => nofun)
            fun _ => trivial
    · cases taken
      exact .inr rfl
    · cases taken
      exact inv.keep has rfl rfl rfl rfl (fun _ member => (nomatch member)) (fun _ => rfl)
        (live_of_stage rfl rfl (fun _ => rfl) (fun _ _ => ⟨rfl, untyped⟩) fun _ _ _ => untyped)
          fun _ => trivial
  | trunc refs =>
    obtain ⟨one, valid, links, synced⟩ := ok
    cases taken
    exact inv.change found valid (fun _ => nofun) ⟨one, valid, links, synced⟩
      (fun _ => live.typed_of_stage found valid (fun _ => nofun) fun _ => nofun) fun _ => trivial
  | truncUpdate refs =>
    obtain ⟨one, valid, links, _⟩ := ok
    cases taken
    exact inv.iupdate found ⟨one, valid, links, links⟩
      (fun _ => live.typed_of_stage found valid (fun _ => nofun) fun _ => nofun)
        (fun _ => trivial) inv.freed
  | clear refs =>
    obtain ⟨one, valid, links, synced⟩ := ok
    cases taken
    exact inv.change found valid (fun _ => nofun) ⟨one, valid, links, synced⟩
      (fun other => absurd rfl (other refs)) fun _ => trivial
  | clearUpdate refs =>
    obtain ⟨one, valid, _, synced⟩ := ok
    obtain ⟨same, typed⟩ := live.current valid (Entry.not_gone found fun _ => nofun)
    cases taken
    refine inv.iupdate found ⟨valid, rfl⟩ (fun other => absurd rfl (other refs)) (fun _ => trivial)
      fun f member => ?_
    rcases List.mem_append.mp member with old | new
    · exact inv.freed f old
    · rw [List.mem_singleton.mp new]
      exact ⟨same ▸ synced, typed, one⟩
  | invalidate refs =>
    cases taken
    exact inv.keep has rfl rfl rfl rfl mine (fun _ => ok.2)
      (live_of_stage rfl rfl (fun none => (nomatch none)) (fun none => (nomatch none))
        fun none => (nomatch none))
      fun _ => trivial
  | unlock refs =>
    cases taken
    refine inv.same
      ((inv.sound i).release found (fun _ => nofun) (fun _ => nofun) ((inv.sound i).invalid ok)) rfl
      (inv.used has) (fun q _ => ⟨le_rfl, fun none => (nomatch none)⟩) ?_
    simp only [Pc.Ok, update_self]
    exact ⟨has, fun none => (nomatch none)⟩

theorem others_addRef (e : Entry n) (other : q ≠ p) :
    e.refs q ≤ (e.addRef p).refs q ∧ ((e.addRef p).holder = some q → e.holder = some q) :=
  ⟨(addRef_other e other).ge, id⟩

theorem others_dropRef (e : Entry n) (other : q ≠ p) :
    e.refs q ≤ (e.dropRef p).refs q ∧ ((e.dropRef p).holder = some q → e.holder = some q) :=
  ⟨(dropRef_other e other).ge, id⟩

section

variable (inv : s.Inv)

include inv

theorem State.Inv.dropRef (spare : (s.entry i).Spare p) :
    (s.set p .idle i ((s.entry i).dropRef p)).Inv :=
  inv.same ((inv.sound i).dropRef spare) rfl (inv.used spare.1) (fun _ => others_dropRef _) trivial

theorem State.Inv.addRef (used : 0 < (s.entry i).ref) :
    (s.set p .idle i ((s.entry i).addRef p)).Inv :=
  inv.same ((inv.sound i).addRef used p) rfl used (fun _ => others_addRef _) trivial

theorem State.Inv.iget (p : Fin n) (dev inum : Nat) : Kept (s.iget p dev inum) := by
  unfold State.iget
  split
  next i found =>
    have here := List.find?_some found
    simp only [decide_eq_true_eq] at here
    exact inv.addRef here.1
  next absent =>
    split
    next => exact .inl rfl
    next i found =>
      have empty := List.find?_some found
      simp only [decide_eq_true_eq] at empty
      refine inv.set ((inv.sound i).recycle empty dev inum p _) (fun j _ used same => ?_)
        (fun q => others_addRef _)
        trivial
      have other := List.find?_eq_none.mp absent j (List.mem_finRange j)
      simp only [decide_eq_true_eq] at other
      exact other ⟨used, same⟩

theorem State.Inv.iput (spare : (s.entry i).Spare p) : Kept (s.iput p i) := by
  have sound := inv.sound i
  have live := sound.live (inv.used spare.1)
  simp only [State.iput]
  split
  next last =>
    obtain ⟨single, valid, links⟩ := last
    split
    next unlocked =>
      have same : (s.entry i).fields = (s.entry i).synced := by
        have value := live.value valid
        rwa [sound.clean unlocked] at value
      have empty := sound.clean unlocked
      refine inv.keep spare.1 rfl rfl rfl rfl (fun c member => ?_) sound.invalid
        (live_of_stage rfl ⟨sound.counted.symm.trans single, valid, links, same ▸ links⟩ live.value
          (fun _ _ => live.current valid (Entry.not_gone_of_none unlocked))
          fun _ _ _ => live.typed valid (Entry.not_gone_of_none unlocked)
            (Entry.not_going_of_none unlocked))
        fun _ => trivial
      rw [show ({ s.entry i with lock := _ } : Entry n).pending = [] from empty] at member
      cases member
    next pair found =>
      -- the holder would be the process itself, with a second reference
      have owner : (s.entry i).holder = some pair.1 := holder_of_lock found
      have mine := sound.sole single spare.1 (sound.owner _ owner)
      have two := spare.2 (mine ▸ owner)
      have few := sound.refs_le p
      omega
  next => exact inv.dropRef spare

/-- `ialloc` takes an inode that no valid entry has. -/
theorem State.Inv.ialloc (free : (s.disk key).type = 0) (d : Dinode) (own : Pc.Ok s.entry p pc) :
    State.Inv { s.goto p pc with disk := update s.disk key d } where
  unique := inv.unique
  sound j := by
    by_cases here : (s.entry j).key = key
    · have sound := inv.sound j
      refine { sound with live := fun used => ?_ }
      have live := sound.live used
      have invalid : (s.entry j).valid = true → (s.entry j).Gone := fun valid => by
        by_contra gone
        exact (live.current valid gone).2 (here ▸ free)
      exact ⟨live.stage, live.value, fun valid gone => absurd (invalid valid) gone, live.typed⟩
    · simp only [State.goto]
      rw [update_of_ne here]
      exact inv.sound j
  pcs := (inv.goto own).pcs
  freed := inv.freed

theorem State.Inv.proceed (taken : s.proceed p = some result) : Kept result := by
  have own := inv.pcs p
  unfold State.proceed at taken
  cases at' : s.pc p with
  | idle => simp only [at'] at taken; cases taken
  | scan dev type inum =>
    simp only [at'] at taken
    split_ifs at taken with past free
    · cases taken
      exact inv.goto trivial
    · cases taken
      exact inv.ialloc free _ trivial
    · cases taken
      exact inv.goto trivial
  | get dev inum =>
    simp only [at'] at taken
    cases taken
    exact inv.iget p dev inum
  | lockWait i =>
    simp only [at'] at taken own
    split at taken
    next => cases taken
    next unlocked =>
      cases taken
      have sound := inv.sound i
      have live := sound.live (inv.used own)
      refine inv.keep own rfl rfl rfl rfl (fun c member => ?_) sound.invalid
        (live_of_stage rfl trivial live.value
          (fun valid _ => live.current valid (Entry.not_gone_of_none unlocked))
          fun valid _ _ => live.typed valid (Entry.not_gone_of_none unlocked)
            (Entry.not_going_of_none unlocked))
        fun _ => trivial
      rw [show ({ s.entry i with lock := _ } : Entry n).pending =
        [] from sound.clean unlocked] at member
      cases member
  | inside i =>
    simp only [at'] at taken
    split at taken
    next => cases taken
    next q stage found =>
      split_ifs at taken with same
      exact inv.inside (same ▸ found) taken
  | put i =>
    simp only [at'] at taken own
    cases taken
    exact inv.iput own
  | drop i =>
    simp only [at'] at taken own
    cases taken
    exact inv.dropRef own

theorem State.Inv.pass (spare : (s.entry i).Spare p) (other : p ≠ q) :
    (s.set p .idle i { s.entry i with
      refs := update (update (s.entry i).refs p ((s.entry i).refs p - 1)) q
        (update (s.entry i).refs p ((s.entry i).refs p - 1) q + 1) }).Inv := by
  have sound := inv.sound i
  have taken := sum_update (s.entry i).refs p ((s.entry i).refs p - 1)
  have given := sum_update (update (s.entry i).refs p ((s.entry i).refs p - 1)) q
    (update (s.entry i).refs p ((s.entry i).refs p - 1) q + 1)
  have has := spare.1
  have counted := sound.counted
  refine inv.same ⟨?_, fun r holder => ?_, sound.clean, sound.mine, sound.invalid, fun used =>
    (sound.live used).congr rfl rfl rfl rfl rfl⟩ rfl (inv.used has)
      (fun r different => ⟨?_, id⟩) trivial
  · simp only
    omega
  · have mine := sound.owner r holder
    simp only
    by_cases receiver : r = q
    · rw [receiver, update_self]
      exact Nat.succ_pos _
    · rw [update_of_ne receiver]
      by_cases giver : r = p
      · have two := spare.2 (giver ▸ holder)
        rw [giver, update_self]
        omega
      · rw [update_of_ne giver]
        exact mine
  · simp only
    by_cases receiver : r = q
    · rw [receiver, update_self, update_of_ne (Ne.symm other)]
      exact Nat.le_succ _
    · rw [update_of_ne receiver, update_of_ne different]

theorem State.Inv.call (taken : s.call event = some result) : Kept result := by
  cases event with
  | ialloc p dev type =>
    cases taken
    exact inv.goto trivial
  | iget p dev inum =>
    cases taken
    exact inv.goto trivial
  | idup p i =>
    simp only [State.call] at taken
    split_ifs at taken with has
    cases taken
    exact inv.addRef (inv.used has)
  | ilock p i =>
    simp only [State.call] at taken
    split_ifs at taken with has none
    · exact absurd (inv.used has) (by omega)
    · cases taken
      exact inv.goto has
  | change p i f =>
    simp only [State.call] at taken
    split_ifs at taken with found
    cases taken
    obtain ⟨_, live, _⟩ := inv.holding found
    have valid := live.stage p _ found
    exact inv.change found valid (fun _ => nofun) valid
      (fun _ => live.typed_of_stage found valid (fun _ => nofun) fun _ => nofun) fun _ => trivial
  | iupdate p i =>
    simp only [State.call] at taken
    split_ifs at taken with found
    cases taken
    obtain ⟨_, live, _⟩ := inv.holding found
    have valid := live.stage p _ found
    exact inv.iupdate found valid
      (fun _ => live.typed_of_stage found valid (fun _ => nofun) fun _ => nofun)
        (fun _ => trivial) inv.freed
  | iunlock p i =>
    simp only [State.call] at taken
    split_ifs at taken with found none
    · exact absurd (inv.used (inv.holding found.1).1) (by omega)
    · cases taken
      exact inv.same ((inv.sound i).release found.1 (fun _ => nofun) (fun _ => nofun)
        (List.isEmpty_iff.mp found.2)) rfl (inv.used (inv.holding found.1).1)
        (fun q _ => ⟨le_rfl, fun none => (nomatch none)⟩) trivial
  | iput p i =>
    simp only [State.call] at taken
    split_ifs at taken with spare
    cases taken
    exact inv.goto spare
  | pass p q i =>
    simp only [State.call] at taken
    split_ifs at taken with spare
    cases taken
    exact inv.pass spare.1 spare.2
  | proceed p => cases taken

end

end State

end EnhancedXv6.InodeTable
