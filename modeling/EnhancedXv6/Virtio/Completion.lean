import EnhancedXv6.Virtio.Safety

namespace EnhancedXv6.Virtio

open Foundation Function List Option

/-- The device takes a chain from the avail ring, or enters one in the used ring. -/
theorem Inv.shuffle (inv : Inv s) (usedRing : Nat → Nat) (usedIdx devIdx : Nat)
    (working done : List Nat) (inside : usedIdx < wrap ∧ devIdx < wrap)
    (front : (ringItems s.availRing num wrap devIdx s.availIdx ++ working).Perm
      (s.avail ++ s.working))
    (back : (done ++ ringItems usedRing num wrap s.seenIdx usedIdx).Perm (s.done ++ s.used)) :
    Inv { s with
      usedRing := usedRing
      usedIdx := usedIdx
      devIdx := devIdx
      working := working
      done := done } where
  locked := inv.locked
  held := inv.held
  distinct := inv.distinct
  apart := inv.apart
  chained b r i j k found := (inv.chained b r i j k found).congr (fun _ _ => rfl) rfl rfl
  inside := ⟨inv.inside.1, inside.1, inv.inside.2.2.1, inside.2⟩
  once := (front.append back).nodup_iff.mpr inv.once
  pending i := (front.append back).mem_iff.trans (inv.pending i)
  status i member := inv.status i (back.mem_iff.mp member)
  waiting := inv.waiting
  finishing := inv.finishing
  entry := inv.entry
  counted b := (inv.counted b).congr rfl rfl rfl rfl rfl (fun _ _ _ => front.mem_iff.mp)
    (fun _ _ _ => back.mem_iff.mp) (fun _ _ _ => id)

theorem Inv.fetch (inv : Inv s) (some : s.devIdx ≠ s.availIdx) : Inv { s with
      working := s.working ++ [s.availRing (s.devIdx % num)]
      devIdx := (s.devIdx + 1) % wrap } := by
  refine inv.shuffle s.usedRing s.usedIdx _ _ s.done
    ⟨inv.inside.2.1, Nat.mod_lt _ (by decide)⟩ ?_ (.refl _)
  rw [State.avail, ringItems_pop inv.inside.2.2.2 inv.inside.1 some, ← append_assoc]
  exact perm_append_singleton _ _

theorem Inv.complete (inv : Inv s) (member : i ∈ s.done) : Inv { s with
      usedRing := update s.usedRing (s.usedIdx % num) i
      usedIdx := (s.usedIdx + 1) % wrap
      done := s.done.erase i } := by
  have perm := perm_cons_erase member
  -- the chain itself is not in the used ring, which leaves room for it there
  have room : ringCount wrap s.seenIdx s.usedIdx < num := by
    have within : s.queue ⊆ range num := fun x queued => mem_range.mpr (inv.queue_lt queued)
    have bound := (subperm_of_subset inv.once within).length_le
    have positive := length_pos_of_mem member
    simp only [length_append, length_range, State.used, length_ringItems] at bound
    omega
  refine inv.shuffle _ _ s.devIdx s.working _
    ⟨Nat.mod_lt _ (by decide), inv.inside.2.2.2⟩ (.refl _) ?_
  rw [ringItems_push i (by decide) (by decide) inv.inside.2.2.1 inv.inside.2.1 room]
  have moved : (s.done.erase i ++ (s.used ++ [i])).Perm (i :: (s.done.erase i ++ s.used)) := by
    rw [← append_assoc]
    exact perm_append_singleton _ _
  exact moved.trans (perm.append_right s.used).symm

/-- A chain in the queue belongs to a caller, as it was published. -/
theorem Inv.owner (inv : Inv s) (queued : i ∈ s.queue) :
    ∃ b r j k, (s.pc b).head = some (r, i) ∧ s.busy b = true ∧ Chained s b r i j k := by
  obtain ⟨b, r, head, busy⟩ := (inv.pending i).mp queued
  obtain ⟨j, k, chain, _⟩ := Pc.head_chain head
  exact ⟨b, r, j, k, head, busy, inv.chained b r i j k chain⟩

theorem Inv.head_ne (inv : Inv s) (mine : (s.pc b).head = some (r, i))
    (theirs : (s.pc c).head = some (q, j)) (other : c ≠ b) : j ≠ i := by
  rintro rfl
  exact other (inv.apart c b j (Pc.head_mem theirs) (Pc.head_mem mine))

/-- The device executes a chain: this is the transfer that its caller asked for. -/
theorem Inv.serve (inv : Inv s) (member : i ∈ s.working) :
    ∃ t, s.serve i = .ok t ∧ Inv t ∧ (∀ x, t.free x = false → s.free x = false) ∧
      ∀ c, (t.pc c).descs = (s.pc c).descs := by
  have queued : i ∈ s.queue := mem_append_left _ (mem_append_right _ member)
  obtain ⟨b, r, j, k, head, busy, chained⟩ := inv.owner queued
  have perm := perm_cons_erase member
  have served : s.serve i = .ok { s with
      info := update s.info i { s.info i with status := 0 }
      served := update s.served b (s.served b ++ [r])
      working := s.working.erase i
      done := s.done ++ [i] } := by
    simp [State.serve, chained.header, chained.data, chained.status, chained.op]
  refine ⟨_, served, ?_, fun _ => id, fun _ => rfl⟩
  have moved : (s.avail ++ s.working.erase i ++ (s.done ++ [i] ++ s.used)).Perm s.queue := by
    have left : (s.avail ++ s.working).Perm (i :: (s.avail ++ s.working.erase i)) :=
      (perm.append_left s.avail).trans perm_middle
    have right : (s.done ++ [i] ++ s.used).Perm (i :: (s.done ++ s.used)) := by
      rw [append_assoc]
      exact perm_middle
    refine ((right.append_left _).trans perm_middle).trans ?_
    exact (left.append_right (s.done ++ s.used)).symm
  have gone : i ∉ s.avail ++ s.working.erase i := by
    intro still
    have twice := moved.nodup_iff.mpr inv.once
    exact (nodup_append.mp twice).2.2 i still i (by simp) rfl
  refine ⟨inv.locked, inv.held, inv.distinct, inv.apart, fun c r' i' j' k' found => ?_, inv.inside,
    moved.nodup_iff.mpr inv.once, fun x => moved.mem_iff.trans (inv.pending x),
    fun x back => ?_, inv.waiting, inv.finishing, inv.entry, fun c => ?_⟩
  · refine (inv.chained c r' i' j' k' found).congr (fun _ _ => rfl) rfl ?_
    by_cases same : i' = i
    · simp [same]
    · simp [same]
  · by_cases same : x = i
    · simp [same]
    · have before : x ∈ s.done ++ s.used := by simpa [State.used, same] using back
      simpa [same] using inv.status x before
  · by_cases own : c = b
    · obtain ⟨issued, length, past⟩ := (inv.counted b).waiting r i head (mem_append_right _ member)
      rw [own]
      refine ⟨fun none => ?_, fun r' x found front => ?_, fun r' x found _ => ?_,
        fun _ _ _ idle => ?_⟩
      · exact absurd (none.symm.trans head) (by simp)
      · cases found.symm.trans head
        exact absurd front gone
      · cases found.symm.trans head
        simpa [issued, length] using past
      · exact absurd (idle.symm.trans busy) (by simp)
    · refine (inv.counted c).congr rfl rfl (by simp [own]) rfl rfl (fun r' x found front => ?_)
        (fun r' x found back => ?_) (fun _ _ _ => id)
      · exact ((erase_sublist).append_left s.avail).subset front
      · have different := inv.head_ne head found own
        simpa [State.used, different] using back

theorem Same.wakeBuf (p : Pc) : Same p.wakeBuf p := by
  cases p <;> exact ⟨rfl, rfl, rfl⟩

theorem Pc.wakeBuf_locked {p : Pc} (locked : p.wakeBuf.Locked) : p.Locked := by
  cases p <;> exact locked

theorem Pc.wakeBuf_waiting {p : Pc} (shown : p.head = some (r, i)) : ¬ p.wakeBuf.Waiting := by
  cases p <;> simp_all [Pc.wakeBuf, Pc.head, Pc.Waiting]

theorem Pc.wakeBuf_entry {p : Pc} : p.wakeBuf.entry = p.entry := by
  cases p <;> rfl

theorem Inv.handle (inv : Inv s) (lock : s.lock = some .intr) (some : s.seenIdx ≠ s.usedIdx) :
    ∃ t, s.intrRound = .ok t ∧ Inv t ∧ (∀ x, t.free x = false → s.free x = false) ∧
      ∀ c, (t.pc c).descs = (s.pc c).descs := by
  have used : s.used = s.usedRing (s.seenIdx % num) ::
      ringItems s.usedRing num wrap ((s.seenIdx + 1) % wrap) s.usedIdx :=
    ringItems_pop inv.inside.2.2.1 inv.inside.2.1 some
  generalize entry : s.usedRing (s.seenIdx % num) = i at used
  have back : i ∈ s.done ++ s.used := by simp [used]
  obtain ⟨b, r, j, k, head, busy, chained⟩ := inv.owner (mem_append_right _ back)
  have status := inv.status i back
  generalize behind :
    ringItems s.usedRing num wrap ((s.seenIdx + 1) % wrap) s.usedIdx = rest at used
  have round : s.intrRound = .ok { s with
      busy := update s.busy b false
      pc := update s.pc b (s.pc b).wakeBuf
      seenIdx := (s.seenIdx + 1) % wrap
      handled := update s.handled b (s.handled b + 1) } := by
    simp [State.intrRound, some, entry, status, chained.buf]
  refine ⟨_, round, ?_⟩
  have perm : s.queue.Perm (i :: (s.avail ++ s.working ++ (s.done ++ rest))) := by
    rw [State.queue, used, ← append_assoc (s.avail ++ s.working)]
    refine perm_middle.trans ?_
    rw [append_assoc (s.avail ++ s.working)]
  have distinct := nodup_cons.mp (perm.nodup_iff.mp inv.once)
  have same := Same.wakeBuf (s.pc b)
  have nobody (c : Nat) : ¬ (s.pc c).Locked := by
    intro holds
    rw [inv.locked c holds] at lock
    cases lock
  subst behind
  refine ⟨inv.advance (fun c _ => nobody c) rfl (fun c other x member => ?_) (fun c other => ?_)
    (fun c other => ⟨rfl, rfl, update_of_ne other .., rfl⟩) (fun _ _ => id) (fun x => ?_)
    (fun holds => absurd (Pc.wakeBuf_locked holds) (nobody b)) (same.descs ▸ inv.held b)
    (same.descs ▸ inv.distinct b)
    (fun r' i' j' k' found => ?_)
    ⟨inv.inside.1, inv.inside.2.1, Nat.mod_lt _ (by decide), inv.inside.2.2.2⟩
    distinct.2 (fun x => ?_) (fun x member => ?_)
    (fun waits => absurd waits (Pc.wakeBuf_waiting head))
    (fun _ => update_self ..) (fun x found => ?_) ?_, fun _ => id,
    State.goto_descs same.descs s.lock⟩
  · exact ⟨same.descs ▸ inv.foreign other member, (inv.held c x member).2, rfl, rfl, rfl⟩
  · exact update_of_ne other ..
  · rw [used]
    exact fun member => ((sublist_cons_self i _).append_left s.done).subset member
  · exact (inv.chained b r' i' j' k' (same.chain ▸ found)).congr (fun _ _ => rfl) rfl rfl
  · constructor
    · intro queued
      obtain ⟨c, r', found, waits⟩ :=
        (inv.pending x).mp (perm.mem_iff.mpr (mem_cons_of_mem i queued))
      refine .inr ⟨c, ?_, r', found, waits⟩
      rintro rfl
      cases found.symm.trans head
      exact distinct.1 queued
    · rintro (⟨_, _, waits⟩ | ⟨c, other, r', found, waits⟩)
      · cases (update_self ..).symm.trans waits
      · have queued := perm.mem_iff.mp ((inv.pending x).mpr ⟨c, r', found, waits⟩)
        exact (mem_cons.mp queued).resolve_left (inv.head_ne head found other)
  · refine inv.status x ?_
    rw [used]
    exact ((sublist_cons_self i _).append_left s.done).subset member
  · exact inv.entry b x (Pc.wakeBuf_entry ▸ found)
  · obtain ⟨whole, length, past⟩ := (inv.counted b).executed r i head back
    have shown : (update s.pc b (s.pc b).wakeBuf b).head = .some (r, i) := by
      rw [update_self, same.head, head]
    refine ⟨fun none => ?_, fun r' x found member => ?_, fun r' x found member => ?_,
      fun r' x _ _ => ?_⟩
    · cases shown.symm.trans none
    · cases shown.symm.trans found
      exact absurd (mem_append_left _ member) distinct.1
    · cases shown.symm.trans found
      exact absurd (mem_append_right _ member) distinct.1
    · refine ⟨whole, ?_, ?_⟩
      · simpa using length
      · simpa using past

theorem Inv.moves (inv : Inv s) (whole : s.Whole) (b : Nat) (p : Pc) (lock : Option Holder)
    (same : Same p (s.pc b)) (own : p.Locked → lock = some (.caller b))
    (others : ∀ c, c ≠ b → (s.pc c).Locked → lock = some (.caller c))
    (waiting : p.Waiting → s.busy b = true) (finishing : p.Finishing → s.busy b = false)
    (entry : p.entry = none) : Inv (s.goto b p lock) ∧ (s.goto b p lock).Whole := by
  refine ⟨inv.goto b p lock same own others waiting finishing fun i found => ?_, ?_⟩
  · rw [entry] at found
    cases found
  · exact whole.congr (fun _ => id) fun c => State.goto_descs same.descs lock c

theorem Inv.caller (inv : Inv s) (whole : s.Whole) (taken : s.caller b = some result) :
    ∃ t, result = .ok t ∧ Inv t ∧ t.Whole := by
  have exactly : ∀ t, s.caller b = some (.ok t) → Inv t ∧ t.Whole →
      ∃ t, result = .ok t ∧ Inv t ∧ t.Whole := by
    intro t stepped kept
    exact ⟨t, some.inj (taken.symm.trans stepped), kept⟩
  cases here : s.pc b with
  | idle | sleepFree | asleep => simp [State.caller, here] at taken
  | start | wake =>
    by_cases unlocked : s.lock = none
    · refine exactly _ (by simp only [State.caller, here, if_pos unlocked]; rfl) ?_
      exact inv.moves whole b _ _ (by rw [here]; exact ⟨rfl, rfl, rfl⟩) (fun _ => rfl)
        (fun c _ holds => absurd holds (inv.unlocked unlocked c)) False.elim False.elim rfl
    · simp [State.caller, here, unlocked] at taken
  | alloc r =>
    obtain ⟨t, stepped, invT, kept⟩ := inv.alloc here
    exact exactly t stepped ⟨invT, kept whole⟩
  | format r i j k =>
    refine exactly _ (by simp only [State.caller, here]) ⟨inv.format here, ?_⟩
    exact whole.congr (fun _ => id) fun c => State.goto_descs
      (by rw [State.format, here]; rfl) s.lock c
  | publish r i j k =>
    refine exactly _ (by simp only [State.caller, here]) ⟨inv.publish here, ?_⟩
    exact whole.congr (fun _ => id) fun c => State.goto_descs (by rw [here]; rfl) s.lock c
  | check r i j k =>
    have mine : (s.pc b).Locked := by rw [here]; trivial
    have locked := inv.locked b mine
    cases busy : s.busy b with
    | true =>
      refine exactly _ (by simp only [State.caller, here, busy, if_true]; rfl) ?_
      exact inv.moves whole b _ _ (by rw [here]; exact ⟨rfl, rfl, rfl⟩) False.elim
        (fun c other holds => absurd holds (inv.alone mine other)) (fun _ => busy) False.elim rfl
    | false =>
      refine exactly _
        (by simp only [State.caller, here, busy, Bool.false_eq_true, if_false]; rfl) ?_
      exact inv.moves whole b _ _ (by rw [here]; exact ⟨rfl, rfl, rfl⟩) (fun _ => locked)
        (fun c _ holds => inv.locked c holds) False.elim (fun _ => busy) rfl
  | finish r i j k =>
    obtain ⟨t, stepped, invT, kept⟩ := inv.finish here
    exact exactly t stepped ⟨invT, kept whole⟩

theorem Inv.relock (inv : Inv s) (lock : Option Holder) (nobody : ∀ c, ¬ (s.pc c).Locked) :
    Inv { s with lock := lock } :=
  inv.move s.pc lock (fun _ => ⟨rfl, rfl, rfl⟩) (fun c holds => absurd holds (nobody c)) inv.waiting
    inv.finishing inv.entry

theorem Inv.intrRound (inv : Inv s) (whole : s.Whole) (lock : s.lock = some .intr) :
    ∃ t, s.intrRound = .ok t ∧ Inv t ∧ t.Whole := by
  by_cases seen : s.seenIdx = s.usedIdx
  · refine ⟨_, if_pos seen, inv.relock none fun c holds => ?_, whole⟩
    rw [inv.locked c holds] at lock
    cases lock
  · obtain ⟨t, round, invT, same⟩ := inv.handle lock seen
    exact ⟨t, round, invT, whole.congr same.1 same.2⟩

theorem Inv.step (inv : Inv s) (whole : s.Whole) (event : Event)
    (taken : s.step event = some result) : ∃ t, result = .ok t ∧ Inv t ∧ t.Whole := by
  cases event with
  | call b r =>
    simp only [State.step, ite_none_right_eq_some, some.injEq] at taken
    obtain ⟨here, rfl⟩ := taken
    exact ⟨_, rfl, inv.moves whole b _ _ (by rw [here]; exact ⟨rfl, rfl, rfl⟩) False.elim
      (fun c _ holds => inv.locked c holds) False.elim False.elim rfl⟩
  | caller b => exact inv.caller whole taken
  | intr =>
    simp only [State.step, ite_none_right_eq_some, some.injEq] at taken
    obtain ⟨unlocked, rfl⟩ := taken
    exact ⟨_, rfl, inv.relock _ (inv.unlocked unlocked), whole⟩
  | intrRound =>
    simp only [State.step, ite_none_right_eq_some, some.injEq] at taken
    obtain ⟨lock, rfl⟩ := taken
    exact inv.intrRound whole lock
  | fetch =>
    simp only [State.step, ite_none_left_eq_some, some.injEq] at taken
    obtain ⟨some, rfl⟩ := taken
    exact ⟨_, rfl, inv.fetch some, whole⟩
  | serve i =>
    simp only [State.step, ite_none_right_eq_some, some.injEq] at taken
    obtain ⟨member, rfl⟩ := taken
    obtain ⟨t, served, invT, same⟩ := inv.serve member
    exact ⟨t, served, invT, whole.congr same.1 same.2⟩
  | complete i =>
    simp only [State.step, ite_none_right_eq_some, some.injEq] at taken
    obtain ⟨member, rfl⟩ := taken
    exact ⟨_, rfl, inv.complete member, whole⟩

/-- A request that the device sees is waiting, executed or handled. -/
theorem Inv.phase (inv : Inv s) (head : (s.pc b).head = some (r, i)) :
    i ∈ s.avail ++ s.working ∨ i ∈ s.done ++ s.used ∨ s.busy b = false := by
  cases busy : s.busy b with
  | false => exact .inr (.inr rfl)
  | true =>
    rcases mem_append.mp ((inv.pending i).mpr ⟨b, r, head, busy⟩) with front | back
    · exact .inl front
    · exact .inr (.inl back)

end EnhancedXv6.Virtio
