import EnhancedXv6.FileSystem.SharedWrite

namespace EnhancedXv6.FileSystem

open Foundation List

variable {s t u : Volume} {ip : Inode} {copies : Nat → Bool} {off n tot : Nat} {src : List UInt8}
  {stops : Panic → Prop} {allowed more : Nat → Prop}

/-- Only some blocks are given to the log between two states. -/
structure Logs (s t : Volume) (allowed : Nat → Prop) : Prop where
  sb : t.sb = s.sb
  outstanding : t.outstanding = s.outstanding
  blocks : ∃ new, t.logged = new ++ s.logged ∧ ∀ b ∈ new, allowed b

theorem Logs.none (sb : t.sb = s.sb) (outstanding : t.outstanding = s.outstanding)
    (logged : t.logged = s.logged) : Logs s t allowed :=
  ⟨sb, outstanding, [], logged, fun _ member => absurd member not_mem_nil⟩

theorem Logs.mono (logs : Logs s t allowed) (less : ∀ b, allowed b → more b) : Logs s t more := by
  obtain ⟨sb, outstanding, new, logged, each⟩ := logs
  exact ⟨sb, outstanding, new, logged, fun b member => less b (each b member)⟩

theorem Logs.trans (first : Logs s t allowed) (second : Logs t u allowed) : Logs s u allowed := by
  obtain ⟨sb, outstanding, new, logged, each⟩ := first
  obtain ⟨sb', outstanding', new', logged', each'⟩ := second
  refine ⟨sb'.trans sb, outstanding'.trans outstanding,
    new' ++ new, by rw [logged', logged, append_assoc], ?_⟩
  intro b member
  exact (mem_append.mp member).elim (each' b) (each b)

theorem logs_write (s : Volume) (b : Nat) (data : Block) : Logs s (s.write b data) (· = b) :=
  ⟨rfl, rfl, [b], rfl, fun _ member => mem_singleton.mp member⟩

/-- `balloc` logs the block of the bitmap and the block that it returns, which may be 0 where the
bitmap is wrong. -/
theorem balloc_logs (inside : 0 < s.outstanding) (small : s.sb.size ≤ bpb) :
    Meets balloc s (fun b t => Logs s t fun x => x = s.sb.bmapstart ∨ x = b) stops := by
  refine balloc_meets inside (.none rfl rfl rfl) fun b less _ => ?_
  have block : s.sb.bblock b = s.sb.bmapstart := by
    rw [Superblock.bblock, Nat.div_eq_of_lt (less.trans_le small), Nat.zero_add]
  have bitmap := logs_write s (s.sb.bblock b) (mark (s.disk (s.sb.bblock b)) (b % bpb))
  rw [block] at bitmap
  have zeroed :=
    logs_write (s.write (s.sb.bblock b) (mark (s.disk (s.sb.bblock b)) (b % bpb))) b zeroes
  rw [block] at zeroed
  have both := (bitmap.mono fun _ => Or.inl).trans (zeroed.mono fun _ => Or.inr)
  unfold Volume.allocated
  rwa [block]

theorem bmapAddr_logs (inside : 0 < s.outstanding) (small : s.sb.size ≤ bpb) (i : Nat) :
    Meets (bmapAddr ip i) s (fun r t => Logs s t (fun x => x = s.sb.bmapstart ∨ x = r.1) ∧
      (r.1 ≠ 0 → r.2.addrs i = r.1) ∧ (ip.addrs i ≠ 0 → t = s ∧ r.2 = ip) ∧
      ∀ j, j ≠ i → r.2.addrs j = ip.addrs j) stops := by
  unfold bmapAddr
  split
  · rename_i none
    refine (balloc_logs inside small).bind fun b t logs => ?_
    split
    · rename_i zero
      rw [meets_pure]
      refine ⟨zero ▸ logs, fun real => absurd rfl real, fun found => absurd none found,
        fun _ _ => rfl⟩
    · rw [meets_pure]
      exact ⟨logs, fun _ => Function.update_self _ _ _, fun found => absurd none found,
        fun j other => Function.update_of_ne other _ _⟩
  · rw [meets_pure]
    exact ⟨.none rfl rfl rfl, fun _ => rfl, fun _ => ⟨rfl, rfl⟩, fun _ _ => rfl⟩

/-- `bmap` logs no more than the bitmap, the block that it returns and the indirect block, which
never changes once it is there. -/
theorem bmap_logs (inside : 0 < s.outstanding) (small : s.sb.size ≤ bpb) (block : n < maxfile) :
    Meets (bmap ip n) s (fun r t =>
      Logs s t (fun x => x = s.sb.bmapstart ∨ x = r.1 ∨ x = r.2.addrs ndirect ∧ x ≠ 0) ∧
      (ip.addrs ndirect ≠ 0 → r.2.addrs ndirect = ip.addrs ndirect)) stops := by
  unfold bmap
  split
  · rename_i direct
    refine (bmapAddr_logs inside small n).mono
      (fun r t ⟨logs, _, _, others⟩ => ⟨logs.mono fun x => ?_, fun _ => ?_⟩)
      fun _ => id
    · exact Or.imp_right Or.inl
    · exact others ndirect (by omega)
  split
  · refine (bmapAddr_logs inside small ndirect).bind fun r t met => ?_
    obtain ⟨logs, table, kept, _⟩ := met
    obtain ⟨addr, ip1⟩ := r
    simp only at logs table kept ⊢
    have same (found : ip.addrs ndirect ≠ 0) :
      ip1.addrs ndirect = ip.addrs ndirect := by rw [(kept found).2]
    split
    · rename_i zero
      rw [meets_pure]
      exact ⟨logs.mono fun x => Or.imp_right fun here => .inl (here.trans zero), same⟩
    rename_i real
    have there := table real
    have first (result : Nat) :
        Logs s t fun x => x = s.sb.bmapstart ∨ x = result ∨ x = ip1.addrs ndirect ∧ x ≠ 0 := by
      refine logs.mono fun x => Or.imp_right fun here => .inr ?_
      rw [there, here]
      exact ⟨rfl, real⟩
    have inside1 : 0 < t.outstanding := logs.outstanding ▸ inside
    have small1 : t.sb.size ≤ bpb := logs.sb ▸ small
    rw [meets_bind, meets_get]
    split
    · refine (balloc_logs inside1 small1).bind fun b u logs' => ?_
      rw [logs.sb] at logs'
      have second := (first b).trans (logs'.mono fun x => Or.imp_right Or.inl)
      split
      · rename_i zero
        rw [meets_pure]
        exact ⟨zero ▸ second, same⟩
      · rw [meets_bind, meets_get, meets_bind]
        refine meets_logWrite (logs'.outstanding ▸ inside1) (meets_pure.mpr ⟨second.trans ?_, same⟩)
        refine (logs_write u addr _).mono fun x here => .inr (.inr ?_)
        rw [there, here]
        exact ⟨rfl, real⟩
    · rw [meets_pure]
      exact ⟨first _, same⟩
  · rename_i outside
    unfold maxfile at block
    omega

/-- The number of blocks of a file that a range touches. -/
def span (off n : Nat) : Nat :=
  if n = 0 then 0 else (off % bsize + n - 1) / bsize + 1

theorem span_next {m : Nat} (some : 0 < n) (chunk : m = min n (bsize - off % bsize)) :
    span (off + m) (n - m) + 1 ≤ span off n := by
  unfold span bsize at *
  rcases Nat.le_total n (1024 - off % 1024) with fits | crosses
  · rw [if_pos (by omega), if_neg (by omega)]
    omega
  · have start : (off + m) % 1024 = 0 := by omega
    rw [start]
    split <;> split <;> omega

/-- The loop of `writei` logs one block for each that the range touches, the bitmap, and one
indirect block. -/
theorem writeLoop_logs (src : List UInt8) (inside : 0 < s.outstanding) (small : s.sb.size ≤ bpb)
    (bound : off + src.length ≤ maxfile * bsize) :
    Meets (writeLoop copies ip tot off src) s (fun r t => ∃ data :
      Finset Nat, data.card ≤ span off src.length ∧
      Logs s t (fun x => x = s.sb.bmapstart ∨ x ∈ data ∨ x = r.2.2.addrs ndirect ∧ x ≠ 0) ∧
      (ip.addrs ndirect ≠ 0 → r.2.2.addrs ndirect = ip.addrs ndirect)) stops := by
  induction size : src.length using Nat.strong_induction_on generalizing src s ip off tot with
  | _ n ih =>
    rw [writeLoop]
    split
    · rw [meets_pure]
      exact ⟨∅, Nat.zero_le _, .none rfl rfl rfl, fun _ => rfl⟩
    rename_i some
    have positive := length_pos_of_ne_nil some
    have block : off / bsize < maxfile := by
      unfold bsize at *
      omega
    have one : 1 ≤ span off n := by
      unfold span
      rw [if_neg (by omega)]
      exact Nat.le_add_left 1 _
    refine (bmap_logs inside small block).bind fun r t met => ?_
    obtain ⟨logs, table⟩ := met
    obtain ⟨addr, ip1⟩ := r
    simp only at logs table ⊢
    have first : Logs s t fun x => x = s.sb.bmapstart ∨ x ∈ ({addr} : Finset Nat) ∨
        x = ip1.addrs ndirect ∧ x ≠ 0 :=
      logs.mono fun x => Or.imp_right (Or.imp_left Finset.mem_singleton.mpr)
    have single : ({addr} : Finset Nat).card ≤ span off n := by
      rw [Finset.card_singleton]
      exact one
    split
    · rw [meets_pure]
      exact ⟨{addr}, single, first, table⟩
    rw [meets_bind, meets_get]
    have inside1 : 0 < t.outstanding := logs.outstanding ▸ inside
    generalize chunk : min src.length (bsize - off % bsize) = m
    generalize copy (t.disk addr) (off % bsize) (copied copies tot m)
      (fun i => src.getD i 0) = content
    split
    · rw [meets_bind]
      refine meets_logWrite inside1 ?_
      have wrote := logs_write t addr content
      have some : 0 < m := by
        unfold bsize at chunk
        omega
      have sb : (t.write addr content).sb = s.sb := logs.sb
      refine (ih (src.drop m).length (by rw [length_drop]; omega) (src.drop m)
        (show 0 < (t.write addr content).outstanding from inside1) (sb ▸ small)
        (by rw [length_drop]; omega) rfl).mono
        (fun r u met => ?_) fun _ => id
      obtain ⟨data, few, rest, kept⟩ := met
      rw [sb] at rest
      refine ⟨insert addr data, ?_, ?_, fun found => (kept ?_).trans (table found)⟩
      · have card := Finset.card_insert_le addr data
        have next := span_next positive chunk.symm
        rw [← length_drop, size] at next
        omega
      · have wrote' : Logs s (t.write addr content) fun x =>
            x = s.sb.bmapstart ∨ x ∈ insert addr data ∨ x = r.2.2.addrs ndirect ∧ x ≠ 0 := by
          refine (logs.mono fun x => ?_).trans
            (wrote.mono fun x here => .inr (.inl (here ▸ Finset.mem_insert_self _ _)))
          rintro (bitmap | here | ⟨here, real⟩)
          · exact .inl bitmap
          · exact .inr (.inl (here ▸ Finset.mem_insert_self _ _))
          · exact .inr (.inr ⟨here.trans (kept (here ▸ real)).symm, real⟩)
        refine wrote'.trans (rest.mono fun x => Or.imp_right (Or.imp_left fun member => ?_))
        exact Finset.mem_insert_of_mem member
      · rw [table found]
        exact found
    · rw [meets_bind, meets_set, meets_pure]
      exact ⟨{addr}, single, first.trans (.none rfl rfl rfl), table⟩

theorem writei_logs (inside : 0 < s.outstanding) (small : s.sb.size ≤ bpb)
    (short : src.length < 2 ^ 32) :
    Meets (writei copies ip off src) s (fun _ t => ∃ new, t.logged = new ++ s.logged ∧
      new.toFinset.card ≤ span off src.length + 3) stops := by
  unfold writei
  simp only
  split
  · rw [meets_pure]
    exact ⟨[], rfl, Nat.zero_le _⟩
  split
  · rw [meets_pure]
    exact ⟨[], rfl, Nat.zero_le _⟩
  rename_i inside' bounded
  refine (writeLoop_logs src inside small (by omega)).bind fun r t met => ?_
  obtain ⟨data, few, logs, _⟩ := met
  obtain ⟨tot, off', ip1⟩ := r
  simp only at logs ⊢
  generalize (if ip1.size < off' then { ip1 with size := off' } else ip1 : Inode) = ip2
  rw [meets_bind]
  refine meets_iupdate (logs.outstanding ▸ inside) (meets_pure.mpr ?_)
  have update : Logs t (t.updated ip2) (· = t.sb.iblock ip2.inum) := logs_write _ _ _
  generalize t.sb.iblock ip2.inum = inode at update
  obtain ⟨new, logged, each⟩ :=
    ((logs.mono fun x => Or.inl).trans (update.mono fun x => Or.inr)).blocks
  refine ⟨new, logged, ?_⟩
  have within :
      new.toFinset ⊆ insert s.sb.bmapstart (insert (ip1.addrs ndirect) (insert inode data)) := by
    intro x member
    simp only [Finset.mem_insert]
    rcases each x (mem_toFinset.mp member) with (bitmap | here | ⟨table, _⟩) | here
    · exact .inl bitmap
    · exact .inr (.inr (.inr here))
    · exact .inr (.inl table)
    · exact .inr (.inr (.inl here))
  have first :=
    Finset.card_insert_le s.sb.bmapstart (insert (ip1.addrs ndirect) (insert inode data))
  have second := Finset.card_insert_le (ip1.addrs ndirect) (insert inode data)
  have third := Finset.card_insert_le inode data
  have all := Finset.card_le_card within
  omega

/-- Each transaction of `filewrite` ends, and gives no more blocks to the log than an operation may.
-/
theorem filewrite_log_budget (s : Shared) (small : s.vol.sb.size ≤ bpb) (who : Nat)
    (copies : Nat → Bool) (next : Except Panic Shared) (taken : s.write who copies = some next) :
    ∃ t new, next = .ok t ∧ t.vol.logged = new ++ s.vol.logged ∧
      new.toFinset.card ≤ Log.maxopblocks := by
  unfold Shared.write at taken
  split at taken
  · cases taken
  rename_i call _
  split at taken
  · cases taken
  have chunk : call.next.length ≤ maxChunk := call.length_next.trans_le (min_le_right _ _)
  have few : span s.off call.next.length ≤ 4 := by
    unfold span
    unfold maxChunk Log.maxopblocks bsize at *
    split <;> omega
  have meets : Meets (writei copies s.ip s.off call.next)
      { s.vol with outstanding := s.vol.outstanding + 1 } _
      fun _ => False := writei_logs (Nat.succ_pos _) small (chunk.trans_lt (by decide))
  obtain ⟨result, vol, ended, new, logged, within⟩ := meets.ends
  rw [ended] at taken
  cases taken
  refine ⟨_, new, rfl, logged, within.trans ?_⟩
  unfold Log.maxopblocks
  omega

/-- One byte is written to a file of a new image. -/
theorem filewrite_log_budget_one_byte :
    ∃ image next t new, Mkfs.main [sixBytes] Mkfs.start = .ok ((), image) ∧
    (calledAt image 0).write 0 (fun _ => true) = some next ∧ next = .ok t ∧
    t.vol.logged = new ++ (calledAt image 0).vol.logged ∧ new.toFinset.card ≤ Log.maxopblocks := by
  have acceptable : Mkfs.Acceptable [sixBytes] :=
    Mkfs.acceptable_of (by decide) (by decide) (by decide) (by decide)
  obtain ⟨image, made, final⟩ := Mkfs.main_ends (by decide) acceptable
  have small : (calledAt image 0).vol.sb.size ≤ bpb := by
    change (mounted image 0 0).sb.size ≤ bpb
    rw [final.mounted_sb]
    decide
  obtain ⟨t, new, same, logged, few⟩ :=
    filewrite_log_budget (calledAt image 0) small 0 (fun _ => true) _ rfl
  exact ⟨image, _, t, new, made, rfl, same, logged, few⟩

end EnhancedXv6.FileSystem
