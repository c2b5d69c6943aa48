import EnhancedXv6.FileSystem.Inode
import EnhancedXv6.FileSystem.Layout

namespace EnhancedXv6.FileSystem

open Foundation List

variable {post : Nat × Inode → Volume → Prop}

section

variable {s : Volume} {ip : Inode} {stops : Panic → Prop}

theorem meets_bmapAddr (found : ip.addrs i ≠ 0) (result : post (ip.addrs i, ip) s) :
    Meets (bmapAddr ip i) s post stops := by
  unfold bmapAddr
  rw [if_neg found]
  exact meets_pure.mpr result

theorem meets_bmap (inside : n < maxfile) (found : entry s.disk ip.addrs n ≠ 0)
    (result : post (entry s.disk ip.addrs n, ip) s) : Meets (bmap ip n) s post stops := by
  unfold bmap
  by_cases direct : n < ndirect
  · have there : entry s.disk ip.addrs n = ip.addrs n := if_pos direct
    rw [there] at found result
    rw [if_pos direct]
    exact meets_bmapAddr found result
  · have table : ip.addrs ndirect ≠ 0 := by
      intro none
      exact found ((if_neg direct).trans (if_pos none))
    have there : entry s.disk ip.addrs n = load (s.disk (ip.addrs ndirect)) (4 * (n - ndirect)) 4 :=
      (if_neg direct).trans (if_neg table)
    rw [there] at found result
    have within : n - ndirect < nindirect := by
      unfold maxfile at inside
      omega
    rw [if_neg direct, if_pos within, meets_bind]
    refine meets_bmapAddr table ?_
    simp only [if_neg table]
    rw [meets_bind, meets_get]
    simp only [if_neg found]
    exact meets_pure.mpr result

/-- The loop of `readi` where every block has an address: it changes nothing. -/
theorem readLoop_silent (copies : Nat → Bool) (n : Nat) (tot off : Nat) (got : List UInt8)
    (mapped : ∀ k, k * bsize < off + (n - tot) → k < maxfile ∧ entry s.disk ip.addrs k ≠ 0) :
    Meets (readLoop copies n ip tot off got) s (fun _ t => t = s) stops := by
  induction left : n - tot using Nat.strong_induction_on generalizing tot off got with
  | _ rest ih =>
    rw [readLoop]
    by_cases more : tot < n
    · have block := mapped (off / bsize) (by unfold bsize; omega)
      rw [if_pos more, meets_bind]
      refine meets_bmap block.1 block.2 ?_
      simp only [if_neg block.2]
      rw [meets_bind, meets_get]
      cases copied : copies tot with
      | false =>
        simp only [Bool.false_eq_true, if_false]
        exact meets_pure.mpr rfl
      | true =>
        simp only [if_true]
        have step : 0 < min (n - tot) (bsize - off % bsize) := by
          unfold bsize
          omega
        refine ih _ ?_ _ _ _ (fun k below => mapped k ?_) rfl
        all_goals omega
    · rw [if_neg more]
      exact meets_pure.mpr rfl

theorem Holds.read {disk : Disk} (holds : Holds disk addrs bytes) (inside : off + m ≤ bytes.length)
    (fits : off % bsize + m ≤ bsize) (some : 0 < m) :
    (range m).map (fun i => disk (entry disk addrs (off / bsize)) (off % bsize + i)) =
      (bytes.drop off).take m := by
  refine ext_getElem ?_ fun k left right => ?_
  · simp
    omega
  · have below : k < m := by simpa using left
    have value := holds.byte (off + k) (by omega)
    have block : (off + k) / bsize = off / bsize := by
      unfold bsize at *
      omega
    have place : (off + k) % bsize = off % bsize + k := by
      unfold bsize at *
      omega
    rw [block, place] at value
    simp only [getElem_map, getElem_range, getElem_take, getElem_drop]
    exact value

theorem readLoop_meets (holds : Holds s.disk ip.addrs bytes) (n : Nat) (tot off : Nat)
    (got : List UInt8) (start : tot ≤ n) (inside : off + (n - tot) ≤ bytes.length) :
    Meets (readLoop (fun _ => true) n ip tot off got) s
      (fun r t => r = ((n : Int), got ++ (bytes.drop off).take (n - tot), ip) ∧ t = s) stops := by
  induction left : n - tot using Nat.strong_induction_on generalizing tot off got with
  | _ rest ih =>
    rw [readLoop]
    by_cases more : tot < n
    · have found := holds.mapped (off / bsize) (by unfold bsize; omega)
      have block := holds.block_lt (k := off) (by omega)
      rw [if_pos more, meets_bind]
      refine meets_bmap block found ?_
      simp only [if_neg found]
      rw [meets_bind, meets_get]
      simp only [if_true]
      have step : 0 < min (n - tot) (bsize - off % bsize) := by
        unfold bsize
        omega
      have least : min (n - tot) (bsize - off % bsize) ≤ n - tot := Nat.min_le_left _ _
      have fits : off % bsize + min (n - tot) (bsize - off % bsize) ≤ bsize := by
        unfold bsize
        omega
      generalize min (n - tot) (bsize - off % bsize) = m at *
      have within : off + m ≤ bytes.length := by omega
      have part := holds.read within fits step
      rw [part]
      refine (ih (n - (tot + m)) (by omega) (tot + m) (off + m) _ (by omega) (by omega) rfl).mono
        (fun r t after => ⟨?_, after.2⟩) fun _ => id
      rw [after.1, append_assoc, ← drop_drop, ← take_add]
      congr 4
      omega
    · have whole : tot = n := by omega
      have zero : n - tot = 0 := by omega
      rw [if_neg more, ← left, zero, take_zero, append_nil, whole]
      exact meets_pure.mpr ⟨rfl, rfl⟩

/-- `readi` of a file into kernel memory, for offsets and counts whose sum does not wrap. -/
theorem readi_meets (holds : Holds s.disk ip.addrs bytes) (size : ip.size = bytes.length)
    (plain : off + n < 2 ^ 32) :
    Meets (readi (fun _ => true) ip off n) s
      (fun r t => r = ((((bytes.drop off).take n).length : Int), (bytes.drop off).take n, ip) ∧
        t = s) stops := by
  unfold readi
  simp only [Nat.mod_eq_of_lt plain, size]
  by_cases beyond : bytes.length < off
  · rw [if_pos (.inl beyond), drop_eq_nil_of_le beyond.le]
    exact meets_pure.mpr ⟨by simp, rfl⟩
  · rw [if_neg (by omega)]
    refine (readLoop_meets holds _ 0 off [] (Nat.zero_le _) ?_).mono
      (fun r t after => ⟨?_, after.2⟩) fun _ => id
    · split <;> omega
    · have part :
          (bytes.drop off).take ((if bytes.length < off + n then bytes.length - off else n) - 0) =
          (bytes.drop off).take n := by
        split
        · rw [Nat.sub_zero, take_of_length_le (by rw [length_drop]),
            take_of_length_le (by rw [length_drop]; omega)]
        · rfl
      rw [after.1, part, nil_append]
      congr 2
      rw [length_take, length_drop]
      split <;> omega

end

/-- Every block of an inode below its size has an address. -/
def NoHoles (disk : Disk) (d : Dinode) : Prop :=
  ∀ n, n * bsize < d.size → n < maxfile ∧ entry disk d.addrs n ≠ 0

/-- Reading an inode without holes allocates nothing, whatever happens to the copies. -/
theorem readi_silent {s : Volume} {ip : Inode} {stops : Panic → Prop}
    (whole : NoHoles s.disk ip.toDinode) (copies : Nat → Bool) (offSmall : off < 2 ^ 32)
    (nSmall : n < 2 ^ 32) : Meets (readi copies ip off n) s (fun _ t => t = s) stops := by
  unfold readi
  simp only
  by_cases refused : ip.size < off ∨ (off + n) % 2 ^ 32 < off
  · rw [if_pos refused]
    exact meets_pure.mpr rfl
  · rw [if_neg refused]
    refine readLoop_silent copies _ 0 off [] fun k below => whole k ?_
    split at below <;> omega

/-- Outside of a transaction `balloc` panics as soon as it finds a free block. -/
theorem balloc_outside {s : Volume} (outside : s.outstanding = 0) (free : b < s.sb.size)
    (unmarked : marked (s.disk (s.sb.bblock b)) (b % bpb) = false) :
    Meets balloc s (fun _ _ => False) fun e => e = .logWriteOutside := by
  unfold balloc
  rw [meets_bind, meets_get]
  cases first : (range s.sb.size).find? fun b => !marked (s.disk (s.sb.bblock b)) (b % bpb) with
  | none =>
    have none := find?_eq_none.mp first b (mem_range.mpr free)
    simp [unmarked] at none
  | some c =>
    simp only
    rw [meets_bind]
    unfold logWrite
    rw [meets_bind, meets_get, if_pos (by omega)]
    exact meets_throw.mpr rfl

/-- `readi` of a direct block that has no address, outside of a transaction. -/
theorem readi_hole {s : Volume} {ip : Inode} (outside : s.outstanding = 0) (free : b < s.sb.size)
    (unmarked : marked (s.disk (s.sb.bblock b)) (b % bpb) = false) (direct : off / bsize < ndirect)
    (none : ip.addrs (off / bsize) = 0) (inside : off + n ≤ ip.size) (some : 0 < n)
    (small : ip.size < 2 ^ 32) (copies : Nat → Bool) :
    Meets (readi copies ip off n) s (fun _ _ => False) fun e => e = .logWriteOutside := by
  unfold readi
  simp only [Nat.mod_eq_of_lt (show off + n < 2 ^ 32 by omega)]
  rw [if_neg (by omega), if_neg (by omega), readLoop, if_pos some, meets_bind]
  unfold bmap
  rw [if_pos direct]
  unfold bmapAddr
  rw [if_pos none, meets_bind]
  exact (balloc_outside outside free unmarked).mono (fun _ _ => False.elim) fun _ => id

end EnhancedXv6.FileSystem
