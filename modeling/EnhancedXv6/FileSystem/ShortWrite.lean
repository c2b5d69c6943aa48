import EnhancedXv6.FileSystem.Contents
import EnhancedXv6.Memory.Copyin

namespace EnhancedXv6.FileSystem

open Foundation
open EnhancedXv6.Memory (Kmem Layout System kinit bootSystem smallLayout)

/-- A call that works on the volume and on the memory of its process. -/
inductive UserPanic
  | fs (panic : Panic)
  | memory (panic : Memory.Panic)

structure Writer where
  volume : Volume
  kmem : Kmem

abbrev WriterM (α : Type) := Program UserPanic Writer α

def onVolume (x : FsM α) : WriterM α :=
  Program.zoom Writer.volume (fun s volume => { s with volume }) .fs x

/-- `either_copyin` from a user address: its result, and the bytes that it has stored. -/
def copyinUser (pagetable src len : Nat) : WriterM (Int × List UInt8) :=
  Program.zoom Writer.kmem (fun s kmem => { s with kmem }) .memory (Memory.copyin pagetable src len)

/-- The loop of `writei` with `user_src`. -/
def writeUserLoop (pagetable n : Nat) (ip : Inode) (tot off src : Nat) :
    WriterM (Nat × Nat × Inode) :=
  if tot < n then do
    let (addr, ip) ← onVolume (bmap ip (off / bsize))
    if addr = 0 then return (tot, off, ip)
    else
      let m := min (n - tot) (bsize - off % bsize)
      let (result, bytes) ← copyinUser pagetable src m
      let s ← get
      let data := copy (s.volume.disk addr) (off % bsize) bytes.length fun i => bytes.getD i 0
      if result = -1 then
        set { s with volume := s.volume.spoil addr data }
        return (tot, off, ip)
      else
        onVolume (logWrite addr data)
        writeUserLoop pagetable n ip (tot + m) (off + m) ((src + m) % 2 ^ 64)
  else return (tot, off, ip)
  termination_by n - tot
  decreasing_by
    have := Nat.mod_lt off (show 0 < bsize by decide)
    omega

/-- `writei` with `user_src`. -/
def writeiUser (pagetable : Nat) (ip : Inode) (src off n : Nat) : WriterM (Int × Inode) :=
  let stop := (off + n) % 2 ^ 32
  if ip.size < off ∨ stop < off then return (-1, ip)
  else if maxfile * bsize < stop then return (-1, ip)
  else do
    let (tot, off, ip) ← writeUserLoop pagetable n ip 0 off src
    let ip := if ip.size < off then { ip with size := off } else ip
    onVolume (iupdate ip)
    return (tot, ip)

variable {s t : Volume} {ip : Inode} {src : List UInt8} {off tot m j : Nat} {copies : Nat → Bool}

theorem copied_unique (few : j ≤ m) (before : ∀ i, i < j → copies (tot + i) = true)
    (stopped : j < m → copies (tot + j) = false) : copied copies tot m = j := by
  have below : copied copies tot m ≤ m := copied_le
  rcases Nat.lt_trichotomy (copied copies tot m) j with early | same | late
  · have refused := copied_false (early.trans_le few)
    rw [before _ early] at refused
    cases refused
  · exact same
  · have there := copied_true late
    rw [stopped (by omega)] at there
    cases there

def readable (k : Memory.Kmem) (pagetable va i : Nat) : Bool :=
  decide (k.Accessible pagetable (va + i))

section User

variable {layout : Layout} {k : Kmem} {live : Finset Nat} {node : Memory.Nodes}
  {books : Memory.Books} {r va n : Nat}

/-- A chunk of a source in the memory of a user: `copyin` stores the bytes before the first that is
not the user's. -/
theorem copyin_copied (sound : Memory.Sound layout k live node books) (root : r ∈ live)
    (va tot m : Nat) :
    ∃ result, Memory.copyin r (va + tot) m k =
        .ok ((result, k.userBytes r (va + tot) (copied (readable k r va) tot m)), k) ∧
      (result = 0 ∨ result = -1) ∧ (result = 0 ↔ copied (readable k r va) tot m = m) := by
  have meets : Meets (Memory.copyin r (va + tot) m) k _ fun _ => False :=
    Memory.copyinBytes_meets m sound root le_rfl
  obtain ⟨⟨result, bytes⟩, u, ended, rfl, j, shown, outcome⟩ := meets.ends
  dsimp only at shown outcome
  obtain ⟨all, same⟩ := sound.bytes_eq root shown
  have place (i : Nat) : va + (tot + i) = va + tot + i := by omega
  have read (i : Nat) (below : i < j) : readable u r va (tot + i) = true := by
    rw [readable, place]
    exact decide_eq_true (all i below)
  have number : copied (readable u r va) tot m = j := by
    refine copied_unique ?_ read fun less => ?_
    · rcases outcome with ⟨_, rfl⟩ | ⟨_, less, _⟩
      · exact le_rfl
      · exact less.le
    · rcases outcome with ⟨_, rfl⟩ | ⟨_, _, missing⟩
      · exact absurd less (Nat.lt_irrefl _)
      · rw [readable, place]
        refine decide_eq_false fun there => ?_
        rw [sound.accessible_iff root, missing] at there
        cases there
  rw [number]
  rw [same] at ended
  refine ⟨result, ended, ?_, ?_⟩
  · exact outcome.imp And.left And.left
  · rcases outcome with ⟨done, rfl⟩ | ⟨failed, less, _⟩
    · exact iff_of_true done rfl
    · exact iff_of_false (by omega) (by omega)

theorem userBytes_drop (k : Kmem) (r va n tot : Nat) :
    (k.userBytes r va n).drop tot = k.userBytes r (va + tot) (n - tot) := by
  refine List.ext_getElem (by simp [Kmem.userBytes]) fun i _ _ => ?_
  simp [Kmem.userBytes, Nat.add_assoc]

theorem userBytes_getD {i : Nat} (inside : i < n) :
    (k.userBytes r va n).getD i 0 = k.userByte r (va + i) := by
  simp [Kmem.userBytes, List.getD_eq_getElem?_getD, inside]

theorem copied_accessible (whole : copied (readable k r va) tot m = m) (some : 0 < m) :
    va + tot + m ≤ Memory.maxva := by
  have last : readable k r va (tot + (m - 1)) = true := copied_true (m := m) (by omega)
  have low := (of_decide_eq_true last).1
  omega

theorem copy_userBytes (data : Block) (place tot len : Nat) (few : len ≤ n - tot) :
    (copy data place (k.userBytes r (va + tot) len).length fun i =>
        (k.userBytes r (va + tot) len).getD i 0) =
      copy data place len fun i => ((k.userBytes r va n).drop tot).getD i 0 := by
  have size : (k.userBytes r (va + tot) len).length = len := by simp [Kmem.userBytes]
  rw [size, userBytes_drop]
  exact copy_congr fun i inside => by
    rw [userBytes_getD inside, userBytes_getD (by omega)]

/-- The loop works on a source in the memory of the user as it does on its bytes. -/
theorem writeUserLoop_meets {post : Nat × Nat × Inode → Volume → Prop} {stops : Panic → Prop}
    (sound : Memory.Sound layout k live node books) (root : r ∈ live) (start : tot ≤ n)
    (meets : Meets (writeLoop (readable k r va) ip tot off ((k.userBytes r va n).drop tot)) s
      post stops) :
    Meets (writeUserLoop r n ip tot off (va + tot)) ⟨s, k⟩
      (fun out t => t.kmem = k ∧ post out t.volume)
      fun e => ∃ panic, e = .fs panic ∧ stops panic := by
  induction left : n - tot using Nat.strong_induction_on generalizing s ip tot off with
  | _ left ih =>
    have size : ((k.userBytes r va n).drop tot).length = n - tot := by
      rw [userBytes_drop, Kmem.userBytes, List.length_map, List.length_range]
    rw [writeLoop] at meets
    rw [writeUserLoop]
    by_cases more : tot < n
    · have some : (k.userBytes r va n).drop tot ≠ [] := List.length_pos_iff.mp (by omega)
      rw [if_neg some, meets_bind] at meets
      rw [if_pos more, meets_bind]
      refine meets_zoom.mpr (meets.mono (fun found t rest => ?_) fun e stopped => ⟨e, rfl, stopped⟩)
      dsimp only at rest ⊢
      by_cases none : found.1 = 0
      · rw [if_pos none] at rest ⊢
        exact meets_pure.mpr ⟨rfl, meets_pure.mp rest⟩
      rw [if_neg none, meets_bind, meets_get] at rest
      rw [if_neg none, meets_bind]
      simp only [size] at rest
      have step : 0 < min (n - tot) (bsize - off % bsize) := by
        unfold bsize
        omega
      have least : min (n - tot) (bsize - off % bsize) ≤ n - tot := Nat.min_le_left _ _
      generalize min (n - tot) (bsize - off % bsize) = m at *
      obtain ⟨result, ended, status, whole⟩ := copyin_copied sound root va tot m
      refine meets_zoom.mpr (meets_of_ended ended ?_)
      dsimp only
      rw [meets_bind, meets_get, copy_userBytes _ _ _ _ (copied_le.trans least)]
      by_cases all : copied (readable k r va) tot m = m
      · have high := copied_accessible all step
        have wide : Memory.maxva < 2 ^ 64 := by decide
        have next : (va + tot + m) % 2 ^ 64 = va + (tot + m) := by
          rw [Nat.mod_eq_of_lt (by omega), Nat.add_assoc]
        rw [if_pos all, meets_bind, List.drop_drop] at rest
        rw [if_neg (by rw [whole.mpr all]; decide), meets_bind]
        refine meets_zoom.mpr (rest.mono (fun _ u rest => ?_) fun e stopped => ⟨e, rfl, stopped⟩)
        rw [next]
        exact ih (n - (tot + m)) (by omega) (by omega) rest rfl
      · have failed := status.resolve_left (mt whole.mp all)
        rw [if_neg all, meets_bind, meets_set] at rest
        rw [if_pos failed, meets_bind, meets_set]
        exact meets_pure.mpr ⟨rfl, meets_pure.mp rest⟩
    · have none : (k.userBytes r va n).drop tot = [] := List.length_eq_zero_iff.mp (by omega)
      rw [if_pos none] at meets
      rw [if_neg more]
      exact meets_pure.mpr ⟨rfl, meets_pure.mp meets⟩

theorem writeiUser_meets {post : Int × Inode → Volume → Prop} {stops : Panic → Prop}
    (sound : Memory.Sound layout k live node books) (root : r ∈ live)
    (meets : Meets (writei (readable k r va) ip off (k.userBytes r va n)) s post stops) :
    Meets (writeiUser r ip va off n) ⟨s, k⟩ (fun out t => t.kmem = k ∧ post out t.volume)
      fun e => ∃ panic, e = .fs panic ∧ stops panic := by
  have size : (k.userBytes r va n).length = n := by simp [Kmem.userBytes]
  unfold writei at meets
  unfold writeiUser
  simp only [size] at meets ⊢
  by_cases outside : ip.size < off ∨ (off + n) % 2 ^ 32 < off
  · rw [if_pos outside] at meets ⊢
    exact meets_pure.mpr ⟨rfl, meets_pure.mp meets⟩
  rw [if_neg outside] at meets ⊢
  by_cases large : maxfile * bsize < (off + n) % 2 ^ 32
  · rw [if_pos large] at meets ⊢
    exact meets_pure.mpr ⟨rfl, meets_pure.mp meets⟩
  rw [if_neg large, meets_bind] at meets
  rw [if_neg large, meets_bind]
  refine (writeUserLoop_meets sound root (Nat.zero_le _) meets).mono (fun out t ended => ?_)
    fun _ => id
  obtain ⟨same, rest⟩ := ended
  rw [meets_bind] at rest ⊢
  refine meets_zoom.mpr (rest.mono (fun _ u rest => ?_) fun e stopped => ⟨e, rfl, stopped⟩)
  exact meets_pure.mpr ⟨same, meets_pure.mp rest⟩

end User

/-- What `writei` returns is what was written, and everything else is as it was. -/
def Reported (bytes : List UInt8) (off : Nat) (src : List UInt8) (ip ip' : Inode) (t : Volume)
    (r : Int) : Prop :=
  ∀ tot : Nat, r = tot → tot ≤ src.length ∧ ip'.size = max ip.size (off + tot) ∧
    t.Shows ip' (splice bytes off (src.take tot))

theorem writei_reported {bytes : List UInt8} (inside : 0 < s.outstanding)
    (opened : Opened s ip bytes) (short : src.length < 2 ^ 32) :
    Meets (writei copies ip off src) s (fun out t => Reported bytes off src ip out.2 t out.1 ↔
      (off ≤ ip.size → off + src.length ≤ maxfile * bsize → Calm copies 0 off src bytes))
      fun _ => False := by
  have size := opened.size
  have small := opened.holds.small
  have few : maxfile * bsize < 2 ^ 32 := by decide
  by_cases accepted : off ≤ bytes.length ∧ off + src.length ≤ maxfile * bsize
  · refine (writei_meets inside opened accepted.1 accepted.2).mono
      (fun out t ended => ?_) fun _ => id
    obtain ⟨k, content, result, after, _, written, _⟩ := ended
    refine ⟨fun reports _ _ => ?_, fun calm tot same => ?_⟩
    · obtain ⟨_, _, shows⟩ := reports k result
      exact written.exact.mp (after.shows.unique after.fits.size shows)
    · obtain rfl : k = tot := Int.ofNat.inj (result.symm.trans same)
      have exact := written.exact.mpr (calm (size ▸ accepted.1) accepted.2)
      refine ⟨written.few, ?_, exact ▸ after.shows⟩
      rw [after.size, written.length, size]
  · have refused : writei copies ip off src s = .ok ((-1, ip), s) := by
      unfold writei
      simp only [size]
      by_cases inside : bytes.length < off ∨ (off + src.length) % 2 ^ 32 < off
      · rw [if_pos inside]
        rfl
      · rw [if_neg inside, if_pos (by omega)]
        rfl
    refine meets_of_ended refused ⟨fun _ start bound => ?_, fun _ tot same => ?_⟩
    · exact absurd ⟨size ▸ start, bound⟩ accepted
    · exact absurd same (by omega)

/-- What `writei` returns is what was written if and only if each part of a block that was copied
before a fault is what the file has there. For a source in the memory of a process, the bytes that
can be read are those of its page table. -/
theorem writei_reports_iff (s : Volume) (inside : 0 < s.outstanding) (ip : Inode)
    (bytes : List UInt8) (opened : Opened s ip bytes) (off : Nat) :
    (∀ (src : List UInt8) (copies : Nat → Bool), src.length < 2 ^ 32 →
      ∃ r ip' t, writei copies ip off src s = .ok ((r, ip'), t) ∧
        (Reported bytes off src ip ip' t r ↔
          (off ≤ ip.size → off + src.length ≤ maxfile * bsize → Calm copies 0 off src bytes))) ∧
    ∀ (layout : Layout) (mem : Foundation.Memory) (counts : Nat → Int) (u : Kmem),
      kinit layout ⟨mem, counts, 0⟩ = .ok ((), u) → ∀ (events : List Memory.Event) (m : System),
      exec (System.step layout) (System.start u) events = some m → ∀ (p : Nat) (q : Memory.Proc),
      m.procs p = some q → ∀ va n, n < 2 ^ 32 →
      ∃ r ip' t, writeiUser q.pagetable ip va off n ⟨s, m.kmem⟩ = .ok ((r, ip'), ⟨t, m.kmem⟩) ∧
        (Reported bytes off (m.kmem.userBytes q.pagetable va n) ip ip' t r ↔
          (off ≤ ip.size → off + n ≤ maxfile * bsize → Calm (readable m.kmem q.pagetable va) 0 off
            (m.kmem.userBytes q.pagetable va n) bytes)) := by
  refine ⟨fun src copies short => ?_, ?_⟩
  · have meets : Meets (writei copies ip off src) s _ fun _ => False :=
      writei_reported inside opened short
    obtain ⟨⟨r, ip'⟩, t, ended, iff⟩ := meets.ends
    exact ⟨r, ip', t, ended, iff⟩
  · intro layout mem counts u booted events m run p q here va n short
    obtain ⟨live, tfs, node, books, shows⟩ := System.valid_run booted run
    have size : (m.kmem.userBytes q.pagetable va n).length = n := by simp [Kmem.userBytes]
    have meets : Meets (writeiUser q.pagetable ip va off n) ⟨s, m.kmem⟩ _ fun _ => False :=
      (writeiUser_meets shows.sound (shows.proc here).1
        (writei_reported inside opened (size.trans_lt short))).mono (fun _ _ => id)
        fun _ stopped => stopped.elim fun _ never => never.2
    obtain ⟨⟨r, ip'⟩, ⟨t, k⟩, ended, rfl, iff⟩ := meets.ends
    rw [size] at iff
    exact ⟨r, ip', t, ended, iff⟩

/-- A fault in the first block of a write: the bytes before it are in the block. -/
theorem writei_torn {stops : Panic → Prop} (inside : 0 < s.outstanding) (start : off ≤ ip.size)
    (bound : off + src.length ≤ maxfile * bsize) (found : entry s.disk ip.addrs (off / bsize) ≠ 0)
    (fits : off % bsize + src.length ≤ bsize) (short : copied copies 0 src.length < src.length) :
    Meets (writei copies ip off src) s (fun r t => r = (0, ip) ∧
      t = (s.spoil (entry s.disk ip.addrs (off / bsize))
        (copy (s.disk (entry s.disk ip.addrs (off / bsize))) (off % bsize)
          (copied copies 0 src.length) fun i => src.getD i 0)).updated ip) stops := by
  have few : maxfile * bsize < 2 ^ 32 := by decide
  have plain : (off + src.length) % 2 ^ 32 = off + src.length := Nat.mod_eq_of_lt (by omega)
  have least : min src.length (bsize - off % bsize) = src.length := Nat.min_eq_left (by omega)
  have block : off / bsize < maxfile := by
    unfold bsize at *
    omega
  have some : src ≠ [] := List.length_pos_iff.mp (by omega)
  unfold writei
  simp only [plain]
  rw [if_neg (by omega), if_neg (by omega), meets_bind, writeLoop, if_neg some, meets_bind]
  refine meets_bmap block found ?_
  simp only [if_neg found]
  rw [meets_bind, meets_get]
  simp only [least, if_neg short.ne]
  rw [meets_bind, meets_set, meets_pure]
  simp only [if_neg (Nat.not_lt.mpr start)]
  rw [meets_bind]
  exact meets_iupdate inside (meets_pure.mpr ⟨rfl, rfl⟩)

/-- A source of which only the first byte can be read: nothing is reported, and the byte is in the
file. -/
theorem writei_torn_block : ∃ ip t, Opened smallVolume (smallVolume.inode 1) [1, 2] ∧
    writei (fun i => decide (i < 1)) (smallVolume.inode 1) 0 [7, 8] smallVolume = .ok ((0, ip), t) ∧
    readi (fun _ => true) ip 0 2 t = .ok ((2, [7, 2], ip), t) := by
  have opened := smallVolume_opened
  have found := opened.holds.mapped 0 (by decide)
  have meets : Meets (writei (fun i => decide (i < 1)) (smallVolume.inode 1) 0 [7, 8]) smallVolume _
      fun _ => False :=
    (writei_meets (by decide) opened (Nat.zero_le _) (by decide)).and
      (writei_torn (by decide) (Nat.zero_le _) (by decide) found (by decide) (by decide))
  obtain ⟨_, t, ended, ⟨k, content, result, after, _, written, _⟩, rfl, disk⟩ := meets.ends
  have none : k = 0 := Int.ofNat.inj result.symm
  have length : content.length = 2 := by rw [written.length, none]; rfl
  have block : t.disk 3 = copy (smallVolume.disk 3) 0 1 fun i => [7, 8].getD i 0 := by
    rw [disk, smallVolume_inode]
    rfl
  have addrs : (smallVolume.inode 1).addrs = oneBlock 3 := by
    rw [smallVolume_inode]
    rfl
  have whole : content = [7, 2] := by
    refine List.ext_getElem length fun i inside small => ?_
    have first : i < bsize := small.trans (by decide)
    have here := after.holds.byte i inside
    rw [Nat.div_eq_of_lt first, Nat.mod_eq_of_lt first, addrs, entry_oneBlock, if_pos rfl,
      block] at here
    rw [← here]
    change i < 2 at small
    interval_cases i <;> rfl
  subst whole
  obtain ⟨part, read, same⟩ := after.shows.2 0 2 (by decide) (by decide)
  rw [if_pos (by decide)] at same
  subst same
  exact ⟨smallVolume.inode 1, t, opened, ended, read⟩

/-- The source begins with the last byte of a page, the next page is not mapped, and the byte that
is read goes behind the end of the file. -/
theorem writei_reports_iff_small :
    ∃ u m q ip t, kinit smallLayout ⟨fun _ => 0, fun _ => 0, 0⟩ = .ok ((), u) ∧
      exec (System.step smallLayout) (System.start u) [.userinit 0 []] = some m ∧
      m.procs 0 = some q ∧ m.kmem.Accessible q.pagetable 4095 ∧
      ¬ m.kmem.Accessible q.pagetable 4096 ∧
      writeiUser q.pagetable (smallVolume.inode 1) 4095 2 2 ⟨smallVolume, m.kmem⟩ =
        .ok ((0, ip), ⟨t, m.kmem⟩) ∧ t.Shows ip [1, 2] := by
  have computed : ((bootSystem smallLayout [.userinit 0 []]).bind fun m => (m.procs 0).bind fun q =>
      (writeiUser q.pagetable (smallVolume.inode 1) 4095 2 2 ⟨smallVolume, m.kmem⟩).toOption.map
        fun out => (out.1.1, decide (m.kmem.Accessible q.pagetable 4095),
          decide (m.kmem.Accessible q.pagetable 4096))) = some (0, true, false) := by decide +kernel
  obtain ⟨m, booting, rest⟩ := Option.bind_eq_some_iff.mp computed
  obtain ⟨q, here, rest⟩ := Option.bind_eq_some_iff.mp rest
  obtain ⟨⟨⟨r, ip⟩, w⟩, written, facts⟩ := Option.map_eq_some_iff.mp rest
  simp only [Prod.mk.injEq] at facts
  obtain ⟨rfl, last, next⟩ := facts
  obtain ⟨u, booted, run⟩ := Memory.bootSystem_some booting
  obtain ⟨r, ip', t, ended, iff⟩ :=
    (writei_reports_iff smallVolume (by decide) (smallVolume.inode 1)
    [1, 2] smallVolume_opened 2).2 smallLayout _ _ u booted _ m run 0 q here 4095 2 (by decide)
  obtain ⟨same, rfl⟩ := Prod.mk.inj (Except.ok.inj (ended.symm.trans (ended_of_toOption written)))
  obtain ⟨rfl, rfl⟩ := Prod.mk.inj same
  have calm :
      Calm (readable m.kmem q.pagetable 4095) 0 2 (m.kmem.userBytes q.pagetable 4095 2) [1, 2] :=
    fun i j _ _ _ _ _ below => absurd below (Nat.not_lt.mpr (Nat.le_add_right 2 i))
  obtain ⟨_, _, shows⟩ := iff.mpr (fun _ _ => calm) 0 rfl
  exact ⟨u, m, q, ip', t, booted, run, here, of_decide_eq_true last, of_decide_eq_false next, ended,
    shows⟩

end EnhancedXv6.FileSystem
