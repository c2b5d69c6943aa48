import EnhancedXv6.FileSystem.ShortWrite

/-! `fileread` of an inode into the memory of a user. The count is a signed number in the
system call and an unsigned one in `readi`. -/

namespace EnhancedXv6.FileSystem

open Foundation List Option
open EnhancedXv6.Memory (Kmem Layout System kinit bootSystem smallLayout)

variable {volume : Volume}

/-- The volume and the memory; `stored` lists the bytes that `copyout` has put there. -/
structure Reader where
  volume : Volume
  kmem : Kmem
  stored : List UInt8

abbrev ReaderM (α : Type) := Program UserPanic Reader α

/-- `either_copyout` to a user address. It stores up to the first byte that is not the user's. -/
def copyoutUser (pagetable dst : Nat) (src : Nat → UInt8) (len : Nat) : ReaderM Int := do
  let s ← get
  let result ← Program.zoom Reader.kmem (fun s kmem => { s with kmem }) .memory
    (Memory.copyout pagetable dst src len)
  modify fun t => { t with
    stored := t.stored ++ (List.range (copied (readable s.kmem pagetable dst) 0 len)).map src }
  return result

def bmapReader (ip : Inode) (bn : Nat) : ReaderM (Nat × Inode) :=
  Program.zoom Reader.volume (fun s volume => { s with volume }) .fs (bmap ip bn)

/-- The loop of `readi` with `user_dst`, with a bound on its rounds. -/
def readUserLoop (pagetable n : Nat) : Nat → Inode → Nat → Nat → Nat → ReaderM (Int × Inode)
  | 0, ip, tot, _, _ => return (tot, ip)
  | fuel + 1, ip, tot, off, dst =>
    if tot < n then do
      let (addr, ip) ← bmapReader ip (off / bsize)
      if addr = 0 then
        return (tot, ip)
      else
        let s ← get
        let m := min (n - tot) (bsize - off % bsize)
        let result ← copyoutUser pagetable dst (fun i => s.volume.disk addr (off % bsize + i)) m
        if result = -1 then
          return (-1, ip)
        else
          readUserLoop pagetable n fuel ip (tot + m) (off + m) ((dst + m) % 2 ^ 64)
    else
      return (tot, ip)

/-- `readi` with `user_dst`. -/
def readiUser (pagetable : Nat) (ip : Inode) (dst off n : Nat) : ReaderM (Int × Inode) :=
  let stop := (off + n) % 2 ^ 32
  if ip.size < off ∨ stop < off then
    return (0, ip)
  else
    let n := if ip.size < stop then ip.size - off else n
    readUserLoop pagetable n n ip 0 off dst

/-- `struct file` of type `FD_INODE`. -/
structure InodeFile where
  readable : Bool
  off : Nat
  ip : Inode

/-- `fileread` of such a file; `readi` takes `n` as a `uint`. -/
def fileread (pagetable addr : Nat) (n : Int) (f : InodeFile) : ReaderM (Int × InodeFile) :=
  if f.readable = false then
    return (-1, f)
  else do
    let (r, ip) ← readiUser pagetable f.ip addr f.off (n % 2 ^ 32).toNat
    if 0 < r then
      return (r, { f with ip := ip, off := (f.off + r.toNat) % 2 ^ 32 })
    else
      return (r, { f with ip := ip })

section Copies

variable {layout : Layout} {k u w : Kmem} {live : Finset Nat} {node : Memory.Nodes}
  {books : Memory.Books} {r va len : Nat} {src : Nat → UInt8} {copies : Nat → Bool}
  {xs ys : List UInt8}

/-- The bytes of the user after a list was put at an address. -/
def Puts (k u : Kmem) (r va : Nat) (bytes : List UInt8) : Prop :=
  ∀ a, k.Accessible r a → u.userByte r a =
    if va ≤ a ∧ a < va + bytes.length then bytes.getD (a - va) 0 else k.userByte r a

theorem Puts.nil : Puts k k r va [] :=
  fun a _ => (if_neg (by rw [length_nil]; omega)).symm

theorem Puts.append (same : ∀ a, u.Accessible r a ↔ k.Accessible r a) (first : Puts k u r va xs)
    (second : Puts u w r (va + xs.length) ys) : Puts k w r va (xs ++ ys) := by
  intro a there
  rw [second a ((same a).mpr there), first a there, length_append]
  by_cases before : a < va + xs.length
  · rw [if_neg (by omega)]
    by_cases start : va ≤ a
    · rw [if_pos ⟨start, before⟩, if_pos ⟨start, by omega⟩, getD_append _ _ _ _ (by omega)]
    · rw [if_neg (by omega), if_neg (by omega)]
  · by_cases inside : a < va + xs.length + ys.length
    · rw [if_pos ⟨by omega, inside⟩, if_pos ⟨by omega, by omega⟩,
        getD_append_right _ _ _ _ (by omega)]
      congr 1
      omega
    · rw [if_neg (by omega), if_neg (by omega), if_neg (by omega)]

theorem copied_lt_iff {i : Nat} :
    i < copied copies 0 len ↔ i < len ∧ ∀ j, j ≤ i → copies j = true := by
  constructor
  · intro below
    refine ⟨below.trans_le copied_le, fun j before => ?_⟩
    have there := copied_true (before.trans_lt below)
    rwa [Nat.zero_add] at there
  · rintro ⟨inside, all⟩
    by_contra late
    have short : copied copies 0 len < len := by omega
    have refused := copied_false short
    rw [Nat.zero_add, all _ (by omega)] at refused
    cases refused

/-- `copyout` stores up to the first byte that is not the user's, also when it fails. -/
theorem copyout_puts {result : Int} (sound : Memory.Sound layout k live node books)
    (root : r ∈ live) (ended : Memory.copyout r va src len k = .ok (result, u)) :
    Puts k u r va ((range (copied (readable k r va) 0 len)).map src) := by
  have meets : Meets (Memory.copyout r va src len) k _ fun _ => True :=
    Memory.copyout_copied sound root
  obtain ⟨books', after⟩ := meets.result ended
  have hit (i : Nat) : books.Hit r va len i ↔ i < copied (readable k r va) 0 len := by
    rw [copied_lt_iff, Memory.Books.Hit]
    simp only [readable, decide_eq_true_eq, sound.accessible_iff root]
  intro a there
  have there' : u.Accessible r a := by
    rwa [after.sound.accessible_iff root, after.rewrites.reach, ← sound.accessible_iff root]
  refine some.inj ((after.sound.view_byte root there').symm.trans ?_)
  rw [length_map, length_range]
  split
  · rename_i inside
    obtain ⟨i, rfl⟩ := Nat.exists_eq_add_of_le inside.1
    rw [after.hit ((hit i).mpr (by omega)), Nat.add_sub_cancel_left,
      getD_eq_getElem?_getD, getElem?_map, getElem?_range (by omega)]
    rfl
  · rename_i outside
    rw [after.missed fun i reached => by have := (hit i).mp reached; omega,
      sound.view_byte root there]

end Copies

section Vacant

variable {s t : Volume} {ip ip' : Inode} {i bn addr : Nat}

/-- The block that `balloc` takes; 0 stands for none. -/
def Volume.firstFree (s : Volume) : Nat :=
  ((List.range s.sb.size).find? fun b => !marked (s.disk (s.sb.bblock b)) (b % bpb)).getD 0

/-- A block of an inode has no address, and there are too few free blocks to give it one. -/
def Volume.Vacant (s : Volume) (ip : Inode) (bn : Nat) : Prop :=
  if bn < ndirect then ip.addrs bn = 0 ∧ s.firstFree = 0
  else if ip.addrs ndirect = 0 then s.firstFree = 0 ∨ (s.allocated s.firstFree).firstFree = 0
  else load (s.disk (ip.addrs ndirect)) (4 * (bn - ndirect)) 4 = 0 ∧ s.firstFree = 0

theorem balloc_takes :
    Meets balloc s (fun b t => b = s.firstFree ∧ (b ≠ 0 → t = s.allocated b)) fun _ => True := by
  unfold balloc Volume.firstFree
  rw [meets_bind, meets_get]
  cases (range s.sb.size).find? fun b => !marked (s.disk (s.sb.bblock b)) (b % bpb) with
  | none => exact meets_bind.mpr (meets_set.mpr (meets_pure.mpr ⟨rfl, fun some => absurd rfl some⟩))
  | some b =>
    simp only
    by_cases outside : s.outstanding < 1
    · unfold logWrite
      rw [meets_bind, meets_bind, meets_get, if_pos outside]
      exact meets_throw.mpr trivial
    · have inside : 0 < s.outstanding := by omega
      refine meets_bind.mpr (meets_logWrite inside (meets_bind.mpr (meets_logWrite inside ?_)))
      exact meets_pure.mpr ⟨rfl, fun _ => rfl⟩

theorem bmapAddr_takes : Meets (bmapAddr ip i) s (fun r t =>
    (r.1 = 0 ↔ ip.addrs i = 0 ∧ s.firstFree = 0) ∧ (ip.addrs i ≠ 0 → r.1 = ip.addrs i ∧ t = s) ∧
      (ip.addrs i = 0 → r.1 = s.firstFree ∧ (r.1 ≠ 0 → t = s.allocated r.1))) fun _ => True := by
  unfold bmapAddr
  split
  · rename_i none
    refine meets_bind.mpr (balloc_takes.mono (fun b t taken => ?_) fun _ => id)
    obtain ⟨rfl, state⟩ := taken
    split
    · rename_i zero
      exact meets_pure.mpr ⟨iff_of_true rfl ⟨none, zero⟩, fun some => absurd none some,
        fun _ => ⟨zero.symm, fun some => absurd rfl some⟩⟩
    · rename_i some
      exact meets_pure.mpr ⟨iff_of_false some fun out => some out.2, fun there => absurd none there,
        fun _ => ⟨rfl, state⟩⟩
  · rename_i some
    exact meets_pure.mpr
      ⟨iff_of_false some fun out => some out.1, fun _ => ⟨rfl, rfl⟩, fun none => absurd none some⟩

/-- `bmap` returns no address exactly if none can be had. -/
theorem bmap_zero_iff :
    Meets (bmap ip bn) s (fun r _ => r.1 = 0 ↔ s.Vacant ip bn) fun _ => True := by
  unfold bmap Volume.Vacant
  split
  · exact bmapAddr_takes.mono (fun r t taken => taken.1) fun _ => id
  · split
    · refine meets_bind.mpr (bmapAddr_takes.mono (fun r t taken => ?_) fun _ => id)
      obtain ⟨zero, present, absent⟩ := taken
      dsimp only
      split
      · rename_i none
        obtain ⟨table, full⟩ := zero.mp none
        exact meets_pure.mpr (iff_of_true rfl (by rw [if_pos table]; exact .inl full))
      · rename_i some
        refine meets_bind.mpr (meets_get.mpr ?_)
        have second : (load (t.disk r.1) (4 * (bn - ndirect)) 4 = 0 ∧ t.firstFree = 0) ↔
            if ip.addrs ndirect = 0 then s.firstFree = 0 ∨ (s.allocated s.firstFree).firstFree = 0
            else load (s.disk (ip.addrs ndirect)) (4 * (bn - ndirect)) 4 = 0 ∧ s.firstFree = 0 := by
          split
          · rename_i none
            obtain ⟨taken, state⟩ := absent none
            rw [state some, ← taken, s.allocated_self]
            exact ⟨fun full => .inr full.2,
              fun full => ⟨load_zero fun _ _ _ => rfl, full.resolve_left some⟩⟩
          · rename_i there
            obtain ⟨same, rfl⟩ := present there
            rw [same]
        rw [← second]
        split
        · rename_i none
          refine meets_bind.mpr (balloc_takes.mono (fun b w taken => ?_) fun _ => id)
          obtain ⟨rfl, _⟩ := taken
          split
          · rename_i zero
            exact meets_pure.mpr (iff_of_true rfl ⟨none, zero⟩)
          · rename_i found
            refine meets_bind.mpr
              (meets_get.mpr (meets_bind.mpr (meets_any.mono (fun _ _ _ => ?_) fun _ _ => trivial)))
            exact meets_pure.mpr (iff_of_false found fun out => found out.2)
        · rename_i found
          exact meets_pure.mpr (iff_of_false found fun out => found out.1)
    · exact meets_throw.mpr trivial

end Vacant

section Loop

variable {layout : Layout} {s t : Reader} {live : Finset Nat} {node : Memory.Nodes}
  {books : Memory.Books} {r n fuel tot off dst : Nat} {ip : Inode} {vacant : Prop}

/-- What `readi` has stored when it returns `result`, having had `todo` bytes to go. Without an
address for the first of them it is nothing. -/
structure Stored (r dst todo : Nat) (vacant : Prop) (s t : Reader) (tot : Nat)
    (result : Int) : Prop where
  got : ∃ bytes, t.stored = s.stored ++ bytes ∧ Puts s.kmem t.kmem r dst bytes ∧
    bytes.length ≤ todo ∧ (result = -1 ∨ result = tot + bytes.length) ∧
    (0 < todo → (bytes = [] ↔ ¬ s.kmem.Accessible r dst ∨ vacant))

theorem Stored.none {todo : Nat} (done : todo = 0 ∨ vacant) :
    Stored r dst todo vacant s { s with volume } tot tot := by
  refine ⟨[], (append_nil _).symm, .nil, Nat.zero_le _, .inr (by simp),
    fun more => iff_of_true rfl (.inr ?_)⟩
  exact done.resolve_left (by omega)

theorem copied_chunk {k : Kmem} {m : Nat} (more : 0 < m) (src : Nat → UInt8) :
    (range (copied (readable k r dst) 0 m)).map src = [] ↔ ¬ k.Accessible r dst := by
  have first : 0 < copied (readable k r dst) 0 m ↔ _ := copied_lt_iff
  have here : (∀ j, j ≤ 0 → readable k r dst j = true) ↔ k.Accessible r dst := by
    simp only [Nat.le_zero, forall_eq, readable, Nat.add_zero, decide_eq_true_eq]
  rw [map_eq_nil_iff, range_eq_nil, ← here]
  constructor
  · exact fun none all => absurd (first.mpr ⟨more, all⟩) (by omega)
  · exact fun out => Nat.eq_zero_of_not_pos fun some => out (first.mp some).2

theorem Stored.fault {u : Kmem} {m : Nat} {src : Nat → UInt8}
    (puts : Puts s.kmem u r dst ((range (copied (readable s.kmem r dst) 0 m)).map src))
    (some : 0 < m) (least : m ≤ n - tot) (found : ¬ vacant) :
    Stored r dst (n - tot) vacant s
      ⟨volume, u, s.stored ++ (range (copied (readable s.kmem r dst) 0 m)).map src⟩ tot (-1) := by
  refine ⟨_, rfl, puts, ?_, .inl rfl,
    fun _ => (copied_chunk some src).trans (or_iff_left found).symm⟩
  rw [length_map, length_range]
  exact copied_le.trans least

theorem Stored.round {u : Kmem} {m : Nat} {src : Nat → UInt8} {result : Int} {later : Prop}
    (found : ¬ vacant) (some : 0 < m) (least : m ≤ n - tot)
    (same : ∀ a, u.Accessible r a ↔ s.kmem.Accessible r a)
    (all : ∀ i, i < m → s.kmem.Accessible r (dst + i))
    (puts : Puts s.kmem u r dst ((range (copied (readable s.kmem r dst) 0 m)).map src))
    (rest : Stored r (dst + m) (n - (tot + m)) later
      ⟨volume, u, s.stored ++ (range (copied (readable s.kmem r dst) 0 m)).map src⟩ t
        (tot + m) result) :
    Stored r dst (n - tot) vacant s t tot result := by
  have whole : copied (readable s.kmem r dst) 0 m = m :=
    copied_eq fun i below => decide_eq_true (by rw [Nat.zero_add]; exact all i below)
  have chunk : _ ↔ ¬ s.kmem.Accessible r dst := copied_chunk some src
  rw [whole] at puts rest chunk
  obtain ⟨bytes, stored, put, few, told, _⟩ := rest
  have length : ((range m).map src).length = m := by rw [length_map, length_range]
  refine ⟨(range m).map src ++ bytes, ?_, .append same puts (by rwa [length]), ?_, ?_, fun _ => ?_⟩
  · rw [stored, append_assoc]
  · rw [length_append, length]
    omega
  · rw [length_append, length]
    refine told.imp_right fun total => ?_
    omega
  · rw [append_eq_nil_iff, chunk, or_iff_left found]
    exact ⟨And.left, fun out => absurd (all 0 some) out⟩

theorem readUserLoop_meets (sound : Memory.Sound layout s.kmem live node books) (root : r ∈ live)
    (start : tot ≤ n) (low : dst < 2 ^ 64) (enough : n - tot ≤ fuel) :
    Meets (readUserLoop r n fuel ip tot off dst) s
      (fun out t => Stored r dst (n - tot) (s.volume.Vacant ip (off / bsize)) s t tot out.1)
        fun _ => True := by
  induction fuel generalizing s ip tot off dst node books with
  | zero => exact meets_pure.mpr (.none (.inl (by omega)))
  | succ fuel ih =>
    unfold readUserLoop
    split
    · rename_i more
      refine meets_bind.mpr
        (meets_zoom.mpr (bmap_zero_iff.mono (fun found v zero => ?_) fun _ => id))
      dsimp only
      split
      · rename_i none
        exact meets_pure.mpr (.none (.inr (zero.mp none)))
      rename_i some
      have taken := mt zero.mpr some
      refine meets_bind.mpr (meets_get.mpr (meets_bind.mpr ?_))
      have step : 0 < min (n - tot) (bsize - off % bsize) := by
        unfold bsize
        omega
      have least : min (n - tot) (bsize - off % bsize) ≤ n - tot := Nat.min_le_left _ _
      generalize min (n - tot) (bsize - off % bsize) = m at *
      unfold copyoutUser
      refine meets_bind.mpr (meets_get.mpr (meets_bind.mpr (meets_zoom.mpr ?_)))
      refine meets_self.mono (fun result u ended => ?_) fun _ => id
      refine meets_bind.mpr (meets_modify.mpr (meets_pure.mpr ?_))
      have puts := copyout_puts sound root ended
      obtain ⟨⟨node', books', sound'⟩, status, zero, same, _⟩ := sound.copyout_bytes root ended
      split
      · exact meets_pure.mpr (.fault puts step least taken)
      · rename_i stored
        have all := zero.mp (status.resolve_right stored)
        have last := (all (m - 1) (by omega)).1
        have room : Memory.maxva < 2 ^ 64 := by decide
        have next : (dst + m) % 2 ^ 64 = dst + m := Nat.mod_eq_of_lt (by omega)
        rw [next]
        refine (ih (s := ⟨v, u, _⟩) sound' (by omega) (by omega) (by omega)).mono
          (fun out t after => ?_) fun _ => id
        exact .round taken step least same all puts after
    · exact meets_pure.mpr (.none (.inl (by omega)))

end Loop

/-- The call asks for no negative count, or something stops it before its first byte. -/
def Harmless (s : Reader) (pagetable addr : Nat) (n : Int) (f : InodeFile) : Prop :=
  0 ≤ n ∨ f.readable = false ∨ f.ip.size ≤ f.off ∨ 0 ≤ f.off + n ∨
    ¬ s.kmem.Accessible pagetable addr ∨ s.volume.Vacant f.ip (f.off / bsize)

structure Exact (n : Int) (f f' : InodeFile) (result : Int) (stored : List UInt8) : Prop where
  most : (stored.length : Int) ≤ max n 0
  told : result = -1 ∨ result = stored.length
  off : (f'.off : Int) = f.off + if result = -1 then 0 else result

theorem count_word {n : Int} (int : -2 ^ 31 ≤ n ∧ n < 2 ^ 31) :
    ((n % 2 ^ 32).toNat : Int) = if 0 ≤ n then n else n + 2 ^ 32 := by
  split <;> omega

section Fileread

variable {layout : Layout} {s : Reader} {live : Finset Nat} {node : Memory.Nodes}
  {books : Memory.Books} {r addr : Nat} {n : Int} {f : InodeFile}

def InodeFile.todo (f : InodeFile) (count : Nat) : Nat :=
  if f.ip.size < (f.off + count) % 2 ^ 32 then f.ip.size - f.off else count

theorem InodeFile.todo_inside {count : Nat} (offWord : f.off < 2 ^ 32) (countWord : count < 2 ^ 32)
    (accepted : ¬ (f.ip.size < f.off ∨ (f.off + count) % 2 ^ 32 < f.off)) :
    f.off + f.todo count ≤ f.ip.size ∧ f.todo count ≤ count := by
  unfold InodeFile.todo
  split <;> omega

/-- The stored bytes are within what was asked for, or the count was negative and nothing stopped
it. -/
theorem stored_le_iff {count : Nat} {bytes : List UInt8} (offWord : f.off < 2 ^ 32)
    (word : (count : Int) = if 0 ≤ n then n else n + 2 ^ 32) (int : -2 ^ 31 ≤ n ∧ n < 2 ^ 31)
    (opened : f.readable ≠ false)
    (accepted : ¬ (f.ip.size < f.off ∨ (f.off + count) % 2 ^ 32 < f.off))
    (few : bytes.length ≤ f.todo count) (first : 0 < f.todo count →
      (bytes = [] ↔ ¬ s.kmem.Accessible r addr ∨ s.volume.Vacant f.ip (f.off / bsize))) :
    (bytes.length : Int) ≤ max n 0 ↔ Harmless s r addr n f := by
  have countWord : count < 2 ^ 32 := by
    split at word <;> omega
  obtain ⟨inside, most⟩ := InodeFile.todo_inside offWord countWord accepted
  by_cases sign : 0 ≤ n
  · rw [if_pos sign] at word
    exact iff_of_true (by omega) (.inl sign)
  rw [if_neg sign] at word
  have nothing : (bytes.length : Int) ≤ max n 0 ↔ bytes = [] := by
    rw [← length_eq_zero_iff]
    omega
  rw [nothing]
  by_cases more : 0 < f.todo count
  · rw [first more]
    refine ⟨fun out => .inr (.inr (.inr (.inr out))), ?_⟩
    rintro (plain | closed | past | wraps | out)
    · exact absurd plain sign
    · exact absurd closed opened
    · omega
    · omega
    · exact out
  · refine iff_of_true (length_eq_zero_iff.mp (by omega)) (.inr (.inr (.inl ?_)))
    unfold InodeFile.todo at more
    split at more <;> omega

theorem fileread_meets (sound : Memory.Sound layout s.kmem live node books) (root : r ∈ live)
    (sizeWord : f.ip.size < 2 ^ 32) (offWord : f.off < 2 ^ 32) (low : addr < 2 ^ 64)
    (int : -2 ^ 31 ≤ n ∧ n < 2 ^ 31) (fresh : s.stored = []) :
    Meets (fileread r addr n f) s (fun out t => Puts s.kmem t.kmem r addr t.stored ∧
      (Exact n f out.2 out.1 t.stored ↔ Harmless s r addr n f)) fun _ => True := by
  have word := count_word int
  have empty : Puts s.kmem s.kmem r addr s.stored := by
    rw [fresh]
    exact .nil
  have none : (s.stored.length : Int) = 0 := by rw [fresh]; rfl
  unfold fileread
  split
  · rename_i closed
    exact meets_pure.mpr ⟨empty, iff_of_true ⟨by omega, .inl rfl, by simp⟩ (.inr (.inl closed))⟩
  · rename_i opened
    have countWord : (n % 2 ^ 32).toNat < 2 ^ 32 := by omega
    generalize (n % 2 ^ 32).toNat = count at *
    refine meets_bind.mpr ?_
    unfold readiUser
    simp only
    split
    · rename_i refused
      refine meets_pure.mpr
        (meets_pure.mpr ⟨empty, iff_of_true ⟨by omega, .inr (by omega), by simp⟩ ?_⟩)
      by_cases sign : 0 ≤ n
      · exact .inl sign
      · rw [if_neg sign] at word
        refine .inr (.inr (refused.imp Nat.le_of_lt fun wraps => .inl ?_))
        omega
    · rename_i accepted
      obtain ⟨inside, most⟩ := InodeFile.todo_inside offWord countWord accepted
      have loop : Meets (readUserLoop r (f.todo count) (f.todo count) f.ip 0 f.off addr) s _
          fun _ => True :=
        readUserLoop_meets sound root (Nat.zero_le _) low le_rfl
      refine loop.mono (fun out t after => ?_) fun _ => id
      obtain ⟨bytes, stored, puts, few, told, first⟩ := after
      rw [fresh, nil_append] at stored
      rw [← stored] at puts few told first
      have iff := stored_le_iff offWord word int opened accepted few first
      split
      · rename_i some
        refine meets_pure.mpr
          ⟨puts, ⟨fun exact => iff.mp exact.most, fun harmless => ⟨iff.mpr harmless, ?_, ?_⟩⟩⟩
        · simpa using told
        · dsimp only
          rw [if_neg (by omega)]
          omega
      · rename_i no
        refine meets_pure.mpr
          ⟨puts, ⟨fun exact => iff.mp exact.most, fun harmless => ⟨iff.mpr harmless, ?_, ?_⟩⟩⟩
        · simpa using told
        · dsimp only
          split <;> omega

end Fileread

/-- `read` keeps to its count, in what it stores, returns and adds to the offset, if and only if the
count is not negative or something else stops the call. -/
theorem fileread_exact_iff (layout : Layout) (mem : Foundation.Memory) (counts : Nat → Int)
    (u : Kmem) (booted : kinit layout ⟨mem, counts, 0⟩ = .ok ((), u)) (events : List Memory.Event)
    (m : System) (run : exec (System.step layout) (System.start u) events = some m) (p : Nat)
    (q : Memory.Proc) (here : m.procs p = some q) (volume : Volume) (f : InodeFile)
    (sizeWord : f.ip.size < 2 ^ 32) (offWord : f.off < 2 ^ 32) (addr : Nat) (low : addr < 2 ^ 64)
    (n : Int) (int : -2 ^ 31 ≤ n ∧ n < 2 ^ 31) (result : Int) (f' : InodeFile) (t : Reader)
    (returned : fileread q.pagetable addr n f ⟨volume, m.kmem, []⟩ = .ok ((result, f'), t)) :
    Puts m.kmem t.kmem q.pagetable addr t.stored ∧
      (Exact n f f' result t.stored ↔ Harmless ⟨volume, m.kmem, []⟩ q.pagetable addr n f) := by
  obtain ⟨live, tfs, node, books, shows⟩ := System.valid_run booted run
  have meets : Meets (fileread q.pagetable addr n f) ⟨volume, m.kmem, []⟩ _ fun _ => True :=
    fileread_meets shows.sound (shows.proc here).1 sizeWord offWord low int rfl
  exact meets.result returned

def smallFile : InodeFile :=
  { readable := true, off := 0, ip := { smallDinode with inum := 1 } }

/-- The two bytes of a file are read with room for four. -/
theorem fileread_exact_small :
    ∃ u m q f t, kinit smallLayout ⟨fun _ => 0, fun _ => 0, 0⟩ = .ok ((), u) ∧
      exec (System.step smallLayout) (System.start u) [.userinit 0 []] = some m ∧
      m.procs 0 = some q ∧
      fileread q.pagetable 100 4 smallFile ⟨smallVolume, m.kmem, []⟩ = .ok ((2, f), t) ∧
      t.stored = [1, 2] ∧
      Exact 4 smallFile f 2 t.stored := by
  have computed : ((bootSystem smallLayout [.userinit 0 []]).bind fun m => (m.procs 0).bind fun q =>
      (fileread q.pagetable 100 4 smallFile ⟨smallVolume, m.kmem, []⟩).toOption.map fun out =>
        (out.1.1, out.2.stored)) = some (2, [1, 2]) := by decide +kernel
  obtain ⟨m, ended, rest⟩ := bind_eq_some_iff.mp computed
  obtain ⟨q, here, rest⟩ := bind_eq_some_iff.mp rest
  obtain ⟨⟨⟨result, f⟩, t⟩, read, facts⟩ := map_eq_some_iff.mp rest
  obtain ⟨rfl, stored⟩ := Prod.mk.inj facts
  obtain ⟨u, booted, run⟩ := Memory.bootSystem_some ended
  have returned := ended_of_toOption read
  exact ⟨u, m, q, f, t, booted, run, here, returned, stored,
    (fileread_exact_iff smallLayout _ _ u booted _ m run 0 q here smallVolume smallFile (by decide)
      (by decide) 100
      (by decide) 4 (by decide) 2 f t returned).2.mpr (.inl (by decide))⟩

/-- A read of -1 bytes stores the whole file. -/
theorem fileread_negative_count :
    ∃ u m q f t, kinit smallLayout ⟨fun _ => 0, fun _ => 0, 0⟩ = .ok ((), u) ∧
      exec (System.step smallLayout) (System.start u) [.userinit 0 []] = some m ∧
      m.procs 0 = some q ∧
      fileread q.pagetable 100 (-1) smallFile ⟨smallVolume, m.kmem, []⟩ = .ok ((2, f), t) ∧
      t.stored = [1, 2] ∧
      t.kmem.userBytes q.pagetable 100 2 = [1, 2] ∧ f.off = 2 ∧
      ¬ Exact (-1) smallFile f 2 t.stored := by
  have computed : ((bootSystem smallLayout [.userinit 0 []]).bind fun m => (m.procs 0).bind fun q =>
      (fileread q.pagetable 100 (-1) smallFile ⟨smallVolume, m.kmem, []⟩).toOption.map fun out =>
        (out.1.1, out.2.stored, out.2.kmem.userBytes q.pagetable 100 2, out.1.2.off)) =
      some (2, [1, 2], [1, 2], 2) := by decide +kernel
  obtain ⟨m, ended, rest⟩ := bind_eq_some_iff.mp computed
  obtain ⟨q, here, rest⟩ := bind_eq_some_iff.mp rest
  obtain ⟨⟨⟨result, f⟩, t⟩, read, facts⟩ := map_eq_some_iff.mp rest
  obtain ⟨rfl, facts⟩ := Prod.mk.inj facts
  obtain ⟨stored, facts⟩ := Prod.mk.inj facts
  obtain ⟨bytes, off⟩ := Prod.mk.inj facts
  obtain ⟨u, booted, run⟩ := Memory.bootSystem_some ended
  refine ⟨u, m, q, f, t, booted, run, here, ended_of_toOption read, stored, bytes, off,
    fun exact => ?_⟩
  have most := exact.most
  rw [stored] at most
  exact absurd most (by decide)

end EnhancedXv6.FileSystem
