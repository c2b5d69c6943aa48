import EnhancedXv6.FileSystem.MkfsImage

namespace EnhancedXv6.FileSystem.Mkfs

open Foundation Function
open List hiding count

def File.shortname (f : File) : List UInt8 := withoutMark (withoutDir f.name)

def rootBytes (files : List File) : List UInt8 :=
  dirent rootino [46] ++ dirent rootino [46, 46] ++
    (files.mapIdx fun k f => dirent (k + 2) f.shortname).flatten

/-- What the inodes hold: the root directory, and then the files in their order. -/
def expected (files : List File) : Nat → List UInt8
  | 0 => []
  | 1 => rootBytes files
  | k + 2 => (files.map File.contents).getD k []

/-- Files that `mkfs` can take: no `/` in a name, and room for the contents. -/
structure Acceptable (files : List File) : Prop where
  names : ∀ f ∈ files, 47 ∉ withoutDir f.name
  roomy : Roomy (files.length + 2) (expected files)

@[simp] theorem length_dirent (inum : Nat) (name : List UInt8) :
    (dirent inum name).length = 16 := by
  simp only [dirent, length_append, length_take, length_replicate, length_cons, length_nil]
  unfold dirsiz
  omega

theorem length_rootBytes (files : List File) :
    (rootBytes files).length = 16 * (files.length + 2) := by
  have entries : ((files.mapIdx fun k f => dirent (k + 2) f.shortname).flatten).length =
      16 * files.length := by
    induction files using reverseRecOn with
    | nil => rfl
    | append_singleton files f ih =>
      rw [mapIdx_concat, flatten_append, length_append, ih]
      simp
      omega
  rw [rootBytes, length_append, length_append, length_dirent, length_dirent, entries]
  omega

theorem rootBytes_concat (files : List File) (f : File) :
    rootBytes (files ++ [f]) = rootBytes files ++ dirent (files.length + 2) f.shortname := by
  simp [rootBytes, mapIdx_concat]

theorem expected_concat (files : List File) (f : File) :
    expected (files ++ [f]) = update
      (update (expected files) rootino (rootBytes files ++ dirent (files.length + 2) f.shortname))
      (files.length + 2) f.contents := by
  funext i
  match i with
  | 0 => simp [expected, rootino]
  | 1 => simp [expected, rootino, rootBytes_concat]
  | k + 2 =>
    by_cases here : k = files.length
    · simp [expected, here]
    · have apart : k + 2 ≠ files.length + 2 := by omega
      rw [update_of_ne apart, update_of_ne (by simp [rootino])]
      simp only [expected, map_append, getD_eq_getElem?_getD]
      by_cases old : k < files.length
      · rw [getElem?_append_left (by simpa using old)]
      · rw [getElem?_eq_none (by simp; omega), getElem?_eq_none (by simp; omega)]

theorem expected_le (files : List File) (rest : List File) (i : Nat) :
    (expected files i).length ≤ (expected (files ++ rest) i).length := by
  match i with
  | 0 => exact le_rfl
  | 1 =>
    simp only [expected, length_rootBytes, length_append]
    omega
  | k + 2 =>
    simp only [expected, map_append, getD_eq_getElem?_getD]
    by_cases old : k < files.length
    · rw [getElem?_append_left (by simpa using old)]
    · rw [getElem?_eq_none (by simp; omega)]
      exact Nat.zero_le _

theorem Roomy.fewer (roomy : Roomy more contents) (le : count ≤ more) : Roomy count contents := by
  refine ⟨le_trans (Nat.add_le_add_left ?_ nmeta) roomy.1,
    fun i inside => roomy.2 i (lt_of_lt_of_le inside le)⟩
  exact Finset.sum_le_sum_of_subset (Finset.range_subset_range.mpr le)

theorem appendChunks_meets (chunks : List (List UInt8)) (built : Built s contents)
    (inside : i < s.freeinode) :
    Meets (chunks.forM (iappend i)) s
      (fun _ t => t.freeinode = s.freeinode ∧
        Built t (update contents i (contents i ++ chunks.flatten)))
      fun _ => ¬ Roomy s.freeinode (update contents i (contents i ++ chunks.flatten)) := by
  induction chunks generalizing s contents with
  | nil =>
    refine meets_pure.mpr ⟨rfl, ?_⟩
    rwa [flatten_nil, append_nil, update_eq_self]
  | cons chunk rest ih =>
    have fewer : ∀ j < s.freeinode, (update contents i (contents i ++ chunk) j).length ≤
        (update contents i (contents i ++ (chunk :: rest).flatten) j).length := by
      intro j _
      by_cases here : j = i
      · rw [here, update_self, update_self, flatten_cons]
        simp only [length_append]
        omega
      · rw [update_of_ne here, update_of_ne here]
    have first := iappend_meets built inside chunk
    refine (first.mono (fun _ _ => id) fun _ full roomy => full (roomy.mono fewer)).bind
      fun _ t after => ?_
    obtain ⟨count, built'⟩ := after
    have later := ih built' (by rw [count]; exact inside)
    rw [update_self, update_idem, append_assoc, ← flatten_cons, count] at later
    exact later

theorem addFile_meets (done : List File) (f : File) (built : Built s (expected done))
    (count : s.freeinode = done.length + 2) (more : s.freeinode < ninodeblocks * ipb) :
    Meets (addFile rootino f) s
      (fun _ t => t.freeinode = done.length + 3 ∧ Built t (expected (done ++ [f])))
      fun _ => 47 ∈ withoutDir f.name ∨ ¬ Roomy (done.length + 3) (expected (done ++ [f])) := by
  unfold addFile
  by_cases bad : 47 ∈ withoutDir f.name
  · rw [if_pos bad, meets_throw]
    exact .inl bad
  · rw [if_neg bad]
    have later := expected_concat done f
    refine (ialloc_meets built more (by decide)).bind fun inum t ⟨new, count1, built1⟩ => ?_
    rw [count] at new count1
    subst new
    have listed := iappend_meets built1 (i := rootino) (by rw [count1]; unfold rootino; omega)
      (dirent (done.length + 2) f.shortname)
    rw [count1] at listed
    have empty : update (expected done) rootino
        (expected done rootino ++ dirent (done.length + 2) f.shortname) (done.length + 2) = [] := by
      rw [update_of_ne (by unfold rootino; omega)]
      exact built.next _ count.le
    have fewer : ∀ j < done.length + 3, (update (expected done) rootino
        (expected done rootino ++ dirent (done.length + 2) f.shortname) j).length ≤
        (expected (done ++ [f]) j).length := by
      intro j _
      rw [later]
      by_cases here : j = done.length + 2
      · have nothing := congrArg length empty
        rw [here]
        exact nothing.trans_le (Nat.zero_le _)
      · rw [update_of_ne here]
        rfl
    refine (listed.mono (fun _ _ => id) fun _ full => .inr
      fun roomy => full (roomy.mono fewer)).bind
      fun _ u after => ?_
    obtain ⟨count2, built2⟩ := after
    have filled := appendChunks_meets f.chunks built2 (i := done.length + 2) (by omega)
    rw [empty, nil_append, count2] at filled
    refine filled.mono (fun _ t after => ?_) fun _ full => .inr fun roomy => full ?_
    · rw [later]
      exact after
    · rw [later] at roomy
      exact roomy

/-- The image at the end: the size of the root directory is rounded up, and the blocks in
use are marked in the bitmap. -/
structure Final (t : Image) (files : List File) : Prop where
  superblock : t.disk 1 = putSuperblock zeroes sb
  stored : Stored t.disk t.freeblock (files.length + 2) (dinode t.disk) (expected files)
    fun j => (expected files j).length
  size : ∀ k < files.length, (dinode t.disk (k + 2)).size = (expected files (k + 2)).length
  root : (dinode t.disk rootino).size = ((rootBytes files).length / bsize + 1) * bsize
  room : t.freeblock ≤ fssize
  bitmap : ∀ b, marked (t.disk sb.bmapstart) b = decide (b < t.freeblock)

theorem marked_marks (b : Block) (used x : Nat) :
    marked ((range used).foldl mark b) x = (decide (x < used) || marked b x) := by
  induction used with
  | zero => simp
  | succ used ih =>
    rw [range_succ, foldl_append, foldl_cons, foldl_nil, marked_mark, ih, ← Bool.or_assoc,
      ← Bool.decide_or]
    congr 2
    rw [eq_iff_iff]
    omega

theorem finish_meets (built : Built s (expected files)) (count : s.freeinode = files.length + 2) :
    Meets (do fixRoot rootino; let s ← get; balloc s.freeblock) s
      (fun _ t => Final t files) stops := by
  have low : rootino < ninodeblocks * ipb := by decide
  have block := iblock_inside low
  have inRoot : rootino < s.freeinode := by
    rw [count]
    unfold rootino
    omega
  have length := built.size rootino inRoot
  have few : files.length + 2 ≤ ninodeblocks * ipb := count ▸ built.count
  have fits : ({ dinode s.disk rootino with
      size := ((dinode s.disk rootino).size / bsize + 1) * bsize } : Dinode).Fits := by
    have old := Dinode.fits_get (s.disk (sb.iblock rootino)) (rootino % ipb)
    refine ⟨old.type, old.major, old.minor, old.nlink, ?_, old.addrs, old.beyond⟩
    have bytes : (expected files rootino).length = 16 * (files.length + 2) := length_rootBytes files
    have bound : files.length + 2 ≤ 208 := few
    change ((dinode s.disk rootino).size / bsize + 1) * bsize < _
    rw [length, bytes]
    unfold bsize
    omega
  have inodes := dinode_put s.disk rootino fits
  have small : ¬ bsize * 8 ≤ s.freeblock := by
    have := built.room
    unfold fssize at this
    unfold bsize
    omega
  unfold fixRoot
  rw [meets_bind, meets_bind]
  refine meets_rinode built.length low (meets_winode built.length low ?_)
  rw [meets_bind, meets_get]
  unfold balloc
  rw [if_neg small]
  refine meets_wsect ?_
  generalize written : update s.disk (sb.iblock rootino) (putDinode (s.disk (sb.iblock rootino))
    (rootino % ipb)
    { dinode s.disk rootino with size := ((dinode s.disk rootino).size / bsize + 1) * bsize }) =
    disk at inodes
  have elsewhere : ∀ b, b ≠ sb.iblock rootino → disk b = s.disk b := by
    intro b other
    rw [← written, update_of_ne other]
  -- the bitmap block is no inode block
  have kept : ∀ i < files.length + 2, dinode (update disk sb.bmapstart
      ((range s.freeblock).foldl mark zeroes)) i = dinode disk i := by
    intro i inside
    have below := iblock_inside (lt_of_lt_of_le inside few)
    unfold dinode
    rw [update_of_ne (ne_of_lt below.2)]
  have high : ∀ b, nmeta ≤ b → update disk sb.bmapstart
      ((range s.freeblock).foldl mark zeroes) b = s.disk b := by
    intro b above
    have bitmap : sb.bmapstart < b := lt_of_lt_of_le (by decide) above
    rw [update_of_ne (ne_of_gt bitmap), elsewhere b (ne_of_gt (block.2.trans bitmap))]
  constructor
  · have apart : update disk sb.bmapstart ((range s.freeblock).foldl mark zeroes) 1 = disk 1 :=
      update_of_ne (by decide) _ _
    exact apart.trans ((elsewhere 1 (by decide)).trans built.superblock)
  · refine ((count ▸ built.stored).metadata high).inodes (fun i _ => Dinode.fits_get _ _)
      fun i inside => ?_
    rw [kept i inside, inodes]
    by_cases here : i = rootino
    · rw [here, update_self]
    · rw [update_of_ne here]
  · intro k inside
    rw [kept (k + 2) (by omega), inodes, update_of_ne (by unfold rootino; omega)]
    exact built.size (k + 2) (by omega)
  · rw [kept rootino (count ▸ inRoot), inodes, update_self]
    exact congrArg (fun size => (size / bsize + 1) * bsize) length
  · exact built.room
  · intro b
    have there : update disk sb.bmapstart ((range s.freeblock).foldl mark zeroes) sb.bmapstart =
        (range s.freeblock).foldl mark zeroes := update_self _ _ _
    refine (congrArg (fun map => marked map b) there).trans ?_
    rw [marked_marks, marked_zeroes, Bool.or_false]

/-- The zeroed image with its superblock and no inodes. -/
def formatted : Image where
  disk := Function.update (fun _ => zeroes) 1 (putSuperblock zeroes sb)
  length := fssize
  freeinode := 1
  freeblock := nmeta

theorem formatted_zero (other : b ≠ 1) : formatted.disk b = zeroes := by
  simp [formatted, other]

theorem dinode_formatted : dinode formatted.disk 0 = {} := by
  have block : formatted.disk (sb.iblock 0) = zeroes := formatted_zero (by decide)
  have none : ∀ a width, load zeroes a width = 0 := fun a width => load_zero fun _ _ _ => rfl
  unfold dinode getDinode
  simp only [block, none, ite_self]

theorem built_formatted : Built formatted fun _ => [] := by
  have first : ∀ i < formatted.freeinode, i = 0 := fun i inside => Nat.lt_one_iff.mp inside
  refine ⟨rfl, by decide, by decide, by simp [formatted], fun i inside => ?_, ⟨fun i inside => ?_,
    fun i inside => ?_, fun i inside => ?_, fun i inside b used => ?_,
    fun i inside j inJ _ _ _ => ?_, fun b above => ?_, rfl⟩, fun _ _ => rfl⟩
  · rw [first i inside, dinode_formatted]
    rfl
  · exact Dinode.fits_get _ _
  · rw [first i inside, dinode_formatted]
    exact holds_nil
  · rw [first i inside, dinode_formatted]
    exact ⟨fun n _ _ => entry_none n, fun _ => rfl⟩
  · rw [first i inside, dinode_formatted] at used
    exact absurd used (not_uses_none b)
  · rw [first i inside, first j inJ]
  · have low : 1 < formatted.freeblock := by decide
    exact formatted_zero (by omega)

theorem format_meets : Meets (do
      (range fssize).forM fun i => wsect i zeroes
      wsect 1 (putSuperblock zeroes sb)) start (fun _ t => t = formatted) stops := by
  have loop : Meets ((range fssize).forM fun i => wsect i zeroes) start
      (fun _ t => t = { start with length := fssize }) stops := by
    refine meets_forM_range (fun i t => t = { start with length := i }) fssize rfl
      fun i t _ now => meets_wsect ?_
    have same : update start.disk i zeroes = start.disk := update_eq_self i (fun _ => zeroes)
    rw [now]
    simp only [same, Image.mk.injEq, true_and, and_true]
    omega
  refine loop.bind fun _ t now => ?_
  rw [now]
  exact meets_wsect rfl

theorem expected_nil : update (update (fun _ => []) rootino (dirent rootino [46])) rootino
    (dirent rootino [46] ++ dirent rootino [46, 46]) = expected [] := by
  funext i
  match i with
  | 0 => rfl
  | 1 => rfl
  | k + 2 => rfl

/-- `mkfs` leaves the image it should unless the files are not acceptable. -/
theorem main_meets (files : List File) (few : files.length + 2 ≤ ninodeblocks * ipb) :
    Meets (main files) start (fun _ t => Final t files) fun _ => ¬ Acceptable files := by
  have sooner : ∀ done rest, done ++ rest = files → Acceptable files →
      Roomy (done.length + 2) (expected done) := by
    rintro done rest rfl acceptable
    refine (acceptable.roomy.fewer (by simp)).mono fun j _ => expected_le done rest j
  have loop : ∀ s, s.freeinode = 2 → Built s (expected []) → Meets (files.forM (addFile rootino)) s
        (fun _ t => t.freeinode = files.length + 2 ∧ Built t (expected files))
          fun _ => ¬ Acceptable files := by
    intro s count built
    refine (meets_forM (fun rest t => ∃ done, done ++ rest = files ∧ t.freeinode = done.length + 2 ∧
      Built t (expected done)) files ⟨[], rfl, count, built⟩ ?_).mono ?_ fun _ => id
    · rintro f rest t ⟨done, whole, countT, builtT⟩
      have size : files.length = done.length + (rest.length + 1) := by
        rw [← whole, length_append, length_cons]
      have next : (done ++ [f]) ++ rest = files := by rw [append_assoc, singleton_append, whole]
      refine (addFile_meets done f builtT countT (by omega)).mono (fun _ u after => ?_)
        fun _ stopped acceptable => ?_
      · exact ⟨done ++ [f], next, by simpa using after.1, after.2⟩
      · rcases stopped with bad | full
        · exact acceptable.names f (by rw [← whole]; simp) bad
        · exact full (by simpa using sooner (done ++ [f]) rest next acceptable)
    · rintro _ t ⟨done, whole, countT, builtT⟩
      rw [append_nil] at whole
      subst whole
      exact ⟨countT, builtT⟩
  unfold main
  rw [← bind_assoc]
  refine format_meets.bind fun _ s now => ?_
  rw [now]
  refine (ialloc_meets built_formatted (by decide) (by decide)).bind fun root t after => ?_
  obtain ⟨isRoot, count, built⟩ := after
  have isOne : root = rootino := isRoot
  rw [isOne, if_neg (by simp)]
  have count' : t.freeinode = 2 := count
  have dot := iappend_meets built (i := rootino) (by rw [count']; decide) (dirent rootino [46])
  rw [count', nil_append] at dot
  have dotOnly : ∀ j < 2, (update (fun _ => []) rootino (dirent rootino [46]) j).length ≤
      (expected [] j).length := by
    intro j _
    rw [← expected_nil]
    by_cases here : j = rootino
    · rw [here, update_self, update_self, length_append]
      omega
    · rw [update_of_ne here]
      exact Nat.zero_le _
  refine (dot.mono (fun _ _ => id) fun _ full acceptable =>
    full ((sooner [] files rfl acceptable).mono dotOnly)).bind
    fun _ u after => ?_
  obtain ⟨countU, builtU⟩ := after
  have dots :=
    iappend_meets builtU (i := rootino) (by rw [countU]; decide) (dirent rootino [46, 46])
  rw [update_self, expected_nil, countU] at dots
  refine (dots.mono (fun _ _ => id) fun _ full acceptable =>
    full (sooner [] files rfl acceptable)).bind
    fun _ v after => ?_
  refine (loop v after.1 after.2).bind fun _ w done => ?_
  exact finish_meets done.2 done.1

end EnhancedXv6.FileSystem.Mkfs
