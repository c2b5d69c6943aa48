import EnhancedXv6.Memory.Image
import EnhancedXv6.Memory.Machine

namespace EnhancedXv6.Memory

open Foundation Function Option Finset Multiset Memory.System

variable {layout : Layout} {s s' : System} {k : Kmem} {node node' : Nodes} {books books' : Books}
  {live live' : Finset Nat} {tfs : Multiset Nat} {p c r : Nat} {q q' : Proc} {result : Int}
  {act : Proc → Except Panic (Option System)} {code : List UInt8} {x : Option Proc} {event : Event}

/-- The panics about pages that should be mapped and are not, and about pages that should not be
mapped and are. -/
def Panic.ofExtent : Panic → Bool
  | .unmapWalk | .unmapNotMapped | .unmapNotLeaf | .uvmcopyPte | .uvmcopyPage | .mappagesRemap
  | .freewalkLeaf => true
  | _ => false

section First

theorem uvmfirst_sound {u : Kmem} {stops : Panic → Prop}
    (sound : Sound layout u live node books) (root : r ∈ live) (spans : books.Spans r 0)
    (short : code.length < pgsize) (fault : stops .kernelFault) :
    Meets (uvmfirst r code) u (fun mapped w => mapped = 0 →
      ∃ node' books', Sound layout w live node' books' ∧
      books'.held = books.held ∧ (∀ f ∈ books.held, books'.data f = books.data f) ∧
      (∀ name, name.1 ≠ r → books'.leaf name = books.leaf name) ∧ books'.Fits r pgsize) stops := by
  have physical := (sound.tables.shows.accounts.named ((sound.tables.live r).mp root)).1
  have user : 0 < userPages := by decide
  have blank (w : Nat) (below : w < userPages) : books.leaf (r, w) = none := by
    by_contra mapped
    obtain ⟨leaf, here⟩ := ne_none_iff_exists'.mp mapped
    have := (spans w).mp ⟨leaf, here⟩
    omega
  rw [uvmfirst]
  refine (kalloc_meets sound.tables.shows sound.paid).bind fun mem w outcome => ?_
  rcases outcome with ⟨none, _⟩ | ⟨unused, shows⟩
  · rw [if_pos none, meets_throw]
    exact fault
  rw [if_neg unused.page.ne_zero, meets_bind, meets_memset]
  have cleared := sound.tables.hold (shows.clear sound.paid)
  have flags : userFlags (pteW ||| pteX) = (pteW ||| pteR ||| pteX ||| pteU) ||| pteV := by decide
  have number : 0 / pgsize = 0 := by decide
  refine (mappages_meets cleared sound.paid root (by decide) (by decide)
    (freshLeaf (pteW ||| pteX) (by decide) unused.page) flags ?_ ?_).bind fun mapped w outcome => ?_
  · exact fun _ => .inl (mem_cons_self _ _)
  · rw [number]
    exact fun mapped => absurd (blank 0 user) mapped
  rw [meets_bind, meets_modify, meets_pure]
  rcases outcome with ⟨rfl, _⟩ | ⟨rfl, _, _, node', _, after⟩
  · intro done
    cases done
  · intro _
    rw [number] at after
    have settled := after.shows.settle (show _ = mem ::ₘ books.held from rfl)
      (show _ = mem ::ₘ 0 by rw [share_user user]; rfl)
    rw [← sound.paid] at settled
    have grown := (Grown.refl layout books r 0 (userFlags (pteW ||| pteX))).snoc
      (freshLeaf (pteW ||| pteX) (by decide) unused.page)
      (update books.data mem fun _ => 0) physical user
      unused.page unused.unmapped unused.unheld (blank 0 user) rfl
      (fun o _ => congrFun (update_self mem (fun _ => 0) books.data) o)
      fun pa other => update_of_ne other _ _
    have mapped : Sound layout w live node' _ :=
      ⟨⟨settled, after.rooted, after.live⟩, sound.paid,
        grown.good (by decide) sound.tables sound.good physical⟩
    obtain ⟨leaf, here, _, _, _, _, one, _⟩ := grown.fresh 0 (by omega) (by omega)
    have same : leaf.pa = mem := by
      rw [show Books.leaf _ (r, 0) = _ from update_self _ _ _] at here
      cases here
      rfl
    rw [same] at one
    have written : Sound layout
        { w with mem := copy w.mem (mem + 0) code.length (code.getD · 0) } live node' _ :=
      mapped.put (.inr (Nat.zero_lt_one.trans_eq one.symm)) (by omega)
    have fits : books.Fits r 0 := ⟨by decide, spans⟩
    have none : pageCount 0 = 0 := by decide
    have single : pageCount pgsize = 1 := by decide
    refine ⟨node', _, written, rfl, fun f member => ?_, fun name other => ?_, ?_⟩
    · have apart : f ≠ mem := by
        rintro rfl
        exact unused.unheld member
      exact (update_of_ne apart _ _).trans (grown.data f (.inl member))
    · exact grown.others name fun inside => other inside.1
    · exact grown.fits fits none.symm single.symm (by decide)

theorem userinit_sound {u : Kmem} {stops : Panic → Prop} (sound : Sound layout u live node books)
    (short : code.length < pgsize) (fault : stops .kernelFault) :
    Meets (userinit layout code) u (fun result w => ∀ np, result = some np →
      np.pagetable ∉ live ∧ np.trapframe ∉ books.held ∧ ∃ node' books',
        Sound layout w (insert np.pagetable live) node' books' ∧
        books'.held = np.trapframe ::ₘ books.held ∧
        (∀ f ∈ books.held, books'.data f = books.data f) ∧
        (∀ name, name.1 ≠ np.pagetable → books'.leaf name = books.leaf name) ∧
        books'.Fits np.pagetable np.sz) stops := by
  rw [userinit]
  refine (allocproc_sound sound).bind fun result w outcome => ?_
  rcases outcome with ⟨rfl, _⟩ | ⟨np, rfl, _, _, new, node₁, first, _, launched, begun⟩
  · dsimp only
    rw [meets_throw]
    exact fault
  dsimp only
  refine (uvmfirst_sound begun (mem_insert_self _ _) launched.spans short fault).bind
    fun mapped x filled => ?_
  split
  · rw [meets_pure]
    intro np absurd
    cases absurd
  · rename_i done
    obtain ⟨node₂, books₂, sound₂, held, steady, others, fits⟩ := filled (not_not.mp done)
    have tf : np.trapframe ∈ books₂.held := by
      rw [held, launched.held]
      exact mem_cons_self _ _
    refine (storeWord_sound sound₂ tf (by decide)).bind fun _ y ⟨books₃, same₃, sound₃⟩ => ?_
    refine (storeWord_sound sound₃ (by rw [same₃.2.1]; exact tf) (by decide)).bind
      fun _ z ⟨books₄, same₄, sound₄⟩ => ?_
    rw [meets_pure]
    intro result same
    cases same
    have change := same₃.trans same₄
    refine ⟨new, launched.unheld, node₂, books₄, sound₄, ?_, fun f member => ?_,
      fun name other => ?_, ?_⟩
    · rw [change.2.1, held, launched.held]
    · have apart : f ≠ np.trapframe := by
        rintro rfl
        exact launched.unheld member
      rw [change.2.2 f apart, steady f (by rw [launched.held]; exact mem_cons_of_mem member),
        launched.data f apart]
    · rw [change.1, others name other, launched.others name other]
    · exact fits.congr fun v => by rw [change.1]

end First

section Shows

/-- The memory of the system stands for good books, and every process fits its size. -/
structure System.Shows (layout : Layout) (s : System) (live : Finset Nat) (tfs : Multiset Nat)
    (node : Nodes) (books : Books) : Prop where
  sound : Sound layout s.kmem live node books
  held : books.held = (s.pages : Multiset Nat) + tfs
  proc : ∀ {p q}, s.procs p = some q → q.pagetable ∈ live ∧ q.trapframe ∈ tfs ∧
    books.Fits q.pagetable q.sz
  distinct : ∀ {p p' q q'}, s.procs p = some q → s.procs p' = some q' →
    q.pagetable = q'.pagetable ∨ q.trapframe = q'.trapframe → p = p'
  once : books.held.Nodup
  root : ∀ {r}, r ∈ live → ∃ p q, s.procs p = some q ∧ q.pagetable = r
  frame : ∀ {f}, f ∈ tfs → ∃ p q, s.procs p = some q ∧ q.trapframe = f

def System.Valid (layout : Layout) (s : System) : Prop :=
  ∃ live tfs node books, s.Shows layout live tfs node books

theorem System.Shows.tf_held (shows : s.Shows layout live tfs node books)
    (here : s.procs p = some q) : q.trapframe ∈ books.held := by
  rw [shows.held]
  exact mem_add.mpr (.inr (shows.proc here).2.1)

theorem System.setProc_some (there : (s.setProc p x).procs c = some q') :
    c = p ∧ x = some q' ∨ c ≠ p ∧ s.procs c = some q' := by
  unfold setProc at there
  dsimp only at there
  by_cases same : c = p
  · subst same
    rw [update_self] at there
    exact .inl ⟨rfl, there⟩
  · rw [update_of_ne same] at there
    exact .inr ⟨same, there⟩

theorem System.setProc_self : (s.setProc p x).procs p = x :=
  update_self _ _ _

theorem System.setProc_other (other : c ≠ p) : (s.setProc p x).procs c = s.procs c :=
  update_of_ne other _ _

theorem System.run_some {α : Type} {program : KM α} {next : α → Kmem → Option System}
    (done : s.run program next = .ok (some s')) :
    ∃ a k, program s.kmem = .ok (a, k) ∧ next a k = some s' := by
  unfold run at done
  cases ran : program s.kmem with
  | error e =>
    rw [ran] at done
    cases done
  | ok result =>
    rw [ran] at done
    exact ⟨result.1, result.2, rfl, Except.ok.inj done⟩

theorem System.withProc_some (done : s.withProc p act = .ok (some s')) :
    ∃ q, s.procs p = some q ∧ act q = .ok (some s') := by
  unfold withProc at done
  split at done
  · cases done
  · rename_i q here
    exact ⟨q, here, done⟩

theorem System.step_some (taken : s.step layout event = some s') :
    s.Allows event ∧ s.perform layout event = .ok (some s') := by
  unfold step at taken
  split at taken
  · rename_i allowed
    split at taken
    · rename_i next outcome
      exact ⟨allowed, outcome.trans (congrArg Except.ok taken)⟩
    · cases taken
  · cases taken

theorem System.step_of {e : Event} (allowed : s.Allows e)
    (done : s.perform layout e = .ok (some s')) : s.step layout e = some s' := by
  rw [step, if_pos allowed, done]

section

variable (shows : s.Shows layout live tfs node books)

include shows

theorem System.Shows.distinct_setProc {c c' : Nat} {x x' : Proc}
    (apart : ∀ {d y}, d ≠ p → s.procs d = some y →
      y.pagetable ≠ q.pagetable ∧ y.trapframe ≠ q.trapframe)
    (there : (s.setProc p (some q)).procs c = some x)
    (there' : (s.setProc p (some q)).procs c' = some x')
    (same : x.pagetable = x'.pagetable ∨ x.trapframe = x'.trapframe) : c = c' := by
  rcases setProc_some there with ⟨rfl, first⟩ | ⟨other, there⟩
  · cases first
    rcases setProc_some there' with ⟨rfl, _⟩ | ⟨other', there'⟩
    · rfl
    · exact absurd (same.imp Eq.symm Eq.symm) (not_or.mpr (apart other' there'))
  · rcases setProc_some there' with ⟨_, second⟩ | ⟨_, there'⟩
    · cases second
      exact absurd same (not_or.mpr (apart other there))
    · exact shows.distinct there there' same

theorem System.Shows.replace (here : s.procs p = some q)
    (tf : q'.trapframe = q.trapframe) (after : Sound layout k live' node' books')
    (held : books'.held = books.held) (alive : q'.pagetable ∈ live')
    (new : q'.pagetable = q.pagetable ∨ q'.pagetable ∉ live) (fits : books'.Fits q'.pagetable q'.sz)
    (others : ∀ r ∈ live, r ≠ q.pagetable → r ∈ live' ∧
      ∀ v, (∃ leaf, books'.leaf (r, v) = some leaf) ↔ ∃ leaf, books.leaf (r, v) = some leaf)
    (back : ∀ r ∈ live', r = q'.pagetable ∨ r ∈ live ∧ r ≠ q.pagetable) :
    ({ s with kmem := k, result := result }.setProc p (some q')).Shows layout live' tfs
      node' books' := by
  have apart {c : Nat} {x : Proc} (other : c ≠ p) (there : s.procs c = some x) :
      x.pagetable ≠ q.pagetable ∧ x.pagetable ≠ q'.pagetable ∧ x.trapframe ≠ q.trapframe := by
    refine ⟨fun same => other (shows.distinct there here (.inl same)), fun same => ?_,
      fun same => other (shows.distinct there here (.inr same))⟩
    rcases new with old | fresh
    · exact other (shows.distinct there here (.inl (same.trans old)))
    · exact fresh (same ▸ (shows.proc there).1)
  refine ⟨after, held.trans shows.held, ?_, ?_, held ▸ shows.once, ?_, ?_⟩
  · intro c x there
    rcases setProc_some there with ⟨_, same⟩ | ⟨other, there⟩
    · cases same
      exact ⟨alive, tf ▸ (shows.proc here).2.1, fits⟩
    · obtain ⟨known, owned, fit⟩ := shows.proc there
      obtain ⟨still, same⟩ := others _ known (apart other there).1
      exact ⟨still, owned, fit.congr same⟩
  · intro c c' x x'
    exact shows.distinct_setProc fun other there => tf ▸ (apart other there).2
  · intro r member
    rcases back r member with rfl | ⟨old, other⟩
    · exact ⟨p, q', setProc_self, rfl⟩
    · obtain ⟨c, x, there, rfl⟩ := shows.root old
      have : c ≠ p := by
        rintro rfl
        exact other (congrArg Proc.pagetable (some.inj (there.symm.trans here)))
      exact ⟨c, x, (setProc_other this).trans there, rfl⟩
  · intro f member
    obtain ⟨c, x, there, rfl⟩ := shows.frame member
    by_cases same : c = p
    · subst same
      obtain rfl := some.inj (there.symm.trans here)
      exact ⟨c, q', setProc_self, tf⟩
    · exact ⟨c, x, (setProc_other same).trans there, rfl⟩

theorem System.Shows.keep (after : Sound layout k live node' books')
    (held : books'.held = books.held)
    (maps : ∀ r v, (∃ leaf, books'.leaf (r, v) = some leaf) ↔
      ∃ leaf, books.leaf (r, v) = some leaf) :
    Shows layout { s with kmem := k, result := result } live tfs node' books' :=
  ⟨after, held.trans shows.held,
    fun there =>
    ⟨(shows.proc there).1, (shows.proc there).2.1, (shows.proc there).2.2.congr (maps _)⟩,
    shows.distinct, held ▸ shows.once, shows.root, shows.frame⟩

theorem System.Shows.add (vacant : s.procs c = none) (new : q.pagetable ∉ live)
    (unheld : q.trapframe ∉ books.held)
    (after : Sound layout k (insert q.pagetable live) node' books')
    (held : books'.held = q.trapframe ::ₘ books.held) (fits : books'.Fits q.pagetable q.sz)
    (others : ∀ r, r ≠ q.pagetable → ∀ v,
      (∃ leaf, books'.leaf (r, v) = some leaf) ↔ ∃ leaf, books.leaf (r, v) = some leaf) :
    ({ s with kmem := k, result := result }.setProc c (some q)).Shows layout
      (insert q.pagetable live)
      (q.trapframe ::ₘ tfs) node' books' := by
  have apart {d : Nat} {x : Proc} (there : s.procs d = some x) :
      x.pagetable ≠ q.pagetable ∧ x.trapframe ≠ q.trapframe :=
    ⟨fun same => new (same ▸ (shows.proc there).1), fun same => unheld (same ▸ shows.tf_held there)⟩
  have others' {d : Nat} {x : Proc} (there : s.procs d = some x) : d ≠ c := by
    rintro rfl
    rw [vacant] at there
    cases there
  refine ⟨after, ?_, ?_, ?_, held ▸ nodup_cons.mpr ⟨unheld, shows.once⟩, ?_, ?_⟩
  · rw [held, shows.held, add_cons]
    rfl
  · intro d x there
    rcases setProc_some there with ⟨_, same⟩ | ⟨_, there⟩
    · cases same
      exact ⟨mem_insert_self _ _, mem_cons_self _ _, fits⟩
    · obtain ⟨known, owned, fit⟩ := shows.proc there
      exact ⟨mem_insert_of_mem known, mem_cons_of_mem owned, fit.congr (others _ (apart there).1)⟩
  · intro d d' x x'
    exact shows.distinct_setProc fun _ there => apart there
  · intro r member
    rcases mem_insert.mp member with rfl | old
    · exact ⟨c, q, setProc_self, rfl⟩
    · obtain ⟨d, x, there, rfl⟩ := shows.root old
      exact ⟨d, x, (setProc_other (others' there)).trans there, rfl⟩
  · intro f member
    rcases mem_cons.mp member with rfl | old
    · exact ⟨c, q, setProc_self, rfl⟩
    · obtain ⟨d, x, there, rfl⟩ := shows.frame old
      exact ⟨d, x, (setProc_other (others' there)).trans there, rfl⟩

end

end Shows

section Events

/-- The outcome of an event is valid again, or a panic for another reason. -/
def System.Safe (layout : Layout) : Except Panic (Option System) → Prop
  | .ok none => True
  | .ok (some s) => s.Valid layout
  | .error e => e.ofExtent = false

theorem System.run_safe {α : Type} {program : KM α} {next : α → Kmem → Option System}
    {post : α → Kmem → Prop} (meets : Meets program s.kmem post fun e => e.ofExtent = false)
    (fine : ∀ a k s', post a k → next a k = some s' → s'.Valid layout) :
    Safe layout (s.run program next) := by
  have outcome : Meets program s.kmem (fun a k => Safe layout (.ok (next a k)))
      fun e => e.ofExtent = false := by
    refine meets.mono (fun a k holds => ?_) fun _ => id
    cases result : next a k with
    | none => trivial
    | some s' => exact fine a k s' holds result
  unfold Meets at outcome
  unfold run
  cases ended : program s.kmem with
  | error e =>
    rw [ended] at outcome
    exact outcome
  | ok result =>
    rw [ended] at outcome
    exact outcome

theorem System.withProc_safe (fine : ∀ q, s.procs p = some q → Safe layout (act q)) :
    Safe layout (s.withProc p act) := by
  unfold withProc
  cases here : s.procs p with
  | none => trivial
  | some q => exact fine q here

section

variable (shows : s.Shows layout live tfs node books)

include shows

theorem System.Shows.kalloc : Safe layout (s.perform layout .kalloc) := by
  rw [perform]
  refine run_safe (kalloc_sound shows.sound) fun pa k s' outcome done => ?_
  cases done
  rcases outcome with ⟨rfl, rfl⟩ | ⟨unused, after⟩
  · exact ⟨live, tfs, node, books, shows.sound, shows.held, shows.proc, shows.distinct,
      shows.once, shows.root, shows.frame⟩
  · refine ⟨live, tfs, node, _, after, ?_, shows.proc, shows.distinct,
      nodup_cons.mpr ⟨unused.unheld, shows.once⟩, shows.root, shows.frame⟩
    dsimp only
    rw [if_neg unused.page.ne_zero, ← cons_coe, cons_add, ← shows.held]
    rfl

theorem System.Shows.kfree {pa : Nat} (owned : pa ∈ s.pages) :
    Safe layout (s.perform layout (.kfree pa)) := by
  have has : books.held = pa ::ₘ ((s.pages.erase pa : Multiset Nat) + tfs) := by
    rw [shows.held, ← cons_add, cons_coe]
    congr 1
    exact coe_eq_coe.mpr (List.perm_cons_erase owned)
  rw [perform]
  refine run_safe (kfree_sound shows.sound has) fun _ k s' after done => ?_
  cases done
  refine ⟨live, tfs, node, _, after, rfl, shows.proc, shows.distinct, ?_, shows.root, shows.frame⟩
  have once := shows.once
  rw [has] at once
  exact (nodup_cons.mp once).2

theorem System.Shows.fill {pa offset : Nat} {byte : UInt8} (owned : pa ∈ s.pages)
    (inside : offset < pgsize) : Safe layout (s.perform layout (.fill pa offset byte)) := by
  have held : pa ∈ books.held := by
    rw [shows.held]
    exact mem_add.mpr (.inl (mem_coe.mpr owned))
  have written : Sound layout
      { s.kmem with mem := copy s.kmem.mem (pa + offset) 1 fun _ => byte } live node _ :=
    shows.sound.put (.inl held) inside
  rw [copy_single] at written
  exact ⟨live, tfs, node, _, shows.keep written rfl fun _ _ => Iff.rfl⟩

theorem System.Shows.userinit (vacant : s.procs p = none) (short : code.length < pgsize) :
    Safe layout (s.perform layout (.userinit p code)) := by
  rw [perform]
  refine run_safe (userinit_sound shows.sound short rfl) fun result k s' after done => ?_
  cases result with
  | none => cases done
  | some np =>
    cases done
    obtain ⟨new, unheld, node', books', sound, held, _, others, fits⟩ := after np rfl
    refine ⟨_, _, node', books', shows.add vacant new unheld sound held fits fun r other v => ?_⟩
    rw [others (r, v) other]

theorem System.Shows.fork {child : Nat} (vacant : s.procs child = none) :
    Safe layout (s.perform layout (.fork p child)) := by
  rw [perform]
  refine withProc_safe fun q here => ?_
  obtain ⟨alive, _, fits⟩ := shows.proc here
  refine run_safe (fork_sound shows.sound alive fits) fun result k s' outcome done => ?_
  rcases outcome with ⟨rfl, _, books', after, held, _, n, _, _, leaf⟩ |
    ⟨np, rfl, new, _, node', books', forked, fits', after⟩
  · cases done
    refine ⟨live, tfs, node, books', shows.keep after held fun r v => ?_⟩
    rw [leaf, Books.cowed_maps]
  · cases done
    obtain ⟨first, launched, leaf⟩ := forked.launched
    refine ⟨_, _, node', books', shows.add vacant new launched.unheld after forked.held fits'
      fun r other v => ?_⟩
    rw [leaf, Books.copied_others _ other, launched.others (r, v) other]

theorem System.Shows.exec {image : Option Image} {argv : List (List UInt8)} :
    Safe layout (s.perform layout (.exec p image argv)) := by
  rw [perform]
  refine withProc_safe fun q here => ?_
  obtain ⟨alive, _, fits⟩ := shows.proc here
  refine run_safe (exec_sound shows.sound alive (shows.tf_held here) fits rfl)
    fun result k s' outcome done => ?_
  cases done
  obtain ⟨tf, live', node', books', after, held, _, alive', new, others, back, fits'⟩ := outcome
  refine ⟨live', tfs, node', books',
    shows.replace here tf after held alive' new fits' (fun r known other => ?_) back⟩
  obtain ⟨still, same⟩ := others r known other
  exact ⟨still, fun v => by rw [same]⟩

theorem System.Shows.sbrk {n : Int} (word : n < 2 ^ 31) :
    Safe layout (s.perform layout (.sbrk p n)) := by
  rw [perform]
  refine withProc_safe fun q here => ?_
  obtain ⟨alive, _, fits⟩ := shows.proc here
  refine run_safe (growproc_sound shows.sound alive fits word) fun result k s' outcome done => ?_
  rcases outcome with ⟨rfl, _, node', _, after⟩ | ⟨rfl, _, node', books', after, fits', change⟩
  · cases done
    exact ⟨live, tfs, node', books, shows.keep after rfl fun _ _ => Iff.rfl⟩
  · cases done
    have held : books'.held = books.held := by
      rcases change with grown | rfl
      · exact grown.held
      · rfl
    refine ⟨live, tfs, node', books', shows.replace here rfl after held alive (.inl rfl) fits'
      (fun r known other => ⟨known, fun v => ?_⟩)
      fun r known => (eq_or_ne r q.pagetable).imp_right fun other => ⟨known, other⟩⟩
    rcases change with grown | rfl
    · rw [grown.others (r, v) fun inside => other inside.1]
    · unfold Books.unmap
      dsimp only
      rw [if_neg fun inside => other inside.1]

theorem System.Shows.reap : Safe layout (s.perform layout (.reap p)) := by
  rw [perform]
  refine withProc_safe fun q here => ?_
  obtain ⟨alive, owned, fits⟩ := shows.proc here
  obtain ⟨rest, rfl⟩ := exists_cons_of_mem owned
  have has : books.held = q.trapframe ::ₘ ((s.pages : Multiset Nat) + rest) := by
    rw [shows.held, add_cons]
  refine run_safe (freeproc_sound shows.sound alive has fits) fun _ k s' outcome done => ?_
  cases done
  obtain ⟨node', _, after⟩ := outcome
  have others {c : Nat} {x : Proc} (there : s.procs c = some x) (apart : x ≠ q) : c ≠ p := by
    rintro rfl
    exact apart (some.inj (there.symm.trans here))
  have once := shows.once
  rw [has] at once
  refine ⟨_, rest, node', _, after, rfl, ?_, ?_, (nodup_cons.mp once).2, ?_, ?_⟩
  · intro c x there
    rcases setProc_some there with ⟨_, none⟩ | ⟨other, there⟩
    · cases none
    · obtain ⟨known, tf, fit⟩ := shows.proc there
      have apart : x.pagetable ≠ q.pagetable :=
        fun same => other (shows.distinct there here (.inl same))
      refine ⟨mem_erase.mpr ⟨apart, known⟩, ?_, fit.congr fun v => ?_⟩
      · refine (mem_cons.mp tf).resolve_left fun same => ?_
        exact other (shows.distinct there here (.inr same))
      · unfold Books.discard
        dsimp only
        rw [if_neg apart]
  · intro c c' x x' there there' same
    rcases setProc_some there with ⟨_, none⟩ | ⟨_, there⟩
    · cases none
    · rcases setProc_some there' with ⟨_, none⟩ | ⟨_, there'⟩
      · cases none
      · exact shows.distinct there there' same
  · intro r member
    obtain ⟨other, known⟩ := mem_erase.mp member
    obtain ⟨c, x, there, rfl⟩ := shows.root known
    exact ⟨c, x, (setProc_other (others there fun same => other (by rw [same]))).trans there, rfl⟩
  · intro f member
    obtain ⟨c, x, there, rfl⟩ := shows.frame (mem_cons_of_mem member)
    have apart : x ≠ q := by
      rintro rfl
      exact (nodup_cons.mp once).1 (mem_add.mpr (.inr member))
    exact ⟨c, x, (setProc_other (others there apart)).trans there, rfl⟩

theorem System.Shows.store {va sp : Nat} {byte : UInt8} (word : sp < 2 ^ 64) :
    Safe layout (s.perform layout (.store p va sp byte)) := by
  rw [perform]
  refine withProc_safe fun q here => ?_
  obtain ⟨alive, _, fits⟩ := shows.proc here
  refine run_safe (userStore_sound shows.sound alive word (fun _ => rfl) fun _ _ _ _ _ => rfl)
    fun result k s' outcome done => ?_
  cases done
  rcases outcome with ⟨_, _, books', kept, _, after⟩ | ⟨_, leaf, leaf', books', seen, own, after⟩
  · exact ⟨live, tfs, node, books', shows.keep after kept.held kept.everywhere⟩
  · have kept : Books.Keeps q.pagetable books books' := by
      obtain ⟨_, mapped, _⟩ := Books.reach_some.mp seen
      rcases own with ⟨_, _, rfl⟩ | ⟨_, _, _, own⟩
      · exact .refl shows.sound.good _
      · exact own.keeps shows.sound.good ((shows.sound.good.guarded _).below seen) mapped
    exact ⟨live, tfs, node, _, shows.keep after kept.held kept.everywhere⟩

theorem System.Shows.copyout {va len : Nat} {src : Nat → UInt8} :
    Safe layout (s.perform layout (.copyout p va src len)) := by
  rw [perform]
  refine withProc_safe fun q here => ?_
  obtain ⟨alive, _, _⟩ := shows.proc here
  refine run_safe (copyout_meets shows.sound.tables shows.sound.paid alive
    (shows.sound.good.guarded _) fun _ _ => rfl) fun result k s' outcome done => ?_
  cases done
  obtain ⟨books', after, copies⟩ := outcome
  have kept := copies.keeps shows.sound.good
  exact ⟨live, tfs, node, books',
    shows.keep ⟨after, kept.debt.trans shows.sound.paid, kept.good⟩ kept.held
    kept.everywhere⟩

end

theorem System.Valid.safe (valid : s.Valid layout) (allowed : s.Allows event) :
    Safe layout (s.perform layout event) := by
  obtain ⟨live, tfs, node, books, shows⟩ := valid
  cases event with
  | kalloc => exact shows.kalloc
  | kfree pa => exact shows.kfree allowed
  | fill pa offset byte => exact shows.fill allowed.1 allowed.2
  | userinit p code => exact shows.userinit allowed.1 allowed.2
  | fork p child => exact shows.fork allowed
  | exec p image argv => exact shows.exec
  | sbrk p n => exact shows.sbrk allowed.2
  | reap p => exact shows.reap
  | store p va sp byte => exact shows.store allowed.2
  | copyout p va src len => exact shows.copyout

theorem System.Valid.step (valid : s.Valid layout) (taken : s.step layout event = some s') :
    s'.Valid layout := by
  obtain ⟨allowed, outcome⟩ := step_some taken
  have safe := valid.safe allowed
  rw [outcome] at safe
  exact safe

end Events

section Run

theorem System.valid_run {u : Kmem} {mem : Foundation.Memory} {counts : Nat → Int}
    {events : List Event} (booted : kinit layout ⟨mem, counts, 0⟩ = .ok ((), u))
    (run : Foundation.exec (step layout) (start u) events = some s) : s.Valid layout := by
  have meets : Meets (kinit layout) ⟨mem, counts, 0⟩ _ fun _ => True := kinit_meets rfl
  obtain ⟨data, tables⟩ := meets.result booted
  have initial : (start u).Valid layout := by
    refine ⟨_, 0, _, _, ⟨tables, rfl, ?_, ?_, ?_, ?_⟩, rfl, ?_, ?_, nodup_zero, ?_, ?_⟩
    · intro r v leaf mapped
      cases mapped
    · intro r v v' leaf leaf' _ _ mapped
      cases mapped
    · intro r r' v v' leaf leaf' _ _ mapped
      cases mapped
    · intro r v leaf mapped
      cases mapped
    · intro p q there
      cases there
    · intro p p' q q' there
      cases there
    · intro r member
      cases member
    · intro f member
      cases member
  exact exec_invariant (fun _ _ _ valid taken => valid.step taken) initial run

/-- After any events a page table maps the pages below the size of its process, `TRAPFRAME` and
`TRAMPOLINE`, and no event ends in a panic about a page that is or is not mapped. -/
theorem address_space_extent (layout : Layout) (mem : Foundation.Memory) (counts : Nat → Int)
    (u : Kmem) (booted : kinit layout ⟨mem, counts, 0⟩ = .ok ((), u)) (events : List Event)
    (s : System) (run : Foundation.exec (System.step layout) (System.start u) events = some s) :
    (∀ p q, s.procs p = some q → ∀ v, v < maxva / pgsize →
      ((s.kmem.frameAt q.pagetable v).isSome ↔
        v < pgroundup q.sz / pgsize ∨ v = trapframe / pgsize ∨ v = trampoline / pgsize)) ∧
    ∀ event, s.Allows event → ∀ e, s.perform layout event = .error e → e.ofExtent = false := by
  have valid := System.valid_run booted run
  refine ⟨fun p q here v inside => ?_, fun event allowed e ended => ?_⟩
  · obtain ⟨live, tfs, node, books, shows⟩ := valid
    obtain ⟨alive, _, fits⟩ := shows.proc here
    have low : v < 512 ^ 3 := inside.trans (by decide)
    have special : trapframe / pgsize = userPages ∧ trampoline / pgsize = userPages + 1 := by decide
    rw [shows.sound.tables.frameAt_eq alive low, isSome_map, isSome_iff_exists,
      special.1, special.2]
    exact fits.2 v
  · have safe := valid.safe allowed
    rw [ended] at safe
    exact safe

def bootSystem (layout : Layout) (events : List Event) : Option System :=
  match kinit layout ⟨fun _ => 0, fun _ => 0, 0⟩ with
  | .ok (_, u) => Foundation.exec (System.step layout) (System.start u) events
  | .error _ => none

theorem bootSystem_some {events : List Event} (ended : bootSystem layout events = some s) :
    ∃ u, kinit layout ⟨fun _ => 0, fun _ => 0, 0⟩ = .ok ((), u) ∧
      Foundation.exec (step layout) (start u) events = some s := by
  unfold bootSystem at ended
  split at ended
  · rename_i u booted
    exact ⟨u, booted, ended⟩
  · cases ended

def growAndFork : List Event :=
  [.userinit 0 [], .sbrk 0 1, .fork 0 1]

theorem address_space_extent_grow_and_fork :
    ∃ u s q, kinit smallLayout ⟨fun _ => 0, fun _ => 0, 0⟩ = .ok ((), u) ∧
      Foundation.exec (System.step smallLayout) (System.start u) growAndFork = some s ∧
      s.procs 1 = some q ∧ q.sz = 4097 ∧ (s.kmem.frameAt q.pagetable 1).isSome ∧
      ¬ (s.kmem.frameAt q.pagetable 2).isSome := by
  have ends : (bootSystem smallLayout growAndFork).map (fun s => (s.procs 1).map Proc.sz) =
      some (some 4097) := by decide +kernel
  obtain ⟨s, ended, child⟩ := map_eq_some_iff.mp ends
  obtain ⟨q, here, size⟩ := map_eq_some_iff.mp child
  obtain ⟨u, booted, run⟩ := bootSystem_some ended
  have extent := (address_space_extent smallLayout _ _ u booted growAndFork s run).1 1 q here
  rw [size] at extent
  exact ⟨u, s, q, booted, run, here, size, (extent 1 (by decide)).mpr (by decide),
    fun mapped => absurd ((extent 2 (by decide)).mp mapped) (by decide)⟩

end Run

end EnhancedXv6.Memory
