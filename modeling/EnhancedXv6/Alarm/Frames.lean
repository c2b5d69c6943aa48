import EnhancedXv6.Alarm.Alarm
import EnhancedXv6.Memory.Extent

namespace EnhancedXv6.Alarm

open Function List Option
open Foundation EnhancedXv6.Memory

variable {user : Context} {k : Kmem} {q : Proc}

section Programs

variable {layout : Layout} {k : Kmem} {live : Finset Nat} {node : Nodes} {books : Books}
  {stops : Panic → Prop} {tf frame : Nat} {user : Context} {a : AlarmState} {held : Multiset Nat}

section

variable (sound : Sound layout k live node books)

include sound

theorem saveContext_sound (owned : tf ∈ books.held) :
    Meets (saveContext tf user) k (fun _ u => ∃ books', Books.SameBut tf books books' ∧
      Sound layout u live node books') stops := by
  rw [saveContext, meets_bind, meets_modify]
  have saved : Sound layout
      { k with mem := copy k.mem (tf + tfRa) (trapframeBytes - tfRa) user.regs } live node _ :=
    sound.put (.inl owned) (by decide)
  refine (storeWord_sound saved owned (by decide)).mono (fun _ u stored => ?_) fun _ => id
  obtain ⟨books', same, after⟩ := stored
  exact ⟨books', (Books.put_sameBut _ _ _ _ _).trans same, after⟩

theorem usertrapSyscall_sound {call : KM (AlarmState × Nat)} (owned : tf ∈ books.held)
    (kept : tf ∈ held)
    (calls : ∀ u books', Books.SameBut tf books books' → Sound layout u live node books' →
      Meets call u (fun _ w => ∃ books'', books''.leaf = books.leaf ∧ books''.held = held ∧
        (∀ f ∈ held, f ≠ tf → books''.data f = books.data f) ∧
        Sound layout w live node books'') stops) :
    Meets (usertrapSyscall tf user call) k (fun _ w => ∃ books'', books''.leaf = books.leaf ∧
      books''.held = held ∧
      (∀ f ∈ held, f ≠ tf → books''.data f = books.data f) ∧
      Sound layout w live node books'') stops := by
  rw [usertrapSyscall]
  refine (saveContext_sound sound owned).bind fun _ k₁ saved => ?_
  obtain ⟨books₁, same₁, sound₁⟩ := saved
  refine (storeWord_sound sound₁ (by rw [same₁.2.1]; exact owned) (by decide)).bind
    fun _ k₂ stored => ?_
  obtain ⟨books₂, same₂, sound₂⟩ := stored
  refine (calls k₂ books₂ (same₁.trans same₂) sound₂).bind fun result k₃ called => ?_
  obtain ⟨books₃, leaf₃, held₃, steady₃, sound₃⟩ := called
  refine (storeWord_sound sound₃ (by rw [held₃]; exact kept) (by decide)).bind fun _ k₄ stored => ?_
  obtain ⟨books₄, same₄, sound₄⟩ := stored
  exact meets_pure.mpr ⟨books₄, same₄.1.trans leaf₃, same₄.2.1.trans held₃,
    fun f member other => (same₄.2.2 f other).trans (steady₃ f member other), sound₄⟩

theorem sysSigreturn_sound (has : books.held = a.sigalarm ::ₘ held) (owned : tf ∈ held) :
    Meets (sysSigreturn tf a) k (fun _ w => ∃ books', books'.leaf = books.leaf ∧
      books'.held = held ∧
      (∀ f ∈ held, f ≠ tf → books'.data f = books.data f) ∧
      Sound layout w live node books') stops := by
  have page : layout.Managed a.sigalarm := sound.tables.shows.accounts.holder (by rw [has]; simp)
  have writable : tf ∈ books.held := by
    rw [has]
    exact Multiset.mem_cons_of_mem owned
  rw [sysSigreturn, if_neg page.ne_zero, meets_bind, memmove, meets_modify]
  have restored :
      Sound layout { k with mem := copy k.mem (tf + 0) pgsize fun i => k.mem (a.sigalarm + i) }
      live node _ := sound.put (.inl writable) (by decide)
  refine (kfree_sound restored has).bind fun _ u after => ?_
  rw [meets_bind, meets_loadWord, meets_pure]
  exact ⟨{ books.put tf 0 pgsize fun i => k.mem (a.sigalarm + i) with held := held }, rfl, rfl,
    fun f _ other => update_of_ne other _ _, after⟩

theorem usertrapSigreturn_sound (has : books.held = a.sigalarm ::ₘ held) (owned : tf ∈ held) :
    Meets (usertrapSyscall tf user (sysSigreturn tf a)) k (fun _ w => ∃ books',
      books'.leaf = books.leaf ∧
      books'.held = held ∧ (∀ f ∈ held, f ≠ tf → books'.data f = books.data f) ∧
      Sound layout w live node books')
      stops := by
  have mine : tf ∈ books.held := by
    rw [has]
    exact Multiset.mem_cons_of_mem owned
  refine usertrapSyscall_sound sound mine owned fun u books₁ same sound₁ => ?_
  refine (sysSigreturn_sound sound₁ (same.2.1.trans has) owned).mono
    (fun _ w after => ?_) fun _ => id
  obtain ⟨books₂, leaf, held₂, steady, sound₂⟩ := after
  exact ⟨books₂, leaf.trans same.1, held₂,
    fun f member other => (steady f member other).trans (same.2.2 f other), sound₂⟩

theorem usertrapTimer_sound (owned : tf ∈ books.held) :
    Meets (usertrapTimer tf user a) k (fun result w => ∃ books', books'.leaf = books.leaf ∧
      Sound layout w live node books' ∧ (∀ f ∈ books.held, f ≠ tf → books'.data f = books.data f) ∧
      ((¬ a.Due ∨ result = a.fired 0) ∧ books'.held = books.held ∨
        a.Due ∧ ∃ frame, result = a.fired frame ∧ frame ∉ books.held ∧
        books'.held = frame ::ₘ books.held)) stops := by
  rw [usertrapTimer]
  refine (saveContext_sound sound owned).bind fun _ k₁ saved => ?_
  obtain ⟨books₁, ⟨leaf₁, held₁, data₁⟩, sound₁⟩ := saved
  have steady₁ (f : Nat) (_ : f ∈ books.held) := data₁ f
  split
  case isFalse unset =>
    exact meets_pure.mpr ⟨books₁, leaf₁, sound₁, steady₁, .inl ⟨.inl fun due => unset due.1, held₁⟩⟩
  rename_i set
  split
  case isFalse later =>
    exact meets_pure.mpr ⟨books₁, leaf₁, sound₁, steady₁, .inl ⟨.inl fun due => later due.2, held₁⟩⟩
  rename_i now
  refine (kalloc_sound sound₁).bind fun frame k₂ outcome => ?_
  rcases outcome with ⟨none, rfl⟩ | ⟨unused, sound₂⟩
  · rw [if_neg (not_not.mpr none)]
    exact meets_pure.mpr ⟨books₁, leaf₁, sound₁, steady₁, .inl ⟨.inr rfl, held₁⟩⟩
  rw [if_pos unused.page.ne_zero, meets_bind, meets_memset, meets_bind, memmove, meets_modify]
  have mine : frame ∈ (books₁.hold frame fun _ => 5).held := Multiset.mem_cons_self _ _
  have cleared :
      Sound layout { k₂ with mem := copy k₂.mem (frame + 0) pgsize fun _ => 0 } live node _ :=
    sound₂.put (.inl mine) (by decide)
  have copied (u : Kmem) (before : Sound layout u live node
      ((books₁.hold frame fun _ => 5).put frame 0 pgsize fun _ => 0)) :
      Sound layout
        { u with mem := copy u.mem (frame + 0) pgsize fun i => u.mem (tf + i) } live node _ :=
    before.put (.inl mine) (by decide)
  have saved := copied _ cleared
  have writable : tf ∈ frame ::ₘ books₁.held := by
    rw [held₁]
    exact Multiset.mem_cons_of_mem owned
  refine (storeWord_sound saved writable (by decide)).bind fun _ w stored => meets_pure.mpr ?_
  obtain ⟨books₂, same, after⟩ := stored
  have unheld : frame ∉ books.held := held₁ ▸ unused.unheld
  refine ⟨books₂, same.1.trans leaf₁, after, fun f member other => ?_,
    .inr ⟨⟨set, now⟩, frame, rfl, unheld, ?_⟩⟩
  · have apart : f ≠ frame := by
      rintro rfl
      exact unheld member
    refine (same.2.2 f other).trans ((update_of_ne apart _ _).trans ?_)
    refine (update_of_ne apart _ _).trans ((update_of_ne apart _ _).trans ?_)
    exact data₁ f other
  · rw [same.2.1, ← held₁]
    rfl

end

end Programs

section System

variable {layout : Layout} {s : System} {k : Kmem} {live : Finset Nat} {node : Nodes}
  {books books' : Books} {tfs : Multiset Nat} {frame : Nat}

theorem shows_grant (shows : s.Shows layout live tfs node books)
    (after : Sound layout k live node books') (leaf : books'.leaf = books.leaf)
    (unheld : frame ∉ books.held) (held : books'.held = frame ::ₘ books.held) :
    System.Shows layout { s with kmem := k, pages := frame :: s.pages } live tfs node books' := by
  refine ⟨after, ?_, fun there => ?_, shows.distinct, ?_, shows.root, shows.frame⟩
  · rw [held, shows.held, ← Multiset.cons_add, Multiset.cons_coe]
  · obtain ⟨alive, owned, fits⟩ := shows.proc there
    exact ⟨alive, owned, fits.congr fun v => by rw [leaf]⟩
  · rw [held]
    exact Multiset.nodup_cons.mpr ⟨unheld, shows.once⟩

theorem shows_giveBack (shows : s.Shows layout live tfs node books)
    (after : Sound layout k live node books') (leaf : books'.leaf = books.leaf)
    (held : books'.held = (s.pages.erase frame : Multiset Nat) + tfs)
    (less : books'.held ≤ books.held) :
    System.Shows layout
      { s with kmem := k, pages := s.pages.erase frame } live tfs node books' := by
  refine ⟨after, held, fun there => ?_, shows.distinct, Multiset.nodup_of_le less shows.once,
    shows.root, shows.frame⟩
  obtain ⟨alive, owned, fits⟩ := shows.proc there
  exact ⟨alive, owned, fits.congr fun v => by rw [leaf]⟩

end System

section Events

variable {layout : Layout} {s s' : System} {event : Memory.Event}

/-- Pages are kept until they are freed, and processes until they are reaped. -/
structure Keeping (event : Memory.Event) (s s' : System) : Prop where
  pages : ∀ f ∈ s.pages, event ≠ .kfree f → f ∈ s'.pages
  procs : ∀ p q, s.procs p = some q → event ≠ .reap p → ∃ q', s'.procs p = some q'

theorem Keeping.setProc {p : Nat} {x : Option Proc} (pages : s'.pages = s.pages)
    (procs : s'.procs = s.procs)
    (stays : ∀ q, s.procs p = some q → event ≠ .reap p → ∃ q', x = some q') :
    Keeping event s (s'.setProc p x) := by
  constructor
  · intro f member _
    rw [← pages] at member
    exact member
  · intro c q there alive
    by_cases same : c = p
    · subst same
      obtain ⟨q', rfl⟩ := stays q there alive
      exact ⟨q', System.setProc_self⟩
    · rw [System.setProc_other same, procs]
      exact ⟨q, there⟩

theorem Keeping.same (pages : s'.pages = s.pages) (procs : s'.procs = s.procs) :
    Keeping event s s' :=
  ⟨fun _ member _ => pages ▸ member, fun _ q there _ => ⟨q, procs ▸ there⟩⟩

theorem keeping_of_perform (done : s.perform layout event = .ok (some s')) :
    Keeping event s s' := by
  unfold System.perform at done
  cases event with
  | kalloc =>
    obtain ⟨pa, k, _, next⟩ := System.run_some done
    cases next
    refine ⟨fun f member _ => ?_, fun p q there _ => ⟨q, there⟩⟩
    dsimp only
    split
    · exact member
    · exact mem_cons_of_mem _ member
  | kfree pa =>
    obtain ⟨_, k, _, next⟩ := System.run_some done
    cases next
    refine ⟨fun f member other => ?_, fun p q there _ => ⟨q, there⟩⟩
    refine (mem_erase_of_ne ?_).mpr member
    rintro rfl
    exact other rfl
  | fill pa offset byte =>
    cases done
    exact .same rfl rfl
  | userinit p code =>
    obtain ⟨first, k, _, next⟩ := System.run_some done
    obtain ⟨q, rfl, rfl⟩ := map_eq_some_iff.mp next
    exact .setProc rfl rfl fun _ _ _ => ⟨q, rfl⟩
  | fork p child | sbrk p n =>
    obtain ⟨q, here, done⟩ := System.withProc_some done
    obtain ⟨outcome, k, _, next⟩ := System.run_some done
    cases outcome with
    | none =>
      cases next
      exact .same rfl rfl
    | some new =>
      cases next
      exact .setProc rfl rfl fun _ _ _ => ⟨new, rfl⟩
  | exec p image argv =>
    obtain ⟨q, here, done⟩ := System.withProc_some done
    obtain ⟨⟨result, q'⟩, k, _, next⟩ := System.run_some done
    cases next
    exact .setProc rfl rfl fun _ _ _ => ⟨q', rfl⟩
  | reap p =>
    obtain ⟨q, here, done⟩ := System.withProc_some done
    obtain ⟨_, k, _, next⟩ := System.run_some done
    cases next
    exact .setProc rfl rfl fun _ _ alive => absurd rfl alive
  | store p va sp byte | copyout p va src len =>
    obtain ⟨q, here, done⟩ := System.withProc_some done
    obtain ⟨result, k, _, next⟩ := System.run_some done
    cases next
    exact .same rfl rfl

theorem keeping_of_step (taken : s.step layout event = some s') : Keeping event s s' := by
  exact keeping_of_perform (System.step_some taken).2

end Events

section Runs

variable {layout : Layout} {s s' : State} {event : Event} {p : Nat}

/-- A process returns from a handler only inside one, no alarm is delivered inside a handler, and no
process is reaped inside one. -/
def State.Orderly (s : State) : Event → Prop
  | .sigreturn p _ => (s.handling p).isSome
  | .timer p _ => (s.handling p).isSome → ¬ (s.alarm p).Due
  | .system (.reap p) => s.handling p = none
  | _ => True

/-- The pages of the alarms belong to the handlers in progress, one each. -/
structure State.Tidy (layout : Layout) (s : State) : Prop where
  valid : s.system.Valid layout
  alive : ∀ p, (s.handling p).isSome → ∃ q, s.system.procs p = some q
  frame : ∀ p, (s.handling p).isSome → (s.alarm p).sigalarm ∈ s.system.pages
  ledger : ∀ p f, (p, f) ∈ s.ledger ↔ (s.handling p).isSome ∧ (s.alarm p).sigalarm = f
  distinct : ∀ p p', (s.handling p).isSome → (s.handling p').isSome →
    (s.alarm p).sigalarm = (s.alarm p').sigalarm → p = p'

section

variable (tidy : s.Tidy layout)

include tidy

theorem State.Tidy.system {e : Memory.Event} {t : System} (allowed : s.Allows (.system e))
    (orderly : s.Orderly (.system e)) (taken : s.system.step layout e = some t) :
    (s.afterSystem e t).Tidy layout := by
  have keeping := keeping_of_step taken
  have kept (c : Nat) (inside : (s.handling c).isSome) : (s.alarm c).sigalarm ∈ t.pages := by
    refine keeping.pages _ (tidy.frame c inside) ?_
    rintro rfl
    exact allowed (c, _) ((tidy.ledger c _).mpr ⟨inside, rfl⟩) rfl
  have lives (c : Nat) (inside : (s.handling c).isSome) : ∃ q, t.procs c = some q := by
    obtain ⟨q, there⟩ := tidy.alive c inside
    refine keeping.procs c q there ?_
    rintro rfl
    rw [show s.handling c = none from orderly] at inside
    cases inside
  unfold afterSystem
  split
  case h_2 => exact ⟨tidy.valid.step taken, lives, kept, tidy.ledger, tidy.distinct⟩
  rename_i c cleared
  -- the slot that is cleared has no handler
  have vacant : s.handling c = none := by
    by_contra some
    obtain ⟨q, there⟩ := tidy.alive c (ne_none_iff_isSome.mp some)
    have allowed' := (System.step_some taken).1
    cases e with
    | userinit p code =>
      cases cleared
      rw [allowed'.1] at there
      cases there
    | fork p child =>
      cases cleared
      rw [show s.system.procs c = none from allowed'] at there
      cases there
    | reap p =>
      cases cleared
      exact some orderly
    | kalloc | kfree | fill | exec | sbrk | store | copyout => cases cleared
  have same : update s.handling c none = s.handling := by
    rw [← vacant, update_eq_self]
  have other (d : Nat) (inside : (s.handling d).isSome) :
      update s.alarm c .unset d = s.alarm d := by
    refine update_of_ne ?_ _ _
    rintro rfl
    rw [vacant] at inside
    cases inside
  refine ⟨tidy.valid.step taken, ?_, ?_, ?_, ?_⟩
  · intro d inside
    rw [same] at inside
    exact lives d inside
  · intro d inside
    rw [same] at inside
    dsimp only
    rw [other d inside]
    exact kept d inside
  · intro d f
    rw [tidy.ledger, same]
    dsimp only
    constructor
    · rintro ⟨inside, here⟩
      rw [other d inside]
      exact ⟨inside, here⟩
    · rintro ⟨inside, here⟩
      rw [other d inside] at here
      exact ⟨inside, here⟩
  · intro d d' inside inside' equal
    rw [same] at inside inside'
    dsimp only at equal
    rw [other d inside, other d' inside'] at equal
    exact tidy.distinct d d' inside inside' equal

/-- A process goes on with its alarm, in its handler if it was in one. -/
theorem State.Tidy.goOn {a : AlarmState} {h : Option Handler}
    (valid : System.Valid layout { s.system with kmem := k })
    (same : (s.handling p).isSome → a.sigalarm = (s.alarm p).sigalarm)
    (goesOn : h.isSome ↔ (s.handling p).isSome) :
    State.Tidy layout { s with
      system := { s.system with kmem := k }
      alarm := update s.alarm p a
      handling := update s.handling p h } := by
  have handling (c : Nat) : (update s.handling p h c).isSome ↔ (s.handling c).isSome := by
    by_cases here : c = p
    · rw [here, update_self, goesOn]
    · rw [update_of_ne here]
  have alarm (c : Nat) (inside : (s.handling c).isSome) :
      (update s.alarm p a c).sigalarm = (s.alarm c).sigalarm := by
    by_cases here : c = p
    · subst here
      rw [update_self]
      exact same inside
    · rw [update_of_ne here]
  refine ⟨valid, ?_, ?_, ?_, ?_⟩
  · intro c there
    exact tidy.alive c ((handling c).mp there)
  · intro c there
    have there := (handling c).mp there
    dsimp only
    rw [alarm c there]
    exact tidy.frame c there
  · intro c f
    rw [tidy.ledger]
    dsimp only
    rw [handling c]
    refine and_congr_right fun there => ?_
    rw [alarm c there]
  · intro c c' there there' equal
    have there := (handling c).mp there
    have there' := (handling c').mp there'
    dsimp only at equal
    rw [alarm c there, alarm c' there'] at equal
    exact tidy.distinct c c' there there' equal

theorem State.Tidy.sigalarm {n : Int} {handler : Nat} (here : s.system.procs p = some q)
    (ran :
      usertrapSyscall q.trapframe user (pure (sysSigalarm (s.alarm p) n handler, 0)) s.system.kmem =
      .ok (sysSigalarm (s.alarm p) n handler, k)) :
    (s.afterSigalarm p (sysSigalarm (s.alarm p) n handler) k).Tidy layout := by
  obtain ⟨live, tfs, node, books, shows⟩ := tidy.valid
  have owned := shows.tf_held here
  have meets : Meets
      (usertrapSyscall q.trapframe user (pure (sysSigalarm (s.alarm p) n handler, 0))) s.system.kmem
      _ fun _ => True :=
    usertrapSyscall_sound shows.sound owned owned fun u books' same sound =>
      meets_pure.mpr ⟨books', same.1, same.2.1, fun f _ => same.2.2 f, sound⟩
  obtain ⟨books', leaf, held, _, sound⟩ := meets.result ran
  refine tidy.goOn ⟨live, tfs, node, books', ?_⟩ (fun _ => rfl) (by rw [isSome_map])
  exact shows.keep sound held fun r v => by rw [leaf]

theorem State.Tidy.quiet {a : AlarmState} (here : s.system.procs p = some q)
    (missed : (s.alarm p).Due → a.sigalarm = 0)
    (ran : usertrapTimer q.trapframe user (s.alarm p) s.system.kmem = .ok (a, k)) :
    System.Valid layout { s.system with kmem := k } := by
  obtain ⟨live, tfs, node, books, shows⟩ := tidy.valid
  have meets : Meets (usertrapTimer q.trapframe user (s.alarm p)) s.system.kmem _ fun _ => True :=
    usertrapTimer_sound shows.sound (shows.tf_held here)
  obtain ⟨books', leaf, sound, _, ⟨_, held⟩ | ⟨due, frame, rfl, _, held⟩⟩ := meets.result ran
  · exact ⟨live, tfs, node, books', shows.keep sound held fun r v => by rw [leaf]⟩
  · have page : layout.Managed frame := sound.tables.shows.accounts.holder (by rw [held]; simp)
    exact absurd (missed due) page.ne_zero

theorem State.Tidy.alarm {frame : Nat} (here : s.system.procs p = some q)
    (outside : s.handling p = none) (due : (s.alarm p).Due) (real : frame ≠ 0)
    (ran : usertrapTimer q.trapframe user (s.alarm p) s.system.kmem =
      .ok ((s.alarm p).fired frame, k)) :
    (s.afterAlarm p ((s.alarm p).fired frame) k).Tidy layout := by
  obtain ⟨live, tfs, node, books, shows⟩ := tidy.valid
  have meets : Meets (usertrapTimer q.trapframe user (s.alarm p)) s.system.kmem _ fun _ => True :=
    usertrapTimer_sound shows.sound (shows.tf_held here)
  obtain ⟨books', leaf, sound, _, ⟨miss | same, _⟩ | ⟨_, frame', same, unheld, held⟩⟩ :=
    meets.result ran
  · exact absurd due miss
  · exact absurd (congrArg AlarmState.sigalarm same) real
  obtain rfl : frame = frame' := congrArg AlarmState.sigalarm same
  have unused (c : Nat) (inside : (s.handling c).isSome) : (s.alarm c).sigalarm ≠ frame := by
    rintro rfl
    rw [shows.held] at unheld
    exact unheld (Multiset.mem_add.mpr (.inl (Multiset.mem_coe.mpr (tidy.frame c inside))))
  have apart (c : Nat) (inside : (s.handling c).isSome) : c ≠ p := by
    rintro rfl
    rw [outside] at inside
    cases inside
  have cases' (c : Nat) : ((s.afterAlarm p ((s.alarm p).fired frame) k).handling c).isSome →
      c = p ∧ ((s.afterAlarm p ((s.alarm p).fired frame) k).alarm c).sigalarm = frame ∨
        (s.handling c).isSome ∧ (s.afterAlarm p ((s.alarm p).fired frame) k).alarm c =
          s.alarm c := by
    unfold afterAlarm
    dsimp only
    by_cases same : c = p
    · intro _
      rw [same, update_self]
      exact .inl ⟨rfl, rfl⟩
    · rw [update_of_ne same, update_of_ne same]
      exact fun inside => .inr ⟨inside, rfl⟩
  refine ⟨⟨live, tfs, node, books', shows_grant shows sound leaf unheld held⟩, ?_, ?_, ?_, ?_⟩
  · intro c there
    rcases cases' c there with ⟨rfl, _⟩ | ⟨inside, _⟩
    · exact ⟨q, here⟩
    · exact tidy.alive c inside
  · intro c there
    rcases cases' c there with ⟨rfl, new⟩ | ⟨inside, old⟩
    · rw [new]
      exact mem_cons_self
    · rw [old]
      exact mem_cons_of_mem _ (tidy.frame c inside)
  · intro c f
    unfold afterAlarm
    dsimp only
    rw [mem_cons, tidy.ledger, Prod.mk.injEq]
    by_cases same : c = p
    · subst same
      rw [update_self, update_self, outside]
      simp [AlarmState.fired, eq_comm]
    · rw [update_of_ne same, update_of_ne same]
      simp [same]
  · intro c c' there there' equal
    rcases cases' c there with ⟨rfl, new⟩ | ⟨inside, old⟩
    · rcases cases' c' there' with ⟨rfl, _⟩ | ⟨inside', old'⟩
      · rfl
      · rw [new, old'] at equal
        exact absurd equal.symm (unused c' inside')
    · rcases cases' c' there' with ⟨rfl, new'⟩ | ⟨inside', old'⟩
      · rw [old, new'] at equal
        exact absurd equal (unused c inside)
      · rw [old, old'] at equal
        exact tidy.distinct c c' inside inside' equal

theorem State.Tidy.sigreturn (here : s.system.procs p = some q)
    (inside : (s.handling p).isSome)
    (ran : usertrapSyscall q.trapframe user (sysSigreturn q.trapframe (s.alarm p)) s.system.kmem =
      .ok ({ s.alarm p with currentTicks := 0 }, k)) :
    (s.afterSigreturn p { s.alarm p with currentTicks := 0 } k).Tidy layout := by
  obtain ⟨live, tfs, node, books, shows⟩ := tidy.valid
  have has : books.held = (s.alarm p).sigalarm ::ₘ
      ((s.system.pages.erase (s.alarm p).sigalarm : Multiset Nat) + tfs) := by
    rw [shows.held, ← Multiset.cons_add, Multiset.cons_coe]
    congr 1
    exact Multiset.coe_eq_coe.mpr (perm_cons_erase (tidy.frame p inside))
  have owned : q.trapframe ∈ (s.system.pages.erase (s.alarm p).sigalarm : Multiset Nat) + tfs :=
    Multiset.mem_add.mpr (.inr (shows.proc here).2.1)
  have meets : Meets
      (usertrapSyscall q.trapframe user (sysSigreturn q.trapframe (s.alarm p))) s.system.kmem _
      fun _ => True := usertrapSigreturn_sound shows.sound has owned
  obtain ⟨books', leaf, held, _, sound⟩ := meets.result ran
  have valid :=
    shows_giveBack shows sound leaf held (by rw [held, has]; exact Multiset.le_cons_self _ _)
  have outside (c : Nat)
      (there : ((s.afterSigreturn p { s.alarm p with currentTicks := 0 } k).handling c).isSome) :
      c ≠ p ∧ (s.handling c).isSome ∧
        (s.afterSigreturn p { s.alarm p with currentTicks := 0 } k).alarm c = s.alarm c := by
    unfold afterSigreturn at there ⊢
    dsimp only at there ⊢
    by_cases same : c = p
    · rw [same, update_self] at there
      cases there
    · rw [update_of_ne same] at there ⊢
      exact ⟨same, there, rfl⟩
  refine ⟨⟨live, tfs, node, books', valid⟩, ?_, ?_, ?_, ?_⟩
  · intro c there
    exact tidy.alive c (outside c there).2.1
  · intro c there
    obtain ⟨other, inside', same⟩ := outside c there
    rw [same]
    refine (mem_erase_of_ne fun equal => ?_).mpr (tidy.frame c inside')
    exact other (tidy.distinct c p inside' inside equal)
  · intro c f
    unfold afterSigreturn
    dsimp only
    rw [mem_filter, tidy.ledger, decide_eq_true_eq, Ne, Prod.mk.injEq]
    by_cases same : c = p
    · subst same
      rw [update_self]
      refine ⟨fun both => absurd ⟨rfl, both.1.2.symm⟩ both.2, fun both => ?_⟩
      cases both.1
    · rw [update_of_ne same, update_of_ne same]
      simp [same]
  · intro c c' there there' equal
    obtain ⟨_, inside, same⟩ := outside c there
    obtain ⟨_, inside', same'⟩ := outside c' there'
    rw [same, same'] at equal
    exact tidy.distinct c c' inside inside' equal

theorem State.Tidy.step (orderly : s.Orderly event) (taken : s.step layout event = some s') :
    s'.Tidy layout := by
  cases steps_of_step taken with
  | system allowed moved => exact tidy.system allowed orderly moved
  | sigalarm here ran => exact tidy.sigalarm here ran
  | sigreturn here ran => exact tidy.sigreturn here orderly ran
  | tick here due ran =>
    refine tidy.goOn (tidy.quiet here (fun now => absurd now due) ran) (fun _ => ?_)
      (by rw [isSome_map])
    unfold AlarmState.tick
    split <;> rfl
  | @alarm p q user frame k here due real ran =>
    have outside : s.handling p = none := by
      by_contra some
      exact orderly (ne_none_iff_isSome.mp some) due
    exact tidy.alarm here outside due real ran
  | @miss p q user k here due ran =>
    refine tidy.goOn (tidy.quiet here (fun _ => rfl) ran) (fun inside => ?_) (by rw [isSome_map])
    exact absurd due (orderly inside)

end

inductive Owner
  /-- A page of the address space of a process. -/
  | user (p v : Nat)
  /-- A page of the page table of a process, by its depth and its index. -/
  | table (p d i : Nat)
  | trapframe (p : Nat)
  /-- The handler of a process. -/
  | alarm (p : Nat)
  /-- Another part of the kernel. -/
  | kernel

def State.Uses (s : State) (f : Nat) : Owner → Prop
  | .user p v =>
    v < userPages ∧ ∃ q, s.system.procs p = some q ∧ s.system.kmem.frameAt q.pagetable v = some f
  | .table p d i => d < 3 ∧ i < 512 ^ d ∧
      ∃ q, s.system.procs p = some q ∧ s.system.kmem.tableAt q.pagetable d i = some f
  | .trapframe p => ∃ q, s.system.procs p = some q ∧ q.trapframe = f
  | .alarm p => (s.handling p).isSome ∧ (s.alarm p).sigalarm = f
  | .kernel => f ∈ s.system.pages ∧ ∀ p, (p, f) ∉ s.ledger

/-- The free list has every page once that nobody uses, the saved trapframe of a handler is used by
nobody else, and every page that was allocated for an alarm and not freed belongs to a handler in
progress of a process that is alive. -/
structure State.Owned (layout : Layout) (s : State) : Prop where
  free : ∃ pages, Chain (load s.system.kmem.mem · 8) s.system.kmem.freelist pages ∧ pages.Nodup ∧
    ∀ f, f ∈ pages ↔ layout.Managed f ∧ ∀ owner, ¬ s.Uses f owner
  handler : ∀ p, (s.handling p).isSome → layout.Managed (s.alarm p).sigalarm ∧
    ∀ owner, s.Uses (s.alarm p).sigalarm owner → owner = .alarm p
  returned : ∀ p f, (p, f) ∈ s.ledger → (∃ q, s.system.procs p = some q) ∧ (s.handling p).isSome ∧
    (s.alarm p).sigalarm = f

section Owners

variable {live : Finset Nat} {tfs : Multiset Nat} {node : Nodes} {books : Books} {f : Nat}

theorem uses_user (shows : s.system.Shows layout live tfs node books) :
    (∃ p v, s.Uses f (.user p v)) ↔ 0 < books.users f := by
  constructor
  · rintro ⟨p, v, user, q, here, mapped⟩
    have inside : v < 512 ^ 3 := by
      rw [userPages_eq] at user
      omega
    rw [shows.sound.tables.frameAt_eq (shows.proc here).1 inside] at mapped
    obtain ⟨leaf, there, rfl⟩ := map_eq_some_iff.mp mapped
    exact Books.users_pos there (shows.sound.tables.shows.accounts.mapped there).1 user
  · intro positive
    obtain ⟨⟨r, v⟩, member, mapped⟩ := exists_of_owners_pos positive
    obtain ⟨leaf, there, same⟩ := map_eq_some_iff.mp mapped
    obtain ⟨t, table⟩ := (shows.sound.tables.rooted r).below there
    have alive := shows.sound.tables.alive_of_node table
    obtain ⟨p, q, here, rfl⟩ := shows.root alive
    have user := (mem_userNames.mp member).2
    have inside : v < 512 ^ 3 := by
      rw [userPages_eq] at user
      omega
    refine ⟨p, v, user, q, here, ?_⟩
    rw [shows.sound.tables.frameAt_eq alive inside]
    exact mapped

theorem uses_table (shows : s.system.Shows layout live tfs node books) :
    (∃ p d i, s.Uses f (.table p d i)) ↔ tables node f ≠ 0 := by
  constructor
  · rintro ⟨p, d, i, depth, inside, q, here, there⟩
    rw [shows.sound.tables.tableAt_eq (shows.proc here).1 d depth inside] at there
    exact (shows.sound.tables.shows.accounts.tables_pos there).ne'
  · intro positive
    obtain ⟨⟨r, d, i⟩, there⟩ := exists_of_tables positive
    obtain ⟨_, depth, inside⟩ := shows.sound.tables.shows.accounts.named there
    have alive := shows.sound.tables.alive_of_node there
    obtain ⟨p, q, here, rfl⟩ := shows.root alive
    exact ⟨p, d, i, depth, inside, q, here,
      (shows.sound.tables.tableAt_eq alive d depth inside).trans there⟩

theorem State.Tidy.uses_held (tidy : s.Tidy layout)
    (shows : s.system.Shows layout live tfs node books) :
    ((∃ p, s.Uses f (.trapframe p)) ∨ (∃ p, s.Uses f (.alarm p)) ∨ s.Uses f .kernel) ↔
      f ∈ books.held := by
  rw [shows.held, Multiset.mem_add, Multiset.mem_coe]
  constructor
  · rintro (⟨p, q, here, rfl⟩ | ⟨p, inside, rfl⟩ | ⟨member, _⟩)
    · exact .inr (shows.proc here).2.1
    · exact .inl (tidy.frame p inside)
    · exact .inl member
  · rintro (member | framed)
    · by_cases owed : ∃ p, (p, f) ∈ s.ledger
      · obtain ⟨p, entry⟩ := owed
        exact .inr (.inl ⟨p, (tidy.ledger p f).mp entry⟩)
      · exact .inr (.inr ⟨member, fun p entry => owed ⟨p, entry⟩⟩)
    · exact .inl (shows.frame framed)

theorem State.Tidy.unused_iff (tidy : s.Tidy layout)
    (shows : s.system.Shows layout live tfs node books) :
    (∀ owner, ¬ s.Uses f owner) ↔ books.users f = 0 ∧ tables node f = 0 ∧ f ∉ books.held := by
  rw [← Nat.le_zero, ← Nat.not_lt, ← uses_user shows, ← not_not (a := tables node f = 0),
    ← ne_eq (tables node f), ← uses_table shows, ← tidy.uses_held shows]
  constructor
  · intro nobody
    refine ⟨?_, ?_, ?_⟩
    · rintro ⟨p, v, uses⟩
      exact nobody _ uses
    · rintro ⟨p, d, i, uses⟩
      exact nobody _ uses
    · rintro (⟨p, uses⟩ | ⟨p, uses⟩ | uses)
      · exact nobody _ uses
      · exact nobody _ uses
      · exact nobody _ uses
  · rintro ⟨user, table, held⟩ owner uses
    cases owner with
    | user p v => exact user ⟨p, v, uses⟩
    | table p d i => exact table ⟨p, d, i, uses⟩
    | trapframe p => exact held (.inl ⟨p, uses⟩)
    | alarm p => exact held (.inr (.inl ⟨p, uses⟩))
    | kernel => exact held (.inr (.inr uses))

theorem State.Tidy.owned (tidy : s.Tidy layout) : s.Owned layout := by
  obtain ⟨live, tfs, node, books, shows⟩ := tidy.valid
  have accounts := shows.sound.tables.shows.accounts
  constructor
  · obtain ⟨pages, chain, once, members⟩ := accounts.free
    refine ⟨pages, chain, once, fun f => (members f).trans (and_congr_right fun page => ?_)⟩
    have count := accounts.count page
    rw [shows.sound.paid, Multiset.count_zero] at count
    rw [tidy.unused_iff shows, ← Multiset.count_eq_zero]
    omega
  · intro p inside
    have held : (s.alarm p).sigalarm ∈ books.held :=
      (tidy.uses_held shows).mp (.inr (.inl ⟨p, inside, rfl⟩))
    have page := accounts.holder held
    refine ⟨page, fun owner uses => ?_⟩
    cases owner with
    | user c v =>
      have mapped := (uses_user shows).mp ⟨c, v, uses⟩
      obtain ⟨⟨r, v'⟩, member, there⟩ := exists_of_owners_pos mapped
      obtain ⟨leaf, here, same⟩ := map_eq_some_iff.mp there
      have unheld := shows.sound.good.kernel here (mem_userNames.mp member).2
      rw [same] at unheld
      exact absurd held unheld
    | table c d i =>
      exact absurd (accounts.not_table_of_held held) ((uses_table shows).mp ⟨c, d, i, uses⟩)
    | trapframe c =>
      obtain ⟨q, here, same⟩ := uses
      have once := shows.once
      rw [shows.held] at once
      have apart := (Multiset.nodup_add.mp once).2.2
      refine (Multiset.disjoint_left.mp apart (Multiset.mem_coe.mpr (tidy.frame p inside)) ?_).elim
      rw [← same]
      exact (shows.proc here).2.1
    | alarm c => rw [tidy.distinct c p uses.1 inside uses.2]
    | kernel => exact absurd ((tidy.ledger p _).mpr ⟨inside, rfl⟩) (uses.2 p)
  · intro p f entry
    obtain ⟨inside, same⟩ := (tidy.ledger p f).mp entry
    exact ⟨tidy.alive p inside, inside, same⟩

end Owners

theorem State.Tidy.start {mem : Foundation.Memory} {counts : Nat → Int}
    (booted : kinit layout ⟨mem, counts, 0⟩ = .ok ((), k)) : (State.start k).Tidy layout := by
  have idle : exec (System.step layout) (System.start k) [] = some (System.start k) := rfl
  have valid : (System.start k).Valid layout := System.valid_run booted idle
  refine ⟨valid, ?_, ?_, ?_, ?_⟩
  · intro p inside
    cases inside
  · intro p inside
    cases inside
  · intro p f
    simp [State.start]
  · intro p p' inside
    cases inside

/-- In every orderly run the pages of the alarms are owned exactly once. -/
theorem alarm_frames_owned (layout : Layout) (mem : Foundation.Memory) (counts : Nat → Int)
    (k : Kmem) (booted : kinit layout ⟨mem, counts, 0⟩ = .ok ((), k)) (events : List Event)
    (orderly : Along (State.step layout) State.Orderly (State.start k) events) :
    Throughout (State.step layout) (State.Owned layout) (State.start k) events :=
  (throughout_of_along (fun _ _ _ tidy orderly taken => State.Tidy.step tidy orderly taken)
    (State.Tidy.start booted) orderly).mono fun _ tidy => tidy.owned

/-- A process gets one alarm and returns from its handler. -/
def oneAlarm : List Event :=
  let user : Context := ⟨0, fun _ => 0⟩
  [.system (.userinit 0 []), .sigalarm 0 user 1 8, .timer 0 user, .timer 0 user, .timer 0 user,
    .sigreturn 0 user]

/-- A second return from the same handler puts its page on the free list again, and the list runs
into itself. -/
theorem alarm_frame_freed_twice :
    ∃ k s s', kinit smallLayout ⟨fun _ => 0, fun _ => 0, 0⟩ = .ok ((), k) ∧
      exec (State.step smallLayout) (State.start k) oneAlarm = some s ∧ s.handling 0 = none ∧
      s.step smallLayout (.sigreturn 0 ⟨0, fun _ => 0⟩) = some s' ∧
      s.system.kmem.freelist ≠ 0 ∧ s'.system.kmem.freelist = s.system.kmem.freelist ∧
      load s'.system.kmem.mem s'.system.kmem.freelist 8 = s'.system.kmem.freelist := by
  have computed : ((bootState smallLayout oneAlarm).bind fun s =>
      (s.step smallLayout (.sigreturn 0 ⟨0, fun _ => 0⟩)).map fun s' =>
        ((s.handling 0).isNone, s.system.kmem.freelist, s'.system.kmem.freelist,
          load s'.system.kmem.mem s'.system.kmem.freelist 8)) =
      some (true, phystop - 8 * pgsize, phystop - 8 * pgsize,
        phystop - 8 * pgsize) := by decide +kernel
  obtain ⟨s, ended, rest⟩ := bind_eq_some_iff.mp computed
  obtain ⟨s', taken, facts⟩ := map_eq_some_iff.mp rest
  simp only [Prod.mk.injEq] at facts
  obtain ⟨outside, first, second, next⟩ := facts
  obtain ⟨k, booted, run⟩ := bootState_some ended
  refine ⟨k, s, s', booted, run, isNone_iff_eq_none.mp outside, taken, ?_, second.trans first.symm,
    next.trans second.symm⟩
  rw [first]
  decide

instance State.decidableOrderly (s : State) : (event : Event) → Decidable (s.Orderly event)
  | .sigreturn p _ => inferInstanceAs (Decidable ((s.handling p).isSome = true))
  | .timer p _ => inferInstanceAs (Decidable ((s.handling p).isSome = true → ¬ (s.alarm p).Due))
  | .system (.reap p) => decidable_of_iff ((s.handling p).isNone = true) Option.isNone_iff_eq_none
  | .system .kalloc | .system (.kfree _) | .system (.fill _ _ _) | .system
    (.userinit _ _) | .system (.fork _ _)
  | .system (.exec _ _ _) | .system (.sbrk _ _) | .system (.store _ _ _ _) | .system
    (.copyout _ _ _ _)
  | .sigalarm _ _ _ _ => .isTrue trivial

theorem alarm_frames_owned_one_alarm :
    ∃ k s, kinit smallLayout ⟨fun _ => 0, fun _ => 0, 0⟩ = .ok ((), k) ∧
      exec (State.step smallLayout) (State.start k) oneAlarm = some s ∧ s.Owned smallLayout := by
  have computed : ((kinit smallLayout ⟨fun _ => 0, fun _ => 0, 0⟩).toOption.map fun booted =>
      ((exec (State.step smallLayout) (State.start booted.2) oneAlarm).isSome,
        decide (Along (State.step smallLayout) State.Orderly (State.start booted.2) oneAlarm))) =
      some (true, true) := by decide +kernel
  cases booted : kinit smallLayout ⟨fun _ => 0, fun _ => 0, 0⟩ with
  | error e =>
    rw [booted] at computed
    cases computed
  | ok result =>
    rw [booted] at computed
    simp only [Except.toOption, map_some, some_inj, Prod.mk.injEq, decide_eq_true_eq,
      isSome_iff_exists] at computed
    obtain ⟨⟨s, run⟩, orderly⟩ := computed
    exact ⟨result.2, s, rfl, run,
      (alarm_frames_owned smallLayout _ _ result.2 booted oneAlarm orderly).final run⟩

end Runs

end EnhancedXv6.Alarm
