import FiberStacks.Proofs.Barrier.Leaving

/-!
# Calls on the current stack

A domain writes to its current stack without telling the collector; it marks and queues the stack when it leaves it.
So pushing, popping, growing, saving and switching leave no old stack unseen that refers to a young block.

* `Ready` — what the calls rely on;
* `tryGrow_safe` — growth, with all its ends;
* `moveTo_safe` — the new stack of a growth is the current one, and the old one refers to nothing;
* `StackCall.safe` — a call of a domain that is ready;
* `Machine.safe_stackCall` — **the calls keep every machine safe**, and every mark queued.
-/

namespace FiberStacks

open FiberStacks.Action

variable {others : List Domain} {s t u : Active} {b c : BlockId} {x y : Segment}

/-- **A domain about to act**: its marks are queued, besides what it relies on in the heap. -/
structure Ready (others : List Domain) (s : Active) : Prop extends Steady others s where
  own : ∀ b, s.world.heap.owner? b = some s.domain.id → b ∈ s.domain.remembered.queue

namespace Act

/-! ### Saving -/

/-- **Saving the current stack**: the domain may leave it then. -/
theorem saveStack_ready (h : Ready others s) :
    saveStack.wp s (fun b t => Steady others t ∧ t.domain.current? = some b ∧ Seen others t b)
      fun e _ => e ≠ .raised := by
  refine wp_mono (wp_and (handling_advances.saveStack s) (saveStack_seen others h.freeListed h.own)) ?_ fun _ _ h => h.2
  rintro b t ⟨hadv, hb, he, hseen⟩
  exact ⟨h.of_elsewhere hb (hadv h.freeListed).freeListed he, he.current?.trans hb, hseen⟩

/-- **Leaving a stack** that was saved. -/
theorem loadStack_safe (hs : s.world.heap.Safe (s.domain :: others)) (hb : s.domain.current? = some b)
    (hseen : Seen others s b) (target : BlockId) :
    (loadStack target).wp s (fun _ t => t.world.heap.Safe (t.domain :: others)) fun e _ => e ≠ .raised := by
  refine wp_loadStack.2 ⟨fun x _ c => ?_, fun _ => by simp⟩
  by_cases hc : c = b
  · exact hc ▸ hseen.safeAt_load
  · refine (safeAt_load fun hcur => hc ?_).2 (.inr (hs c))
    exact Option.some.inj (hcur.symm.trans hb)

/-! ### Growing -/

def SafeBut (others : List Domain) (s : Active) (bs : List BlockId) : Prop :=
  ∀ c ∉ bs, s.world.heap.SafeAt (s.domain :: others) c

/-- **A new stack takes the place of the current one**: it is the one the domain runs on, and the old one refers to
nothing. -/
theorem moveTo_safe {old new : BlockId} {saved : List Word} (hs : SafeBut others s [old, new])
    (hcur : s.domain.current? = some old) :
    (moveTo old new saved).wp s (fun p t => p.1 = .ok new ∧ t.world.heap.Safe (t.domain :: others))
      fun e _ => e ≠ .raised := by
  refine wp_moveTo.2 ⟨fun y _ => ⟨fun x hx => ⟨rfl, fun c => ?_⟩, fun _ => by simp⟩, fun _ => by simp⟩
  by_cases hold : c = old
  · subst hold
    obtain ⟨g, hcell⟩ := Heap.cell?_of_stack? hx
    exact .of_not_exposed fun he => by simpa using (Heap.exposed_setStack_self hcell).1 he
  · refine (Heap.safeAt_setStack hold).2 ?_
    by_cases hnew : c = new
    · exact .of_runOn ⟨_, List.mem_cons_self, hnew ▸ rfl⟩
    · refine (hs c (by simp [hold, hnew])).acting rfl id fun h => absurd ?_ hold
      exact Option.some.inj (h.symm.trans hcur)

theorem markDirty_safeBut {bs : List BlockId} (hs : SafeBut others s bs) (hb : b ∈ bs) :
    (markDirty b).wp s (fun _ t => SafeBut others t bs ∧ t.domain.registers = s.domain.registers)
      fun e _ => e ≠ .raised := by
  refine wp_markDirty_of ⟨hs, rfl⟩ (fun x _ _ _ => ⟨fun c hc => ?_, rfl⟩) fun _ => by simp
  have hcb : c ≠ b := fun he => hc (he ▸ hb)
  exact ((Heap.safeAt_setStack hcb).2 (hs c hc)).acting rfl (fun h => List.mem_append_left _ h) id

/-- **Growth**: it succeeds and all is safe, or it fails with the old stack saved. -/
theorem tryGrow_safe (h : Ready others s) (required : Nat) (saved : List Word) :
    (tryGrow required saved).wp s
      (fun p t => (∃ b, p.1 = .ok b ∧ t.world.heap.Safe (t.domain :: others)) ∨ ∃ e, p.1 = .error e ∧ Steady others t)
      fun e _ => e ≠ .raised := by
  refine wp_tryGrow (by simp) (wp_mono (saveStack_ready h) ?_ fun _ _ h => h)
  rintro old t ⟨ht, hcur, -⟩
  -- the new stack is put beside the others
  have hgrown : ∀ {y : Segment} {new h'} {u : Active}, t.world.heap.alloc (.stack y) .normal = .ok (new, h') →
      Alike { t with world := t.world.adopt h' } u → SafeBut others u [old, new] ∧ u.domain.current? = some old := by
    intro y new h' u ha hu
    have hcur' : u.domain.current? = t.domain.current? := by rw [Domain.current?, hu.registers]; rfl
    refine ⟨fun c hc => ?_, hcur'.trans hcur⟩
    have hne : c ≠ new := fun he => hc (by simp [he])
    have hsafe := (ht.safe c).alloc ht.freeListed (or_iff_not_imp_left.2 (ht.closed c)) ha (.inl hne)
    rw [hu.heap]
    exact hsafe.acting hu.id (fun h => hu.remembered ▸ h) fun h => hcur'.trans h
  refine ⟨by simp, fun e u hu => .inr ⟨e, rfl, ht.of_alike hu⟩, fun x y new h' u _ _ _ _ ha hu => ?_,
    fun x y new h' u _ _ _ _ ha hu => ?_, by simp⟩
  · obtain ⟨hbut, hcur⟩ := hgrown ha hu
    exact wp_mono (moveTo_safe hbut hcur) (fun p v hv => .inl ⟨new, hv⟩) fun _ _ h => h
  · obtain ⟨hbut, hcur⟩ := hgrown ha hu
    refine wp_bind_of (markDirty_safeBut hbut (by simp)) ?_ fun _ _ h => h
    rintro - v ⟨hv, hreg⟩
    have hcur' : v.domain.current? = some old := by rw [Domain.current?, hreg]; exact hcur
    exact wp_mono (moveTo_safe hv hcur') (fun p v hv => .inl ⟨new, hv⟩) fun _ _ h => h

/-- The state is safe unless the action hit an assertion or ended the process. -/
def SafeAfter (others : List Domain) (e : Stop) (t : Active) : Prop :=
  e = .raised → t.world.heap.Safe (t.domain :: others)

theorem grow_safe (h : Ready others s) (required : Nat) (saved : List Word) :
    (grow required saved).wp s (fun _ t => t.world.heap.Safe (t.domain :: others)) (SafeAfter others) := by
  unfold grow
  refine wp_bind_of (tryGrow_safe h required saved) ?_ fun e t hne he => absurd he hne
  rintro ⟨r, ws⟩ t (⟨b, rfl, ht⟩ | ⟨e, rfl, ht⟩)
  · exact ht
  · rw [wp_bind]
    refine wp_mono (wp_and ((bookkeeping_steady others).relates (beside_raiseFailure e) t) (stops_raiseFailure e t))
      (fun _ _ h => h.2.elim) fun _ u hu _ => (hu.1 ht).safe

theorem ensure_safe (h : Ready others s) (required : Nat) :
    (ensure required).wp s (fun _ t => t.world.heap.Safe (t.domain :: others)) (SafeAfter others) := by
  unfold ensure
  simp only [wp_bind, wp_domain]
  split
  · rw [wp_bind]
    exact grow_safe h required []
  · exact h.safe

theorem maybeExpand_safe (h : Ready others s) (ws : List Word) :
    (maybeExpand ws).wp s (fun _ t => t.world.heap.Safe (t.domain :: others)) (SafeAfter others) := by
  unfold maybeExpand
  simp only [wp_bind, wp_domain, wp_config, wp_check_double]
  refine ⟨fun _ => ?_, fun _ => by simp [SafeAfter]⟩
  split
  · rw [wp_bind]
    exact grow_safe h 0 ws
  · exact h.safe

/-! ### Words -/

theorem push_safe (h : Ready others s) (w : Word) :
    (push w).wp s (fun _ t => t.world.heap.Safe (t.domain :: others)) (SafeAfter others) := by
  unfold push guardBlocking
  simp only [wp_bind, wp_domain, wp_require]
  refine ⟨fun _ => wp_mono (ensure_safe h 1) (fun _ t ht => ?_) fun _ _ h => h, fun _ => by simp [SafeAfter]⟩
  simp only [wp_registers, wp_stack, wp_check, wp_setStack, wp_modifyDomain]
  refine ⟨fun r hr => ⟨fun x hx => ⟨fun y hy c => ?_, fun _ _ => by simp [SafeAfter]⟩, fun _ => by simp [SafeAfter]⟩,
    fun _ => by simp [SafeAfter]⟩
  by_cases hc : c = r.current
  · exact .of_runOn ⟨_, List.mem_cons_self, hc ▸ rfl⟩
  · refine (Heap.safeAt_setStack hc).2 ((ht c).acting rfl id fun h => ?_)
    rw [Domain.current?, hr] at h
    exact h

theorem pop_safe (h : Ready others s) :
    pop.wp s (fun _ t => t.world.heap.Safe (t.domain :: others)) fun e _ => e ≠ .raised := by
  unfold pop guardBlocking
  simp only [wp_bind, wp_domain, wp_require]
  refine ⟨fun _ => ?_, fun _ => by simp⟩
  split
  · exact h.safe
  · next r hr =>
    split
    · exact h.safe
    · simp only [wp_bind, wp_stack, wp_modifyDomain, wp_pure]
      refine ⟨fun x _ => h.safe.acting rfl (List.Subset.refl _) ?_, fun _ => by simp⟩
      rw [Domain.current?, Domain.current?, hr]
      rfl

theorem restoreForCollection_safe (h : Ready others s) :
    restoreForCollection.wp s (fun _ t => t.world.heap.Safe (t.domain :: others)) fun e _ => e ≠ .raised := by
  unfold restoreForCollection restoreStack
  simp only [wp_bind, wp_domain]
  split
  · simp only [wp_bind, wp_registers, wp_loadStack, wp_modifyDomain]
    refine ⟨fun r hr => ⟨fun x _ => h.safe.acting rfl (List.Subset.refl _) ?_, fun _ => by simp⟩, fun _ => by simp⟩
    rw [Domain.current?, Domain.current?, hr]
    rfl
  · simp only [wp_modifyDomain]
    exact h.safe.acting rfl (List.Subset.refl _) rfl

end Act

/-! ### All calls -/

/-- The calls on the current stack, with their arguments. -/
inductive StackCall where
  | push (w : Word)
  | pop
  /-- Make room for so many words. -/
  | ensure (required : Nat)
  | grow (required : Nat) (saved : List Word)
  | maybeExpand (registers : List Word)
  | save
  /-- Write the live stack pointer back, without marking. -/
  | sync
  | saveForCollection
  | restoreForCollection
  | switch (target : BlockId)
deriving DecidableEq, Repr

namespace StackCall

/-- What a call does; its result is not looked at. -/
def act : StackCall → Act Unit
  | push w => Act.push w
  | pop => do let _ ← Act.pop
  | ensure required => Act.ensure required
  | grow required saved => do let _ ← Act.grow required saved
  | maybeExpand registers => do let _ ← Act.maybeExpand registers
  | save => do let _ ← Act.saveStack
  | sync => Act.syncStack
  | saveForCollection => Act.saveForCollection
  | restoreForCollection => Act.restoreForCollection
  | switch target => do let _ ← Act.switchStack target

/-- **What holds of all calls**: a property of handling stacks that also holds of growth and of storing words. -/
theorem of_handling {P : ∀ {α : Type}, Act α → Prop} (hP : Act.Handling @P)
    (hgrow : ∀ required saved, P (Act.tryGrow required saved)) (hpush : ∀ w, P (Act.push w)) (hpop : P Act.pop)
    (c : StackCall) : P c.act := by
  cases c with
  | push w => exact hpush w
  | pop => exact hP.discard hpop
  | ensure required => exact hP.ensure hgrow required
  | grow required saved => exact hP.discard (hP.grow hgrow required saved)
  | maybeExpand registers => exact hP.discard (hP.maybeExpand hgrow registers)
  | save => exact hP.discard hP.saveStack
  | sync => exact hP.syncStack
  | saveForCollection => exact hP.saveForCollection
  | restoreForCollection => exact hP.restoreForCollection
  | switch target => exact hP.discard (hP.switchStack target)

theorem advances (c : StackCall) : c.act.Relates Act.Advances :=
  of_handling Act.handling_advances Act.advances_tryGrow Act.advances_push Act.advances_pop c

/-- **A call of a domain that is ready** leaves no old stack exposed unseen. -/
theorem safe (c : StackCall) (h : Ready others s) :
    c.act.wp s (fun _ t => t.world.heap.Safe (t.domain :: others)) (Act.SafeAfter others) := by
  have unraised : ∀ {α : Type} {a : Act α} {u : Active} {P Q : α → Active → Prop},
      a.wp u P (fun e _ => e ≠ .raised) → (∀ x t, P x t → Q x t) → a.wp u Q (Act.SafeAfter others) :=
    fun ha hP => wp_mono ha hP fun _ _ hne he => absurd he hne
  cases c with
  | push w => exact Act.push_safe h w
  | pop => exact (wp_bind ..).2 (unraised (Act.pop_safe h) fun _ _ h => h)
  | ensure required => exact Act.ensure_safe h required
  | grow required saved => exact (wp_bind ..).2 (Act.grow_safe h required saved)
  | maybeExpand registers => exact (wp_bind ..).2 (Act.maybeExpand_safe h registers)
  | save => exact (wp_bind ..).2 (unraised (Act.saveStack_ready h) fun _ _ h => h.1.safe)
  | sync => exact unraised (Act.syncStack_steady h.toSteady) fun _ _ h => h.safe
  | saveForCollection =>
    simp only [act, Act.saveForCollection, wp_bind, Act.wp_domain, Act.wp_require]
    refine ⟨fun _ => ?_, fun _ => by simp [Act.SafeAfter]⟩
    refine unraised (Act.saveStack_ready h) fun _ t ht => ?_
    exact ht.1.safe.acting rfl (List.Subset.refl _) rfl
  | restoreForCollection => exact unraised (Act.restoreForCollection_safe h) fun _ _ h => h
  | switch target =>
    simp only [act, Act.switchStack, Act.guardBlocking, wp_bind, Act.wp_domain, Act.wp_require]
    refine ⟨fun _ => ?_, fun _ => by simp [Act.SafeAfter]⟩
    refine wp_mono (Act.saveStack_ready h) ?_ fun _ _ hne he => absurd he hne
    rintro b t ⟨ht, hcur, hseen⟩
    exact unraised (Act.loadStack_safe ht.safe hcur hseen target) fun _ _ h => h

end StackCall

namespace Machine

variable {m m' : Machine} {d : DomainId}

namespace Acting

variable {α : Type} {a : Act α} {r : Except Stop α} {x : Domain} {others : List Domain} {t : Active}

theorem steady (h : Acting m m' a r x others t) (hs : m.Sound) (hsafe : m.Safe) (hclosed : m.Closed) :
    Steady others ⟨x, m.world⟩ where
  freeListed := hs.freeListed
  safe := (Heap.safe_perm h.perm).1 hsafe
  closed b hb := hclosed b fun ⟨y, hy, hyb⟩ => hb ⟨y, h.perm.mem_iff.1 hy, hyb⟩

/-- **A domain about to act is ready**, in a machine that is safe. -/
theorem ready (h : Acting m m' a r x others t) (hs : m.Sound) (hsafe : m.Safe) (hmarks : m.MarksQueued)
    (hclosed : m.Closed) : Ready others ⟨x, m.world⟩ :=
  { h.steady hs hsafe hclosed with own := h.own hmarks }

/-- **Marks are queued** after an action that marks for itself alone. -/
theorem marksQueued (h : Acting m m' a r x others t) (hmarks : m.MarksQueued) (ht : Marked ⟨x, m.world⟩ t) :
    m'.MarksQueued := by
  have hdomains := h.domains ht.id
  intro b o hb
  rw [h.world] at hb
  rcases ht.marks b o hb with ⟨hs, -⟩ | ⟨-, rfl, hq, -⟩
  · obtain ⟨y, hy, hid, hq⟩ := hmarks b o hs
    rcases List.mem_cons.1 (h.perm.mem_iff.1 hy) with rfl | hy
    · refine ⟨t.domain, hdomains.mem_iff.2 List.mem_cons_self, ht.id.trans hid, ht.queued b ?_ hq⟩
      exact hid.symm ▸ hb
    · exact ⟨y, hdomains.mem_iff.2 (List.mem_cons_of_mem _ hy), hid, hq⟩
  · exact ⟨t.domain, hdomains.mem_iff.2 List.mem_cons_self, ht.id, hq⟩

/-- What an action does to marks. -/
theorem marking (h : Acting m m' a r x others t) (hs : m.Sound) (ha : a.Relates Act.Advances) :
    Marking ⟨x, m.world⟩ t := by
  have ht := Action.relates_iff.1 ha ⟨x, m.world⟩ hs.freeListed
  rw [h.run] at ht
  exact ht

end Acting

/-- **The calls on the current stack keep a machine safe.**  Where every mark is queued and no stack refers to a freed
block, a call that returns or raises leaves no old stack unseen that refers to a young block, and every mark queued. -/
theorem safe_stackCall {r : Except Stop Unit} (c : StackCall) (hs : m.Sound) (hsafe : m.Safe)
    (hmarks : m.MarksQueued) (hclosed : m.Closed) (h : m.act d c.act = some (r, m'))
    (hr : r = .ok () ∨ r = .error .raised) : m'.Safe ∧ m'.MarksQueued := by
  obtain ⟨x, others, t, -, hact⟩ := acting hs h
  have hmarking := hact.marking hs c.advances
  refine ⟨(hact.safe_iff hmarking.id).2 ?_, hact.marksQueued hmarks hmarking.marked⟩
  have hcall := c.safe (hact.ready hs hsafe hmarks hclosed)
  rcases hr with rfl | rfl
  · exact (wp_of_ok hact.run).1 hcall
  · exact (wp_of_error hact.run).1 hcall rfl

/-- A stack of two words, of which the one used refers to a block. -/
def referring (b : BlockId) (owner : Option DomainId) : Segment where
  used := 1
  owner
  handlers := .zero
  link := .unit
  slots := [.ofBlock b, .null]
  used_le := by simp

/-- Two old stacks, the first of which refers to a young block, and a domain that runs on the first. -/
def onReferring : Machine where
  world := .initial {} .bytecode { Heap.empty 100 100 with
    cells := [some ⟨.old, .stack (referring ⟨2⟩ none)⟩, some ⟨.old, .stack (.blank 1 .zero)⟩,
      some ⟨.young, .block 0 [.unit]⟩]
    liveWords := 16 }
  domains := [{ Domain.fresh ⟨1⟩ 100 with registers := some ⟨⟨0⟩, 1, 2⟩ }]

/-- Leaving a stack that refers to a young block, and growing it. -/
theorem safe_onReferring : onReferring.Sound ∧ onReferring.Safe ∧ onReferring.MarksQueued ∧ onReferring.Closed ∧
    (∃ m', onReferring.act ⟨1⟩ (StackCall.switch ⟨1⟩).act = some (.ok (), m') ∧ m'.Safe ∧ m'.MarksQueued) ∧
    ∃ m', onReferring.act ⟨1⟩ (StackCall.grow 5 []).act = some (.ok (), m') ∧ m'.Safe ∧ m'.MarksQueued := by
  have hs : onReferring.Sound := sound_of_freeList rfl (List.pairwise_singleton ..)
  have hsafe : onReferring.Safe := Heap.safe_of_liveStacks (by decide)
  have hmarks : onReferring.MarksQueued := marksQueued_of_liveStacks (by decide)
  have hclosed : onReferring.Closed := closed_of_liveStacks (by decide)
  obtain ⟨m₁, h₁⟩ : ∃ m', onReferring.act ⟨1⟩ (StackCall.switch ⟨1⟩).act = some (.ok (), m') := ⟨_, rfl⟩
  obtain ⟨m₂, h₂⟩ : ∃ m', onReferring.act ⟨1⟩ (StackCall.grow 5 []).act = some (.ok (), m') := ⟨_, rfl⟩
  exact ⟨hs, hsafe, hmarks, hclosed,
    ⟨m₁, h₁, safe_stackCall (.switch ⟨1⟩) hs hsafe hmarks hclosed h₁ (.inl rfl)⟩,
    m₂, h₂, safe_stackCall (.grow 5 []) hs hsafe hmarks hclosed h₂ (.inl rfl)⟩

end Machine

end FiberStacks
