import FiberStacks.Proofs.Barrier.Safe
import FiberStacks.Proofs.Barrier.Growth
import FiberStacks.Proofs.Chains.Calls
import FiberStacks.Proofs.Handling

/-!
# Marks

What the actions of a domain do to dirty marks: a mark they put is their own, on an old stack that they queue, and the
marks of other domains stay where they are.

* `Heap.KeepsMarks` — a change that puts no mark and clears none;
* `Marking` — **own marks are put on old stacks that are queued**, and no mark of another domain changes;
* `Marked` — what is left of that where a clone fails and frees its copies;
* `Act.Advances` — what the actions keep to: `founding_advances` for saving, switching, making stacks, and on top of it
  growing, pushing and popping.
-/

namespace FiberStacks

def Object.Unmarked (o : Object) : Prop := ∀ s, o = .stack s → s.owner = none

theorem Object.unmarked_stack {s : Segment} (hs : s.owner = none) : (Object.stack s).Unmarked := by
  rintro _ h
  exact Object.stack.inj h ▸ hs

theorem Object.unmarked_of_ne {o : Object} (ho : ∀ s, o ≠ .stack s) : o.Unmarked := fun s h => absurd h (ho s)

namespace Heap

variable {h h' h'' : Heap} {b c : BlockId} {s y : Segment} {o : Object} {path : AllocPath}

/-! ### Changes that leave the marks alone -/

/-- **The marks are as they were**, on stacks of the generation they were. -/
structure KeepsMarks (h h' : Heap) : Prop where
  freeListed : h'.FreeListed
  owner : ∀ b, h'.owner? b = h.owner? b
  generation : ∀ b, (h.owner? b).isSome → h'.generation? b = h.generation? b

theorem KeepsMarks.refl (hf : h.FreeListed) : h.KeepsMarks h := ⟨hf, fun _ => rfl, fun _ _ => rfl⟩

theorem keepsMarks_setStack (hf : h.FreeListed) (hs : h.stack? b = some s) (hy : y.owner = s.owner) :
    h.KeepsMarks (h.setStack b y) where
  freeListed := hf.set b _
  owner c := by
    by_cases hc : c = b
    · rw [hc, owner?_setStack_self hs, hy, owner?_of_stack? hs]
    · exact owner?_setStack_of_ne hc
  generation c _ := generation?_setStack h b c y

theorem keepsMarks_setCapsule {k k' : Capsule} (hf : h.FreeListed) (hk : h.capsule? b = some k) :
    h.KeepsMarks (h.set b (.capsule k')) where
  freeListed := hf.set b _
  owner c := by
    unfold owner?
    rw [stack?_setCapsule hk]
  generation c _ := generation?_set h b c _

theorem owner?_of_cell?_eq_none (hb : h.cell? b = none) : h.owner? b = none := by
  simp [owner?, stack?, get?, hb]

theorem keepsMarks_alloc (hf : h.FreeListed) (ho : o.Unmarked) (ha : h.alloc o path = .ok (b, h')) :
    h.KeepsMarks h' := by
  rcases alloc_cell? hf ha with ⟨hnone, g, hcell⟩ | ⟨-, hcell⟩
  · refine ⟨hf.alloc ha, fun c => ?_, fun c hc => ?_⟩
    · by_cases hc : c = b
      · subst hc
        rw [owner?_of_cell?_eq_none hnone]
        unfold owner? stack? get?
        rw [hcell, if_pos rfl]
        cases o with
        | stack s => exact ho s rfl
        | _ => rfl
      · exact owner?_congr (by rw [hcell, if_neg hc])
    · have hcb : c ≠ b := by
        rintro rfl
        simp [owner?_of_cell?_eq_none hnone] at hc
      rw [generation?, hcell, if_neg hcb]
      rfl
  · refine ⟨hf.alloc ha, fun c => owner?_congr (hcell c), fun c _ => ?_⟩
    rw [generation?, hcell]
    rfl

theorem generation?_eq_old (hs : h.stack? b = some s) (hyoung : h.isYoung b = false) :
    h.generation? b = some .old := by
  obtain ⟨g, hc⟩ := cell?_of_stack? hs
  have hg : h.generation? b = some g := by rw [generation?, hc]; rfl
  cases g with
  | old => exact hg
  | young => simp [isYoung, hg] at hyoung

end Heap

/-! ### Marking -/

/-- **Own marks are put on old stacks that are queued**, and the marks of other domains stay. -/
structure Marking (s t : Active) : Prop where
  id : t.domain.id = s.domain.id
  created : t.world.domainsCreated = s.world.domainsCreated
  queue : s.domain.remembered.queue ⊆ t.domain.remembered.queue
  freeListed : t.world.heap.FreeListed
  foreign : ∀ b o, o ≠ s.domain.id → (t.world.heap.owner? b = some o ↔ s.world.heap.owner? b = some o)
  own : ∀ b, t.world.heap.owner? b = some s.domain.id → s.world.heap.owner? b = some s.domain.id ∨
    (b ∈ t.domain.remembered.queue ∧ t.world.heap.generation? b = some .old)
  /-- A marked stack that was old still is. -/
  old : ∀ b o, s.world.heap.owner? b = some o → t.world.heap.owner? b = some o →
    s.world.heap.generation? b = some .old → t.world.heap.generation? b = some .old

/-- **Marks are the ones of before, or own ones** on old stacks that are queued and had none. -/
structure Marked (s t : Active) : Prop where
  id : t.domain.id = s.domain.id
  created : t.world.domainsCreated = s.world.domainsCreated
  freeListed : t.world.heap.FreeListed
  /-- What carries an own mark stays queued. -/
  queued : ∀ b, t.world.heap.owner? b = some s.domain.id → b ∈ s.domain.remembered.queue →
    b ∈ t.domain.remembered.queue
  marks : ∀ b o, t.world.heap.owner? b = some o →
    (s.world.heap.owner? b = some o ∧
      (s.world.heap.generation? b = some .old → t.world.heap.generation? b = some .old)) ∨
    (s.world.heap.owner? b = none ∧ o = s.domain.id ∧ b ∈ t.domain.remembered.queue ∧
      t.world.heap.generation? b = some .old)

section Relations

variable {s t u : Active}

theorem Heap.KeepsMarks.marking (h : s.world.heap.KeepsMarks t.world.heap) (hid : t.domain.id = s.domain.id)
    (hcreated : t.world.domainsCreated = s.world.domainsCreated)
    (hqueue : s.domain.remembered.queue ⊆ t.domain.remembered.queue) : Marking s t where
  id := hid
  created := hcreated
  queue := hqueue
  freeListed := h.freeListed
  foreign b o _ := by rw [h.owner]
  own b hb := .inl (h.owner b ▸ hb)
  old b o ho _ hg := (h.generation b (by rw [ho]; rfl)).trans hg

theorem Marking.trans (h₁ : Marking s t) (h₂ : Marking t u) : Marking s u where
  id := h₂.id.trans h₁.id
  created := h₂.created.trans h₁.created
  queue := List.Subset.trans h₁.queue h₂.queue
  freeListed := h₂.freeListed
  foreign b o ho := (h₂.foreign b o (h₁.id.symm ▸ ho)).trans (h₁.foreign b o ho)
  own b hb := by
    rcases h₂.own b (h₁.id.symm ▸ hb) with ht | hu
    · have ht' := h₁.id ▸ ht
      exact (h₁.own b ht').imp_right fun ⟨hq, hg⟩ => ⟨h₂.queue hq, h₂.old b _ ht' hb hg⟩
    · exact .inr hu
  old b o hs hu hg := by
    by_cases ho : o = s.domain.id
    · subst ho
      rcases h₂.own b (h₁.id.symm ▸ hu) with ht | hold
      · have ht' := h₁.id ▸ ht
        exact h₂.old b _ ht' hu (h₁.old b _ hs ht' hg)
      · exact hold.2
    · have ht := (h₁.foreign b o ho).2 hs
      exact h₂.old b o ht hu (h₁.old b o hs ht hg)

theorem Marking.trans_marked (h₁ : Marking s t) (h₂ : Marked t u) : Marked s u where
  id := h₂.id.trans h₁.id
  created := h₂.created.trans h₁.created
  freeListed := h₂.freeListed
  queued b hb hq := h₂.queued b (h₁.id ▸ hb) (h₁.queue hq)
  marks b o hu := by
    by_cases ho : o = s.domain.id
    · subst ho
      -- an own mark, of before or put since
      have hown : s.world.heap.owner? b = some s.domain.id ∨
          (b ∈ u.domain.remembered.queue ∧ u.world.heap.generation? b = some .old) := by
        rcases h₂.marks b _ hu with ⟨ht, hg⟩ | ⟨-, -, hnew⟩
        · exact (h₁.own b ht).imp_right fun h => ⟨h₂.queued b (h₁.id ▸ hu) h.1, hg h.2⟩
        · exact .inr hnew
      cases hs : s.world.heap.owner? b with
      | none => exact .inr ⟨rfl, rfl, hown.resolve_left (by simp [hs])⟩
      | some o' =>
        by_cases ho' : o' = s.domain.id
        · refine .inl ⟨by rw [ho'], fun hg => ?_⟩
          subst ho'
          rcases h₂.marks b _ hu with ⟨ht, hg'⟩ | ⟨-, -, -, hold⟩
          · exact hg' (h₁.old b _ hs ht hg)
          · exact hold
        · -- a mark of another domain would still be there
          have ht := (h₁.foreign b o' ho').2 hs
          rcases h₂.marks b _ hu with ⟨ht', -⟩ | ⟨ht', -⟩
          · exact absurd (Option.some.inj (ht.symm.trans ht')) ho'
          · simp [ht] at ht'
    · rcases h₂.marks b o hu with ⟨ht, hg⟩ | ⟨-, ho', -⟩
      · have hs := (h₁.foreign b o ho).1 ht
        exact .inl ⟨hs, fun hgs => hg (h₁.old b o hs ht hgs)⟩
      · exact absurd (ho'.trans h₁.id) ho

theorem Marked.refl (hf : s.world.heap.FreeListed) : Marked s s :=
  ⟨rfl, rfl, hf, fun _ _ h => h, fun _ _ h => .inl ⟨h, fun h => h⟩⟩

theorem Marking.marked (h : Marking s t) : Marked s t := h.trans_marked (.refl h.freeListed)

end Relations

namespace Act

open FiberStacks.Action

variable {α β : Type} {s t : Active}

/-- What an action does to marks where the arena is in order. -/
def Advances (s t : Active) : Prop := s.world.heap.FreeListed → Marking s t

theorem bookkeeping_advances : Bookkeeping Advances where
  trans h₁ h₂ hf := (h₁ hf).trans (h₂ (h₁ hf).freeListed)
  of_alike h hf := Heap.KeepsMarks.marking (h.heap.symm ▸ .refl hf) h.id h.created (h.remembered ▸ List.Subset.refl _)
  alloc ho _ ha hf := Heap.KeepsMarks.marking (Heap.keepsMarks_alloc hf (Object.unmarked_of_ne ho) ha) rfl rfl
    (List.Subset.refl _)

theorem advances_refl (s : Active) : Advances s s := bookkeeping_advances.of_alike (.refl s)

theorem advances_bind {a : Act β} {f : β → Act α} (ha : a.Relates Advances) (hf : ∀ x, (f x).Relates Advances) :
    (a >>= f).Relates Advances :=
  bookkeeping_advances.bind ha hf

theorem advances_of_beside {a : Act α} (ha : a.Beside) : a.Relates Advances := bookkeeping_advances.relates ha

theorem advances_adopt {h : Heap} (hh : s.world.heap.FreeListed → s.world.heap.KeepsMarks h) :
    Advances s { s with world := s.world.adopt h } := fun hf =>
  (hh hf).marking rfl rfl (List.Subset.refl _)

theorem advances_modifyDomain {f : Domain → Domain} (hid : ∀ d, (f d).id = d.id)
    (hqueue : ∀ d, (f d).remembered = d.remembered) : (modifyDomain f).Relates Advances := fun s hf =>
  Heap.KeepsMarks.marking (s := s) (t := { s with domain := f s.domain }) (.refl hf) (hid _) rfl
    (hqueue s.domain ▸ List.Subset.refl _)

/-! ### Saving and switching -/

theorem advances_syncStack : syncStack.Relates Advances := by
  intro s
  refine wp_syncStack_of (fun _ => advances_refl s) (fun r x y _ hx hy => ?_) fun _ => advances_refl s
  exact advances_adopt fun hf => Heap.keepsMarks_setStack hf hx (Segment.owner_setPointer hy)

theorem advances_markDirty (b : BlockId) : (markDirty b).Relates Advances := by
  intro s
  refine wp_markDirty_of (advances_refl s) (fun x hyoung hx ho hf => ?_) fun _ => advances_refl s
  have hown : s.world.heap.owner? b = none := (Heap.owner?_of_stack? hx).trans ho
  have hself := Heap.owner?_setStack_self (y := { x with owner := some s.domain.id }) hx
  refine ⟨rfl, rfl, List.subset_append_left .., hf.set b _, fun c o hod => ?_, fun c hc => ?_,
    fun c o _ _ hg => (Heap.generation?_setStack ..).trans hg⟩
  · by_cases hcb : c = b
    · subst hcb
      simp [hself, hown, Ne.symm hod]
    · simp [Heap.owner?_setStack_of_ne hcb]
  · by_cases hcb : c = b
    · subst hcb
      exact .inr ⟨List.mem_append_right _ (List.mem_singleton.2 rfl),
        (Heap.generation?_setStack ..).trans (Heap.generation?_eq_old hx hyoung)⟩
    · exact .inl (by simpa [Heap.owner?_setStack_of_ne hcb] using hc)

theorem advances_loadStack (b : BlockId) : (loadStack b).Relates Advances :=
  advances_bind (advances_of_beside (beside_stack b)) fun _ => advances_modifyDomain (fun _ => rfl) fun _ => rfl

theorem advances_allocate {o : Object} (ho : o.Unmarked) (path : AllocPath) : (allocate o path).Relates Advances := by
  intro s
  rw [wp_allocate]
  exact ⟨fun _ _ => advances_refl s, fun _ _ ha => advances_adopt fun hf => Heap.keepsMarks_alloc hf ho ha⟩

/-- **Saving, loading and switching stacks, and making new ones.** -/
theorem founding_advances : Founding fun {α} (a : Act α) => a.Relates Advances where
  bind := advances_bind
  beside := advances_of_beside
  syncStack := advances_syncStack
  markDirty := advances_markDirty
  loadStack := advances_loadStack
  allocate path hx := advances_allocate (Object.unmarked_stack hx) path

theorem handling_advances : Handling fun {α} (a : Act α) => a.Relates Advances := founding_advances.toHandling

/-! ### Growing -/

/-- **A stack is retired**: where its mark is an own one, no mark of another domain goes. -/
theorem marking_retire {b : BlockId} {x : Segment} (hf : s.world.heap.FreeListed) (hx : s.world.heap.stack? b = some x)
    (hown : ∀ o, s.world.heap.owner? b = some o → o = s.domain.id) :
    Marking s { s with world := s.world.adopt (s.world.heap.setStack b x.retire) } := by
  have hself : (s.world.heap.setStack b x.retire).owner? b = none := Heap.owner?_setStack_self hx
  refine ⟨rfl, rfl, List.Subset.refl _, hf.set b _, fun c o ho => ?_, fun c hc => ?_,
    fun c o _ _ hg => (Heap.generation?_setStack ..).trans hg⟩
  · by_cases hcb : c = b
    · subst hcb
      refine iff_of_false (by simp [hself]) fun hs => ho (hown o hs)
    · simp [Heap.owner?_setStack_of_ne hcb]
  · by_cases hcb : c = b
    · subst hcb
      simp [hself] at hc
    · exact .inl (by simpa [Heap.owner?_setStack_of_ne hcb] using hc)

theorem advances_moveTo {old new : BlockId} {saved : List Word} (h : Advances s t)
    (hown : ∀ o, s.world.heap.owner? old = some o → o = s.domain.id) :
    (moveTo old new saved).wp t (fun _ u => Advances s u) fun _ u => Advances s u := by
  refine wp_bind_of (bookkeeping_advances.wp_of (advances_loadStack new) h) ?_ fun _ _ h => h
  intro _ u hu
  simp only [wp_bind, wp_stack, wp_setStack, wp_pure]
  refine ⟨fun x hx hf => ?_, fun _ => hu⟩
  have hsu := hu hf
  refine hsu.trans (marking_retire hsu.freeListed hx fun o ho => ?_)
  by_contra hne
  rw [hsu.id] at hne
  exact hne (hown o ((hsu.foreign old o hne).1 ho))

theorem advances_tryGrow (required : Nat) (saved : List Word) : (tryGrow required saved).Relates Advances := by
  intro s
  refine wp_tryGrow (fun _ _ => advances_refl s)
    (wp_mono (handling_advances.saveStack s) (fun old t hst => ?_) fun _ _ h => h)
  have halike : ∀ u, Alike t u → Advances s u := fun u hu =>
    bookkeeping_advances.trans hst (bookkeeping_advances.of_alike hu)
  -- the new stack is put beside the others
  have hgrown : ∀ {x y : Segment} {new h} {u : Active}, y.Replaces x →
      t.world.heap.alloc (.stack y) .normal = .ok (new, h) → Alike { t with world := t.world.adopt h } u →
      Advances t u := fun hy ha hu => bookkeeping_advances.trans
    (advances_adopt fun hf => Heap.keepsMarks_alloc hf (Object.unmarked_stack hy.owner) ha)
    (bookkeeping_advances.of_alike hu)
  have hafter : ∀ {γ : Type} {a : Act γ} {u : Active}, (a.wp u (fun _ v => Advances t v) fun _ v => Advances t v) →
      a.wp u (fun _ v => Advances s v) fun _ v => Advances s v := fun ha =>
    wp_mono ha (fun _ _ h => bookkeeping_advances.trans hst h) fun _ _ h => bookkeeping_advances.trans hst h
  refine ⟨fun _ u _ => halike u, fun _ => halike, fun x y new h u hx ho hy _ ha hu => ?_,
    fun x y new h u hx ho hy _ ha hu => ?_,
    fun x y new h u o hx ho hod hy ha hu => bookkeeping_advances.trans hst (hgrown hy ha hu)⟩
  · exact hafter (advances_moveTo (hgrown hy ha hu) fun o ho' => by simp [Heap.owner?_of_stack? hx, ho] at ho')
  · refine hafter (wp_bind_of (bookkeeping_advances.wp_of (advances_markDirty new) (hgrown hy ha hu)) ?_ fun _ _ h => h)
    intro _ v hv
    refine advances_moveTo hv fun o ho' => ?_
    rw [Heap.owner?_of_stack? hx, ho] at ho'
    exact (Option.some.inj ho').symm

/-! ### Words -/

theorem advances_push (w : Word) : (push w).Relates Advances := by
  refine advances_bind (advances_of_beside (beside_guardBlocking _)) fun _ =>
    advances_bind (handling_advances.ensure advances_tryGrow 1) fun _ =>
      advances_bind (advances_of_beside beside_registers) fun r s => ?_
  have hrefl := advances_refl s
  simp only [wp_bind, wp_stack, wp_check, wp_setStack, wp_modifyDomain]
  refine ⟨fun x hx => ⟨fun y hy hf => ?_, fun _ _ => hrefl⟩, fun _ => hrefl⟩
  exact (Heap.keepsMarks_setStack hf hx (Segment.owner_setWord hy)).marking rfl rfl (List.Subset.refl _)

theorem advances_pop : pop.Relates Advances := by
  refine advances_bind (advances_of_beside (beside_guardBlocking _)) fun _ =>
    advances_bind (advances_of_beside beside_domain) fun d => ?_
  split
  · exact handling_advances.pure _
  · split
    · exact handling_advances.pure _
    · exact advances_bind (advances_of_beside (beside_stack _)) fun _ =>
        advances_bind (advances_modifyDomain (fun _ => rfl) fun _ => rfl) fun _ => handling_advances.pure _

end Act

end FiberStacks
