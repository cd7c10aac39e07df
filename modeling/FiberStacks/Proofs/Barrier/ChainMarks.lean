import FiberStacks.Proofs.Barrier.Marks

/-!
# Marks across chains

Resuming a chain, turning it round and cloning it write to stacks other than the current one, but put no mark there.  A
clone that fails frees the copies it has made; if identifiers have run out these may be blocks of before, and their
marks go with them.

* `Heap.LosesMarks` — a change that puts no mark;
* `advances_resume`, `advances_findPerformer` — the marks put are those of the switch;
* `Act.Marks` — actions that put marks only as `Marked` says;
* `marks_cloneContinuation`, `marks_resumeCloned` — **so do the actions that copy chains**.
-/

namespace FiberStacks

open FiberStacks.Action

namespace Heap

variable {h h' h'' : Heap} {b k : BlockId} {s y : Segment} {o : Object} {path : AllocPath}

theorem KeepsMarks.trans (h₁ : h.KeepsMarks h') (h₂ : h'.KeepsMarks h'') : h.KeepsMarks h'' where
  freeListed := h₂.freeListed
  owner b := (h₂.owner b).trans (h₁.owner b)
  generation b ho := (h₂.generation b ((h₁.owner b).symm ▸ ho)).trans (h₁.generation b ho)

/-- **No mark is put**, and a stack that keeps its mark is as old as it was. -/
structure LosesMarks (h h' : Heap) : Prop where
  freeListed : h'.FreeListed
  marks : ∀ b o, h'.owner? b = some o → h.owner? b = some o ∧
    (h.generation? b = some .old → h'.generation? b = some .old)

theorem KeepsMarks.loses (hk : h.KeepsMarks h') : h.LosesMarks h' where
  freeListed := hk.freeListed
  marks b o hb := by
    rw [hk.owner] at hb
    exact ⟨hb, fun hg => (hk.generation b (by rw [hb]; rfl)).trans hg⟩

theorem LosesMarks.trans (h₁ : h.LosesMarks h') (h₂ : h'.LosesMarks h'') : h.LosesMarks h'' where
  freeListed := h₂.freeListed
  marks b o hb := by
    obtain ⟨hb', hg'⟩ := h₂.marks b o hb
    obtain ⟨hb, hg⟩ := h₁.marks b o hb'
    exact ⟨hb, fun h => hg' (hg h)⟩

theorem losesMarks_discardAll (hf : h.FreeListed) (copies : List BlockId) : h.LosesMarks (h.discardAll copies) := by
  obtain ⟨hf', -, hcell⟩ := discardAll_spec copies hf
  refine ⟨hf', fun b o hb => ?_⟩
  have hkept : (h.discardAll copies).cell? b = h.cell? b := by
    rw [hcell]
    split
    · next hmem =>
      have hnone : (h.discardAll copies).cell? b = none := by rw [hcell, if_pos hmem]
      simp [owner?_of_cell?_eq_none hnone] at hb
    · rfl
  exact ⟨owner?_congr hkept ▸ hb, fun hg => by rw [generation?, hkept]; exact hg⟩

/-! ### Links -/

theorem keepsMarks_relink {p : Option BlockId} (hf : h.FreeListed) (hr : h.relink b p = .ok h') : h.KeepsMarks h' := by
  obtain ⟨s, hs, rfl⟩ := relink_eq_ok hr
  exact keepsMarks_setStack hf hs rfl

theorem keepsMarks_reverseWithin {stack : BlockId} : ∀ {n : Nat} {h h' : Heap} {p last : BlockId}
    {next : Option BlockId}, h.FreeListed → reverseWithin stack n h p next = .ok (last, h') → h.KeepsMarks h' := by
  intro n
  induction n with
  | zero =>
    intro h h' p last next hf hr
    cases next with
    | none =>
      obtain ⟨-, rfl⟩ := Prod.mk.inj (Except.ok.inj hr)
      exact .refl hf
    | some b => cases hr
  | succ n ih =>
    intro h h' p last next hf hr
    cases next with
    | none =>
      obtain ⟨-, rfl⟩ := Prod.mk.inj (Except.ok.inj hr)
      exact .refl hf
    | some b =>
      obtain ⟨s, hs, hr⟩ := bind_eq_ok_iff.1 hr
      have hs := stack_eq_ok_iff.1 hs
      have hset : h.KeepsMarks (h.setStack b (s.setParent (some p))) := keepsMarks_setStack hf hs rfl
      exact hset.trans (ih hset.freeListed hr)

/-! ### Copies -/

/-- **The copy of a chain** puts no mark, and clears none if it is finished. -/
theorem marks_copyStacks {r : Except Failure (List BlockId)} : ∀ {sources copies : List BlockId} {h : Heap},
    h.FreeListed → h.copyStacks sources copies = .ok (r, h') →
    h.LosesMarks h' ∧ ∀ all, r = .ok all → h.KeepsMarks h' := by
  intro sources
  induction sources with
  | nil =>
    intro copies h hf hr
    obtain ⟨-, rfl⟩ := Prod.mk.inj (Except.ok.inj hr)
    exact ⟨KeepsMarks.loses (.refl hf), fun _ _ => .refl hf⟩
  | cons source rest ih =>
    intro copies h hf hr
    obtain ⟨s, -, ⟨e, rfl, rfl⟩ | ⟨c, h₁, h₂, ha, hlink, hr⟩⟩ := copyStacks_cons hr
    · exact ⟨losesMarks_discardAll hf copies, fun _ h => by cases h⟩
    · have hnew : h.KeepsMarks h₁ := keepsMarks_alloc hf (Object.unmarked_stack rfl) ha
      have hstep : h.KeepsMarks h₂ := by
        rcases hlink with ⟨-, rfl⟩ | ⟨last, -, hrel⟩
        · exact hnew
        · exact hnew.trans (keepsMarks_relink hnew.freeListed hrel)
      obtain ⟨hloses, hkeeps⟩ := ih hstep.freeListed hr
      exact ⟨hstep.loses.trans hloses, fun all hall => hstep.trans (hkeeps all hall)⟩

/-- **A clone** puts no mark, and clears none if it succeeds. -/
theorem marks_cloneChain {r : Except Failure BlockId} (hf : h.FreeListed) (hr : h.cloneChain k = .ok (r, h')) :
    h.LosesMarks h' ∧ ∀ k', r = .ok k' → h.KeepsMarks h' := by
  unfold cloneChain at hr
  split at hr
  · obtain ⟨rfl, rfl⟩ := Prod.mk.inj (Except.ok.inj hr)
    exact ⟨KeepsMarks.loses (.refl hf), fun _ _ => .refl hf⟩
  · obtain ⟨sources, -, hr⟩ := bind_eq_ok_iff.1 hr
    obtain ⟨⟨r₁, h₁⟩, hcopy, hr⟩ := bind_eq_ok_iff.1 hr
    obtain ⟨hloses, hkeeps⟩ := marks_copyStacks hf hcopy
    cases r₁ with
    | error e =>
      obtain ⟨rfl, rfl⟩ := Prod.mk.inj (Except.ok.inj hr)
      exact ⟨hloses, fun _ h => by cases h⟩
    | ok copies =>
      have hkeeps := hkeeps copies rfl
      simp only at hr
      split at hr
      · next k' h₂ ha =>
        obtain ⟨rfl, rfl⟩ := Prod.mk.inj (Except.ok.inj hr)
        have hcapsule : h₁.KeepsMarks h₂ := keepsMarks_alloc hkeeps.freeListed (Object.unmarked_of_ne (by simp)) ha
        exact ⟨(hkeeps.trans hcapsule).loses, fun _ _ => hkeeps.trans hcapsule⟩
      · obtain ⟨rfl, rfl⟩ := Prod.mk.inj (Except.ok.inj hr)
        exact ⟨hkeeps.loses.trans (losesMarks_discardAll hkeeps.freeListed copies), fun _ h => by cases h⟩

end Heap

theorem Heap.LosesMarks.marked {s t : Active} (h : s.world.heap.LosesMarks t.world.heap)
    (hid : t.domain.id = s.domain.id) (hcreated : t.world.domainsCreated = s.world.domainsCreated)
    (hqueued : ∀ b, t.world.heap.owner? b = some s.domain.id → b ∈ s.domain.remembered.queue →
      b ∈ t.domain.remembered.queue) : Marked s t :=
  ⟨hid, hcreated, h.freeListed, hqueued, fun b o hb => .inl (h.marks b o hb)⟩

namespace Act

variable {α β : Type} {s t u : Active}

/-! ### Resuming and turning round -/

theorem advances_takeHead (k : BlockId) : (takeHead k).Relates Advances := by
  intro s
  unfold takeHead
  simp only [wp_bind, wp_heap]
  cases ht : s.world.heap.takeHead k with
  | error e => exact advances_of_beside (beside_raiseFailure e) s
  | ok p =>
    obtain ⟨head, h'⟩ := p
    obtain ⟨c, c', hk, rfl⟩ := takeHead_eq_set ht
    exact advances_adopt fun hf => Heap.keepsMarks_setCapsule hf hk

theorem advances_resume (k : BlockId) : (resume k).Relates Advances := by
  refine advances_bind (advances_takeHead k) fun head => advances_bind (advances_of_beside beside_registers) fun r =>
    advances_bind (advances_of_beside beside_heap) fun h =>
      advances_bind (advances_of_beside (beside_check (h.placed_chain _))) fun l => ?_
  simp only
  split
  · exact handling_advances.switchStack head
  · intro s
    simp only [wp_bind, wp_heap, wp_check, wp_setHeap]
    refine ⟨fun h hr => ?_, fun _ _ => advances_refl s⟩
    exact bookkeeping_advances.wp_of (handling_advances.switchStack head)
      (advances_adopt fun hf => Heap.keepsMarks_relink hf hr)

theorem advances_findPerformer (b : BlockId) : (findPerformer b).Relates Advances := by
  refine advances_bind (advances_of_beside beside_registers) fun r s => ?_
  simp only [wp_bind, wp_heap, wp_check, wp_setHeap, wp_pure]
  refine ⟨fun p hp => advances_adopt fun hf => ?_, fun _ _ => advances_refl s⟩
  exact Heap.keepsMarks_reverseWithin hf hp

/-! ### Cloning -/

/-- **What an action does to marks** that may free blocks before it raises. -/
def Marks (a : Act α) : Prop :=
  ∀ s, a.wp s (fun _ t => Advances s t) fun _ t => s.world.heap.FreeListed → Marked s t

theorem marks_of_advances {a : Act α} (ha : a.Relates Advances) : a.Marks := fun s =>
  wp_mono (ha s) (fun _ _ h => h) fun _ _ h hf => (h hf).marked

theorem Marks.bind {a : Act β} {f : β → Act α} (ha : a.Marks) (hf : ∀ x, (f x).Marks) : (a >>= f).Marks := by
  intro s
  rw [wp_bind]
  refine wp_mono (ha s) (fun x t ht => ?_) fun _ _ h => h
  exact wp_mono (hf x t) (fun _ u hu => bookkeeping_advances.trans ht hu)
    fun _ u hu hs => (ht hs).trans_marked (hu (ht hs).freeListed)

theorem founding_marks : Founding @Marks := founding_advances.mono marks_of_advances Marks.bind

/-- The marks after the action are marks of before. -/
theorem Marks.marked {a : Act α} (ha : a.Marks) (hf : s.world.heap.FreeListed) : Marked s (a s).2 :=
  wp_iff_snd.1 (wp_mono (ha s) (fun _ _ h => (h hf).marked) fun _ _ h => h hf)

/-- No mark is put. -/
structure Losing (s t : Active) : Prop where
  id : t.domain.id = s.domain.id
  created : t.world.domainsCreated = s.world.domainsCreated
  queue : s.domain.remembered.queue ⊆ t.domain.remembered.queue
  marks : s.world.heap.LosesMarks t.world.heap

theorem Losing.marked (h : Losing s t) : Marked s t := h.marks.marked h.id h.created fun _ _ hq => h.queue hq

theorem bookkeeping_losing : Bookkeeping fun s t => s.world.heap.FreeListed → Losing s t where
  trans h₁ h₂ hf :=
    have h₁ := h₁ hf
    have h₂ := h₂ h₁.marks.freeListed
    ⟨h₂.id.trans h₁.id, h₂.created.trans h₁.created, List.Subset.trans h₁.queue h₂.queue, h₁.marks.trans h₂.marks⟩
  of_alike h hf := ⟨h.id, h.created, h.remembered ▸ List.Subset.refl _, h.heap.symm ▸ Heap.KeepsMarks.loses (.refl hf)⟩
  alloc ho _ ha hf := ⟨rfl, rfl, List.Subset.refl _, (Heap.keepsMarks_alloc hf (Object.unmarked_of_ne ho) ha).loses⟩

/-- **Cloning a capsule.** -/
theorem marks_cloneContinuation (k : BlockId) : (cloneContinuation k).Marks := by
  refine (marks_of_advances advances_syncStack).bind fun _ s => ?_
  have hrefl : s.world.heap.FreeListed → Marked s s := .refl
  simp only [wp_bind, wp_heap, wp_check, wp_setHeap]
  refine ⟨?_, fun _ _ => hrefl⟩
  rintro ⟨r, h⟩ hr
  cases r with
  | ok k' => exact advances_adopt fun hf => (Heap.marks_cloneChain hf hr).2 k' rfl
  | error e =>
    refine wp_mono (wp_and (bookkeeping_losing.relates (beside_raiseFailure e) _) (stops_raiseFailure e _))
      (fun _ _ h => h.2.elim) fun _ t ht hf => ?_
    have hfailed : Losing s { s with world := s.world.adopt h } :=
      ⟨rfl, rfl, List.Subset.refl _, (Heap.marks_cloneChain hf hr).1⟩
    exact (bookkeeping_losing.trans (fun _ => hfailed) ht.1 hf).marked

theorem marks_resumeCloned (k : BlockId) : (resumeCloned k).Marks :=
  (marks_cloneContinuation k).bind fun k' => marks_of_advances (advances_resume k')

end Act

end FiberStacks
