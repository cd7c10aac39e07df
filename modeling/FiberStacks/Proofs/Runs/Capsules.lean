import FiberStacks.Proofs.Runs.Room

/-!
# Resuming, cloning and turning round

A domain spends a capsule when it resumes the chain in it, and touches no other.  A clone is a capsule of its own, and
resuming it leaves the one that was cloned as it was.

* `Act.attach` — hang a chain under the current stack and run on its head;
* `takeHead_lasts`, `resume_lasts` — **resuming spends the capsule, or changes none**;
* `cloneContinuation_lasts`, `settles_resumeCloned` — cloning changes none, nor does resuming the clone;
* `settles_findPerformer` — nor does turning a chain round.
-/

namespace FiberStacks

open FiberStacks.Action

namespace Act

variable {spent : BlockId → Prop} {s t : Active} {b k head : BlockId}

/-- Hang a chain under the current stack and run on its head. Returns the stack left. -/
def attach (head : BlockId) : Act BlockId := do
  let current := (← registers).current
  match (← check ((← heap).chain head)).getLast? with
  | none => pure ()
  | some last => setHeap (← check ((← heap).relink last (some current)))
  switchStack head

theorem resume_eq (k : BlockId) : resume k = takeHead k >>= attach := rfl

/-- **Running on another stack.** -/
theorem switchStack_lasts (target : BlockId) (hs : s.Settled) :
    (switchStack target).wp s (fun _ t => s.Lasts spent t ∧ t.domain.current? = some target)
      fun e t => s.Lasts spent t ∧ ¬ e.Misplaced ∧ e ≠ .raised := by
  have hcurrent : (switchStack target).wp s (fun _ t => t.domain.current? = some target) fun e _ => e ≠ .raised := by
    have hload : ∀ u, (loadStack target).wp u (fun _ t => t.domain.current? = some target) fun e _ => e ≠ .raised :=
      fun u => by simp [Domain.current?]
    have hmark : ∀ b u, (markDirty b).wp u (fun _ v => (loadStack target).wp v
        (fun _ t => t.domain.current? = some target) fun e _ => e ≠ .raised) fun e _ => e ≠ .raised := fun b u =>
      wp_markDirty_of (hload u) (fun _ _ _ _ => hload _) fun _ => by simp
    unfold switchStack guardBlocking saveStack
    simp only [wp_bind, wp_domain, wp_require, wp_registers, wp_pure]
    refine ⟨fun _ => ⟨fun r _ => ?_, fun _ => by simp⟩, fun _ => by simp⟩
    exact wp_syncStack_of (fun _ => hmark r.current s) (fun _ _ _ _ _ _ => hmark r.current _) fun _ => by simp
  exact wp_mono (wp_and (handling_settles.switchStack target s hs) hcurrent) (fun _ _ h => h)
    fun _ _ h => ⟨h.1.1, h.1.2, h.2⟩

theorem attach_lasts (head : BlockId) (hs : s.Settled) :
    (attach head).wp s (fun _ t => s.Lasts (fun _ => False) t ∧ t.domain.current? = some head)
      fun e t => s.Lasts (fun _ => False) t ∧ ¬ e.Misplaced ∧ e ≠ .raised := by
  have hfault : ∀ f : Fault, ¬ f.Misplaced →
      s.Lasts (fun _ => False) s ∧ ¬ (Stop.fault f).Misplaced ∧ Stop.fault f ≠ .raised :=
    fun f hf => ⟨.refl hs, hf, by simp⟩
  unfold attach
  simp only [wp_bind, wp_registers, wp_heap, wp_check]
  refine ⟨fun r _ => ⟨fun l _ => ?_, fun f hf => hfault f (s.world.heap.placed_chain head f hf)⟩,
    fun _ => hfault _ id⟩
  split
  · exact switchStack_lasts head hs
  · next last _ =>
    simp only [wp_bind, wp_heap, wp_check, wp_setHeap]
    refine ⟨fun h hh => ?_, fun f hf => hfault f (Heap.placed_relink _ _ _ f hf)⟩
    have hlinked : s.Lasts (fun _ => False) { s with world := s.world.adopt h } :=
      .adopt hs (Heap.lasts_relink hs.heap hh)
    exact wp_mono (switchStack_lasts head hlinked.settled) (fun _ _ h => ⟨hlinked.trans h.1, h.2⟩)
      fun _ _ h => ⟨hlinked.trans h.1, h.2⟩

/-- **Taking the head out of a capsule**: it was full and is spent, or no capsule has changed. -/
theorem takeHead_lasts (k : BlockId) (hs : s.Settled) :
    (takeHead k).wp s
      (fun head t => s.Lasts (· = k) t ∧ s.world.heap.capsule? k = some (.full head) ∧
        t.world.heap.capsule? k = some .taken)
      fun e t => s.Lasts spent t ∧ ¬ e.Misplaced := by
  unfold takeHead
  simp only [wp_bind, wp_heap]
  cases ht : s.world.heap.takeHead k with
  | error e =>
    exact wp_mono (wp_and (settles_of_beside (beside_raiseFailure e) s hs) (stops_raiseFailure e s))
      (fun _ _ h => h.2.elim) fun _ _ h => h.1
  | ok p =>
    obtain ⟨head, h'⟩ := p
    obtain ⟨hk, rfl⟩ := Heap.takeHead_eq_ok_iff.1 ht
    exact ⟨.adopt hs (Heap.lasts_setCapsule hs.heap hk rfl), hk, Heap.capsule?_set_self hk⟩

/-- **Resuming**: the capsule was full and is spent, and the domain runs on the head it held; or it was raised that
there is no chain to resume, and no capsule has changed. -/
theorem resume_lasts (k : BlockId) (hs : s.Settled) :
    (resume k).wp s
      (fun _ t => s.Lasts (· = k) t ∧ ∃ head, s.world.heap.capsule? k = some (.full head) ∧
        t.world.heap.capsule? k = some .taken ∧ t.domain.current? = some head)
      fun e t => s.Lasts (· = k) t ∧ ¬ e.Misplaced ∧ (e = .raised → s.Lasts (fun _ => False) t) := by
  rw [resume_eq]
  refine wp_bind_of (takeHead_lasts k hs) ?_ fun _ _ h => ⟨h.1.of_none, h.2, fun _ => h.1⟩
  rintro head t ⟨ht, hfull, htaken⟩
  refine wp_mono (attach_lasts head ht.settled) (fun _ u hu => ?_) fun e u hu => ?_
  · exact ⟨ht.trans hu.1.of_none, head, hfull, hu.1.heap.capsules k _ id htaken, hu.2⟩
  · exact ⟨ht.trans hu.1.of_none, hu.2.1, fun he => absurd he hu.2.2⟩

theorem settles_resume (k : BlockId) : (resume k).Settles (· = k) := fun _ hs =>
  wp_mono (resume_lasts k hs) (fun _ _ h => h.1) fun _ _ h => ⟨h.1, h.2.1⟩

/-- **Cloning**: the clone is a full capsule that was not there before, and no capsule has changed. -/
theorem cloneContinuation_lasts (k : BlockId) (hs : s.Settled) :
    (cloneContinuation k).wp s
      (fun k' t => s.Lasts spent t ∧ (∀ j c, s.world.heap.capsule? j = some c → j ≠ k') ∧
        ∃ head, t.world.heap.capsule? k' = some (.full head))
      fun e t => s.Lasts spent t ∧ ¬ e.Misplaced := by
  unfold cloneContinuation
  refine wp_bind_of_returns (syncStack_returns hs) ?_
  rintro - t ⟨ht, -⟩
  have hst : s.Lasts spent t := ht.of_none
  simp only [wp_bind, wp_heap, wp_check, wp_setHeap]
  refine ⟨?_, fun f hf => ⟨hst, t.world.heap.placed_cloneChain k f hf⟩⟩
  rintro ⟨r, h⟩ hr
  have hcloned : s.Lasts spent { t with world := t.world.adopt h } :=
    hst.trans (.adopt ht.settled (Heap.lasts_cloneChain ht.heap.inOrder hr))
  cases r with
  | error f =>
    exact wp_mono (wp_and ((settles_of_beside (beside_raiseFailure f)).wp_of hcloned) (stops_raiseFailure f _))
      (fun _ _ h => h.2.elim) fun _ _ h => h.1
  | ok k' =>
    obtain ⟨hfresh, hfull⟩ := Heap.cloneChain_fresh ht.heap.inOrder hr
    refine ⟨hcloned, fun j c hj he => ?_, hfull⟩
    have hlive := Heap.contains_iff.2 ⟨_, Heap.get?_of_capsule? (ht.heap.capsules j c id hj)⟩
    rw [he, hfresh] at hlive
    cases hlive

theorem settles_cloneContinuation (k : BlockId) : (cloneContinuation k).Settles spent := fun _ hs =>
  wp_mono (cloneContinuation_lasts k hs) (fun _ _ h => h.1) fun _ _ h => h

/-- **Resuming a clone**: the capsule spent is that of the clone. -/
theorem settles_resumeCloned (k : BlockId) : (resumeCloned k).Settles spent := by
  intro s hs
  refine wp_bind_of (cloneContinuation_lasts k hs) ?_ fun _ _ h => h
  rintro k' t ⟨ht, hfresh, -⟩
  -- none of the capsules of before is spent
  have hall : ∀ {u : Active}, t.Lasts (· = k') u → s.Lasts spent u := fun {u} hu => by
    have hlasts : s.Lasts (fun j => spent j ∨ j = k') u := (ht.mono fun _ => .inl).trans (hu.mono fun _ => .inr)
    refine ⟨⟨hlasts.heap.inOrder, hlasts.heap.segments, fun j c hj hc => ?_⟩, hlasts.seated, hlasts.id, hlasts.created,
      hlasts.records⟩
    exact hlasts.heap.capsules j c (fun h => h.elim hj (hfresh j c hc)) hc
  exact wp_mono (settles_resume k' t ht.settled) (fun _ _ h => hall h) fun _ _ h => ⟨hall h.1, h.2⟩

theorem settles_findPerformer (b : BlockId) : (findPerformer b).Settles spent := by
  refine (settles_of_beside beside_registers).bind fun r s hs => ?_
  simp only [wp_bind, wp_heap, wp_check, wp_setHeap, wp_pure]
  refine ⟨fun p hp => .adopt hs (Heap.lasts_reverseWithin hs.heap hp), fun f hf => ⟨.refl hs, ?_⟩⟩
  exact Heap.placed_reverseWithin _ _ _ _ _ f hf

end Act

end FiberStacks
