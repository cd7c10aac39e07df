import FiberStacks.Proofs.Bookkeeping
import FiberStacks.Proofs.Growth.Ends

/-!
# Growth step by step

What is true after growth is told from what is true once the new stack is allocated, with the old one clean, marked by
the domain or marked by another one.

* `Act.Grows` — what has to be true after each step;
* `wp_tryGrow` — **what is true after growth**, from what is true after each of its steps.
-/

namespace FiberStacks

namespace Act

open FiberStacks.Action

variable {s : Active} {Q : Except Failure BlockId × List Word → Active → Prop} {E : Stop → Active → Prop}
  {required : Nat} {saved : List Word}

/-- What has to be true once the old stack is saved, so that `Q` or `E` is true at the end. -/
structure Grows (required : Nat) (old : BlockId) (saved : List Word)
    (Q : Except Failure BlockId × List Word → Active → Prop) (E : Stop → Active → Prop) (t : Active) : Prop where
  fault : ∀ f u, ¬ f.Misplaced → Alike t u → E (.fault f) u
  fails : ∀ e u, Alike t u → Q (.error e, saved) u
  /-- The new stack is allocated, and the old one carries no mark. -/
  clean : ∀ x y new h u, t.world.heap.stack? old = some x → x.owner = none → y.Replaces x →
    x.used + required ≤ y.capacity → t.world.heap.alloc (.stack y) .normal = .ok (new, h) →
    Alike { t with world := t.world.adopt h } u → (moveTo old new saved).wp u Q E
  /-- The new stack is allocated, and the old one carries the mark of the domain. -/
  marked : ∀ x y new h u, t.world.heap.stack? old = some x → x.owner = some t.domain.id → y.Replaces x →
    x.used + required ≤ y.capacity → t.world.heap.alloc (.stack y) .normal = .ok (new, h) →
    Alike { t with world := t.world.adopt h } u → (markDirty new >>= fun _ => moveTo old new saved).wp u Q E
  /-- The new stack is allocated, and the old one carries the mark of another domain. -/
  foreign : ∀ x y new h u o, t.world.heap.stack? old = some x → x.owner = some o → o ≠ t.domain.id → y.Replaces x →
    t.world.heap.alloc (.stack y) .normal = .ok (new, h) → Alike { t with world := t.world.adopt h } u →
    E (.fault (.foreignGrowth old)) u

/-- **What is true after growth**, from what is true once the stack is saved. -/
theorem wp_tryGrow (hblocked : ∀ f, ¬ f.Misplaced → E (.fault f) s)
    (hsave : saveStack.wp s (fun old t => Grows required old saved Q E t) E) : (tryGrow required saved).wp s Q E := by
  refine wp_tryGrow_of_ends required saved (fun _ => hblocked _ id) (wp_mono hsave (fun old t hg => ?_) fun _ _ h => h)
  refine ⟨fun _ => hg.fault _ _ id (.refl t), fun x hx => ?_⟩
  have hnoted : ∀ n, Alike t (t.noted (.growing n)) := fun _ => alike_of_eq rfl rfl rfl rfl rfl rfl
  have hsettle : ∀ {n z new h'}, Growth.of t.domain.limit (x.used + required) x.capacity = .reaches n →
      z.Enlarges x n → t.world.heap.alloc (.stack z) .normal = .ok (new, h') →
      (settle old x.owner t.domain.id new saved).wp ((t.noted (.growing n)).adopted h') Q E := by
    intro n z new h' hof hz ha
    have hu : Alike { t with world := t.world.adopt h' } ((t.noted (.growing n)).adopted h') :=
      alike_of_eq rfl rfl rfl rfl rfl rfl
    have hroom : x.used + required ≤ z.capacity := hz.capacity.symm ▸ Growth.needed_le_of_reaches hof
    unfold settle
    split
    · next ho => exact hg.clean x z new h' _ hx ho hz.toReplaces hroom ha hu
    · next o ho =>
      rw [wp_bind, wp_require]
      refine ⟨fun hod => ?_, fun hod => hg.foreign x z new h' _ o hx ho hod hz.toReplaces ha hu⟩
      exact hg.marked x z new h' _ hx (hod ▸ ho) hz.toReplaces hroom ha hu
  refine ⟨fun p u hend => ?_, fun e u hend => ?_⟩
  · cases hend with
    | overLimit => exact hg.fails _ _ (.refl t)
    | full => exact hg.fails _ _ (hnoted _)
    | fits hof _ hz ha hrun => exact (wp_of_ok hrun).1 (hsettle hof hz ha)
  · cases hend with
    | sumTooLarge => exact hg.fault _ _ id (.refl t)
    | tooLarge => exact hg.fault _ _ id (.refl t)
    | unwritten => exact hg.fault _ _ id (.refl t)
    | huge => exact hg.fault _ _ id (hnoted _)
    | fits hof _ hz ha hrun => exact (wp_of_error hrun).1 (hsettle hof hz ha)

end Act

end FiberStacks
