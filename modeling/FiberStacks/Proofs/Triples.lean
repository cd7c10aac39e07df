import FiberStacks.Proofs.Outcome
import Mathlib

/-!
# Triples

An action is an exception over a state, for which the standard library has weakest preconditions and triples.
`Action.wp` is that weakest precondition with the two ends of an action spelled out, so a statement in its terms can be
had as a triple and the other way round.

* `Action.wp_iff_apply` — the weakest precondition;
* `Action.triple_iff` — **what a triple says of an action**;
* `Action.relates_iff_triple` — relations between the states before and after.
-/

namespace FiberStacks.Action

open Std.Do

variable {ε σ α : Type} {a : Action ε σ α}

instance : WPMonad (Action ε σ) (.except ε (.arg σ .pure)) := ExceptT.instWPMonad (m := StateM σ)

theorem wp_iff_apply {s : σ} {Q : α → σ → Prop} {E : ε → σ → Prop} :
    a.wp s Q E ↔ ((wp⟦a⟧ post⟨fun x t => ⌜Q x t⌝, fun e t => ⌜E e t⌝⟩ s) : ULift Prop).down := by
  change _ ↔ ((WP.wp (m := ExceptT ε (StateM σ)) a).apply _ s).down
  unfold Action.wp
  simp only [WP.wp, PredTrans.apply_pushExcept, PredTrans.apply_pushArg]
  have hrun : (StateT.run (ExceptT.run a) s).run = a s := rfl
  rw [hrun]
  rcases a s with ⟨_ | _, _⟩
  · exact Iff.rfl
  · exact Iff.rfl

/-- **A triple says how the action ends** where its precondition holds. -/
theorem triple_iff {P : σ → Prop} {Q : α → σ → Prop} {E : ε → σ → Prop} :
    ⦃fun s => ⌜P s⌝⦄ a ⦃post⟨fun x t => ⌜Q x t⌝, fun e t => ⌜E e t⌝⟩⦄ ↔ ∀ s, P s → a.wp s Q E := by
  simp only [wp_iff_apply]
  exact Iff.rfl

theorem relates_iff_triple {R : σ → σ → Prop} :
    a.Relates R ↔ ∀ s, ⦃fun t => ⌜t = s⌝⦄ a ⦃post⟨fun _ t => ⌜R s t⌝, fun _ t => ⌜R s t⌝⟩⦄ := by
  simp only [triple_iff, forall_eq]
  exact Iff.rfl

end FiberStacks.Action
