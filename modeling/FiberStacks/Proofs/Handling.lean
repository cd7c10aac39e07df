import FiberStacks.Proofs.Barrier.Segments
import FiberStacks.Proofs.Bookkeeping

/-!
# Handling stacks

Saving, loading and switching stacks, growing them and making new ones are put together from a few steps and from
what is done beside the stacks.  A property of actions that is handed on from one action to the next holds of all of
them as soon as it holds of the steps.

* `Handling` — such a property, with what it has to hold of: writing the stack pointer back, marking, loading;
* `Handling.switchStack`, `Handling.restoreForCollection`, … — **what is made of these**;
* `Handling.maybeExpand` — and of growth, if it holds of growth;
* `Founding`, `Founding.start` — making new stacks.
-/

namespace FiberStacks.Act

/-- **A property handed on from action to action** that holds of what is done beside the stacks and of the steps that
handle the current stack. -/
structure Handling (P : ∀ {α : Type}, Act α → Prop) : Prop where
  bind : ∀ {α β : Type} {a : Act β} {f : β → Act α}, P a → (∀ x, P (f x)) → P (a >>= f)
  beside : ∀ {α : Type} {a : Act α}, a.Beside → P a
  syncStack : P syncStack
  markDirty : ∀ b, P (markDirty b)
  loadStack : ∀ b, P (loadStack b)

namespace Handling

variable {P : ∀ {α : Type}, Act α → Prop} {α β : Type}

/-- A weaker property is handed on as well, if it is. -/
theorem mono {Q : ∀ {α : Type}, Act α → Prop} (hP : Handling @P) (h : ∀ {α : Type} {a : Act α}, P a → Q a)
    (hbind : ∀ {α β : Type} {a : Act β} {f : β → Act α}, Q a → (∀ x, Q (f x)) → Q (a >>= f)) : Handling @Q where
  bind := hbind
  beside ha := h (hP.beside ha)
  syncStack := h hP.syncStack
  markDirty b := h (hP.markDirty b)
  loadStack b := h (hP.loadStack b)

theorem pure (hP : Handling @P) (x : α) : P (Pure.pure x : Act α) := hP.beside (beside_pure x)

/-- The result is not looked at. -/
theorem discard (hP : Handling @P) {a : Act α} (ha : P a) : P (do let _ ← a : Act Unit) :=
  hP.bind ha fun _ => hP.pure ()

theorem map (hP : Handling @P) {a : Act α} (ha : P a) (f : α → β) : P (f <$> a) := by
  rw [← bind_pure_comp]
  exact hP.bind ha fun _ => hP.pure _

/-! ### Saving, loading and switching -/

theorem saveStack (hP : Handling @P) : P saveStack :=
  hP.bind (hP.beside beside_registers) fun _ => hP.bind hP.syncStack fun _ => hP.bind (hP.markDirty _) fun _ =>
    hP.pure _

theorem restoreStack (hP : Handling @P) : P restoreStack :=
  hP.bind (hP.beside beside_registers) fun _ => hP.loadStack _

theorem saveForCollection (hP : Handling @P) : P saveForCollection :=
  hP.bind (hP.beside beside_domain) fun _ => hP.bind (hP.beside (beside_require id _)) fun _ =>
    hP.bind hP.saveStack fun _ => hP.beside (beside_modifyDomain fun _ => alike_of_eq rfl rfl rfl rfl rfl rfl)

theorem restoreForCollection (hP : Handling @P) : P restoreForCollection := by
  have hunsaved : P (modifyDomain fun d => { d with stackSaved := false }) :=
    hP.beside (beside_modifyDomain fun _ => alike_of_eq rfl rfl rfl rfl rfl rfl)
  refine hP.bind (hP.beside beside_domain) fun d => ?_
  simp only
  split
  · exact hP.bind hP.restoreStack fun _ => hunsaved
  · exact hunsaved

theorem switchStack (hP : Handling @P) (target : BlockId) : P (switchStack target) :=
  hP.bind (hP.beside (beside_guardBlocking _)) fun _ => hP.bind hP.saveStack fun _ =>
    hP.bind (hP.loadStack target) fun _ => hP.pure _

/-! ### Growth -/

section Growth

variable (hP : Handling @P)
include hP

theorem changeLimit (hnote : ∀ words, P (noteSize .limitChanged words)) (limit : Nat) : P (changeLimit limit) := by
  refine hP.bind (hP.beside beside_domain) fun d => hP.bind (hP.beside beside_config) fun c =>
    hP.bind (hP.beside (beside_check (Fault.placed_fit id _))) fun least => ?_
  have hset : ∀ limit, P (modifyDomain fun d => { d with limit }) := fun _ =>
    hP.beside (beside_modifyDomain fun _ => alike_of_eq rfl rfl rfl rfl rfl rfl)
  simp only
  split
  · exact hP.bind (hnote _) fun _ => hset _
  · exact hset _

variable (hgrow : ∀ required saved, P (tryGrow required saved))
include hgrow

theorem grow (required : Nat) (saved : List Word) : P (grow required saved) :=
  hP.bind (hgrow required saved) fun p => hP.bind (hP.beside (beside_orRaise p.1)) fun _ => hP.pure _

theorem ensure (required : Nat) : P (ensure required) := by
  refine hP.bind (hP.beside beside_domain) fun d => ?_
  split
  · exact hP.discard (hP.grow hgrow _ _)
  · exact hP.pure _

theorem maybeExpand (registers : List Word) : P (maybeExpand registers) := by
  refine hP.bind (hP.beside beside_config) fun c => hP.bind (hP.beside (beside_check (Fault.placed_fit id _)))
    fun margin => hP.bind (hP.beside beside_domain) fun d => ?_
  split
  · exact hP.bind (hP.grow hgrow _ _) fun _ => hP.pure _
  · exact hP.pure _

end Growth

end Handling

/-! ### New stacks -/

/-- A property of handling stacks that also holds of allocating a stack without mark. -/
structure Founding (P : ∀ {α : Type}, Act α → Prop) : Prop extends Handling @P where
  allocate : ∀ {x : Segment} (path : AllocPath), x.owner = none → P (allocate (.stack x) path)

namespace Founding

variable {P : ∀ {α : Type}, Act α → Prop}

theorem mono {Q : ∀ {α : Type}, Act α → Prop} (hP : Founding @P) (h : ∀ {α : Type} {a : Act α}, P a → Q a)
    (hbind : ∀ {α β : Type} {a : Act β} {f : β → Act α}, Q a → (∀ x, Q (f x)) → Q (a >>= f)) : Founding @Q where
  toHandling := hP.toHandling.mono h hbind
  allocate path hx := h (hP.allocate path hx)

theorem check_bind (hP : Founding @P) {α β : Type} {x : Except Fault α} {f : α → Act β} (hx : Fault.Placed x)
    (hf : ∀ a, x = .ok a → P (f a)) : P (check x >>= f) := by
  cases x with
  | error e => exact hP.beside (beside_fault (hx e rfl))
  | ok a => exact hf a rfl

theorem newMainStack (hP : Founding @P) (words : Nat) : P (newMainStack words) := by
  refine hP.check_bind (Segment.placed_make _ _) fun x hx =>
    hP.bind (hP.allocate _ (Segment.bare_make hx).owner) fun r => ?_
  split
  · exact hP.pure _
  · exact hP.bind (hP.beside (beside_note rfl)) fun _ => hP.pure _

theorem initMainStack (hP : Founding @P) : P initMainStack := by
  refine hP.bind (hP.beside beside_config) fun c => hP.bind (hP.newMainStack _) fun r => ?_
  split
  · exact hP.pure _
  · exact hP.bind (hP.loadStack _) fun _ => hP.pure _

theorem start (hP : Founding @P) : P start := by
  refine hP.bind hP.initMainStack fun r => ?_
  split
  · exact hP.pure _
  · exact hP.beside <| (beside_modifyDomain fun _ => alike_of_eq rfl rfl rfl rfl rfl rfl).bind fun _ =>
      beside_domain.bind fun _ =>
        (beside_modifyWorld (fun _ => alike_of_eq rfl rfl rfl rfl rfl rfl) fun _ _ _ => rfl).bind fun _ =>
          (beside_note rfl).bind fun _ => beside_pure _

theorem newStackOf (hP : Founding @P) (words : Nat) (h : Handlers) : P (newStackOf words h) := by
  refine hP.bind (hP.beside beside_layout) fun l => hP.check_bind (Segment.placed_fiber l words h) fun x hx =>
    hP.bind (hP.allocate _ (Segment.bare_fiber hx).owner) fun r => ?_
  split
  · exact hP.bind (hP.beside (beside_note rfl)) fun _ => hP.pure _
  · exact hP.beside (beside_raiseExn _)

end Founding

end FiberStacks.Act
