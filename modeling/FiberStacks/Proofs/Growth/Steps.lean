import FiberStacks.Proofs.Barrier.Growth
import FiberStacks.Proofs.Growth.Ends
import FiberStacks.Proofs.Runs.Seated

/-!
# Growth to the letter

What saving the current stack and growing it leave of the state, field by field.

* `Saves` — a segment with the live stack pointer, which is marked and queued if it is old;
* `saveStack_saves` — **saving writes one segment and one queue**, and stops on stacks that are not the domain's;
* `tryGrow_ends` — **the ends of growth**, from any state.
-/

namespace FiberStacks

open FiberStacks.Action

theorem Action.exists_of_fst {ε σ α : Type} {a : Action ε σ α} {s : σ} {r : Except ε α} (h : (a s).1 = r) :
    ∃ t, a s = (r, t) := ⟨(a s).2, h ▸ rfl⟩

theorem Heap.setStack_setStack (h : Heap) (b : BlockId) (x y : Segment) :
    (h.setStack b x).setStack b y = h.setStack b y := by
  have hcell : (Option.map fun c : Cell => { c with object := Object.stack y }) ∘
      (Option.map fun c : Cell => { c with object := Object.stack x }) =
      Option.map fun c : Cell => { c with object := Object.stack y } := by
    funext c
    cases c <;> rfl
  unfold setStack set
  rw [List.modify_modify_eq, hcell]

theorem Stop.fault_ne_raised (f : Fault) : Stop.fault f ≠ .raised := nofun

variable {s t : Active} {r : Registers} {x y z : Segment} {q : Remembered} {b : BlockId}

/-! ### Saving -/

/-- The state with one segment and the queue replaced. -/
def Active.stored (s : Active) (b : BlockId) (y : Segment) (q : Remembered) : Active :=
  ⟨{ s.domain with remembered := q }, { s.world with heap := s.world.heap.setStack b y }⟩

/-- **What saving the current stack makes of it**: the segment `y` with the live stack pointer, and the queue `q`. -/
structure Saves (s : Active) (r : Registers) (x y : Segment) (q : Remembered) : Prop where
  registers : s.domain.registers = some r
  stack : s.world.heap.stack? r.current = some x
  used_le : r.used ≤ x.capacity
  slots : y.slots = x.slots
  used : y.used = r.used
  handlers : y.handlers = x.handlers
  link : y.link = x.link
  /-- An old stack without mark is marked and queued. -/
  mark : ((s.world.heap.isYoung r.current = true ∨ x.owner = some s.domain.id) ∧ y.owner = x.owner ∧
      q = s.domain.remembered) ∨
    (s.world.heap.isYoung r.current = false ∧ x.owner = none ∧ y.owner = some s.domain.id ∧
      q = s.domain.remembered.push r.current)

namespace Saves

theorem capacity (h : Saves s r x y q) : y.capacity = x.capacity := congrArg List.length h.slots

theorem cell? (h : Saves s r x y q) : ∃ g, s.world.heap.cell? r.current = some ⟨g, .stack x⟩ ∧
    ∀ c, (s.world.heap.setStack r.current y).cell? c =
      if c = r.current then some ⟨g, .stack y⟩ else s.world.heap.cell? c := by
  obtain ⟨g, hg⟩ := Heap.cell?_of_stack? h.stack
  exact ⟨g, hg, Heap.cell?_setStack hg⟩

theorem stack?_self (h : Saves s r x y q) : (s.world.heap.setStack r.current y).stack? r.current = some y :=
  (Heap.stack?_setStack h.stack _).trans (if_pos rfl)

/-- The size that is found from the saved stack. -/
theorem growth_eq (h : Saves s r x y q) (required : Nat) :
    Growth.of (s.stored r.current y q).domain.limit (y.used + required) y.capacity =
      Growth.of s.domain.limit (r.used + required) x.capacity := by
  rw [h.used, h.capacity]
  rfl

end Saves

namespace Act

/-- **Saving the current stack**, to the letter.  It stops where there is no stack to save, and on the mark of another
domain. -/
theorem saveStack_saves (s : Active) : saveStack.wp s
    (fun b t => ∃ r x y q, Saves s r x y q ∧ b = r.current ∧ t = s.stored r.current y q)
    fun e _ => e ≠ .raised ∧ ∀ r x, Running s r x → x.owner ≠ none ∧ x.owner ≠ some s.domain.id := by
  unfold saveStack
  simp only [wp_bind, wp_registers, wp_pure]
  refine ⟨fun r hr => ?_, fun hnone => ⟨Stop.fault_ne_raised _, fun r x hrun => ?off⟩⟩
  case off => exact absurd hrun.registers (by simp [hnone])
  have same : ∀ {r' x'}, Running s r' x' → r' = r ∧ s.world.heap.stack? r.current = some x' := fun hrun => by
    obtain rfl := Option.some.inj (hrun.registers.symm.trans hr)
    exact ⟨rfl, hrun.stack⟩
  refine wp_syncStack.2 ⟨fun hnone => by simp [hr] at hnone, fun r' hr' => ?_⟩
  obtain rfl := Option.some.inj (hr.symm.trans hr')
  refine ⟨fun x hx => ?_, fun hnone => ⟨Stop.fault_ne_raised _, fun r' x' hrun => ?gone⟩⟩
  case gone => exact absurd (same hrun).2 (by simp [hnone])
  by_cases hused : r.used ≤ x.capacity
  · refine ⟨fun y hy => ?_, fun f hf => by simp [setPointer_pointer_of_le hused] at hf⟩
    obtain rfl := Except.ok.inj ((setPointer_pointer_of_le hused).symm.trans hy)
    rw [World.adopt_setStack, wp_markDirty, Heap.isYoung_setStack, Heap.stack?_setStack hx, if_pos rfl]
    -- the segment with the live pointer, before it is marked
    have saves := fun o q =>
      Saves.mk (y := { x with used := r.used, owner := o, used_le := hused }) (q := q) hr hx hused rfl rfl rfl rfl
    refine ⟨fun hyoung => ⟨r, x, _, _, saves _ _ (.inl ⟨.inl hyoung, rfl, rfl⟩), rfl, rfl⟩, fun hold =>
      ⟨fun z hz => ?_, by simp⟩⟩
    obtain rfl := Option.some.inj hz
    refine ⟨fun ho => ?_, fun ho => ⟨r, x, _, _, saves _ _ (.inl ⟨.inr ho, rfl, rfl⟩), rfl, rfl⟩, fun o ho hne =>
      ⟨Stop.fault_ne_raised _, fun r' x' hrun => ?_⟩⟩
    · rw [World.adopt_setStack, Heap.setStack_setStack]
      exact ⟨r, x, _, _, saves _ _ (.inr ⟨hold, ho, rfl, rfl⟩), rfl, rfl⟩
    · obtain rfl := Option.some.inj (hx.symm.trans (same hrun).2)
      have hmark : x.owner = some o := ho
      exact ⟨by simp [hmark], by simpa [hmark] using hne⟩
  · have hmisplaced : x.setPointer r.pointer = .error (.pointerOutside r.pointer x.capacity) :=
      dif_neg fun hp => hused (by simpa [Registers.pointer] using hp.2)
    refine ⟨fun y hy => by simp [hmisplaced] at hy, fun _ _ => ⟨Stop.fault_ne_raised _, fun r' x' hrun => ?_⟩⟩
    obtain ⟨rfl, hx'⟩ := same hrun
    obtain rfl := Option.some.inj (hx.symm.trans hx')
    exact absurd hrun.used_le hused

/-! ### Growing -/

theorem settle_unraised (old : BlockId) (owner : Option DomainId) (d : DomainId) (new : BlockId) (saved : List Word)
    (u : Active) : (settle old owner d new saved).wp u (fun p _ => p.1 = .ok new) fun e _ => e ≠ .raised := by
  have hmove : ∀ u, (moveTo old new saved).wp u (fun p _ => p.1 = .ok new) fun e _ => e ≠ .raised := fun u =>
    wp_moveTo.2 ⟨fun _ _ => ⟨fun _ _ => rfl, fun _ => Stop.fault_ne_raised _⟩, fun _ => Stop.fault_ne_raised _⟩
  unfold settle
  cases owner with
  | none => exact hmove u
  | some o =>
    simp only [wp_bind, wp_require]
    refine ⟨fun _ => ?_, fun _ => Stop.fault_ne_raised _⟩
    exact wp_markDirty_of (hmove u) (fun _ _ _ _ => hmove _) fun _ => Stop.fault_ne_raised _

/-- **Growth ends in no other way**, once the current stack is saved. -/
theorem tryGrow_ends (required : Nat) (saved : List Word) (s : Active) : (tryGrow required saved).wp s
    (fun p t => ∃ r x y q, Saves s r x y q ∧ GrowthEnd (s.stored r.current y q) r.current y required saved (.ok p) t)
    fun e t => (∃ r x y q, Saves s r x y q ∧
        GrowthEnd (s.stored r.current y q) r.current y required saved (.error e) t) ∨
      e ≠ .raised ∧ (s.domain.blocking ≠ 0 ∨ ∀ r x, Running s r x → x.owner ≠ none ∧ x.owner ≠ some s.domain.id) := by
  refine wp_tryGrow_of_ends required saved (fun hblock => .inr ⟨Stop.fault_ne_raised _, .inl hblock⟩)
    (wp_mono (saveStack_saves s) ?_ fun _ _ h => .inr ⟨h.1, .inr h.2⟩)
  rintro _ _ ⟨r, x, y, q, hs, rfl, rfl⟩
  refine ⟨fun hgone => absurd (hs.stack?_self.symm.trans hgone) nofun, fun y' hy => ?_⟩
  obtain rfl := Option.some.inj (hs.stack?_self.symm.trans hy)
  exact ⟨fun p u hend => ⟨r, x, y, q, hs, hend⟩, fun e u hend => .inl ⟨r, x, y, q, hs, hend⟩⟩

end Act

end FiberStacks
