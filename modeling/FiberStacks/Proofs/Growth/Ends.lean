import FiberStacks.Proofs.Barrier.Segments
import FiberStacks.Proofs.Growth.Sizes

/-!
# The ends of growth

Growing a stack saves it, looks for a size, allocates a copy without mark, marks the copy if the old stack was marked,
runs on the copy and retires the old stack.

* `Act.moveTo`, `Act.settle` — what growth does with the copy;
* `Segment.Enlarges` — a larger copy of a segment;
* `GrowthEnd` — **the ends of growth** once the stack is saved, with the state each leaves;
* `Act.wp_tryGrow_of_ends` — growth has no other ends.
-/

namespace FiberStacks

open FiberStacks.Action

theorem Action.wp_intro {ε σ α : Type} {a : Action ε σ α} {s : σ} {Q : α → σ → Prop} {E : ε → σ → Prop}
    (hQ : ∀ x t, a s = (.ok x, t) → Q x t) (hE : ∀ e t, a s = (.error e, t) → E e t) : a.wp s Q E := by
  unfold wp
  rcases ha : a s with ⟨e | x, t⟩
  · exact hE e t ha
  · exact hQ x t ha

/-- The state with one more notice in the log. -/
def Active.noted (s : Active) (n : Notice) : Active := { s with world := s.world.note n }

def Active.adopted (s : Active) (h : Heap) : Active := { s with world := s.world.adopt h }

/-! ### The copy -/

namespace Segment

/-- **A larger copy of a segment**: the used words at their offsets, the control fields, and no mark. -/
structure Enlarges (z y : Segment) (size : Nat) : Prop extends z.Replaces y where
  capacity : z.capacity = size
  used : z.used = y.used
  slots : z.slots.take y.used = y.slots.take y.used

theorem exists_enlarged {s : Segment} {size : Nat} (hsize : size ≤ Size.allocatable) (h : s.used ≤ size) :
    ∃ y z, (blank size .zero).copyUsed s = .ok y ∧ y.copyMetadata s = .ok z ∧ z.Enlarges s size := by
  have hy : s.used ≤ (blank size .zero).capacity := by rwa [capacity_blank]
  obtain ⟨y, hcopy⟩ : ∃ y, (blank size .zero).copyUsed s = .ok y := by
    unfold copyUsed
    rw [dif_pos hy]
    exact ⟨_, rfl⟩
  have hslots := slots_copyUsed hcopy
  have hlen : y.capacity = size := by
    have := s.used_le
    simp only [capacity, hslots, blank, List.length_append, List.length_take, List.length_drop, List.length_replicate]
    omega
  obtain ⟨z, hz⟩ : ∃ z, y.copyMetadata s = .ok z := by
    have hp : s.pointer ≤ 0 ∧ s.pointer.natAbs ≤ y.capacity := by
      unfold pointer
      omega
    unfold copyMetadata setPointer
    rw [dif_pos hp]
    exact ⟨_, rfl⟩
  obtain ⟨hzslots, hzused, -⟩ := copyMetadata_fields hz
  refine ⟨y, z, hcopy, hz, replaces_copy (if_pos hsize) hcopy hz, ?_, hzused, ?_⟩
  · rw [← hlen]
    unfold capacity
    rw [hzslots]
  · rw [hzslots, hslots]
    have := s.used_le
    rw [List.take_append_of_le_length (by simp [this]), List.take_take, Nat.min_self]

end Segment

namespace Act

/-- Run on a new stack and retire the old one. -/
def moveTo (old new : BlockId) (saved : List Word) : Act (Except Failure BlockId × List Word) := do
  loadStack new
  setStack old (← stack old).retire
  return (.ok new, saved)

/-- What growth does with the new stack: it is marked if the old one was, and the domain moves to it. -/
def settle (old : BlockId) (owner : Option DomainId) (d : DomainId) (new : BlockId) (saved : List Word) :
    Act (Except Failure BlockId × List Word) := do
  match owner with
  | none => pure ()
  | some o =>
    require (o = d) (.foreignGrowth old)
    markDirty new
  moveTo old new saved

theorem wp_moveTo {s : Active} {old new : BlockId} {saved : List Word}
    {Q : Except Failure BlockId × List Word → Active → Prop} {E : Stop → Active → Prop} :
    (moveTo old new saved).wp s Q E ↔
      (∀ y, s.world.heap.stack? new = some y →
        (∀ x, s.world.heap.stack? old = some x → Q (.ok new, saved)
          ⟨{ s.domain with registers := some ⟨new, y.used, y.capacity⟩ },
            s.world.adopt (s.world.heap.setStack old x.retire)⟩) ∧
        (s.world.heap.stack? old = none → E (.fault (.notStack old))
          { s with domain := { s.domain with registers := some ⟨new, y.used, y.capacity⟩ } })) ∧
      (s.world.heap.stack? new = none → E (.fault (.notStack new)) s) := by
  unfold moveTo
  simp only [wp_bind, wp_loadStack, wp_stack, wp_setStack, wp_pure]

theorem leaveFrame_push {d : Domain} {w : World} {roots : List Word} {Q : List Word → Active → Prop}
    {E : Stop → Active → Prop} (hQ : Q roots ⟨d, w⟩) :
    (leaveFrame d.frames.depth).wp ⟨{ d with frames := d.frames.push (.ofRoots roots) }, w⟩ Q E := by
  unfold leaveFrame
  simp only [wp_bind, wp_domain, wp_require, LocalFrames.pop?_push, wp_modifyDomain, wp_pure]
  have hinner : 1 ≤ d.frames.depth ∧ (d.frames.push (.ofRoots roots)).depth = d.frames.depth + 1 :=
    ⟨Nat.succ_pos _, rfl⟩
  exact ⟨fun _ => ⟨fun _ => hQ, fun hne => absurd rfl hne⟩, fun hne => absurd hinner hne⟩

end Act

/-! ### The ends -/

/-- **The ends of growth** once the current stack is saved as the segment `y`, and the states they leave. -/
inductive GrowthEnd (t : Active) (old : BlockId) (y : Segment) (required : Nat) (saved : List Word) :
    Except Stop (Except Failure BlockId × List Word) → Active → Prop
  /-- What is needed passes 64 bits. -/
  | sumTooLarge (h : Size.bound ≤ y.used + required) :
      GrowthEnd t old y required saved (.error (.fault .sumTooLarge)) t
  | overLimit (h : Growth.of t.domain.limit (y.used + required) y.capacity = .overLimit) :
      GrowthEnd t old y required saved (.ok (.error (.stackOverflow (y.used + required) t.domain.limit), saved)) t
  /-- A size passes 64 bits. -/
  | tooLarge (h : Growth.of t.domain.limit (y.used + required) y.capacity = .tooLarge) :
      GrowthEnd t old y required saved (.error (.fault .productTooLarge)) t
  /-- The new size has more bytes than 64 bits count, and they are to be written. -/
  | unwritten {n : Nat} (h : Growth.of t.domain.limit (y.used + required) y.capacity = .reaches n)
      (hn : ¬ t.world.CanNote n) : GrowthEnd t old y required saved (.error (.fault .productTooLarge)) t
  /-- Memory of the new size cannot be asked for. -/
  | huge {n : Nat} (h : Growth.of t.domain.limit (y.used + required) y.capacity = .reaches n)
      (hnote : t.world.CanNote n) (hn : Size.allocatable < n) :
      GrowthEnd t old y required saved (.error (.fault .sizeTooLarge)) (t.noted (.growing n))
  /-- The budget has no room for the new stack. -/
  | full {n : Nat} (h : Growth.of t.domain.limit (y.used + required) y.capacity = .reaches n)
      (hn : n ≤ Size.allocatable) (hfull : t.world.heap.available < n + headerWords) :
      GrowthEnd t old y required saved (.ok (.error .outOfMemory, saved)) (t.noted (.growing n))
  /-- The new stack is allocated. -/
  | fits {n : Nat} {z : Segment} {new : BlockId} {h' : Heap} {res : Except Stop (Except Failure BlockId × List Word)}
      {u : Active} (h : Growth.of t.domain.limit (y.used + required) y.capacity = .reaches n)
      (hn : n ≤ Size.allocatable) (hz : z.Enlarges y n)
      (ha : t.world.heap.alloc (.stack z) .normal = .ok (new, h'))
      (hrun : Act.settle old y.owner t.domain.id new saved ((t.noted (.growing n)).adopted h') = (res, u)) :
      GrowthEnd t old y required saved res u

namespace Act

variable {s : Active} {Q : Except Failure BlockId × List Word → Active → Prop} {E : Stop → Active → Prop}

/-- **Growth ends in no other way**, once the current stack is saved. -/
theorem wp_tryGrow_of_ends (required : Nat) (saved : List Word)
    (hblocked : s.domain.blocking ≠ 0 → E (.fault (.blocked .grow s.domain.id)) s)
    (hsave : saveStack.wp s (fun old t => (t.world.heap.stack? old = none → E (.fault (.notStack old)) t) ∧
      ∀ y, t.world.heap.stack? old = some y →
        (∀ p u, GrowthEnd t old y required saved (.ok p) u → Q p u) ∧
        ∀ e u, GrowthEnd t old y required saved (.error e) u → E e u) E) :
    (tryGrow required saved).wp s Q E := by
  unfold tryGrow guardBlocking
  simp only [wp_bind, wp_domain, wp_require]
  refine ⟨fun _ => wp_mono hsave ?_ fun _ _ h => h, hblocked⟩
  rintro old t ⟨hgone, hends⟩
  simp only [wp_stack]
  refine ⟨fun y hy => ?_, hgone⟩
  obtain ⟨hok, herror⟩ := hends y hy
  simp only [wp_check_add]
  refine ⟨fun _ => ?_, fun h => herror _ _ (.sumTooLarge h)⟩
  split
  · next h => exact hok _ _ (.overLimit h)
  · next h => exact herror _ _ (.tooLarge h)
  · next n h =>
    simp only [wp_bind, wp_noteSize]
    refine ⟨fun hnote => ?_, fun hnote => herror _ _ (.unwritten h hnote)⟩
    by_cases hn : n ≤ Size.allocatable
    · rw [Segment.make, if_pos hn, wp_check_ok]
      obtain ⟨v, z, hv, hz, henlarges⟩ :=
        Segment.exists_enlarged hn ((Nat.le_add_right ..).trans (Growth.needed_le_of_reaches h))
      unfold enterFrame
      simp only [wp_bind, hv, hz, wp_check_ok, wp_domain, wp_modifyDomain, wp_pure, wp_allocate]
      refine ⟨fun e he => leaveFrame_push ?_, fun new h' ha => leaveFrame_push ?_⟩
      · have hfull := (Heap.alloc_eq_error_iff.1 he).1
        rw [Object.size, Segment.size, henlarges.capacity] at hfull
        exact hok _ _ (.full h hn hfull)
      · exact wp_intro (a := settle old y.owner t.domain.id new saved)
          (fun p u hrun => hok p u (.fits h hn henlarges ha hrun))
          fun e u hrun => herror e u (.fits h hn henlarges ha hrun)
    · rw [Segment.make, if_neg hn, wp_check_error]
      exact herror _ _ (.huge h hnote (Nat.lt_of_not_le hn))

end Act

end FiberStacks
