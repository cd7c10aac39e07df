import FiberStacks.Act.Resume
import FiberStacks.Proofs.Outcome

/-!
# Assertions about places

Some assertions are about the places of words: that a stack pointer or a word is inside its segment, that the used
words fit where they are copied, and that no stack grows that another domain has marked.  Where registers describe the
stacks they belong to, none of them is ever violated.

* `Fault.Misplaced` — such an assertion is violated;
* `Fault.Placed` — steps that hit none of them;
* `Segment.exists_fiber`, `Segment.fiber_of_lt` — **new fibers have room for their first words**, and what is too large
  for one;
* `Heap.placed_cloneChain` — chains can be walked and copied.
-/

namespace FiberStacks

/-- **A violated assertion about places.** -/
def Fault.Misplaced : Fault → Prop
  | pointerOutside _ _ | offsetOutside _ _ | copyTooLarge _ _ | foreignGrowth _ => True
  | _ => False

/-- It stopped at an assertion about places. -/
def Stop.Misplaced : Stop → Prop
  | fault f => f.Misplaced
  | raised | fatal _ => False

namespace Fault

variable {α β : Type}

/-- A step that hits no assertion about places. -/
def Placed (x : Except Fault α) : Prop := ∀ f, x = .error f → ¬ f.Misplaced

theorem placed_ok (a : α) : Placed (.ok a : Except Fault α) := nofun

theorem placed_error {f : Fault} (hf : ¬ f.Misplaced) : Placed (.error f : Except Fault α) := by
  intro f' he
  exact Except.error.inj he ▸ hf

theorem Placed.bind_of {x : Except Fault α} {g : α → Except Fault β} (hx : Placed x)
    (hg : ∀ a, x = .ok a → Placed (g a)) : Placed (x >>= g) := by
  cases x with
  | error f => exact placed_error (hx f rfl)
  | ok a => exact hg a rfl

theorem Placed.bind {x : Except Fault α} {g : α → Except Fault β} (hx : Placed x) (hg : ∀ a, Placed (g a)) :
    Placed (x >>= g) :=
  hx.bind_of fun a _ => hg a

theorem Placed.map {x : Except Fault α} (hx : Placed x) (g : α → β) : Placed (x.map g) := by
  cases x with
  | error f => exact placed_error (hx f rfl)
  | ok a => exact placed_ok _

theorem placed_fit {f : Fault} (hf : ¬ f.Misplaced) (n : Nat) : Placed (Size.fit f n) := by
  unfold Size.fit
  split
  · exact placed_ok _
  · exact placed_error hf

end Fault

/-! ### Steps on segments and on the heap -/

namespace Segment

open Fault

theorem placed_make (n : Nat) (hs : Handlers) : Placed (make n hs) := by
  unfold make
  split
  · exact placed_ok _
  · exact placed_error id

theorem exists_setWord {s : Segment} {o : Int} (w : Word) (ho : o < 0 ∧ o.natAbs ≤ s.capacity) :
    ∃ t, s.setWord o w = .ok t ∧ t.capacity = s.capacity := by
  obtain ⟨t, ht⟩ : ∃ t, s.setWord o w = .ok t := by
    rw [setWord, setWord?, depth?, if_pos ho]
    exact ⟨_, rfl⟩
  exact ⟨t, ht, capacity_setWord ht⟩

theorem exists_setPointer {s : Segment} {p : Int} (hp : p ≤ 0 ∧ p.natAbs ≤ s.capacity) :
    ∃ t, s.setPointer p = .ok t ∧ t.capacity = s.capacity := by
  rw [setPointer, dif_pos hp]
  exact ⟨_, rfl, rfl⟩

/-- **A new fiber** has the words asked for and its context, and its first words have room in that. -/
theorem exists_fiber (layout : Layout) {words : Nat} (hs : Handlers)
    (hwords : contextWords + words ≤ Size.allocatable) :
    ∃ y, fiber layout words hs = .ok y ∧ y.capacity = contextWords + words := by
  have hadd : Size.add contextWords words = .ok (contextWords + words) :=
    Size.add_of_lt (Nat.lt_of_le_of_lt hwords (by decide))
  obtain ⟨s, hmake, hcap⟩ : ∃ s, make (contextWords + words) hs = .ok s ∧ s.capacity = contextWords + words := by
    rw [make, if_pos hwords]
    exact ⟨_, rfl, capacity_blank ..⟩
  have h16 : 16 ≤ s.capacity := hcap ▸ Nat.le_add_right 16 words
  cases layout with
  | bytecode =>
    obtain ⟨s₁, h₁, hcap₁⟩ := s.exists_setWord (o := -1) trapSentinel (by omega)
    obtain ⟨y, hy, hcapy⟩ := s₁.exists_setPointer (p := -1) (by omega)
    refine ⟨y, ?_, by omega⟩
    simp only [fiber, bind_eq_ok_iff, hadd, hmake, Except.ok.injEq, exists_eq_left']
    exact ⟨s₁, h₁, hy⟩
  | native _ =>
    obtain ⟨s₁, h₁, hcap₁⟩ := s.exists_setWord (o := -1) ⟨exceptionReturn⟩ (by omega)
    obtain ⟨s₂, h₂, hcap₂⟩ := s₁.exists_setWord (o := -2) .null (by omega)
    obtain ⟨s₃, h₃, hcap₃⟩ := s₂.exists_setWord (o := -3) ⟨valueReturn⟩ (by omega)
    obtain ⟨s₄, h₄, hcap₄⟩ := s₃.exists_setWord (o := -4) (.ofInt (-2)) (by omega)
    obtain ⟨s₅, h₅, hcap₅⟩ := s₄.exists_setWord (o := -5) .null (by omega)
    obtain ⟨y, hy, hcapy⟩ := s₅.exists_setPointer (p := -5) (by omega)
    refine ⟨y, ?_, by omega⟩
    simp only [fiber, bind_eq_ok_iff, hadd, hmake, Except.ok.injEq, exists_eq_left']
    exact ⟨s₁, h₁, s₂, h₂, s₃, h₃, s₄, h₄, s₅, h₅, hy⟩

theorem fiber_of_lt (layout : Layout) {words : Nat} (hs : Handlers) (hwords : Size.allocatable < contextWords + words) :
    fiber layout words hs =
      .error (if contextWords + words < Size.bound then .sizeTooLarge else .sumTooLarge) := by
  unfold fiber
  by_cases hlt : contextWords + words < Size.bound
  · rw [if_pos hlt, Size.add_of_lt hlt]
    change (make (contextWords + words) hs >>= _) = _
    rw [make, if_neg (Nat.not_le_of_lt hwords)]
    rfl
  · rw [if_neg hlt, Size.add, Size.fit_of_le (Nat.le_of_not_lt hlt)]
    rfl

theorem placed_fiber (layout : Layout) (words : Nat) (hs : Handlers) : Placed (fiber layout words hs) := by
  by_cases hwords : contextWords + words ≤ Size.allocatable
  · obtain ⟨y, hy, -⟩ := exists_fiber layout hs hwords
    exact hy ▸ placed_ok y
  · rw [fiber_of_lt layout hs (Nat.lt_of_not_le hwords)]
    split
    · exact placed_error id
    · exact placed_error id

end Segment

namespace Heap

open Fault

theorem placed_stack (h : Heap) (b : BlockId) : Placed (h.stack b) := by
  unfold stack
  split
  · exact placed_ok _
  · exact placed_error id

theorem placed_relink (h : Heap) (b : BlockId) (p : Option BlockId) : Placed (h.relink b p) :=
  (h.placed_stack b).map _

theorem placed_chainWithin (h : Heap) (head : BlockId) : ∀ (n : Nat) (b : BlockId), Placed (h.chainWithin head n b)
  | 0, _ => placed_error id
  | n + 1, b => by
    refine (h.placed_stack b).bind fun s => ?_
    split
    · exact placed_ok _
    · exact (placed_chainWithin h head n _).map _

theorem placed_chain (h : Heap) (head : BlockId) : Placed (h.chain head) := placed_chainWithin h head _ head

theorem placed_copyStacks (sources : List BlockId) : ∀ (h : Heap) (copies : List BlockId),
    Placed (h.copyStacks sources copies) := by
  induction sources with
  | nil => exact fun _ _ => placed_ok _
  | cons source rest ih =>
    intro h copies
    refine (h.placed_stack source).bind fun s => ?_
    split
    · exact placed_ok _
    · simp only
      split
      · exact (placed_relink _ _ _).bind fun _ => ih _ _
      · exact (placed_ok _).bind fun _ => ih _ _

theorem placed_cloneChain (h : Heap) (k : BlockId) : Placed (h.cloneChain k) := by
  unfold cloneChain
  split
  · exact placed_ok _
  · refine (h.placed_chain _).bind fun sources => (placed_copyStacks sources h []).bind fun r => ?_
    repeat' split
    all_goals exact placed_ok _

theorem placed_reverseWithin (stack : BlockId) : ∀ (n : Nat) (h : Heap) (p : BlockId) (next : Option BlockId),
    Placed (reverseWithin stack n h p next)
  | _, _, _, none => by
    unfold reverseWithin
    exact placed_ok _
  | 0, _, _, some _ => placed_error id
  | n + 1, h, _, some b => (h.placed_stack b).bind fun _ => placed_reverseWithin stack n _ _ _

end Heap

theorem Locks.placed_unlockAll (ls : List Lock) (l : Locks) : Fault.Placed (l.unlockAll ls) := by
  induction ls generalizing l with
  | nil => exact Fault.placed_ok _
  | cons x xs ih =>
    refine Fault.Placed.bind ?_ ih
    unfold Locks.unlock
    repeat' split
    · exact Fault.placed_ok _
    · exact Fault.placed_error id
    · exact Fault.placed_ok _

end FiberStacks
