import FiberStacks.Proofs.Heap.Arena

/-!
# Heaps within a small budget

A heap from which nothing is freed, with a budget below the number of identifiers: every block was charged at least a
word, so that there are fewer cells than identifiers and every allocation gives a new one.

* `Growing` — the invariant;
* `Growing.alloc` — **an allocation of a block that is charged for keeps it**, gives a new block and changes no other.
-/

namespace FiberStacks.Heap

/-- **Nothing was freed**, every block was charged for, and the budget is below the number of identifiers. -/
structure Growing (h : Heap) : Prop where
  noneFree : h.freeList = []
  charged : h.capacity ≤ h.liveWords
  within : h.liveWords ≤ h.maxWords
  budget : h.maxWords < 2 ^ 32

theorem growing_empty {maxWords : Nat} (minorLimit : Nat) (hm : maxWords < 2 ^ 32) :
    (empty maxWords minorLimit).Growing :=
  ⟨rfl, Nat.le_refl _, Nat.zero_le _, hm⟩

namespace Growing

variable {h h' : Heap} {b : BlockId} {o : Object} {path : AllocPath}

theorem freeListed (hg : h.Growing) : h.FreeListed := by
  refine ⟨?_, fun b hb => ?_⟩
  · rw [hg.noneFree]
    exact List.nodup_nil
  · rw [hg.noneFree] at hb
    cases hb

theorem capacity_lt (hg : h.Growing) : h.capacity < 2 ^ 32 :=
  Nat.lt_of_le_of_lt (Nat.le_trans hg.charged hg.within) hg.budget

theorem set (hg : h.Growing) (b : BlockId) (o : Object) : (h.set b o).Growing where
  noneFree := hg.noneFree
  charged := by rw [capacity_set]; exact hg.charged
  within := hg.within
  budget := hg.budget

/-- **An allocation.** -/
theorem alloc (hg : h.Growing) (ho : 0 < o.size) (ha : h.alloc o path = .ok (b, h')) :
    h'.Growing ∧ h'.maxWords = h.maxWords ∧ o.size ≤ h.maxWords ∧ h.cell? b = none ∧
      ∃ g, ∀ x, h'.cell? x = if x = b then some ⟨g, o⟩ else h.cell? x := by
  obtain ⟨g, h₁, hr, hp⟩ := alloc_eq_ok ha
  obtain ⟨hcells, hlist, hlive, hmax, hsize⟩ := reserve_fields hr
  have hlist₁ : h₁.freeList = [] := hlist.trans hg.noneFree
  unfold putCell at hp
  rw [hlist₁] at hp
  obtain ⟨-, rfl⟩ := Prod.mk.inj hp
  have hwithin := hg.within
  unfold available at hsize
  have hg' : ({ h₁ with cells := h₁.cells ++ [some ⟨g, o⟩] } : Heap).Growing := by
    have hcharged := hg.charged
    refine ⟨hlist₁, ?_, ?_, ?_⟩
    · simp only [capacity, List.length_append, List.length_singleton, hcells, hlive] at hcharged ⊢
      omega
    · simp only [hlive, hmax]
      omega
    · simp only [hmax]
      exact hg.budget
  refine ⟨hlist₁ ▸ hg', hmax, by omega, ?_⟩
  rcases alloc_cell? hg.freeListed ha with hcell | ⟨hover, -⟩
  · exact hcell
  · exact absurd hover (Nat.not_lt_of_lt (hlist₁ ▸ hg').capacity_lt)

theorem stack?_alloc (hg : h.Growing) (ho : 0 < o.size) (ha : h.alloc o path = .ok (b, h')) :
    h.stack? b = none ∧ ∀ x, x ≠ b → h'.stack? x = h.stack? x := by
  obtain ⟨-, -, -, hnone, g, hcell⟩ := hg.alloc ho ha
  refine ⟨by simp [stack?, get?, hnone], fun x hx => ?_⟩
  unfold stack? get?
  rw [hcell, if_neg hx]

theorem stack?_alloc_self {s : Segment} (hg : h.Growing) (ha : h.alloc (.stack s) path = .ok (b, h')) :
    h'.stack? b = some s := by
  have hpos : 0 < (Object.stack s).size := Nat.succ_pos _
  obtain ⟨-, -, -, -, g, hcell⟩ := hg.alloc hpos ha
  exact stack?_of_cell? (by rw [hcell, if_pos rfl])

end Growing

end FiberStacks.Heap
