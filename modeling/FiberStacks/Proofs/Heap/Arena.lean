import FiberStacks.Heap
import Mathlib.Algebra.Ring.Nat
import Mathlib.Data.List.Basic
import Mathlib.Data.List.Perm.Subperm

/-!
# The arena of blocks

What an allocation does to the cells: it fills one that was empty, and every other block keeps what it holds.

* `FreeListed` — the cells on the free list are empty, and none is on it twice;
* `Reached` — the heaps that come about by allocating, freeing and changing blocks;
* `alloc_cell?` — **an allocation fills one empty cell**, as long as the cells can be told apart by their identifiers.
-/

namespace FiberStacks.Heap

/-- The free list names empty cells, none of them twice. -/
structure FreeListed (h : Heap) : Prop where
  nodup : h.freeList.Nodup
  empty : ∀ b ∈ h.freeList, h.cells[b.index]? = some none

/-- **Heaps that come about** from an empty one. -/
inductive Reached : Heap → Prop where
  | empty (maxWords minorLimit : Nat) : Reached (empty maxWords minorLimit)
  | alloc {h h' : Heap} {o : Object} {path : AllocPath} {b : BlockId} (hr : Reached h)
      (ha : h.alloc o path = .ok (b, h')) : Reached h'
  | free {h h' : Heap} {b : BlockId} {o : Object} (hr : Reached h) (hf : h.free b = some (o, h')) : Reached h'
  | set {h : Heap} (b : BlockId) (o : Object) (hr : Reached h) : Reached (h.set b o)
  | promote {h : Heap} (b : BlockId) (hr : Reached h) : Reached (h.promote b)
  | markReady {h : Heap} (hr : Reached h) : Reached h.markReady

/-! ### Blocks -/

section Blocks

variable {h h' : Heap} {b : BlockId}

theorem get?_congr (hcell : h'.cell? b = h.cell? b) : h'.get? b = h.get? b := by rw [get?, get?, hcell]

theorem contains_congr (hcell : h'.cell? b = h.cell? b) : h'.contains b = h.contains b := by
  rw [contains, contains, hcell]

theorem stack?_congr (hcell : h'.cell? b = h.cell? b) : h'.stack? b = h.stack? b := by
  rw [stack?, stack?, get?_congr hcell]

end Blocks

/-! ### Stacks -/

section Stacks

variable {h : Heap} {b : BlockId} {s : Segment} {l : List BlockId}

theorem stack_eq_ok_iff : h.stack b = .ok s ↔ h.stack? b = some s := by
  unfold stack
  cases h.stack? b <;> simp

theorem cell?_of_stack? (hs : h.stack? b = some s) : ∃ g, h.cell? b = some ⟨g, .stack s⟩ := by
  unfold stack? at hs
  split at hs
  · next ho =>
    obtain ⟨c, hc, hc'⟩ := Option.map_eq_some_iff.1 ho
    obtain rfl := Option.some.inj hs
    exact ⟨c.generation, by rw [hc, ← hc']⟩
  · cases hs

theorem stack?_of_cell? {g : Generation} (hc : h.cell? b = some ⟨g, .stack s⟩) : h.stack? b = some s := by
  simp [stack?, get?, hc]

/-- **Live stacks that are told apart** have a full cell each. -/
theorem length_le_size_of_nodup (hl : l.Nodup) (hlive : ∀ b ∈ l, ∃ s, h.stack? b = some s) : l.length ≤ h.size := by
  have hindex : (l.map BlockId.index).Nodup :=
    List.pairwise_map.2 (hl.imp fun hne hi => hne (BlockId.index_inj hi))
  -- the numbers of the full cells
  have hfull : l.map BlockId.index ⊆ (h.cells.zipIdx.filter fun p => p.1.isSome).map Prod.snd := by
    intro i hi
    obtain ⟨b, hb, rfl⟩ := List.mem_map.1 hi
    obtain ⟨s, hs⟩ := hlive b hb
    obtain ⟨g, hc⟩ := cell?_of_stack? hs
    have hpair := List.mk_mem_zipIdx_iff_getElem?.2 (Option.join_eq_some_iff.1 hc)
    exact List.mem_map.2 ⟨_, List.mem_filter.2 ⟨hpair, rfl⟩, rfl⟩
  have hsize : (h.cells.zipIdx.filter fun p => p.1.isSome).length = h.size := by
    rw [← List.countP_eq_length_filter, size, ← List.zipIdx_map_fst 0 h.cells, List.countP_map]
    simp [Function.comp_def]
  simpa [hsize] using (List.subperm_of_subset hindex hfull).length_le

theorem size_le_capacity (h : Heap) : h.size ≤ h.capacity := List.countP_le_length

theorem length_le_capacity_of_nodup (hl : l.Nodup) (hlive : ∀ b ∈ l, ∃ s, h.stack? b = some s) :
    l.length ≤ h.capacity :=
  Nat.le_trans (length_le_size_of_nodup hl hlive) h.size_le_capacity

theorem stack?_setStack {s' : Segment} (hs : h.stack? b = some s) (x : BlockId) :
    (h.setStack b s').stack? x = if x = b then some s' else h.stack? x := by
  obtain ⟨g, hc⟩ := cell?_of_stack? hs
  unfold setStack stack? get?
  rw [cell?_set]
  by_cases hx : x = b <;> simp [hx, hc]

theorem capacity_setStack (h : Heap) (b : BlockId) (s : Segment) : (h.setStack b s).capacity = h.capacity :=
  capacity_set ..

theorem cell?_setStack {s' : Segment} {g : Generation} (hs : h.cell? b = some ⟨g, .stack s⟩) (c : BlockId) :
    (h.setStack b s').cell? c = if c = b then some ⟨g, .stack s'⟩ else h.cell? c := by
  rw [setStack, cell?_set, hs]
  rfl

@[simp] theorem generation?_set (h : Heap) (b c : BlockId) (o : Object) :
    (h.set b o).generation? c = h.generation? c := by
  unfold generation?
  rw [cell?_set]
  by_cases hc : c = b
  · subst hc
    cases h.cell? c <;> simp
  · simp [hc]

@[simp] theorem generation?_setStack (h : Heap) (b c : BlockId) (s' : Segment) :
    (h.setStack b s').generation? c = h.generation? c :=
  generation?_set h b c _

@[simp] theorem isYoung_setStack (h : Heap) (b c : BlockId) (s' : Segment) :
    (h.setStack b s').isYoung c = h.isYoung c := by
  simp [isYoung]

@[simp] theorem contains_setStack (h : Heap) (b c : BlockId) (s' : Segment) :
    (h.setStack b s').contains c = h.contains c := by
  unfold contains
  rw [setStack, cell?_set]
  by_cases hc : c = b
  · subst hc
    cases h.cell? c <;> simp
  · simp [hc]

theorem stack?_setStack_of_ne {s' : Segment} {c : BlockId} (hc : c ≠ b) : (h.setStack b s').stack? c = h.stack? c := by
  unfold stack? get?
  rw [setStack, cell?_set, if_neg hc]

theorem stack?_setCapsule {k k' : Capsule} (hk : h.capsule? b = some k) (c : BlockId) :
    (h.set b (.capsule k')).stack? c = h.stack? c := by
  have ho : h.get? b = some (.capsule k) := by
    unfold capsule? at hk
    split at hk
    · next ho => rw [ho, Option.some.inj hk]
    · cases hk
  unfold stack?
  rw [get?_set]
  by_cases hc : c = b <;> simp [hc, ho]

end Stacks

/-! ### What a change leaves of the arena -/

theorem FreeListed.of_cells {h h' : Heap} (hf : h.FreeListed) (hlist : h'.freeList = h.freeList)
    (hcells : ∀ i : Nat, h.cells[i]? = some none → h'.cells[i]? = some none) : h'.FreeListed where
  nodup := hlist ▸ hf.nodup
  empty := fun b hb => hcells b.index (hf.empty b (hlist ▸ hb))

theorem FreeListed.set {h : Heap} (hf : h.FreeListed) (b : BlockId) (o : Object) : (h.set b o).FreeListed := by
  refine hf.of_cells rfl fun i hi => ?_
  by_cases hb : b.index = i <;> simp [Heap.set, hi, hb]

theorem FreeListed.promote {h : Heap} (hf : h.FreeListed) (b : BlockId) : (h.promote b).FreeListed := by
  refine hf.of_cells rfl fun i hi => ?_
  by_cases hb : b.index = i <;> simp [Heap.promote, hi, hb]

theorem cells_of_get? {h : Heap} {b : BlockId} {o : Object} (ho : h.get? b = some o) :
    ∃ c, h.cells[b.index]? = some (some c) ∧ c.object = o := by
  obtain ⟨c, hc, rfl⟩ := Option.map_eq_some_iff.1 ho
  exact ⟨c, Option.join_eq_some_iff.1 hc, rfl⟩

theorem FreeListed.free {h h' : Heap} {b : BlockId} {o : Object} (hf : h.FreeListed)
    (he : h.free b = some (o, h')) : h'.FreeListed := by
  obtain ⟨o', ho, he⟩ := Option.map_eq_some_iff.1 he
  obtain ⟨c, hc, -⟩ := cells_of_get? ho
  obtain rfl : _ = h' := (Prod.mk.inj he).2
  refine ⟨List.nodup_cons.2 ⟨fun hb => ?_, hf.nodup⟩, fun x hx => ?_⟩
  · rw [hf.empty b hb] at hc
    simp at hc
  · obtain ⟨hlt, -⟩ := List.getElem?_eq_some_iff.1 hc
    by_cases hxb : b.index = x.index
    · simp [hxb ▸ hlt, hxb]
    · rcases List.mem_cons.1 hx with rfl | hx
      · exact absurd rfl hxb
      · simpa [hxb] using hf.empty x hx

/-! ### Allocation -/

/-- The generation a block of so many words is allocated in. -/
def birth (path : AllocPath) (words : Nat) : Generation :=
  if path = .quiet ∨ maxYoungWords < words then .old else .young

theorem reserve_birth {h h' : Heap} {n : Nat} {path : AllocPath} {g : Generation}
    (hr : h.reserve n path = .ok (g, h')) : g = birth path n := by
  unfold reserve at hr
  unfold birth
  split at hr
  · cases hr
  · split at hr
    · next hold => rw [if_pos hold, (Prod.mk.inj (Except.ok.inj hr)).1]
    · next hyoung =>
      rw [if_neg hyoung]
      simp only at hr
      split at hr <;> exact (Prod.mk.inj (Except.ok.inj hr)).1.symm

theorem reserve_fields {h h' : Heap} {n : Nat} {path : AllocPath} {g : Generation}
    (hr : h.reserve n path = .ok (g, h')) :
    h'.cells = h.cells ∧ h'.freeList = h.freeList ∧ h'.liveWords = h.liveWords + n ∧ h'.maxWords = h.maxWords ∧
      n ≤ h.available := by
  unfold reserve at hr
  split at hr
  · cases hr
  · next hn =>
    have hn := Nat.le_of_not_lt hn
    split at hr
    · obtain ⟨-, rfl⟩ := Prod.mk.inj (Except.ok.inj hr)
      exact ⟨rfl, rfl, rfl, rfl, hn⟩
    · simp only at hr
      split at hr <;>
      · obtain ⟨-, rfl⟩ := Prod.mk.inj (Except.ok.inj hr)
        exact ⟨rfl, rfl, rfl, rfl, hn⟩

/-- **Where a cell is put.**  Into an empty one, and no other changes; if there are more cells than identifiers, out
of reach. -/
theorem putCell_cell? {h h' : Heap} {c : Cell} {b : BlockId} (hf : h.FreeListed) (hp : h.putCell c = (b, h')) :
    (h.cell? b = none ∧ ∀ x, h'.cell? x = if x = b then some c else h.cell? x) ∨
      (2 ^ 32 < h'.capacity ∧ ∀ x, h'.cell? x = h.cell? x) := by
  unfold putCell at hp
  split at hp
  · next b' rest hlist =>
    obtain ⟨rfl, rfl⟩ := Prod.mk.inj hp
    have hb := hf.empty b' (by simp [hlist])
    refine .inl ⟨by simp [cell?, hb], fun x => ?_⟩
    obtain ⟨hlt, -⟩ := List.getElem?_eq_some_iff.1 hb
    by_cases hx : x = b'
    · subst hx
      simp [cell?, hlt]
    · have hi : b'.index ≠ x.index := fun hi => hx (BlockId.index_inj hi).symm
      simp [cell?, hi, hx]
  · obtain ⟨rfl, rfl⟩ := Prod.mk.inj hp
    by_cases hcap : h.capacity < 2 ^ 32
    · have hi := BlockId.index_ofIndex_of_lt hcap
      unfold capacity at hi
      refine .inl ⟨by simp [cell?, hi, capacity], fun x => ?_⟩
      by_cases hx : x = .ofIndex h.capacity
      · subst hx
        simp [cell?, hi, capacity]
      · have hne : x.index ≠ h.cells.length := fun he => hx (BlockId.index_inj (he.trans hi.symm))
        rw [if_neg hx]
        unfold cell?
        rcases Nat.lt_or_gt_of_ne hne with hlt | hgt
        · simp [List.getElem?_append_left hlt]
        · have hlen : (h.cells ++ [some c]).length ≤ x.index := by
            rw [List.length_append]
            exact hgt
          have hold : h.cells.length ≤ x.index := Nat.le_of_lt hgt
          rw [List.getElem?_eq_none hlen, List.getElem?_eq_none hold]
    · refine .inr ⟨by simp only [capacity, List.length_append, List.length_singleton] at *; omega, fun x => ?_⟩
      have hlt : x.index < h.cells.length := Nat.lt_of_lt_of_le x.index_lt (Nat.le_of_not_lt hcap)
      simp [cell?, List.getElem?_append_left hlt]

theorem FreeListed.putCell {h h' : Heap} {c : Cell} {b : BlockId} (hf : h.FreeListed)
    (hp : h.putCell c = (b, h')) : h'.FreeListed := by
  unfold Heap.putCell at hp
  split at hp
  · next b' rest hlist =>
    obtain ⟨rfl, rfl⟩ := Prod.mk.inj hp
    have hnodup := hf.nodup
    rw [hlist] at hnodup
    obtain ⟨hb, hrest⟩ := List.nodup_cons.1 hnodup
    refine ⟨hrest, fun x hx => ?_⟩
    have hi : b'.index ≠ x.index := fun hi => hb (BlockId.index_inj hi ▸ hx)
    simpa [hi] using hf.empty x (by simp [hlist, hx])
  · obtain ⟨rfl, rfl⟩ := Prod.mk.inj hp
    refine hf.of_cells rfl fun i hi => ?_
    obtain ⟨hlt, -⟩ := List.getElem?_eq_some_iff.1 hi
    simpa [List.getElem?_append_left hlt] using hi

section Alloc

variable {h h' : Heap} {o : Object} {path : AllocPath} {b : BlockId}

theorem alloc_eq_ok (ha : h.alloc o path = .ok (b, h')) :
    ∃ g h₁, h.reserve o.size path = .ok (g, h₁) ∧ h₁.putCell ⟨g, o⟩ = (b, h') := by
  unfold alloc at ha
  cases hr : h.reserve o.size path with
  | error e =>
    rw [hr] at ha
    cases ha
  | ok r =>
    rw [hr] at ha
    exact ⟨r.1, r.2, rfl, Except.ok.inj ha⟩

theorem FreeListed.alloc (hf : h.FreeListed) (ha : h.alloc o path = .ok (b, h')) : h'.FreeListed := by
  obtain ⟨g, h₁, hr, hp⟩ := alloc_eq_ok ha
  obtain ⟨hcells, hlist, -⟩ := reserve_fields hr
  exact FreeListed.putCell (hf.of_cells hlist fun i hi => hcells ▸ hi) hp

/-- **What an allocation does to the cells**, and how old the new block is. -/
theorem alloc_cell?_birth (hf : h.FreeListed) (ha : h.alloc o path = .ok (b, h')) :
    (h.cell? b = none ∧ ∀ x, h'.cell? x = if x = b then some ⟨birth path o.size, o⟩ else h.cell? x) ∨
      (2 ^ 32 < h'.capacity ∧ ∀ x, h'.cell? x = h.cell? x) := by
  obtain ⟨g, h₁, hr, hp⟩ := alloc_eq_ok ha
  obtain rfl := reserve_birth hr
  obtain ⟨hcells, hlist, -⟩ := reserve_fields hr
  have hcell : ∀ x, h₁.cell? x = h.cell? x := fun x => by unfold cell?; rw [hcells]
  have hput := putCell_cell? (hf.of_cells hlist fun i hi => hcells ▸ hi) hp
  simpa only [hcell] using hput

/-- **What an allocation does to the cells.** -/
theorem alloc_cell? (hf : h.FreeListed) (ha : h.alloc o path = .ok (b, h')) :
    (h.cell? b = none ∧ ∃ g, ∀ x, h'.cell? x = if x = b then some ⟨g, o⟩ else h.cell? x) ∨
      (2 ^ 32 < h'.capacity ∧ ∀ x, h'.cell? x = h.cell? x) :=
  (alloc_cell?_birth hf ha).imp_left fun h => ⟨h.1, _, h.2⟩

theorem capacity_putCell {c : Cell} (hp : h.putCell c = (b, h')) : h.capacity ≤ h'.capacity := by
  unfold putCell at hp
  split at hp <;>
  · obtain ⟨rfl, rfl⟩ := Prod.mk.inj hp
    simp [capacity]

theorem capacity_alloc (ha : h.alloc o path = .ok (b, h')) : h.capacity ≤ h'.capacity := by
  obtain ⟨g, h₁, hr, hp⟩ := alloc_eq_ok ha
  obtain ⟨hcells, -⟩ := reserve_fields hr
  have hcap : h₁.capacity = h.capacity := by unfold capacity; rw [hcells]
  exact hcap ▸ capacity_putCell hp

end Alloc

theorem Reached.freeListed {h : Heap} (hr : h.Reached) : h.FreeListed := by
  induction hr with
  | empty m l => exact ⟨List.nodup_nil, by simp [Heap.empty]⟩
  | alloc _ ha ih => exact ih.alloc ha
  | free _ hf ih => exact ih.free hf
  | set b o _ ih => exact ih.set b o
  | promote b _ ih => exact ih.promote b
  | markReady _ ih => exact ⟨ih.nodup, ih.empty⟩

end FiberStacks.Heap
