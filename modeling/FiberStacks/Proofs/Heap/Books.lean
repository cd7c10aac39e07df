import FiberStacks.Proofs.Heap.Arena
import Mathlib.Algebra.BigOperators.Group.Finset.Basic
import Mathlib.Algebra.Order.BigOperators.Group.Finset
import Mathlib.Algebra.Order.Group.Nat

/-!
# The books of a heap

A heap keeps the words in use, the free list and the cells apart, and names a cell by 32 bits.  Within a budget below
the number of identifiers these views stay in step, whatever is allocated, freed and changed.

* `blocks`, `total` — the live blocks, and the sum of a measure over them;
* `Balanced` — the invariant: the words in use are those of the live blocks, the free list names the empty cells, and
  every cell has an identifier;
* `Balanced.alloc`, `Balanced.free` — **allocating and freeing keep it**;
* `Budgeted` — the heaps that come about within such a budget, and `Budgeted.balanced`.
-/

namespace FiberStacks

/-- What an object counts against the number of identifiers: its words, and at least one. -/
def Object.weight (o : Object) : Nat := max o.size 1

namespace Heap

variable {h h' : Heap} {b : BlockId} {o o' : Object} {c : Cell} {path : AllocPath} {f g : Object → Nat}

/-! ### Live blocks -/

def blocks (h : Heap) : Finset BlockId :=
  ((List.range h.capacity).map BlockId.ofIndex).toFinset.filter fun b => h.contains b = true

/-- The sum of a measure over the live blocks. -/
def total (h : Heap) (f : Object → Nat) : Nat := ∑ b ∈ h.blocks, ((h.get? b).map f).getD 0

theorem contains_iff : h.contains b = true ↔ ∃ o, h.get? b = some o := by
  rw [contains, ← Option.isSome_map (f := Cell.object), Option.isSome_iff_exists]
  rfl

@[simp] theorem mem_blocks : b ∈ h.blocks ↔ h.contains b = true := by
  simp only [blocks, Finset.mem_filter, List.mem_toFinset, List.mem_map, List.mem_range, and_iff_right_iff_imp]
  intro hb
  refine ⟨b.index, Nat.lt_of_not_le fun hle => ?_, b.ofIndex_index⟩
  have hnone : h.cells[b.index]? = none := List.getElem?_eq_none hle
  simp [contains, cell?, hnone] at hb

theorem total_congr (hf : ∀ x, (h'.get? x).map f = (h.get? x).map f) : h'.total f = h.total f := by
  have hblocks : h'.blocks = h.blocks := by
    ext x
    have hsome := congrArg Option.isSome (hf x)
    simp only [Option.isSome_map] at hsome
    rw [mem_blocks, mem_blocks, contains_iff, contains_iff, ← Option.isSome_iff_exists, ← Option.isSome_iff_exists,
      hsome]
  unfold total
  rw [hblocks]
  exact Finset.sum_congr rfl fun x _ => by rw [hf]

/-- **A block is added.** -/
theorem total_insert (hnew : h.cell? b = none) (hcell : ∀ x, h'.cell? x = if x = b then some c else h.cell? x) :
    h'.total f = h.total f + f c.object := by
  have hnot : b ∉ h.blocks := by simp [contains, hnew]
  have hblocks : h'.blocks = insert b h.blocks := by
    ext x
    by_cases hx : x = b <;> simp [contains, hcell, hx]
  have hself : h'.get? b = some c.object := by simp [get?, hcell]
  have hrest : ∑ x ∈ h.blocks, ((h'.get? x).map f).getD 0 = h.total f := by
    refine Finset.sum_congr rfl fun x hx => ?_
    have hne : x ≠ b := ne_of_mem_of_not_mem hx hnot
    simp [get?, hcell, hne]
  rw [total, hblocks, Finset.sum_insert hnot, hself, hrest]
  exact Nat.add_comm ..

theorem total_mono (hfg : ∀ o, f o ≤ g o) : h.total f ≤ h.total g := by
  refine Finset.sum_le_sum fun x _ => ?_
  cases h.get? x with
  | none => exact le_rfl
  | some o => exact hfg o

theorem card_blocks (h : Heap) : h.blocks.card = h.total fun _ => 1 := by
  rw [Finset.card_eq_sum_ones]
  refine Finset.sum_congr rfl fun x hx => ?_
  obtain ⟨o, ho⟩ := contains_iff.1 (mem_blocks.1 hx)
  rw [ho]
  rfl

/-! ### Cells -/

theorem countP_eq_card {α : Type} (p : Option α → Bool) (l : List (Option α)) :
    l.countP p = ((Finset.range l.length).filter fun i => p l[i]?.join).card := by
  induction l using List.reverseRecOn with
  | nil => rfl
  | append_singleton l a ih =>
    have hold : ((Finset.range l.length).filter fun i => p (l ++ [a])[i]?.join) =
        (Finset.range l.length).filter fun i => p l[i]?.join := by
      refine Finset.filter_congr fun i hi => ?_
      rw [List.getElem?_append_left (Finset.mem_range.1 hi)]
    rw [List.countP_append, List.length_append, List.length_singleton, Finset.range_add_one, Finset.filter_insert,
      hold, ih, List.getElem?_concat_length]
    by_cases ha : p a <;> simp [ha]

theorem size_eq_card (hcap : h.capacity ≤ 2 ^ 32) : h.size = h.blocks.card := by
  have hlt : ∀ i ∈ (Finset.range h.capacity).filter (fun i => (h.cells[i]?.join).isSome),
      (BlockId.ofIndex i).index = i := fun i hi => by
    have hi := Finset.mem_range.1 (Finset.mem_filter.1 hi).1
    exact BlockId.index_ofIndex_of_lt (Nat.lt_of_lt_of_le hi hcap)
  have hblocks : h.blocks =
      ((Finset.range h.capacity).filter fun i => (h.cells[i]?.join).isSome).image BlockId.ofIndex := by
    ext x
    rw [mem_blocks, Finset.mem_image]
    constructor
    · intro hx
      refine ⟨x.index, Finset.mem_filter.2 ⟨Finset.mem_range.2 (Nat.lt_of_not_le fun hle => ?_), hx⟩, x.ofIndex_index⟩
      have hnone : h.cells[x.index]? = none := List.getElem?_eq_none hle
      simp [contains, cell?, hnone] at hx
    · rintro ⟨i, hi, rfl⟩
      unfold contains cell?
      rw [hlt i hi]
      exact (Finset.mem_filter.1 hi).2
  rw [hblocks, Finset.card_image_of_injOn fun i hi j hj he => ?_]
  · exact countP_eq_card _ _
  · rw [← hlt i hi, ← hlt j hj, he]

/-! ### The invariant -/

/-- **The books of a heap agree.**  An empty block weighs one word here, so that there is an identifier for every block
that still fits. -/
structure Balanced (h : Heap) : Prop extends FreeListed h where
  listed : ∀ i : Nat, h.cells[i]? = some none → ∃ b ∈ h.freeList, b.index = i
  words : h.liveWords = h.total Object.size
  within : h.liveWords ≤ h.maxWords
  capacity_le : h.capacity ≤ 2 ^ 32
  room : h.total Object.weight + h.available ≤ 2 ^ 32

theorem balanced_empty {maxWords : Nat} (minorLimit : Nat) (hm : maxWords < 2 ^ 32) :
    (empty maxWords minorLimit).Balanced where
  nodup := List.nodup_nil
  empty := by simp [Heap.empty]
  listed := by simp [Heap.empty]
  words := rfl
  within := Nat.zero_le _
  capacity_le := Nat.zero_le _
  room := by
    have hzero : (Heap.empty maxWords minorLimit).total Object.weight = 0 := rfl
    rw [hzero, available_empty]
    omega

/-- A block of this size fits, and there is an identifier for it. -/
def Fits (h : Heap) (o : Object) : Prop := 0 < o.size ∨ h.total Object.weight + h.available < 2 ^ 32

theorem alloc_place (ha : h.alloc o path = .ok (b, h')) :
    (h.freeList = b :: h'.freeList ∧ h'.capacity = h.capacity ∧
      ∀ i : Nat, h'.cells[i]? = some none → i ≠ b.index ∧ h.cells[i]? = some none) ∨
    (h.freeList = [] ∧ h'.freeList = [] ∧ b = .ofIndex h.capacity ∧ h'.capacity = h.capacity + 1 ∧
      ∀ i : Nat, h'.cells[i]? = some none → h.cells[i]? = some none) := by
  obtain ⟨gen, h₁, hr, hp⟩ := alloc_eq_ok ha
  obtain ⟨hcells, hlist, -⟩ := reserve_fields hr
  unfold putCell at hp
  rw [hlist] at hp
  split at hp
  · next x rest hfree =>
    obtain ⟨rfl, rfl⟩ := Prod.mk.inj hp
    refine .inl ⟨hfree, by simp [capacity, hcells], fun i hi => ?_⟩
    rw [hcells, List.getElem?_set] at hi
    by_cases hx : x.index = i
    · rw [if_pos hx] at hi
      split at hi <;> cases hi
    · rw [if_neg hx] at hi
      exact ⟨fun he => hx he.symm, hi⟩
  · next hfree =>
    obtain ⟨rfl, rfl⟩ := Prod.mk.inj hp
    refine .inr ⟨hfree, hfree, by simp [capacity, hcells], by simp [capacity, hcells], fun i hi => ?_⟩
    rw [hcells] at hi
    rcases Nat.lt_trichotomy i h.cells.length with hlt | rfl | hgt
    · rwa [List.getElem?_append_left hlt] at hi
    · rw [List.getElem?_concat_length] at hi
      cases hi
    · rw [List.getElem?_eq_none (by simp; omega)] at hi
      cases hi

theorem alloc_words (ha : h.alloc o path = .ok (b, h')) :
    h'.liveWords = h.liveWords + o.size ∧ h'.maxWords = h.maxWords ∧ o.size ≤ h.available := by
  obtain ⟨gen, h₁, hr, hp⟩ := alloc_eq_ok ha
  obtain ⟨-, -, hlive, hmax, hsize⟩ := reserve_fields hr
  unfold putCell at hp
  split at hp <;>
  · obtain ⟨-, rfl⟩ := Prod.mk.inj hp
    exact ⟨hlive, hmax, hsize⟩

theorem free_fields (he : h.free b = some (o, h')) :
    h'.liveWords = h.liveWords - o.size ∧ h'.maxWords = h.maxWords ∧ h'.capacity = h.capacity ∧
      h'.freeList = b :: h.freeList ∧ h'.cells = h.cells.set b.index none := by
  obtain ⟨o', -, he'⟩ := Option.map_eq_some_iff.1 he
  obtain ⟨rfl, rfl⟩ := Prod.mk.inj he'
  exact ⟨rfl, rfl, by simp [capacity], rfl, rfl⟩

/-- **A block is taken away.** -/
theorem total_free (he : h.free b = some (o, h')) : h.total f = h'.total f + f o := by
  obtain ⟨o', ho, he'⟩ := Option.map_eq_some_iff.1 he
  obtain ⟨c, hc, rfl⟩ := cells_of_get? ho
  obtain rfl := (Prod.mk.inj he').1
  have hold : h.cell? b = some c := Option.join_eq_some_iff.2 hc
  have hcell := cell?_free he
  refine total_insert (by rw [hcell, if_pos rfl]) fun x => ?_
  by_cases hx : x = b
  · rw [if_pos hx, hx, hold]
  · rw [if_neg hx, hcell, if_neg hx]

namespace Balanced

theorem cells_eq_none_iff (hb : h.Balanced) {i : Nat} : h.cells[i]? = some none ↔ ∃ b ∈ h.freeList, b.index = i :=
  ⟨hb.listed i, fun ⟨b, hb', hi⟩ => hi ▸ hb.empty b hb'⟩

/-- **The live blocks and the free list together are all cells.** -/
theorem size_add_free (hb : h.Balanced) : h.size + h.freeList.length = h.capacity := by
  have hinj : (h.freeList.map BlockId.index).Nodup := by
    exact hb.nodup.map fun x y he => BlockId.index_inj he
  have hfree : (h.freeList.map BlockId.index).toFinset =
      (Finset.range h.cells.length).filter fun i => (h.cells[i]?.join).isNone := by
    ext i
    rw [List.mem_toFinset, List.mem_map, ← hb.cells_eq_none_iff, Finset.mem_filter, Finset.mem_range]
    constructor
    · intro hi
      exact ⟨(List.getElem?_eq_some_iff.1 hi).1, by rw [hi]; rfl⟩
    · rintro ⟨hlt, hi⟩
      rw [List.getElem?_eq_getElem hlt] at hi ⊢
      exact congrArg some (Option.isNone_iff_eq_none.1 hi)
  have hcount : h.cells.countP Option.isNone = h.freeList.length := by
    rw [countP_eq_card, ← hfree, List.toFinset_card_of_nodup hinj, List.length_map]
  have hsplit := List.length_eq_countP_add_countP (l := h.cells) Option.isSome
  rw [← hcount, size, capacity, hsplit]
  congr 1
  refine List.countP_congr fun x _ => ?_
  cases x <;> simp

theorem capacity_alloc (hb : h.Balanced) (ho : h.Fits o) (ha : h.alloc o path = .ok (b, h')) :
    h'.capacity ≤ 2 ^ 32 := by
  rcases alloc_place ha with ⟨-, hcap, -⟩ | ⟨hfree, -, -, hcap, -⟩
  · exact hcap ▸ hb.capacity_le
  · -- all cells are in use, and each weighs at least a word
    have hsize := hb.size_add_free
    rw [hfree, List.length_nil, Nat.add_zero, size_eq_card hb.capacity_le, card_blocks] at hsize
    have hweight : h.total (fun _ => 1) ≤ h.total Object.weight := total_mono fun o => Nat.le_max_right ..
    have hroom := hb.room
    have hsize' := (alloc_words ha).2.2
    rcases ho with hpos | hlt <;> omega

/-- **What an allocation does to the blocks.** -/
theorem alloc_cell? (hb : h.Balanced) (ho : h.Fits o) (ha : h.alloc o path = .ok (b, h')) :
    h.cell? b = none ∧ ∀ x, h'.cell? x = if x = b then some ⟨birth path o.size, o⟩ else h.cell? x := by
  rcases alloc_cell?_birth hb.toFreeListed ha with hcell | ⟨hover, -⟩
  · exact hcell
  · exact absurd hover (Nat.not_lt_of_le (hb.capacity_alloc ho ha))

/-- **An allocation keeps the books.** -/
theorem alloc (hb : h.Balanced) (ho : h.Fits o) (ha : h.alloc o path = .ok (b, h')) : h'.Balanced := by
  obtain ⟨hnew, hcell⟩ := hb.alloc_cell? ho ha
  obtain ⟨hlive, hmax, hsize⟩ := alloc_words ha
  have hwords : h'.total Object.size = h.total Object.size + o.size := total_insert hnew hcell
  have hweight : h'.total Object.weight = h.total Object.weight + o.weight := total_insert hnew hcell
  have hwithin := hb.within
  refine ⟨hb.toFreeListed.alloc ha, fun i hi => ?_, ?_, ?_, hb.capacity_alloc ho ha, ?_⟩
  · rcases alloc_place ha with ⟨hfree, -, hnone⟩ | ⟨hfree, -, -, -, hnone⟩
    · obtain ⟨hne, hi⟩ := hnone i hi
      obtain ⟨x, hx, rfl⟩ := hb.listed i hi
      rw [hfree] at hx
      rcases List.mem_cons.1 hx with rfl | hx
      · exact absurd rfl hne
      · exact ⟨x, hx, rfl⟩
    · obtain ⟨x, hx, -⟩ := hb.listed i (hnone i hi)
      simp [hfree] at hx
  · rw [hlive, hwords, hb.words]
  · unfold available at hsize
    omega
  · have hroom := hb.room
    have ho' : o.weight = max o.size 1 := rfl
    unfold available at hroom hsize ⊢
    rw [hweight, hlive, hmax]
    rcases ho with hpos | hlt
    · omega
    · unfold available at hlt
      omega

theorem free_words (hb : h.Balanced) (he : h.free b = some (o, h')) : h'.liveWords + o.size = h.liveWords := by
  have htotal := total_free (f := Object.size) he
  have hlive := (free_fields he).1
  have hwords := hb.words
  omega

/-- **Freeing keeps the books.** -/
theorem free (hb : h.Balanced) (he : h.free b = some (o, h')) : h'.Balanced := by
  obtain ⟨hlive, hmax, hcap, hlist, hcells⟩ := free_fields he
  have hsize : h.total Object.size = h'.total Object.size + o.size := total_free he
  have hweight : h.total Object.weight = h'.total Object.weight + o.weight := total_free he
  have hwords := hb.words
  have hwithin := hb.within
  refine ⟨hb.toFreeListed.free he, fun i hi => ?_, ?_, ?_, hcap ▸ hb.capacity_le, ?_⟩
  · rw [hlist]
    by_cases hbi : b.index = i
    · exact ⟨b, List.mem_cons_self, hbi⟩
    · rw [hcells, List.getElem?_set_ne hbi] at hi
      obtain ⟨x, hx, hxi⟩ := hb.listed i hi
      exact ⟨x, List.mem_cons_of_mem _ hx, hxi⟩
  · omega
  · omega
  · have hroom := hb.room
    have ho : o.weight = max o.size 1 := rfl
    unfold available at hroom ⊢
    rw [hlive, hmax]
    omega

/-- **A change that empties no cell**, fills none and keeps the sizes of objects. -/
theorem of_sizes (hb : h.Balanced) (hlist : h'.freeList = h.freeList) (hlive : h'.liveWords = h.liveWords)
    (hmax : h'.maxWords = h.maxWords) (hcap : h'.capacity = h.capacity)
    (hcells : ∀ i : Nat, h'.cells[i]? = some none ↔ h.cells[i]? = some none)
    (hsize : ∀ x, (h'.get? x).map Object.size = (h.get? x).map Object.size) : h'.Balanced := by
  have hweight : h'.total Object.weight = h.total Object.weight := total_congr fun x => by
    have hmap := congrArg (Option.map fun n => max n 1) (hsize x)
    rw [Option.map_map, Option.map_map] at hmap
    exact hmap
  refine ⟨hb.toFreeListed.of_cells hlist fun i hi => (hcells i).2 hi, fun i hi => ?_, ?_, ?_, ?_, ?_⟩
  · rw [hlist]
    exact hb.listed i ((hcells i).1 hi)
  · rw [hlive, total_congr hsize, hb.words]
  · rw [hlive, hmax]
    exact hb.within
  · exact hcap ▸ hb.capacity_le
  · rw [hweight, available, hmax, hlive]
    exact hb.room

/-- An object changed for one of the same size. -/
theorem set (hb : h.Balanced) (ho : h.get? b = some o) (hsize : o'.size = o.size) : (h.set b o').Balanced := by
  refine hb.of_sizes rfl rfl rfl (capacity_set ..) (fun i => ?_) fun x => ?_
  · unfold Heap.set
    by_cases hi : b.index = i <;> cases hc : h.cells[i]? <;> simp [hi, hc]
  · rw [get?_set]
    by_cases hx : x = b <;> simp [hx, ho, hsize]

theorem promote (hb : h.Balanced) (b : BlockId) : (h.promote b).Balanced := by
  refine hb.of_sizes rfl rfl rfl (by simp [capacity, Heap.promote]) (fun i => ?_) fun x => ?_
  · unfold Heap.promote
    by_cases hi : b.index = i <;> cases hc : h.cells[i]? <;> simp [hi, hc]
  · unfold get?
    rw [cell?_promote]
    by_cases hx : x = b
    · subst hx
      cases h.cell? x <;> simp
    · simp [hx]

end Balanced

/-! ### Heaps within a budget -/

/-- **Heaps that come about within a budget** below the number of identifiers: blocks are allocated, freed, promoted and
changed, but keep their sizes. -/
inductive Budgeted : Heap → Prop where
  | empty {maxWords : Nat} (minorLimit : Nat) (hm : maxWords < 2 ^ 32) : Budgeted (empty maxWords minorLimit)
  | alloc {h h' : Heap} {o : Object} {path : AllocPath} {b : BlockId} (hb : Budgeted h) (ho : h.Fits o)
      (ha : h.alloc o path = .ok (b, h')) : Budgeted h'
  | free {h h' : Heap} {b : BlockId} {o : Object} (hb : Budgeted h) (hf : h.free b = some (o, h')) : Budgeted h'
  | set {h : Heap} {b : BlockId} {o o' : Object} (hb : Budgeted h) (ho : h.get? b = some o)
      (hsize : o'.size = o.size) : Budgeted (h.set b o')
  | promote {h : Heap} (b : BlockId) (hb : Budgeted h) : Budgeted (h.promote b)
  | markReady {h : Heap} (hb : Budgeted h) : Budgeted h.markReady

theorem Budgeted.balanced (hb : h.Budgeted) : h.Balanced := by
  induction hb with
  | empty minorLimit hm => exact balanced_empty minorLimit hm
  | alloc _ ho ha ih => exact ih.alloc ho ha
  | free _ hf ih => exact ih.free hf
  | set _ ho hsize ih => exact ih.set ho hsize
  | promote b _ ih => exact ih.promote b
  | markReady _ ih => exact ih.of_sizes rfl rfl rfl rfl (fun _ => Iff.rfl) fun _ => rfl

end Heap

end FiberStacks
