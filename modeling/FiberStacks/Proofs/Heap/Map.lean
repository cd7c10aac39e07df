import FiberStacks.Proofs.Heap.Books

/-!
# The heap as a finite map

What a client sees of the arena: a finite map from identifiers to blocks under a budget of words.

* `Op`, `Answer`, `serve`, `run` — allocating, freeing and promoting, with what each gives back;
* `Serves` — what an operation does to the map, and when an allocation is refused;
* `run_serves` — **after any operations the arena serves the next one as the map does**, and its free list, its cells
  and its words in use are in step.
-/

namespace FiberStacks.Heap

variable {h h' : Heap} {op : Op} {b : BlockId} {o : Object} {path : AllocPath}

/-! ### Operations -/

/-- What is asked of an arena. -/
inductive Op where
  | alloc (o : Object) (path : AllocPath)
  | free (b : BlockId)
  | promote (b : BlockId)
deriving DecidableEq, Repr

inductive Answer where
  | allocated (b : BlockId)
  | refused (e : AllocError)
  | freed (o : Object)
  /-- There was no such block. -/
  | dead
  | promoted
deriving DecidableEq, Repr

def Op.Charged : Op → Prop
  | .alloc o _ => 0 < o.size
  | .free _ => True
  | .promote _ => True

instance : DecidablePred Op.Charged
  | .alloc o _ => inferInstanceAs (Decidable (0 < o.size))
  | .free _ => inferInstanceAs (Decidable True)
  | .promote _ => inferInstanceAs (Decidable True)

/-- One operation; one that fails leaves the heap as it is. -/
def serve (h : Heap) : Op → Answer × Heap
  | .alloc o path =>
    match h.alloc o path with
    | .ok (b, h') => (.allocated b, h')
    | .error e => (.refused e, h)
  | .free b =>
    match h.free b with
    | some (o, h') => (.freed o, h')
    | none => (.dead, h)
  | .promote b => (.promoted, h.promote b)

def run (h : Heap) (ops : List Op) : Heap := ops.foldl (fun h op => (h.serve op).2) h

/-- **One operation on the map.**  A block is allocated exactly if its words are left in the budget, under an identifier
that was free and is not cut off at 32 bits; nothing but this block, and the words in use, changes. -/
inductive Serves (h : Heap) : Op → Answer → Heap → Prop where
  | allocated {o : Object} {path : AllocPath} {b : BlockId} {h' : Heap} (hfit : o.size ≤ h.maxWords - h.liveWords)
      (hnew : h.cell? b = none) (hplace : h.freeList.head? = some b ∨ h.freeList = [] ∧ b.index = h.capacity)
      (hcell : h'.cell? = Function.update h.cell? b (some ⟨birth path o.size, o⟩))
      (hwords : h'.liveWords = h.liveWords + o.size) : Serves h (.alloc o path) (.allocated b) h'
  | refused {o : Object} {path : AllocPath} (hfit : h.maxWords - h.liveWords < o.size) :
      Serves h (.alloc o path) (.refused ⟨o.size, h.maxWords - h.liveWords⟩) h
  | freed {b : BlockId} {o : Object} {h' : Heap} (ho : h.get? b = some o)
      (hcell : h'.cell? = Function.update h.cell? b none) (hwords : h'.liveWords + o.size = h.liveWords) :
      Serves h (.free b) (.freed o) h'
  | dead {b : BlockId} (hb : h.cell? b = none) : Serves h (.free b) .dead h
  | promoted {b : BlockId} {h' : Heap}
      (hcell : h'.cell? = Function.update h.cell? b ((h.cell? b).map fun c => { c with generation := .old }))
      (hwords : h'.liveWords = h.liveWords) : Serves h (.promote b) .promoted h'

/-! ### One operation -/

theorem Balanced.serves_alloc (hb : h.Balanced) (ho : 0 < o.size) (path : AllocPath) :
    Serves h (.alloc o path) (h.serve (.alloc o path)).1 (h.serve (.alloc o path)).2 := by
  cases ha : h.alloc o path with
  | error e =>
    obtain ⟨hfit, rfl⟩ := alloc_eq_error_iff.1 ha
    simp only [serve, ha]
    exact .refused hfit
  | ok p =>
    obtain ⟨b, h'⟩ := p
    obtain ⟨hnew, hcell⟩ := hb.alloc_cell? (.inl ho) ha
    obtain ⟨hwords, -, hfit⟩ := alloc_words ha
    simp only [serve, ha]
    refine .allocated hfit hnew ?_ ?_ hwords
    · rcases alloc_place ha with ⟨hfree, -, -⟩ | ⟨hfree, -, rfl, hcap, -⟩
      · left
        rw [hfree, List.head?_cons]
      · -- the arena grows, and its new size is still a number of identifiers
        right
        have hle := hb.capacity_alloc (.inl ho) ha
        exact ⟨hfree, BlockId.index_ofIndex_of_lt (show h.capacity < 2 ^ 32 by omega)⟩
    · funext x
      rw [hcell, Function.update_apply]

theorem Balanced.serves_free (hb : h.Balanced) (b : BlockId) :
    Serves h (.free b) (h.serve (.free b)).1 (h.serve (.free b)).2 := by
  cases hf : h.free b with
  | none =>
    simp only [serve, hf]
    refine .dead ?_
    have hnone : h.get? b = none := Option.map_eq_none_iff.1 hf
    exact Option.map_eq_none_iff.1 hnone
  | some p =>
    obtain ⟨o, h'⟩ := p
    obtain ⟨o', ho, he⟩ := Option.map_eq_some_iff.1 hf
    obtain rfl := (Prod.mk.inj he).1
    simp only [serve, hf]
    refine .freed ho ?_ (hb.free_words hf)
    funext x
    rw [cell?_free hf, Function.update_apply]

theorem serves_promote (h : Heap) (b : BlockId) :
    Serves h (.promote b) (h.serve (.promote b)).1 (h.serve (.promote b)).2 := by
  refine .promoted ?_ rfl
  funext x
  show (h.promote b).cell? x = _
  rw [cell?_promote, Function.update_apply]

/-- **The arena serves an operation as the map does.** -/
theorem Balanced.serves (hb : h.Balanced) (hop : op.Charged) : Serves h op (h.serve op).1 (h.serve op).2 := by
  cases op with
  | alloc o path => exact hb.serves_alloc hop path
  | free b => exact hb.serves_free b
  | promote b => exact serves_promote h b

/-! ### Any operations -/

/-- Heaps within a budget stay such, and the budget stays. -/
theorem Budgeted.serve (hb : h.Budgeted) (hop : op.Charged) :
    (h.serve op).2.Budgeted ∧ (h.serve op).2.maxWords = h.maxWords := by
  cases op with
  | alloc o path =>
    cases ha : h.alloc o path with
    | error e =>
      rw [Heap.serve, ha]
      exact ⟨hb, rfl⟩
    | ok p =>
      rw [Heap.serve, ha]
      exact ⟨hb.alloc (.inl hop) ha, (alloc_words ha).2.1⟩
  | free b =>
    cases hf : h.free b with
    | none =>
      rw [Heap.serve, hf]
      exact ⟨hb, rfl⟩
    | some p =>
      rw [Heap.serve, hf]
      exact ⟨hb.free hf, (free_fields hf).2.1⟩
  | promote b => exact ⟨hb.promote b, rfl⟩

theorem Budgeted.run {ops : List Op} (hb : h.Budgeted) (hops : ∀ op ∈ ops, op.Charged) :
    (h.run ops).Budgeted ∧ (h.run ops).maxWords = h.maxWords := by
  induction ops generalizing h with
  | nil => exact ⟨hb, rfl⟩
  | cons op ops ih =>
    obtain ⟨hb', hmax⟩ := hb.serve (hops op List.mem_cons_self)
    obtain ⟨hrun, hmax'⟩ := ih hb' fun x hx => hops x (List.mem_cons_of_mem _ hx)
    exact ⟨hrun, hmax'.trans hmax⟩

/-- **The arena is a finite map.**  After any operations the words in use are those of the live blocks and within the
budget, the free list names every empty cell once, and the next operation does to the map what it should. -/
theorem run_serves {maxWords : Nat} (minorLimit : Nat) (ops : List Op) (hm : maxWords < 2 ^ 32)
    (hops : ∀ op ∈ ops, op.Charged) :
    ∃ h, (empty maxWords minorLimit).run ops = h ∧ h.maxWords = maxWords ∧
      h.liveWords = ∑ b ∈ h.blocks, ((h.get? b).map Object.size).getD 0 ∧ h.liveWords ≤ maxWords ∧
      h.freeList.Nodup ∧ (∀ i : Nat, h.cells[i]? = some none ↔ ∃ b ∈ h.freeList, b.index = i) ∧
      h.size + h.freeList.length = h.capacity ∧
      ∀ op, op.Charged → Serves h op (h.serve op).1 (h.serve op).2 := by
  obtain ⟨hb, hmax⟩ := (Budgeted.empty minorLimit hm).run hops
  have hbal := hb.balanced
  have hwithin := hmax ▸ hbal.within
  exact ⟨_, rfl, hmax, hbal.words, hwithin, hbal.nodup, fun i => hbal.cells_eq_none_iff, hbal.size_add_free,
    fun op hop => hbal.serves hop⟩

/-- A cell is freed twice, one that never was is freed, and the cell freed last is used again. -/
theorem run_serves_reuse :
    ∃ h, (empty 4 100).run [.alloc (.capsule .empty) .normal, .alloc (.block 0 [.ofInt 1]) .quiet, .free (.ofIndex 0),
        .free (.ofIndex 0), .free (.ofIndex 7), .promote (.ofIndex 1), .alloc (.block 1 [.ofInt 2, .ofInt 3]) .normal] =
        h ∧ h.get? (.ofIndex 0) = some (.block 1 [.ofInt 2, .ofInt 3]) ∧ h.liveWords = 3 ∧ h.freeList = [] ∧
      h.size + h.freeList.length = h.capacity ∧
      Serves h (.alloc (.capsule .empty) .normal) (.refused ⟨2, 1⟩) h ∧
      ∀ op, op.Charged → Serves h op (h.serve op).1 (h.serve op).2 := by
  have hm : 4 < 2 ^ 32 := by decide
  obtain ⟨h, hrun, -, -, -, -, -, hcap, hserves⟩ := run_serves 100 [
    .alloc (.capsule .empty) .normal, .alloc (.block 0 [.ofInt 1]) .quiet, .free (.ofIndex 0), .free (.ofIndex 0),
    .free (.ofIndex 7), .promote (.ofIndex 1), .alloc (.block 1 [.ofInt 2, .ofInt 3]) .normal] hm (by decide)
  have hnext := hserves (.alloc (.capsule .empty) .normal) (by decide)
  subst hrun
  exact ⟨_, rfl, by decide, by decide, by decide, hcap, hnext, hserves⟩

end FiberStacks.Heap
