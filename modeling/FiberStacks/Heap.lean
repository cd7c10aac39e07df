import FiberStacks.Capsule
import FiberStacks.Segment

/-!
# The heap

All blocks live in one arena of cells: stacks, capsules, texts and plain blocks of words. The heap has a budget of
words, hands out the cell freed last before a new one, and records when a minor collection would be due; collecting
is not its work.

* `Heap.alloc`, `Heap.free`, `Heap.promote` — the life of a block;
* `Heap.get?`, `Heap.stack?`, `Heap.capsule?` — what a block holds;
* `Heap.requests` — the minor collections asked for so far, each with the words live at that moment.
-/

namespace FiberStacks

/-- The largest block that starts in the young generation. -/
def maxYoungWords : Nat := 256

/-- The tag of exception identifiers. -/
def identifierTag : UInt8 := 248

inductive Object where
  | block (tag : UInt8) (fields : List Word)
  | text (s : String)
  | stack (segment : Segment)
  | capsule (state : Capsule)
deriving DecidableEq, Repr

def Object.size : Object → Nat
  | block _ fields => fields.length
  | text s => s.utf8ByteSize / wordBytes + 1
  | stack s => s.size
  | capsule _ => Capsule.size

inductive Generation where
  | young
  | old
deriving DecidableEq, Repr

inductive AllocPath where
  /-- Small blocks start young and may make a minor collection due. -/
  | normal
  /-- Straight into the old generation, without a word about collections. -/
  | quiet
deriving DecidableEq, Repr

structure Cell where
  generation : Generation
  object : Object
deriving DecidableEq, Repr

structure Heap where
  /-- The cells by index; a free one is empty. -/
  cells : List (Option Cell)
  /-- The free cells, the one freed last first. -/
  freeList : List BlockId
  /-- Words charged for the live blocks. -/
  liveWords : Nat
  /-- The budget of words. -/
  maxWords : Nat
  /-- Young words after which a minor collection is due. -/
  minorLimit : Nat
  /-- Young words since the last request. The counter itself has 64 bits; an allocation adds `maxYoungWords` at most,
  so that the two agree for fewer than `2 ^ 56` allocations. -/
  minorWords : Nat
  /-- Whether requests are made at all yet. -/
  ready : Bool
  /-- The words live at each minor collection asked for, in order. -/
  requests : List Nat
deriving DecidableEq, Repr

namespace Heap

def empty (maxWords minorLimit : Nat) : Heap :=
  { cells := [], freeList := [], liveWords := 0, maxWords, minorLimit, minorWords := 0, ready := false,
    requests := [] }

/-! ### Looking up -/

def cell? (h : Heap) (b : BlockId) : Option Cell := h.cells[b.index]?.join

def get? (h : Heap) (b : BlockId) : Option Object := (h.cell? b).map Cell.object

def generation? (h : Heap) (b : BlockId) : Option Generation := (h.cell? b).map Cell.generation

def contains (h : Heap) (b : BlockId) : Bool := (h.cell? b).isSome

def isYoung (h : Heap) (b : BlockId) : Bool := h.generation? b == some .young

def stack? (h : Heap) (b : BlockId) : Option Segment :=
  match h.get? b with
  | some (.stack s) => some s
  | _ => none

/-- The segment of a block that has to be a stack. -/
def stack (h : Heap) (b : BlockId) : Except Fault Segment :=
  match h.stack? b with
  | some s => .ok s
  | none => .error (.notStack b)

def capsule? (h : Heap) (b : BlockId) : Option Capsule :=
  match h.get? b with
  | some (.capsule c) => some c
  | _ => none

def fields? (h : Heap) (b : BlockId) : Option (List Word) :=
  match h.get? b with
  | some (.block _ fs) => some fs
  | _ => none

def tag? (h : Heap) (b : BlockId) : Option UInt8 :=
  match h.get? b with
  | some (.block t _) => some t
  | _ => none

def text? (h : Heap) (b : BlockId) : Option String :=
  match h.get? b with
  | some (.text s) => some s
  | _ => none

def size (h : Heap) : Nat := h.cells.countP Option.isSome

/-- Number of cells, free ones included. -/
def capacity (h : Heap) : Nat := h.cells.length

def available (h : Heap) : Nat := h.maxWords - h.liveWords

def liveStacks (h : Heap) : List (BlockId × Segment) :=
  h.cells.zipIdx.filterMap fun p =>
    match p.1.map Cell.object with
    | some (.stack s) => some (.ofIndex p.2, s)
    | _ => none

/-- The stacks that carry the dirty mark of a domain, by index. -/
def dirtiedBy (h : Heap) (d : DomainId) : List BlockId :=
  (h.liveStacks.filter fun p => p.2.owner == some d).map Prod.fst

/-! ### Changing -/

def set (h : Heap) (b : BlockId) (o : Object) : Heap :=
  { h with cells := h.cells.modify b.index (Option.map fun c => { c with object := o }) }

def setStack (h : Heap) (b : BlockId) (s : Segment) : Heap := h.set b (.stack s)

/-- Charge words to the budget and decide the generation of a block of that size. -/
def reserve (h : Heap) (words : Nat) (path : AllocPath) : Except AllocError (Generation × Heap) :=
  if h.available < words then .error ⟨words, h.available⟩
  else
    let live := h.liveWords + words
    if path = .quiet ∨ maxYoungWords < words then .ok (.old, { h with liveWords := live })
    else
      let young := h.minorWords + words
      if h.ready ∧ h.minorLimit < young then
        .ok (.young, { h with liveWords := live, minorWords := 0, requests := h.requests ++ [live] })
      else .ok (.young, { h with liveWords := live, minorWords := young })

/-- Put a cell where a block was freed last, or behind all others. -/
def putCell (h : Heap) (c : Cell) : BlockId × Heap :=
  match h.freeList with
  | b :: rest => (b, { h with cells := h.cells.set b.index (some c), freeList := rest })
  | [] => (.ofIndex h.capacity, { h with cells := h.cells ++ [some c] })

def alloc (h : Heap) (o : Object) (path : AllocPath) : Except AllocError (BlockId × Heap) :=
  (h.reserve o.size path).map fun r => r.2.putCell ⟨r.1, o⟩

/-- Free a live block and return what it held. -/
def free (h : Heap) (b : BlockId) : Option (Object × Heap) :=
  (h.get? b).map fun o =>
    (o, { h with cells := h.cells.set b.index none, liveWords := h.liveWords - o.size, freeList := b :: h.freeList })

def discard (h : Heap) (b : BlockId) : Heap := ((h.free b).map Prod.snd).getD h

/-- Move a live block to the old generation. -/
def promote (h : Heap) (b : BlockId) : Heap :=
  { h with cells := h.cells.modify b.index (Option.map fun c => { c with generation := .old }) }

/-- From now on due collections are asked for. -/
def markReady (h : Heap) : Heap := { h with ready := true }

/-! ### What a block holds after a change -/

@[simp] theorem size_empty (m l : Nat) : (empty m l).size = 0 := rfl

@[simp] theorem available_empty (m l : Nat) : (empty m l).available = m := rfl

@[simp] theorem capacity_set (h : Heap) (b : BlockId) (o : Object) : (h.set b o).capacity = h.capacity := by
  simp [set, capacity]

theorem cell?_set (h : Heap) (b c : BlockId) (o : Object) :
    (h.set b o).cell? c = if c = b then (h.cell? b).map fun x => { x with object := o } else h.cell? c := by
  by_cases hc : c = b
  · subst hc
    cases hx : h.cells[c.index]? <;> simp [cell?, set, hx]
  · have hi : b.index ≠ c.index := fun hi => hc (BlockId.index_inj hi).symm
    simp [cell?, set, hi, hc]

theorem get?_set (h : Heap) (b c : BlockId) (o : Object) :
    (h.set b o).get? c = if c = b then (h.get? b).map fun _ => o else h.get? c := by
  by_cases hc : c = b <;> cases hx : h.cell? b <;> simp [get?, cell?_set, hc, hx]

theorem cell?_promote (h : Heap) (b c : BlockId) :
    (h.promote b).cell? c = if c = b then (h.cell? b).map fun x => { x with generation := .old } else h.cell? c := by
  by_cases hc : c = b
  · subst hc
    cases hx : h.cells[c.index]? <;> simp [cell?, promote, hx]
  · have hi : b.index ≠ c.index := fun hi => hc (BlockId.index_inj hi).symm
    simp [cell?, promote, hi, hc]

theorem cell?_free {h h' : Heap} {b : BlockId} {o : Object} (hf : h.free b = some (o, h')) (c : BlockId) :
    h'.cell? c = if c = b then none else h.cell? c := by
  obtain ⟨x, -, hx⟩ := Option.map_eq_some_iff.1 hf
  obtain rfl : _ = h' := (Prod.mk.inj hx).2
  by_cases hc : c = b
  · subst hc
    simp only [cell?, List.getElem?_set, if_true]
    split <;> rfl
  · have hi : b.index ≠ c.index := fun hi => hc (BlockId.index_inj hi).symm
    simp [cell?, hi, hc]

/-! ### When memory runs out -/

theorem reserve_eq_error_iff {h : Heap} {n : Nat} {p : AllocPath} {e : AllocError} :
    h.reserve n p = .error e ↔ h.available < n ∧ e = ⟨n, h.available⟩ := by
  unfold reserve
  split
  · simp [*, eq_comm]
  · simp only [*, false_and, iff_false]
    repeat' split
    all_goals simp

theorem alloc_eq_error_iff {h : Heap} {o : Object} {p : AllocPath} {e : AllocError} :
    h.alloc o p = .error e ↔ h.available < o.size ∧ e = ⟨o.size, h.available⟩ := by
  rw [← reserve_eq_error_iff, alloc]
  cases h.reserve o.size p <;> simp [Except.map]

end Heap

end FiberStacks
