import FiberStacks.Fault
import FiberStacks.Size

/-!
# Segments

A segment is the memory of one stack: a fixed number of word slots, used from the high end downwards, with three
handlers, a parent link and a dirty mark. A slot is named by its offset from the high end, a negative number of
words, and the stack pointer is minus the number of used words.

* `Segment.slots` — the slots by depth: slot `k` has offset `-(k + 1)`, so the used ones come first;
* `Segment.usedRegion` — the used words, from the stack pointer up to the high end (newest first);
* `Segment.word?`, `Segment.setWord` — reading and writing a word by its offset;
* `Segment.copyUsed`, `Segment.copyMetadata`, `Segment.deepCopy` — the parts of a replacement or a clone.
-/

namespace FiberStacks

/-- Slots every fiber has for its saved context, on top of the requested ones. -/
def contextWords : Nat := 16

/-- Words charged for the control fields of a segment. -/
def headerWords : Nat := 6

/-- The handlers of a fiber: for its final value, an uncaught exception and an effect. -/
structure Handlers where
  value : Word
  exception : Word
  effect : Word
deriving DecidableEq, Repr

/-- The handlers of a main stack, and of a stack that was replaced. -/
def Handlers.zero : Handlers := ⟨.unit, .unit, .unit⟩

/-- One stack. -/
structure Segment where
  /-- Number of used words. -/
  used : Nat
  /-- The domain that must rescan this segment. -/
  owner : Option DomainId
  handlers : Handlers
  /-- The parent link, as a word. -/
  link : Word
  /-- The slots, those next to the high end first. -/
  slots : List Word
  /-- The stack pointer stays within the segment. -/
  used_le : used ≤ slots.length
deriving DecidableEq, Repr

namespace Segment

def blank (capacity : Nat) (handlers : Handlers) : Segment :=
  { used := 0, owner := none, handlers, link := .unit, slots := List.replicate capacity .null, used_le := by simp }

/-- An unused segment, if memory of that size can be asked for at all. -/
def make (capacity : Nat) (handlers : Handlers) : Except Fault Segment :=
  if capacity ≤ Size.allocatable then .ok (blank capacity handlers) else .error .sizeTooLarge

def capacity (s : Segment) : Nat := s.slots.length

def size (s : Segment) : Nat := s.capacity + headerWords

/-- The stack pointer, relative to the high end. -/
def pointer (s : Segment) : Int := -↑s.used

def headroom (s : Segment) : Nat := s.capacity - s.used

/-- The used words, newest first. -/
def usedRegion (s : Segment) : List Word := (s.slots.take s.used).reverse

/-- All words, the one farthest from the high end first. -/
def allWords (s : Segment) : List Word := s.slots.reverse

/-- Move the stack pointer; it has to stay within the segment. -/
def setPointer (s : Segment) (p : Int) : Except Fault Segment :=
  if h : p ≤ 0 ∧ p.natAbs ≤ s.capacity then .ok { s with used := p.natAbs, used_le := h.2 }
  else .error (.pointerOutside p s.capacity)

/-- The place in `slots` of an offset inside the segment. -/
def depth? (s : Segment) (offset : Int) : Option Nat :=
  if offset < 0 ∧ offset.natAbs ≤ s.capacity then some (offset.natAbs - 1) else none

/-- The place of an offset counted from the low end. -/
def index? (s : Segment) (offset : Int) : Option Nat :=
  (s.depth? offset).map fun k => s.capacity - 1 - k

def word? (s : Segment) (offset : Int) : Option Word :=
  (s.depth? offset).bind fun k => s.slots[k]?

def setSlot (s : Segment) (k : Nat) (w : Word) : Segment :=
  { s with slots := s.slots.set k w, used_le := by simpa using s.used_le }

def setWord? (s : Segment) (offset : Int) (w : Word) : Option Segment :=
  (s.depth? offset).map fun k => s.setSlot k w

/-- Overwrite the word at an offset, which has to be inside the segment. -/
def setWord (s : Segment) (offset : Int) (w : Word) : Except Fault Segment :=
  match s.setWord? offset w with
  | some s' => .ok s'
  | none => .error (.offsetOutside offset s.capacity)

/-- Overwrite words at offsets, one after another. -/
def setWords (s : Segment) (ws : List (Int × Word)) : Except Fault Segment :=
  ws.foldlM (fun s p => s.setWord p.1 p.2) s

def wordAt? (s : Segment) (index : Nat) : Option Word :=
  if index < s.capacity then s.slots[s.capacity - 1 - index]? else none

def setWordAt (s : Segment) (index : Nat) (w : Word) : Segment :=
  s.setSlot (s.capacity - 1 - index) w

/-- Replace the used words by as many others, newest first. -/
def setUsedRegion (s : Segment) (ws : List Word) (h : ws.length = s.used) : Segment :=
  { s with slots := ws.reverse ++ s.slots.drop s.used, used_le := by simp [h] }

/-- Copy the used words of another segment to the same offsets. -/
def copyUsed (s source : Segment) : Except Fault Segment :=
  if h : source.used ≤ s.capacity then
    .ok { s with
      slots := source.slots.take source.used ++ s.slots.drop source.used
      used_le := by
        have := s.used_le
        have := source.used_le
        simp only [capacity, List.length_append, List.length_take, List.length_drop] at *
        omega }
  else .error (.copyTooLarge source.used s.capacity)

/-- Copy stack pointer, handlers and parent link of another segment; its dirty mark stays behind. -/
def copyMetadata (s source : Segment) : Except Fault Segment :=
  (s.setPointer source.pointer).map fun s' => { s' with handlers := source.handlers, link := source.link }

/-- A copy of everything but the dirty mark. -/
def deepCopy (s : Segment) : Segment := { s with owner := none }

/-- The parent of a stack, if its link is a reference. -/
def parent? (s : Segment) : Option BlockId := s.link.block?

def setParent (s : Segment) (p : Option BlockId) : Segment := { s with link := .ofLink p }

/-- The words the control fields hold: handlers, then parent link. -/
def metadata (s : Segment) : List Word :=
  [s.handlers.value, s.handlers.exception, s.handlers.effect, s.link]

/-- Clear the control fields of a segment that was replaced; its slots keep their words. -/
def retire (s : Segment) : Segment :=
  { s with used := 0, owner := none, handlers := .zero, link := .unit, used_le := Nat.zero_le _ }

/-- Whether all control fields are clear. -/
def isRetired (s : Segment) : Bool :=
  s.used == 0 && s.owner.isNone && s.handlers == .zero && s.link.isUnit

/-! ### Capacity and used words -/

@[simp] theorem capacity_blank (n : Nat) (h : Handlers) : (blank n h).capacity = n := by
  simp [blank, capacity]

@[simp] theorem capacity_setSlot (s : Segment) (k : Nat) (w : Word) : (s.setSlot k w).capacity = s.capacity := by
  simp [setSlot, capacity]

@[simp] theorem capacity_retire (s : Segment) : s.retire.capacity = s.capacity := rfl

theorem capacity_setPointer {s s' : Segment} {p : Int} (h : s.setPointer p = .ok s') :
    s'.capacity = s.capacity := by
  unfold setPointer at h
  split at h
  · rw [← Except.ok.inj h]; rfl
  · simp at h

theorem capacity_setWord {s s' : Segment} {o : Int} {w : Word} (h : s.setWord o w = .ok s') :
    s'.capacity = s.capacity := by
  unfold setWord setWord? at h
  cases hd : s.depth? o with
  | none => simp [hd] at h
  | some k =>
    simp only [hd, Option.map_some, Except.ok.injEq] at h
    simp [← h]

@[simp] theorem usedRegion_blank (n : Nat) (h : Handlers) : (blank n h).usedRegion = [] := by
  simp [blank, usedRegion]

@[simp] theorem length_usedRegion (s : Segment) : s.usedRegion.length = s.used := by
  simp [usedRegion, Nat.min_eq_left s.used_le]

@[simp] theorem usedRegion_setUsedRegion (s : Segment) (ws : List Word) (h : ws.length = s.used) :
    (s.setUsedRegion ws h).usedRegion = ws := by
  simp [usedRegion, setUsedRegion, ← h]

@[simp] theorem usedRegion_deepCopy (s : Segment) : s.deepCopy.usedRegion = s.usedRegion := rfl

@[simp] theorem isRetired_retire (s : Segment) : s.retire.isRetired = true := by
  simp [retire, isRetired, Word.isUnit]

theorem slots_copyUsed {s source t : Segment} (h : s.copyUsed source = .ok t) :
    t.slots = source.slots.take source.used ++ s.slots.drop source.used := by
  unfold copyUsed at h
  split at h
  · exact (congrArg slots (Except.ok.inj h)).symm
  · simp at h

theorem copyMetadata_fields {s source t : Segment} (h : s.copyMetadata source = .ok t) :
    t.slots = s.slots ∧ t.used = source.used ∧ t.handlers = source.handlers ∧ t.link = source.link
      ∧ t.owner = s.owner := by
  unfold copyMetadata setPointer at h
  split at h
  · obtain rfl := Except.ok.inj h
    simp [pointer]
  · simp [Except.map] at h

theorem usedRegion_copy {s source t u : Segment} (h : s.copyUsed source = .ok t)
    (h' : t.copyMetadata source = .ok u) : u.usedRegion = source.usedRegion := by
  obtain ⟨hs, hu, -⟩ := copyMetadata_fields h'
  have := source.used_le
  simp [usedRegion, hs, hu, slots_copyUsed h, this]

end Segment

end FiberStacks
