import FiberStacks.Action
import FiberStacks.Frame.Table
import FiberStacks.Segment

/-!
# Roots of a segment

A collector is shown every root of a segment and may store another word in its place: first the handlers and the
parent link, then the used words. Under the bytecode layout these are all used words, from the stack pointer up.
Under the native layout they are the live slots of the frames, found by walking chunk by chunk:

* two words of context header, the first of them null or the offset of the saved registers;
* the return address of the topmost frame;
* the frames, each as long as its descriptor says and ending in the return address of its caller;
* after a frame whose return address is a boundary, two link words, and then the next chunk.

Positions count words from the low end, so that the walk goes up to the capacity of the segment. A walk need not
end: a frame of no words leads to itself. `NativeWalk.run` therefore takes a number of steps, and `Segment.scan`
takes more steps than any walk that ends can need on a real machine.
-/

namespace FiberStacks

/-- What a collector does with a root: the word to store in its place, and its own new state. -/
def Visitor (τ : Type) : Type := Word → τ → Word × τ

namespace Visitor

variable {τ : Type}

/-- Note each root shown, in order, and store `f` of it. -/
def recording (f : Word → Word) : Visitor (List Word) := fun w seen => (f w, seen ++ [w])

/-- Note also the blocks that the stored words name, in order. -/
def following (v : Visitor τ) : Visitor (τ × List BlockId) := fun w t =>
  let r := v w t.1
  (r.1, r.2, t.2 ++ r.1.block?.toList)

def visitAll (v : Visitor τ) : List Word → τ → List Word × τ
  | [], t => ([], t)
  | w :: ws, t =>
    let r := v w t
    let rs := v.visitAll ws r.2
    (r.1 :: rs.1, rs.2)

theorem length_visitAll (v : Visitor τ) (ws : List Word) (t : τ) : (v.visitAll ws t).1.length = ws.length := by
  induction ws generalizing t with
  | nil => rfl
  | cons w ws ih => simp [visitAll, ih]

theorem visitAll_recording (f : Word → Word) (ws seen : List Word) :
    (recording f).visitAll ws seen = (ws.map f, seen ++ ws) := by
  induction ws generalizing seen with
  | nil => simp [visitAll]
  | cons w ws ih => simp [visitAll, ih, recording]

end Visitor

inductive Layout where
  /-- Every used word may be a reference. -/
  | bytecode
  /-- Frames as described by a table. -/
  | native (table : FrameTable)
deriving DecidableEq, Repr

/-- Whether frames are described by a table. -/
def Layout.isNative : Layout → Bool
  | bytecode => false
  | native _ => true

def contextHeaderWords : Nat := 2

/-- Words between a boundary frame and the next chunk. -/
def chunkLinkWords : Nat := 2

/-- What a walk works on: the segment and the state of the visitor. -/
abbrev Walk (τ : Type) := Action Fault (Segment × τ)

namespace NativeWalk

variable {τ : Type}

inductive Cursor where
  /-- At the context header of a chunk. -/
  | chunk (position : Nat)
  /-- At the first word of a frame, reached through a return address. -/
  | frame (registers : Option Nat) (position : Nat) (address : UInt64)
deriving DecidableEq, Repr

/-- The word at a position, which has to be inside the segment. -/
def wordAt (i : Nat) : Walk τ Word := fun s =>
  match s.1.wordAt? i with
  | some w => (.ok w, s)
  | none => (.error (.walkOutside i), s)

/-- Where the saved registers of a chunk begin, if it has any. -/
def registersOf (s : Segment) (header : Word) (position : Nat) : Except Fault (Option Nat) :=
  if header = .null then .ok none
  else
    match header.int?.bind s.index? with
    | some i => .ok (some i)
    | none => .error (.corruptHeader header position)

def slotPosition (registers : Option Nat) (position : Nat) : LiveSlot → Except Fault Nat
  | .register r =>
    match registers with
    | some base => .ok (base + r.toNat)
    | none => .error (.noRegisters r.toNat)
  | .stack offset => .ok (position + offset.toNat / wordBytes)

def visitAt (v : Visitor τ) (i : Nat) : Walk τ Unit := fun s =>
  match s.1.wordAt? i with
  | some w =>
    let r := v w s.2
    (.ok (), s.1.setWordAt i r.1, r.2)
  | none => (.error (.slotOutside i), s)

/-- Show the live slots of a frame, in the order of its descriptor. -/
def visitSlots (v : Visitor τ) (registers : Option Nat) (position : Nat) : List LiveSlot → Walk τ Unit
  | [] => pure ()
  | l :: ls => do
    let i ← Action.ofExcept (slotPosition registers position l)
    visitAt v i
    visitSlots v registers position ls

/-- From a chunk to its topmost frame, or to the end. -/
def enterChunk (position : Nat) : Walk τ (Option Cursor) := do
  let (s, _) ← Action.state
  if position = s.capacity then return none
  let header ← wordAt position
  let registers ← Action.ofExcept (registersOf s header position)
  let top := position + contextHeaderWords
  if top = s.capacity then return none
  let address ← wordAt top
  return some (.frame registers (top + 1) address.bits)

/-- From a frame to the next one, or past a boundary to the next chunk. -/
def leaveFrame (table : FrameTable) (v : Visitor τ) (registers : Option Nat) (position : Nat) (address : UInt64) :
    Walk τ (Option Cursor) :=
  match table.find? address with
  | none => Action.stop (.noDescriptor address)
  | some d =>
    if d.isBoundary then pure (some (.chunk (position + chunkLinkWords)))
    else do
      visitSlots v registers position d.live
      let next := position + d.words
      let caller ← wordAt (next - 1)
      return some (.frame registers next caller.bits)

/-- One step of a walk; nothing is left after the last one. -/
def step (table : FrameTable) (v : Visitor τ) : Cursor → Walk τ (Option Cursor)
  | .chunk p => enterChunk p
  | .frame r p a => leaveFrame table v r p a

/-- At most so many steps of a walk, and where it stands after them if it is not at its end. -/
def run (table : FrameTable) (v : Visitor τ) : Nat → Cursor → Walk τ (Option Cursor)
  | 0, c => pure (some c)
  | n + 1, c => do
    match ← step table v c with
    | none => return none
    | some c' => run table v n c'

theorem run_add {table : FrameTable} {v : Visitor τ} {n : Nat} {c : Cursor} {s : Segment × τ}
    (h : ∀ c', (run table v n c s).1 ≠ .ok (some c')) (m : Nat) :
    run table v (n + m) c s = run table v n c s := by
  induction n generalizing c s with
  | zero => exact absurd rfl (h c)
  | succ n ih =>
    rw [Nat.succ_add]
    simp only [run, Action.bind_apply] at h ⊢
    rcases hx : step table v c s with ⟨_ | _ | c', s'⟩
    · rfl
    · rfl
    · simp only [hx] at h
      exact ih h

/-- More steps than a walk of so many words that ends can need. -/
def stepLimit (capacity : Nat) : Nat := (1 <<< 64) + capacity

def scan (table : FrameTable) (v : Visitor τ) : Walk τ Unit := do
  let (s, _) ← Action.state
  if s.used = 0 then return
  match ← run table v (stepLimit s.capacity) (.chunk (s.capacity - s.used)) with
  | none => return
  | some _ => Action.stop .endlessWalk

end NativeWalk

namespace Segment

variable {τ : Type}

def visitMetadata (v : Visitor τ) (s : Segment) (t : τ) : Segment × τ :=
  let value := v s.handlers.value t
  let exception := v s.handlers.exception value.2
  let effect := v s.handlers.effect exception.2
  let link := v s.link effect.2
  ({ s with handlers := ⟨value.1, exception.1, effect.1⟩, link := link.1 }, link.2)

def visitUsed (v : Visitor τ) (s : Segment) (t : τ) : Segment × τ :=
  let r := v.visitAll s.usedRegion t
  (s.setUsedRegion r.1 (by rw [Visitor.length_visitAll, length_usedRegion]), r.2)

/-- **Show every root of a segment.** -/
def scan (layout : Layout) (v : Visitor τ) : Walk τ Unit := do
  Action.modify fun s => visitMetadata v s.1 s.2
  match layout with
  | .bytecode => Action.modify fun s => visitUsed v s.1 s.2
  | .native table => NativeWalk.scan table v

end Segment

end FiberStacks
