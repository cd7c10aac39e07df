import FiberStacks.Heap

/-!
# Chains of stacks

The parent links of stacks form chains, and a captured continuation is a capsule over the head of one.

* `Heap.chain` — the stacks of a chain, head first;
* `Heap.capture`, `Heap.takeHead` — put a chain into a capsule, and take it out again;
* `Heap.cloneChain` — copy the chain a capsule holds into a new capsule, completely or not at all;
* `Heap.reverseChain` — turn the links of a chain round, so that it ends in another stack.

A chain can have no more stacks than the heap has cells, so a walk that gets further has met a cycle.
-/

namespace FiberStacks.Heap

/-- The chain of a stack, given up after so many links; `head` is where it began. -/
def chainWithin (h : Heap) (head : BlockId) : Nat → BlockId → Except Fault (List BlockId)
  | 0, _ => .error (.parentCycle head)
  | n + 1, b => do
    let s ← h.stack b
    match s.parent? with
    | none => .ok [b]
    | some p => (h.chainWithin head n p).map (b :: ·)

/-- The stacks of a chain, head first. -/
def chain (h : Heap) (head : BlockId) : Except Fault (List BlockId) := h.chainWithin head (h.capacity + 1) head

def capture (h : Heap) (head : BlockId) : Except Failure (BlockId × Heap) :=
  match h.stack? head with
  | none => .error CapsuleMisuse.notStack.toFailure
  | some _ => (h.alloc (.capsule (.full head)) .normal).mapError AllocError.toFailure

/-- The head a block holds if it is a full capsule. -/
def fullHead (h : Heap) (k : BlockId) : Except Failure BlockId :=
  match h.capsule? k with
  | none => .error CapsuleMisuse.notCapsule.toFailure
  | some c => c.fullHead.mapError CapsuleMisuse.toFailure

def takeHead (h : Heap) (k : BlockId) : Except Failure (BlockId × Heap) :=
  match h.capsule? k with
  | none => .error CapsuleMisuse.notCapsule.toFailure
  | some c => (c.take.mapError CapsuleMisuse.toFailure).map fun r => (r.1, h.set k (.capsule r.2))

def relink (h : Heap) (b : BlockId) (p : Option BlockId) : Except Fault Heap :=
  (h.stack b).map fun s => h.setStack b (s.setParent p)

/-- Free the copies made so far, oldest first. -/
def discardAll (h : Heap) (copies : List BlockId) : Heap := copies.foldl discard h

/-- Copy stacks, each linked to by the copy before it; `copies` are the ones made so far. The copies come back in
order, or none is left and the heap ran out of memory. -/
def copyStacks : Heap → (sources copies : List BlockId) → Except Fault (Except Failure (List BlockId) × Heap)
  | h, [], copies => .ok (.ok copies, h)
  | h, source :: rest, copies => do
    let s ← h.stack source
    match h.alloc (.stack s.deepCopy) .normal with
    | .error e => .ok (.error e.toFailure, h.discardAll copies)
    | .ok (copy, h') =>
      let h'' ← match copies.getLast? with
        | some last => h'.relink last (some copy)
        | none => .ok h'
      copyStacks h'' rest (copies ++ [copy])

/-- **Copy the chain a capsule holds into a new capsule.** -/
def cloneChain (h : Heap) (k : BlockId) : Except Fault (Except Failure BlockId × Heap) :=
  match h.fullHead k with
  | .error e => .ok (.error e, h)
  | .ok head => do
    let sources ← h.chain head
    match ← h.copyStacks sources [] with
    | (.error e, h') => .ok (.error e, h')
    | (.ok copies, h') =>
      match h'.alloc (.capsule (.full (copies.headD head))) .normal with
      | .ok (clone, h'') => .ok (.ok clone, h'')
      | .error e => .ok (.error e.toFailure, h'.discardAll copies)

/-- Turn links round from `next` on, given up after so many; `stack` is where it began, `parent` the stack the next
link will point to. Returns the last stack. -/
def reverseWithin (stack : BlockId) : Nat → Heap → (parent : BlockId) → (next : Option BlockId) →
    Except Fault (BlockId × Heap)
  | _, h, parent, none => .ok (parent, h)
  | 0, _, _, some _ => .error (.parentCycle stack)
  | n + 1, h, parent, some b => do
    let s ← h.stack b
    reverseWithin stack n (h.setStack b (s.setParent (some parent))) b s.parent?

/-- **Turn the chain of a stack round,** so that it ends in `current`, and return its former last stack. -/
def reverseChain (h : Heap) (current stack : BlockId) : Except Fault (BlockId × Heap) :=
  reverseWithin stack h.capacity h current (some stack)

end FiberStacks.Heap
