import FiberStacks.Heap.Mark
import FiberStacks.Segment.Roots

/-!
# Roots of the stacks in the heap

* `Heap.scanStack` — the roots of one stack;
* `Heap.scanIfDirty` — the roots of a stack that carries the mark of a domain;
* `Heap.scanFrom` — the roots of every stack that can be reached from some blocks, through the words of stacks and
  through full capsules, each stack once and in breadth-first order.
-/

namespace FiberStacks.Heap

variable {τ : Type}

def scanStack (h : Heap) (layout : Layout) (v : Visitor τ) (b : BlockId) (t : τ) : Except Fault (Heap × τ) := do
  let s ← h.stack b
  match Segment.scan layout v (s, t) with
  | (.ok _, s', t') => .ok (h.setStack b s', t')
  | (.error f, _) => .error f

/-- Show the roots of a stack if it carries the mark of a domain, and tell whether it did. -/
def scanIfDirty (h : Heap) (layout : Layout) (v : Visitor τ) (d : DomainId) (b : BlockId) (t : τ) :
    Except Fault (Bool × Heap × τ) := do
  let s ← h.stack b
  if s.owner = some d then (h.scanStack layout v b t).map fun r => (true, r.1, r.2)
  else .ok (false, h, t)

/-- The stack a block leads to: itself, or the head a full capsule holds. -/
def leadsTo (h : Heap) (b : BlockId) : Option BlockId :=
  match h.get? b with
  | some (.stack _) => some b
  | some (.capsule c) => c.head?
  | _ => none

/-- At most so many more scans of queued stacks; `seen` holds the ones scanned before. -/
def scanQueue (layout : Layout) (v : Visitor τ) :
    (scans : Nat) → Heap → (queue seen : List BlockId) → τ → Except Fault (Nat × Heap × τ)
  | 0, h, _, seen, t => .ok (seen.length, h, t)
  | n + 1, h, queue, seen, t =>
    match queue.dropWhile fun b => seen.contains b || (h.stack? b).isNone with
    | [] => .ok (seen.length, h, t)
    | b :: rest => do
      let (h', t', found) ← h.scanStack layout v.following b (t, [])
      scanQueue layout v n h' (rest ++ found.filterMap h'.leadsTo) (b :: seen) t'

/-- **Show the roots of every stack reachable from `roots`,** and count the stacks. -/
def scanFrom (h : Heap) (layout : Layout) (v : Visitor τ) (roots : List BlockId) (t : τ) :
    Except Fault (Nat × Heap × τ) :=
  scanQueue layout v h.capacity h roots [] t

end FiberStacks.Heap
