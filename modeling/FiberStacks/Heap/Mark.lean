import FiberStacks.Heap

/-!
# Dirty marks

Writes to a stack pass no barrier. Instead a domain that is about to write to an old stack marks it dirty and
queues it; the next minor pass scans what is queued and clears the marks.

* `Remembered` — the stacks a domain has queued;
* `Heap.markDirty` — mark and queue, unless the stack is young or marked by the domain already;
* `Heap.clean`, `Heap.cleanAll` — clear one mark, or all marks of a domain.
-/

namespace FiberStacks

/-- Stacks queued for the next minor pass, in order. -/
structure Remembered where
  queue : List BlockId
deriving DecidableEq, Repr

namespace Remembered

def empty : Remembered := ⟨[]⟩

def push (r : Remembered) (b : BlockId) : Remembered := ⟨r.queue ++ [b]⟩

def contains (r : Remembered) (b : BlockId) : Bool := r.queue.contains b

def size (r : Remembered) : Nat := r.queue.length

def isEmpty (r : Remembered) : Bool := r.queue.isEmpty

end Remembered

namespace Heap

/-- What marking a stack changes: whether it was newly queued, the heap and the queue. -/
def markDirty (h : Heap) (d : DomainId) (r : Remembered) (b : BlockId) :
    Except Fault (Bool × Heap × Remembered) :=
  if h.isYoung b then .ok (false, h, r)
  else do
    let s ← h.stack b
    match s.owner with
    | none => .ok (true, h.setStack b { s with owner := some d }, r.push b)
    | some o => if o = d then .ok (false, h, r) else .error (.foreignMark b o d)

theorem markDirty_eq {h : Heap} {b : BlockId} {x : Segment} (d : DomainId) (r : Remembered)
    (hx : h.stack? b = some x) : h.markDirty d r b =
      if h.isYoung b then .ok (false, h, r)
      else match x.owner with
        | none => .ok (true, h.setStack b { x with owner := some d }, r.push b)
        | some o => if o = d then .ok (false, h, r) else .error (.foreignMark b o d) := by
  unfold markDirty stack
  rw [hx]
  rfl

/-- Clear the mark of a stack if it belongs to the domain, and tell whether it did. -/
def clean (h : Heap) (d : DomainId) (b : BlockId) : Except Fault (Bool × Heap) := do
  let s ← h.stack b
  if s.owner = some d then .ok (true, h.setStack b { s with owner := none }) else .ok (false, h)

def cleanAll (h : Heap) (d : DomainId) : Heap :=
  (h.dirtiedBy d).foldl (fun h b => ((h.clean d b).map Prod.snd).toOption.getD h) h

end Heap

end FiberStacks
