import FiberStacks.Act.Stack
import FiberStacks.Heap.Chain

/-!
# Continuations

A domain resumes a captured chain by hanging it under its current stack and running on the head. A capsule serves
once; to resume a chain more often, a clone of it is resumed.

* `Act.resume`, `Act.resumeCloned` — run on a captured chain, or on a copy of it;
* `Act.cloneContinuation` — copy a captured chain;
* `Act.findPerformer` — turn the chain of a stack round, so that it ends in the current stack.
-/

namespace FiberStacks.Act

/-- Copy a captured chain, the live stack pointer of the current stack included. -/
def cloneContinuation (k : BlockId) : Act BlockId := do
  syncStack
  let (r, h) ← check ((← heap).cloneChain k)
  setHeap h
  orRaise r

/-- Turn the chain of a stack round, so that it ends in the current stack. Returns its former last stack. -/
def findPerformer (b : BlockId) : Act BlockId := do
  let r ← registers
  let (last, h) ← check ((← heap).reverseChain r.current b)
  setHeap h
  return last

/-- Take the head out of a capsule, or raise. -/
def takeHead (k : BlockId) : Act BlockId := do
  match (← heap).takeHead k with
  | .error e => raiseFailure e
  | .ok (head, h) =>
    setHeap h
    return head

/-- **Resume a captured chain:** hang it under the current stack and run on its head. Returns the stack left. -/
def resume (k : BlockId) : Act BlockId := do
  let head ← takeHead k
  let current := (← registers).current
  match (← check ((← heap).chain head)).getLast? with
  | none => pure ()
  | some last => setHeap (← check ((← heap).relink last (some current)))
  switchStack head

def resumeCloned (k : BlockId) : Act BlockId := do
  resume (← cloneContinuation k)

end FiberStacks.Act
