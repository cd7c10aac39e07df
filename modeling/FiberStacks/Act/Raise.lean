import FiberStacks.Act.Frames
import FiberStacks.Heap.Exception

/-!
# Raising and protecting

A raise makes an exception pending and unwinds to the innermost protected region: the local frames entered since
are dropped, the locks taken since are released, and the blocking depth is restored. Outside every protected region
it ends the process.

* `Act.raise` and its relatives for the predefined exceptions;
* `Act.protect` — run an action in a protected region and catch what it raises;
* `Act.raiseFailure` — the exception that stands for a failure.
-/

namespace FiberStacks

/-- The identifier of a predefined exception, if it can be used already. -/
def Active.exception (s : Active) (e : Exn) : Except BootFault Word :=
  match s.world.table with
  | none => .error (.noTable e)
  | some ws => if s.domain.ready then .ok (ws[e.index]?.getD .unit) else .error (.domainNotReady e)

namespace Act

variable {α : Type}

def unwindTo (c : HandlerContext) : Act Unit := do
  let r := (← domain).frames.unwind c.frames c.records
  modifyDomain fun d => { d with frames := r.2, blocking := c.blocking }
  unlockAll (r.1.map LockRecord.lock)

/-- **Raise an exception.** -/
def raise (bucket : Word) : Act α := do
  modifyDomain fun d => { d with pending := some bucket }
  match (← domain).handlers with
  | [] => die (.uncaught ((← heap).formatException bucket))
  | c :: _ =>
    unwindTo c
    Action.stop .raised

/-- The identifier of a predefined exception; asking too early ends the process. -/
def exception (e : Exn) : Act Word := do
  match (← Action.state).exception e with
  | .ok w => return w
  | .error f => die (.boot f)

def raiseExn (e : Exn) : Act α := do raise (← exception e)

/-- Raise an exception with arguments, or run out of memory. -/
def raiseWith (tag : Word) (args : List Word) : Act α := do
  require (1 + args.length ≤ maxYoungWords) (.tooManyArguments args.length)
  match ← allocate (.block 0 (tag :: args)) .normal with
  | .ok b => raise (.ofBlock b)
  | .error _ => raiseExn .outOfMemory

/-- Raise an exception with a text as its argument, or run out of memory. -/
def raiseText (tag : Word) (s : String) : Act α := do
  match ← allocate (.text s) .normal with
  | .ok b => raiseWith tag [.ofBlock b]
  | .error _ => raiseExn .outOfMemory

/-- Raise a predefined exception with a text as its argument. -/
def raiseExnText (e : Exn) (s : String) : Act α := do raiseText (← exception e) s

def raiseSystemError (arg : Word) : Act α := do raiseWith (← exception .sysError) [arg]

def raiseIndexError : Act α := raiseExnText .invalidArgument "index out of bounds"

/-- Raise the exception that stands for a failure. -/
def raiseFailure : Failure → Act α
  | .outOfMemory => raiseExn .outOfMemory
  | .stackOverflow r l => do
    note (.overflow r l)
    raiseExn .stackOverflow
  | .invalidArgument s => raiseExnText .invalidArgument s

/-- Return a value, or raise the exception that stands for a failure. -/
def orRaise : Except Failure α → Act α
  | .ok a => pure a
  | .error f => raiseFailure f

/-- Whether an exception carries a place in a source text. -/
def isSpecial (w : Word) : Act Bool := do
  if w = (← exception .matchFailure) then return true
  if w = (← exception .assertFailure) then return true
  return w = (← exception .undefinedRecursiveModule)

/-- Enter a protected region, and return how many there were before. -/
def enterRegion : Act Nat := do
  let depth := (← domain).handlers.length
  modifyDomain Domain.enterRegion
  return depth

/-- Leave the protected region entered at a depth. -/
def leaveRegion (depth : Nat) : Act Unit := do
  require ((← domain).handlers.length = depth + 1) .unbalanced
  modifyDomain fun d => { d with handlers := d.handlers.tail }

/-- Take the pending exception, which has to be there. -/
def takePending : Act Word := do
  match (← domain).pending with
  | none => fault .nothingPending
  | some bucket =>
    modifyDomain fun d => { d with pending := none }
    return bucket

/-- **Run an action in a protected region:** its value, or the exception it raised. -/
def protect (body : Act α) : Act (Except Word α) := do
  let depth ← enterRegion
  match ← Action.attempt body with
  | .ok a =>
    leaveRegion depth
    return .ok a
  | .error .raised =>
    leaveRegion depth
    return .error (← takePending)
  | .error stop => Action.stop stop

end Act

end FiberStacks
