import FiberStacks.Action
import FiberStacks.World

/-!
# Actions of a domain

An action of a domain runs on the domain and the world around it. It returns, raises an exception that is pending
from then on, violates an assertion or ends the process.
-/

namespace FiberStacks

inductive Stop where
  /-- An exception is pending and unwinding is done. -/
  | raised
  | fault (cause : Fault)
  | fatal (cause : Fatal)
deriving DecidableEq, Repr

structure Active where
  domain : Domain
  world : World
deriving DecidableEq, Repr

abbrev Act := Action Stop Active

namespace Act

variable {α : Type}

def domain : Act Domain := Action.view Active.domain

def heap : Act Heap := Action.view fun s => s.world.heap

def config : Act Config := Action.view fun s => s.world.config

def layout : Act Layout := Action.view fun s => s.world.layout

def modifyDomain (f : Domain → Domain) : Act Unit := Action.modify fun s => { s with domain := f s.domain }

def modifyWorld (f : World → World) : Act Unit := Action.modify fun s => { s with world := f s.world }

def setHeap (h : Heap) : Act Unit := modifyWorld fun w => w.adopt h

def note (n : Notice) : Act Unit := modifyWorld fun w => w.note n

def fault (f : Fault) : Act α := Action.stop (.fault f)

/-- Return a value, or stop at a violated assertion. -/
def check : Except Fault α → Act α
  | .ok a => pure a
  | .error f => fault f

def require (p : Prop) [Decidable p] (f : Fault) : Act Unit := if p then pure () else fault f

/-- Note a size, in kibibytes: writing the entry takes its bytes, which have to fit in 64 bits. -/
def noteSize (entry : Nat → Notice) (words : Nat) : Act Unit := do
  if (← Action.view fun s => s.world.verbose) then
    let _ ← check (Size.bytes words)
  note (entry words)

def die (x : Fatal) : Act α := do
  note (.processEnded x)
  Action.stop (.fatal x)

def allocate (o : Object) (path : AllocPath) : Act (Except AllocError BlockId) := fun s =>
  match s.world.allocate o path with
  | .ok (b, w) => (.ok (.ok b), { s with world := w })
  | .error e => (.ok (.error e), s)

def registers : Act Registers := do
  let d ← domain
  match d.registers with
  | some r => return r
  | none => fault (.noCurrentStack d.id)

/-- The segment of a block that has to be a stack. -/
def stack (b : BlockId) : Act Segment := do check ((← heap).stack b)

def setStack (b : BlockId) (s : Segment) : Act Unit := do setHeap ((← heap).setStack b s)

/-- Refuse a guarded operation inside a blocking section. -/
def guardBlocking (g : Guarded) : Act Unit := do
  let d ← domain
  require (d.blocking = 0) (.blocked g d.id)

def enterBlocking : Act Unit := modifyDomain fun d => { d with blocking := d.blocking + 1 }

def leaveBlocking : Act Unit := do
  require (0 < (← domain).blocking) .notBlocking
  modifyDomain fun d => { d with blocking := d.blocking - 1 }

/-- Run an action inside a blocking section. -/
def blocking (a : Act α) : Act α := do
  enterBlocking
  let r ← a
  leaveBlocking
  return r

end Act

end FiberStacks
