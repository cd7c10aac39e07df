import FiberStacks.Exn
import FiberStacks.Word

/-!
# Faults and failures

Three ways in which an operation can end badly, each a type of causes with one function for its wording.

* `Fault` — an assertion of the machinery was violated; nothing runs after it;
* `Failure` — an operation was refused for a reason the program can handle;
* `Fatal` — the process ends: an exception nobody catches, or one asked for before it exists.
-/

namespace FiberStacks

/-- Operations that are forbidden inside a blocking section. -/
inductive Guarded where
  | push
  | pop
  | grow
  | switch
deriving DecidableEq, Repr

def Guarded.text : Guarded → String
  | push => "push"
  | pop => "pop"
  | grow => "realloc_stack"
  | switch => "switch_stack"

inductive Fault where
  /-- A stack pointer outside its segment. -/
  | pointerOutside (pointer : Int) (capacity : Nat)
  /-- A write to a word outside a segment. -/
  | offsetOutside (offset : Int) (capacity : Nat)
  /-- Used words copied into a segment too small for them. -/
  | copyTooLarge (used capacity : Nat)
  /-- A piece of memory larger than any machine has. -/
  | sizeTooLarge
  /-- A sum of sizes that does not fit in 64 bits. -/
  | sumTooLarge
  /-- A product of sizes that does not fit in 64 bits. -/
  | productTooLarge
  /-- A domain without a current stack asked to use it. -/
  | noCurrentStack (domain : DomainId)
  /-- A block that is not a live stack where one is needed. -/
  | notStack (block : BlockId)
  /-- A stack that carries the dirty mark of another domain. -/
  | foreignMark (block : BlockId) (owner domain : DomainId)
  /-- Growth of a stack that carries the dirty mark of another domain. -/
  | foreignGrowth (block : BlockId)
  /-- Parent links that never end. -/
  | parentCycle (head : BlockId)
  /-- A return address without a descriptor. -/
  | noDescriptor (address : UInt64)
  /-- A frame walk beyond the high end. -/
  | walkOutside (index : Nat)
  /-- A live register in a chunk that saved none. -/
  | noRegisters (register : Nat)
  /-- A live slot beyond the high end. -/
  | slotOutside (index : Nat)
  /-- A context header that is neither null nor an offset in the segment. -/
  | corruptHeader (header : Word) (index : Nat)
  /-- A frame walk that does not end. -/
  | endlessWalk
  /-- A guarded operation inside a blocking section. -/
  | blocked (operation : Guarded) (domain : DomainId)
  /-- A blocking section left more often than entered. -/
  | notBlocking
  /-- A local frame left out of order. -/
  | notInnermost (marker : Nat)
  /-- A local frame left with locks held. -/
  | locksHeld (count : Nat)
  /-- A platform lock unlocked that is not held. -/
  | notHeld (lock : String)
  /-- A raise carried to a domain with no pending exception. -/
  | nothingPending
  /-- A protected region that did not restore the handlers. -/
  | unbalanced
  /-- An exception with more arguments than a young block holds. -/
  | tooManyArguments (count : Nat)
  /-- A stack saved twice for one collection. -/
  | alreadySaved
  /-- A context header wanted on an empty stack. -/
  | noHeader
deriving DecidableEq, Repr

def Fault.message : Fault → String
  | pointerOutside p c =>
    "stack pointer " ++ Text.signed p ++ " outside segment of " ++ Text.decimal c ++ " words"
  | offsetOutside o c => "word offset " ++ Text.signed o ++ " outside segment of " ++ Text.decimal c ++ " words"
  | copyTooLarge u c =>
    "cannot copy " ++ Text.decimal u ++ " used words into a segment of " ++ Text.decimal c ++ " words"
  | sizeTooLarge => "capacity overflow"
  | sumTooLarge => "attempt to add with overflow"
  | productTooLarge => "attempt to multiply with overflow"
  | noCurrentStack d => d.text ++ " has no current stack"
  | notStack b => b.text ++ " is not a live stack segment"
  | foreignMark b o d => b.text ++ " is dirty for " ++ o.text ++ ", cannot be dirtied by " ++ d.text
  | foreignGrowth b => "growing " ++ b.text ++ " which is dirty for another domain"
  | parentCycle b => "cycle in the parent chain of " ++ b.text
  | noDescriptor a => "no frame descriptor for return address " ++ Text.hex a.toNat
  | walkOutside i => "frame walk left the segment at word " ++ Text.decimal i
  | noRegisters r => "register slot " ++ Text.decimal r ++ " in a chunk without saved registers"
  | slotOutside i => "live slot at word " ++ Text.decimal i ++ " is outside the segment"
  | corruptHeader w i => "corrupt context header " ++ w.text ++ " at word " ++ Text.decimal i
  | endlessWalk => "frame walk does not end"
  | blocked g d => g.text ++ " called inside a blocking section on " ++ d.text
  | notBlocking => "leaving a blocking section that was never entered"
  | notInnermost m => "local frame " ++ Text.decimal m ++ " is not the innermost frame"
  | locksHeld n => "local frame left with " ++ Text.decimal n ++ " locks held"
  | notHeld l => "unlocking " ++ l ++ " which is not held"
  | nothingPending => "exception raised without a pending bucket"
  | unbalanced => "protected region left the handler stack unbalanced"
  | tooManyArguments n => "exception with " ++ Text.decimal n ++ " arguments does not fit a young block"
  | alreadySaved => "stack already saved for collection"
  | noHeader => "no context header on an empty stack"

inductive Failure where
  | outOfMemory
  | stackOverflow (required limit : Nat)
  | invalidArgument (text : String)
deriving DecidableEq, Repr

def Failure.kind : Failure → String
  | outOfMemory => "OutOfMemory"
  | stackOverflow _ _ => "StackOverflow"
  | invalidArgument _ => "InvalidArgument"

def Failure.message : Failure → String
  | outOfMemory => "out of memory"
  | stackOverflow r l =>
    "stack overflow: " ++ Text.decimal r ++ " words requested, limit is " ++ Text.decimal l ++ " words"
  | invalidArgument t => "invalid argument: " ++ t

structure AllocError where
  requested : Nat
  available : Nat
deriving DecidableEq, Repr

namespace AllocError

def message (e : AllocError) : String :=
  "heap exhausted: " ++ Text.decimal e.requested ++ " words requested, " ++ Text.decimal e.available ++ " available"

/-- Whatever was asked for, the heap ran out of memory. -/
def toFailure (_ : AllocError) : Failure := .outOfMemory

end AllocError

/-- A predefined exception asked for too early. -/
inductive BootFault where
  /-- Before the table of identifiers exists. -/
  | noTable (exn : Exn)
  /-- On a domain that is not set up yet. -/
  | domainNotReady (exn : Exn)
deriving DecidableEq, Repr

def BootFault.kind : BootFault → String
  | noTable _ => "Initialisation"
  | domainNotReady _ => "DomainCreation"

def BootFault.message : BootFault → String
  | noTable e => "Fatal error " ++ e.symbol ++ " during initialisation"
  | domainNotReady e => "Fatal error " ++ e.symbol ++ " during domain creation"

inductive Fatal where
  /-- An exception outside every protected region, as printed. -/
  | uncaught (exception : String)
  | boot (fault : BootFault)
deriving DecidableEq, Repr

namespace Fatal

def message : Fatal → String
  | uncaught e => "Fatal error: exception " ++ e
  | boot f => f.message

/-- The exit status of a process that ends this way. -/
def exitCode : Nat := 2

end Fatal

end FiberStacks
