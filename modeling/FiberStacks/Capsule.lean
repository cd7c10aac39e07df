import FiberStacks.Fault

/-!
# Capsules

A capsule holds the head of a captured chain of stacks and gives it away once: it is filled once and emptied
once, and stays spent after that.
-/

namespace FiberStacks

/-- Misuse of a capsule, or of a block taken for one. -/
inductive CapsuleMisuse where
  | alreadyFull
  | alreadyTaken
  | empty
  | notCapsule
  | notStack
deriving DecidableEq, Repr

namespace CapsuleMisuse

def message : CapsuleMisuse → String
  | alreadyFull => "continuation already full"
  | alreadyTaken => "continuation already taken"
  | empty => "continuation is empty"
  | notCapsule => "not a continuation"
  | notStack => "capture of a non-stack block"

/-- A misuse is an invalid argument. -/
def toFailure (m : CapsuleMisuse) : Failure := .invalidArgument m.message

end CapsuleMisuse

inductive Capsule where
  | empty
  | full (head : BlockId)
  | taken
deriving DecidableEq, Repr

namespace Capsule

def size : Nat := 2

def status : Capsule → String
  | empty => "empty"
  | full _ => "full"
  | taken => "taken"

def head? : Capsule → Option BlockId
  | full b => some b
  | _ => none

def put (b : BlockId) : Capsule → Except CapsuleMisuse Capsule
  | empty => .ok (full b)
  | full _ => .error .alreadyFull
  | taken => .error .alreadyTaken

/-- Why a capsule has no head to give, or the head. -/
def fullHead : Capsule → Except CapsuleMisuse BlockId
  | full b => .ok b
  | empty => .error .empty
  | taken => .error .alreadyTaken

def take (c : Capsule) : Except CapsuleMisuse (BlockId × Capsule) :=
  c.fullHead.map fun b => (b, taken)

theorem put_eq_ok_iff {c c' : Capsule} {b : BlockId} : c.put b = .ok c' ↔ c = empty ∧ c' = full b := by
  cases c <;> simp [put, eq_comm]

end Capsule

end FiberStacks
