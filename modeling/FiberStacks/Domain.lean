import FiberStacks.Lock
import FiberStacks.Heap.Mark

/-!
# Domains

A domain is one worker: it runs on one stack at a time and keeps everything that is private to it.

* `Registers` — the current stack and its live stack pointer, which runs ahead of the one in the segment;
* `LocalFrame`, `LocalFrames` — the roots and locks of the native frames, above a base frame that is always there;
* `HandlerContext` — how far an unwinding to a protected region goes back;
* `Domain` — all of it, with pending exception and blocking depth.
-/

namespace FiberStacks

/-- The current stack of a domain. -/
structure Registers where
  current : BlockId
  /-- Words used right now. -/
  used : Nat
  capacity : Nat
deriving DecidableEq, Repr

namespace Registers

/-- The live stack pointer, relative to the high end. -/
def pointer (r : Registers) : Int := -↑r.used

def headroom (r : Registers) : Nat := r.capacity - r.used

end Registers

/-- The roots a native frame registered and the locks it has taken. -/
structure LocalFrame where
  roots : List Word
  ledger : Ledger
deriving DecidableEq, Repr

namespace LocalFrame

def ofRoots (roots : List Word) : LocalFrame := ⟨roots, .empty⟩

end LocalFrame

structure LocalFrames where
  /-- Frames above the base frame, innermost first. -/
  inner : List LocalFrame
  base : LocalFrame
deriving DecidableEq, Repr

namespace LocalFrames

def initial : LocalFrames := ⟨[], .ofRoots []⟩

/-- Number of frames, the base frame included. -/
def depth (f : LocalFrames) : Nat := f.inner.length + 1

def innermost (f : LocalFrames) : LocalFrame := f.inner.headD f.base

def setInnermost (f : LocalFrames) (x : LocalFrame) : LocalFrames :=
  match f.inner with
  | [] => { f with base := x }
  | _ :: rest => { f with inner := x :: rest }

def push (f : LocalFrames) (x : LocalFrame) : LocalFrames := { f with inner := x :: f.inner }

/-- Leave the innermost frame, unless it is the base frame. -/
def pop? (f : LocalFrames) : Option (LocalFrame × LocalFrames) :=
  match f.inner with
  | [] => none
  | x :: rest => some (x, { f with inner := rest })

/-- All frames, oldest first. -/
def toList (f : LocalFrames) : List LocalFrame := f.base :: f.inner.reverse

/-- The frames of a list, oldest first, above an empty base frame if there are none. -/
def ofList : List LocalFrame → LocalFrames
  | [] => initial
  | base :: rest => ⟨rest.reverse, base⟩

/-- All locks taken, oldest frame first and oldest lock first. -/
def records (f : LocalFrames) : List LockRecord := f.toList.flatMap fun x => x.ledger.records

/-- Drop the record of a lock from the innermost frame that has it. -/
def remove? (f : LocalFrames) (id : LockId) : Option (LockRecord × LocalFrames) :=
  match go f.inner with
  | some (r, inner) => some (r, { f with inner })
  | none => (f.base.ledger.remove? id).map fun r => (r.1, { f with base := { f.base with ledger := r.2 } })
where
  /-- The same in the frames above the base frame. -/
  go : List LocalFrame → Option (LockRecord × List LocalFrame)
    | [] => none
    | x :: rest =>
      match x.ledger.remove? id with
      | some (r, ledger) => some (r, { x with ledger } :: rest)
      | none => (go rest).map fun p => (p.1, x :: p.2)

/-- Drop the frames above a depth and, in the frame then innermost, the records above a mark. The records dropped
come in the order of release, innermost frame and newest lock first. -/
def unwind (f : LocalFrames) (depth mark : Nat) : List LockRecord × LocalFrames :=
  let kept : LocalFrames := { f with inner := f.inner.drop (f.depth - depth) }
  let dropped := f.inner.take (f.depth - depth)
  let rest := kept.innermost.ledger.cut mark
  (dropped.flatMap (fun x => x.ledger.records.reverse) ++ rest.1,
    kept.setInnermost { kept.innermost with ledger := rest.2 })

@[simp] theorem depth_initial : initial.depth = 1 := rfl

@[simp] theorem depth_push (f : LocalFrames) (x : LocalFrame) : (f.push x).depth = f.depth + 1 := rfl

@[simp] theorem depth_setInnermost (f : LocalFrames) (x : LocalFrame) :
    (f.setInnermost x).depth = f.depth := by
  unfold setInnermost depth
  split <;> simp_all

@[simp] theorem pop?_push (f : LocalFrames) (x : LocalFrame) : (f.push x).pop? = some (x, f) := rfl

@[simp] theorem ofList_toList (f : LocalFrames) : ofList f.toList = f := by
  simp [toList, ofList]

end LocalFrames

/-- Where a protected region was entered. -/
structure HandlerContext where
  /-- Local frames at that time. -/
  frames : Nat
  /-- Records in the innermost ledger at that time. -/
  records : Nat
  /-- Blocking depth at that time. -/
  blocking : Nat
deriving DecidableEq, Repr

/-- One worker. -/
structure Domain where
  id : DomainId
  registers : Option Registers
  /-- Whether the stack is saved for a collection in progress. -/
  stackSaved : Bool
  /-- A stack of this many words or more does not grow. -/
  limit : Nat
  remembered : Remembered
  /-- The protected regions, innermost first. -/
  handlers : List HandlerContext
  frames : LocalFrames
  /-- The exception on its way to the innermost protected region. -/
  pending : Option Word
  /-- Blocking sections entered and not left. -/
  blocking : Nat
  /-- Whether the domain can raise predefined exceptions. -/
  ready : Bool
deriving DecidableEq, Repr

namespace Domain

def fresh (id : DomainId) (limit : Nat) : Domain :=
  { id, registers := none, stackSaved := false, limit, remembered := .empty, handlers := [], frames := .initial,
    pending := none, blocking := 0, ready := false }

def current? (d : Domain) : Option BlockId := d.registers.map Registers.current

/-- Words used on the current stack, none without one. -/
def used (d : Domain) : Nat := (d.registers.map Registers.used).getD 0

def headroom (d : Domain) : Nat := (d.registers.map Registers.headroom).getD 0

theorem current?_of_registers {d : Domain} {r : Registers} (h : d.registers = some r) :
    d.current? = some r.current :=
  congrArg (Option.map Registers.current) h

theorem used_of_registers {d : Domain} {r : Registers} (h : d.registers = some r) : d.used = r.used := by
  rw [used, h]
  rfl

theorem headroom_of_registers {d : Domain} {r : Registers} (h : d.registers = some r) :
    d.headroom = r.headroom := by
  rw [headroom, h]
  rfl

/-- Whether an offset is inside a stack and that stack is the current one. -/
def isOnCurrent (d : Domain) (b : BlockId) (offset : Int) : Bool :=
  match d.registers with
  | some r => r.current == b && decide (offset < 0) && decide (offset.natAbs ≤ r.capacity)
  | none => false

def heldLocks (d : Domain) : Nat := d.frames.toList.foldl (fun n f => n + f.ledger.size) 0

def enterRegion (d : Domain) : Domain :=
  { d with handlers := ⟨d.frames.depth, d.frames.innermost.ledger.size, d.blocking⟩ :: d.handlers }

end Domain

end FiberStacks
