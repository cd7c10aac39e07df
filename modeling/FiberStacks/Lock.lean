import FiberStacks.Fault
import FiberStacks.Text.Quoted

/-!
# Locks and ledgers

A ledger records the locks that one local frame has taken, oldest first, so that an unwinding can release them in
the opposite order.

* `Lock` — a platform lock, which knows whether it is held, or a foreign one, which is only told;
* `Locks` — the state of all locks and the journal of what was done to them;
* `Ledger` — the records of one frame.
-/

namespace FiberStacks

inductive LockKind where
  /-- A mutex of the platform. -/
  | platform
  /-- A foreign lock with a name. -/
  | foreign
  /-- A foreign lock that gives no name. -/
  | anonymous
deriving DecidableEq, Repr

structure Lock where
  key : String
  kind : LockKind
deriving DecidableEq, Repr

def Lock.name (l : Lock) : String :=
  match l.kind with
  | .anonymous => "<lock>"
  | _ => l.key

inductive LockEvent where
  | locked (lock : Lock)
  | unlocked (lock : Lock)
deriving DecidableEq, Repr

/-- An event in a journal: a sign and the key of a foreign lock; platform locks leave no trace. -/
def LockEvent.text? : LockEvent → Option String
  | locked l => if l.kind = .platform then none else some ("+" ++ l.key)
  | unlocked l => if l.kind = .platform then none else some ("-" ++ l.key)

structure Locks where
  /-- The platform locks held now. -/
  held : List Lock
  /-- What was done to locks, in order. -/
  journal : List LockEvent
deriving DecidableEq, Repr

namespace Locks

def empty : Locks := ⟨[], []⟩

def isHeld (ls : Locks) (l : Lock) : Bool := ls.held.contains l

/-- Lock a lock, unless that would block. -/
def lock? (ls : Locks) (l : Lock) : Option Locks :=
  if l.kind = .platform then
    if ls.isHeld l then none else some ⟨l :: ls.held, ls.journal ++ [.locked l]⟩
  else some { ls with journal := ls.journal ++ [.locked l] }

/-- Unlock a lock; a platform lock has to be held. -/
def unlock (ls : Locks) (l : Lock) : Except Fault Locks :=
  if l.kind = .platform then
    if ls.isHeld l then .ok ⟨ls.held.erase l, ls.journal ++ [.unlocked l]⟩ else .error (.notHeld l.name)
  else .ok { ls with journal := ls.journal ++ [.unlocked l] }

def unlockAll (ls : Locks) : List Lock → Except Fault Locks
  | [] => .ok ls
  | l :: rest => do unlockAll (← ls.unlock l) rest

end Locks

/-- One lock taken by a frame. -/
structure LockRecord where
  id : LockId
  lock : Lock
deriving DecidableEq, Repr

/-- The locks a frame has taken, oldest first. -/
structure Ledger where
  records : List LockRecord
deriving DecidableEq, Repr

namespace Ledger

def empty : Ledger := ⟨[]⟩

def size (l : Ledger) : Nat := l.records.length

def isEmpty (l : Ledger) : Bool := l.records.isEmpty

def push (l : Ledger) (r : LockRecord) : Ledger := ⟨l.records ++ [r]⟩

def holds (l : Ledger) (id : LockId) : Bool := l.records.any fun r => r.id == id

/-- Drop the newest record with this identifier. The lock itself is not touched. -/
def remove? (l : Ledger) (id : LockId) : Option (LockRecord × Ledger) :=
  (l.records.findRev? fun r => r.id == id).map fun r =>
    (r, ⟨(l.records.reverse.eraseP fun r => r.id == id).reverse⟩)

/-- Split off the records above a mark: they come newest first, as they are to be released. -/
def cut (l : Ledger) (mark : Nat) : List LockRecord × Ledger :=
  ((l.records.drop mark).reverse, ⟨l.records.take mark⟩)

theorem size_cut (l : Ledger) (mark : Nat) : (l.cut mark).2.size = min mark l.size := by
  simp [cut, size]

theorem cut_append (l : Ledger) (mark : Nat) :
    (l.cut mark).2.records ++ (l.cut mark).1.reverse = l.records := by
  simp [cut]

end Ledger

end FiberStacks
