import FiberStacks.Act.Basic

/-!
# Local frames and locks

A native frame registers its roots in a local frame and records there the locks it takes.

* `Act.enterFrame`, `Act.leaveFrame` — open a local frame and close it again;
* `Act.acquire`, `Act.release` — take a lock and give it back.
-/

namespace FiberStacks.Act

/-- Open a local frame and return its marker, the number of frames below it. -/
def enterFrame (roots : List Word) : Act Nat := do
  let depth := (← domain).frames.depth
  modifyDomain fun d => { d with frames := d.frames.push (.ofRoots roots) }
  return depth

/-- Close the local frame of a marker and return its roots. It has to be the innermost one, and free of locks. -/
def leaveFrame (marker : Nat) : Act (List Word) := do
  let d ← domain
  require (1 ≤ marker ∧ d.frames.depth = marker + 1) (.notInnermost marker)
  match d.frames.pop? with
  | none => fault (.notInnermost marker)
  | some (x, frames) =>
    modifyDomain fun d => { d with frames }
    require (x.ledger.isEmpty = true) (.locksHeld x.ledger.size)
    return x.roots

/-- Lock a lock and record it in the innermost frame; nothing happens where that would block. -/
def acquire (l : Lock) : Act (Option LockId) := do
  let w ← Action.view Active.world
  match w.locks.lock? l with
  | none => return none
  | some locks =>
    let id : LockId := ⟨w.locksTaken + 1⟩
    modifyWorld fun w => { w with locks, locksTaken := id.number }
    modifyDomain fun d =>
      let x := d.frames.innermost
      { d with frames := d.frames.setInnermost { x with ledger := x.ledger.push ⟨id, l⟩ } }
    return some id

def unlockAll (ls : List Lock) : Act Unit := do
  let w ← Action.view Active.world
  let locks ← check (w.locks.unlockAll ls)
  modifyWorld fun w => { w with locks }

/-- Unlock the lock of a record and drop the record, if some frame has it. -/
def release (id : LockId) : Act Bool := do
  match (← domain).frames.remove? id with
  | none => return false
  | some (r, frames) =>
    modifyDomain fun d => { d with frames }
    unlockAll [r.lock]
    return true

end FiberStacks.Act
