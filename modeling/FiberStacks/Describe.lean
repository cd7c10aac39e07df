import FiberStacks.Machine

/-!
# Descriptions

Texts for a developer who looks at the state of a domain, of the whole runtime or of a lock: a name, and the fields
in braces.
-/

namespace FiberStacks

namespace Text

def braced (name : String) (fields : List (String × String)) : String :=
  name ++ " \x7b " ++ String.intercalate ", " (fields.map fun f => f.1 ++ ": " ++ f.2) ++ " \x7d"

def truth (b : Bool) : String := if b then "true" else "false"

def wrapped (name field : String) : String := name ++ "(" ++ field ++ ")"

end Text

open Text

def Registers.describe (r : Registers) : String :=
  braced "StackRegisters"
    [("current", wrapped "BlockId" (decimal r.current.index)), ("sp", signed r.pointer),
      ("capacity", decimal r.capacity)]

def Domain.describe (d : Domain) : String :=
  braced "Domain"
    [("id", wrapped "DomainId" (decimal d.id.number)),
      ("regs", (d.registers.map fun r => wrapped "Some" r.describe).getD "None"),
      ("handlers", decimal d.handlers.length), ("local_frames", decimal d.frames.depth),
      ("blocking_depth", decimal d.blocking), ("vm_inited", truth d.ready)]

def Config.describe (c : Config) : String :=
  braced "RuntimeConfig" (c.sizes.map (fun p => (p.1, decimal p.2)) ++ [("layout", c.layout.label)])

def World.describe (w : World) : String :=
  braced "Runtime"
    [("config", w.config.describe), ("native", truth w.layout.isNative), ("global_data", truth w.table.isSome),
      ("domains", decimal w.registry.length)]

/-- A lock: a platform lock with its state, any other by its name. -/
def Locks.describe (ls : Locks) (l : Lock) : String :=
  match l.kind with
  | .platform => braced "PlatLock" [("name", quoted l.name), ("locked", truth (ls.isHeld l))]
  | _ => l.name

def LockRecord.describe (r : LockRecord) : String :=
  braced "LockRecord" [("id", wrapped "LockId" (decimal r.id.number)), ("lock", quoted r.lock.name)]

end FiberStacks
