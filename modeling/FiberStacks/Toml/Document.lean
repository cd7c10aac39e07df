import FiberStacks.Toml.Statement

/-!
# Documents

The statements of a document build one table. A header opens a table, the keys after it go there, and the table is
put into its place when the next header or the end is reached. Every key is defined once; a table may get its header
after tables inside it, and dotted keys may add only to tables of dotted keys.
-/

namespace FiberStacks.Toml

structure Builder where
  /-- What is in place already. -/
  root : Entries
  /-- The open table. -/
  current : Entries
  /-- The place of the open table, none for the root. -/
  place : Option (List String × String)
  /-- Whether the open table is one of several. -/
  isElement : Bool

namespace Builder

def empty : Builder := ⟨[], [], none, false⟩

/-- Work on the table at the end of a path of headers. -/
def atPath (root : Entries) (path : List String) (f : Entries → Option Entries) : Option Entries :=
  Entries.visit false .implied (fun _ es => f es) path .explicit root

def close (b : Builder) : Option Entries :=
  match b.place with
  | none => some b.current
  | some (path, key) =>
    atPath b.root path fun es =>
      match es.lookup key with
      | none => some (es ++ [(key, if b.isElement then .tables [b.current] else .table .explicit b.current)])
      | some (.tables elements) =>
        if b.isElement then some (es.replace key (.tables (elements ++ [b.current]))) else none
      | some _ => none

/-- The table at the end of a path of headers, with the tables on the way made if they are missing. -/
def tableAt (root : Entries) (path : List String) : Option (Entries × Entries) := do
  let root ← atPath root path some
  return (root, ← find path root)
where
  /-- The same where all tables are there. -/
  find : List String → Entries → Option Entries
    | [], es => some es
    | k :: path, es =>
      match es.lookup k with
      | some (.table _ sub) => find path sub
      | some (.tables elements) => elements.getLast?.bind (find path)
      | _ => none

/-- Open the table of a header; one that was only implied so far keeps what is in it. -/
def openTable (b : Builder) (path : List String) (key : String) : Option Builder := do
  let (root, parent) ← tableAt (← b.close) path
  match parent.lookup key with
  | none => return ⟨root, [], some (path, key), false⟩
  | some (.table .implied sub) =>
    return ⟨← atPath root path fun es => some (es.drop key), sub, some (path, key), false⟩
  | some _ => none

/-- Open another table of a repeated header. -/
def openElement (b : Builder) (path : List String) (key : String) : Option Builder := do
  let (root, parent) ← tableAt (← b.close) path
  match parent.lookup key with
  | none => return ⟨root, [], some (path, key), true⟩
  | some (.tables _) => return ⟨root, [], some (path, key), true⟩
  | some _ => none

def add (b : Builder) : Statement → Option Builder
  | .pair path key v => do
    let current ← Entries.visit true .dotted (Entries.define path.isEmpty key v) path .explicit b.current
    return { b with current }
  | .header path key => b.openTable path key
  | .element path key => b.openElement path key

end Builder

def build (ss : List Statement) : Option Entries := (ss.foldlM Builder.add .empty).bind Builder.close

/-- **The table of a document,** none if the text is not a document. -/
def read (s : String) : Option Entries := (statements s).bind build

end FiberStacks.Toml
