import FiberStacks.Config
import FiberStacks.Toml.Document
import FiberStacks.Toml.Write

/-!
# Configuration documents

A configuration is read from a document, and checked. The format of documents, and how settings are found in a table
and put into one, are a matter of a library, which is a parameter of the reading.

* `DocumentLibrary` — what is taken from such a library;
* `Config.ofDocument`, `Config.toDocument` — **reading and writing configurations**;
* `Config.library` — the library that programs use. Settings that are missing keep their defaults, names that are no
  setting are ignored, sizes are integers that are not negative.
-/

namespace FiberStacks

inductive ConfigError where
  /-- There is no text to read. -/
  | unreadable
  /-- The text is not a document, or a setting has a value of another kind. -/
  | malformed
  | invalid (cause : InvalidConfig)
deriving DecidableEq, Repr

/-- A library for documents and for the settings in them. -/
structure DocumentLibrary where
  /-- The table of a text, none if the text is not a document. -/
  read : String → Option Toml.Entries
  /-- The document of a table, none if the table has values that are not written. -/
  write : Toml.Entries → Option String
  /-- The settings of a table over defaults, none if one has a value of another kind. -/
  decode : (defaults : Config) → Toml.Entries → Option Config
  /-- The table of all settings. -/
  encode : Config → Toml.Entries

namespace Config

/-! ### Reading and writing -/

/-- **The configuration of a document.** -/
def ofDocument (lib : DocumentLibrary) (s : String) : Except ConfigError Config :=
  match (lib.read s).bind (lib.decode {}) with
  | none => .error .malformed
  | some c =>
    match c.validate with
    | .ok _ => .ok c
    | .error e => .error (.invalid e)

/-- The configuration of the bytes of a document, if there are any. -/
def ofBytes (lib : DocumentLibrary) (bytes : Option ByteArray) : Except ConfigError Config :=
  match bytes.bind String.fromUTF8? with
  | none => .error .unreadable
  | some s => ofDocument lib s

def toDocument (lib : DocumentLibrary) (c : Config) : Option String := lib.write (lib.encode c)

/-! ### Settings in tables -/

def isEmptyNode : Toml.Node → Bool
  | .array [] => true
  | .inline _ [] => true
  | .table _ [] => true
  | _ => false

/-- A layout named by the key of an entry without content. -/
def layoutOfEntry? : String × Toml.Node → Option LayoutKind
  | (key, v) => (LayoutKind.ofName? key).bind fun k => if isEmptyNode v then some k else none

/-- A layout, by its name or as the only entry of a table. -/
def layoutOfNode? : Toml.Node → Option LayoutKind
  | .text s => LayoutKind.ofName? s
  | .inline _ [e] => layoutOfEntry? e
  | .table _ [e] => layoutOfEntry? e
  | _ => none

def sizeOfNode? : Toml.Node → Option Nat
  | .integer n => if 0 ≤ n then some n.toNat else none
  | _ => none

/-- Take up one entry of a document. -/
def setEntry? (c : Config) : String × Toml.Node → Option Config
  | (key, v) =>
    if key = "layout" then (layoutOfNode? v).map fun layout => { c with layout }
    else if (c.sizes.lookup key).isSome then (sizeOfNode? v).map fun n => c.setSize key n
    else some c

def ofEntries? (defaults : Config) (es : Toml.Entries) : Option Config := es.foldlM setEntry? defaults

def toEntries (c : Config) : Toml.Entries :=
  (c.sizes.map fun p => (p.1, .integer p.2)) ++ [("layout", .text c.layout.name)]

def library : DocumentLibrary where
  read := Toml.read
  write := Toml.write
  decode := ofEntries?
  encode := toEntries

end Config

end FiberStacks
