/-!
# Nodes of a TOML document

A table is a list of entries in the order of the document. How a table came about decides what may still be added
to it:

* `TableKind.explicit` — it has a header of its own, or stands in braces: nothing is added through dotted keys;
* `TableKind.implied` — it was only named on the way to another header: a header of its own may follow;
* `TableKind.dotted` — it was made by a dotted key: further dotted keys may add to it.

`Entries.define` adds the value of a key, `Entries.visit` works on the table at the end of a path of keys.
-/

namespace FiberStacks.Toml

/-- How a table came about. -/
inductive TableKind where
  | explicit
  | implied
  | dotted
deriving DecidableEq, Repr

inductive Node where
  | text (s : String)
  | integer (n : Int)
  /-- A truth value, a float or a date: kinds of which only the form is checked. -/
  | plain
  | array (items : List Node)
  /-- A table in braces. -/
  | inline (kind : TableKind) (entries : List (String × Node))
  /-- A table of headers or dotted keys. -/
  | table (kind : TableKind) (entries : List (String × Node))
  /-- The tables of a repeated header. -/
  | tables (elements : List (List (String × Node)))

abbrev Entries := List (String × Node)

namespace Entries

def replace (es : Entries) (key : String) (v : Node) : Entries :=
  es.map fun e => if e.1 = key then (key, v) else e

def drop (es : Entries) (key : String) : Entries := es.filter fun e => e.1 != key

/-- Add a key that is not there yet, to a table of some kind reached by a dotted key or directly: only the tables of
dotted keys are filled through them. -/
def define (direct : Bool) (key : String) (v : Node) (kind : TableKind) (es : Entries) : Option Entries :=
  if (kind == .dotted) == direct then none
  else if (es.lookup key).isSome then none
  else some (es ++ [(key, v)])

def replaceLast {α : Type} (xs : List α) (x : α) : List α := xs.dropLast ++ [x]

/-- Work on the table at the end of a path. Tables missing on the way are made, of kind `made`; with `strict`, the
path may not lead through tables that have a header. -/
def visit (strict : Bool) (made : TableKind) (f : TableKind → Entries → Option Entries) :
    (path : List String) → TableKind → Entries → Option Entries
  | [], kind, es => f kind es
  | key :: path, _, es =>
    match es.lookup key with
    | none => (visit strict made f path made []).map fun sub => es ++ [(key, .table made sub)]
    | some (.table kind sub) =>
      if strict && kind == .explicit then none
      else (visit strict made f path kind sub).map fun sub => es.replace key (.table kind sub)
    | some (.tables elements) =>
      match elements.getLast? with
      | none => none
      | some last =>
        (visit strict made f path .explicit last).map fun last =>
          es.replace key (.tables (replaceLast elements last))
    | some _ => none

/-- Add the value of a dotted key inside braces. -/
def defineInline (key : String) (v : Node) :
    (path : List String) → (direct : Bool) → TableKind → Entries → Option Entries
  | [], direct, kind, es => es.define direct key v kind
  | k :: path, _, _, es =>
    match es.lookup k with
    | none => (defineInline key v path false .dotted []).map fun sub => es ++ [(k, .inline .dotted sub)]
    | some (.inline kind sub) =>
      if kind = .explicit then none
      else (defineInline key v path false kind sub).map fun sub => es.replace k (.inline kind sub)
    | some _ => none

end Entries

end FiberStacks.Toml
