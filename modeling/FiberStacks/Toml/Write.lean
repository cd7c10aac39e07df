import FiberStacks.Toml.Statement

/-!
# Writing flat tables

A table of integers and texts is written as one line `key = value` for each entry, with texts in double quotes.
-/

namespace FiberStacks.Toml

def basicChar (c : Char) : List Char :=
  if c = '\"' ∨ c = '\\' then ['\\', c]
  else if isTextChar c then [c]
  else ['\\', 'u', '0', '0', (c.toNat / 16).digitChar, (c.toNat % 16).digitChar]

def basicText (cs : List Char) : List Char := '\"' :: (cs.flatMap basicChar ++ ['\"'])

/-- A key, in quotes only where it has to be. -/
def keyText (key : String) : List Char :=
  if key.toList ≠ [] ∧ key.toList.all isBareChar then key.toList else basicText key.toList

/-- An integer that fits into 64 bits with a sign, or a text; other values are not written. -/
def valueText? : Node → Option (List Char)
  | .integer n =>
    if Int64.minValue.toInt ≤ n ∧ n ≤ Int64.maxValue.toInt then some (Text.signed n).toList else none
  | .text s => some (basicText s.toList)
  | _ => none

/-- The characters of the line of a key and a value. -/
def lineOf (k v : List Char) : List Char := k ++ ' ' :: '=' :: ' ' :: (v ++ ['\n'])

def line? (e : String × Node) : Option String := (valueText? e.2).map fun v => String.ofList (lineOf (keyText e.1) v)

/-- **The document of a flat table.** -/
def write (es : Entries) : Option String := (es.mapM line?).map String.join

end FiberStacks.Toml
