import FiberStacks.Heap
import FiberStacks.Text.Quoted

/-!
# Exceptions in the heap

A raised exception is a word: the identifier itself for an exception without arguments, otherwise a block of tag
zero with the identifier first and the arguments after it. An identifier is a block whose first field is the text
of the name.

* `Heap.exceptionTag` — the identifier of a raised exception;
* `Heap.formatException` — the exception as it is printed.
-/

namespace FiberStacks.Heap

/-- The fields of a raised exception that has arguments. -/
def bucketFields? (h : Heap) (bucket : Word) : Option (List Word) :=
  bucket.block?.bind fun b => if h.tag? b = some 0 then h.fields? b else none

def exceptionTag (h : Heap) (bucket : Word) : Word :=
  ((h.bucketFields? bucket).bind List.head?).getD bucket

def exceptionName? (h : Heap) (tag : Word) : Option String := do
  let b ← tag.block?
  if h.tag? b ≠ some identifierTag then none
  else
    let name ← (← h.fields? b).head?
    h.text? (← name.block?)

/-- An argument as it is printed: an integer in base ten, a text in quotes, anything else as a blank. -/
def formatArgument (h : Heap) (w : Word) : String :=
  match w.int? with
  | some n => Text.signed n
  | none =>
    match w.block?.bind h.text? with
    | some s => Text.quoted s
    | none => "_"

/-- A raised exception as it is printed: its name, and its arguments in parentheses if it has any. -/
def formatException (h : Heap) (bucket : Word) : String :=
  let tag := h.exceptionTag bucket
  let name := (h.exceptionName? tag).getD tag.text
  match ((h.bucketFields? bucket).getD []).drop 1 with
  | [] => name
  | args => name ++ "(" ++ String.intercalate ", " (args.map h.formatArgument) ++ ")"

end FiberStacks.Heap
