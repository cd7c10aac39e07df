import FiberStacks.Toml.Node
import FiberStacks.Toml.Scalar

/-!
# Statements of a TOML document

A document is a sequence of lines: a key with a value, the header of a table, the header of one of several tables,
or nothing but a comment. Readers return what they have read and the rest of the text.

* `readText` — texts in one or three quotes of either kind;
* `readKey` — bare, quoted and dotted keys;
* `readValue` — values; arrays and braces nest to a depth below `nestingLimit`;
* `statements` — all lines of a document.

The readers of repetitions take a number of rounds; the length of the text is always enough, since every round
reads a character.
-/

namespace FiberStacks.Toml

open Text (isDigitOf ofDigits)

inductive Statement where
  /-- A value, under the last key of a path. -/
  | pair (path : List String) (key : String) (value : Node)
  /-- The header of a table. -/
  | header (path : List String) (key : String)
  /-- The header of one of several tables. -/
  | element (path : List String) (key : String)

/-- Depth at which nesting is refused, of values and of keys. -/
def nestingLimit : Nat := 80

/-! ### Blanks, comments and ends of lines -/

def isBlank (c : Char) : Bool := c == ' ' || c == '\t'

/-- Whether a character may stand in a comment: a tab, or anything printable by the rules of the format. -/
def isTextChar (c : Char) : Bool := c == '\t' || (0x20 ≤ c.toNat && c.toNat ≤ 0x7E) || 0x80 ≤ c.toNat

def skipBlanks (cs : List Char) : List Char := cs.dropWhile isBlank

def afterNewline? : List Char → Option (List Char)
  | '\n' :: rest => some rest
  | '\r' :: '\n' :: rest => some rest
  | _ => none

def skipComment : List Char → List Char
  | '#' :: rest => rest.dropWhile isTextChar
  | cs => cs

/-- What follows the rest of a line, in which only blanks and a comment may stand. -/
def afterLine? (cs : List Char) : Option (List Char) :=
  match skipComment (skipBlanks cs) with
  | [] => some []
  | cs => afterNewline? cs

/-- Skip blanks, comments and ends of lines. -/
def skipLines : (rounds : Nat) → List Char → List Char
  | 0, cs => cs
  | n + 1, cs =>
    let cs := skipComment (skipBlanks cs)
    match afterNewline? cs with
    | some rest => skipLines n rest
    | none => cs

def skipSpace : (rounds : Nat) → List Char → List Char
  | 0, cs => cs
  | n + 1, cs =>
    let cs := skipBlanks cs
    match afterNewline? cs with
    | some rest => skipSpace n rest
    | none => cs

/-! ### Texts -/

/-- The character of a code point in hexadecimal digits. -/
def codePoint? (ds : List Char) : Option Char :=
  let n := ofDigits 16 ds
  if ds.all (isDigitOf 16) = true ∧ n.isValidChar then some (Char.ofNat n) else none

/-- The character an escape stands for, after its backslash. -/
def readEscape : List Char → Option (Char × List Char)
  | 'b' :: rest => some ('\x08', rest)
  | 't' :: rest => some ('\t', rest)
  | 'n' :: rest => some ('\n', rest)
  | 'f' :: rest => some ('\x0c', rest)
  | 'r' :: rest => some ('\r', rest)
  | '\"' :: rest => some ('\"', rest)
  | '\\' :: rest => some ('\\', rest)
  | 'u' :: rest => if rest.length < 4 then none else (codePoint? (rest.take 4)).map fun c => (c, rest.drop 4)
  | 'U' :: rest => if rest.length < 8 then none else (codePoint? (rest.take 8)).map fun c => (c, rest.drop 8)
  | _ => none

/-- A text in one double quote, after the first quote. -/
def readBasic : (rounds : Nat) → List Char → Option (List Char × List Char)
  | 0, _ => none
  | _ + 1, [] => none
  | n + 1, c :: rest =>
    if c = '\"' then some ([], rest)
    else if c = '\\' then do
      let (e, rest) ← readEscape rest
      let (cs, rest) ← readBasic n rest
      return (e :: cs, rest)
    else if isTextChar c then do
      let (cs, rest) ← readBasic n rest
      return (c :: cs, rest)
    else none

def apostrophe : Char := Char.ofNat 0x27

/-- A text in one single quote, after the first quote. -/
def readLiteral : List Char → Option (List Char × List Char)
  | [] => none
  | c :: rest =>
    if c = apostrophe then some ([], rest)
    else if isTextChar c then (readLiteral rest).map fun r => (c :: r.1, r.2)
    else none

/-- Quotes at the end of a text in three quotes: up to two of them belong to the text. -/
def closing? (q : Char) (cs : List Char) : Option (List Char × List Char) :=
  let n := (cs.takeWhile (· == q)).length
  if n < 3 then none else
    let extra := min (n - 3) 2
    some (List.replicate extra q, cs.drop (extra + 3))

/-- A text in three quotes of a kind, after the first three; `escapes` tells whether backslashes are special. -/
def readLong (q : Char) (escapes : Bool) : (rounds : Nat) → List Char → Option (List Char × List Char)
  | 0, _ => none
  | n + 1, cs =>
    match closing? q cs with
    | some r => some r
    | none =>
      match cs with
      | [] => none
      | c :: rest =>
        if escapes && c == '\\' then
          match afterNewline? (skipBlanks rest) with
          | some rest => readLong q escapes n (skipSpace rest.length rest)
          | none => do
            let (e, rest) ← readEscape rest
            let (cs, rest) ← readLong q escapes n rest
            return (e :: cs, rest)
        else
          match afterNewline? (c :: rest) with
          | some rest => (readLong q escapes n rest).map fun r => ('\n' :: r.1, r.2)
          | none =>
            if isTextChar c then (readLong q escapes n rest).map fun r => (c :: r.1, r.2) else none

/-- A text in three quotes; an end of line right after the first three is skipped. -/
def readLongText (q : Char) (escapes : Bool) (cs : List Char) : Option (String × List Char) :=
  let cs := (afterNewline? cs).getD cs
  (readLong q escapes (cs.length + 1) cs).map fun r => (String.ofList r.1, r.2)

def readShortText : List Char → Option (String × List Char)
  | c :: rest =>
    let r :=
      if c = '\"' then readBasic (rest.length + 1) rest
      else if c = apostrophe then readLiteral rest
      else none
    r.map fun r => (String.ofList r.1, r.2)
  | [] => none

def readText : List Char → Option (String × List Char)
  | a :: b :: c :: rest =>
    if a = b ∧ b = c ∧ (a = '\"' ∨ a = apostrophe) then readLongText a (a == '\"') rest
    else readShortText (a :: b :: c :: rest)
  | cs => readShortText cs

/-! ### Keys -/

def isBareChar (c : Char) : Bool := c.isAlphanum || c == '_' || c == '-'

def readSimpleKey (cs : List Char) : Option (String × List Char) :=
  match cs.takeWhile isBareChar with
  | [] => readShortText cs
  | ds => some (String.ofList ds, cs.dropWhile isBareChar)

def readKeys : (rounds : Nat) → List Char → Option (List String × List Char)
  | 0, _ => none
  | n + 1, cs => do
    let (key, rest) ← readSimpleKey (skipBlanks cs)
    match skipBlanks rest with
    | '.' :: rest =>
      let (keys, rest) ← readKeys n rest
      return (key :: keys, rest)
    | rest => return ([key], rest)

def readKey (cs : List Char) : Option (List String × String × List Char) := do
  let (keys, rest) ← readKeys (cs.length + 1) cs
  if nestingLimit ≤ keys.length then none
  else return (keys.dropLast, ← keys.getLast?, rest)

/-! ### Values -/

/-- A value that is a single token; a date and a time may stand one blank apart. -/
def readToken (cs : List Char) : Option (Node × List Char) :=
  let token := cs.takeWhile isTokenChar
  let rest := cs.dropWhile isTokenChar
  match integer? token with
  | some n => some (.integer n, rest)
  | none =>
    if token == ['t', 'r', 'u', 'e'] || token == ['f', 'a', 'l', 's', 'e'] then some (.plain, rest)
    else if isDate token then
      match rest with
      | ' ' :: more =>
        let time := more.takeWhile isTokenChar
        if time.isEmpty then some (.plain, rest)
        else if isTimeWithOffset time then some (.plain, more.dropWhile isTokenChar)
        else none
      | _ => some (.plain, rest)
    else if isDateTime token || isFloat token then some (.plain, rest)
    else none

mutual

/-- A value, inside so many brackets and braces. -/
def readValue : (rounds : Nat) → (depth : Nat) → List Char → Option (Node × List Char)
  | 0, _, _ => none
  | n + 1, depth, cs =>
    match cs with
    | [] => none
    | c :: rest =>
      if c = '\"' ∨ c = apostrophe then (readText cs).map fun r => (.text r.1, r.2)
      else if c = '[' then
        if nestingLimit ≤ depth + 1 then none
        else (readItems n (depth + 1) rest).map fun r => (.array r.1, r.2)
      else if c = '\x7b' then
        if nestingLimit ≤ depth + 1 then none
        else
          match skipBlanks rest with
          | '\x7d' :: rest => some (.inline .explicit [], rest)
          | rest => (readFields n (depth + 1) [] rest).map fun r => (.inline .explicit r.1, r.2)
      else readToken cs

/-- The items of an array up to its closing bracket. -/
def readItems : (rounds : Nat) → (depth : Nat) → List Char → Option (List Node × List Char)
  | 0, _, _ => none
  | n + 1, depth, cs =>
    match skipLines cs.length cs with
    | ']' :: rest => some ([], rest)
    | cs => do
      let (v, rest) ← readValue n depth cs
      match skipLines rest.length rest with
      | ']' :: rest => return ([v], rest)
      | ',' :: rest =>
        let (vs, rest) ← readItems n depth rest
        return (v :: vs, rest)
      | _ => none

/-- The keys and values in braces up to the closing one, after the entries read so far. -/
def readFields : (rounds : Nat) → (depth : Nat) → Entries → List Char → Option (Entries × List Char)
  | 0, _, _, _ => none
  | n + 1, depth, es, cs => do
    let (path, key, rest) ← readKey cs
    let (v, rest) ← readValue n depth (skipBlanks (← expect? '=' rest))
    let es ← es.defineInline key v path path.isEmpty .explicit
    match skipBlanks rest with
    | '\x7d' :: rest => return (es, rest)
    | ',' :: rest => readFields n depth es rest
    | _ => none

end

/-! ### Lines -/

def readHeader : List Char → Option (Statement × List Char)
  | '[' :: rest => do
    let (path, key, rest) ← readKey rest
    return (.element path key, ← expect? ']' (← expect? ']' rest))
  | cs => do
    let (path, key, rest) ← readKey cs
    return (.header path key, ← expect? ']' rest)

def readPair (cs : List Char) : Option (Statement × List Char) := do
  let (path, key, rest) ← readKey cs
  let cs := skipBlanks (← expect? '=' rest)
  let (v, rest) ← readValue (cs.length + 1) 0 cs
  return (.pair path key v, rest)

/-- All statements of a document, one to a line. -/
def readLines : (rounds : Nat) → List Char → Option (List Statement)
  | 0, _ => none
  | n + 1, cs =>
    match skipLines cs.length cs with
    | [] => some []
    | c :: rest => do
      let (s, rest) ← if c = '[' then readHeader rest else readPair (c :: rest)
      return s :: (← readLines n (← afterLine? rest))

/-- The statements of a text; a byte order mark in front is skipped. -/
def statements (s : String) : Option (List Statement) :=
  let cs := match s.toList with
    | '\ufeff' :: cs => cs
    | cs => cs
  readLines (cs.length + 1) cs

end FiberStacks.Toml
