import FiberStacks.Text.Numeral

/-!
# Scalars of a TOML document

Numbers, truth values and dates are read in two steps: a token is cut off at the first character that cannot belong
to one, and is then classified as a whole.

* `digits?` — groups of digits with single underscores between them;
* `integer?`, `isFloat`, `isDateTime` — the three classes of tokens that begin with a digit or a sign.
-/

namespace FiberStacks.Toml

open Text (digitValue isDigitOf ofDigits)

/-- Whether a character can belong to a number, a truth value or a date. -/
def isTokenChar (c : Char) : Bool :=
  c.isAlphanum || c == '+' || c == '-' || c == '_' || c == '.' || c == ':'

/-- The digits of a non-empty group, in which single underscores may stand between digits. -/
def digits? (base : Nat) : List Char → Option (List Char)
  | [] => none
  | [c] => if isDigitOf base c then some [c] else none
  | c :: '_' :: rest => if isDigitOf base c then (digits? base rest).map (c :: ·) else none
  | c :: rest => if isDigitOf base c then (digits? base rest).map (c :: ·) else none

/-- A sign, and what follows it; no sign counts as a plus. -/
def splitSign : List Char → Bool × List Char
  | '-' :: rest => (true, rest)
  | '+' :: rest => (false, rest)
  | cs => (false, cs)

/-- The digits of a decimal number, which does not begin with a zero unless that is all. -/
def decimal? (cs : List Char) : Option (List Char) :=
  match digits? 10 cs with
  | some ('0' :: _ :: _) => none
  | r => r

/-- The number of a token in binary, octal or hexadecimal digits. -/
def based? : List Char → Option Nat
  | '0' :: 'x' :: ds => (digits? 16 ds).map (ofDigits 16)
  | '0' :: 'o' :: ds => (digits? 8 ds).map (ofDigits 8)
  | '0' :: 'b' :: ds => (digits? 2 ds).map (ofDigits 2)
  | _ => none

/-- The integer of a token, which has to fit into 64 bits with a sign. -/
def integer? (cs : List Char) : Option Int :=
  let n? : Option Int :=
    match based? cs with
    | some n => some n
    | none =>
      let (negative, ds) := splitSign cs
      (decimal? ds).map fun ds => if negative then -(ofDigits 10 ds : Int) else ofDigits 10 ds
  n?.bind fun n => if Int64.minValue.toInt ≤ n ∧ n ≤ Int64.maxValue.toInt then some n else none

/-- Whether `m * 10 ^ e` is too large for a float of 64 bits. -/
def exceedsFloat (m : Nat) (e : Int) : Bool :=
  let places : Int := (Nat.toDigits 10 m).length + e
  if m = 0 ∨ places < 300 then false
  else if 400 < places then true
  else
    let bound := (1 <<< 1024) - (1 <<< 970)
    if 0 ≤ e then bound ≤ m * Nat.pow 10 e.toNat else bound * Nat.pow 10 (-e).toNat ≤ m

/-- The exponent of a token from the letter on; none counts as zero. -/
def exponent? : List Char → Option Int
  | [] => some 0
  | c :: rest =>
    if c = 'e' ∨ c = 'E' then
      let (negative, ds) := splitSign rest
      (digits? 10 ds).map fun ds => if negative then -(ofDigits 10 ds : Int) else ofDigits 10 ds
    else none

def isExponentMark (c : Char) : Bool := c == 'e' || c == 'E'

/-- Whether a token is a float: whole part, fraction, exponent, and at least one of the last two. A positive one has
to be finite. -/
def isFloat (cs : List Char) : Bool :=
  let (negative, body) := splitSign cs
  if body == ['i', 'n', 'f'] || body == ['n', 'a', 'n'] then true
  else
    let mantissa := body.takeWhile fun c => !isExponentMark c
    let whole := mantissa.takeWhile (· != '.')
    let tail := mantissa.dropWhile (· != '.')
    let fraction? := match tail with
      | [] => some []
      | _ :: ds => digits? 10 ds
    match decimal? whole, fraction?, exponent? (body.dropWhile fun c => !isExponentMark c) with
    | some w, some f, some e =>
      (tail != [] || body.any isExponentMark) &&
        (negative || !exceedsFloat (ofDigits 10 (w ++ f)) (e - f.length))
    | _, _, _ => false

/-- A number of exactly so many decimal digits between two bounds, and what follows it. -/
def field? (width low high : Nat) (cs : List Char) : Option (Nat × List Char) :=
  let ds := cs.take width
  let n := ofDigits 10 ds
  if ds.length = width ∧ ds.all (isDigitOf 10) = true ∧ low ≤ n ∧ n ≤ high then some (n, cs.drop width) else none

def daysOf (year month : Nat) : Nat :=
  if month = 2 then if year % 4 = 0 ∧ (year % 100 ≠ 0 ∨ year % 400 = 0) then 29 else 28
  else if month = 4 ∨ month = 6 ∨ month = 9 ∨ month = 11 then 30
  else 31

/-- What follows a character that has to be there. -/
def expect? (c : Char) : List Char → Option (List Char)
  | d :: rest => if d = c then some rest else none
  | [] => none

def afterDate? (cs : List Char) : Option (List Char) := do
  let (year, cs) ← field? 4 0 9999 cs
  let (month, cs) ← field? 2 1 12 (← expect? '-' cs)
  let (_, cs) ← field? 2 1 (daysOf year month) (← expect? '-' cs)
  return cs

/-- What follows a time of day, with or without a fraction of seconds. -/
def afterTime? (cs : List Char) : Option (List Char) := do
  let (_, cs) ← field? 2 0 23 cs
  let (_, cs) ← field? 2 0 59 (← expect? ':' cs)
  let (_, cs) ← field? 2 0 60 (← expect? ':' cs)
  match cs with
  | '.' :: rest =>
    if (rest.takeWhile (isDigitOf 10)).isEmpty then none else return rest.dropWhile (isDigitOf 10)
  | _ => return cs

/-- Whether a token ends in an offset from universal time, or right away. -/
def isOffset : List Char → Bool
  | [] => true
  | ['Z'] => true
  | ['z'] => true
  | c :: rest =>
    if c = '+' ∨ c = '-' then
      match (do
        let (_, cs) ← field? 2 0 23 rest
        let (_, cs) ← field? 2 0 59 (← expect? ':' cs)
        return cs : Option (List Char)) with
      | some [] => true
      | _ => false
    else false

/-- Whether a token is a time with or without an offset. -/
def isTimeWithOffset (cs : List Char) : Bool :=
  match afterTime? cs with
  | some rest => isOffset rest
  | none => false

/-- Whether a token is a date, a time of day, or both. -/
def isDateTime (cs : List Char) : Bool :=
  match afterDate? cs with
  | some [] => true
  | some (c :: rest) => (c == 'T' || c == 't') && isTimeWithOffset rest
  | none => (afterTime? cs).any List.isEmpty

/-- Whether a token is a date alone, after which a time of day may stand apart. -/
def isDate (cs : List Char) : Bool := (afterDate? cs).any List.isEmpty

end FiberStacks.Toml
