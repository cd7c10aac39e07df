/-!
# Numerals

The texts of numbers: `decimal` and `signed` in base ten, `hex` in base sixteen with lower-case digits and a
leading `0x`. `ofHex?` reads the last of them, in either case.
-/

namespace FiberStacks.Text

def decimal (n : Nat) : String := String.ofList (Nat.toDigits 10 n)

/-- An integer in base ten, a minus sign before negative ones. -/
def signed (n : Int) : String :=
  if n < 0 then "-" ++ decimal n.natAbs else decimal n.natAbs

/-- The base-sixteen digits of a natural number, without a leading mark. -/
def hexDigits (n : Nat) : String := String.ofList (Nat.toDigits 16 n)

/-- A natural number in base sixteen, marked by `0x`. -/
def hex (n : Nat) : String := "0x" ++ hexDigits n

/-- The value of a digit, in bases up to sixteen; any other character counts as sixteen. -/
def digitValue (c : Char) : Nat :=
  if c.isDigit then c.toNat - '0'.toNat
  else if 'a' ≤ c ∧ c ≤ 'f' then c.toNat - 'a'.toNat + 10
  else if 'A' ≤ c ∧ c ≤ 'F' then c.toNat - 'A'.toNat + 10
  else 16

/-- Whether a character is a digit of a base. -/
def isDigitOf (base : Nat) (c : Char) : Bool := digitValue c < base

/-- The number that digits of a base stand for. -/
def ofDigits (base : Nat) (ds : List Char) : Nat := ds.foldl (fun n c => base * n + digitValue c) 0

/-- The number of a text in base ten, none if there is another character or no digit. -/
def ofDecimal? (ds : List Char) : Option Nat :=
  if ds ≠ [] ∧ ds.all (isDigitOf 10) = true then some (ofDigits 10 ds) else none

/-- The integer of a text in base ten, with a minus sign in front if it is negative. -/
def ofSigned? : List Char → Option Int
  | '-' :: ds => (ofDecimal? ds).map fun n => -↑n
  | ds => (ofDecimal? ds).map Int.ofNat

/-- The number of a text in base sixteen, marked by `0x`. -/
def ofHex? : List Char → Option Nat
  | '0' :: 'x' :: ds => if ds ≠ [] ∧ ds.all (isDigitOf 16) = true then some (ofDigits 16 ds) else none
  | _ => none

end FiberStacks.Text
