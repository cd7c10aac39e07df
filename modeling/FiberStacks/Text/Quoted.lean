import FiberStacks.Text.Numeral
import FiberStacks.Text.Printable

/-!
# Quoted text

A text in double quotes, every character either itself or an escape: `\"` and `\\`, the short escapes of tab,
line feed, carriage return and the null character, and `\u` with the code point in braces for whatever else is
not printable. Single quotes are left alone.
-/

namespace FiberStacks.Text

/-- One character as it stands inside double quotes. -/
def escaped (c : Char) : String :=
  match c with
  | '\x00' => "\\0"
  | '\t' => "\\t"
  | '\r' => "\\r"
  | '\n' => "\\n"
  | '\\' => "\\\\"
  | '\"' => "\\\""
  | c => if isPrintable c then String.singleton c else "\\u\x7b" ++ hexDigits c.toNat ++ "\x7d"

/-- The text between double quotes, escaped character by character. -/
def quoted (s : String) : String := "\"" ++ String.join (s.toList.map escaped) ++ "\""

end FiberStacks.Text
