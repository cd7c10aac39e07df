import FiberStacks.Toml.Scalar
import Mathlib.Algebra.Ring.Int.Defs
import Mathlib.Data.List.Basic

/-!
# Numerals are read back

A number in base ten is read as itself: its digits are digits without underscores or leading zeros, no token of another
base begins with them, and an integer of 64 bits, written with its sign, is a token of that integer.

* `Text.ofDigits_toDigits` — digits and their number;
* `Toml.decimal?_toDigits` — the digits of a number are a decimal;
* `Toml.integer?_signed` — **the token of an integer**.
-/

namespace FiberStacks

namespace Text

variable {c : Char} {ds : List Char} {n : Nat}

theorem digitValue_of_isDigit (h : c.isDigit) : digitValue c = c.toNat - '0'.toNat := if_pos h

theorem isDigitOf_of_isDigit (h : c.isDigit) : isDigitOf 10 c = true := by
  have hrange := Char.isDigit_iff_toNat.1 h
  rw [isDigitOf, digitValue_of_isDigit h, decide_eq_true_iff]
  simp only [show '0'.toNat = 48 from rfl, show '9'.toNat = 57 from rfl] at *
  omega

theorem ofDigits_eq (h : ∀ c ∈ ds, c.isDigit) : ofDigits 10 ds = Nat.ofDigitChars 10 ds 0 := by
  rw [Nat.ofDigitChars_eq_foldl]
  exact List.foldl_ext _ _ _ fun n c hc => by rw [digitValue_of_isDigit (h c hc)]

theorem isDigit_of_mem_toDigits (h : c ∈ Nat.toDigits 10 n) : c.isDigit :=
  Nat.isDigit_of_mem_toDigits (by decide) (by decide) h

/-- **The number of the digits of a number.** -/
theorem ofDigits_toDigits (n : Nat) : ofDigits 10 (Nat.toDigits 10 n) = n := by
  rw [ofDigits_eq fun _ => isDigit_of_mem_toDigits, Nat.ofDigitChars_ten_toDigits]

theorem head?_toDigits_ne (h : 0 < n) : (Nat.toDigits 10 n).head? ≠ some '0' := by
  induction n using Nat.strongRecOn with
  | ind n ih =>
    rw [Nat.toDigits_eq_if (by decide)]
    split
    · simp only [List.head?_cons, ne_eq, Option.some.injEq, Nat.digitChar_eq_zero]
      omega
    · have hne := ih (n / 10) (by omega) (by omega)
      rwa [List.head?_append_of_ne_nil _ Nat.toDigits_ne_nil]

theorem toDigits_of_head (h : Nat.toDigits 10 n = '0' :: ds) : ds = [] := by
  rcases Nat.eq_zero_or_pos n with rfl | hpos
  · rw [Nat.toDigits_zero] at h
    exact (List.cons.inj h).2.symm
  · exact absurd (h ▸ rfl) (head?_toDigits_ne hpos)

end Text

namespace Toml

open Text

variable {c : Char} {ds : List Char} {n : Nat}

theorem digits?_of_isDigit : ∀ {ds : List Char}, ds ≠ [] → (∀ c ∈ ds, c.isDigit) → digits? 10 ds = some ds
  | [c], _, h => if_pos (isDigitOf_of_isDigit (h c (List.mem_singleton_self c)))
  | c :: d :: ds, _, h => by
    have hc := isDigitOf_of_isDigit (h c List.mem_cons_self)
    have hrest := digits?_of_isDigit (List.cons_ne_nil d ds) fun x hx => h x (List.mem_cons_of_mem c hx)
    have hd : d ≠ '_' := by
      rintro rfl
      exact absurd (h '_' (List.mem_cons_of_mem c List.mem_cons_self)) (by decide)
    rw [digits?, if_pos hc, hrest]
    · rfl
    · exact nofun
    · exact fun rest hcons => hd (List.cons.inj hcons).1

theorem digits?_toDigits (n : Nat) : digits? 10 (Nat.toDigits 10 n) = some (Nat.toDigits 10 n) :=
  digits?_of_isDigit Nat.toDigits_ne_nil fun _ => isDigit_of_mem_toDigits

/-- **The digits of a number are a decimal**: they do not begin with a zero unless that is all. -/
theorem decimal?_toDigits (n : Nat) : decimal? (Nat.toDigits 10 n) = some (Nat.toDigits 10 n) := by
  unfold decimal?
  rw [digits?_toDigits]
  split
  · next h => exact absurd (toDigits_of_head (Option.some.inj h)) (List.cons_ne_nil _ _)
  · rfl

theorem based?_toDigits (n : Nat) : based? (Nat.toDigits 10 n) = none := by
  unfold based?
  split
  case h_4 => rfl
  all_goals next h => exact absurd (toDigits_of_head h) (List.cons_ne_nil _ _)

theorem splitSign_toDigits (n : Nat) : splitSign (Nat.toDigits 10 n) = (false, Nat.toDigits 10 n) := by
  have hdigit : ∀ {c ds}, Nat.toDigits 10 n = c :: ds → c.isDigit := fun h =>
    isDigit_of_mem_toDigits (h ▸ List.mem_cons_self)
  unfold splitSign
  split
  · next h => exact absurd (hdigit h) (by decide)
  · next h => exact absurd (hdigit h) (by decide)
  · rfl

/-! ### Integers -/

theorem toList_signed (n : Int) :
    (signed n).toList = if n < 0 then '-' :: Nat.toDigits 10 n.natAbs else Nat.toDigits 10 n.natAbs := by
  unfold signed decimal
  split
  · exact String.toList_append.trans (congrArg (['-'] ++ ·) String.toList_ofList)
  · exact String.toList_ofList

theorem int64_of_bounds {n : Int} (hlow : -2 ^ 63 ≤ n) (hhigh : n < 2 ^ 63) :
    Int64.minValue.toInt ≤ n ∧ n ≤ Int64.maxValue.toInt := by
  rw [show Int64.minValue.toInt = -9223372036854775808 from rfl,
    show Int64.maxValue.toInt = 9223372036854775807 from rfl]
  omega

/-- **An integer of 64 bits is the integer of its token.** -/
theorem integer?_signed {n : Int} (hlow : -2 ^ 63 ≤ n) (hhigh : n < 2 ^ 63) : integer? (signed n).toList = some n := by
  have hrange := int64_of_bounds hlow hhigh
  rw [toList_signed]
  split
  · unfold integer?
    rw [show based? ('-' :: Nat.toDigits 10 n.natAbs) = none from rfl]
    simp only [splitSign, decimal?_toDigits, Option.map_some, if_true, ofDigits_toDigits, Option.bind_some]
    rw [show -(n.natAbs : Int) = n by omega, if_pos hrange]
  · unfold integer?
    rw [based?_toDigits]
    simp only [splitSign_toDigits, decimal?_toDigits, Option.map_some, Bool.false_eq_true, if_false,
      ofDigits_toDigits, Option.bind_some]
    rw [show (n.natAbs : Int) = n by omega, if_pos hrange]

theorem isTokenChar_of_isDigit (h : c.isDigit) : isTokenChar c = true := by
  simp [isTokenChar, Char.isAlphanum, h]

theorem isTokenChar_signed (n : Int) : ∀ c ∈ (signed n).toList, isTokenChar c = true := by
  intro c hc
  rw [toList_signed] at hc
  split at hc
  · rcases List.mem_cons.1 hc with rfl | hc
    · rfl
    · exact isTokenChar_of_isDigit (isDigit_of_mem_toDigits hc)
  · exact isTokenChar_of_isDigit (isDigit_of_mem_toDigits hc)

end Toml

end FiberStacks
