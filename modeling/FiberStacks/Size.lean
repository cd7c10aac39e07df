import FiberStacks.Fault

/-!
# Sizes

Sizes are counted in words of eight bytes and held in 64 bits.  A sum or a product of sizes that does not fit is a
fault of its own.
-/

namespace FiberStacks

def wordBytes : Nat := 8

namespace Size

/-- One more than the largest size. -/
def bound : Nat := 1 <<< 64

/-- A number that has to fit in 64 bits. -/
def fit (f : Fault) (n : Nat) : Except Fault Nat := if n < bound then .ok n else .error f

def add (a b : Nat) : Except Fault Nat := fit .sumTooLarge (a + b)

def double (a : Nat) : Except Fault Nat := fit .productTooLarge (2 * a)

def bytes (words : Nat) : Except Fault Nat := fit .productTooLarge (words * wordBytes)

def kibibytes (words : Nat) : Nat := words * wordBytes / 1024

/-- Most words one piece of memory can hold: its bytes are counted by a signed 64-bit number. -/
def allocatable : Nat := ((1 <<< 63) - 1) / wordBytes

variable {f : Fault} {a b m n : Nat}

theorem fit_of_lt (h : n < bound) : fit f n = .ok n := if_pos h

theorem fit_of_le (h : bound ≤ n) : fit f n = .error f := if_neg (Nat.not_lt_of_le h)

theorem fit_eq_ok_iff : fit f n = .ok m ↔ n < bound ∧ m = n := by
  unfold fit
  split
  · next h => simp [h, eq_comm]
  · next h => simp [h]

theorem add_of_lt (h : a + b < bound) : add a b = .ok (a + b) := fit_of_lt h

theorem double_of_lt (h : 2 * a < bound) : double a = .ok (2 * a) := fit_of_lt h

end Size

end FiberStacks
