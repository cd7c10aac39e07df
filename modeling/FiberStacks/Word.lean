import FiberStacks.Text.Numeral

/-!
# Words and identifiers

A word is 64 bits and is read in one of three ways: an odd word is an immediate integer, a word with the block
mark in its high half-word and a multiple of eight below is a reference to a block, and any other word is raw
control data.

* `BlockId`, `DomainId`, `LockId` — identifiers of blocks, domains and lock records;
* `Word.ofInt`, `Word.ofBlock` — the word of an integer or of a block;
* `Word.int?`, `Word.block?` — the readings of a word;
* `Word.text`, `Word.ofText?` — a word in messages, and back.
-/

namespace FiberStacks

/-- Index of a block in the heap, 32 bits wide. -/
structure BlockId where
  bits : UInt32
deriving DecidableEq, Inhabited, Repr

namespace BlockId

/-- The block at an index of the heap; only the low 32 bits of the index count. -/
def ofIndex (n : Nat) : BlockId := ⟨UInt32.ofNat n⟩

def index (b : BlockId) : Nat := b.bits.toNat

def text (b : BlockId) : String := "block#" ++ Text.decimal b.index

theorem index_lt (b : BlockId) : b.index < UInt32.size := b.bits.toNat_lt

theorem index_ofIndex (n : Nat) : (ofIndex n).index = n % UInt32.size := by
  simp [ofIndex, index]

theorem index_ofIndex_of_lt {n : Nat} (h : n < UInt32.size) : (ofIndex n).index = n := by
  rw [index_ofIndex, Nat.mod_eq_of_lt h]

@[simp] theorem ofIndex_index (b : BlockId) : ofIndex b.index = b := by
  simp [ofIndex, index]

theorem index_inj {a b : BlockId} (h : a.index = b.index) : a = b := by
  rw [← ofIndex_index a, ← ofIndex_index b, h]

end BlockId

/-- A domain, numbered from one in order of creation. The counter itself has 32 bits and begins again after
`2 ^ 32` domains; the numbers here go on, so that none is given out twice. -/
structure DomainId where
  number : Nat
deriving DecidableEq, Inhabited, Repr

def DomainId.text (d : DomainId) : String := "domain#" ++ Text.decimal d.number

/-- A lock record, numbered from one in order of acquisition. The counter itself has 64 bits: the numbers here are
its numbers up to `2 ^ 64` acquisitions. -/
structure LockId where
  number : Nat
deriving DecidableEq, Inhabited, Repr

structure Word where
  bits : UInt64
deriving DecidableEq, Inhabited, Repr

namespace Word

/-- The mark of a block reference, in the highest of the four half-words. -/
def blockMark : Nat := 1 <<< 48

def null : Word := ⟨0⟩

/-- The word of an integer: twice it and one more, modulo `2 ^ 64`. -/
def ofInt (n : Int) : Word := ⟨UInt64.ofInt (2 * n + 1)⟩

/-- The integer zero, which also stands for an absent reference. -/
def unit : Word := ofInt 0

def ofBlock (b : BlockId) : Word := ⟨UInt64.ofNat (blockMark + 8 * b.index)⟩

/-- A reference to a block, or `unit` where there is none. -/
def ofLink : Option BlockId → Word
  | some b => ofBlock b
  | none => unit

def isInt (w : Word) : Bool := w.bits.toNat % 2 == 1

/-- Whether a word has the shape of a reference: the block mark alone above 48 bits, and a multiple of eight. -/
def isBlock (w : Word) : Bool := w.bits.toNat / blockMark == 1 && w.bits.toNat % 8 == 0

/-- The integer of an odd word: its upper 63 bits, signed. -/
def int? (w : Word) : Option Int :=
  if w.isInt then some (Int.bmod ↑(w.bits.toNat / 2) (1 <<< 63)) else none

/-- The block a reference names: the low 32 bits of the index above the three alignment bits. -/
def block? (w : Word) : Option BlockId :=
  if w.isBlock then some (BlockId.ofIndex (w.bits.toNat % blockMark / 8)) else none

def isUnit (w : Word) : Bool := w == unit

def text (w : Word) : String :=
  match w.int?, w.block? with
  | some n, _ => "Int(" ++ Text.signed n ++ ")"
  | none, some b => "Block(" ++ Text.decimal b.index ++ ")"
  | none, none => "Raw(" ++ Text.hex w.bits.toNat ++ ")"

/-- What stands between a name with an opening parenthesis and a closing one. -/
def inside? (name s : List Char) : Option (List Char) :=
  if name.isPrefixOf s && s.getLast? == some ')' then some (s.drop name.length).dropLast else none

/-- The word a text stands for: an integer, a block by its index, or raw bits. -/
def ofText? (s : String) : Option Word :=
  match inside? "Int(".toList s.toList, inside? "Block(".toList s.toList, inside? "Raw(".toList s.toList with
  | some t, _, _ => (Text.ofSigned? t).map ofInt
  | none, some t, _ => (Text.ofDecimal? t).map fun n => ofBlock (.ofIndex n)
  | none, none, some t => (Text.ofHex? t).map fun n => ⟨UInt64.ofNat n⟩
  | none, none, none => none

theorem isBlock_eq_false_of_isInt {w : Word} (h : w.isInt = true) : w.isBlock = false := by
  simp only [isInt, isBlock, beq_iff_eq, Bool.and_eq_false_iff, beq_eq_false_iff_ne] at *
  omega

end Word

end FiberStacks
