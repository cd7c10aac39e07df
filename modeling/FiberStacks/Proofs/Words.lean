import FiberStacks.Word
import Mathlib.Algebra.Ring.Int.Defs
import Mathlib.Algebra.Ring.Nat
import Mathlib.Logic.ExistsUnique

/-!
# Words and what they are read as

An odd word is read as the integer it is the word of, and an integer is read back from its word up to the 63 bits a
word has for it.  The words of blocks are read back as well, but more words than those are read as blocks: the mark
and the alignment say nothing about the bits between an index of 32 bits and the mark.

* `Word.int?_ofInt_bmod`, `Word.int?_eq_some_iff` — integers and their words;
* `Word.block?_ofBlock`, `Word.block?_eq_some_iff` — blocks and the words read as them;
* `Word.spare`, `Word.respaced` — **the bits that no reference uses**, and a reference with something in them;
* `Word.readings` — **how far words and readings correspond**.
-/

namespace FiberStacks

namespace Word

variable {w v : Word} {n : Int} {b c : BlockId}

theorem ext_toNat (h : w.bits.toNat = v.bits.toNat) : w = v := by
  cases w
  cases v
  exact congrArg mk (UInt64.toNat_inj.1 h)

/-! ### Integers -/

theorem toNat_ofInt (n : Int) : ((ofInt n).bits.toNat : Int) = (2 * n + 1) % 2 ^ 64 := by
  simp [ofInt, UInt64.ofInt]
  omega

/-- **An integer is read from its word modulo `2 ^ 63`**, as the representative nearest to zero. -/
theorem int?_ofInt_bmod (n : Int) : (ofInt n).int? = some (n.bmod (2 ^ 63)) := by
  have hbits := toNat_ofInt n
  have hodd : (ofInt n).bits.toNat % 2 = 1 := by omega
  have hhalf : (((ofInt n).bits.toNat / 2 : Nat) : Int) = n % 2 ^ 63 := by omega
  rw [int?, if_pos (by simp [isInt, hodd]), hhalf]
  exact congrArg some (Int.emod_bmod n (2 ^ 63))

theorem int?_ofInt (hlow : -2 ^ 62 ≤ n) (hhigh : n < 2 ^ 62) : (ofInt n).int? = some n := by
  rw [int?_ofInt_bmod, Int.bmod_eq_of_le (by omega) (by omega)]

theorem ofInt_of_int? (h : w.int? = some n) : ofInt n = w ∧ -2 ^ 62 ≤ n ∧ n < 2 ^ 62 := by
  have hlt : w.bits.toNat < 2 ^ 64 := w.bits.toNat_lt
  unfold int? isInt at h
  split at h
  case isFalse => cases h
  case isTrue hodd =>
    have hodd : w.bits.toNat % 2 = 1 := by simpa using hodd
    have hread : -2 ^ 62 ≤ n ∧ n < 2 ^ 62 ∧ (n = w.bits.toNat / 2 ∨ n = w.bits.toNat / 2 - 2 ^ 63) := by
      rw [← Option.some.inj h, show 1 <<< 63 = 9223372036854775808 from rfl, Int.bmod_def]
      split <;> omega
    have hbits := toNat_ofInt n
    exact ⟨ext_toNat (by omega), hread.1, hread.2.1⟩

theorem int?_eq_some_iff : w.int? = some n ↔ ofInt n = w ∧ -2 ^ 62 ≤ n ∧ n < 2 ^ 62 :=
  ⟨ofInt_of_int?, fun ⟨hword, hlow, hhigh⟩ => hword ▸ int?_ofInt hlow hhigh⟩

/-! ### Blocks -/

theorem blockMark_eq : blockMark = 2 ^ 48 := rfl

theorem toNat_ofBlock (b : BlockId) : (ofBlock b).bits.toNat = 2 ^ 48 + 8 * b.index := by
  have hb : b.index < 2 ^ 32 := b.index_lt
  rw [ofBlock, blockMark_eq]
  simp only [UInt64.toNat_ofNat']
  omega

/-- The bits between the index of a block and the mark. -/
def spare (w : Word) : Nat := w.bits.toNat % blockMark / 2 ^ 35

theorem isBlock_iff : w.isBlock = true ↔ w.bits.toNat / 2 ^ 48 = 1 ∧ w.bits.toNat % 8 = 0 := by
  simp [isBlock, blockMark_eq]

/-- **What is read as a block is the word of that block, with anything in the spare bits.** -/
theorem block?_eq_some_iff : w.block? = some b ↔ w.bits.toNat = (ofBlock b).bits.toNat + 2 ^ 35 * w.spare := by
  have hb : b.index < 2 ^ 32 := b.index_lt
  rw [toNat_ofBlock, spare, blockMark_eq, block?, blockMark_eq]
  constructor
  · intro h
    split at h
    case isFalse => cases h
    case isTrue hshape =>
      rw [isBlock_iff] at hshape
      have hindex := congrArg BlockId.index (Option.some.inj h)
      rw [BlockId.index_ofIndex, UInt32.size] at hindex
      omega
  · intro h
    rw [if_pos (isBlock_iff.2 (by omega))]
    refine congrArg some (BlockId.index_inj ?_)
    rw [BlockId.index_ofIndex, UInt32.size]
    omega

theorem spare_ofBlock (b : BlockId) : (ofBlock b).spare = 0 := by
  have hb : b.index < 2 ^ 32 := b.index_lt
  rw [spare, toNat_ofBlock, blockMark_eq]
  omega

theorem block?_ofBlock (b : BlockId) : (ofBlock b).block? = some b := by
  rw [block?_eq_some_iff, spare_ofBlock]
  rfl

@[simp] theorem block?_ofLink (p : Option BlockId) : (ofLink p).block? = p := by
  cases p with
  | none => rfl
  | some b => exact block?_ofBlock b

theorem ofBlock_inj (h : ofBlock b = ofBlock c) : b = c := by
  have hblock := congrArg block? h
  rw [block?_ofBlock, block?_ofBlock] at hblock
  exact Option.some.inj hblock

theorem ofBlock_eq_iff : ofBlock b = w ↔ w.block? = some b ∧ w.spare = 0 := by
  constructor
  · rintro rfl
    exact ⟨block?_ofBlock b, spare_ofBlock b⟩
  · rintro ⟨hblock, hspare⟩
    rw [block?_eq_some_iff, hspare] at hblock
    exact ext_toNat hblock.symm

/-- The word of a block with something in the spare bits. -/
def respaced (b : BlockId) (k : Fin (2 ^ 13)) : Word := ⟨UInt64.ofNat ((ofBlock b).bits.toNat + 2 ^ 35 * k)⟩

theorem toNat_respaced (b : BlockId) (k : Fin (2 ^ 13)) :
    (respaced b k).bits.toNat = (ofBlock b).bits.toNat + 2 ^ 35 * k := by
  have hb : b.index < 2 ^ 32 := b.index_lt
  have hk : (k : Nat) < 2 ^ 13 := k.isLt
  rw [respaced, toNat_ofBlock]
  simp only [UInt64.toNat_ofNat']
  omega

theorem spare_respaced (b : BlockId) (k : Fin (2 ^ 13)) : (respaced b k).spare = k := by
  have hb : b.index < 2 ^ 32 := b.index_lt
  have hk : (k : Nat) < 2 ^ 13 := k.isLt
  rw [spare, toNat_respaced, toNat_ofBlock, blockMark_eq]
  omega

theorem block?_eq_some_and_spare_iff {k : Fin (2 ^ 13)} :
    w.block? = some b ∧ w.spare = k ↔ w = respaced b k := by
  rw [block?_eq_some_iff]
  constructor
  · rintro ⟨hbits, hspare⟩
    exact ext_toNat (by rw [hbits, toNat_respaced, hspare])
  · rintro rfl
    rw [spare_respaced]
    exact ⟨toNat_respaced b k, rfl⟩

/-! ### The correspondence -/

/-- **How far words and readings correspond.**  No word is read both as an integer and as a block.  A word is read as
an integer exactly if it is the word of that integer and the integer has 63 bits; any integer is read from its word
modulo `2 ^ 63`.  Every block is read from its word.  That word is the one with nothing in the spare bits among the
words read as the block, and there is one more for each other value of the spare bits. -/
theorem readings (w : Word) (n : Int) (b : BlockId) (k : Fin (2 ^ 13)) :
    ¬(w.isInt = true ∧ w.isBlock = true) ∧
    (w.int? = some n ↔ ofInt n = w ∧ -2 ^ 62 ≤ n ∧ n < 2 ^ 62) ∧
    (ofInt n).int? = some (n.bmod (2 ^ 63)) ∧
    (ofBlock b).block? = some b ∧
    (ofBlock b = w ↔ w.block? = some b ∧ w.spare = 0) ∧
    ∃! v : Word, v.block? = some b ∧ v.spare = k := by
  refine ⟨fun ⟨hint, hblock⟩ => ?_, int?_eq_some_iff, int?_ofInt_bmod n, block?_ofBlock b, ofBlock_eq_iff,
    respaced b k, ?_, fun v => block?_eq_some_and_spare_iff.1⟩
  · rw [isBlock_eq_false_of_isInt hint] at hblock
    cases hblock
  · exact block?_eq_some_and_spare_iff.2 rfl

/-- A word with one spare bit is read as block zero and is not the word of it. -/
theorem not_ofBlock_of_block? : ¬ ∀ (w : Word) (b : BlockId), w.block? = some b → ofBlock b = w := by
  intro h
  have hword := h ⟨0x1000800000000⟩ ⟨0⟩ (by decide)
  exact absurd hword (by decide)

end Word

end FiberStacks
