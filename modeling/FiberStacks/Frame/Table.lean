import FiberStacks.Frame.Descriptor

/-!
# The frame table

Descriptors by return address, in an open-addressed hash table with linear probing and a power of two of slots, at
most half of them taken.

* `FrameTable.find?` — the descriptor of an address;
* `FrameTable.insert` — add a descriptor or replace the one with its address;
* `FrameTable.build` — the table of a list of descriptors; the two addresses a fiber ends at always come first.
-/

namespace FiberStacks

/-- An open-addressed table. -/
structure FrameTable where
  slots : List (Option FrameDescriptor)
  /-- Number of slots taken. -/
  count : Nat
deriving DecidableEq, Repr

namespace FrameTable

/-- The home slot of an address, for a mask one less than a power of two. -/
def home (address : UInt64) (mask : Nat) : Nat := address.toNat / 8 &&& mask

def empty (size : Nat) : FrameTable := ⟨List.replicate size none, 0⟩

def mask (t : FrameTable) : Nat := t.slots.length - 1

/-- From slot `h` on, the first of `n` slots that is free or holds the address. -/
def probe (t : FrameTable) (address : UInt64) : (n h : Nat) → Option Nat
  | 0, _ => none
  | n + 1, h =>
    match t.slots[h]? with
    | none => none
    | some none => some h
    | some (some d) => if d.address = address then some h else probe t address n ((h + 1) &&& t.mask)

/-- The slot that holds an address, or the free slot it would go to. -/
def slotOf? (t : FrameTable) (address : UInt64) : Option Nat :=
  t.probe address t.slots.length (home address t.mask)

def find? (t : FrameTable) (address : UInt64) : Option FrameDescriptor :=
  (t.slotOf? address).bind fun h => t.slots[h]?.join

def place (t : FrameTable) (d : FrameDescriptor) : FrameTable :=
  match t.slotOf? d.address with
  | none => t
  | some h =>
    { slots := t.slots.set h (some d)
      count := if t.slots[h]?.join.isNone then t.count + 1 else t.count }

/-- Whether one more descriptor would fill more than half of the slots. -/
def isCrowded (t : FrameTable) : Bool := t.slots.length < 2 * (t.count + 1)

/-- The descriptors of a table in the order of its slots. -/
def entries (t : FrameTable) : List FrameDescriptor := t.slots.filterMap id

/-- The same descriptors in twice as many slots. -/
def doubled (t : FrameTable) : FrameTable := t.entries.foldl place (empty (2 * t.slots.length))

/-- Add a descriptor, or replace the one with its address. -/
def insert (t : FrameTable) (d : FrameDescriptor) : FrameTable :=
  (if t.isCrowded then t.doubled else t).place d

/-- The least power of two from four on that leaves half of the slots free. -/
def sizeFor (count : Nat) : Nat := 1 <<< ((max 4 (2 * count) - 1).log2 + 1)

/-- The table of a list of descriptors, after the two addresses a fiber ends at. -/
def build (ds : List FrameDescriptor) : FrameTable :=
  (.boundary valueReturn :: .boundary exceptionReturn :: ds).foldl insert (empty (sizeFor (ds.length + 2)))

def size (t : FrameTable) : Nat := t.count

def isEmpty (t : FrameTable) : Bool := t.count == 0

/-! ### The size of a new table -/

theorem isPowerOfTwo_sizeFor (count : Nat) : (sizeFor count).isPowerOfTwo := ⟨_, Nat.one_shiftLeft _⟩

theorem two_dvd_sizeFor (count : Nat) : 2 ∣ sizeFor count := by
  rw [sizeFor, Nat.one_shiftLeft, Nat.pow_succ]
  exact Nat.dvd_mul_left 2 _

theorem le_sizeFor (count : Nat) : max 4 (2 * count) ≤ sizeFor count := by
  have hlt : max 4 (2 * count) - 1 < sizeFor count := by
    rw [sizeFor, Nat.one_shiftLeft]
    exact (Nat.log2_lt (by omega)).1 (Nat.lt_succ_self _)
  omega

theorem sizeFor_le {count s : Nat} (hs : s.isPowerOfTwo) (hle : max 4 (2 * count) ≤ s) : sizeFor count ≤ s := by
  obtain ⟨k, rfl⟩ := hs
  have hlog : (max 4 (2 * count) - 1).log2 < k := (Nat.log2_lt (by omega)).2 (by omega)
  rw [sizeFor, Nat.one_shiftLeft]
  exact Nat.pow_le_pow_right Nat.two_pos hlog

end FrameTable

end FiberStacks
