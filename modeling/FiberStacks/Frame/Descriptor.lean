import FiberStacks.Size

/-!
# Frame descriptors

A descriptor tells, for one return address, how long the frame of the call is and where it keeps live references.

* `LiveSlot` — a saved register or a place in the frame, with its 16-bit encoding;
* `FrameDescriptor` — size and live slots of the frame a call returns to; one size marks the top of a chunk.
-/

namespace FiberStacks

/-- Where a frame keeps one live reference. -/
inductive LiveSlot where
  /-- A saved register of the enclosing chunk. -/
  | register (number : UInt16)
  /-- A distance in bytes from the start of the frame. -/
  | stack (offset : UInt16)
deriving DecidableEq, Repr

namespace LiveSlot

/-- Odd encodings are registers. -/
def decode (code : UInt16) : LiveSlot :=
  if code.toNat % 2 = 1 then register (UInt16.ofNat (code.toNat / 2)) else stack code

/-- A register is shifted up and made odd; a distance stands for itself. -/
def encode : LiveSlot → UInt16
  | register r => UInt16.ofNat (2 * r.toNat + 1)
  | stack o => o

end LiveSlot

/-- The frame size that marks the top of a chunk. -/
def chunkMark : UInt16 := 0xFFFF

/-- The return address under which a fiber hands its final value to its parent. -/
def valueReturn : UInt64 := 0x00007f0000000010

/-- The return address under which a fiber passes an uncaught exception on. -/
def exceptionReturn : UInt64 := 0x00007f0000000020

/-- What is known of the frame a return address belongs to. -/
structure FrameDescriptor where
  address : UInt64
  /-- Size in bytes; the two low bits are flags. -/
  size : UInt16
  live : List LiveSlot
deriving DecidableEq, Repr

namespace FrameDescriptor

/-- The descriptor of a return address at the top of a chunk. -/
def boundary (address : UInt64) : FrameDescriptor := ⟨address, chunkMark, []⟩

/-- Whether a descriptor marks the top of a chunk. -/
def isBoundary (d : FrameDescriptor) : Bool := d.size == chunkMark

def words (d : FrameDescriptor) : Nat := d.size.toNat / 4 * 4 / wordBytes

end FrameDescriptor

end FiberStacks
