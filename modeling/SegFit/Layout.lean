/-!
# The layout of a heap

A heap lies in one growing region of the machine's bytes, and an address
is a natural number. At its base a heap holds a directory of ten list
heads, a word of padding, the prologue's two tags and the epilogue's
tag; the blocks lie between prologue and epilogue. This module fixes
those positions and the rounding of a request to a block size. Sizes are
machine words: arithmetic that would pass `2 ^ 64` has no result
(`checkedAdd?`, `alignUp?`), and a block size has to fit in the 32 bits
of a tag (`blockSizeFor?`).
-/

namespace SegFit

namespace Layout

/-- The bytes of a tag, a link or a list head. -/
abbrev word : Nat := 4

/-- The bytes of a block's two tags together. -/
abbrev tags : Nat := 8

/-- Payloads and block sizes are multiples of this. -/
abbrev alignment : Nat := 8

/-- A block holds at least its two tags and two links. -/
abbrev minBlock : Nat := 16

/-- The heap grows by at least this many bytes. -/
abbrev chunk : Nat := 4096

/-- The number of free lists. -/
abbrev classes : Nat := 10

/-- The bytes a heap lays out before its first block: ten list heads, a
word of padding, two prologue tags and the epilogue's tag. -/
abbrev bytes : Nat := 56

/-- The word of padding, measured from the base. -/
abbrev pad : Nat := 40

/-- The prologue's header, measured from the base. -/
abbrev prologueHeader : Nat := 44

/-- The prologue's footer, measured from the base. Links are distances
from here. -/
abbrev origin : Nat := 48

/-- The first epilogue, measured from the base. -/
abbrev epilogue : Nat := 52

/-- The capacity of an arena nobody chose one for. -/
abbrev defaultCapacity : Nat := 20 <<< 20

/-- The number of values of a tag or a link. -/
abbrev wordRange : Nat := 1 <<< 32

/-- The number of values of a size. -/
abbrev sizeRange : Nat := 1 <<< 64

/-- Is an address a multiple of the alignment? -/
def isAligned (a : Nat) : Bool := a % alignment == 0

/-- A sum of sizes, if it is a size. -/
def checkedAdd? (a b : Nat) : Option Nat :=
  if a + b < sizeRange then some (a + b) else none

/-- A difference of sizes, modulo the range of sizes. -/
def wrappingSub (a b : Nat) : Nat :=
  if b ≤ a then a - b else a + sizeRange - b

@[simp] theorem wrappingSub_of_le {a b : Nat} (h : b ≤ a) : wrappingSub a b = a - b :=
  if_pos h

/-- The least multiple of the alignment that is not below `n`. -/
def alignUp (n : Nat) : Nat := (n + (alignment - 1)) / alignment * alignment

/-- The size `n` rounded up to the alignment, if that is a size. -/
def alignUp? (n : Nat) : Option Nat :=
  (checkedAdd? n (alignment - 1)).map fun _ => alignUp n

/-- The block that serves a payload of `n` bytes: its tags are added, the
sum is rounded up and never below the smallest block. There is none if
a tag cannot hold the size. -/
def blockSizeFor? (n : Nat) : Option Nat := do
  let tagged ← checkedAdd? n tags
  let size := max (← alignUp? tagged) minBlock
  if size < wordRange then some size else none

/-- Is `n` a power of two? -/
def isPowerOfTwo (n : Nat) : Bool := n != 0 && 1 <<< n.log2 == n

/-- May a region of `size` bytes be laid out at multiples of `align`?
The alignment is a power of two and the size rounded up to it is at most
`2 ^ 63 - 1`. -/
def isRegion (size align : Nat) : Bool :=
  isPowerOfTwo align && size + (align - 1) < 1 <<< 63

end Layout

end SegFit
