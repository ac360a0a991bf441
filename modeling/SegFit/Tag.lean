import SegFit.Layout

/-!
# Boundary tags

A tag packs a block's size and whether it is allocated into one word:
sizes are multiples of eight, so the lowest bit is free to say so. A tag
is kept as its raw word, since the audit compares and prints words that
no block ever wrote.
-/

namespace SegFit

/-- A boundary tag, as the word it is stored in. -/
structure Tag where
  raw : UInt32
  deriving DecidableEq, Repr, Inhabited

namespace Tag

/-- The tag of a block of the given size, cut to the width of a word. -/
def of (size : Nat) (allocated : Bool) : Tag :=
  ⟨UInt32.ofNat (size + allocated.toNat)⟩

/-- The tag that ends a heap: allocated, of size zero. -/
def epilogue : Tag := ⟨1⟩

/-- The tag of the prologue, a block of two tags and no payload. -/
def prologue : Tag := of Layout.tags true

/-- The size a tag holds, with its three lowest bits cleared. -/
def size (t : Tag) : Nat := t.raw.toNat / 8 * 8

/-- The lowest bit of a tag. -/
def isAllocated (t : Tag) : Bool := t.raw.toNat % 2 == 1

/-- **A tag gives back what it was made of**, where the size is a
multiple of eight that fits in a word. -/
theorem size_of {n : Nat} (h8 : n % 8 = 0) (h : n < Layout.wordRange) (b : Bool) :
    (of n b).size = n := by
  simp only [Layout.wordRange] at h
  cases b <;> simp [of, size] <;> omega

@[simp] theorem isAllocated_of {n : Nat} (h8 : n % 8 = 0) (b : Bool) :
    (of n b).isAllocated = b := by
  cases b <;> simp [of, isAllocated] <;> omega

theorem eight_dvd_size (t : Tag) : t.size % 8 = 0 := Nat.mul_mod_left _ _

theorem size_lt (t : Tag) : t.size < Layout.wordRange := by
  have := t.raw.toNat_lt
  simp only [size, Layout.wordRange]; omega

end Tag

end SegFit
