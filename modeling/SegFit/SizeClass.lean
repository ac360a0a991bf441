import SegFit.Layout

/-!
# Size classes

Free blocks are filed by size into ten classes. Class `0` holds the
sizes up to 16, class `k` those in `(16 * 2 ^ (k - 1), 16 * 2 ^ k]`, and
the last class everything larger. `ofSize` selects the class of a size;
`lowerBound`, `upperBound` and `contains` describe a class by its
interval.
-/

namespace SegFit

/-- A size class, by its index. -/
structure SizeClass where
  index : Fin Layout.classes
  deriving DecidableEq, Repr

namespace SizeClass

/-- The number of classes. -/
def count : Nat := Layout.classes

/-- The class of the largest sizes. -/
def last : SizeClass := ⟨9, by decide⟩

instance : Inhabited SizeClass := ⟨last⟩

/-- The classes from the smallest sizes to the largest. -/
def all : List SizeClass := (List.finRange Layout.classes).map SizeClass.mk

/-- The class of index `i`, if there is one. -/
def ofIndex? (i : Nat) : Option SizeClass :=
  if h : i < Layout.classes then some ⟨⟨i, h⟩⟩ else none

/-- The largest size of a class that is not the last. -/
def limit (c : SizeClass) : Nat := Layout.minBlock <<< (c.index : Nat)

/-- The class a size is filed under: the first whose limit is not below
the size, or else the last. -/
def ofSize (size : Nat) : SizeClass :=
  (all.find? fun c => c == last || size ≤ c.limit).getD last

/-- This class and every larger one, in ascending order. -/
def andLarger (c : SizeClass) : List SizeClass := all.drop c.index

/-- The sizes of a class lie strictly above this bound. -/
def lowerBound (c : SizeClass) : Nat :=
  if (c.index : Nat) = 0 then 0 else Layout.minBlock <<< ((c.index : Nat) - 1)

/-- The largest size of a class; the last class has none. -/
def upperBound (c : SizeClass) : Option Nat :=
  if c = last then none else some c.limit

/-- Does a size lie within the bounds of a class? -/
def contains (c : SizeClass) (size : Nat) : Bool :=
  c.lowerBound < size && c.upperBound.all (size ≤ ·)

/-- The classes that contain a size. -/
def containing (size : Nat) : List SizeClass := all.filter (·.contains size)

end SizeClass

end SegFit
