import SegFit.Block
import SegFit.SizeClass

/-!
# Free lists

There is a list of free blocks for each size class, sorted by size.
Everything about the lists is in memory: the heads are ten words in a
row, and a free block's first two payload words link it to the block
before and the block after it in its list. Links and heads are distances
from a fixed origin, which no block starts at, so that zero means no
link. Where the heads are and where the origin is have nothing to do
with each other here.

A list is read from its `seam` at a size: the last block smaller and the
first block at least as large. A block is filed at the seam of its own
size, and the seam of a request finds the best block of a class for it.
-/

namespace SegFit

/-- Ten lists of free blocks, by the words that say where they are. -/
structure FreeLists where
  /-- The address of the heads, a word for each class. -/
  heads : Nat
  /-- The address links are measured from. -/
  origin : Nat
  deriving DecidableEq, Repr

namespace FreeLists

variable (d : FreeLists)

/-- The address of a list's head. -/
def slot (c : SizeClass) : Nat := d.heads + Layout.word * c.index

/-! ## Links -/

/-- A block as a link. What is not above the origin, or further from it
than a word can say, is written as no link. -/
def encode : Option Nat → UInt32
  | none => 0
  | some p =>
    if d.origin < p ∧ p - d.origin < Layout.wordRange then UInt32.ofNat (p - d.origin) else 0

/-- The block a link leads to. -/
def resolve (link : UInt32) : Option Nat :=
  if link = 0 then none else some (d.origin + link.toNat)

@[simp] theorem resolve_encode_none : d.resolve (d.encode none) = none := rfl

/-- **A link leads back to the block it was made of**, if that is above
the origin and not too far from it. -/
theorem resolve_encode {p : Nat} (hp : d.origin < p) (hlt : p - d.origin < Layout.wordRange) :
    d.resolve (d.encode (some p)) = some p := by
  have hword : p - d.origin < 2 ^ 32 := hlt
  have hne : UInt32.ofNat (p - d.origin) ≠ 0 := by
    intro h
    have := congrArg UInt32.toNat h
    simp only [UInt32.toNat_ofNat', UInt32.toNat_zero] at this
    omega
  have hsum : d.origin + (UInt32.ofNat (p - d.origin)).toNat = p := by
    simp only [UInt32.toNat_ofNat']; omega
  rw [encode, if_pos ⟨hp, hlt⟩, resolve, if_neg hne, hsum]

/-- The first block of a list. -/
def head (m : Memory) (c : SizeClass) : Option Nat := d.resolve (m.word (d.slot c))

/-- The block before `p` in its list. -/
def prev (m : Memory) (p : Nat) : Option Nat := d.resolve (m.word p)

/-- The block after `p` in its list. -/
def next (m : Memory) (p : Nat) : Option Nat := d.resolve (m.word (p + Layout.word))

/-- Makes `q` the first block of a list. -/
def setHead (c : SizeClass) (q : Option Nat) (m : Memory) : Memory :=
  m.setWord (d.slot c) (d.encode q)

/-- Makes `q` the block before `p`. -/
def setPrev (p : Nat) (q : Option Nat) (m : Memory) : Memory := m.setWord p (d.encode q)

/-- Makes `q` the block after `p`. -/
def setNext (p : Nat) (q : Option Nat) (m : Memory) : Memory :=
  m.setWord (p + Layout.word) (d.encode q)

/-- Makes `q` follow `p` in the list of a class, or lead it. -/
def setAfter (c : SizeClass) (p q : Option Nat) (m : Memory) : Memory :=
  match p with
  | none => d.setHead c q m
  | some p => d.setNext p q m

/-- Makes `p` precede `q`, if there is such a block. -/
def setBefore (p : Option Nat) (q : Option Nat) (m : Memory) : Memory :=
  match q with
  | none => m
  | some q => d.setPrev q p m

/-- Empties every list. -/
def clear (m : Memory) : Memory := SizeClass.all.foldl (fun m c => d.setHead c none m) m

/-! ## Seams -/

/-- A place in a list: the block before it and the block after it. -/
structure Seam where
  before : Option Nat
  after : Option Nat
  deriving DecidableEq, Repr

/-- The number of different links. A list that is longer comes back to a
block it has passed. -/
abbrev maxLength : Nat := Layout.wordRange

/-- The first place in front of a block of at least the given size, or
at the end of the list, from one place on and within `fuel` blocks. -/
def seamFrom (m : Memory) (size : Nat) : Nat → Seam → Option Seam
  | 0, _ => none
  | _ + 1, ⟨before, none⟩ => some ⟨before, none⟩
  | fuel + 1, ⟨before, some q⟩ =>
    if size ≤ m.blockSize q then some ⟨before, some q⟩
    else seamFrom m size fuel ⟨some q, d.next m q⟩

/-- Where a block of the given size belongs in a list: in front of the
first block at least as large. A list without end or such a block has
no such place. -/
def seam (m : Memory) (c : SizeClass) (size : Nat) : Option Seam :=
  d.seamFrom m size maxLength ⟨none, d.head m c⟩

/-! ## Filing blocks -/

/-- Makes `p` the block at a seam for the blocks on both sides of it. A head
is written last. -/
def setBetween (c : SizeClass) (p : Nat) (s : Seam) (m : Memory) : Memory :=
  match s.before with
  | none => m |> d.setBefore (some p) s.after |> d.setHead c (some p)
  | some q => m |> d.setNext q (some p) |> d.setBefore (some p) s.after

/-- Files the block at `p` in the list of its class. -/
def insert (p : Nat) (m : Memory) : Memory :=
  let size := m.blockSize p
  let c := SizeClass.ofSize size
  match d.seam m c size with
  | none => m
  | some s => m |> d.setPrev p s.before |> d.setNext p s.after |> d.setBetween c p s

/-- Takes the block at `p` out of the list of its class. -/
def remove (p : Nat) (m : Memory) : Memory :=
  let c := SizeClass.ofSize (m.blockSize p)
  let before := d.prev m p
  let after := d.next m p
  m |> d.setAfter c before after |> d.setBefore before after

/-- The first block of at least the given size, over the lists from its
class on. -/
def findFit (m : Memory) (size : Nat) : Option Nat :=
  (SizeClass.ofSize size).andLarger.findSome? fun c => (d.seam m c size).bind Seam.after

end FreeLists

end SegFit
