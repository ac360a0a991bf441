import SegFit.FreeLists.Basic

/-!
# Directories

The directory of a heap is its free lists as the heap lays them out. A
heap begins with the heads of ten empty lists, a word of padding, the
prologue, and the epilogue directly after it: no block yet, and the
first one's header will take the epilogue's place. Links are measured
from the prologue's payload.
-/

namespace SegFit

/-- **The free lists of a heap.** The heads are at its base, and the origin
of the links is at a fixed distance from them. -/
structure Directory extends FreeLists where
  origin_eq : origin = heads + Layout.origin
  deriving DecidableEq, Repr

instance : Coe Directory FreeLists := ⟨Directory.toFreeLists⟩

namespace Directory

/-- The directory of a heap laid out at an address. -/
def ofBase (base : Nat) : Directory := ⟨⟨base, base + Layout.origin⟩, rfl⟩

variable (d : Directory)

/-- The payload of the first block. -/
def firstBlock : Nat := d.origin + Layout.tags

/-- The word in front of the origin is the prologue's header. -/
theorem origin_sub_word : d.origin - Layout.word = d.heads + Layout.prologueHeader := by
  rw [d.origin_eq]
  rfl

theorem firstBlock_eq : d.firstBlock = d.heads + 56 := congrArg (· + 8) d.origin_eq

/-! ## Layout -/

/-- Writes the layout of a heap without blocks. -/
def layOut (m : Memory) : Memory :=
  m |>.setWord (d.heads + Layout.pad) 0
    |>.setWord (d.heads + Layout.prologueHeader) Tag.prologue.raw
    |>.setWord d.origin Tag.prologue.raw
    |>.setWord (d.heads + Layout.epilogue) Tag.epilogue.raw
    |> d.clear

/-- Makes one free block of the `grown` bytes new at the end of a
region, the last epilogue's word becoming its header, and writes a new
epilogue behind it. -/
def append (p grown : Nat) (m : Memory) : Memory :=
  let m := m.setTags p grown false
  let rest := m.after p
  m |>.setHeader rest .epilogue |> d.insert p

end Directory

end SegFit
