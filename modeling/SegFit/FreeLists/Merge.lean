import SegFit.FreeLists.Basic

/-!
# Merging

No two free blocks should touch. A block that has just become free is
merged with whichever of its neighbours are free: all are taken out of
their lists, the leftmost takes the whole size, and it is filed anew.
The prologue and the epilogue are allocated, so a neighbour is always
there to ask.
-/

namespace SegFit

namespace FreeLists

variable (d : FreeLists)

/-- Makes one free block at `start` of the filed blocks `parts`, which
together cover it, and files it. -/
def fuse (start : Nat) (parts : List Nat) (m : Memory) : Memory :=
  let m := parts.foldl (fun m p => d.remove p m) m
  let size := parts.foldr (fun p n => m.blockSize p + n) 0
  m |>.setTags start size false |> d.insert start

/-- Merges the filed block at `p` with its free neighbours, and gives
the block that now covers it. -/
def merge (p : Nat) (m : Memory) : Nat × Memory :=
  let left := m.before p
  let right := m.after p
  match m.isAllocated left, m.isAllocated right with
  | true, true => (p, m)
  | true, false => (p, d.fuse p [p, right] m)
  | false, true => (left, d.fuse left [p, left] m)
  | false, false => (left, d.fuse left [p, left, right] m)

end FreeLists

end SegFit
