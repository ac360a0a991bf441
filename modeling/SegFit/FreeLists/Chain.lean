import SegFit.FreeLists.Basic
import SegFit.Unseen

/-!
# Lists as sequences

`chain` reads a list as the sequence of its blocks. On
a memory nobody broke that is the list; on any other it ends at a block
it has passed, and after a block whose next link is not wholly in the
region.
-/

namespace SegFit

namespace FreeLists

variable (d : FreeLists)

/-- The blocks from one on, along the next links, until one of those
`seen` comes up. -/
def chainFrom (m : Memory) (stop : Nat) (seen : List Nat) : Option Nat → List Nat
  | none => []
  | some p =>
    if _ : p ∈ seen then []
    else if _ : p + Layout.tags ≤ stop then p :: chainFrom m stop (p :: seen) (d.next m p)
    else [p]
termination_by unseen stop seen
decreasing_by
  rename_i hnew hin
  exact unseen_cons_lt (by simp only [Layout.tags] at hin; omega) hnew

/-- The blocks of a list, in order. -/
def chain (m : Memory) (stop : Nat) (c : SizeClass) : List Nat :=
  d.chainFrom m stop [] (d.head m c)

end FreeLists

end SegFit
