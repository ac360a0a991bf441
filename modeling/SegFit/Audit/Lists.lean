import SegFit.Audit.Probe
import SegFit.Directory
import SegFit.Unseen

/-!
# The walk over the lists

The second half of an audit follows every list of the directory. It
counts the blocks it meets and notes what is wrong with a block or its
place in the list; it leaves a list at a block it has met there before,
at one that is not in the region, and at an allocated one. A neighbour
counts as free only if the walk over the blocks met it as a free block,
so a broken tag does not lead this walk out of the region.
-/

namespace SegFit

namespace Audit

/-- What the walk has met so far. -/
structure Tally where
  /-- The number of blocks met in lists. -/
  listed : Nat := 0
  violations : Array Violation := #[]

/-- Notes a violation if there is one. -/
def Tally.note (t : Tally) (wrong : Bool) (v : Violation) : Tally :=
  if wrong then { t with violations := t.violations.push v } else t

/-- Counts a block of the given size after one of size `before`, and
notes a free neighbour, a size outside the class, a previous link that
does not lead back, and a size below the one before. -/
def Tally.enter (t : Tally) (c : SizeClass) (p size : Nat) (touches linksBack : Bool)
    (before : Option Nat) : Tally :=
  let t := { t with listed := t.listed + 1 }
  let t := t.note touches (.uncoalesced p)
  let t := t.note (!c.contains size) (.wrongClass p size c)
  let t := t.note (!linksBack) (.brokenBackLink p c)
  t.note (before.any (size < ·)) (.unsorted p c)

variable {f : Type → Type} [Monad f]

/-- Follows the list of a class from the block `next` on. The blocks
before it are `seen`, the latest of them, with its size, is `prev`, and
`free` holds the free blocks of the region. -/
@[specialize] def walkList (probe : Probe f) (r : Region) (d : Directory) (free : Array Nat)
    (c : SizeClass) (seen : List Nat) (prev : Option (Nat × Nat)) (next : Option Nat)
    (t : Tally) : f Tally := do
  match next with
  | none => return t
  | some p =>
    if _ : p ∈ seen then
      return t.note true (.listCycle c)
    else if _ : r.Holds (p - Layout.tags) ∧ r.Holds (p + (Layout.tags - 1)) then
      let header := Tag.mk (← probe.word (p - Layout.word))
      if header.isAllocated then
        return t.note true (.allocatedInList p c)
      else
        let footerBefore := Tag.mk (← probe.word (p - Layout.tags))
        let link ← probe.word p
        let next ← probe.word (p + Layout.word)
        let isFree := fun q => q != p && free.contains q
        let touches := isFree (p - footerBefore.size) || isFree (p + header.size)
        let linksBack := link == d.encode (prev.map Prod.fst)
        walkList probe r d free c (p :: seen) (some (p, header.size)) (d.resolve next)
          (t.enter c p header.size touches linksBack (prev.map Prod.snd))
    else
      return t.note true (.outOfHeap p)
termination_by unseen r.stop seen
decreasing_by
  have := ‹r.Holds (p - Layout.tags) ∧ r.Holds (p + (Layout.tags - 1))›.2.2
  exact unseen_cons_lt (by omega) ‹_›

/-- Follows the list of every class in turn. -/
@[specialize] def surveyLists (probe : Probe f) (r : Region) (d : Directory)
    (free : Array Nat) : f Tally :=
  SizeClass.all.foldlM (fun t c => do
    let head ← probe.word (d.slot c)
    walkList probe r d free c [] none (d.resolve head) t) {}

end Audit

end SegFit
