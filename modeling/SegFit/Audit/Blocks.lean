import SegFit.Audit.Probe
import SegFit.Directory

/-!
# The walk over the blocks

The first half of an audit goes from block to block, from the prologue
to the epilogue. It notes the free blocks it meets and whatever is wrong
with a block, and stops where it cannot tell where the next block is.
-/

namespace SegFit

namespace Audit

/-- What the walk has met so far. -/
structure Survey where
  /-- The payloads of the free blocks, in ascending order. -/
  free : Array Nat := #[]
  violations : Array Violation := #[]

/-- Notes a violation if there is one. -/
def Survey.note (s : Survey) (wrong : Bool) (v : Violation) : Survey :=
  if wrong then { s with violations := s.violations.push v } else s

/-- Notes a block: a tag that differs, and a free block after a free
one. -/
def Survey.enter (s : Survey) (p : Nat) (header footer : Tag) (afterFree : Bool) : Survey :=
  let s := s.note (header != footer) (.tagMismatch p header footer)
  if header.isAllocated then s
  else { s with free := s.free.push p }.note afterFree (.uncoalesced p)

variable {f : Type → Type} [Monad f]

/-- Walks from the block at `p` to the end; `afterFree` says whether the
block before was free. -/
@[specialize] def walkBlocks (probe : Probe f) (r : Region) (p : Nat) (afterFree : Bool)
    (s : Survey) : f Survey := do
  if _ : r.Holds (p - Layout.word) then
    let header := Tag.mk (← probe.word (p - Layout.word))
    if header = .epilogue then
      return s.note (p != r.stop) (.badEpilogue p)
    else if _ : header.size = 0 then
      return s.note true (.zeroSize p)
    else
      let s := s.note (!Layout.isAligned p) (.misaligned p)
      let reach ← probe.sub header.size (Layout.word + 1)
      if r.Holds (p + reach) then
        let footer := Tag.mk (← probe.word (p + header.size - Layout.tags))
        walkBlocks probe r (p + header.size) (!header.isAllocated)
          (s.enter p header footer afterFree)
      else
        return s.note true (.outOfHeap p)
  else
    return s.note true (.outOfHeap p)
termination_by r.stop + Layout.word - p
decreasing_by
  have := (‹r.Holds (p - Layout.word)›).2
  change r.stop + Layout.word - (p + header.size) < r.stop + Layout.word - p
  omega

/-- Walks over all blocks, if the prologue is what it should be. -/
@[specialize] def surveyBlocks (probe : Probe f) (r : Region) (d : Directory) : f Survey := do
  let header := Tag.mk (← probe.word (d.origin - Layout.word))
  if header = .prologue then
    let footer := Tag.mk (← probe.word (d.origin + header.size - Layout.tags))
    if footer = .prologue then
      walkBlocks probe r (d.origin + header.size) false {}
    else
      return Survey.note {} true (.badPrologue header)
  else
    return Survey.note {} true (.badPrologue header)

end Audit

end SegFit
