import SegFit.Audit.Blocks
import SegFit.Audit.Lists

/-!
# The audit of a heap

An audit walks over all blocks, then follows all lists, and last
compares how many free blocks each has met. It reports what it found in
that order.
-/

namespace SegFit

namespace Audit

variable {f : Type → Type} [Monad f]

/-- Everything wrong with the heap of a directory. -/
@[specialize] def inspect (probe : Probe f) (r : Region) (d : Directory) :
    f (List Violation) := do
  let survey ← surveyBlocks probe r d
  let tally ← surveyLists probe r d survey.free
  let counts := if survey.free.size = tally.listed then []
    else [.unlisted survey.free.size tally.listed]
  return survey.violations.toList ++ tally.violations.toList ++ counts

/-- Everything wrong with a memory, which need not have a directory
yet. -/
def violations (m : Memory) (r : Region) (d : Option Directory) : List Violation :=
  match d with
  | none => [.uninitialized]
  | some d => Id.run (inspect (.plain m) r d)

end Audit

end SegFit
