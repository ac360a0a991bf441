import SegFit.Hex
import SegFit.SizeClass
import SegFit.Tag

/-!
# Violations

What an audit can find wrong with a heap, and the report it makes of
it. Blocks are named by the address of their payload; how an address is
written is the reader's choice, so `text` takes it as a parameter.
-/

namespace SegFit

/-- One broken invariant of a heap. -/
inductive Violation
  /-- The heap has no layout yet. -/
  | uninitialized
  /-- The prologue's tags are not those of a prologue. -/
  | badPrologue (header : Tag)
  /-- A block's header differs from its footer. -/
  | tagMismatch (block : Nat) (header footer : Tag)
  /-- A payload is not at a multiple of eight. -/
  | misaligned (block : Nat)
  /-- A block's words are not all in the region. -/
  | outOfHeap (block : Nat)
  /-- A header of size zero is no epilogue. -/
  | zeroSize (block : Nat)
  /-- An epilogue is not the last word of the region. -/
  | badEpilogue (block : Nat)
  /-- A free block has a free neighbour. -/
  | uncoalesced (block : Nat)
  /-- An allocated block is in a list. -/
  | allocatedInList (block : Nat) (list : SizeClass)
  /-- A list holds a block of a size outside its class. -/
  | wrongClass (block size : Nat) (list : SizeClass)
  /-- A block's previous link is not the block before it. -/
  | brokenBackLink (block : Nat) (list : SizeClass)
  /-- A block is smaller than the one before it. -/
  | unsorted (block : Nat) (list : SizeClass)
  /-- A list comes back to a block it has passed. -/
  | listCycle (list : SizeClass)
  /-- The lists do not hold as many blocks as are free. -/
  | unlisted (free listed : Nat)
  deriving DecidableEq, Repr

namespace Violation

/-- The wording of a violation, with addresses written by `addr`. -/
def text (addr : Nat → String) : Violation → String
  | uninitialized => "heap not initialized"
  | badPrologue header => "corrupted prologue tag " ++ Hex.number header.raw.toNat
  | tagMismatch b header footer =>
    "block " ++ addr b ++ ": header " ++ Hex.number header.raw.toNat
      ++ " differs from footer " ++ Hex.number footer.raw.toNat
  | misaligned b => "block " ++ addr b ++ " not aligned"
  | outOfHeap b => "block " ++ addr b ++ " not in heap"
  | zeroSize b => "block " ++ addr b ++ " has size 0"
  | badEpilogue b => "epilogue " ++ addr b ++ " not at the end of the heap"
  | uncoalesced b => "free block " ++ addr b ++ " not coalesced"
  | allocatedInList b c => "allocated block " ++ addr b ++ s!" in list {c.index}"
  | wrongClass b size c => "block " ++ addr b ++ s!" of size {size} in wrong list {c.index}"
  | brokenBackLink b c =>
    "block " ++ addr b ++ s!" in list {c.index} has a stale previous link"
  | unsorted b c => "block " ++ addr b ++ s!" out of size order in list {c.index}"
  | listCycle c => s!"list {c.index} does not terminate"
  | unlisted free listed => s!"{free} free blocks in heap but {listed} in lists"

end Violation

/-- The line an audit is asked for from, where one is known. -/
abbrev Line := Option Nat

/-- A line as it is written before each finding. -/
def Line.label (line : Line) : String :=
  "line " ++ (line.elim "?" toString) ++ ": "

/-- What an audit found, in the order it found it. -/
structure Report where
  line : Line
  violations : List Violation
  deriving DecidableEq, Repr

namespace Report

/-- Is nothing wrong? -/
def isOk (r : Report) : Bool := r.violations.isEmpty

/-- A line for each violation, or one that says there is none. -/
def text (addr : Nat → String) (r : Report) : String :=
  if r.isOk then r.line.label ++ "heap consistent"
  else "\n".intercalate (r.violations.map fun v => r.line.label ++ v.text addr)

end Report

end SegFit
