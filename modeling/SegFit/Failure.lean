/-!
# Why an allocation fails

Every operation that can fail gives one of four causes; `message` is its
wording.
-/

namespace SegFit

/-- The causes of a failed allocation. -/
inductive Failure
  /-- The store does not grow the region. -/
  | outOfMemory
  /-- The size has no block, or no tag that could hold it. -/
  | overflow
  /-- No region has that size and alignment. -/
  | badLayout
  /-- The heap has no layout yet, or no first chunk. -/
  | notReady
  deriving DecidableEq, Repr

/-- The wording of a cause. -/
def Failure.message : Failure → String
  | outOfMemory => "backing store cannot grow the heap"
  | overflow => "requested size overflows the heap encoding"
  | badLayout => "invalid backing region layout"
  | notReady => "heap initialization failed"

instance : ToString Failure := ⟨Failure.message⟩

end SegFit
