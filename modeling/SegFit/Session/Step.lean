import SegFit.Session.Basic

/-!
# The steps of a session

A slot changes when its command is done: a command that stops early
leaves it as it was, and so does a move that finds no room. A slot that
is freed, or moved to no bytes, is null before its pointer is given
back, so it stays null even if that stops early.
-/

namespace SegFit

namespace Turn

variable {σ : Type} [Store σ]

/-- Allocates for a slot. -/
def allocate (i : Nat) (x : Operation σ (Option Nat)) : Turn σ (Option Nat) := do
  let p ← operate x
  put i p
  return p

/-- Moves a slot's payload to `n` bytes. -/
def move (i n : Nat) (x : Option Nat → Nat → Operation σ (Option Nat)) :
    Turn σ (Option Nat) := do
  let p ← pointer i
  if n = 0 then put i none
  let q ← operate (x p n)
  if q.isSome then put i q
  return q

/-- Empties a slot and gives its payload back. -/
def free (i : Nat) : Turn σ Unit := do
  let p ← pointer i
  put i none
  operate (Heap.free p)

/-- Does something with the address and the length of the part of a
slot's payload that starts at `start`, has at most `length` bytes and
ends where its usable bytes do. -/
def within (i start length : Nat) (x : Nat → Nat → Operation σ Answer) : Turn σ Answer := do
  match ← pointer i with
  | none => return .nullSlot
  | some p => operate do
    let usable ← Heap.look (·.usableSize p)
    x (p + start) (min (start + length) usable - start)

/-- Reads the heap as its directory has it. A heap not yet laid out is
read as it would be at the first byte of its region. -/
def survey (x : Heap σ → Directory → Answer) : Turn σ Answer := do
  let h := (← get).heap
  return x h (h.directory.getD (.ofBase h.region.start))

/-- The address at an offset in the region. -/
def address (offset : Nat) : Turn σ Nat := return (← get).heap.region.start + offset

/-- Carries out a command. -/
def perform : Command → Turn σ Answer
  | .init => do
    operate Heap.init
    return .ready
  | .malloc i n => .pointer <$> allocate i (Heap.malloc n)
  | .tryMalloc i n => .pointer <$> allocate i (Heap.tryMalloc n)
  | .calloc i count size => .pointer <$> allocate i (Heap.calloc count size)
  | .tryCalloc i count size => .pointer <$> allocate i (Heap.tryCalloc count size)
  | .realloc i n => .pointer <$> move i n Heap.realloc
  | .tryRealloc i n => .pointer <$> move i n Heap.tryRealloc
  | .free i => do
    free i
    return .done
  | .mallocMany i count n growth =>
    .pointers <$> (List.range count).mapM fun k => allocate (i + k) (Heap.malloc (n + k * growth))
  | .freeMany i count stride => do
    (List.range count).forM fun k => free (i + k * stride)
    return .done
  | .usableSize i => do
    let p ← pointer i
    return .count ((← get).heap.usableSize p)
  | .write i start length v => within i start length fun a n => do
    Heap.edit (·.writeRamp a n v)
    return .count n
  | .fill i start length v => within i start length fun a n => do
    Heap.edit (·.fill a n v)
    return .count n
  | .read i start length => within i start length fun a n => .bytes <$> Heap.look (·.read a n)
  | .digest i start length =>
    within i start length fun a n => .digest <$> Heap.look (·.digest a n 0)
  | .audit line => .report <$> operate (Heap.audit (some line))
  | .peek offset n => do
    let a ← address offset
    .words <$> operate (Heap.look (·.words a n))
  | .poke offset v => do
    let a ← address offset
    operate (Heap.edit (·.setWord a v))
    return .done
  | .blocks => survey fun h d => .blocks (h.blocksOf d)
  | .lists => survey fun h d => .lists (h.listsOf d)

end Turn

namespace Session

variable {σ : Type} [Store σ]

/-- Carries out a command and gives its answer, which tells also if it
stopped early. -/
def step (c : Command) (s : Session σ) : Answer × Session σ :=
  match Turn.perform c s with
  | .ok a s => (a, s)
  | .error stop s => (.stopped stop, s)

end Session

end SegFit
