import SegFit.FreeLists.Carve
import SegFit.Heap.Growth

/-!
# Allocation

The operations of a heap's user. A pointer is the address of a payload,
or none. The `try` forms stop for the cause of a failure; the others
record it and give no pointer. An operation that ends well is followed
by an audit in a heap that audits itself.
-/

namespace SegFit

namespace Heap

variable {σ : Type} [Store σ]

/-- A payload of at least `n` bytes, from the best free block, or else
from new bytes. A request for no bytes gives no pointer, ready or
not. -/
def tryMalloc (n : Nat) : Operation σ (Option Nat) := do
  let d ← attempt ready
  if n = 0 then return none
  else
    match d with
    | .error e => fail e
    | .ok d =>
      let need ← orFail .overflow (Layout.blockSizeFor? n)
      let p ← do
        match ← look (d.findFit · need) with
        | some p => pure p
        | none => extend d (max need Layout.chunk)
      edit (d.carve p need)
      record (.allocated n p need)
      auditItself
      return some p

/-- Gives a payload back. -/
def free (p : Option Nat) : Operation σ Unit := do
  match ← attempt ready with
  | .error e => record (.freeFailed p e)
  | .ok d =>
    match p with
    | none => pure ()
    | some p =>
      let size ← look (·.blockSize p)
      edit (·.setTags p size false)
      edit (d.insert p)
      discard (editWith (d.merge p))
      record (.freed p size)
      auditItself

/-- A payload of at least `n` bytes with the old one's contents, as far
as both go; the old one is given back. Without an old payload this only
allocates, and for no bytes it only gives back. -/
def tryRealloc (p : Option Nat) (n : Nat) : Operation σ (Option Nat) := do
  if n = 0 then
    free p
    return none
  else
    match p with
    | none => tryMalloc n
    | some old =>
      match ← tryMalloc n with
      | none => return none
      | some new =>
        let kept ← look fun m => min (m.usableSize old) (m.usableSize new)
        edit (·.copy old new kept)
        free (some old)
        record (.moved old n new kept)
        return some new

/-- A payload of at least `count * size` bytes, all of them zero. -/
def tryCalloc (count size : Nat) : Operation σ (Option Nat) := do
  if count * size < Layout.sizeRange then
    match ← tryMalloc (count * size) with
    | none => return none
    | some p =>
      edit fun m =>
        let n := m.usableSize p
        m.fill p n 0
      return some p
  else fail .overflow

/-- Gives what an operation gives; if it fails, records its cause and
gives no pointer. -/
def orNull (x : Operation σ (Option Nat)) (r : Failure → Record) : Operation σ (Option Nat) := do
  match ← attempt x with
  | .ok p => return p
  | .error e =>
    record (r e)
    return none

/-- Allocates as `tryMalloc` does. -/
def malloc (n : Nat) : Operation σ (Option Nat) := orNull (tryMalloc n) (.mallocFailed n)

/-- Moves as `tryRealloc` does. -/
def realloc (p : Option Nat) (n : Nat) : Operation σ (Option Nat) :=
  orNull (tryRealloc p n) (.reallocFailed p n)

/-- Allocates as `tryCalloc` does. -/
def calloc (count size : Nat) : Operation σ (Option Nat) :=
  orNull (tryCalloc count size) (.callocFailed count size)

end Heap

end SegFit
