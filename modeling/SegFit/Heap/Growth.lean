import SegFit.Directory
import SegFit.FreeLists.Merge
import SegFit.Heap.Basic

/-!
# How a heap grows

A heap is laid out when it is first used and then grown by one chunk.
The store may refuse either request: without the layout the heap stays
as it was, and without the chunk it stays a heap without blocks. Later
growth makes the new bytes one free block, merged with the last block if
that one is free.
-/

namespace SegFit

namespace Heap

variable {σ : Type} [Store σ]

/-- Grows the heap by at least `n` bytes and gives the free block that
covers the new ones. -/
def extend (d : Directory) (n : Nat) : Operation σ Nat := do
  let grown ← orFail .overflow (Layout.alignUp? n)
  if (← get).size + grown < Layout.wordRange then
    let p ← request grown
    edit (d.append p grown)
    record (.extended grown p)
    editWith (d.merge p)
  else
    record (.unreachable grown)
    fail .outOfMemory

/-- Gives what an operation gives; if it fails, records its cause and
stops because the heap is not ready. -/
def orNotReady {α : Type} (x : Operation σ α) (r : Failure → Record) : Operation σ α := do
  match ← attempt x with
  | .ok a => return a
  | .error e =>
    record (r e)
    fail .notReady

/-- Grows the heap by its first chunk. -/
def firstChunk (d : Directory) : Operation σ Unit :=
  orNotReady (discard (extend d Layout.chunk)) .chunkRefused

/-- The directory of the heap, which is laid out if it is not yet. -/
def ready : Operation σ Directory := do
  match (← get).directory with
  | some d => return d
  | none =>
    let base ← orNotReady (request Layout.bytes) .layoutRefused
    let d := Directory.ofBase base
    edit d.layOut
    modify fun h => { h with directory := some d }
    record (.laidOut base)
    firstChunk d
    return d

/-- Makes the heap ready for use. A heap whose size is that of its
layout has no chunk, and asks for it again. -/
def init : Operation σ Unit := do
  let d ← ready
  if (← get).size = Layout.bytes then firstChunk d

end Heap

end SegFit
