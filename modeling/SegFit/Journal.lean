import SegFit.Failure
import SegFit.Audit.Violation

/-!
# The journal

A heap keeps a record of what it does: each record has a level and a
wording. Where an address occurs in it, the wording has `@` and the
distance from the region's first byte; a null pointer is `0x0`.
-/

namespace SegFit

/-- How much a record matters. -/
inductive Level
  | error | warn | debug | trace
  deriving DecidableEq, Repr

/-- A level's name. -/
def Level.name : Level → String
  | error => "error"
  | warn => "warn"
  | debug => "debug"
  | trace => "trace"

/-- Something a heap or its store did. -/
inductive Record
  /-- An arena had no room for a request. -/
  | exhausted (requested used capacity : Nat)
  /-- Links could not reach the end of the grown region. -/
  | unreachable (grown : Nat)
  /-- The region grew at an address. -/
  | extended (grown block : Nat)
  /-- The store refused the bytes of the layout. -/
  | layoutRefused (cause : Failure)
  /-- The layout was written at an address. -/
  | laidOut (base : Nat)
  /-- The store refused the first chunk. -/
  | chunkRefused (cause : Failure)
  /-- A request was served by a block, of the size it asked for. -/
  | allocated (request block size : Nat)
  /-- A request was not served. -/
  | mallocFailed (request : Nat) (cause : Failure)
  /-- A block of some size was given back. -/
  | freed (block size : Nat)
  /-- A pointer was given back to a heap without layout or chunk. -/
  | freeFailed (block : Option Nat) (cause : Failure)
  /-- A payload moved, and some of its bytes with it. -/
  | moved (old request new kept : Nat)
  /-- A payload could not be moved. -/
  | reallocFailed (old : Option Nat) (request : Nat) (cause : Failure)
  /-- A request for zeroed bytes was not served. -/
  | callocFailed (count size : Nat) (cause : Failure)
  /-- An audit found something wrong. -/
  | found (line : Line) (violation : Violation)
  deriving DecidableEq, Repr

/-- An address as the journal of a region from `start` on writes it. -/
def place (start a : Nat) : String := "@" ++ toString ((a : Int) - start)

/-- A pointer as the journal of a region from `start` on writes it. -/
def pointer (start : Nat) (p : Option Nat) : String := p.elim (Hex.number 0) (place start)

namespace Record

/-- The level of a record. -/
def level : Record → Level
  | found .. => .error
  | exhausted .. | unreachable .. | layoutRefused .. | chunkRefused .. | mallocFailed ..
  | freeFailed .. | reallocFailed .. | callocFailed .. => .warn
  | extended .. | laidOut .. => .debug
  | allocated .. | freed .. | moved .. => .trace

/-- The wording of a record in the journal of a region from `start`
on. -/
def text (start : Nat) : Record → String
  | exhausted requested used capacity =>
    s!"arena exhausted: {requested} bytes requested, {used} of {capacity} in use"
  | unreachable grown => s!"heap extension of {grown} bytes exceeds the offset range"
  | extended grown block => s!"heap extended by {grown} bytes at {place start block}"
  | layoutRefused e => s!"heap initialization failed: {e}"
  | laidOut base => s!"heap initialized at {place start base}"
  | chunkRefused e => s!"initial heap chunk unavailable: {e}"
  | allocated n p size => s!"malloc({n}) -> {place start p} ({size} byte block)"
  | mallocFailed n e => s!"malloc({n}) failed: {e}"
  | freed p size => s!"free({place start p}) ({size} byte block)"
  | freeFailed p e => s!"free({pointer start p}) on unusable heap: {e}"
  | moved p n q kept => s!"realloc({place start p}, {n}) -> {place start q} ({kept} bytes kept)"
  | reallocFailed p n e => s!"realloc({pointer start p}, {n}) failed: {e}"
  | callocFailed count size e => s!"calloc({count}, {size}) failed: {e}"
  | found line v => line.label ++ v.text (place start)

end Record

end SegFit
