import SegFit.Memory.Basic
import SegFit.Store.Basic

/-!
# Probes

An audit reads memory that may hold anything, so it is written against a
probe: a way to read words and to subtract sizes. `Probe.plain` reads a
memory as it is. `Probe.guarded` reads it too, but has no result for a
word that is not wholly inside the region, or for a difference below
zero; an audit that gives the same report through either has done
neither.
-/

namespace SegFit

/-- A way to read words and to subtract sizes. -/
structure Probe (f : Type → Type) where
  /-- The word at an address. -/
  word : Nat → f UInt32
  /-- The difference of two sizes. -/
  sub : Nat → Nat → f Nat

namespace Probe

/-- Reads a memory as it is. -/
def plain (m : Memory) : Probe Id where
  word a := m.word a
  sub a b := Layout.wrappingSub a b

/-- Reads a memory, but no word that reaches out of the region. -/
def guarded (r : Region) (m : Memory) : Probe Option where
  word a := if r.start ≤ a ∧ a + Layout.word ≤ r.stop then some (m.word a) else none
  sub a b := if b ≤ a then some (a - b) else none

end Probe

end SegFit
