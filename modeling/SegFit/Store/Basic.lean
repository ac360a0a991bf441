import SegFit.Journal

/-!
# Stores

A store is where a heap's bytes come from: one region that grows at its
end when asked to, or refuses. A store keeps its own account of how many
bytes it has given, which a heap goes by and which need not be the
region's extent.
-/

namespace SegFit

/-- Where the bytes of a heap are. -/
structure Region where
  /-- The address of the first byte. -/
  start : Nat
  /-- The number of bytes. -/
  extent : Nat
  deriving DecidableEq, Repr

namespace Region

/-- The address just behind the last byte. -/
def stop (r : Region) : Nat := r.start + r.extent

/-- The address `a` is one of the region's. -/
def Holds (r : Region) (a : Nat) : Prop := r.start ≤ a ∧ a < r.stop

instance (r : Region) (a : Nat) : Decidable (r.Holds a) := inferInstanceAs (Decidable (_ ∧ _))

/-- How far an address lies behind the first byte, or before it. -/
def offset (r : Region) (a : Nat) : Int := (a : Int) - r.start

end Region

/-- What came of asking a store to grow. -/
structure Growth (σ : Type) where
  /-- The address of the new bytes, or why there are none. -/
  answer : Except Failure Nat
  /-- The store after the request. -/
  store : σ
  /-- What the store wrote to the journal. -/
  records : List Record := []

/-- A region that grows on request. -/
class Store (σ : Type) where
  /-- Asks for `n` more bytes. -/
  grow : Nat → σ → Growth σ
  /-- The region as it is. -/
  region : σ → Region
  /-- The bytes given so far, by the store's own account. -/
  size : σ → Nat

end SegFit
