import SegFit.Store.Basic

/-!
# Arenas

An arena is a region of fixed capacity, reserved at once and handed out
from its start. Its capacity is below `2 ^ 32`, so that a link can reach
every byte of it, and it never hands out more than it has. A region that
is not at the start of an arena has the arena's earlier bytes before it.
-/

namespace SegFit

/-- The address of an arena that is not given another. -/
def Arena.address : Nat := 16

theorem Arena.address_aligned : address % Layout.alignment = 0 := rfl

/-- A region of fixed capacity, of which the first bytes are in use. It can be
at any aligned address. -/
structure Arena where
  /-- The address of the first byte. -/
  start : Nat := Arena.address
  capacity : Nat
  used : Nat := 0
  start_aligned : start % Layout.alignment = 0 := by exact Arena.address_aligned
  capacity_lt : capacity < Layout.wordRange
  used_le : used ≤ capacity := by omega

namespace Arena

/-- An empty arena of at least the given capacity, if links can reach
all of it. -/
def ofCapacity (n : Nat) : Except Failure Arena :=
  if h : n < Layout.wordRange then
    .ok { capacity := max n Layout.alignment
          capacity_lt := Nat.max_lt.2 ⟨h, by decide⟩ }
  else .error .overflow

/-- An empty arena of the default capacity. -/
def default : Arena := { capacity := Layout.defaultCapacity, capacity_lt := by decide }

instance : Inhabited Arena := ⟨default⟩

/-- The arena with no byte in use. -/
def reset (a : Arena) : Arena := { a with used := 0, used_le := Nat.zero_le _ }

/-- Hands out the next `n` bytes if that many are left. A request that
would pass the range of sizes is refused without a record. -/
def grow (n : Nat) (a : Arena) : Growth Arena :=
  if h : a.used + n ≤ a.capacity then
    { answer := .ok (a.start + a.used), store := { a with used := a.used + n, used_le := h } }
  else
    { answer := .error .outOfMemory
      store := a
      records := if a.used + n < Layout.sizeRange then [.exhausted n a.used a.capacity] else [] }

instance : Store Arena where
  grow := grow
  region a := ⟨a.start, a.used⟩
  size := used

end Arena

end SegFit
