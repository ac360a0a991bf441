import SegFit.FreeLists.Basic

/-!
# Carving

A request is served from the front of a free block. What the request
leaves over becomes a free block of its own if it is large enough to be
one, and otherwise stays with the request.
-/

namespace SegFit

namespace FreeLists

variable (d : FreeLists)

/-- Serves `need` bytes from the filed free block at `p`, which has as
many. -/
def carve (p need : Nat) (m : Memory) : Memory :=
  let size := m.blockSize p
  let left := Layout.wrappingSub size need
  let m := d.remove p m
  if left < Layout.minBlock then m.setTags p size true
  else
    let m := m.setTags p need true
    let rest := m.after p
    m |>.setTags rest left false |> d.insert rest

end FreeLists

end SegFit
