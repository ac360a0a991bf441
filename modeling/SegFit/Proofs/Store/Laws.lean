import SegFit.Store.Arena
/-!
# What a store owes its heap

A store may refuse any request, for any cause and at any moment, and
change within as it likes. It owes the heap two things: a refusal leaves
the region alone, and a grant extends it at its end by the bytes asked
for. A truthful store also reports the extent of its region as its size.
All that a heap can learn of its store, but for where the region is, is
the store's `behaviour`.
-/

namespace SegFit

namespace Store

variable {σ : Type} [Store σ]

/-- **A store that grows as documented** and does not understate its
size. -/
class Lawful (σ : Type) [Store σ] : Prop where
  /-- Granted bytes are those behind the region. -/
  grow_ok {n : Nat} {s : σ} {p : Nat} : (Store.grow n s).answer = .ok p →
    p = (Store.region s).stop ∧
      Store.region (Store.grow n s).store =
        ⟨(Store.region s).start, (Store.region s).extent + n⟩
  grow_error {n : Nat} {s : σ} {e : Failure} : (Store.grow n s).answer = .error e →
    Store.region (Store.grow n s).store = Store.region s
  extent_le_size (s : σ) : (Store.region s).extent ≤ Store.size s

/-- **A store whose size is the extent of its region.** -/
class Truthful (σ : Type) [Store σ] : Prop extends Lawful σ where
  size_eq (s : σ) : Store.size s = (Store.region s).extent

/-- **What a store shows**: how far its region extends, what size it
reports, and which requests it would refuse, and why. -/
structure Face where
  extent : Nat
  size : Nat
  refusal : Nat → Option Failure

/-- What a store shows as it is. -/
def face (s : σ) : Face where
  extent := (Store.region s).extent
  size := Store.size s
  refusal n := match (Store.grow n s).answer with
    | .ok _ => none
    | .error e => some e

/-- **How a store grows**: what it shows after any sequence of requests. -/
def behaviour (s : σ) : List Nat → Face
  | [] => face s
  | n :: ns => behaviour (Store.grow n s).store ns

end Store

theorem Arena.grow_of_le {n : Nat} {a : Arena} (h : a.used + n ≤ a.capacity) :
    a.grow n =
      { answer := .ok (a.start + a.used), store := { a with used := a.used + n, used_le := h } } :=
  dif_pos h

theorem Arena.grow_of_lt {n : Nat} {a : Arena} (h : a.capacity < a.used + n) :
    (a.grow n).answer = .error .outOfMemory ∧ (a.grow n).store = a := by
  unfold Arena.grow
  rw [dif_neg (by omega)]
  exact ⟨rfl, rfl⟩

/-- **Arenas are truthful stores.** -/
instance : Store.Truthful Arena where
  grow_ok {n a p} h := by
    change (a.grow n).answer = .ok p at h
    change p = _ ∧ Store.region (a.grow n).store = _
    by_cases hle : a.used + n ≤ a.capacity
    · rw [Arena.grow_of_le hle] at h ⊢
      cases h
      exact ⟨rfl, rfl⟩
    · rw [(Arena.grow_of_lt (by omega)).1] at h
      cases h
  grow_error {n a e} h := by
    change (a.grow n).answer = .error e at h
    change Store.region (a.grow n).store = _
    by_cases hle : a.used + n ≤ a.capacity
    · rw [Arena.grow_of_le hle] at h
      cases h
    · rw [(Arena.grow_of_lt (by omega)).2]
  extent_le_size a := Nat.le_refl a.used
  size_eq _ := rfl

end SegFit
