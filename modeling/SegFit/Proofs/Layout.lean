import SegFit.Layout
import Mathlib.Algebra.GroupWithZero.Nat
import Mathlib.Order.Bounds.Basic
/-!
# Requests and block sizes

What rounding gives: the least multiple of the alignment, and for a
request the least size a block that serves it can have.
-/

namespace SegFit

namespace Layout

variable {n g need a : Nat}

theorem alignUp?_eq_some (h : alignUp? n = some g) : n ≤ g ∧ g < n + 8 ∧ g % 8 = 0 := by
  simp only [alignUp?, checkedAdd?, Option.map_eq_some_iff] at h
  obtain ⟨-, -, rfl⟩ := h
  simp only [alignUp, alignment]
  omega

/-- A size that is rounded up is rounded to what the rounding says. -/
theorem eq_alignUp_of_alignUp? (h : alignUp? n = some g) : g = alignUp n := by
  obtain ⟨-, -, rfl⟩ := Option.map_eq_some_iff.1 h
  rfl

/-- A multiple of the alignment is its own. -/
theorem alignUp?_of_aligned (h8 : n % 8 = 0) (hlt : n + (alignment - 1) < sizeRange) :
    alignUp? n = some n := by
  have hup : alignUp n = n := by
    simp only [alignUp, alignment]
    omega
  rw [alignUp?, checkedAdd?, if_pos hlt, Option.map_some, hup]

theorem alignUp?_chunk : alignUp? chunk = some chunk := by decide

/-- **The block for a request** has room for it, and is a size a block
can have. -/
theorem blockSizeFor?_eq_some (h : blockSizeFor? n = some need) :
    n + 8 ≤ need ∧ need ≤ max 16 (n + 15) ∧ 16 ≤ need ∧ need % 8 = 0 ∧ need < 2 ^ 32 := by
  simp only [blockSizeFor?, bind, Option.bind_eq_some_iff, checkedAdd?, tags, minBlock] at h
  obtain ⟨tagged, htagged, aligned, haligned, h⟩ := h
  obtain ⟨h1, h2, h3⟩ := alignUp?_eq_some haligned
  split at htagged
  · cases htagged
    split at h
    · cases h
      rename_i hlt
      simp only [wordRange] at hlt
      omega
    · cases h
  · cases htagged

/-- **The block for a request of some bytes** is the request rounded up, and
its tags. The least size a block can have is no further restriction. -/
theorem blockSizeFor?_eq_alignUp (h : blockSizeFor? n = some need) (hn : 0 < n) :
    need = alignUp n + tags := by
  simp only [blockSizeFor?, alignUp?, checkedAdd?, bind, Option.bind_eq_some_iff,
    Option.map_eq_some_iff] at h
  obtain ⟨tagged, htagged, _, ⟨_, -, rfl⟩, h⟩ := h
  split at htagged
  · cases htagged
    split at h
    · cases h
      simp only [alignUp, alignment, tags, minBlock]
      omega
    · cases h
  · cases htagged

/-- A size a block can have is the size of the block for the payload such a
block has. -/
theorem blockSizeFor?_sub {size : Nat} (hlarge : 16 ≤ size) (h8 : size % 8 = 0)
    (hlt : size < 2 ^ 32) : blockSizeFor? (size - 8) = some size := by
  have hsum : size - 8 + tags = size := Nat.sub_add_cancel (by omega)
  have htagged : checkedAdd? (size - 8) tags = some size := by
    rw [checkedAdd?, hsum, if_pos (by simp only [sizeRange]; omega)]
  have haligned : alignUp? size = some size :=
    alignUp?_of_aligned h8 (by simp only [alignment, sizeRange]; omega)
  have hword : size < wordRange := hlt
  simp only [blockSizeFor?, htagged, haligned, bind, Option.bind_some]
  rw [Nat.max_eq_left hlarge, if_pos hword]

/-- **The block for a request** is the least multiple of the alignment that
holds the request and its tags, and there is one if a tag can hold its size. -/
theorem blockSizeFor?_of_isLeast (ha : IsLeast {k | 8 ∣ k ∧ max 16 (n + 8) ≤ k} a) :
    blockSizeFor? n = if a < 2 ^ 32 then some a else none := by
  obtain ⟨⟨h8, hle⟩, hleast⟩ := ha
  have hup : max (alignUp (n + tags)) minBlock = a := by
    simp only [alignUp, alignment, tags, minBlock]
    refine Nat.le_antisymm (by omega) (hleast ⟨by omega, by omega⟩)
  by_cases hsum : n + tags + (alignment - 1) < sizeRange
  · have htagged : n + tags < sizeRange := by omega
    simp only [blockSizeFor?, alignUp?, checkedAdd?, if_pos htagged, if_pos hsum, bind,
      Option.bind_some, Option.map_some, hup]
    rfl
  · -- a sum that is no size is not one a tag could hold
    simp only [tags, alignment, sizeRange] at hsum
    rw [if_neg (by omega), Option.eq_none_iff_forall_ne_some]
    intro size hsize
    have := blockSizeFor?_eq_some hsize
    omega

/-- Whether a tag can hold it is a matter of the request. -/
theorem lt_tagRange_iff (ha : IsLeast {k | 8 ∣ k ∧ max 16 (n + 8) ≤ k} a) :
    a < 2 ^ 32 ↔ n ≤ 2 ^ 32 - 16 := by
  obtain ⟨⟨h8, hle⟩, hleast⟩ := ha
  refine ⟨fun hlt => by omega, fun hle' => ?_⟩
  have : a ≤ 2 ^ 32 - 8 := hleast ⟨by decide, by omega⟩
  omega

/-- Growing for a request needs no rounding. -/
theorem alignUp?_max_chunk (h : blockSizeFor? n = some need) :
    alignUp? (max need chunk) = some (max need chunk) := by
  obtain ⟨-, -, -, h8, hlt⟩ := blockSizeFor?_eq_some h
  refine alignUp?_of_aligned ?_ ?_
  · simp only [chunk]
    omega
  · simp only [chunk, alignment, sizeRange]
    omega

end Layout

end SegFit
