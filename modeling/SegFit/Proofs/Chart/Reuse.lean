import SegFit.Proofs.Chart.Filing
/-!
# Serving what was just released

A block without a free neighbour is released as it is, and filed in front of
all blocks of its size, so it is the fit for its size then
(`findFit_file`). Carved for that size it is served whole, and the chart is
the one it was (`Depicts.carve_release`).
-/

namespace SegFit

/-- The search for a class begins with the class itself. -/
theorem SizeClass.andLarger_eq_cons (c : SizeClass) : ∃ larger, c.andLarger = c :: larger := by
  have hall : ∀ i : Fin 10, (andLarger ⟨i⟩).head? = some ⟨i⟩ := by decide
  exact List.head?_eq_some_iff.1 (hall c.index)

namespace Chart

variable {χ : Chart} {d : Directory} {m : Memory} {stop : Nat} {b : Block} {pre post : List Block}

/-- **What was just filed is the fit for its size**, also where other blocks
of its size are listed. -/
theorem findFit_file (hsorted : (χ.lists (SizeClass.ofSize b.size)).Pairwise Block.SizeLE) :
    (χ.file b).findFit b.size = some b := by
  obtain ⟨larger, hclasses⟩ := (SizeClass.ofSize b.size).andLarger_eq_cons
  obtain ⟨pre, post, -, hfiled, hlt, -⟩ := exists_orderedInsert b hsorted
  have hskip : pre.find? (b.size ≤ ·.size) = none := List.find?_eq_none.2 fun e he => by
    simpa using hlt e he
  rw [findFit, hclasses, List.findSome?_cons, lists_file_self, hfiled, List.find?_append, hskip,
    Option.none_or, List.find?_cons_of_pos (by simp)]

/-- A block served whole leaves nothing over. -/
theorem served_freed (halloc : b.isAllocated = true) : served (freed b) b.size = b := by
  rw [served, freed, if_pos (by simp), ← halloc]

theorem leftOver_freed : leftOver (freed b) b.size = none := if_pos (by simp [freed])

namespace Depicts

variable (h : χ.Depicts d stop m)

include h

/-- **A block between allocated ones** is released as it is. -/
theorem release_of_alone (hbs : χ.blocks = pre ++ b :: post) (halloc : b.isAllocated = true)
    (hlast : ∀ e ∈ pre.getLast?, e.isAllocated = true)
    (hfirst : ∀ e ∈ post.head?, e.isAllocated = true) : χ.release b = (freed b, χ.unlock b) := by
  obtain ⟨hblocks, h₁, -⟩ := h.unlock hbs halloc
  have hbefore : (χ.unlock b).freeBefore (freed b) = none := by
    rcases h₁.before_cases hblocks with ⟨hnone, -⟩ | ⟨pre', l, rfl, hfree, -⟩
    · exact hnone
    · exact absurd (hlast l (by simp)) (by simp [hfree])
  have hafter : (χ.unlock b).freeAfter (freed b) = none := by
    rcases h₁.after_cases hblocks with ⟨hnone, -⟩ | ⟨r, post', rfl, hfree, -⟩
    · exact hnone
    · exact absurd (hfirst r rfl) (by simp [hfree])
  refine if_pos ?_
  rw [absorbed, hbefore, hafter]
  rfl

/-- **Serving it again** puts the chart back. -/
theorem carve_unlock (hbs : χ.blocks = pre ++ b :: post) (halloc : b.isAllocated = true) :
    (χ.unlock b).carve (freed b) b.size = χ := by
  have hbs' : χ.blocks = pre ++ [b] ++ post := by rw [hbs]; simp
  have hunlocked : χ.swap b.payload [b] [freed b] = ⟨pre ++ [freed b] ++ post, χ.lists⟩ :=
    swap_eq hbs' h.tiles rfl fun e => Iff.rfl
  obtain ⟨h₁, -⟩ := h.retag_freed hbs halloc
  have hlocked : (⟨pre ++ [freed b] ++ post, χ.lists⟩ : Chart).swap b.payload [freed b] [b] =
      ⟨pre ++ [b] ++ post, χ.lists⟩ :=
    swap_eq rfl h₁.tiles rfl fun e => Iff.rfl
  rw [Chart.carve, leftOver_freed, served_freed halloc, Chart.unlock, unfile_file, hunlocked,
    Option.toList_none]
  refine hlocked.trans ?_
  rw [← hbs']

/-- **Releasing a block between allocated ones and serving it again** puts the
chart back: the block is the fit for its size. -/
theorem carve_release (hs : χ.Settled) (hbs : χ.blocks = pre ++ b :: post)
    (halloc : b.isAllocated = true) (hlast : ∀ e ∈ pre.getLast?, e.isAllocated = true)
    (hfirst : ∀ e ∈ post.head?, e.isAllocated = true) :
    (χ.release b).2.findFit b.size = some (freed b) ∧
      (χ.release b).2.carve (freed b) b.size = χ := by
  rw [h.release_of_alone hbs halloc hlast hfirst]
  exact ⟨findFit_file (b := freed b) (χ := χ.swap b.payload [b] [freed b]) (hs.sorted _),
    h.carve_unlock hbs halloc⟩

end Depicts

end Chart

end SegFit
