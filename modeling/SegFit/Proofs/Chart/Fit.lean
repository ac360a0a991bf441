import SegFit.Proofs.Chart.Carve
import SegFit.Proofs.SizeClass
/-!
# The best fit, on a chart

`Chart.findFit` searches the lists for the first block that is large
enough, from the class of the size on. `Depicts.findFit_eq` says that
`FreeLists.findFit` finds that block in a memory. In a settled chart it
is the smallest free block of all that are large enough
(`Depicts.bestFit`), and none is found only if none is.
-/

namespace SegFit

namespace Chart

variable {χ : Chart} {d : Directory} {m : Memory} {stop need : Nat} {b : Block}

/-- The first block of at least the given size, over the lists from its
class on. -/
def findFit (need : Nat) (χ : Chart) : Option Block :=
  (SizeClass.ofSize need).andLarger.findSome? fun c => (χ.lists c).find? (need ≤ ·.size)

theorem find?_map_payload (l : List Block) (hl : ∀ e ∈ l, m.blockSize e.payload = e.size) :
    (l.map Block.payload).find? (need ≤ m.blockSize ·) =
      (l.find? (need ≤ ·.size)).map Block.payload := by
  rw [List.find?_map]
  congr 1
  induction l with
  | nil => rfl
  | cons e l ih =>
    rw [List.find?_cons, List.find?_cons, ih fun e he => hl e (List.mem_cons_of_mem _ he),
      Function.comp_apply, hl e List.mem_cons_self]

theorem findSome?_map (cs : List SizeClass) (f : SizeClass → Option Block) :
    (cs.findSome? fun c => (f c).map Block.payload) = (cs.findSome? f).map Block.payload := by
  induction cs with
  | nil => rfl
  | cons c cs ih =>
    rw [List.findSome?_cons, List.findSome?_cons, ih]
    cases f c <;> rfl

namespace Depicts

variable (h : χ.Depicts d stop m)

include h

/-- **The directory finds the chart's block.** -/
theorem findFit_eq (need : Nat) : d.findFit m need = (χ.findFit need).map Block.payload := by
  rw [h.spells.findFit_eq h.reaches_of_listed, Chart.findFit, ← findSome?_map]
  congr 1
  funext c
  exact find?_map_payload _ fun e he => h.blockSize_eq (h.listed c e he).1

/-- What is found is filed and large enough. -/
theorem mem_of_findFit (hb : χ.findFit need = some b) :
    b ∈ χ.lists (SizeClass.ofSize b.size) ∧ need ≤ b.size := by
  obtain ⟨c, -, hc⟩ := List.exists_of_findSome?_eq_some hb
  have hmem := List.mem_of_find?_eq_some hc
  have hsize := List.find?_some hc
  rw [(h.listed c b hmem).2.2]
  exact ⟨hmem, by simpa using hsize⟩

/-- A class with a large enough block in its list is searched. -/
theorem mem_andLarger_of_listed {c : SizeClass} (hb : b ∈ χ.lists c) (hle : need ≤ b.size) :
    c ∈ (SizeClass.ofSize need).andLarger := by
  rw [← (h.listed c b hb).2.2]
  exact SizeClass.mem_andLarger_iff.2 (SizeClass.ofSize_mono hle)

/-- **Nothing is found only if nothing fits.** -/
theorem findFit_eq_none_iff (hs : χ.Settled) :
    χ.findFit need = none ↔ ∀ e ∈ χ.blocks, e.isAllocated = false → e.size < need := by
  unfold Chart.findFit
  rw [List.findSome?_eq_none_iff]
  constructor
  · intro hnone e he hfree
    have hfiled := hs.complete e he hfree
    by_contra hlarge
    have hle : need ≤ e.size := by omega
    have hskip := List.find?_eq_none.1 (hnone _ (h.mem_andLarger_of_listed hfiled hle)) e hfiled
    simp only [decide_eq_true_eq] at hskip
    exact hskip hle
  · intro hsmall c _
    rw [List.find?_eq_none]
    intro e he
    obtain ⟨hmem, hfree, -⟩ := h.listed c e he
    have := hsmall e hmem hfree
    simp only [decide_eq_true_eq]
    omega

/-- **What is found is the best fit**: no free block that is large enough
is smaller, and none before it in its list is large enough. -/
theorem bestFit (hs : χ.Settled) (hb : χ.findFit need = some b) :
    (∀ e ∈ χ.blocks, e.isAllocated = false → need ≤ e.size → b.size ≤ e.size) ∧
      ∃ pre post, χ.lists (SizeClass.ofSize b.size) = pre ++ b :: post ∧
        ∀ e ∈ pre, e.size < need := by
  unfold Chart.findFit at hb
  rw [List.findSome?_eq_some_iff] at hb
  obtain ⟨below, c, above, hclasses, hfound, hskipped⟩ := hb
  have hmem := List.mem_of_find?_eq_some hfound
  obtain ⟨-, pre, post, hlist, hpre⟩ := List.find?_eq_some_iff_append.1 hfound
  have hsmall : ∀ e ∈ pre, e.size < need := fun e he => by
    have := hpre e he
    simp only [Bool.not_eq_true', decide_eq_false_iff_not] at this
    omega
  have hclass := (h.listed c b hmem).2.2
  refine ⟨?_, pre, post, by rw [hclass]; exact hlist, hsmall⟩
  intro e he hfree hle
  have hfiled := hs.complete e he hfree
  have hsearched := h.mem_andLarger_of_listed hfiled hle
  have horder := SizeClass.pairwise_andLarger (SizeClass.ofSize need)
  rw [hclasses, List.pairwise_append, List.pairwise_cons] at horder
  rw [hclasses, List.mem_append, List.mem_cons] at hsearched
  rcases hsearched with hbelow | hsame | habove
  · -- a class already passed has no block that is large enough
    have hskip := List.find?_eq_none.1 (hskipped _ hbelow) e hfiled
    simp only [decide_eq_true_eq] at hskip
    exact absurd hle hskip
  · -- in the same list, it comes no earlier
    have hsorted := hs.sorted c
    rw [hsame, hlist, List.mem_append, List.mem_cons] at hfiled
    rw [hlist, List.pairwise_append, List.pairwise_cons] at hsorted
    rcases hfiled with hin | rfl | hin
    · have := hsmall e hin
      omega
    · exact Nat.le_refl _
    · exact hsorted.2.1.1 e hin
  · -- in a larger class every block is larger
    have hlt := horder.2.1.1 _ habove
    by_contra hsmaller
    have hmono := SizeClass.ofSize_mono (m := e.size) (n := b.size) (by omega)
    rw [hclass] at hmono
    omega

end Depicts

end Chart

end SegFit
