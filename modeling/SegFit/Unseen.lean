/-!
# Addresses not yet seen

A list in memory may lead back into itself, so whoever follows one
remembers the blocks it has seen. Each step sees one more of the
addresses below the region's end, and `unseen` counts those that are
left: it is what makes such a walk end.
-/

namespace SegFit

/-- The number of addresses below `n` that are not in `seen`. -/
def unseen (n : Nat) (seen : List Nat) : Nat :=
  (List.range n).countP fun a => !seen.contains a

/-- **Seeing a new address leaves fewer.** -/
theorem unseen_cons_lt {n p : Nat} {seen : List Nat} (hp : p < n) (hnew : p ∉ seen) :
    unseen n (p :: seen) < unseen n seen := by
  have key : ∀ l : List Nat, p ∈ l →
      l.countP (fun a => !(p :: seen).contains a) < l.countP (fun a => !seen.contains a) := by
    intro l
    induction l with
    | nil => simp
    | cons a l ih =>
      intro hmem
      have hle : ∀ l : List Nat, l.countP (fun a => !(p :: seen).contains a)
          ≤ l.countP (fun a => !seen.contains a) := fun l =>
        List.countP_mono_left fun a _ h => by simp_all
      have hl := hle l
      by_cases hap : a = p
      · subst hap
        rw [List.countP_cons_of_neg (by simp), List.countP_cons_of_pos (by simpa using hnew)]
        omega
      · have := ih (by simpa [Ne.symm hap] using hmem)
        rw [List.countP_cons, List.countP_cons]
        have hsame : (!(p :: seen).contains a) = !seen.contains a := by simp [hap]
        rw [hsame]; omega
  exact key _ (List.mem_range.2 hp)

end SegFit
