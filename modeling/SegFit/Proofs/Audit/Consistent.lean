import SegFit.Audit.Inspect
import SegFit.Proofs.Audit.Blocks
import SegFit.Proofs.Audit.Lists
/-!
# What a clean audit means

An audit that reports nothing has gone through all blocks and all lists
and found as many free blocks in each. `Consistent` is that, in terms of
the memory alone, and `violations_eq_nil_iff` says that it is no more and
no less.
-/

namespace SegFit

namespace Audit

variable {m : Memory} {r : Region} {d : Directory} {c : SizeClass}

/-- **A memory that an audit finds nothing wrong with.** -/
structure Consistent (m : Memory) (r : Region) (d : Directory) : Prop where
  prologueHeader : m.header d.origin = .prologue
  prologueFooter : m.footer d.origin = .prologue
  walked : Walked m r d.firstBlock false (m.blocks r.stop d.firstBlock)
  sound : ∀ c, Sound d m r (freeOf (m.blocks r.stop d.firstBlock)).toArray c
  /-- The lists together are as long as there are free blocks. -/
  counted : (freeOf (m.blocks r.stop d.firstBlock)).length =
    (SizeClass.all.map fun c => (d.chain m r.stop c).length).sum

/-- What an audit reports: what each walk has noted, and that they have not
met equally many free blocks. -/
theorem violations_eq_append {s : Survey} {t : Tally} (hs : surveyBlocks (.plain m) r d = s)
    (ht : surveyLists (.plain m) r d s.free = t) :
    violations m r (some d) = s.violations.toList ++ t.violations.toList ++
      if s.free.size = t.listed then [] else [.unlisted s.free.size t.listed] := by
  subst hs ht
  rfl

/-- An audit reports nothing if both walks are clean and have met equally
many free blocks. -/
theorem violations_eq_nil_iff_clean {s : Survey} {t : Tally}
    (hs : surveyBlocks (.plain m) r d = s) (ht : surveyLists (.plain m) r d s.free = t) :
    violations m r (some d) = [] ↔ s.Clean ∧ t.Clean ∧ s.free.size = t.listed := by
  have hcounts :
      (if s.free.size = t.listed then [] else [Violation.unlisted s.free.size t.listed]) = [] ↔
        s.free.size = t.listed := by
    split
    · rename_i heq
      exact iff_of_true rfl heq
    · rename_i hne
      exact iff_of_false (List.cons_ne_nil _ _) hne
  rw [violations_eq_append hs ht, List.append_eq_nil_iff, List.append_eq_nil_iff, hcounts,
    and_assoc, Array.toList_eq_nil_iff, Array.toList_eq_nil_iff, Survey.Clean, Tally.Clean]

/-- **An audit reports nothing exactly if the memory is consistent.** -/
theorem violations_eq_nil_iff : violations m r (some d) = [] ↔ Consistent m r d := by
  rw [violations_eq_nil_iff_clean rfl rfl, clean_surveyBlocks, clean_surveyLists]
  constructor
  · rintro ⟨⟨hheader, hfooter, bs, hw⟩, hsound, hcount⟩
    obtain rfl := blocks_eq_of_walked hw
    rw [free_surveyBlocks hheader hfooter hw] at hsound hcount
    rw [listed_surveyLists hsound, List.size_toArray] at hcount
    exact ⟨hheader, hfooter, hw, hsound, hcount⟩
  · intro h
    rw [free_surveyBlocks h.prologueHeader h.prologueFooter h.walked, listed_surveyLists h.sound]
    exact ⟨⟨h.prologueHeader, h.prologueFooter, _, h.walked⟩, h.sound, by
      rw [List.size_toArray, h.counted]⟩

end Audit

end SegFit
