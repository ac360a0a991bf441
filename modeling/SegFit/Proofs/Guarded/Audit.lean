import SegFit.Proofs.Audit.Consistent
import SegFit.Proofs.Guarded.Edits
/-!
# An audit refuses nothing

An audit holds each previous link against the one that the block before would
be written as. `walkList?` follows a list with that link refused where a link
cannot say where the block is. It follows every list there is, whatever the
memory holds: the block before is one that a link has led to, so it is within
a link's reach.
-/

namespace SegFit

namespace Audit

/-- Follows the list of a class from the block `next` on; `before` is the block
before it. -/
def walkList? (m : Memory) (r : Region) (d : Directory) (free : Array Nat) (c : SizeClass)
    (seen : List Nat) (before next : Option Nat) (t : Tally) : Option Tally := do
  match next with
  | none => return t
  | some p =>
    if _ : p ∈ seen then return t.note true (.listCycle c)
    else if _ : r.Holds (p - Layout.tags) ∧ r.Holds (p + (Layout.tags - 1)) then
      if m.isAllocated p then return t.note true (.allocatedInList p c)
      else
        let link ← d.encode? before
        let linksBack := m.word p == link
        walkList? m r d free c (p :: seen) (some p) (d.next m p)
          (t.enter c p (m.blockSize p) (touches m free p) linksBack (before.map m.blockSize))
    else return t.note true (.outOfHeap p)
termination_by unseen r.stop seen
decreasing_by
  have := ‹r.Holds (p - Layout.tags) ∧ r.Holds (p + (Layout.tags - 1))›.2.2
  exact unseen_cons_lt (by omega) ‹_›

/-- Follows the list of every class in turn. -/
def surveyLists? (m : Memory) (r : Region) (d : Directory) (free : Array Nat) : Option Tally :=
  SizeClass.all.foldlM (fun t c => walkList? m r d free c [] none (d.head m c) t) {}

/-- Everything wrong with a memory. -/
def violations? (m : Memory) (r : Region) (d : Option Directory) : Option (List Violation) :=
  match d with
  | none => some [.uninitialized]
  | some d => do
    let survey : Survey := Id.run (surveyBlocks (.plain m) r d)
    let tally ← surveyLists? m r d survey.free
    let counts := if survey.free.size = tally.listed then []
      else [.unlisted survey.free.size tally.listed]
    return survey.violations.toList ++ tally.violations.toList ++ counts

variable {m : Memory} {r : Region} {d : Directory} {c : SizeClass} {t : Tally}
  {free : Array Nat} {seen : List Nat} {x : Option Nat}

/-- **A guarded walk does what the walk does**, on any memory. -/
theorem walkList?_eq (hx : ∀ q ∈ x, d.Reaches q) :
    walkList? m r d free c seen x (d.follower m c x) t =
      some (walkList (.plain m) r d free c seen (sized m x) (d.follower m c x) t) := by
  -- on the addresses of the region not seen yet
  induction hn : unseen r.stop seen using Nat.strong_induction_on generalizing seen x t with
  | _ n ih =>
  cases hp : d.follower m c x with
  | none =>
    rw [walkList_none, walkList?]
    rfl
  | some p =>
    have hreach : ∀ q ∈ some p, d.Reaches q := by
      rintro q ⟨⟩
      rw [FreeLists.follower_eq_resolve] at hp
      exact reaches_of_resolve hp
    rw [walkList_some, walkList?]
    by_cases hseen : p ∈ seen
    · rw [dif_pos hseen, if_pos hseen]
      rfl
    · rw [dif_neg hseen, if_neg hseen]
      by_cases hin : r.Holds (p - Layout.tags) ∧ r.Holds (p + (Layout.tags - 1))
      · have hin' : r.Holds (p - 8) ∧ r.Holds (p + 7) := hin
        rw [dif_pos hin, if_pos hin']
        split
        · rfl
        · have hleft : unseen r.stop (p :: seen) < n := by
            have := hin.2.2
            rw [← hn]
            exact unseen_cons_lt (by omega) hseen
          rw [FreeLists.encode?_eq hx]
          exact ih _ hleft hreach rfl
      · have hin' : ¬ (r.Holds (p - 8) ∧ r.Holds (p + 7)) := hin
        rw [dif_neg hin, if_neg hin']
        rfl

theorem surveyLists?_eq (m : Memory) (r : Region) (d : Directory) (free : Array Nat) :
    surveyLists? m r d free = some (surveyLists (.plain m) r d free) := by
  have hlist : ∀ t c, walkList? m r d free c [] none (d.head m c) t =
      some (surveyList d m r free t c) := fun t c =>
    walkList?_eq (x := none) fun q hq => absurd hq (Option.not_mem_none q)
  rw [surveyLists_plain]
  simp only [surveyLists?, hlist]
  exact List.foldlM_pure

/-- **No audit refuses anything**, whatever the memory. -/
theorem violations?_eq (m : Memory) (r : Region) (d : Option Directory) :
    violations? m r d = some (violations m r d) := by
  cases d with
  | none => rfl
  | some d =>
    rw [violations_eq_append rfl rfl, violations?]
    dsimp only
    rw [surveyLists?_eq]
    rfl

end Audit

end SegFit
