import SegFit.Proofs.Client.Sound
import SegFit.Proofs.Walks.Operations
/-!
# Every call ends after few steps along lists

A client's calls follow links that are in memory, without a mark on what they
have passed and without a limit. Each of their walks ends all the same: it is
made in a memory whose lists end, whether the heap is between two calls or
between two edits of one. All the walks of a call together take a number of
steps that is linear in the number of free blocks (`Client.Reachable.walks_end`).
-/

namespace SegFit

variable {σ : Type} [Store σ]

/-- The operation of a call, with its walks. -/
def Call.paced : Call → Paced σ (Option Nat)
  | .init => do
    Paced.init
    return none
  | .malloc n => Paced.orNull (Paced.tryMalloc n) (.mallocFailed n)
  | .tryMalloc n => Paced.tryMalloc n
  | .calloc count size => Paced.orNull (Paced.tryCalloc count size) (.callocFailed count size)
  | .tryCalloc count size => Paced.tryCalloc count size
  | .realloc p n => Paced.orNull (Paced.tryRealloc p n) (.reallocFailed p n)
  | .tryRealloc p n => Paced.tryRealloc p n
  | .free p => do
    Paced.free p
    return none
  | .write p i v => do
    Paced.plain (Heap.edit (·.setByte (p + i) v))
    return none

namespace Client

variable [Store.Lawful σ] {s : Client σ} {c : Call} {χ : Chart}

/-- **A call** of a client that is tracked. -/
theorem Tracks.within_perform (ht : Tracks s.heap s.shadow χ) (hc : s.Allows c) :
    Paced.Within c.paced c.perform s.heap (8 * χ.free + 54) := by
  have hsubject := ht.allocated_of_subject hc
  cases c with
  | init =>
    exact ((Paced.within_init ht.shows).bind_plain fun _ _ => Paced.within_pure _).mono (by omega)
  | malloc n => exact ((Paced.within_tryMalloc ht.shows n).orNull _).mono (by omega)
  | tryMalloc n => exact (Paced.within_tryMalloc ht.shows n).mono (by omega)
  | calloc count size =>
    exact ((Paced.within_tryCalloc ht.shows count size).orNull _).mono (by omega)
  | tryCalloc count size => exact (Paced.within_tryCalloc ht.shows count size).mono (by omega)
  | realloc p n => exact (Paced.within_tryRealloc ht.shows n hsubject).orNull _
  | tryRealloc p n => exact Paced.within_tryRealloc ht.shows n hsubject
  | free p =>
    refine Paced.Within.bind_plain ?_ fun _ _ => Paced.within_pure _
    cases p with
    | none => exact (Paced.within_free_none ht.shows).mono (by omega)
    | some p =>
      obtain ⟨b, hb, halloc, rfl⟩ := hsubject p rfl
      obtain ⟨d, hcharted⟩ := ht.shows.charted_of_mem hb
      exact (Paced.within_free hcharted hb halloc).mono (by omega)
  | write p i v =>
    exact Paced.Within.plain_bind fun _ _ _ => Paced.within_pure _

/-- **Walks along lists end**, and visit no block twice. That is so of a walk along
any list of a heap that a client there can be may have, which ends where a search
with a bound does, of the walks that filing a block and looking for one take, of
an audit, which enters no more blocks than are free, and of every walk on the way
of a call. A call takes no more steps than eight for each block that is free
before it, and 54. -/
theorem Reachable.walks_end (hs : Reachable s) :
    (∀ d, s.heap.directory = some d →
      (∀ c n, ∃ seam passed,
        d.walkFrom s.heap.memory n ⟨none, d.head s.heap.memory c⟩ = Part.some (seam, passed) ∧
          d.seam s.heap.memory c n = some seam ∧
          Walk.Ends ⟨d, s.heap.memory, c, passed ++ seam.after.toList⟩) ∧
      (∀ p, (Walked.insert d p s.heap.memory).Gives (d.insert p s.heap.memory)
        (s.heap.freeBlocks + 1)) ∧
      (∀ n, (Walked.findFit d s.heap.memory n).Gives (d.findFit s.heap.memory n)
        (s.heap.freeBlocks + 10)) ∧
      (∀ free, Audit.Tally.listed
        (Audit.surveyLists (.plain s.heap.memory) s.heap.region d free) ≤ s.heap.freeBlocks) ∧
      ∀ line, (Paced.audit line s.heap).Gives (Heap.audit line s.heap)
        (s.heap.freeBlocks + 10)) ∧
      ∀ c, s.Allows c →
        (c.paced s.heap).Gives (c.perform s.heap) (8 * s.heap.freeBlocks + 54) := by
  obtain ⟨χ, ht⟩ := hs.sound
  rw [ht.shows.freeBlocks_eq]
  refine ⟨fun d hd => ?_, fun c hc => ht.within_perform hc⟩
  have hcharted := ht.shows.charted_of_some hd
  have hdepicts := hcharted.depicts
  exact ⟨fun c => Walked.walkFrom_ends (hdepicts.spells.threaded c) (hdepicts.reaches_of_listed c),
    hdepicts.gives_insert, hdepicts.gives_findFit, hdepicts.listed_surveyLists_le,
    Paced.within_audit_charted hcharted⟩

/-- The sample has two free blocks. -/
theorem sample_walks_end :
    Reachable sample ∧ sample.heap.directory = some (.ofBase 16) ∧
      sample.Allows (.tryRealloc (some 104) 200) ∧ sample.heap.freeBlocks = 2 ∧
      (Walked.insert (Directory.ofBase 16) 104 sample.heap.memory).Gives
        ((Directory.ofBase 16).insert 104 sample.heap.memory) (sample.heap.freeBlocks + 1) ∧
      (Call.paced (.tryRealloc (some 104) 200) sample.heap).Gives
        (Call.perform (.tryRealloc (some 104) 200) sample.heap)
        (8 * sample.heap.freeBlocks + 54) := by
  have hd : sample.heap.directory = some (.ofBase 16) := by decide +kernel
  have hallows : sample.Allows (.tryRealloc (some 104) 200) := by decide +kernel
  have hfree : sample.heap.freeBlocks = 2 := by decide +kernel
  obtain ⟨hheap, hcall⟩ := reachable_sample.walks_end
  exact ⟨reachable_sample, hd, hallows, hfree, (hheap _ hd).2.1 104, hcall _ hallows⟩

end Client

end SegFit
