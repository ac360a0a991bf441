import SegFit.Proofs.Client.Sound
import SegFit.Proofs.Heap.Abreast
/-!
# Clients of heaps that audit themselves

A client that makes the same calls of the same heap over a store that
answers alike, auditing itself or not, comes to the same after every call
(`Reachable.recast_run`). For a heap over its own store this says that auditing
is for nothing but finding faults, and that there are none to find
(`same_results_when_audited`).
-/

namespace SegFit

variable {σ τ : Type} {f : σ → τ} {b : Bool}

/-- **A call does the same** over a store that answers alike. -/
theorem Call.abreast_perform [Store σ] [Store τ] (hf : Store.Conforms f) (c : Call) :
    Heap.Abreast f b (c.perform : Operation σ (Option Nat)) c.perform := by
  cases c with
  | init => exact (Heap.abreast_init hf).bind fun _ => Heap.abreast_pure none
  | malloc n => exact (Heap.abreast_tryMalloc hf n).orNull _
  | tryMalloc n => exact Heap.abreast_tryMalloc hf n
  | calloc count size => exact (Heap.abreast_tryCalloc hf count size).orNull _
  | tryCalloc count size => exact Heap.abreast_tryCalloc hf count size
  | realloc p n => exact (Heap.abreast_tryRealloc hf p n).orNull _
  | tryRealloc p n => exact Heap.abreast_tryRealloc hf p n
  | free p => exact (Heap.abreast_free hf p).bind fun _ => Heap.abreast_pure none
  | write p i v => exact (Heap.abreast_edit _).bind fun _ => Heap.abreast_pure none

/-- What a client makes of a call is seen in the memory alone. -/
theorem Call.settle_recast (c : Call) (before after : Heap σ) (q : Option Nat) (w : Shadow) :
    c.settle (before.recast f b) (after.recast f b) q w = c.settle before after q w := by
  cases c <;> rfl

namespace Client

/-- The same client of the same heap over another store, auditing itself or
not. -/
def recast (f : σ → τ) (b : Bool) (s : Client σ) : Client τ := ⟨s.heap.recast f b, s.shadow⟩

/-- The contract is about pointers and payloads alone. -/
theorem allows_recast (s : Client σ) (c : Call) : (s.recast f b).Allows c ↔ s.Allows c := by
  cases c <;> exact Iff.rfl

variable [Store σ]

/-- **What comes of calls**, one after the other, each with the heap it
leaves. -/
def results (s : Client σ) : List Call → List (EStateM.Result Stop (Heap σ) (Option Nat))
  | [] => []
  | c :: cs => c.perform s.heap :: (s.step c).results cs

/-- No audit stops a client. -/
theorem Reachable.results_ne_inconsistent [Store.Lawful σ] {s : Client σ} {cs : List Call}
    (hs : Reachable s) (hcs : s.AllowsAll cs) :
    ∀ r ∈ s.results cs, ∀ report h, r ≠ .error (.inconsistent report) h := by
  induction cs generalizing s with
  | nil => exact fun r hr => absurd hr List.not_mem_nil
  | cons c cs ih =>
    intro r hr report h
    rcases List.mem_cons.1 hr with rfl | hr
    · obtain ⟨χ, ht⟩ := hs.sound
      rcases (ends_perform_after ht hcs.1).cases with ⟨q, h', heq, -⟩ | ⟨e, h', heq, -⟩
      · rw [heq]
        exact nofun
      · rw [heq]
        exact nofun
    · exact ih (hs.step hcs.1) hcs.2 r hr report h

variable [Store τ] [Store.Lawful σ] [Store.Lawful τ] {s : Client σ} {c : Call} {cs : List Call}

/-- **A call comes to the same** over a store that answers alike. -/
theorem Reachable.recast_step (hf : Store.Conforms f) (hs : Reachable s)
    (hs' : Reachable (s.recast f b)) (hc : s.Allows c) :
    c.perform (s.recast f b).heap = Heap.recastResult f b (c.perform s.heap) ∧
      (s.recast f b).step c = (s.step c).recast f b := by
  have hstep : c.perform (s.recast f b).heap = Heap.recastResult f b (c.perform s.heap) := by
    obtain ⟨χ, ht⟩ := hs.sound
    obtain ⟨χ', ht'⟩ := hs'.sound
    have hends := (ends_perform_after ht hc).cases
    have hends' := (ends_perform_after ht' ((allows_recast s c).2 hc)).cases
    have hconcur := Call.abreast_perform (b := b) hf c s.heap
    change Heap.Concur f b _ (c.perform (s.recast f b).heap) at hconcur
    generalize c.perform s.heap = r at hends hconcur ⊢
    generalize c.perform (s.recast f b).heap = r' at hends' hconcur ⊢
    cases hconcur with
    | ok q h' => rfl
    | failed e h' => rfl
    | left => simp at hends
    | right => simp at hends'
  refine ⟨hstep, ?_⟩
  unfold Client.step
  rw [hstep]
  cases c.perform s.heap with
  | ok q h' => exact congrArg (Client.mk _) (c.settle_recast s.heap h' q s.shadow)
  | error stop h' => exact congrArg (Client.mk _) (c.settle_recast s.heap h' none s.shadow)

/-- A client may make the same calls. -/
theorem Reachable.allowsAll_recast (hf : Store.Conforms f) (hs : Reachable s)
    (hs' : Reachable (s.recast f b)) : (s.recast f b).AllowsAll cs ↔ s.AllowsAll cs := by
  induction cs generalizing s with
  | nil => exact Iff.rfl
  | cons c cs ih =>
    refine and_congr_right_iff.2 fun hc => ?_
    rw [allows_recast] at hc
    have hstep := (hs.recast_step hf hs' hc).2
    rw [hstep]
    exact ih (hs.step hc) (hstep ▸ hs'.step ((allows_recast s c).2 hc))

/-- **A run comes to the same** over a store that answers alike, call by
call. -/
theorem Reachable.recast_run (hf : Store.Conforms f) (hs : Reachable s)
    (hs' : Reachable (s.recast f b)) (hcs : s.AllowsAll cs) :
    (s.recast f b).run cs = (s.run cs).recast f b ∧
      (s.recast f b).results cs = (s.results cs).map (Heap.recastResult f b) := by
  induction cs generalizing s with
  | nil => exact ⟨rfl, rfl⟩
  | cons c cs ih =>
    obtain ⟨hresult, hstep⟩ := hs.recast_step hf hs' hcs.1
    obtain ⟨hrun, hresults⟩ :=
      ih (hs.step hcs.1) (hstep ▸ hs'.step ((allows_recast s c).2 hcs.1)) hcs.2
    refine ⟨?_, ?_⟩
    · rw [Client.run, List.foldl_cons, hstep]
      exact hrun
    · rw [results, hstep, hresult, hresults]
      rfl

/-! ## With audits and without -/

/-- A client of a heap it has not used yet, which audits itself or does not. -/
def beginning (h : Heap σ) (audits : Bool) : Client σ :=
  ⟨{ h with auditsItself := audits }, fun _ => none⟩

/-- **Auditing changes nothing and finds nothing.** What is made of calls that
keep to the contract, of a heap whose region is empty and begins at a
multiple of eight, is the same with audits and without: the answers, the
causes of failures, and all of the heap after every call, its journal
included. And no audit stops a call. -/
theorem same_results_when_audited {h : Heap σ} (hdirectory : h.directory = none)
    (hextent : h.region.extent = 0) (hstart : h.region.start % 8 = 0) {audits : Bool}
    (hcs : (beginning h audits).AllowsAll cs) (audits' : Bool) :
    (beginning h audits').AllowsAll cs ∧
      (beginning h audits').results cs =
        ((beginning h audits).results cs).map (Heap.recastResult id audits') ∧
      ∀ r ∈ (beginning h audits').results cs, ∀ report h',
        r ≠ .error (.inconsistent report) h' := by
  have hreach : ∀ audits, Reachable (beginning h audits) := fun audits =>
    .start ⟨hdirectory, hextent, fun _ => hstart⟩
  have hall : (beginning h audits').AllowsAll cs :=
    ((hreach audits).allowsAll_recast .id (hreach audits')).2 hcs
  exact ⟨hall, ((hreach audits).recast_run (b := audits') .id (hreach audits') hcs).2,
    (hreach audits').results_ne_inconsistent hall⟩

theorem same_results_when_audited_small :
    let cs : List Call := [.malloc 24, .malloc 100, .write 104 3 7, .realloc (some 72) 200,
      .calloc 5000 2, .free (some 104), .init]
    (beginning { store := smallArena } true).AllowsAll cs ∧
      (beginning { store := smallArena } true).results cs =
        ((beginning { store := smallArena } false).results cs).map (Heap.recastResult id true) := by
  intro cs
  have hcs : (beginning { store := smallArena } false).AllowsAll cs := by decide +kernel
  obtain ⟨hall, hresults, -⟩ := same_results_when_audited rfl rfl (by decide) hcs true
  exact ⟨hall, hresults⟩

end Client

end SegFit
