import SegFit.Proofs.Client.Audited
import SegFit.Proofs.Heap.Requests
/-!
# What a call asks of the store

The requests that a call makes of its heap's store, each with its answer,
are read off a ledger that is laid over the store for the length of the
call (`Client.asked`). Keeping it changes nothing: what the call comes to
over the ledger is what it comes to (`Reachable.exists_asked`).
-/

namespace SegFit

variable {σ : Type} [Store σ]

/-- A ledger opened for a store in use, with the bytes given so far brought
forward as its one entry. -/
def Ledger.forwarded (s : σ) : Ledger σ :=
  ⟨s, [((Store.region s).extent, .ok (Store.region s).start)], Nat.add_zero _⟩

namespace Heap

variable {h : Heap σ} {d : Directory} {χ : Chart}

/-- The heap with a ledger over its store. -/
def entered (h : Heap σ) : Heap (Ledger σ) := h.recast Ledger.forwarded h.auditsItself

theorem Charted.entered [Store.Lawful σ] (hc : h.Charted d χ) : h.entered.Charted d χ :=
  ⟨hc.directory, hc.base, hc.depicts, hc.settled, hc.aligned⟩

end Heap

namespace Client

variable [Store.Lawful σ] {s : Client σ} {c : Call}

/-- **What a call asks of the store**: its requests and their answers,
oldest first. -/
def asked (s : Client σ) (c : Call) : List (Nat × Except Failure Nat) :=
  (Heap.left (c.perform s.heap.entered)).store.account.tail

/-- A call that leaves the store alone asks for nothing. -/
theorem asked_eq_nil
    (hx : Heap.Ends c.perform s.heap.entered fun _ h' => h'.store = s.heap.entered.store) :
    s.asked c = [] := by
  unfold asked
  rcases hx.cases with ⟨q, h', heq, hstore⟩ | ⟨e, h', heq, hstore⟩
  · rw [heq, Heap.left, hstore]
    rfl
  · rw [heq, Heap.left, hstore]
    rfl

/-- **Over the ledger a call comes to the same**, so what is said of it there
is so of its answer, of the heap it leaves, and of what it asked for. -/
theorem Reachable.exists_asked (hs : Reachable s) (hc : s.Allows c)
    {P : Except Failure (Option Nat) → Heap σ → List (Nat × Except Failure Nat) → Prop}
    (hx : Heap.Ends c.perform s.heap.entered fun r h' =>
      P r (h'.recast Ledger.store s.heap.auditsItself) h'.store.account.tail) :
    ∃ r, s.Answers c r ∧ P r (s.step c).heap (s.asked c) := by
  obtain ⟨χ, ht⟩ := hs.sound
  have hplain := (ends_perform_after ht hc).cases
  have hconcur := Call.abreast_perform (b := s.heap.auditsItself) Ledger.conforms_store c
    s.heap.entered
  change Heap.Concur Ledger.store s.heap.auditsItself _ (c.perform s.heap) at hconcur
  have hcases := hx.cases
  unfold asked
  unfold Answers
  unfold Client.step
  generalize c.perform s.heap.entered = r at hcases hconcur ⊢
  generalize c.perform s.heap = r' at hplain hconcur ⊢
  rcases hcases with ⟨q, h', rfl, hP⟩ | ⟨e, h', rfl, hP⟩
  · cases hconcur with
    | ok => exact ⟨.ok q, ⟨_, rfl⟩, hP⟩
    | right => simp at hplain
  · cases hconcur with
    | failed => exact ⟨.error e, ⟨_, rfl⟩, hP⟩
    | right => simp at hplain

end Client

end SegFit
