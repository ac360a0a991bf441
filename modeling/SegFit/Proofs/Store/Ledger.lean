import SegFit.Proofs.Heap.Abreast
import SegFit.Proofs.Store.Laws
import Mathlib.Algebra.GroupWithZero.Nat
/-!
# Ledgers

A ledger is a store together with an account of the requests that were
made of it, each with its answer, oldest first. The account is kept as
the store is used, and balances: what was granted adds up to the region.
A heap over a ledger does what it does over the store within
(`Ledger.conforms_store`), so what a heap asks of any store can be read
off a ledger.
-/

namespace SegFit

/-- The sizes of the requests of an account that were granted. -/
def granted (account : List (Nat × Except Failure Nat)) : List Nat :=
  account.filterMap fun (n, answer) => match answer with
    | .ok _ => some n
    | .error _ => none

@[simp] theorem granted_nil : granted [] = [] := rfl

@[simp] theorem granted_cons_ok (n p : Nat) (account : List (Nat × Except Failure Nat)) :
    granted ((n, .ok p) :: account) = n :: granted account := rfl

@[simp] theorem granted_cons_error (n : Nat) (e : Failure)
    (account : List (Nat × Except Failure Nat)) :
    granted ((n, .error e) :: account) = granted account := rfl

@[simp] theorem granted_append (account account' : List (Nat × Except Failure Nat)) :
    granted (account ++ account') = granted account ++ granted account' :=
  List.filterMap_append

/-- What was granted was asked for. -/
theorem exists_of_mem_granted {account : List (Nat × Except Failure Nat)} {n : Nat}
    (hn : n ∈ granted account) : ∃ p, (n, .ok p) ∈ account := by
  obtain ⟨⟨m, answer⟩, hmem, heq⟩ := List.mem_filterMap.1 hn
  match answer, heq with
  | .ok p, heq =>
    cases heq
    exact ⟨p, hmem⟩

/-- **A store with an account** of what was asked of it. -/
structure Ledger (σ : Type) [Store σ] where
  store : σ
  /-- The requests made and their answers, oldest first. -/
  account : List (Nat × Except Failure Nat)
  balanced : (granted account).sum = (Store.region store).extent

namespace Ledger

variable {σ : Type} [Store σ]

/-- A ledger with nothing in it yet, for a store that has given nothing. -/
def opened (s : σ) (hs : (Store.region s).extent = 0) : Ledger σ := ⟨s, [], hs.symm⟩

variable [Store.Lawful σ]

/-- Asks the store and enters the request. -/
def grow (n : Nat) (l : Ledger σ) : Growth (Ledger σ) where
  answer := (Store.grow n l.store).answer
  store :=
    { store := (Store.grow n l.store).store
      account := l.account ++ [(n, (Store.grow n l.store).answer)]
      balanced := by
        have hbalanced := l.balanced
        cases ha : (Store.grow n l.store).answer with
        | ok p => simp [(Store.Lawful.grow_ok ha).2, hbalanced]
        | error e => simp [Store.Lawful.grow_error ha, hbalanced] }
  records := (Store.grow n l.store).records

instance : Store (Ledger σ) where
  grow := grow
  region l := Store.region l.store
  size l := Store.size l.store

instance : Store.Lawful (Ledger σ) where
  grow_ok h := Store.Lawful.grow_ok (σ := σ) h
  grow_error h := Store.Lawful.grow_error (σ := σ) h
  extent_le_size l := Store.Lawful.extent_le_size l.store

instance {τ : Type} [Store τ] [Store.Truthful τ] : Store.Truthful (Ledger τ) where
  size_eq l := Store.Truthful.size_eq l.store

/-- **Keeping an account changes nothing** for a heap. -/
theorem conforms_store : Store.Conforms (Ledger.store : Ledger σ → σ) :=
  ⟨fun _ _ => rfl, fun _ _ => rfl, fun _ _ => rfl, fun _ => rfl⟩

/-- A request is entered with its answer. -/
theorem account_grow (n : Nat) (l : Ledger σ) :
    (Store.grow n l).store.account = l.account ++ [(n, (Store.grow n l).answer)] := rfl

end Ledger

end SegFit
