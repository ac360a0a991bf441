import SegFit.Store.Arena

/-!
# Rationed arenas

A rationed arena gives less than it has: it holds back bytes at its
start, refuses requests on a schedule or beyond a ceiling, and misstates
its size by a constant. It keeps an account of the requests made of it.
-/

namespace SegFit

/-- An arena behind a ration. -/
structure Rationed where
  arena : Arena
  /-- The bytes held back at the arena's start. -/
  held : Nat := 0
  /-- The most bytes to give, if there is a limit. -/
  ceiling : Option Nat := none
  /-- By how much the size is misstated. -/
  bias : Nat := 0
  /-- The next requests are refused for these causes. -/
  refusals : List Failure := []
  /-- The requests made and their answers, oldest first. -/
  requests : Array (Nat × Except Failure Nat) := #[]

namespace Rationed

/-- An arena with its first `held` bytes held back. -/
def ofArena (arena : Arena) (held : Nat) (ceiling : Option Nat) (bias : Nat) :
    Except Failure Rationed :=
  let growth := arena.grow held
  growth.answer.map fun _ => { arena := growth.store, held, ceiling, bias }

/-- The bytes given. -/
def given (r : Rationed) : Nat := r.arena.used - r.held

/-- Refuses a request. -/
def refuse (r : Rationed) (e : Failure) : Growth Rationed :=
  { answer := .error e, store := r }

/-- Hands out the next `n` bytes: a scheduled refusal comes first, then
the ceiling, then the arena's own limit. -/
def give (n : Nat) (r : Rationed) : Growth Rationed :=
  match r.refusals with
  | e :: rest => { r with refusals := rest }.refuse e
  | [] =>
    if r.ceiling.any (· < r.given + n) then r.refuse .outOfMemory
    else
      let growth := r.arena.grow n
      { answer := growth.answer
        store := { r with arena := growth.store }
        records := growth.records }

/-- Hands out the next `n` bytes and enters the request. -/
def grow (n : Nat) (r : Rationed) : Growth Rationed :=
  let growth := r.give n
  { growth with
    store := { growth.store with requests := growth.store.requests.push (n, growth.answer) } }

/-- The ration with an empty account. -/
def forget (r : Rationed) : Rationed := { r with requests := #[] }

instance : Store Rationed where
  grow := grow
  region r := ⟨r.arena.start + r.held, r.given⟩
  size r := (r.given + r.bias) % Layout.sizeRange

end Rationed

end SegFit
