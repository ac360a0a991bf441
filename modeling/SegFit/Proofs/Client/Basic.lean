import SegFit.Proofs.Heap.Shows
/-!
# Clients

A client calls the operations of a heap, keeps the pointers it is given,
and writes to the bytes behind them. It also keeps a shadow copy of every
payload it owns: what it found there when it was given the pointer, and
then whatever it wrote. `Reachable` are the clients of a heap that began
blank, after calls that keep to the contract: pointers are null or the
client's own, and writes stay in its usable bytes.
-/

namespace SegFit

/-- What a client can do. -/
inductive Call
  | init
  | malloc (n : Nat)
  | tryMalloc (n : Nat)
  | calloc (count size : Nat)
  | tryCalloc (count size : Nat)
  | realloc (p : Option Nat) (n : Nat)
  | tryRealloc (p : Option Nat) (n : Nat)
  | free (p : Option Nat)
  /-- Writes the byte `v` at `i` behind the pointer `p`. -/
  | write (p i : Nat) (v : UInt8)
  deriving Repr

/-- The payloads a client owns, each with its copy of the bytes. -/
abbrev Shadow := Nat → Option (Nat → UInt8)

/-- A heap with its client's payloads. -/
structure Client (σ : Type) where
  heap : Heap σ
  shadow : Shadow := fun _ => none

namespace Shadow

/-- A payload given to the client, if it is given one. -/
def take (p : Option Nat) (bytes : Nat → Nat → UInt8) (w : Shadow) : Shadow :=
  match p with
  | none => w
  | some p => Function.update w p (some (bytes p))

/-- A payload given back. -/
def drop (p : Option Nat) (w : Shadow) : Shadow :=
  match p with
  | none => w
  | some p => Function.update w p none

/-- A byte written. -/
def write (p i : Nat) (v : UInt8) (w : Shadow) : Shadow :=
  Function.update w p ((w p).map fun bytes => Function.update bytes i v)

/-- A payload moved, with the first `n` of its bytes. -/
def move (p q : Option Nat) (n : Nat → Nat) (bytes : Nat → Nat → UInt8) (w : Shadow) : Shadow :=
  match q with
  | none => w
  | some q => (w.drop p).take (some q) fun q i =>
      if i < n q then ((p.bind w).map fun old => old i).getD (bytes q i) else bytes q i

theorem move_some (p q : Nat) (n : Nat → Nat) (bytes : Nat → Nat → UInt8) (w : Shadow) :
    w.move (some p) (some q) n bytes =
      Function.update (Function.update w p none) q (some fun i =>
        if i < n q then ((w p).map fun old => old i).getD (bytes q i) else bytes q i) := rfl

end Shadow

namespace Call

variable {σ : Type} [Store σ]

/-- The operation of a call. -/
def perform : Call → Operation σ (Option Nat)
  | .init => do
    Heap.init
    return none
  | .malloc n => Heap.malloc n
  | .tryMalloc n => Heap.tryMalloc n
  | .calloc count size => Heap.calloc count size
  | .tryCalloc count size => Heap.tryCalloc count size
  | .realloc p n => Heap.realloc p n
  | .tryRealloc p n => Heap.tryRealloc p n
  | .free p => do
    Heap.free p
    return none
  | .write p i v => do
    Heap.edit (·.setByte (p + i) v)
    return none

/-- The pointer a call gives back or moves. -/
def subject : Call → Option Nat
  | .realloc p _ | .tryRealloc p _ | .free p => p
  | _ => none

omit [Store σ] in
/-- The client's copies after a call that gave the pointer `q`, in a heap
that was `before` and is `after`. -/
def settle (before after : Heap σ) (q : Option Nat) (w : Shadow) : Call → Shadow
  | .init => w
  | .malloc _ | .tryMalloc _ => w.take q fun q i => after.memory.byte (q + i)
  | .calloc _ _ | .tryCalloc _ _ => w.take q fun _ _ => 0
  | .realloc p n | .tryRealloc p n =>
    if n = 0 then w.drop p
    else w.move p q (fun q => min (before.usableSize p) (after.usableSize (some q)))
      fun q i => after.memory.byte (q + i)
  | .free p => w.drop p
  | .write p i v => w.write p i v

end Call

namespace Client

variable {σ : Type} [Store σ]

omit [Store σ] in
/-- **The contract.** A client passes only null or pointers it owns, and
writes only to usable bytes of its own. -/
def Allows (s : Client σ) : Call → Prop
  | .write p i _ => (s.shadow p).isSome ∧ i < s.heap.memory.usableSize p
  | c => ∀ p ∈ c.subject, (s.shadow p).isSome

omit [Store σ] in
/-- The pointer an operation gives; none if it stops early. -/
def given : EStateM.Result Stop (Heap σ) (Option Nat) → Option Nat × Heap σ
  | .ok q h => (q, h)
  | .error _ h => (none, h)

/-- The pointer that a call gives, if it gives one. -/
def gets (s : Client σ) (c : Call) : Option Nat := (given (c.perform s.heap)).1

/-- The client after a call. -/
def step (s : Client σ) (c : Call) : Client σ :=
  let (q, h) := given (c.perform s.heap)
  ⟨h, c.settle s.heap h q s.shadow⟩

/-- **The answer of a call**: a pointer or none, or the cause of a failure. -/
def Answers (s : Client σ) (c : Call) : Except Failure (Option Nat) → Prop
  | .ok q => ∃ h, c.perform s.heap = .ok q h
  | .error e => ∃ h, c.perform s.heap = .error (.failed e) h

/-- **The clients there can be**, from a blank heap and whatever its bytes
were. -/
inductive Reachable : Client σ → Prop
  | start {h : Heap σ} (hblank : h.Blank) : Reachable ⟨h, fun _ => none⟩
  | step {s : Client σ} {c : Call} (hs : Reachable s) (hc : s.Allows c) : Reachable (s.step c)

/-! ## Runs -/

/-- The client after calls, one after the other. -/
def run (s : Client σ) (cs : List Call) : Client σ := cs.foldl step s

/-- Each call keeps to the contract when its turn comes. -/
def AllowsAll (s : Client σ) : List Call → Prop
  | [] => True
  | c :: cs => s.Allows c ∧ AllowsAll (s.step c) cs

omit [Store σ] in
instance decidableAllows (s : Client σ) : (c : Call) → Decidable (s.Allows c)
  | .write p i _ =>
    inferInstanceAs (Decidable ((s.shadow p).isSome ∧ i < s.heap.memory.usableSize p))
  | .init | .malloc _ | .tryMalloc _ | .calloc _ _ | .tryCalloc _ _ =>
    inferInstanceAs (Decidable (∀ p ∈ (none : Option Nat), (s.shadow p).isSome))
  | .realloc q _ | .tryRealloc q _ | .free q =>
    inferInstanceAs (Decidable (∀ p ∈ q, (s.shadow p).isSome))

instance decidableAllowsAll (s : Client σ) : (cs : List Call) → Decidable (s.AllowsAll cs)
  | [] => .isTrue trivial
  | c :: cs => @instDecidableAnd _ _ (decidableAllows s c) (decidableAllowsAll (s.step c) cs)

/-- **A run that keeps to the contract** leads to a client there can be. -/
theorem Reachable.run {s : Client σ} {cs : List Call} (hs : Reachable s) (hcs : s.AllowsAll cs) :
    Reachable (s.run cs) := by
  induction cs generalizing s with
  | nil => exact hs
  | cons c cs ih => exact ih (hs.step hcs.1) hcs.2

/-- A client of an arena, before its first call. -/
def ofArena (a : Arena) : Client Arena := ⟨{ store := a }, fun _ => none⟩

theorem reachable_ofArena {a : Arena} (h : a.used = 0) : Reachable (ofArena a) :=
  .start ⟨rfl, h, fun _ => a.start_aligned⟩

/-- An arena of two chunks. -/
def smallArena : Arena := { capacity := 8192, capacity_lt := by decide }

/-- A client that owns the second of the three blocks of its heap. -/
def sample : Client Arena :=
  (ofArena smallArena).run [.malloc 24, .malloc 100, .write 104 3 7, .free (some 72)]

theorem reachable_sample : Reachable sample :=
  (reachable_ofArena rfl).run (by decide +kernel)

end Client

end SegFit
