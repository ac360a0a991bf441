import SegFit.Proofs.Client.Aliasing
import SegFit.Proofs.Guarded.Operations
/-!
# No run truncates

A client that calls the guarded operations does over a truthful store what it
does with the operations themselves, for as long as it keeps to the contract
(`Client.Reachable.run_exact`): no size is cut on its way into a tag, no block
is lost on its way into a link, no sum is too large and no difference below
zero, and no block is given back that is not allocated. Every client there can
be tracks a chart, and a chart refuses nothing.
-/

namespace SegFit

variable {σ : Type} [Store σ]

/-- The operation of a call, guarded. -/
def Call.perform? : Call → Guarded σ (Option Nat)
  | .init => do
    Guarded.init
    return none
  | .malloc n => Guarded.orNull (Guarded.tryMalloc n) (.mallocFailed n)
  | .tryMalloc n => Guarded.tryMalloc n
  | .calloc count size => Guarded.orNull (Guarded.tryCalloc count size) (.callocFailed count size)
  | .tryCalloc count size => Guarded.tryCalloc count size
  | .realloc p n => Guarded.orNull (Guarded.tryRealloc p n) (.reallocFailed p n)
  | .tryRealloc p n => Guarded.tryRealloc p n
  | .free p => do
    Guarded.free p
    return none
  | .write p i v => do
    Guarded.plain (Heap.edit (·.setByte (p + i) v))
    return none

namespace Client

variable {s : Client σ} {c : Call} {cs : List Call} {χ : Chart}

/-- The client after a call, if nothing is refused. -/
def step? (s : Client σ) (c : Call) : Option (Client σ) := do
  let (q, h) := given (← c.perform? s.heap)
  return ⟨h, c.settle s.heap h q s.shadow⟩

/-- The client after calls, one after the other, if nothing is refused. -/
def run? (s : Client σ) (cs : List Call) : Option (Client σ) := cs.foldlM step? s

/-- What a call gives back or moves is a block that its client owns. -/
theorem Tracks.block_of_subject (ht : Tracks s.heap s.shadow χ) {p : Option Nat}
    (hp : ∀ q ∈ p, (s.shadow q).isSome) :
    ∀ q, p = some q → ∃ b ∈ χ.blocks, b.payload = q ∧ b.isAllocated = true := by
  intro q hq
  obtain ⟨b, hb, -, -, halloc, hpayload, -⟩ := ht.block_of_owns (hp q hq)
  exact ⟨b, hb, hpayload, halloc⟩

/-- What a client may use of its own is a difference of sizes, not below zero. -/
theorem Tracks.usable?_eq (ht : Tracks s.heap s.shadow χ) {p : Nat} (hp : s.Owns p) :
    s.heap.memory.usableSize? p = some (s.usable p) := by
  obtain ⟨b, hb, d, hc, -, rfl, -⟩ := ht.block_of_owns hp
  exact hc.depicts.usableSize?_eq hb

variable [Store.Truthful σ]

/-- **A call** refuses nothing to a client that is tracked. -/
theorem Tracks.faithful_perform (ht : Tracks s.heap s.shadow χ) (hc : s.Allows c) :
    Guarded.Faithful c.perform? c.perform s.heap := by
  cases c with
  | init => exact (Guarded.faithful_init ht.shows).bind fun _ _ _ => rfl
  | malloc n => exact (Guarded.faithful_tryMalloc ht.shows n).orNull _
  | tryMalloc n => exact Guarded.faithful_tryMalloc ht.shows n
  | calloc count size => exact (Guarded.faithful_tryCalloc ht.shows count size).orNull _
  | tryCalloc count size => exact Guarded.faithful_tryCalloc ht.shows count size
  | realloc p n =>
    exact (Guarded.faithful_tryRealloc ht.shows n (ht.block_of_subject hc)).orNull _
  | tryRealloc p n => exact Guarded.faithful_tryRealloc ht.shows n (ht.block_of_subject hc)
  | free p =>
    cases p with
    | none => exact (Guarded.faithful_free_none ht.shows).bind fun _ _ _ => rfl
    | some p =>
      obtain ⟨b, hb, rfl, halloc⟩ := ht.block_of_subject hc p rfl
      obtain ⟨d, hcharted⟩ := ht.shows.charted_of_mem hb
      exact (Guarded.faithful_free hcharted hb halloc).bind fun _ _ _ => rfl
  | write p i v => rfl

theorem Reachable.step?_eq (hs : Reachable s) (hc : s.Allows c) : s.step? c = some (s.step c) := by
  obtain ⟨χ, ht⟩ := hs.sound
  have hperform : c.perform? s.heap = some (c.perform s.heap) := ht.faithful_perform hc
  rw [step?, hperform]
  rfl

/-- **A run** refuses nothing: each call is a call of a client there can be. -/
theorem Reachable.run?_eq (hs : Reachable s) (hcs : s.AllowsAll cs) :
    s.run? cs = some (s.run cs) := by
  induction cs generalizing s with
  | nil => rfl
  | cons c cs ih =>
    rw [run?, List.foldlM_cons, hs.step?_eq hcs.1]
    exact ih (hs.step hcs.1) hcs.2

/-- **No run truncates.** Each call refuses nothing on the way there, and gives
no block back that is not allocated; and there neither an audit is refused nor
the size of a payload that the client owns. A tag that is not refused gives back
the size and the bit it was made of, and a link leads back to its block. -/
theorem Reachable.run_exact (hs : Reachable s) (hcs : s.AllowsAll cs) :
    s.run? cs = some (s.run cs) ∧
      (∀ p, (s.run cs).Owns p →
        (s.run cs).heap.memory.usableSize? p = some ((s.run cs).usable p)) ∧
      Audit.violations? (s.run cs).heap.memory (s.run cs).heap.region (s.run cs).heap.directory =
        some (s.run cs).heap.violations ∧
      (∀ size allocated t, Tag.of? size allocated = some t →
        size % 8 = 0 ∧ size < 2 ^ 32 ∧ t.size = size ∧ t.isAllocated = allocated) ∧
      ∀ (d : FreeLists) p w, d.encode? (some p) = some w →
        1 ≤ p - d.origin ∧ p - d.origin < 2 ^ 32 ∧ w ≠ 0 ∧ d.resolve w = some p := by
  obtain ⟨χ, ht⟩ := (hs.run hcs).sound
  refine ⟨hs.run?_eq hcs, fun p hp => ht.usable?_eq hp, Audit.violations?_eq _ _ _,
    fun _ _ _ htag => Tag.of_of?_eq_some htag, ?_⟩
  intro d p w hlink
  obtain ⟨⟨hlow, hhigh⟩, hne, hresolve⟩ := FreeLists.resolve_of_encode?_eq_some hlink
  exact ⟨Nat.sub_pos_of_lt hlow, hhigh, hne, hresolve⟩

/-- The sample moves its payload, asks for more than its store has, and then
for bytes that are zero. -/
theorem sample_run_exact :
    let cs : List Call := [.tryRealloc (some 104) 200, .malloc 10000, .tryCalloc 3 8]
    Reachable sample ∧ sample.AllowsAll cs ∧ sample.run? cs = some (sample.run cs) := by
  intro cs
  have hcs : sample.AllowsAll cs := by decide +kernel
  exact ⟨reachable_sample, hcs, (reachable_sample.run_exact hcs).1⟩

end Client

end SegFit
