import SegFit.Proofs.Client.Aliasing
/-!
# What zeroing adds to allocating

A zeroed allocation refuses a product that is no size before it does anything.
For any other product it comes to what the plain allocation comes to, in a
heap that is laid out or not, and then fills the new payload with zeros, up to
its footer and no further (`Client.Zeroed`). So the two differ in bytes that
only their owner looks at (`Client.Reachable.tryCalloc_zeroes`).
-/

namespace SegFit

variable {σ : Type} [Store σ]

namespace Client

/-- **A heap with one payload zeroed**: `h'` is `h` but for the bytes behind
`q`, and those are none of the heap's own or of the client's other payloads. -/
structure Zeroed (s : Client σ) (q : Nat) (h h' : Heap σ) : Prop where
  rest : h' = { h with memory := h'.memory }
  blocks : h'.blocks = h.blocks
  list : ∀ c, h'.list c = h.list c
  usable : h'.memory.usableSize q = h.memory.usableSize q
  zero : ∀ i, i < h'.memory.usableSize q → h'.memory.byte (q + i) = 0
  metadata : ∀ a, h.IsMetadata a → h'.memory.byte a = h.memory.byte a
  payloads : ∀ p, s.Owns p → ∀ i, i < s.usable p → h'.memory.byte (p + i) = h.memory.byte (p + i)
  elsewhere : ∀ a, ¬ (q ≤ a ∧ a < q + h'.memory.usableSize q) →
    h'.memory.byte a = h.memory.byte a

/-- **A zeroed allocation beside the plain one**: what came of each. -/
inductive Zeroes (s : Client σ) : EStateM.Result Stop (Heap σ) (Option Nat) →
    EStateM.Result Stop (Heap σ) (Option Nat) → Prop
  | failed (stop : Stop) (h : Heap σ) : Zeroes s (.error stop h) (.error stop h)
  | nothing (h : Heap σ) : Zeroes s (.ok none h) (.ok none h)
  | filled {q : Nat} {h h' : Heap σ} (hz : s.Zeroed q h h') :
      Zeroes s (.ok (some q) h) (.ok (some q) h')

variable {s : Client σ} {χ χ' : Chart} {b : Block} {h : Heap σ}

/-- **Zeroing what was gained** touches nothing else. -/
theorem Tracks.zeroed (ht : Tracks s.heap s.shadow χ) (hg : s.heap.Gains χ b h χ') {m : Memory}
    (hm : m = h.memory.fill b.payload (h.memory.usableSize b.payload) 0) :
    s.Zeroed b.payload h { h with memory := m } := by
  have hb := hg.mem
  obtain ⟨d, hc⟩ := hg.shows.charted_of_mem hb
  obtain ⟨hc', hzero⟩ := hc.zero hb hg.isAllocated hm
  have husable : m.usableSize b.payload = b.size - 8 := hc'.depicts.usableSize_eq hb
  refine ⟨rfl, ?_, ?_, ?_, ?_, ?_, ?_, ?_⟩
  · rw [hc'.blocks_eq, hc.blocks_eq]
  · intro c
    rw [hc'.list_eq, hc.list_eq]
  · rw [husable, hc.depicts.usableSize_eq hb]
  · intro i hi
    change i < m.usableSize b.payload at hi
    exact (hzero _).trans (if_pos ⟨by omega, by omega⟩)
  · intro a ha
    -- the payload has no byte of the heap's own
    have hout : ¬ (b.payload ≤ a ∧ a < b.payload + (b.size - 8)) := fun hin =>
      not_isMetadata (s := ⟨h, s.shadow⟩) hc hb hg.isAllocated hin.1 hin.2 ha
    exact (hzero a).trans (if_neg hout)
  · intro p hp i hi
    obtain ⟨e, he, -, -, halloc, rfl, husable'⟩ := ht.block_of_owns hp
    have he' : e ∈ χ'.blocks := (hg.mem_blocks_iff e halloc).2 (.inl he)
    have hapart := hc.depicts.tiles.apart he' hb fun heq => hg.new (heq ▸ he)
    have hend : e.after = e.payload + e.size := rfl
    have hend' : b.after = b.payload + b.size := rfl
    exact (hzero _).trans (if_neg (by omega))
  · intro a ha
    change ¬ (b.payload ≤ a ∧ a < b.payload + m.usableSize b.payload) at ha
    rw [husable] at ha
    exact (hzero a).trans (if_neg ha)

/-- **Zeroed and plain allocation** come to the same but for the zeros, and a
product that is no size leaves the heap untouched. -/
theorem Reachable.tryCalloc_zeroes [Store.Lawful σ] (hs : Reachable s) (count size : Nat) :
    (2 ^ 64 ≤ count * size →
        Heap.tryCalloc count size s.heap = .error (.failed .overflow) s.heap) ∧
      (count * size < 2 ^ 64 →
        s.Zeroes (Heap.tryMalloc (count * size) s.heap) (Heap.tryCalloc count size s.heap)) := by
  refine ⟨fun hover => ?_, fun hlt => ?_⟩
  · have hover : ¬ count * size < Layout.sizeRange := Nat.not_lt.2 hover
    rw [Heap.tryCalloc, if_neg hover]
    rfl
  · have hlt : count * size < Layout.sizeRange := hlt
    obtain ⟨χ, ht⟩ := hs.sound
    rw [Heap.tryCalloc, if_pos hlt]
    rcases (Heap.ends_tryMalloc_takes ht.shows (count * size)).cases with
      ⟨q, h, hrun, htakes⟩ | ⟨e, h, hrun, -⟩
    · rw [Heap.bind_of_ok hrun, hrun]
      cases q with
      | none => exact .nothing h
      | some p =>
        obtain ⟨b, χ', rfl, hg⟩ := htakes
        exact .filled (ht.zeroed hg rfl)
    · rw [Heap.bind_of_error hrun, hrun]
      exact .failed _ h

/-- A product that is no size, and one that the sample serves from a block
whose bytes were used before. -/
theorem sample_tryCalloc_zeroes :
    Reachable sample ∧
      Heap.tryCalloc (2 ^ 33) (2 ^ 31) sample.heap = .error (.failed .overflow) sample.heap ∧
        sample.Zeroes (Heap.tryMalloc (3 * 8) sample.heap) (Heap.tryCalloc 3 8 sample.heap) :=
  ⟨reachable_sample, (reachable_sample.tryCalloc_zeroes _ _).1 (by decide),
    (reachable_sample.tryCalloc_zeroes 3 8).2 (by decide)⟩

end Client

end SegFit
