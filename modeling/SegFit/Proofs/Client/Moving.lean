import SegFit.Proofs.Client.Coalescing
/-!
# What moving does, exactly

A payload that is moved is an allocation and a release, in this order, with
the contents copied in between. What the copy and the release write is clear
of every other payload, wherever the two blocks lie (`Client.Moved`). The heap
that is left has the blocks and the lists of the allocation and the release
alone (`Client.Reachable.tryRealloc_moved`).
-/

namespace SegFit

variable {σ : Type} [Store σ]

namespace Heap

variable {h h' : Heap σ} {d : Directory} {χ : Chart} {b : Block} {n : Nat} {q : Option Nat}

/-- **A move that succeeded**, taken apart: the block `f` was gained by an
allocation, and releasing the old block leaves the chart that the move does. -/
theorem Charted.tryRealloc_inTurn [Store.Lawful σ] (hc : h.Charted d χ) (hb : b ∈ χ.blocks)
    (halloc : b.isAllocated = true) (hn : n ≠ 0)
    (hrun : tryRealloc (some b.payload) n h = .ok q h') :
    ∃ f χ₁ h₁ h₂, q = some f.payload ∧ n + 8 ≤ f.size ∧
      tryMalloc n h = .ok (some f.payload) h₁ ∧ h₁.Charted d χ₁ ∧ h.Gains χ f h₁ χ₁ ∧
        free (some b.payload) h₁ = .ok () h₂ ∧ Frees h₁ d χ₁ b h₂ ∧ Relocates h₁ d χ₁ b f h' := by
  rcases (ends_tryMalloc hc n).cases with ⟨q', h₁, hmalloc, ha⟩ | ⟨e, h₁, hmalloc, -⟩
  · cases ha with
    | nothing hn' => exact absurd hn' hn
    | @served _ need χ₁ f _ hneed _ hle hc₁ hkeeps hnew hblocks =>
      have hgains : h.Gains χ (Chart.served f need) h₁ (χ₁.carve f need) :=
        ⟨.charted d hc₁, rfl, hnew, hblocks, hkeeps⟩
      have hb₁ : b ∈ (χ₁.carve f need).blocks := (hblocks b halloc).2 (.inl hb)
      have hne : b ≠ Chart.served f need := fun heq => hnew (heq ▸ hb)
      have hx := ends_tryRealloc_of_tryMalloc (f := Chart.served f need) hn hmalloc hc₁ hb₁ halloc
        hgains.mem rfl hne
      rw [ends_of_ok hrun] at hx
      obtain ⟨hq, hmoves⟩ := hx
      have hroom : n + 8 ≤ (Chart.served f need).size :=
        Nat.le_trans (Layout.blockSizeFor?_eq_some hneed).1 (Chart.le_size_served hle)
      obtain ⟨h₂, hfree, hf⟩ := hc₁.free_frees hb₁ halloc
      exact ⟨_, _, h₁, h₂, Except.ok.inj hq, hroom, hmalloc, hc₁, hgains, hfree, hf, hmoves⟩
  · -- without a new block there is no success
    have hx : Ends (tryRealloc (some b.payload) n) h fun r _ => r = .error e := by
      simp only [tryRealloc, if_neg hn, ends_bind, ends_of_failed hmalloc]
    rw [ends_of_ok hrun] at hx
    cases hx

end Heap

namespace Client

/-- **A payload moved** from `p` to `q` for a request of `n` bytes. -/
structure Moved (s : Client σ) (p n q : Nat) (h' : Heap σ) : Prop where
  fresh : ∀ r, s.Owns r → q ≠ r
  large : n ≤ h'.memory.usableSize q
  moved : ∀ i, i < min (s.usable p) (h'.memory.usableSize q) →
    h'.memory.byte (q + i) = s.heap.memory.byte (p + i)
  others : ∀ r, s.Owns r → r ≠ p → h'.memory.usableSize r = s.usable r ∧
    ∀ i, i < s.usable r → h'.memory.byte (r + i) = s.heap.memory.byte (r + i)
  /-- Allocating and giving back, one after the other, leave the same blocks
  and the same lists, and ask the store for the same. -/
  inTurn : ∃ h₁ h₂, Heap.tryMalloc n s.heap = .ok (some q) h₁ ∧
    Heap.free (some p) h₁ = .ok () h₂ ∧
      (∃ pre left b right post e, b.payload = p ∧ h₁.Coalesces pre left b right post e h₂) ∧
        h'.store = h₂.store ∧ h'.blocks = h₂.blocks ∧ ∀ c, h'.list c = h₂.list c

variable {s : Client σ} {p n : Nat} {q : Option Nat} {h' : Heap σ}

/-- **Moving, exactly.** A move that succeeds gives another payload with the old
contents, and is an allocation and a release in turn, whether the heap grew for
it or not and whichever of the two payloads is the larger. -/
theorem Reachable.tryRealloc_moved [Store.Lawful σ] (hs : Reachable s) (hp : s.Owns p)
    (hn : 0 < n) (hrun : Heap.tryRealloc (some p) n s.heap = .ok q h') :
    ∃ q', q = some q' ∧ s.Moved p n q' h' := by
  obtain ⟨χ, ht⟩ := hs.sound
  obtain ⟨b, hb, d, hc, halloc, rfl, husable⟩ := ht.block_of_owns hp
  obtain ⟨f, χ₁, h₁, h₂, rfl, hroom, hmalloc, hc₁, hgains, hfree, hf, hmoves⟩ :=
    hc.tryRealloc_inTurn hb halloc (Nat.ne_of_gt hn) hrun
  have hc' := hmoves.charted
  have hf₁ := hgains.mem
  have hne : f ≠ b := fun heq => hgains.new (heq ▸ hb)
  have hsize : h'.memory.usableSize f.payload = f.size - 8 :=
    hc'.depicts.usableSize_eq ((hmoves.mem_blocks_iff f hgains.isAllocated).2 ⟨hf₁, hne⟩)
  -- what was allocated before is allocated between the two, beside the new block
  have hstays : ∀ e ∈ χ.blocks, e.isAllocated = true → e ∈ χ₁.blocks ∧ e ≠ f := fun e he ha =>
    ⟨(hgains.mem_blocks_iff e ha).2 (.inl he), fun heq => hgains.new (heq ▸ he)⟩
  refine ⟨f.payload, rfl, ?_, by omega, ?_, ?_, h₁, h₂, hmalloc, hfree, ?_, ?_, ?_, ?_⟩
  · rintro r hr heq
    obtain ⟨e, he, -, -, ha, rfl, -⟩ := ht.block_of_owns hr
    obtain ⟨he₁, hef⟩ := hstays e he ha
    exact hef (hc₁.depicts.tiles.eq_of_payload hf₁ he₁ heq).symm
  · intro i hi
    exact (hmoves.moved i (by omega)).trans (hgains.keeps b hb halloc i (by omega))
  · intro r hr hrp
    obtain ⟨e, he, -, -, ha, rfl, husable'⟩ := ht.block_of_owns hr
    obtain ⟨he₁, hef⟩ := hstays e he ha
    have heb : e ≠ b := fun heq => hrp (congrArg Block.payload heq)
    refine ⟨?_, fun i hi => ?_⟩
    · rw [hc'.depicts.usableSize_eq ((hmoves.mem_blocks_iff e ha).2 ⟨he₁, heb⟩), husable']
    · have hnodup := hc₁.depicts.tiles.nodup
      have hkept : e ∈ (χ₁.blocks.erase b).erase f :=
        (hnodup.erase b).mem_erase_iff.2 ⟨hef, hnodup.mem_erase_iff.2 ⟨heb, he₁⟩⟩
      exact (hmoves.keeps e hkept ha i (by omega)).trans (hgains.keeps e he ha i (by omega))
  · obtain ⟨pre, left, right, post, hcoalesces⟩ := hf.coalesces hc₁ (hstays b hb halloc).1 halloc
    exact ⟨pre, left, b, right, post, _, rfl, hcoalesces⟩
  · rw [hmoves.store, hf.store]
  · rw [hc'.blocks_eq, hf.charted.blocks_eq]
  · intro c
    rw [hc'.list_eq, hf.charted.list_eq]

/-- The one payload of the sample, which has a free neighbour on either side:
the new block comes to lie right behind the old one. -/
theorem sample_tryRealloc_moved :
    Reachable sample ∧ sample.Owns 104 ∧ 0 < 200 ∧
      ∃ q h', Heap.tryRealloc (some 104) 200 sample.heap = .ok q h' ∧
        ∃ q', q = some q' ∧ sample.Moved 104 200 q' h' := by
  have hmoves : (match Heap.tryRealloc (some 104) 200 sample.heap with
      | .ok _ _ => true
      | .error _ _ => false) = true := by decide +kernel
  refine ⟨reachable_sample, owns_sample, by decide, ?_⟩
  cases hrun : Heap.tryRealloc (some 104) 200 sample.heap with
  | ok q h' =>
    exact ⟨q, h', rfl, reachable_sample.tryRealloc_moved owns_sample (by decide) hrun⟩
  | error stop h' =>
    rw [hrun] at hmoves
    cases hmoves

end Client

end SegFit
