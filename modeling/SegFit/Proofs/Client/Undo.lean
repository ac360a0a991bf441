import SegFit.Proofs.Chart.Undo
import SegFit.Proofs.Client.Freeing
/-!
# Giving back undoes allocating

A payload that is given back as soon as it was handed out leaves the heap
as it was, with every list in its old order, and the same request then
gets the same payload again, without the store. When the heap had to grow
for the request, it is left as it was right after growing
(`Client.Reachable.free_undoes_tryMalloc`).
-/

namespace SegFit

variable {σ : Type} [Store σ]

namespace Heap

/-- **A heap put back**: it has the blocks, the lists and the payloads it
had. Only bytes of free blocks may have changed. -/
structure Restored (h h' : Heap σ) : Prop where
  store : h'.store = h.store
  directory : h'.directory = h.directory
  blocks : h'.blocks = h.blocks
  list : ∀ c, h'.list c = h.list c
  payload : ∀ b ∈ h.blocks, b.isAllocated = true → ∀ i, i < b.size - 8 →
    h'.memory.byte (b.payload + i) = h.memory.byte (b.payload + i)

/-- **The heap a request of `n` bytes was served in**, when it got the
payload `p` and left the heap `h₁`. -/
inductive ServedIn (h : Heap σ) (d : Directory) (n p : Nat) (h₁ : Heap σ) : Heap σ → Prop
  /-- The heap as it was: the store was not asked. -/
  | lists (hstore : h₁.store = h.store) : ServedIn h d n p h₁ h
  /-- The heap right after growing, and the store was not asked again. -/
  | growth {h₀ : Heap σ} {need : Nat} (hneed : Layout.blockSizeFor? n = some need)
      (hextend : extend d (max need Layout.chunk) h = .ok p h₀)
      (hgrown : h.region.extent < h₀.region.extent) (hstore : h₁.store = h₀.store) :
      ServedIn h d n p h₁ h₀

variable {h₀ h₁ : Heap σ} {d : Directory} {χ : Chart} {b : Block} {n need : Nat}

/-- **From the chart on**: a heap that served a request from the best fit
of its chart is put back, and serves it again. -/
theorem Charted.free_restores [Store.Lawful σ] (hc : h₀.Charted d χ) (hn : n ≠ 0)
    (hneed : Layout.blockSizeFor? n = some need) (hfit : χ.findFit need = some b)
    (hc₁ : h₁.Charted d (χ.carve b need)) (hstore : h₁.store = h₀.store)
    (hkeeps : Chart.Keeps χ.blocks h₀.memory h₁.memory) :
    ∃ h₂ h₃, free (some b.payload) h₁ = .ok () h₂ ∧ h₀.Restored h₂ ∧
      tryMalloc n h₂ = .ok (some b.payload) h₃ ∧ h₃.store = h₂.store := by
  obtain ⟨-, -, hlarge, h8, -⟩ := Layout.blockSizeFor?_eq_some hneed
  obtain ⟨hb, hle⟩ := hc.depicts.mem_of_findFit hfit
  obtain ⟨-, -, -, hnew, hserved⟩ := hc.depicts.serve hc.settled hb hlarge h8 hle
  have hin : Chart.served b need ∈ (χ.carve b need).blocks := (hserved _ rfl).2 (.inr rfl)
  obtain ⟨h₂, hfree, hf⟩ := hc₁.free_frees hin rfl
  have hc₂ : h₂.Charted d χ := by
    have hcharted := hf.charted
    rwa [hc.depicts.release_carve hc.settled hfit hlarge h8] at hcharted
  obtain ⟨h₃, hagain, hstore₃, -⟩ := tryMalloc_of_fit hc₂ hn hneed hfit
  refine ⟨h₂, h₃, hfree, ⟨hf.store.trans hstore, ?_, ?_, ?_, ?_⟩, hagain, hstore₃⟩
  · rw [hc₂.directory, hc.directory]
  · rw [hc₂.blocks_eq, hc.blocks_eq]
  · intro c
    rw [hc₂.list_eq, hc.list_eq]
  · rw [hc.blocks_eq]
    intro e he halloc i hi
    have hother : e ∈ (χ.carve b need).blocks.erase (Chart.served b need) :=
      hc₁.depicts.tiles.nodup.mem_erase_iff.2
        ⟨fun heq => hnew (heq ▸ he), (hserved e halloc).2 (.inl he)⟩
    exact (hf.keeps e hother halloc i (by omega)).trans (hkeeps e he halloc i (by omega))

end Heap

namespace Client

variable {s : Client σ} {d : Directory} {n : Nat} {q : Option Nat} {h₁ : Heap σ}

/-- **Giving back undoes allocating**, and the next request of as many
bytes gets the same payload without the store. -/
theorem Reachable.free_undoes_tryMalloc [Store.Lawful σ] (hs : Reachable s)
    (hd : s.heap.directory = some d) (hn : 0 < n) (hrun : Heap.tryMalloc n s.heap = .ok q h₁) :
    ∃ p h₀ h₂ h₃, q = some p ∧ s.heap.ServedIn d n p h₁ h₀ ∧
      Heap.free q h₁ = .ok () h₂ ∧ h₀.Restored h₂ ∧
      Heap.tryMalloc n h₂ = .ok q h₃ ∧ h₃.store = h₂.store := by
  obtain ⟨χ, hc, -⟩ := hs.sound.charted hd
  have hn : n ≠ 0 := Nat.ne_of_gt hn
  have hallots := Heap.ends_tryMalloc hc n
  rw [Heap.ends_of_ok hrun] at hallots
  obtain ⟨need, hneed⟩ : ∃ need, Layout.blockSizeFor? n = some need := by
    cases hallots with
    | nothing hn' => exact absurd hn' hn
    | served _ hneed => exact ⟨_, hneed⟩
  obtain ⟨-, -, hlarge, -⟩ := Layout.blockSizeFor?_eq_some hneed
  cases hfit : χ.findFit need with
  | some b =>
    obtain ⟨h', hrun', hstore, hc₁, hkeeps⟩ := Heap.tryMalloc_of_fit hc hn hneed hfit
    rw [hrun] at hrun'
    cases hrun'
    obtain ⟨h₂, h₃, hfree, hrestored, hagain⟩ :=
      hc.free_restores hn hneed hfit hc₁ hstore hkeeps
    exact ⟨b.payload, s.heap, h₂, h₃, rfl, .lists hstore, hfree, hrestored, hagain⟩
  | none =>
    obtain ⟨g, h₀, rfl, hg⟩ := Heap.tryMalloc_of_no_fit hc hn hneed hfit hrun
    obtain ⟨hle, -, h8⟩ := Layout.alignUp?_eq_some hg.size
    have hreach : s.heap.region.stop + g < d.heads + 2 ^ 32 := by
      have hreach := hg.charted.depicts.reach
      rwa [hg.region, Region.stop, ← Nat.add_assoc] at hreach
    have hfit₀ := hc.depicts.findFit_grow hc.settled (by omega) h8 hreach hfit (by omega)
    obtain ⟨h₂, h₃, hfree, hrestored, hagain⟩ :=
      hg.charted.free_restores hn hneed hfit₀ hg.carved hg.store hg.carve_keeps
    refine ⟨_, h₀, h₂, h₃, rfl, .growth hneed hg.extend ?_ hg.store, hfree, hrestored, hagain⟩
    rw [hg.region]
    exact Nat.lt_add_of_pos_right (by omega)

/-- A request that the crowd's heap has to grow for. -/
theorem crowd_free_undoes_tryMalloc :
    Reachable crowd ∧ crowd.heap.directory = some (.ofBase 16) ∧ 0 < 4500 ∧
      ∃ q h₁, Heap.tryMalloc 4500 crowd.heap = .ok q h₁ ∧
        crowd.heap.region.extent < h₁.region.extent ∧
        ∃ p h₀ h₂ h₃, q = some p ∧ crowd.heap.ServedIn (.ofBase 16) 4500 p h₁ h₀ ∧
          Heap.free q h₁ = .ok () h₂ ∧ h₀.Restored h₂ ∧
          Heap.tryMalloc 4500 h₂ = .ok q h₃ ∧ h₃.store = h₂.store := by
  have hd : crowd.heap.directory = some (.ofBase 16) := by decide +kernel
  have hgrows : (match Heap.tryMalloc 4500 crowd.heap with
      | .ok _ h₁ => decide (crowd.heap.region.extent < h₁.region.extent)
      | .error _ _ => false) = true := by decide +kernel
  refine ⟨reachable_crowd, hd, by decide, ?_⟩
  cases hrun : Heap.tryMalloc 4500 crowd.heap with
  | ok q h₁ =>
    rw [hrun] at hgrows
    exact ⟨q, h₁, rfl, of_decide_eq_true hgrows,
      reachable_crowd.free_undoes_tryMalloc hd (by decide) hrun⟩
  | error stop h₁ =>
    rw [hrun] at hgrows
    cases hgrows

end Client

end SegFit
