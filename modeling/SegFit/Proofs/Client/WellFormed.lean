import SegFit.Proofs.Client.Sound
/-!
# Well-formed heaps

`Heap.WellFormed` is the representation of a heap, said of its memory
alone: the block sequence and the ten lists are the views a heap offers
(`Heap.blocks`, `Heap.list`), and the tags and links are read as words.
Every heap a client can have is well-formed once it is laid out
(`Client.Reachable.wellFormed_heap`).
-/

namespace SegFit

variable {σ : Type} [Store σ]

/-- **The representation of a heap** that is laid out. -/
structure Heap.WellFormed (h : Heap σ) (d : Directory) : Prop where
  base : d.heads = h.region.start
  prologueHeader : h.memory.word (d.heads + Layout.prologueHeader) = 9
  prologueFooter : h.memory.word d.origin = 9
  /-- The blocks begin 56 bytes in and end with the region. -/
  tiles : Tiles (h.region.start + 56) h.region.stop h.blocks
  proper : ∀ b ∈ h.blocks, b.size % 8 = 0 ∧ 16 ≤ b.size
  total : 56 + (h.blocks.map Block.size).sum = h.size
  tags : ∀ b ∈ h.blocks, h.memory.header b.payload = h.memory.footer b.payload
  epilogue : h.memory.word (h.region.stop - Layout.word) = 1
  coalesced : h.blocks.IsChain Block.Parted
  /-- Next links lead from the head to a last block without one, and each
  previous link leads back. -/
  threaded : ∀ c, d.Threaded h.memory c none (h.list c)
  nodup : ∀ c, (h.list c).Nodup
  ascending : ∀ c, (h.list c).Pairwise fun p q => h.memory.blockSize p ≤ h.memory.blockSize q
  /-- A list has the free blocks of its class, and nothing else. -/
  mem_list_iff : ∀ c p, p ∈ h.list c ↔
    ∃ b ∈ h.blocks, b.payload = p ∧ b.isAllocated = false ∧ SizeClass.ofSize b.size = c

namespace Heap

variable {h : Heap σ} {d : Directory} {χ : Chart}

/-- **A charted heap is well-formed.** -/
theorem Charted.wellFormed [Store.Truthful σ] (hc : h.Charted d χ) : h.WellFormed d := by
  have hdepicts := hc.depicts
  have hfirst : d.firstBlock = h.region.start + 56 := by rw [Directory.firstBlock_eq, hc.base]
  have htiles : Tiles (h.region.start + 56) h.region.stop h.blocks := by
    rw [hc.blocks_eq, ← hfirst]
    exact hdepicts.tiles
  refine ⟨hc.base, hdepicts.prologueHeader, hdepicts.prologueFooter, htiles, ?_, ?_,
    ?_, hdepicts.epilogue, ?_, ?_, ?_, ?_, ?_⟩
  · intro b hb
    exact ⟨(htiles.bounds hb).2.2.aligned, (htiles.bounds hb).2.2.large⟩
  · have hsize : h.size = h.region.extent := Store.Truthful.size_eq h.store
    have hstop : h.region.stop = h.region.start + h.region.extent := rfl
    have hsum := htiles.sum_eq
    omega
  · intro b hb
    rw [hc.blocks_eq] at hb
    rw [(hdepicts.hasBlock b hb).header, (hdepicts.hasBlock b hb).footer]
  · rw [hc.blocks_eq]
    exact hc.settled.coalesced
  · intro c
    rw [hc.list_eq]
    exact hdepicts.spells.threaded c
  · intro c
    rw [hc.list_eq]
    exact hdepicts.spells.nodup c
  · intro c
    rw [hc.list_eq]
    exact hdepicts.sorted_blockSize (hc.settled.sorted c)
  · intro c p
    rw [hc.list_eq, hc.blocks_eq, List.mem_map]
    constructor
    · rintro ⟨b, hb, rfl⟩
      obtain ⟨hmem, hfree, hclass⟩ := hdepicts.listed c b hb
      exact ⟨b, hmem, rfl, hfree, hclass⟩
    · rintro ⟨b, hb, rfl, hfree, rfl⟩
      exact ⟨b, hc.settled.complete b hb hfree, rfl⟩

end Heap

namespace Client

variable {s : Client σ} {d : Directory}

/-- The chart of a heap that is laid out. -/
theorem Sound.charted (hs : s.Sound) (hd : s.heap.directory = some d) :
    ∃ χ, s.heap.Charted d χ ∧ Tracks s.heap s.shadow χ := by
  obtain ⟨χ, ht⟩ := hs
  exact ⟨χ, ht.shows.charted_of_some hd, ht⟩

/-- **Every heap a client can have is well-formed**, from when it is laid
out on. -/
theorem Reachable.wellFormed_heap [Store.Truthful σ] (hs : Reachable s)
    (hd : s.heap.directory = some d) : s.heap.WellFormed d := by
  obtain ⟨χ, hc, -⟩ := hs.sound.charted hd
  exact hc.wellFormed

theorem sample_wellFormed :
    Reachable sample ∧ sample.heap.directory = some (.ofBase 16) ∧
      sample.heap.WellFormed (.ofBase 16) := by
  have hd : sample.heap.directory = some (.ofBase 16) := by decide +kernel
  exact ⟨reachable_sample, hd, reachable_sample.wellFormed_heap hd⟩

end Client

end SegFit
