import SegFit.Proofs.Chart.Merge
/-!
# Giving a block back, on a chart

`Chart.release` turns an allocated block free, files it and merges it
with its neighbours. A settled chart stays settled, and of the allocated
blocks exactly this one is gone.
-/

namespace SegFit

namespace Chart

variable {χ : Chart} {d : Directory} {m : Memory} {stop : Nat} {b : Block}

/-- A block, no longer allocated. -/
def freed (b : Block) : Block := { b with isAllocated := false }

/-- The chart with an allocated block freed in its place, not merged
yet. -/
def unlock (b : Block) (χ : Chart) : Chart := (χ.swap b.payload [b] [freed b]).file (freed b)

/-- The chart after giving a block back, and the free block that now
covers it. -/
def release (b : Block) (χ : Chart) : Block × Chart := (χ.unlock b).merge (freed b)

namespace Depicts

variable (h : χ.Depicts d stop m)

include h

/-- A block freed in its place is in no list yet. -/
theorem retag_freed {pre post : List Block} (hbs : χ.blocks = pre ++ b :: post)
    (halloc : b.isAllocated = true) :
    Depicts ⟨pre ++ [freed b] ++ post, χ.lists⟩ d stop (m.setTags b.payload b.size false) ∧
      Keeps (pre ++ post) m (m.setTags b.payload b.size false) := by
  have hmem : b ∈ χ.blocks := by rw [hbs]; simp
  obtain ⟨-, -, hproper⟩ := h.tiles.bounds hmem
  have hbs' : χ.blocks = pre ++ [b] ++ post := by rw [hbs]; simp
  have htiles := h.tiles
  rw [hbs, tiles_append] at htiles
  obtain ⟨p, hpre, rfl, -, hpost⟩ := htiles
  have hnew : Tiles b.payload b.after [freed b] :=
    tiles_singleton.2 ⟨rfl, ⟨hproper.large, hproper.aligned⟩, rfl⟩
  have hun : ∀ c, ∀ e ∈ [b], e ∉ χ.lists c := fun c e he => by
    rw [List.mem_singleton.1 he]
    exact h.not_listed halloc c
  obtain ⟨h1, hset⟩ := h.retag hbs' hpre hnew hpost hun
  have hkeep : Keeps (pre ++ [] ++ post) m (m.setTags b.payload b.size false) :=
    keeps_of_retile hpre hpost hset (by simp)
  rw [List.append_nil] at hkeep
  exact ⟨h1, hkeep⟩

/-- **Freeing a block in its place.** -/
theorem unlock {pre post : List Block} (hbs : χ.blocks = pre ++ b :: post)
    (halloc : b.isAllocated = true) :
    (χ.unlock b).blocks = pre ++ freed b :: post ∧
      (χ.unlock b).Depicts d stop (d.insert b.payload (m.setTags b.payload b.size false)) ∧
      Keeps (pre ++ post) m (d.insert b.payload (m.setTags b.payload b.size false)) := by
  have hmem : b ∈ χ.blocks := by rw [hbs]; simp
  have hbs' : χ.blocks = pre ++ [b] ++ post := by rw [hbs]; simp
  obtain ⟨h1, hkeep⟩ := h.retag_freed hbs halloc
  have hchart : χ.swap b.payload [b] [freed b] = ⟨pre ++ [freed b] ++ post, χ.lists⟩ :=
    swap_eq hbs' h.tiles rfl fun e => Iff.rfl
  have hnew : freed b ∉ χ.lists (SizeClass.ofSize (freed b).size) := fun hl => by
    have hin := (h.listed _ _ hl).1
    exact Block.ne_of_isAllocated halloc rfl (h.tiles.eq_of_payload hmem hin rfl)
  obtain ⟨h2, hframe⟩ := h1.insert (b := freed b) (by simp) rfl hnew
  unfold Chart.unlock
  rw [hchart]
  refine ⟨by simp, h2, hkeep.trans ((h1.keeps_of_links hframe).mono ?_)⟩
  intro e he _
  simp only [List.mem_append] at he ⊢
  tauto

/-- It is filed then, as every other free block was. -/
theorem filed_unlock {pre post : List Block} (hs : χ.Settled) (hbs : χ.blocks = pre ++ b :: post)
    (halloc : b.isAllocated = true) : ∀ e ∈ (χ.unlock b).blocks, e.isAllocated = false →
      e ∈ (χ.unlock b).lists (SizeClass.ofSize e.size) := by
  intro e he hfree
  rw [(h.unlock hbs halloc).1] at he
  unfold Chart.unlock
  rw [mem_file, lists_swap]
  simp only [List.mem_append, List.mem_cons] at he
  by_cases heq : e = freed b
  · exact .inr ⟨heq, by rw [heq]⟩
  · refine .inl (hs.complete e ?_ hfree)
    rw [hbs]
    simp only [List.mem_append, List.mem_cons]
    tauto

/-- **Giving a block back.** -/
theorem release {pre post : List Block} (hs : χ.Settled) (hbs : χ.blocks = pre ++ b :: post)
    (halloc : b.isAllocated = true) :
    let m' := (d.merge b.payload (d.insert b.payload (m.setTags b.payload b.size false))).2
    (χ.release b).2.Depicts d stop m' ∧ (χ.release b).2.Settled ∧ Keeps (pre ++ post) m m' ∧
      (∀ e, e.isAllocated = true → (e ∈ (χ.release b).2.blocks ↔ e ∈ χ.blocks ∧ e ≠ b)) := by
  obtain ⟨hblocks, h1, hkeep⟩ := h.unlock hbs halloc
  have hnd := h.tiles.nodup
  rw [hbs, List.nodup_middle] at hnd
  have hb := (List.nodup_cons.1 hnd).1
  have hchain := hs.coalesced
  rw [hbs, List.isChain_append, List.isChain_cons] at hchain
  obtain ⟨-, h2, h3, h4, h5, -⟩ := h1.settle hblocks rfl
    (h.filed_unlock hs hbs halloc) (sorted_file hs.sorted) hchain.1 hchain.2.1.2
  refine ⟨h2, h3, hkeep.trans (h4.mono ?_), ?_⟩
  · intro e he _
    rw [hblocks]
    simp only [List.mem_append, List.mem_cons] at he ⊢
    tauto
  · intro e he
    have hne : e ≠ freed b := Block.ne_of_isAllocated he rfl
    unfold Chart.release
    rw [h5 e he, hblocks, hbs]
    simp only [List.mem_append, List.mem_cons] at hb ⊢
    constructor
    · rintro (hin | hin | hin)
      · exact ⟨.inl hin, fun heq => hb (.inl (heq ▸ hin))⟩
      · exact absurd hin hne
      · exact ⟨.inr (.inr hin), fun heq => hb (.inr (heq ▸ hin))⟩
    · tauto

end Depicts

end Chart

end SegFit
