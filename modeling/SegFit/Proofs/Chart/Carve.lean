import SegFit.FreeLists.Carve
import SegFit.Proofs.Chart.Edit
/-!
# Carving on a chart

A request takes the front of a free block. `Chart.carve` replaces the
block by the one `served`, and by what is `leftOver` where that is large
enough to be a block; `Depicts.carve` says that `FreeLists.carve` does
this to a memory.
-/

namespace SegFit

namespace Chart

variable {χ : Chart} {d : Directory} {m : Memory} {p stop need : Nat} {b : Block}

/-- The block a request is given of a free one: all of it, unless the
rest can be a block. -/
def served (b : Block) (need : Nat) : Block :=
  ⟨b.payload, if b.size - need < 16 then b.size else need, true⟩

/-- What a request leaves of a free block. -/
def leftOver (b : Block) (need : Nat) : Option Block :=
  if b.size - need < 16 then none else some ⟨b.payload + need, b.size - need, false⟩

/-- The chart after serving a request from a block. -/
def carve (b : Block) (need : Nat) (χ : Chart) : Chart :=
  let χ := (χ.unfile b).swap b.payload [b] (served b need :: (leftOver b need).toList)
  match leftOver b need with
  | none => χ
  | some r => χ.file r

/-- What is served is as large as was asked for. -/
theorem le_size_served (hle : need ≤ b.size) : need ≤ (served b need).size := by
  simp only [served]
  split
  · exact hle
  · exact Nat.le_refl need

/-- **At most the size of two tags more**: what is left over is a block of its
own unless it is smaller than one can be. -/
theorem size_served (hle : need ≤ b.size) (h8 : need % 8 = 0)
    (haligned : (served b need).size % 8 = 0) :
    (served b need).size = need ∨ (served b need).size = need + 8 := by
  simp only [served] at haligned ⊢
  split at haligned
  · rename_i hsmall
    rw [if_pos hsmall]
    omega
  · rename_i hsplit
    rw [if_neg hsplit]
    exact .inl rfl

/-- **Served and left over make up the block.** -/
theorem tiles_served (hb : b.Proper) (hlarge : 16 ≤ need) (h8 : need % 8 = 0)
    (hle : need ≤ b.size) :
    Tiles b.payload b.after (served b need :: (leftOver b need).toList) := by
  have hsize := hb.large
  have haligned := hb.aligned
  by_cases hleft : b.size - need < 16
  · simp only [served, leftOver, if_pos hleft, Option.toList_none]
    exact tiles_singleton.2 ⟨rfl, ⟨hsize, haligned⟩, rfl⟩
  · simp only [served, leftOver, if_neg hleft, Option.toList_some]
    refine ⟨rfl, ⟨hlarge, h8⟩, tiles_singleton.2 ⟨rfl, ⟨?_, ?_⟩, ?_⟩⟩ <;>
      simp only [Block.after] <;> omega

theorem mem_carve {e : Block} {c : SizeClass} :
    e ∈ (χ.carve b need).lists c ↔
      e ∈ (χ.unfile b).lists c ∨ e ∈ leftOver b need ∧ SizeClass.ofSize e.size = c := by
  unfold carve
  cases hr : leftOver b need with
  | none => simp
  | some r =>
    rw [mem_file, lists_swap]
    simp only [Option.mem_some_iff]
    constructor
    · rintro (he | ⟨rfl, hc⟩)
      · exact .inl he
      · exact .inr ⟨rfl, hc⟩
    · rintro (he | ⟨rfl, hc⟩)
      · exact .inl he
      · exact .inr ⟨rfl, hc⟩

/-- The blocks after serving a request. -/
theorem blocks_carve {pre post : List Block} (ht : Tiles p stop χ.blocks)
    (hbs : χ.blocks = pre ++ b :: post) :
    (χ.carve b need).blocks = pre ++ served b need :: ((leftOver b need).toList ++ post) := by
  have hswap : ((χ.unfile b).swap b.payload [b] (served b need :: (leftOver b need).toList)).blocks
      = pre ++ (served b need :: (leftOver b need).toList) ++ post :=
    swap_blocks (by rw [blocks_unfile, hbs]; simp) ht rfl fun e => Iff.rfl
  unfold carve
  cases hr : leftOver b need with
  | none =>
    rw [hr] at hswap
    simpa using hswap
  | some r =>
    rw [hr] at hswap
    simpa using hswap

namespace Depicts

variable (h : χ.Depicts d stop m)

include h

/-- What carving writes, once the block is out of its list. -/
theorem carve_eq (hb : b ∈ χ.blocks) (hle : need ≤ b.size) :
    d.carve b.payload need m =
      if b.size - need < 16 then (d.remove b.payload m).setTags b.payload b.size true
      else
        let m' := (d.remove b.payload m).setTags b.payload need true
        d.insert (m'.after b.payload) (m'.setTags (m'.after b.payload) (b.size - need) false) := by
  rw [FreeLists.carve, h.blockSize_eq hb, Layout.wrappingSub_of_le hle]

/-- **A block out of its list** is a run of its own, with the blocks before
and after it on either side. -/
theorem run_of_unfile {pre post : List Block} (hbs : χ.blocks = pre ++ b :: post) :
    (χ.unfile b).blocks = pre ++ [b] ++ post ∧ Tiles d.firstBlock b.payload pre ∧
      Tiles b.after stop post ∧ ∀ c, ∀ e ∈ [b], e ∉ (χ.unfile b).lists c := by
  have htiles := h.tiles
  rw [hbs, tiles_append] at htiles
  obtain ⟨p, hpre, rfl, -, hpost⟩ := htiles
  exact ⟨by rw [blocks_unfile, hbs]; simp, hpre, hpost, fun c e he hl =>
    (h.mem_unfile.1 hl).2 (List.mem_singleton.1 he)⟩

/-- **Splitting it** leaves two blocks, neither of them listed yet. -/
theorem split {pre post : List Block} (hbs : χ.blocks = pre ++ b :: post)
    (hb : b ∈ χ.lists (SizeClass.ofSize b.size)) (hlarge : 16 ≤ need) (h8 : need % 8 = 0)
    (hle : need ≤ b.size) (hleft : ¬ b.size - need < 16) :
    let m₁ := d.remove b.payload m
    let m₂ := m₁.setTags b.payload need true
    let m₃ := m₂.setTags (b.payload + need) (b.size - need) false
    m₂.after b.payload = b.payload + need ∧
      Depicts ⟨pre ++ [⟨b.payload, need, true⟩, ⟨b.payload + need, b.size - need, false⟩] ++ post,
        (χ.unfile b).lists⟩ d stop m₃ ∧
      ∀ a, ¬ (b.payload - 4 ≤ a ∧ a < b.after - 4) → m₃.byte a = m₁.byte a := by
  obtain ⟨h1, -⟩ := h.remove hb
  obtain ⟨hbs₁, hpre, hpost, hun⟩ := h.run_of_unfile hbs
  have hnew := tiles_served (h.tiles.bounds (h.listed _ b hb).1).2.2 hlarge h8 hle
  simp only [served, leftOver, if_neg hleft, Option.toList_some] at hnew
  obtain ⟨hafter, h2, hset⟩ := h1.retag_pair hbs₁ hpre hnew hpost hun
  dsimp only at hafter h2 hset
  exact ⟨hafter, h2, hset⟩

/-- **Carving a memory carves its chart.** -/
theorem carve {pre post : List Block} (hbs : χ.blocks = pre ++ b :: post)
    (hb : b ∈ χ.lists (SizeClass.ofSize b.size)) (hlarge : 16 ≤ need) (h8 : need % 8 = 0)
    (hle : need ≤ b.size) :
    (χ.carve b need).Depicts d stop (d.carve b.payload need m) ∧
      Keeps χ.blocks m (d.carve b.payload need m) := by
  obtain ⟨hmem, hfree, -⟩ := h.listed _ b hb
  have hproper := (h.tiles.bounds hmem).2.2
  obtain ⟨h1, hframe⟩ := h.remove hb
  obtain ⟨hbs₁, hpre, hpost, hun⟩ := h.run_of_unfile hbs
  have hfree₁ : ∀ e ∈ [b], e.isAllocated = false := fun e he => by
    rw [List.mem_singleton.1 he, hfree]
  have hchart : (χ.unfile b).swap b.payload [b] (served b need :: (leftOver b need).toList)
      = ⟨pre ++ (served b need :: (leftOver b need).toList) ++ post, (χ.unfile b).lists⟩ :=
    swap_eq hbs₁ h1.tiles rfl fun e => Iff.rfl
  -- removing and tagging write nothing behind an allocated block
  have hkeep : ∀ m₂, (∀ a, ¬ (b.payload - 4 ≤ a ∧ a < b.after - 4) →
      m₂.byte a = (d.remove b.payload m).byte a) → Keeps (pre ++ [b] ++ post) m m₂ := by
    intro m₂ hset
    rw [← hbs₁]
    refine (h.keeps_of_links hframe).trans ?_
    rw [← blocks_unfile (χ := χ), hbs₁]
    exact keeps_of_retile hpre hpost hset hfree₁
  rw [Chart.carve, hchart, ← blocks_unfile (χ := χ) (b := b), hbs₁, h.carve_eq hmem hle]
  by_cases hleft : b.size - need < 16
  · have hserved : served b need = ⟨b.payload, b.size, true⟩ := by rw [served, if_pos hleft]
    have hnone : leftOver b need = none := if_pos hleft
    have hnew := tiles_served hproper hlarge h8 hle
    rw [hserved, hnone] at hnew ⊢
    obtain ⟨h2, hset⟩ := h1.retag hbs₁ hpre hnew hpost hun
    rw [if_pos hleft]
    exact ⟨h2, hkeep _ hset⟩
  · obtain ⟨r, hr⟩ : ∃ r : Block, r = ⟨b.payload + need, b.size - need, false⟩ := ⟨_, rfl⟩
    have hserved : served b need = ⟨b.payload, need, true⟩ := by rw [served, if_neg hleft]
    have hsome : leftOver b need = some r := by rw [leftOver, if_neg hleft, hr]
    obtain ⟨hafter, h2, hset⟩ := h.split hbs hb hlarge h8 hle hleft
    rw [← hr] at h2
    have hend : r.after = b.after := by
      simp only [hr, Block.after]
      omega
    have hunfiled : r ∉ (χ.unfile b).lists (SizeClass.ofSize r.size) := by
      -- it would end where the block ends, and so be the block
      intro hl
      have hin := (h.listed _ r (h.mem_unfile.1 hl).1).1
      exact (h.mem_unfile.1 hl).2 (h.tiles.eq_of_after hin hmem hend)
    obtain ⟨h3, hframe'⟩ := h2.insert (b := r) (by simp) (by rw [hr]) hunfiled
    have hkeep' := (hkeep _ hset).trans ((h2.keeps_of_links hframe').replace hfree₁)
    rw [hserved, hsome, if_neg hleft]
    simp only [hafter]
    rw [hr] at h3 hkeep' ⊢
    exact ⟨h3, hkeep'⟩

end Depicts

theorem sorted_carve (h : ∀ c, (χ.lists c).Pairwise Block.SizeLE) (c : SizeClass) :
    ((χ.carve b need).lists c).Pairwise Block.SizeLE := by
  have hun : ∀ c, ((χ.unfile b).lists c).Pairwise Block.SizeLE := fun c =>
    (h c).sublist (sublist_unfile c)
  unfold carve
  split
  · exact hun c
  · exact sorted_file hun c

/-- **Carving keeps a chart settled**: the rest is filed, and its right
neighbour was the right neighbour of a free block. -/
theorem Settled.carve {pre post : List Block} (hs : χ.Settled) (h : χ.Depicts d stop m)
    (hbs : χ.blocks = pre ++ b :: post) (hfree : b.isAllocated = false) :
    (χ.carve b need).Settled := by
  have hcarve : (χ.carve b need).blocks =
      pre ++ served b need :: ((leftOver b need).toList ++ post) := blocks_carve h.tiles hbs
  have hnd := h.tiles.nodup
  rw [hbs, List.nodup_middle] at hnd
  have hb := (List.nodup_cons.1 hnd).1
  refine ⟨?_, sorted_carve hs.sorted, ?_⟩
  · intro e he hefree
    rw [hcarve] at he
    rw [mem_carve]
    simp only [List.mem_append, List.mem_cons, Option.mem_toList] at he
    have hstay : e ∈ pre ++ post →
        e ∈ (χ.unfile b).lists (SizeClass.ofSize e.size) := fun hmem => by
      refine h.mem_unfile.2 ⟨hs.complete e ?_ hefree, fun heq => hb (heq ▸ hmem)⟩
      rw [hbs]
      simp only [List.mem_append, List.mem_cons] at hmem ⊢
      tauto
    rcases he with he | rfl | he | he
    · exact .inl (hstay (List.mem_append_left _ he))
    · cases hefree
    · exact .inr ⟨he, rfl⟩
    · exact .inl (hstay (List.mem_append_right _ he))
  · have hchain := hs.coalesced
    rw [hbs, List.isChain_append, List.isChain_cons] at hchain
    obtain ⟨hpre, ⟨hfirst, hpost⟩, -⟩ := hchain
    rw [hcarve, List.isChain_append, List.isChain_cons, List.isChain_append]
    refine ⟨hpre, ⟨fun e _ => .inl rfl, ?_, hpost, ?_⟩, ?_⟩
    · cases leftOver b need <;> simp
    · intro x _ y hy
      -- the block after the rest is allocated, as it was after the free block
      exact .inr ((hfirst y hy).right hfree)
    · intro x _ y hy
      rw [List.head?_cons] at hy
      cases hy
      exact .inr rfl

/-- **Serving a request**: the served block is the one allocated block
more. -/
theorem Depicts.serve (h : χ.Depicts d stop m) (hs : χ.Settled)
    (hb : b ∈ χ.lists (SizeClass.ofSize b.size)) (hlarge : 16 ≤ need) (h8 : need % 8 = 0)
    (hle : need ≤ b.size) :
    (χ.carve b need).Depicts d stop (d.carve b.payload need m) ∧ (χ.carve b need).Settled ∧
      Keeps χ.blocks m (d.carve b.payload need m) ∧ served b need ∉ χ.blocks ∧
      ∀ e, e.isAllocated = true →
        (e ∈ (χ.carve b need).blocks ↔ e ∈ χ.blocks ∨ e = served b need) := by
  obtain ⟨hmem, hfree, -⟩ := h.listed _ b hb
  obtain ⟨pre, post, hbs⟩ := List.append_of_mem hmem
  have hblocks : (χ.carve b need).blocks
      = pre ++ served b need :: ((leftOver b need).toList ++ post) := blocks_carve h.tiles hbs
  obtain ⟨h1, hkeep⟩ := h.carve hbs hb hlarge h8 hle
  have hnew : served b need ∉ χ.blocks := fun hin =>
    Block.ne_of_isAllocated rfl hfree (h.tiles.eq_of_payload hin hmem rfl)
  refine ⟨h1, hs.carve h hbs hfree, hkeep, hnew, ?_⟩
  intro e he
  have hne : e ≠ b := Block.ne_of_isAllocated he hfree
  have hrest : e ∉ leftOver b need := by
    intro hin
    unfold leftOver at hin
    split at hin
    · cases hin
    · cases hin
      cases he
  rw [hblocks, hbs]
  simp only [List.mem_append, List.mem_cons, Option.mem_toList]
  tauto

end Chart

end SegFit
