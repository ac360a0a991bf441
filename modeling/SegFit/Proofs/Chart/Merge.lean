import SegFit.FreeLists.Merge
import SegFit.Proofs.Chart.Edit
/-!
# Merging on a chart

`Chart.merge` is what merging a block does to a chart, in the terms of
the chart alone: the free neighbours are found in the block sequence.
`Depicts.merge` says that `FreeLists.merge` does just that to a memory.
-/

namespace SegFit

namespace Chart

variable {χ : Chart} {d : Directory} {m : Memory} {stop p q : Nat} {b l r : Block}

/-- The free block directly before one. -/
def freeBefore (χ : Chart) (b : Block) : Option Block :=
  χ.blocks.find? fun e => !e.isAllocated && e.after == b.payload

/-- The free block directly after one. -/
def freeAfter (χ : Chart) (b : Block) : Option Block :=
  χ.blocks.find? fun e => !e.isAllocated && e.payload == b.after

/-- Some free blocks as one, at the payload of the first of them. -/
def whole (start : Nat) (parts : List Block) : Block :=
  ⟨start, (parts.map Block.size).sum, false⟩

/-- The chart with some blocks taken out of their lists. -/
def unfileAll (parts : List Block) (χ : Chart) : Chart := parts.foldl (fun χ b => χ.unfile b) χ

/-- One free block in the place of several, and the chart with it
filed. -/
def fuse (start : Nat) (parts : List Block) (χ : Chart) : Block × Chart :=
  let e := whole start parts
  (e, ((χ.unfileAll parts).swap start parts [e]).file e)

/-- The free neighbours of a block. -/
def absorbed (χ : Chart) (b : Block) : List Block :=
  (χ.freeBefore b).toList ++ (χ.freeAfter b).toList

theorem isAllocated_of_mem_absorbed {e : Block} (he : e ∈ χ.absorbed b) :
    e.isAllocated = false := by
  rcases List.mem_append.1 he with h | h
  · have := List.find?_some (Option.mem_toList.1 h)
    simp_all
  · have := List.find?_some (Option.mem_toList.1 h)
    simp_all

/-- The block that covers a free block and its free neighbours, and the
chart with it in their place. -/
def merge (b : Block) (χ : Chart) : Block × Chart :=
  if χ.absorbed b = [] then (b, χ)
  else χ.fuse ((χ.freeBefore b).getD b).payload (b :: χ.absorbed b)

/-- **What merging makes of a chart**: one free block in the place of the
block and its free neighbours, listed where they were listed before.
`pre` and `post` are the blocks that stay. -/
structure Merged (χ : Chart) (b : Block) (pre post : List Block) : Prop where
  blocks : (χ.merge b).2.blocks = pre ++ (χ.merge b).1 :: post
  covers : (χ.merge b).1 = whole ((χ.freeBefore b).getD b).payload (b :: χ.absorbed b)
  mem_lists : ∀ c e, e ∈ (χ.merge b).2.lists c ↔
    e ∈ χ.lists c ∧ e ∉ b :: χ.absorbed b ∨
      e = (χ.merge b).1 ∧ SizeClass.ofSize (χ.merge b).1.size = c

/-- Together some blocks that tile a range are one that does. -/
theorem tiles_whole {mid parts : List Block} (h : Tiles p q mid) (hne : mid ≠ [])
    (hperm : parts.Perm mid) : Tiles p q [whole p parts] := by
  have hsum : (parts.map Block.size).sum = (mid.map Block.size).sum := (hperm.map _).sum_nat
  have htotal := h.sum_eq
  refine tiles_singleton.2 ⟨rfl, ⟨?_, ?_⟩, ?_⟩
  · obtain ⟨a, rest, rfl⟩ := List.exists_cons_of_ne_nil hne
    have := h.2.1.large
    simp only [whole, hsum, List.map_cons, List.sum_cons]
    omega
  · simp only [whole, hsum]
    exact h.sum_aligned
  · simp only [Block.after, whole, hsum, htotal]

namespace Depicts

variable (h : χ.Depicts d stop m)

include h

/-- **Taking several blocks out of their lists**, one after another. -/
theorem removeAll {parts : List Block} (hnd : parts.Nodup)
    (hfiled : ∀ e ∈ parts, e ∈ χ.lists (SizeClass.ofSize e.size)) :
    (χ.unfileAll parts).Depicts d stop
      ((parts.map Block.payload).foldl (fun m p => d.remove p m) m) ∧
      (∀ a, ¬ χ.LinkByte d a →
        ((parts.map Block.payload).foldl (fun m p => d.remove p m) m).byte a = m.byte a) ∧
      (χ.unfileAll parts).blocks = χ.blocks ∧
      ∀ c e, e ∈ (χ.unfileAll parts).lists c ↔ e ∈ χ.lists c ∧ e ∉ parts := by
  induction parts generalizing χ m with
  | nil => exact ⟨h, fun _ _ => rfl, rfl, fun c e => by simp [unfileAll]⟩
  | cons b parts ih =>
    obtain ⟨hb, hnd⟩ := List.nodup_cons.1 hnd
    obtain ⟨h', hframe⟩ := h.remove (hfiled b List.mem_cons_self)
    have hrest : ∀ e ∈ parts, e ∈ (χ.unfile b).lists (SizeClass.ofSize e.size) := fun e he =>
      h.mem_unfile.2 ⟨hfiled e (List.mem_cons_of_mem _ he), fun heq => hb (heq ▸ he)⟩
    obtain ⟨h1, h2, h3, h4⟩ := ih h' hnd hrest
    refine ⟨h1, fun a ha => (h2 a ha).trans (hframe a ha), h3, ?_⟩
    intro c e
    rw [List.mem_cons, not_or, ← and_assoc, ← h.mem_unfile]
    exact h4 c e

/-- The sum is taken of the sizes the tags say. -/
theorem sum_blockSize {parts : List Block} (hin : ∀ e ∈ parts, e ∈ χ.blocks) :
    (parts.map Block.payload).foldr (fun p n => m.blockSize p + n) 0
      = (parts.map Block.size).sum := by
  rw [← List.foldr_map, ← List.sum_eq_foldr, List.map_map]
  congr 1
  exact List.map_congr_left fun e he => h.blockSize_eq (hin e he)

/-- No block is a part twice. -/
theorem nodup_parts {pre mid post parts : List Block} (hbs : χ.blocks = pre ++ mid ++ post)
    (hperm : parts.Perm mid) : parts.Nodup := by
  have hnd := h.tiles.nodup
  rw [hbs] at hnd
  exact hperm.nodup_iff.2 hnd.of_append_left.of_append_right

/-- **The parts leave their lists**, and the tags of the whole are written
around them all. -/
theorem retag_whole {pre mid post parts : List Block} (hbs : χ.blocks = pre ++ mid ++ post)
    (hpre : Tiles d.firstBlock p pre) (hmid : Tiles p q mid) (hpost : Tiles q stop post)
    (hne : mid ≠ []) (hperm : parts.Perm mid)
    (hfiled : ∀ e ∈ mid, e ∈ χ.lists (SizeClass.ofSize e.size)) :
    let m₁ := (parts.map Block.payload).foldl (fun m p => d.remove p m) m
    let m₂ := m₁.setTags p (whole p parts).size false
    (parts.map Block.payload).foldr (fun p n => m₁.blockSize p + n) 0 = (whole p parts).size ∧
      Depicts ⟨pre ++ [whole p parts] ++ post, (χ.unfileAll parts).lists⟩ d stop m₂ ∧
      Keeps χ.blocks m m₂ ∧ (χ.unfileAll parts).blocks = χ.blocks ∧
      ∀ c e, e ∈ (χ.unfileAll parts).lists c ↔ e ∈ χ.lists c ∧ e ∉ mid := by
  intro m₁ m₂
  have hnd := h.nodup_parts hbs hperm
  have hin : ∀ e ∈ parts, e ∈ χ.blocks := fun e he => by
    rw [hbs]
    exact List.mem_append_left _ (List.mem_append_right _ (hperm.mem_iff.1 he))
  have hfree : ∀ e ∈ mid, e.isAllocated = false := fun e he => (h.listed _ e (hfiled e he)).2.1
  obtain ⟨h1, hframe, hblocks, hmem⟩ := h.removeAll hnd fun e he => hfiled e (hperm.mem_iff.1 he)
  have hmem' : ∀ c e, e ∈ (χ.unfileAll parts).lists c ↔ e ∈ χ.lists c ∧ e ∉ mid :=
    fun c e => by rw [hmem, hperm.mem_iff]
  obtain ⟨h2, hset⟩ := h1.retag (hblocks.trans hbs) hpre (tiles_whole hmid hne hperm) hpost
    fun c e he hl => ((hmem' c e).1 hl).2 he
  have hkeep := h.keeps_of_links hframe
  rw [hbs] at hkeep
  refine ⟨h1.sum_blockSize fun e he => hblocks ▸ hin e he, h2, ?_, hblocks, hmem'⟩
  rw [hbs]
  exact hkeep.trans (keeps_of_retile hpre hpost hset hfree)

/-- **Fusing filed blocks** that cover a range. -/
theorem fuse {pre mid post parts : List Block} (hbs : χ.blocks = pre ++ mid ++ post)
    (hpre : Tiles d.firstBlock p pre) (hmid : Tiles p q mid) (hpost : Tiles q stop post)
    (hne : mid ≠ []) (hperm : parts.Perm mid)
    (hfiled : ∀ e ∈ mid, e ∈ χ.lists (SizeClass.ofSize e.size)) :
    (χ.fuse p parts).2.Depicts d stop (d.fuse p (parts.map Block.payload) m) ∧
      Keeps χ.blocks m (d.fuse p (parts.map Block.payload) m) ∧
      (χ.fuse p parts).2.blocks = pre ++ [whole p parts] ++ post ∧
      ∀ c e, e ∈ (χ.fuse p parts).2.lists c ↔
        e ∈ χ.lists c ∧ e ∉ mid ∨
          e = whole p parts ∧ SizeClass.ofSize (whole p parts).size = c := by
  have hin : ∀ e ∈ mid, e ∈ χ.blocks := fun e he => by rw [hbs]; simp [he]
  have hfree : ∀ e ∈ mid, e.isAllocated = false := fun e he => (h.listed _ e (hfiled e he)).2.1
  obtain ⟨hsum, h2, hkeep, hblocks, hmem⟩ := h.retag_whole hbs hpre hmid hpost hne hperm hfiled
  obtain ⟨a, rest, rfl⟩ := List.exists_cons_of_ne_nil hne
  have hstart : a.payload = p := hmid.1
  have hunfiled : ∀ c, whole p parts ∉ (χ.unfileAll parts).lists c := by
    -- a listed block at its payload would be the first of the run
    intro c hl
    obtain ⟨hl, hnot⟩ := (hmem c _).1 hl
    refine hnot ?_
    rw [h.tiles.eq_of_payload (h.listed c _ hl).1 (hin a List.mem_cons_self) hstart.symm]
    exact List.mem_cons_self
  have hswap : (χ.unfileAll parts).swap p parts [whole p parts]
      = ⟨pre ++ [whole p parts] ++ post, (χ.unfileAll parts).lists⟩ :=
    swap_eq (hblocks.trans hbs) (hblocks ▸ h.tiles) (congrArg some hstart) fun e => hperm.mem_iff
  rw [← hswap] at h2
  -- the whole is filed
  obtain ⟨h3, hframe'⟩ := h2.insert (b := whole p parts) (by rw [hswap]; simp) rfl (hunfiled _)
  rw [FreeLists.fuse, hsum]
  refine ⟨h3, ?_, congrArg Chart.blocks hswap, fun c e => by rw [← hmem]; exact mem_file⟩
  have hkeep' := h2.keeps_of_links hframe'
  rw [hswap] at hkeep'
  rw [hbs] at hkeep ⊢
  exact hkeep.trans (hkeep'.replace hfree)

/-! ## Neighbours -/

omit h in
/-- Of all blocks one passes the test, and it counts if it is free. -/
theorem find?_free_of_unique {bs : List Block} {f : Block → Bool} (hb : b ∈ bs) (hf : f b = true)
    (huniq : ∀ e ∈ bs, f e = true → e = b) :
    bs.find? (fun e => !e.isAllocated && f e) = if b.isAllocated then none else some b := by
  cases hfree : b.isAllocated with
  | false =>
    have hsome : (bs.find? fun e => !e.isAllocated && f e).isSome :=
      List.find?_isSome.2 ⟨b, hb, by rw [hfree, hf]; rfl⟩
    obtain ⟨e, he⟩ := Option.isSome_iff_exists.1 hsome
    have hpass : (!e.isAllocated && f e) = true :=
      List.find?_some (p := fun e => !e.isAllocated && f e) he
    rw [he, huniq e (List.mem_of_find?_eq_some he) (Bool.and_eq_true_iff.1 hpass).2]
    rfl
  | true =>
    rw [if_pos rfl, List.find?_eq_none]
    intro e he hpass
    obtain ⟨hefree, hef⟩ := Bool.and_eq_true_iff.1 hpass
    rw [huniq e he hef, hfree] at hefree
    cases hefree

theorem freeBefore_of_mem (hl : l ∈ χ.blocks) (hend : l.after = b.payload) :
    χ.freeBefore b = if l.isAllocated then none else some l :=
  find?_free_of_unique hl (beq_iff_eq.2 hend) fun _ he hf =>
    h.tiles.eq_of_after he hl ((beq_iff_eq.1 hf).trans hend.symm)

theorem freeAfter_of_mem (hr : r ∈ χ.blocks) (hstart : r.payload = b.after) :
    χ.freeAfter b = if r.isAllocated then none else some r :=
  find?_free_of_unique hr (beq_iff_eq.2 hstart) fun _ he hf =>
    h.tiles.eq_of_payload he hr ((beq_iff_eq.1 hf).trans hstart.symm)

/-- The first block has the prologue before it. -/
theorem before_first {post : List Block} (hbs : χ.blocks = b :: post) :
    χ.freeBefore b = none ∧ m.isAllocated (m.before b.payload) = true := by
  have ht := h.tiles
  rw [hbs] at ht
  have hfirst : b.payload = d.heads + 56 := ht.1.trans d.firstBlock_eq
  -- the footer in front of it is the prologue's, of a block that ends there
  have hsize : m.footerBefore b.payload = Tag.prologue := by
    unfold Memory.footerBefore
    rw [Tag.mk.injEq, ← h.prologueFooter, d.origin_eq, Layout.origin]
    congr 1
    simp only [Layout.tags]
    omega
  have hbefore : m.before b.payload = d.heads + 48 := by
    unfold Memory.before
    rw [hsize, Tag.size_prologue]
    omega
  have hheader : m.header (d.heads + 48) = Tag.prologue := by
    unfold Memory.header
    rw [Tag.mk.injEq, ← h.prologueHeader]
    congr 1
  refine ⟨?_, by rw [hbefore, Memory.isAllocated, hheader]; rfl⟩
  unfold freeBefore
  rw [List.find?_eq_none]
  intro e he
  have := h.bounds he
  simp only [Block.after, Bool.and_eq_true, beq_iff_eq] at this ⊢
  omega

/-- The last block has the epilogue after it. -/
theorem after_last {pre : List Block} (hbs : χ.blocks = pre ++ [b]) :
    χ.freeAfter b = none ∧ m.isAllocated (m.after b.payload) = true := by
  have hin : b ∈ χ.blocks := by rw [hbs]; simp
  have hb := (h.tiles.bounds hin).2.2
  have hlast : b.after = stop := (hbs ▸ h.tiles).after_eq
  have hheader : m.header stop = Tag.epilogue := congrArg Tag.mk h.epilogue
  have hafter : m.after b.payload = stop :=
    ((h.hasBlock b hin).after_eq hb (h.size_lt hin)).trans hlast
  refine ⟨?_, by rw [hafter, Memory.isAllocated, hheader]; rfl⟩
  unfold freeAfter
  rw [List.find?_eq_none]
  intro e he
  have := h.bounds he
  simp only [Block.after, Bool.and_eq_true, beq_iff_eq] at this hlast ⊢
  omega

/-- **What is before a block**: an allocated block or the prologue, or
else a free block, which the chart finds too. -/
theorem before_cases {pre post : List Block} (hbs : χ.blocks = pre ++ b :: post) :
    (χ.freeBefore b = none ∧ m.isAllocated (m.before b.payload) = true ∧
      ∀ e ∈ pre.getLast?, e.isAllocated = true) ∨
    ∃ pre' l, pre = pre' ++ [l] ∧ l.isAllocated = false ∧ χ.freeBefore b = some l ∧
      m.before b.payload = l.payload ∧ m.isAllocated l.payload = false := by
  rcases pre.eq_nil_or_concat with rfl | ⟨pre', l, rfl⟩
  · obtain ⟨hnone, halloc⟩ := h.before_first hbs
    exact .inl ⟨hnone, halloc, fun e he => by cases he⟩
  · rw [List.concat_eq_append] at hbs ⊢
    have ht := h.tiles
    rw [hbs, tiles_append] at ht
    obtain ⟨q, hpre, rfl, -⟩ := ht
    have hend : l.after = b.payload := hpre.after_eq
    have hlin : l ∈ χ.blocks := by rw [hbs]; simp
    have hl := (h.tiles.bounds hlin).2.2
    have hbefore : m.before b.payload = l.payload := by
      rw [← hend]
      exact (h.hasBlock l hlin).before_eq hl (h.size_lt hlin)
    have halloc := h.isAllocated_eq hlin
    rw [h.freeBefore_of_mem hlin hend, hbefore, halloc]
    cases hfree : l.isAllocated with
    | false => exact .inr ⟨pre', l, rfl, hfree, rfl, rfl, halloc.trans hfree⟩
    | true =>
      refine .inl ⟨rfl, rfl, ?_⟩
      intro e he
      rw [List.getLast?_concat] at he
      cases he
      exact hfree

/-- **What is after a block**: an allocated block or the epilogue, or
else a free block, which the chart finds too. -/
theorem after_cases {pre post : List Block} (hbs : χ.blocks = pre ++ b :: post) :
    (χ.freeAfter b = none ∧ m.isAllocated (m.after b.payload) = true ∧
      ∀ e ∈ post.head?, e.isAllocated = true) ∨
    ∃ r post', post = r :: post' ∧ r.isAllocated = false ∧ χ.freeAfter b = some r ∧
      m.after b.payload = r.payload ∧ m.isAllocated r.payload = false := by
  cases post with
  | nil =>
    obtain ⟨hnone, halloc⟩ := h.after_last hbs
    exact .inl ⟨hnone, halloc, fun e he => by cases he⟩
  | cons r post' =>
    have ht := h.tiles
    rw [hbs, tiles_append] at ht
    obtain ⟨q, -, rfl, hb, hr, -, -⟩ := ht
    have hin : b ∈ χ.blocks := by rw [hbs]; simp
    have hrin : r ∈ χ.blocks := by rw [hbs]; simp
    have hafter : m.after b.payload = r.payload :=
      ((h.hasBlock b hin).after_eq hb (h.size_lt hin)).trans hr.symm
    have halloc := h.isAllocated_eq hrin
    rw [h.freeAfter_of_mem hrin hr, hafter, halloc]
    cases hfree : r.isAllocated with
    | false => exact .inr ⟨r, post', rfl, hfree, rfl, rfl, halloc.trans hfree⟩
    | true => exact .inl ⟨rfl, rfl, fun e he => by cases he; exact hfree⟩

/-- **Where the free neighbours are**: at the inner ends of what lies
before a block and what lies after it. -/
theorem neighbours {pre post : List Block} (hbs : χ.blocks = pre ++ b :: post) :
    ∃ pre' post', pre = pre' ++ (χ.freeBefore b).toList ∧
      post = (χ.freeAfter b).toList ++ post' ∧
      (pre.IsChain Block.Parted → ∀ e ∈ pre'.getLast?, e.isAllocated = true) ∧
      (post.IsChain Block.Parted → ∀ e ∈ post'.head?, e.isAllocated = true) := by
  have hbefore : ∃ pre', pre = pre' ++ (χ.freeBefore b).toList ∧
      (pre.IsChain Block.Parted → ∀ e ∈ pre'.getLast?, e.isAllocated = true) := by
    rcases h.before_cases hbs with ⟨hnone, -, hlast⟩ | ⟨pre', l, rfl, hfree, hsome, -, -⟩
    · exact ⟨pre, by simp [hnone], fun _ => hlast⟩
    · refine ⟨pre', by simp [hsome], ?_⟩
      intro hchain e he
      exact ((List.isChain_append.1 hchain).2.2 e he l rfl).left hfree
  have hafter : ∃ post', post = (χ.freeAfter b).toList ++ post' ∧
      (post.IsChain Block.Parted → ∀ e ∈ post'.head?, e.isAllocated = true) := by
    rcases h.after_cases hbs with ⟨hnone, -, hfirst⟩ | ⟨r, post', rfl, hfree, hsome, -, -⟩
    · exact ⟨post, by simp [hnone], fun _ => hfirst⟩
    · refine ⟨post', by simp [hsome], ?_⟩
      intro hchain e he
      exact ((List.isChain_cons.1 hchain).1 e he).right hfree
  obtain ⟨pre', hpre, hlast⟩ := hbefore
  obtain ⟨post', hpost, hfirst⟩ := hafter
  exact ⟨pre', post', hpre, hpost, hlast, hfirst⟩

/-- The memory asks the same of its tags as the chart of its blocks. -/
theorem merge_eq {pre post : List Block} (hbs : χ.blocks = pre ++ b :: post) :
    d.merge b.payload m =
      if χ.absorbed b = [] then (b.payload, m)
      else
        (((χ.freeBefore b).getD b).payload,
          d.fuse ((χ.freeBefore b).getD b).payload ((b :: χ.absorbed b).map Block.payload) m) := by
  unfold FreeLists.merge
  unfold absorbed
  rcases h.before_cases hbs with ⟨hn₁, ha₁, -⟩ | ⟨pre', l, -, -, hs₁, he₁, hf₁⟩ <;>
    rcases h.after_cases hbs with ⟨hn₂, ha₂, -⟩ | ⟨r, post', -, -, hs₂, he₂, hf₂⟩
  · simp [hn₁, hn₂, ha₁, ha₂]
  · simp [hn₁, hs₂, ha₁, he₂, hf₂]
  · simp [hs₁, hn₂, he₁, hf₁, ha₂]
  · simp [hs₁, hs₂, he₁, hf₁, he₂, hf₂]

/-- A block without free neighbours is already the whole. -/
theorem merged_of_alone {pre post : List Block}
    (hbs : χ.blocks =
      (pre ++ (χ.freeBefore b).toList) ++ b :: ((χ.freeAfter b).toList ++ post))
    (hfree : b.isAllocated = false) (hb : b ∈ χ.lists (SizeClass.ofSize b.size))
    (hnone : χ.absorbed b = []) : χ.Merged b pre post := by
  have hmerge : χ.merge b = (b, χ) := if_pos hnone
  obtain ⟨hbefore, hafter⟩ := List.append_eq_nil_iff.1 hnone
  have hfirst : χ.freeBefore b = none := by simpa using hbefore
  refine ⟨?_, ?_, ?_⟩
  · rw [hmerge]
    simpa [hbefore, hafter] using hbs
  · rw [hmerge, hnone, hfirst]
    cases b
    simp_all [whole]
  · intro c e
    rw [hmerge, hnone, List.mem_singleton]
    constructor
    · intro he
      by_cases heq : e = b
      · exact .inr ⟨heq, by rw [← heq]; exact (h.listed c e he).2.2⟩
      · exact .inl ⟨he, heq⟩
    · rintro (⟨he, -⟩ | ⟨rfl, rfl⟩)
      · exact he
      · exact hb

/-- **A block and its free neighbours** are a run of filed blocks, which begins
with the one before if that is free. -/
theorem run_of_absorbed {pre post : List Block}
    (hbs : χ.blocks =
      (pre ++ (χ.freeBefore b).toList) ++ b :: ((χ.freeAfter b).toList ++ post))
    (hfree : b.isAllocated = false)
    (hfiled : ∀ e ∈ χ.blocks, e.isAllocated = false → e ∈ χ.lists (SizeClass.ofSize e.size)) :
    ∃ mid q, χ.blocks = pre ++ mid ++ post ∧
      Tiles d.firstBlock ((χ.freeBefore b).getD b).payload pre ∧
      Tiles ((χ.freeBefore b).getD b).payload q mid ∧ Tiles q stop post ∧ mid ≠ [] ∧
      (b :: χ.absorbed b).Perm mid ∧ ∀ e ∈ mid, e ∈ χ.lists (SizeClass.ofSize e.size) := by
  have hmid : χ.blocks =
      pre ++ ((χ.freeBefore b).toList ++ b :: (χ.freeAfter b).toList) ++ post := by
    rw [hbs]
    simp
  have htiles := h.tiles
  rw [hmid, tiles_append] at htiles
  obtain ⟨q, htiles, hpost⟩ := htiles
  obtain ⟨p, hpre, hcover⟩ := tiles_append.1 htiles
  have hstart : ((χ.freeBefore b).getD b).payload = p := by
    cases hl : χ.freeBefore b with
    | none => rw [hl] at hcover; exact hcover.1
    | some l => rw [hl] at hcover; exact hcover.1
  have hperm : (b :: χ.absorbed b).Perm ((χ.freeBefore b).toList ++ b :: (χ.freeAfter b).toList) :=
    List.perm_middle.symm
  refine ⟨_, q, hmid, hstart ▸ hpre, hstart ▸ hcover, hpost, by simp, hperm, fun e he => ?_⟩
  have hin : e ∈ χ.blocks := by
    rw [hmid]
    exact List.mem_append_left _ (List.mem_append_right _ he)
  refine hfiled e hin ?_
  rcases List.mem_cons.1 (hperm.mem_iff.2 he) with rfl | habs
  · exact hfree
  · exact isAllocated_of_mem_absorbed habs

/-- Any other is fused with them. -/
theorem merge_of_absorbed {pre post : List Block}
    (hbs : χ.blocks =
      (pre ++ (χ.freeBefore b).toList) ++ b :: ((χ.freeAfter b).toList ++ post))
    (hfree : b.isAllocated = false)
    (hfiled : ∀ e ∈ χ.blocks, e.isAllocated = false → e ∈ χ.lists (SizeClass.ofSize e.size))
    (hsome : χ.absorbed b ≠ []) :
    χ.Merged b pre post ∧
      (χ.merge b).2.Depicts d stop (d.fuse ((χ.freeBefore b).getD b).payload
        ((b :: χ.absorbed b).map Block.payload) m) ∧
      Keeps χ.blocks m (d.fuse ((χ.freeBefore b).getD b).payload
        ((b :: χ.absorbed b).map Block.payload) m) := by
  obtain ⟨mid, q, hmid, hpre, hcover, hpost, hne, hperm, hlisted⟩ :=
    h.run_of_absorbed hbs hfree hfiled
  obtain ⟨h1, h2, h3, h4⟩ := h.fuse hmid hpre hcover hpost hne hperm hlisted
  have hmerge : χ.merge b = χ.fuse ((χ.freeBefore b).getD b).payload (b :: χ.absorbed b) :=
    if_neg hsome
  refine ⟨⟨?_, ?_, ?_⟩, by rw [hmerge]; exact h1, h2⟩
  · rw [hmerge, h3, List.append_assoc]
    rfl
  · rw [hmerge]
    rfl
  · intro c e
    rw [hmerge, h4, ← hperm.mem_iff]
    rfl

/-- **Merging a memory merges its chart.** -/
theorem merge {pre post : List Block}
    (hbs : χ.blocks =
      (pre ++ (χ.freeBefore b).toList) ++ b :: ((χ.freeAfter b).toList ++ post))
    (hfree : b.isAllocated = false)
    (hfiled : ∀ e ∈ χ.blocks, e.isAllocated = false → e ∈ χ.lists (SizeClass.ofSize e.size)) :
    χ.Merged b pre post ∧
      (d.merge b.payload m).1 = (χ.merge b).1.payload ∧
      (χ.merge b).2.Depicts d stop (d.merge b.payload m).2 ∧
      Keeps χ.blocks m (d.merge b.payload m).2 := by
  rw [h.merge_eq hbs]
  by_cases hnone : χ.absorbed b = []
  · have hb : b ∈ χ.lists (SizeClass.ofSize b.size) := hfiled b (by rw [hbs]; simp) hfree
    have hmerge : χ.merge b = (b, χ) := if_pos hnone
    rw [if_pos hnone, hmerge]
    exact ⟨h.merged_of_alone hbs hfree hb hnone, rfl, h, Keeps.refl _ _⟩
  · obtain ⟨hm, h1, h2⟩ := h.merge_of_absorbed hbs hfree hfiled hnone
    rw [if_neg hnone]
    dsimp only
    refine ⟨hm, ?_, h1, h2⟩
    rw [hm.covers, whole]

end Depicts

/-! ## After a merge -/

theorem sorted_unfileAll {parts : List Block} (h : ∀ c, (χ.lists c).Pairwise Block.SizeLE)
    (c : SizeClass) : ((χ.unfileAll parts).lists c).Pairwise Block.SizeLE := by
  induction parts generalizing χ with
  | nil => exact h c
  | cons e parts ih => exact ih fun c => (h c).sublist (sublist_unfile c)

theorem sorted_merge (h : ∀ c, (χ.lists c).Pairwise Block.SizeLE) (c : SizeClass) :
    ((χ.merge b).2.lists c).Pairwise Block.SizeLE := by
  unfold merge
  split
  · exact h c
  · exact sorted_file (sorted_unfileAll h) c

/-- **Merging settles a chart** in which only the merged block could
touch a free one. -/
theorem Merged.settled {pre post : List Block} (hm : χ.Merged b pre post)
    (h : χ.Depicts d stop m)
    (hbs : χ.blocks =
      (pre ++ (χ.freeBefore b).toList) ++ b :: ((χ.freeAfter b).toList ++ post))
    (hfiled : ∀ e ∈ χ.blocks, e.isAllocated = false → e ∈ χ.lists (SizeClass.ofSize e.size))
    (hsorted : ∀ c, (χ.lists c).Pairwise Block.SizeLE)
    (hpre : (pre ++ (χ.freeBefore b).toList).IsChain Block.Parted)
    (hpost : ((χ.freeAfter b).toList ++ post).IsChain Block.Parted) : (χ.merge b).2.Settled := by
  -- every block is merged or stays, and none does both
  have hperm : χ.blocks.Perm ((b :: χ.absorbed b) ++ (pre ++ post)) := by
    rw [hbs, absorbed, List.perm_iff_count]
    intro e
    simp only [List.count_append, List.count_cons]
    omega
  have hstay : ∀ e ∈ pre ++ post, e ∈ χ.blocks ∧ e ∉ b :: χ.absorbed b := by
    intro e he
    have hnd := hperm.nodup_iff.1 h.tiles.nodup
    exact ⟨hperm.mem_iff.2 (List.mem_append_right _ he),
      fun hin => List.disjoint_of_nodup_append hnd hin he⟩
  obtain ⟨pre', post', heq₁, heq₂, hlast, hfirst⟩ := h.neighbours hbs
  rw [← List.append_cancel_right heq₁] at hlast
  rw [← List.append_cancel_left heq₂] at hfirst
  refine ⟨?_, sorted_merge hsorted, ?_⟩
  · intro e he hfree
    rw [hm.blocks] at he
    rw [hm.mem_lists]
    by_cases hmerged : e = (χ.merge b).1
    · exact .inr ⟨hmerged, by rw [hmerged]⟩
    · have he' : e ∈ pre ++ post := by
        simp only [List.mem_append, List.mem_cons] at he ⊢
        tauto
      exact .inl ⟨hfiled e (hstay e he').1 hfree, (hstay e he').2⟩
  · rw [hm.blocks, List.isChain_append, List.isChain_cons]
    refine ⟨(List.isChain_append.1 hpre).1,
      ⟨fun e he => .inr (hfirst hpost e he), (List.isChain_append.1 hpost).2.1⟩, ?_⟩
    exact fun e he _ _ => .inl (hlast hpre e he)

/-- Merging loses no allocated block, and makes none. -/
theorem Merged.mem_blocks_iff {pre post : List Block} {e : Block} (hm : χ.Merged b pre post)
    (hbs : χ.blocks =
      (pre ++ (χ.freeBefore b).toList) ++ b :: ((χ.freeAfter b).toList ++ post))
    (hfree : b.isAllocated = false) (he : e.isAllocated = true) :
    e ∈ (χ.merge b).2.blocks ↔ e ∈ χ.blocks := by
  have hmerged : e ≠ (χ.merge b).1 := Block.ne_of_isAllocated he (by rw [hm.covers]; rfl)
  have habsorbed : e ∉ χ.absorbed b := fun hin =>
    Block.ne_of_isAllocated he (isAllocated_of_mem_absorbed hin) rfl
  unfold absorbed at habsorbed
  rw [List.mem_append, not_or] at habsorbed
  have hne : e ≠ b := Block.ne_of_isAllocated he hfree
  rw [hm.blocks, hbs]
  simp only [List.mem_append, List.mem_cons]
  tauto

/-- **A free block that has been filed is settled** by merging it, with
everything around it settled already. -/
theorem Depicts.settle {pre post : List Block} (h : χ.Depicts d stop m)
    (hbs : χ.blocks = pre ++ b :: post) (hfree : b.isAllocated = false)
    (hfiled : ∀ e ∈ χ.blocks, e.isAllocated = false → e ∈ χ.lists (SizeClass.ofSize e.size))
    (hsorted : ∀ c, (χ.lists c).Pairwise Block.SizeLE)
    (hpre : pre.IsChain Block.Parted) (hpost : post.IsChain Block.Parted) :
    (d.merge b.payload m).1 = (χ.merge b).1.payload ∧
      (χ.merge b).2.Depicts d stop (d.merge b.payload m).2 ∧ (χ.merge b).2.Settled ∧
      Keeps χ.blocks m (d.merge b.payload m).2 ∧
      (∀ e, e.isAllocated = true → (e ∈ (χ.merge b).2.blocks ↔ e ∈ χ.blocks)) ∧
      ∃ pre' post', pre = pre' ++ (χ.freeBefore b).toList ∧
        post = (χ.freeAfter b).toList ++ post' ∧ χ.Merged b pre' post' := by
  obtain ⟨pre', post', rfl, rfl, -, -⟩ := h.neighbours hbs
  obtain ⟨hm, h1, h2, h3⟩ := h.merge hbs hfree hfiled
  exact ⟨h1, h2, hm.settled h hbs hfiled hsorted hpre hpost, h3,
    fun e he => hm.mem_blocks_iff hbs hfree he, pre', post', rfl, rfl, hm⟩

end Chart

end SegFit
