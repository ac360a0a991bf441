import SegFit.Proofs.Chart.Basic
/-!
# Editing a charted memory

An operation changes a memory in steps of two kinds. One writes links
only, and changes the lists (`Depicts.relist`, hence `Depicts.insert`
and `Depicts.remove`). The other writes only between the tags of a run
of unlisted blocks, and replaces the run by another of the same extent
(`Depicts.retile`); a user's write to a payload is the case in which
nothing is replaced. `Keeps` is the frame of both: the payloads of
allocated blocks.
-/

namespace SegFit

namespace Chart

variable {χ : Chart} {d : Directory} {m m' m'' : Memory} {stop p q : Nat} {b : Block}

/-- The bytes that hold links: the heads, and the first two payload words
of a free block. -/
def LinkByte (χ : Chart) (d : Directory) (a : Nat) : Prop :=
  d.heads ≤ a ∧ a < d.heads + 40 ∨
    ∃ b ∈ χ.blocks, b.isAllocated = false ∧ b.payload ≤ a ∧ a < b.payload + 8

/-- **The allocated blocks of a sequence keep their payloads.** -/
def Keeps (bs : List Block) (m m' : Memory) : Prop :=
  ∀ b ∈ bs, b.isAllocated = true → ∀ i, i + 8 < b.size →
    m'.byte (b.payload + i) = m.byte (b.payload + i)

theorem Keeps.refl (bs : List Block) (m : Memory) : Keeps bs m m := fun _ _ _ _ _ => rfl

theorem Keeps.trans {bs : List Block} (h : Keeps bs m m') (h' : Keeps bs m' m'') :
    Keeps bs m m'' :=
  fun b hb ha i hi => (h' b hb ha i hi).trans (h b hb ha i hi)

/-- Only the allocated blocks of a sequence count. -/
theorem Keeps.mono {bs bs' : List Block} (h : Keeps bs m m')
    (hsub : ∀ b ∈ bs', b.isAllocated = true → b ∈ bs) : Keeps bs' m m' :=
  fun b hb ha => h b (hsub b hb ha) ha

/-- What replaced free blocks has no payload to keep for them. -/
theorem Keeps.replace {pre mid new post : List Block} (h : Keeps (pre ++ new ++ post) m m')
    (hfree : ∀ b ∈ mid, b.isAllocated = false) : Keeps (pre ++ mid ++ post) m m' := by
  refine h.mono ?_
  intro b hb halloc
  simp only [List.mem_append] at hb ⊢
  rcases hb with (hb | hb) | hb
  · exact .inl (.inl hb)
  · rw [hfree b hb] at halloc
    cases halloc
  · exact .inr hb

namespace Depicts

variable (h : χ.Depicts d stop m)

include h

theorem linkByte_of_isLink {a : Nat} (ha : d.IsLink (fun c => (χ.lists c).map Block.payload) a) :
    χ.LinkByte d a := by
  rcases ha with ha | ⟨c, q, hq, ha⟩
  · exact .inl ha
  · obtain ⟨b, hb, rfl⟩ := List.mem_map.1 hq
    obtain ⟨hmem, hfree, -⟩ := h.listed c b hb
    exact .inr ⟨b, hmem, hfree, ha⟩

/-- Links are apart from every tag. -/
theorem not_linkByte_of_tag (hb : b ∈ χ.blocks) {a : Nat}
    (ha : b.payload - 4 ≤ a ∧ a < b.payload ∨ b.after - 8 ≤ a ∧ a < b.after - 4) :
    ¬ χ.LinkByte d a := by
  have hbounds := h.bounds hb
  rintro (hl | ⟨e, he, -, hl⟩)
  · simp only [Block.after] at ha hbounds
    omega
  · have := h.bounds he
    by_cases heq : b = e
    · subst heq
      simp only [Block.after] at ha hbounds
      omega
    · have := h.tiles.apart hb he heq
      simp only [Block.after] at *
      omega

/-- Links are apart from the payloads of allocated blocks. -/
theorem not_linkByte_of_payload (hb : b ∈ χ.blocks) (halloc : b.isAllocated = true) {i : Nat}
    (hi : i + 8 < b.size) : ¬ χ.LinkByte d (b.payload + i) := by
  have hbounds := h.bounds hb
  rintro (hl | ⟨e, he, hfree, hl⟩)
  · omega
  · have := h.bounds he
    have := h.tiles.apart hb he (Block.ne_of_isAllocated halloc hfree)
    simp only [Block.after] at *
    omega

/-- A block is where it was if its two tags are. -/
theorem hasBlock_of_bytes (hb : b ∈ χ.blocks)
    (hframe : ∀ a, b.payload - 4 ≤ a ∧ a < b.payload ∨ b.after - 8 ≤ a ∧ a < b.after - 4 →
      m'.byte a = m.byte a) : m'.HasBlock b := by
  have hbounds := h.bounds hb
  have hend : b.after = b.payload + b.size := rfl
  refine (h.hasBlock b hb).congr (h.tiles.bounds hb).2.2 (h.size_lt hb) ?_ ?_
  · exact Memory.word_congr fun a _ _ => hframe a (.inl (by omega))
  · exact Memory.word_congr fun a _ _ => hframe a (.inr (by omega))

/-- And so is the prologue. -/
theorem prologue_of_bytes
    (hframe : ∀ a, d.heads + 44 ≤ a → a < d.heads + 52 → m'.byte a = m.byte a) :
    m'.word (d.heads + 44) = Tag.prologue.raw ∧ m'.word d.origin = Tag.prologue.raw := by
  constructor
  · rw [← h.prologueHeader]
    exact Memory.word_congr fun a _ _ => hframe a (by omega) (by omega)
  · rw [← h.prologueFooter, d.origin_eq, Layout.origin]
    exact Memory.word_congr fun a _ _ => hframe a (by omega) (by omega)

/-- **A change of links is a change of lists.** -/
theorem relist {ls : SizeClass → List Block} (hframe : ∀ a, ¬ χ.LinkByte d a → m'.byte a = m.byte a)
    (hspells : d.Spells m' fun c => (ls c).map Block.payload)
    (hlisted : ∀ c, ∀ b ∈ ls c,
      b ∈ χ.blocks ∧ b.isAllocated = false ∧ SizeClass.ofSize b.size = c) :
    Depicts ⟨χ.blocks, ls⟩ d stop m' := by
  have hstop : d.heads + 56 ≤ stop := d.firstBlock_eq ▸ h.tiles.le
  -- prologue and epilogue are below and behind all blocks
  have hout : ∀ a, d.heads + 44 ≤ a → a < d.heads + 56 ∨ stop - 4 ≤ a → m'.byte a = m.byte a := by
    intro a h1 h2
    refine hframe a ?_
    rintro (hl | ⟨e, he, -, hl⟩)
    · omega
    · have := h.bounds he
      simp only [Block.after] at this
      omega
  obtain ⟨hheader, hfooter⟩ := h.prologue_of_bytes fun a h1 h2 =>
    hout a h1 (.inl (by omega))
  refine ⟨h.tiles, h.reach, ?_, hheader, hfooter, ?_, hspells, hlisted⟩
  · intro b hb
    exact h.hasBlock_of_bytes hb fun a ha => hframe a (h.not_linkByte_of_tag hb ha)
  · rw [← h.epilogue]
    exact Memory.word_congr fun a h1 h2 => hout a (by omega) (.inr (by omega))

/-- A change of links keeps every payload. -/
theorem keeps_of_links (hframe : ∀ a, ¬ χ.LinkByte d a → m'.byte a = m.byte a) :
    Keeps χ.blocks m m' :=
  fun _ hb ha _ hi => hframe _ (h.not_linkByte_of_payload hb ha hi)

/-- **A run of unlisted blocks is replaced by another of the same
extent**, where the new tags are in place and nothing else is
written. -/
theorem retile {pre mid mid' post : List Block} (hbs : χ.blocks = pre ++ mid ++ post)
    (hpre : Tiles d.firstBlock p pre) (hmid' : Tiles p q mid') (hpost : Tiles q stop post)
    (hun : ∀ c, ∀ b ∈ mid, b ∉ χ.lists c) (hhas : ∀ b ∈ mid', m'.HasBlock b)
    (hframe : ∀ a, ¬ (p - 4 ≤ a ∧ a < q - 4) → m'.byte a = m.byte a) :
    Depicts ⟨pre ++ mid' ++ post, χ.lists⟩ d stop m' := by
  have hp : d.heads + 56 ≤ p := d.firstBlock_eq ▸ hpre.le
  have hq : q ≤ stop := hpost.le
  have hpq : p ≤ q := hmid'.le
  -- the blocks that stay are on either side of what is written
  have hside : ∀ b ∈ pre ++ post, b ∈ χ.blocks ∧ (b.after ≤ p ∨ q ≤ b.payload) := by
    intro b hb
    rw [hbs]
    rcases List.mem_append.1 hb with hb | hb
    · exact ⟨by simp [hb], .inl (hpre.bounds hb).2.1⟩
    · exact ⟨by simp [hb], .inr (hpost.bounds hb).1⟩
  -- and every listed block is one of them
  have hlisted : ∀ c, ∀ b ∈ χ.lists c, b ∈ pre ++ post := by
    intro c b hb
    have hmem := (h.listed c b hb).1
    rw [hbs] at hmem
    have := fun hm => hun c b hm hb
    simp only [List.mem_append] at hmem ⊢
    tauto
  obtain ⟨hheader, hfooter⟩ := h.prologue_of_bytes fun a h1 h2 =>
    hframe a (by omega)
  refine ⟨?_, h.reach, ?_, hheader, hfooter, ?_, h.spells.congr ?_, ?_⟩
  · exact tiles_append.2 ⟨q, tiles_append.2 ⟨p, hpre, hmid'⟩, hpost⟩
  · intro b hb
    by_cases hm : b ∈ mid'
    · exact hhas b hm
    · have hb' : b ∈ pre ++ post := by
        simp only [List.mem_append] at hb ⊢
        tauto
      obtain ⟨hmem, hside⟩ := hside b hb'
      have := h.bounds hmem
      have hend : b.after = b.payload + b.size := rfl
      exact h.hasBlock_of_bytes hmem fun a ha => hframe a (by omega)
  · rw [← h.epilogue]
    exact Memory.word_congr fun a h1 h2 => hframe a (by omega)
  · rintro a (ha | ⟨c, r, hr, ha⟩)
    · exact hframe a (by omega)
    · obtain ⟨b, hb, rfl⟩ := List.mem_map.1 hr
      obtain ⟨hmem, hside⟩ := hside b (hlisted c b hb)
      have := h.bounds hmem
      simp only [Block.after] at this hside
      exact hframe a (by omega)
  · intro c b hb
    obtain ⟨-, hfree, hc⟩ := h.listed c b hb
    have := hlisted c b hb
    simp only [List.mem_append] at this ⊢
    exact ⟨by tauto, hfree, hc⟩

/-- **A run of unlisted blocks becomes one block** when that one's tags
are written. -/
theorem retag {pre mid post : List Block} (hbs : χ.blocks = pre ++ mid ++ post)
    (hpre : Tiles d.firstBlock p pre) (hb : Tiles p q [b]) (hpost : Tiles q stop post)
    (hun : ∀ c, ∀ e ∈ mid, e ∉ χ.lists c) :
    Depicts ⟨pre ++ [b] ++ post, χ.lists⟩ d stop (m.setTags b.payload b.size b.isAllocated) ∧
      ∀ a, ¬ (p - 4 ≤ a ∧ a < q - 4) →
        (m.setTags b.payload b.size b.isAllocated).byte a = m.byte a := by
  obtain ⟨hp, hproper, hafter⟩ := tiles_singleton.1 hb
  have hlow : d.heads + 56 ≤ p := d.firstBlock_eq ▸ hpre.le
  have hhigh : q ≤ stop := hpost.le
  have hlt : b.size < 2 ^ 32 := by
    have := h.reach
    simp only [Block.after] at hafter
    omega
  have hhas : (m.setTags b.payload b.size b.isAllocated).HasBlock b :=
    Memory.hasBlock_setTags hproper (by omega) hlt
  have hframe : ∀ a, ¬ (p - 4 ≤ a ∧ a < q - 4) →
      (m.setTags b.payload b.size b.isAllocated).byte a = m.byte a := by
    intro a ha
    have := hproper.large
    refine Memory.byte_setTags hproper hlt ?_ ?_ <;> simp only [Block.after] at * <;> omega
  refine ⟨h.retile hbs hpre hb hpost hun ?_ hframe, hframe⟩
  intro e he
  rwa [List.mem_singleton.1 he]

/-- **A run of unlisted blocks becomes two blocks** when the tags of the
left one and then those of the right one are written. -/
theorem retag_pair {e : Block} {pre mid post : List Block} (hbs : χ.blocks = pre ++ mid ++ post)
    (hpre : Tiles d.firstBlock p pre) (hb : Tiles p q [b, e]) (hpost : Tiles q stop post)
    (hun : ∀ c, ∀ e ∈ mid, e ∉ χ.lists c) :
    let m₁ := m.setTags b.payload b.size b.isAllocated
    let m₂ := m₁.setTags e.payload e.size e.isAllocated
    m₁.after b.payload = e.payload ∧ Depicts ⟨pre ++ [b, e] ++ post, χ.lists⟩ d stop m₂ ∧
      ∀ a, ¬ (p - 4 ≤ a ∧ a < q - 4) → m₂.byte a = m.byte a := by
  intro m₁ m₂
  have htwo := hb
  obtain ⟨hp, hproper, hnext, hproper', hend⟩ := htwo
  have hend : e.after = q := hend
  have hlow : d.heads + 56 ≤ p := d.firstBlock_eq ▸ hpre.le
  have hhigh : q ≤ stop := hpost.le
  have hreach := h.reach
  have hle : b.after = b.payload + b.size := rfl
  have hle' : e.after = e.payload + e.size := rfl
  have hlt : b.size < 2 ^ 32 := by omega
  have hlt' : e.size < 2 ^ 32 := by omega
  obtain ⟨has, has', hframe⟩ := Memory.hasBlock_setTags_setTags (m := m) hproper hproper'
    (by omega) hnext hlt hlt'
  have hframe : ∀ a, ¬ (p - 4 ≤ a ∧ a < q - 4) → m₂.byte a = m.byte a := fun a ha =>
    hframe a (by rwa [hp, hend])
  refine ⟨?_, h.retile hbs hpre hb hpost hun ?_ hframe, hframe⟩
  · rw [(Memory.hasBlock_setTags hproper (by omega) hlt).after_eq hproper hlt, hnext]
  · intro r hr
    rcases List.mem_cons.1 hr with rfl | hr
    · exact has
    · rwa [List.mem_singleton.1 hr]

omit h in
/-- A replaced run is all a replacement touches. -/
theorem keeps_of_retile {pre mid post : List Block} (hpre : Tiles d.firstBlock p pre)
    (hpost : Tiles q stop post) (hframe : ∀ a, ¬ (p - 4 ≤ a ∧ a < q - 4) → m'.byte a = m.byte a)
    (hfree : ∀ b ∈ mid, b.isAllocated = false) : Keeps (pre ++ mid ++ post) m m' := by
  intro b hb halloc i hi
  refine hframe _ ?_
  simp only [List.mem_append] at hb
  rcases hb with (hb | hb) | hb
  · have := (hpre.bounds hb).2.1
    simp only [Block.after] at this
    omega
  · rw [hfree b hb] at halloc
    cases halloc
  · have := (hpost.bounds hb).1
    omega

/-- **A user's write stays in its payload.** No tag, no link and no other
payload is touched. -/
theorem write (hb : b ∈ χ.blocks) (halloc : b.isAllocated = true)
    (hframe : ∀ a, ¬ (b.payload ≤ a ∧ a < b.payload + (b.size - 8)) → m'.byte a = m.byte a) :
    χ.Depicts d stop m' ∧ ∀ e ∈ χ.blocks, e ≠ b → ∀ i, i + 8 < e.size →
      m'.byte (e.payload + i) = m.byte (e.payload + i) := by
  obtain ⟨-, -, hlarge, -⟩ := h.bounds hb
  obtain ⟨pre, post, hbs⟩ := List.append_of_mem hb
  have hbs' : χ.blocks = pre ++ [b] ++ post := by rw [hbs]; simp
  have htiles := h.tiles
  rw [hbs, tiles_append] at htiles
  obtain ⟨p, hpre, rfl, hproper, hpost⟩ := htiles
  have hlow : d.heads + 56 ≤ b.payload := (h.bounds hb).1
  have hend : b.after = b.payload + b.size := rfl
  have hhas : m'.HasBlock b := h.hasBlock_of_bytes hb fun a ha => hframe a (by omega)
  have hun : ∀ c, ∀ e ∈ [b], e ∉ χ.lists c := fun c e he => by
    rw [List.mem_singleton.1 he]
    exact h.not_listed halloc c
  have h1 := h.retile hbs' hpre (tiles_singleton.2 ⟨rfl, hproper, rfl⟩) hpost hun
    (fun e he => by rwa [List.mem_singleton.1 he]) fun a ha => hframe a (by omega)
  rw [← hbs'] at h1
  refine ⟨h1, fun e he hne i hi => hframe _ ?_⟩
  have h2 := h.tiles.apart he hb hne
  have hend' : e.after = e.payload + e.size := rfl
  omega

/-- A block with the payload of a listed one is that block. -/
theorem mem_lists_of_payload (hb : b ∈ χ.blocks) {c : SizeClass}
    (hp : b.payload ∈ (χ.lists c).map Block.payload) : b ∈ χ.lists c := by
  obtain ⟨e, he, heq⟩ := List.mem_map.1 hp
  rwa [h.tiles.eq_of_payload hb (h.listed c e he).1 heq.symm]

/-- **Filing** a free block that is in no list. -/
theorem insert (hb : b ∈ χ.blocks) (hfree : b.isAllocated = false)
    (hnew : b ∉ χ.lists (SizeClass.ofSize b.size)) :
    (χ.file b).Depicts d stop (d.insert b.payload m) ∧
      ∀ a, ¬ χ.LinkByte d a → (d.insert b.payload m).byte a = m.byte a := by
  have hnot : ∀ c, b.payload ∉ (χ.lists c).map Block.payload := fun c hp =>
    hnew (h.mem_lists_iff.1 (h.mem_lists_of_payload hb hp)).2
  have hframe : ∀ a, ¬ χ.LinkByte d a → (d.insert b.payload m).byte a = m.byte a := by
    intro a ha
    refine h.spells.byte_insert h.reaches_of_listed
      (fun hin => ha (.inr ⟨b, hb, hfree, hin⟩)) fun hl => ha (h.linkByte_of_isLink hl)
  refine ⟨h.relist hframe ?_ ?_, hframe⟩
  · -- the ordered insertion by the sizes in the tags is the one by the blocks' own
    have hspells := h.spells.insert h.spaced (fun c => h.mem_of_listed) ⟨b, hb, rfl⟩ hnot
      (congrArg SizeClass.ofSize (h.blockSize_eq hb))
    convert hspells using 1
    funext c
    by_cases hc : c = SizeClass.ofSize b.size
    · subst hc
      rw [Function.update_self, Function.update_self]
      have hsize : ∀ a ∈ χ.lists (SizeClass.ofSize b.size), m.blockSize a.payload = a.size :=
        fun a ha => h.blockSize_eq (h.listed _ a ha).1
      apply List.map_orderedInsert
      · intro a ha
        rw [hsize a ha, h.blockSize_eq hb, Block.SizeLE]
      · intro a ha
        rw [hsize a ha, h.blockSize_eq hb, Block.SizeLE]
    · rw [Function.update_of_ne hc, Function.update_of_ne hc]
  · intro c e he
    by_cases hc : c = SizeClass.ofSize b.size
    · subst hc
      rw [Function.update_self, List.mem_orderedInsert] at he
      rcases he with rfl | he
      · exact ⟨hb, hfree, rfl⟩
      · exact h.listed _ e he
    · rw [Function.update_of_ne hc] at he
      exact h.listed c e he

/-- **Taking a block out** of its list. -/
theorem remove (hb : b ∈ χ.lists (SizeClass.ofSize b.size)) :
    (χ.unfile b).Depicts d stop (d.remove b.payload m) ∧
      ∀ a, ¬ χ.LinkByte d a → (d.remove b.payload m).byte a = m.byte a := by
  have hmem := (h.listed _ b hb).1
  have hsize : SizeClass.ofSize (m.blockSize b.payload) = SizeClass.ofSize b.size :=
    congrArg SizeClass.ofSize (h.blockSize_eq hmem)
  have hframe : ∀ a, ¬ χ.LinkByte d a → (d.remove b.payload m).byte a = m.byte a := fun a ha =>
    h.spells.byte_remove hsize (List.mem_map_of_mem hb) fun hl => ha (h.linkByte_of_isLink hl)
  obtain ⟨l₁, l₂, -, hl, herase⟩ := List.exists_erase_eq hb
  have hmap : (χ.lists (SizeClass.ofSize b.size)).map Block.payload
      = l₁.map Block.payload ++ b.payload :: l₂.map Block.payload := by
    rw [hl, List.map_append, List.map_cons]
  refine ⟨h.relist hframe ?_ ?_, hframe⟩
  · have hspells := h.spells.remove h.spaced (fun c => h.mem_of_listed) hsize hmap
    convert hspells using 1
    funext c
    by_cases hc : c = SizeClass.ofSize b.size
    · subst hc
      rw [Function.update_self, Function.update_self, herase, List.map_append]
    · rw [Function.update_of_ne hc, Function.update_of_ne hc]
  · intro c e he
    by_cases hc : c = SizeClass.ofSize b.size
    · subst hc
      rw [Function.update_self] at he
      exact h.listed _ e (List.mem_of_mem_erase he)
    · rw [Function.update_of_ne hc] at he
      exact h.listed c e he

end Depicts

end Chart

end SegFit
