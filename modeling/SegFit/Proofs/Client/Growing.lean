import SegFit.Proofs.Client.Coalescing
/-!
# What growing does, exactly

A heap that grows gets one free block for its new bytes, together with the
last block if that is free. The old epilogue becomes the header of the new
block, or a word inside it, and the new block ends where the region ends, in
front of a new epilogue (`Heap.Stitches`). All else is as it was. That holds
of every heap that is laid out, with blocks or without
(`Client.Reachable.extend_stitches`).
-/

namespace SegFit

variable {σ : Type} [Store σ]

namespace Heap

/-- **A heap grown by `e` bytes**, with the free block `b` for them. `tail` is
the last block if that was free, and `pre` are the blocks that stay. -/
structure Stitches (h : Heap σ) (e : Nat) (pre : List Block) (tail : Option Block) (b : Block)
    (h' : Heap σ) : Prop where
  region : h'.region = ⟨h.region.start, h.region.extent + e⟩
  directory : h'.directory = h.directory
  before : h.blocks = pre ++ tail.toList
  /-- A free last block is not left out. -/
  last : ∀ x ∈ pre.getLast?, x.isAllocated = true
  /-- It becomes the new block, in its old place, and the word of the old
  epilogue is inside, behind the links. -/
  merged : ∀ t ∈ tail, t.isAllocated = false ∧ b = ⟨t.payload, t.size + e, false⟩ ∧
    b.payload + 2 * Layout.word ≤ h.region.stop - Layout.word ∧
      h.region.stop ≤ b.after - Layout.tags
  /-- Without one the new block begins where the region ended, and the word of
  the old epilogue is its header. -/
  fresh : tail = none → b = ⟨h.region.stop, e, false⟩ ∧
    h'.memory.word (h.region.stop - Layout.word) = b.tag.raw
  after : h'.blocks = pre ++ [b]
  tagged : h'.memory.HasBlock b
  /-- The new block is in the list of its class, in front of the first block
  at least as large. -/
  filed : ∃ smaller larger,
    h.listWithout tail.toList (SizeClass.ofSize b.size) = smaller ++ larger ∧
      h'.list (SizeClass.ofSize b.size) = smaller ++ b.payload :: larger ∧
      (∀ p ∈ smaller, h'.memory.blockSize p < b.size) ∧
      ∀ p ∈ larger, b.size ≤ h'.memory.blockSize p
  list_of_ne : ∀ c, c ≠ SizeClass.ofSize b.size → h'.list c = h.listWithout tail.toList c
  /-- A fresh epilogue is behind it, the last word of the region. -/
  ends : b.after = h'.region.stop
  epilogue : h'.memory.word (h'.region.stop - Layout.word) = Tag.epilogue.raw
  /-- The prologue and the tags of the blocks that stay are as they were. -/
  prologue : ∀ a ∈ [Layout.prologueHeader, Layout.origin],
    h'.memory.word (h.region.start + a) = h.memory.word (h.region.start + a)
  tags : ∀ x ∈ pre, h'.memory.header x.payload = h.memory.header x.payload ∧
    h'.memory.footer x.payload = h.memory.footer x.payload
  payloads : ∀ x ∈ pre, x.isAllocated = true → ∀ i, i < x.size - 8 →
    h'.memory.byte (x.payload + i) = h.memory.byte (x.payload + i)

variable {h h' : Heap σ} {d : Directory} {χ χ' : Chart} {b : Block} {g : Nat} {pre : List Block}
  {tail : Option Block}

/-- A block of two heaps has its tags in both. -/
theorem Charted.tags_eq (hc : h.Charted d χ) (hc' : h'.Charted d χ') (hb : b ∈ χ.blocks)
    (hb' : b ∈ χ'.blocks) : h'.memory.header b.payload = h.memory.header b.payload ∧
      h'.memory.footer b.payload = h.memory.footer b.payload := by
  have hold := hc.depicts.hasBlock b hb
  have hnew := hc'.depicts.hasBlock b hb'
  exact ⟨hnew.header.trans hold.header.symm, hnew.footer.trans hold.footer.symm⟩

/-- So has a prologue. -/
theorem Charted.prologue_eq (hc : h.Charted d χ) (hc' : h'.Charted d χ') :
    ∀ a ∈ [Layout.prologueHeader, Layout.origin],
      h'.memory.word (h.region.start + a) = h.memory.word (h.region.start + a) := by
  intro a ha
  rw [← hc.base]
  simp only [List.mem_cons, List.not_mem_nil, or_false] at ha
  rcases ha with rfl | rfl
  · exact hc'.depicts.prologueHeader.trans hc.depicts.prologueHeader.symm
  · rw [← d.origin_eq]
    exact hc'.depicts.prologueFooter.trans hc.depicts.prologueFooter.symm

/-- **From the chart on**: a chart that has grown is stitched together. -/
theorem Charted.stitches (hc : h.Charted d χ) (hlarge : 16 ≤ g)
    (hregion : h'.region = ⟨h.region.start, h.region.extent + g⟩)
    (hc' : h'.Charted d (χ.grow h.region.stop g).2)
    (hkeeps : Chart.Keeps χ.blocks h.memory h'.memory) (ha : χ.Appended h.region.stop g pre tail) :
    h.Stitches g pre tail (χ.grow h.region.stop g).1 h' := by
  have hin : (χ.grow h.region.stop g).1 ∈ (χ.grow h.region.stop g).2.blocks := by
    rw [ha.after]
    simp
  have hstays : ∀ x ∈ pre, x ∈ χ.blocks ∧ x ∈ (χ.grow h.region.stop g).2.blocks := fun x hx =>
    ⟨by rw [ha.before]; exact List.mem_append_left _ hx,
      by rw [ha.after]; exact List.mem_append_left _ hx⟩
  have hgone : ∀ x ∈ tail.toList, x ∈ χ.blocks := fun x hx => by
    rw [ha.before]
    exact List.mem_append_right _ hx
  have hends : (χ.grow h.region.stop g).1.after = h'.region.stop :=
    (ha.after ▸ hc'.depicts.tiles).after_eq
  refine ⟨hregion, hc'.directory.trans hc.directory.symm, hc.blocks_eq.trans ha.before, ha.last,
    ?_, ?_, hc'.blocks_eq.trans ha.after, hc'.depicts.hasBlock _ hin, ?_, ?_, hends,
    hc'.depicts.epilogue, hc.prologue_eq hc', ?_, ?_⟩
  · rintro t rfl
    have ht := hc.depicts.bounds (hgone t (by simp))
    have hstop : h'.region.stop = h.region.stop + g := by
      rw [hregion, Region.stop, Region.stop, Nat.add_assoc]
    rw [hends, ha.grow_of_some, hstop]
    refine ⟨ha.free t rfl, rfl, ?_, ?_⟩
    · simp only [Block.after, Layout.word] at ht ⊢
      omega
    · simp only [Layout.tags]
      omega
  · rintro rfl
    have hheader := (hc'.depicts.hasBlock _ hin).header
    rw [ha.grow_of_none] at hheader ⊢
    exact ⟨rfl, congrArg Tag.raw hheader⟩
  · exact hc.filed hc' hgone (by rw [ha.lists, if_pos rfl])
  · intro c hne
    rw [hc'.list_eq, ha.lists, if_neg (Ne.symm hne), hc.listWithout_eq hgone]
  · exact fun x hx => hc.tags_eq hc' (hstays x hx).1 (hstays x hx).2
  · exact fun x hx halloc i hi => hkeeps x (hstays x hx).1 halloc i (by omega)

end Heap

namespace Client

variable [Store.Lawful σ] {s : Client σ} {d : Directory} {n p : Nat} {h' : Heap σ}

/-- **Growing, exactly.** Whatever the size it is grown by, the heap is
stitched to its new bytes, and the block it gives is the free one that covers
them. -/
theorem Reachable.extend_stitches (hs : Reachable s) (hd : s.heap.directory = some d)
    (hlarge : 16 ≤ Layout.alignUp n) (hrun : Heap.extend d n s.heap = .ok p h') :
    ∃ pre tail b, b.payload = p ∧ s.heap.Stitches (Layout.alignUp n) pre tail b h' := by
  obtain ⟨χ, hc, -⟩ := hs.sound.charted hd
  have hn : 8 < n := by
    simp only [Layout.alignUp, Layout.alignment] at hlarge
    omega
  obtain ⟨g, hg, rfl, hregion, hc', hkeeps, -⟩ := (Heap.ends_of_ok hrun).1 (Heap.ends_extend hc hn)
  obtain ⟨-, -, h8⟩ := Layout.alignUp?_eq_some hg
  obtain rfl := Layout.eq_alignUp_of_alignUp? hg
  have hreach : s.heap.region.stop + Layout.alignUp n < d.heads + 2 ^ 32 := by
    have hreach := hc'.depicts.reach
    rwa [hregion, Region.stop, ← Nat.add_assoc] at hreach
  obtain ⟨pre, tail, ha⟩ := hc.depicts.appended hc.settled hlarge h8 hreach
  exact ⟨pre, tail, _, rfl, hc.stitches hlarge hregion hc' hkeeps ha⟩

/-- The sample's last block is free, and takes the new bytes in. -/
theorem sample_extend_stitches :
    Reachable sample ∧ sample.heap.directory = some (.ofBase 16) ∧ 16 ≤ Layout.alignUp 100 ∧
      ∃ h', Heap.extend (.ofBase 16) 100 sample.heap = .ok 216 h' ∧
        ∃ pre tail b, b.payload = 216 ∧
          sample.heap.Stitches (Layout.alignUp 100) pre tail b h' := by
  have hd : sample.heap.directory = some (.ofBase 16) := by decide +kernel
  obtain ⟨h', hrun⟩ : ∃ h', Heap.extend (.ofBase 16) 100 sample.heap = .ok 216 h' := by
    decide +kernel
  exact ⟨reachable_sample, hd, by decide, h', hrun,
    reachable_sample.extend_stitches hd (by decide) hrun⟩

end Client

end SegFit
