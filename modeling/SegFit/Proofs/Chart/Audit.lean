import SegFit.Proofs.Audit.Certified
import SegFit.Proofs.Chart.Merge
/-!
# Settled charts pass their audit

A memory that a settled chart depicts is consistent, if its region begins
at a multiple of eight (`Chart.Depicts.consistent`): that is where an
audit wants payloads, and all that a chart does not say. Elsewhere an
audit finds the payloads misaligned and nothing else
(`Chart.Depicts.violations_eq`).
-/

namespace SegFit

namespace Chart

variable {χ : Chart} {d : Directory} {m : Memory} {r : Region} {stop : Nat} {b e : Block}

namespace Depicts

/-- A block of a chart is what its header says. -/
theorem read (h : χ.Depicts d stop m) (hb : b ∈ χ.blocks) :
    b = ⟨b.payload, m.blockSize b.payload, m.isAllocated b.payload⟩ := by
  rw [h.blockSize_eq hb, h.isAllocated_eq hb]

/-- **A block of a chart is in order**, where payloads are aligned. -/
theorem framed (h : χ.Depicts d r.stop m) (hbase : d.heads = r.start) (h8 : r.start % 8 = 0)
    (hb : b ∈ χ.blocks) : Audit.Framed m r b := by
  have hbounds := h.bounds hb
  have haligned := h.tiles.aligned hb
  have hhas := h.hasBlock b hb
  rw [d.firstBlock_eq] at haligned
  refine ⟨by omega, by omega, ⟨by omega, by omega⟩, ?_⟩
  have hfooter := hhas.footer
  rw [← hhas.header, Memory.footer, hhas.footerAt_eq (h.tiles.bounds hb).2.2 (h.size_lt hb)]
    at hfooter
  exact (congrArg Tag.raw hfooter).symm

/-- What is allocated, by its header, is no free block. -/
theorem not_mem_freeOf (h : χ.Depicts d stop m) {q : Nat} (hq : m.isAllocated q = true) :
    q ∉ Audit.freeOf χ.blocks := by
  intro hmem
  obtain ⟨e, he, rfl, hfree⟩ := Audit.mem_freeOf.1 hmem
  rw [h.isAllocated_eq he, hfree] at hq
  cases hq

/-- **A free block touches no other** in a settled chart. -/
theorem touches_eq_false (h : χ.Depicts d stop m) (hchain : χ.blocks.IsChain Block.Parted)
    (hb : b ∈ χ.blocks) (hfree : b.isAllocated = false) :
    Audit.touches m (Audit.freeOf χ.blocks).toArray b.payload = false := by
  obtain ⟨pre, post, hbs⟩ := List.append_of_mem hb
  rw [hbs] at hchain
  obtain ⟨-, hright, hleft⟩ := List.isChain_append.1 hchain
  have hbefore : m.before b.payload ∉ Audit.freeOf χ.blocks := by
    rcases h.before_cases hbs with ⟨-, halloc, -⟩ | ⟨pre', l, rfl, hl, -, -, -⟩
    · exact h.not_mem_freeOf halloc
    · exact absurd rfl (Block.ne_of_isAllocated ((hleft l (by simp) b rfl).left hfree) hl)
  have hafter : m.after b.payload ∉ Audit.freeOf χ.blocks := by
    rcases h.after_cases hbs with ⟨-, halloc, -⟩ | ⟨l, post', rfl, hl, -, -, -⟩
    · exact h.not_mem_freeOf halloc
    · have halloc := ((List.isChain_cons.1 hright).1 l rfl).right hfree
      exact absurd rfl (Block.ne_of_isAllocated halloc hl)
  simp [Audit.touches, hbefore, hafter]

/-- The lists of a settled chart are sound. -/
theorem sound (h : χ.Depicts d r.stop m) (hs : χ.Settled) (hbase : d.heads = r.start)
    (c : SizeClass) : Audit.Sound d m r (Audit.freeOf χ.blocks).toArray c := by
  refine ⟨?_, ?_⟩ <;> rw [h.chain_eq]
  · exact h.spells.nodup c
  · refine Audit.followed_iff.2 ⟨h.spells.threaded c, ?_, ?_⟩
    · intro p hp
      obtain ⟨b, hb, rfl⟩ := List.mem_map.1 hp
      obtain ⟨hmem, hfree, rfl⟩ := h.listed c b hb
      have hbounds := h.bounds hmem
      simp only [Block.after] at hbounds
      refine ⟨⟨by omega, by omega⟩, ⟨by omega, by omega⟩, (h.isAllocated_eq hmem).trans hfree, ?_,
        h.touches_eq_false hs.coalesced hmem hfree⟩
      rw [h.blockSize_eq hmem]
      exact SizeClass.contains_ofSize (by omega)
    · rw [Option.toList_none, List.nil_append]
      exact (h.sorted_blockSize (hs.sorted c)).isChain

/-- The lists of a settled chart have the free blocks, each once. -/
theorem listed_perm (h : χ.Depicts d stop m) (hs : χ.Settled) :
    (SizeClass.all.flatMap fun c => (χ.lists c).map Block.payload).Perm
      (Audit.freeOf χ.blocks) := by
  -- neither has a payload twice, so it is enough that they have the same
  have hnodup : (Audit.freeOf χ.blocks).Nodup := by
    refine List.Nodup.map_on ?_ (h.tiles.nodup.filter _)
    intro a ha b hb heq
    exact h.tiles.eq_of_payload (List.mem_of_mem_filter ha) (List.mem_of_mem_filter hb) heq
  refine (List.perm_ext_iff_of_nodup ?_ hnodup).2 ?_
  · exact SizeClass.nodup_flatMap_all h.spells.nodup h.spells.disjoint
  · intro p
    simp only [List.mem_flatMap, List.mem_map, Audit.mem_freeOf]
    constructor
    · rintro ⟨c, -, b, hb, rfl⟩
      exact ⟨b, (h.listed c b hb).1, rfl, (h.listed c b hb).2.1⟩
    · rintro ⟨b, hb, rfl, hfree⟩
      exact ⟨_, SizeClass.mem_all _, b, hs.complete b hb hfree, rfl⟩

/-- Its lists together are as long as there are free blocks. -/
theorem length_listed (h : χ.Depicts d stop m) (hs : χ.Settled) :
    (SizeClass.all.map fun c => (d.chain m stop c).length).sum =
      (Audit.freeOf χ.blocks).length := by
  simp only [h.chain_eq]
  rw [← (h.listed_perm hs).length_eq, List.length_flatMap]

/-- **The memory of a settled chart is consistent**, where payloads are
aligned. -/
theorem consistent (h : χ.Depicts d r.stop m) (hs : χ.Settled) (hbase : d.heads = r.start)
    (h8 : r.start % 8 = 0) : Audit.Consistent m r d := by
  have hheader := h.header_origin
  have hfooter : m.footer d.origin = .prologue :=
    (Audit.footer_eq_prologue_iff hheader).2 h.prologueFooter
  refine ⟨hheader, hfooter, ?_, ?_, ?_⟩ <;> rw [h.blocks_eq]
  · have hle := h.tiles.le
    rw [d.firstBlock_eq] at hle
    exact (Audit.walked_iff (Nat.le_add_left _ _)).2
      ⟨Audit.run_of_tiles h.tiles fun b => h.read, fun b => h.framed hbase h8,
        ⟨by omega, h.epilogue⟩, hs.coalesced, fun _ _ _ => rfl⟩
  · exact h.sound hs hbase
  · exact (h.length_listed hs).symm

/-! ## What an audit finds -/

/-- **The walk passes a block of a chart**, and notes it if its payload is
misaligned. -/
theorem walkBlocks_of_mem (h : χ.Depicts d r.stop m) (hbase : d.heads = r.start)
    (hb : b ∈ χ.blocks) (s : Audit.Survey) (afterFree : Bool) :
    Audit.walkBlocks (.plain m) r b.payload afterFree s =
      Audit.walkBlocks (.plain m) r b.after (!b.isAllocated)
        ((s.note (!Layout.isAligned b.payload) (.misaligned b.payload)).enter b.payload b.tag b.tag
          afterFree) := by
  have hhas := h.hasBlock b hb
  have hproper := (h.tiles.bounds hb).2.2
  have hsize := h.blockSize_eq hb
  have hbounds := h.bounds hb
  have hend : b.after = b.payload + b.size := rfl
  have hne : m.header b.payload ≠ .epilogue := by
    intro hep
    have hzero : m.blockSize b.payload = 0 := by rw [Memory.blockSize, hep]; rfl
    omega
  have hheader : r.Holds (b.payload - Layout.word) := by
    simp only [Layout.word]
    exact ⟨by omega, by omega⟩
  have hfit : r.Holds
      (b.payload + Layout.wrappingSub (m.blockSize b.payload) (Layout.word + 1)) := by
    rw [Layout.wrappingSub_of_le (by simp only [Layout.word]; omega), hsize]
    simp only [Layout.word]
    exact ⟨by omega, by omega⟩
  rw [Audit.walkBlocks_plain, if_pos hheader, if_neg hne, if_neg (by omega), if_pos hfit,
    hhas.after_eq hproper (h.size_lt hb), h.isAllocated_eq hb, hhas.header, hhas.footer]

/-- **The walk over the last blocks of a settled chart**: it meets the free
ones and notes the misaligned ones. -/
theorem walkBlocks_eq (h : χ.Depicts d r.stop m) (hbase : d.heads = r.start) {bs : List Block}
    {p : Nat} {afterFree : Bool} {s : Audit.Survey} (hsub : ∀ b ∈ bs, b ∈ χ.blocks)
    (htiles : Tiles p r.stop bs) (hchain : bs.IsChain Block.Parted)
    (hfirst : ∀ b ∈ bs.head?, b.isAllocated = false → afterFree = false) :
    (Audit.Survey.violations (Audit.walkBlocks (.plain m) r p afterFree s)).toList =
        s.violations.toList ++ Audit.misaligned bs ∧
      (Audit.Survey.free (Audit.walkBlocks (.plain m) r p afterFree s)).toList =
        s.free.toList ++ Audit.freeOf bs := by
  induction bs generalizing p afterFree s with
  | nil =>
    obtain rfl : p = r.stop := htiles
    have hle := h.tiles.le
    rw [d.firstBlock_eq] at hle
    have hheader : r.Holds (r.stop - Layout.word) := by
      simp only [Layout.word]
      exact ⟨by omega, by omega⟩
    have hep : m.header r.stop = .epilogue := congrArg Tag.mk h.epilogue
    rw [Audit.walkBlocks_plain, if_pos hheader, if_pos hep, bne_self_eq_false]
    exact ⟨(List.append_nil _).symm, (List.append_nil _).symm⟩
  | cons b bs ih =>
    obtain ⟨rfl, hproper, hrest⟩ := htiles
    have htag : b.tag.isAllocated = b.isAllocated := Tag.isAllocated_of hproper.aligned _
    have hparted : b.tag.isAllocated = false → afterFree = false := htag ▸ hfirst b rfl
    rw [List.isChain_cons] at hchain
    have hnext : ∀ e ∈ bs.head?, e.isAllocated = false → (!b.isAllocated) = false := by
      intro e he hfree
      rw [(hchain.1 e he).left hfree]
      rfl
    obtain ⟨hviolations, hfree⟩ := ih (fun e he => hsub e (List.mem_cons_of_mem _ he)) hrest
      hchain.2 hnext (s := (s.note (!Layout.isAligned b.payload) (.misaligned b.payload)).enter
        b.payload b.tag b.tag afterFree)
    rw [h.walkBlocks_of_mem hbase (hsub b List.mem_cons_self), hviolations, hfree,
      Audit.Survey.violations_enter hparted, Audit.Survey.violations_note,
      Audit.Survey.free_enter, Audit.Survey.free_note, htag, Audit.misaligned_cons,
      Audit.freeOf_cons, List.append_assoc, List.append_assoc]
    exact ⟨rfl, rfl⟩

/-- **What an audit finds wrong with the memory of a settled chart** is the
alignment of its payloads, and nothing else. -/
theorem violations_eq (h : χ.Depicts d r.stop m) (hs : χ.Settled) (hbase : d.heads = r.start) :
    Audit.violations m r (some d) = Audit.misaligned χ.blocks := by
  have hheader := h.header_origin
  have hfooter : m.footer d.origin = .prologue :=
    (Audit.footer_eq_prologue_iff hheader).2 h.prologueFooter
  have hfirst : ∀ b ∈ χ.blocks.head?, b.isAllocated = false → false = false := fun _ _ _ => rfl
  obtain ⟨hviolations, hfree⟩ :=
    h.walkBlocks_eq hbase (s := {}) (fun _ hb => hb) h.tiles hs.coalesced hfirst
  have hsurvey := Audit.surveyBlocks_plain (m := m) (r := r) (d := d)
  rw [if_pos hheader, if_pos hfooter] at hsurvey
  rw [← hsurvey] at hviolations hfree
  have hfree : Audit.Survey.free (Audit.surveyBlocks (.plain m) r d) =
      (Audit.freeOf χ.blocks).toArray := Array.toList_inj.1 hfree
  have hsound := h.sound hs hbase
  have hclean := Audit.clean_surveyLists.2 hsound
  have hlisted := Audit.listed_surveyLists hsound
  rw [← hfree] at hclean hlisted
  rw [Audit.violations_eq_append rfl rfl, hviolations, hclean, hlisted, hfree,
    h.length_listed hs, List.size_toArray, if_pos rfl]
  simp

end Depicts

end Chart

end SegFit
