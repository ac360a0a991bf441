import SegFit.Directory
import SegFit.Proofs.Chart.Merge
import SegFit.Proofs.SizeClass
/-!
# Laying out and growing, on a chart

A new heap has the empty chart. Growth puts one free block at the end of
the block sequence, files it, and merges it with the last block if that
is free (`Chart.grow`). The new bytes hold what they held: a layout asks
nothing of them, and of the old ones growth rewrites only the epilogue
before it merges.
-/

namespace SegFit

/-! ## Laying out -/

namespace FreeLists

variable {d : FreeLists} {m : Memory} {c : SizeClass}

theorem byte_foldl_setHead (cs : List SizeClass) (m : Memory) {a : Nat}
    (ha : ¬ (d.heads ≤ a ∧ a < d.heads + 40)) :
    (cs.foldl (fun m c => d.setHead c none m) m).byte a = m.byte a := by
  induction cs generalizing m with
  | nil => rfl
  | cons c cs ih =>
    have := slot_bounds (d := d) c
    rw [List.foldl_cons, ih, setHead, Memory.byte_setWord, if_neg (by omega)]

/-- Setting some heads to none leaves no other head but an old one. -/
theorem word_foldl_setHead (cs : List SizeClass) (m : Memory) :
    (c ∈ cs → (cs.foldl (fun m c => d.setHead c none m) m).word (d.slot c) = 0) ∧
      (c ∉ cs → (cs.foldl (fun m c => d.setHead c none m) m).word (d.slot c)
        = m.word (d.slot c)) := by
  induction cs generalizing m with
  | nil => exact ⟨fun h => absurd h List.not_mem_nil, fun _ => rfl⟩
  | cons e cs ih =>
    obtain ⟨h1, h2⟩ := ih (d.setHead e none m)
    rw [List.foldl_cons]
    by_cases hc : c = e
    · subst hc
      refine ⟨?_, fun hnot => absurd List.mem_cons_self hnot⟩
      intro _
      by_cases hin : c ∈ cs
      · exact h1 hin
      · rw [h2 hin, setHead, Memory.word_setWord_self]
        rfl
    · refine ⟨fun hin => h1 ((List.mem_cons.1 hin).resolve_left hc), ?_⟩
      intro hnot
      rw [h2 fun hin => hnot (List.mem_cons_of_mem _ hin), setHead,
        Memory.word_setWord_of_disjoint _ _ (slot_apart hc)]

theorem head_clear (c : SizeClass) : d.head (d.clear m) c = none := by
  unfold head
  unfold clear
  rw [(word_foldl_setHead SizeClass.all m).1 (SizeClass.mem_all c)]
  rfl

end FreeLists

namespace Chart

variable {χ : Chart} {d : Directory} {m : Memory} {stop n : Nat}

/-- **A heap that has just been laid out** has no blocks and empty
lists, whatever its bytes were. -/
theorem depicts_layOut (d : Directory) (m : Memory) :
    Chart.empty.Depicts d (d.heads + 56) (d.layOut m) := by
  have horigin : d.origin = d.heads + 48 := d.origin_eq
  -- the heads are cleared last, below the four words
  have hword : ∀ a, d.heads + 40 ≤ a →
      (d.layOut m).word a = ((((m.setWord (d.heads + 40) 0).setWord (d.heads + 44)
        Tag.prologue.raw).setWord d.origin Tag.prologue.raw).setWord (d.heads + 52)
          Tag.epilogue.raw).word a := fun a ha =>
    Memory.word_congr fun b _ _ => FreeLists.byte_foldl_setHead _ _ (by omega)
  refine ⟨d.firstBlock_eq, by omega, fun b hb => absurd hb List.not_mem_nil, ?_, ?_, ?_,
    ⟨?_, ?_, ?_⟩, fun c b hb => absurd hb List.not_mem_nil⟩
  · rw [hword _ (by omega), Memory.word_setWord_of_disjoint _ _ (by omega), horigin,
      Memory.word_setWord_of_disjoint _ _ (by omega), Memory.word_setWord_self]
  · rw [hword _ (by omega), Memory.word_setWord_of_disjoint _ _ (by omega),
      Memory.word_setWord_self]
  · rw [show d.heads + 56 - 4 = d.heads + 52 by omega, hword _ (by omega),
      Memory.word_setWord_self]
  · intro c
    exact FreeLists.head_clear c
  · intro _
    exact List.nodup_nil
  · intro c c' p hp
    cases hp

/-- A layout is written to the first 56 bytes. -/
theorem byte_layOut (d : Directory) (m : Memory) {a : Nat}
    (ha : ¬ (d.heads ≤ a ∧ a < d.heads + 56)) : (d.layOut m).byte a = m.byte a := by
  refine (FreeLists.byte_foldl_setHead _ _ (by omega)).trans ?_
  rw [Memory.byte_setWord, if_neg, Memory.byte_setWord, if_neg, Memory.byte_setWord, if_neg,
    Memory.byte_setWord, if_neg]
  all_goals
    simp only [d.origin_eq, Layout.origin, Layout.pad, Layout.prologueHeader, Layout.epilogue]
    omega

theorem settled_empty : Chart.empty.Settled :=
  ⟨fun _ hb => absurd hb List.not_mem_nil, fun _ => List.Pairwise.nil, List.isChain_nil⟩

/-- Without blocks there is nothing to list. -/
theorem Depicts.eq_empty {χ : Chart} {d : Directory} {stop : Nat} {m : Memory}
    (h : χ.Depicts d stop m) (hblocks : χ.blocks = []) : χ = .empty := by
  have hlists : ∀ c, χ.lists c = [] := fun c => List.eq_nil_iff_forall_not_mem.2 fun b hb => by
    have hmem := (h.listed c b hb).1
    rw [hblocks] at hmem
    exact absurd hmem List.not_mem_nil
  obtain ⟨blocks, lists⟩ := χ
  cases hblocks
  exact congrArg (Chart.mk []) (funext hlists)

/-! ## Growing -/

/-- The free block of `n` new bytes behind a region. -/
def fresh (stop n : Nat) : Block := ⟨stop, n, false⟩

/-- The chart with a free block at its end, filed. -/
def append (stop n : Nat) (χ : Chart) : Chart :=
  { χ with blocks := χ.blocks ++ [fresh stop n] }.file (fresh stop n)

/-- The chart grown by a free block, and the free block that covers
it. -/
def grow (stop n : Nat) (χ : Chart) : Block × Chart := (χ.append stop n).merge (fresh stop n)

/-- The new bytes are filed, as every free block was. -/
theorem filed_append (hs : χ.Settled) : ∀ e ∈ (χ.append stop n).blocks, e.isAllocated = false →
    e ∈ (χ.append stop n).lists (SizeClass.ofSize e.size) := by
  intro e he hfree
  unfold Chart.append
  rw [mem_file]
  rcases List.mem_append.1 he with he | he
  · exact .inl (hs.complete e he hfree)
  · rw [List.mem_singleton.1 he]
    exact .inr ⟨rfl, rfl⟩

/-- **What growing adds to a chart**: no allocated block, and a listed
free block at least as large as the new bytes. -/
structure Grows (χ : Chart) (stop n : Nat) : Prop where
  mem_blocks_iff : ∀ e, e.isAllocated = true → (e ∈ (χ.grow stop n).2.blocks ↔ e ∈ χ.blocks)
  filed : (χ.grow stop n).1 ∈ (χ.grow stop n).2.lists (SizeClass.ofSize (χ.grow stop n).1.size)
  large : n ≤ (χ.grow stop n).1.size

namespace Depicts

variable (h : χ.Depicts d stop m)

include h

/-- **A chart with new bytes behind it.** The old epilogue becomes the
header of the new block. -/
theorem extend (hlarge : 16 ≤ n) (h8 : n % 8 = 0) (hreach : stop + n < d.heads + 2 ^ 32) :
    let m' := (m.setTags stop n false).setHeader (stop + n) .epilogue
    (m.setTags stop n false).after stop = stop + n ∧
      Depicts ⟨χ.blocks ++ [fresh stop n], χ.lists⟩ d (stop + n) m' ∧
      ∀ a, ¬ (stop - 4 ≤ a ∧ a < stop) → ¬ (stop + n - 8 ≤ a ∧ a < stop + n) →
        m'.byte a = m.byte a := by
  intro m'
  have hstop : d.heads + 56 ≤ stop := d.firstBlock_eq ▸ h.tiles.le
  have hproper : (fresh stop n).Proper := ⟨hlarge, h8⟩
  have hlt : (fresh stop n).size < 2 ^ 32 := by simp only [fresh]; omega
  have hhas : (m.setTags stop n false).HasBlock (fresh stop n) :=
    Memory.hasBlock_setTags (m := m) (b := fresh stop n) hproper (by simp only [fresh]; omega) hlt
  -- besides the new footer and epilogue only the old epilogue's word is written
  have hbytes : ∀ a, ¬ (stop - 4 ≤ a ∧ a < stop) → ¬ (stop + n - 8 ≤ a ∧ a < stop + n) →
      m'.byte a = m.byte a := by
    intro a h1 h2
    rw [show m' = (m.setTags stop n false).setWord (stop + n - 4) Tag.epilogue.raw from rfl,
      Memory.byte_setWord, if_neg (by omega)]
    refine Memory.byte_setTags (b := fresh stop n) hproper hlt ?_ ?_ <;>
      simp only [Block.after, fresh] <;> omega
  have hbelow : ∀ a, a < stop - 4 → m'.byte a = m.byte a := fun a ha =>
    hbytes a (by omega) (by omega)
  have hword : ∀ a, a + 4 ≤ stop + n - 4 → m'.word a = (m.setTags stop n false).word a :=
    fun a ha => Memory.word_setWord_of_disjoint _ _ (.inl (by simp only [Layout.word]; omega))
  obtain ⟨hheader, hfooter⟩ := h.prologue_of_bytes fun a h1 h2 =>
    hbelow a (by omega)
  refine ⟨hhas.after_eq hproper hlt, ⟨?_, by omega, ?_, hheader, hfooter, ?_, ?_, ?_⟩, hbytes⟩
  · exact tiles_append.2 ⟨stop, h.tiles, rfl, hproper, rfl⟩
  · intro b hb
    rcases List.mem_append.1 hb with hb | hb
    · have := h.bounds hb
      have hend : b.after = b.payload + b.size := rfl
      exact h.hasBlock_of_bytes hb fun a ha => hbelow a (by omega)
    · rw [List.mem_singleton.1 hb]
      refine hhas.congr hproper hlt (hword _ ?_) (hword _ ?_) <;>
        simp only [Block.after, fresh] <;> omega
  · exact Memory.word_setWord_self ..
  · refine h.spells.congr fun a ha => hbelow a ?_
    rcases ha with ha | ⟨c, q, hq, ha⟩
    · omega
    · obtain ⟨b, hb, rfl⟩ := List.mem_map.1 hq
      have := h.bounds (h.listed c b hb).1
      simp only [Block.after] at this
      omega
  · intro c b hb
    obtain ⟨hmem, hfree, hc⟩ := h.listed c b hb
    exact ⟨List.mem_append_left _ hmem, hfree, hc⟩

/-- Appending to a memory appends to its chart. -/
theorem append (hlarge : 16 ≤ n) (h8 : n % 8 = 0) (hreach : stop + n < d.heads + 2 ^ 32) :
    (χ.append stop n).Depicts d (stop + n) (d.append stop n m) ∧
      Keeps χ.blocks m (d.append stop n m) ∧
      ∀ a, ¬ LinkByte ⟨χ.blocks ++ [fresh stop n], χ.lists⟩ d a → ¬ (stop - 4 ≤ a ∧ a < stop) →
        ¬ (stop + n - 8 ≤ a ∧ a < stop + n) → (d.append stop n m).byte a = m.byte a := by
  obtain ⟨hafter, h1, hbytes⟩ := h.extend hlarge h8 hreach
  have hnew : ∀ c, fresh stop n ∉ χ.lists c := fun c hl => by
    have := h.bounds (h.listed c _ hl).1
    simp only [Block.after, fresh] at this
    omega
  obtain ⟨h2, hframe⟩ := h1.insert (b := fresh stop n) (by simp) rfl (hnew _)
  have happend : d.append stop n m
      = d.insert stop ((m.setTags stop n false).setHeader (stop + n) .epilogue) := by
    rw [Directory.append, hafter]
  rw [happend]
  refine ⟨h2, ?_, fun a hlink hheader hfooter => (hframe a hlink).trans (hbytes a hheader hfooter)⟩
  intro b hb halloc i hi
  have := h.bounds hb
  simp only [Block.after] at this
  rw [← hbytes (b.payload + i) (by omega) (by omega)]
  exact h1.keeps_of_links hframe b (List.mem_append_left _ hb) halloc i hi

/-- **The new bytes are settled** by merging them: only the last block can
be free beside them. -/
theorem settle_append (hs : χ.Settled) (hlarge : 16 ≤ n) (h8 : n % 8 = 0)
    (hreach : stop + n < d.heads + 2 ^ 32) :
    (d.merge stop (d.append stop n m)).1 = (χ.grow stop n).1.payload ∧
      (χ.grow stop n).2.Depicts d (stop + n) (d.merge stop (d.append stop n m)).2 ∧
      (χ.grow stop n).2.Settled ∧
      Keeps (χ.append stop n).blocks (d.append stop n m) (d.merge stop (d.append stop n m)).2 ∧
      (∀ e, e.isAllocated = true →
        (e ∈ (χ.grow stop n).2.blocks ↔ e ∈ (χ.append stop n).blocks)) ∧
      ∃ pre, (∀ e ∈ pre, e ∈ χ.blocks) ∧ (χ.append stop n).Merged (fresh stop n) pre [] := by
  obtain ⟨h1, -⟩ := h.append hlarge h8 hreach
  have hbs : (χ.append stop n).blocks = χ.blocks ++ fresh stop n :: [] := rfl
  obtain ⟨h2, h3, h4, h5, h6, pre, post, hpre, hpost, hm⟩ := h1.settle hbs rfl (filed_append hs)
    (sorted_file hs.sorted) hs.coalesced List.isChain_nil
  obtain rfl : post = [] := (List.append_eq_nil_iff.1 hpost.symm).2
  exact ⟨h2, h3, h4, h5, h6, pre, fun e he => hpre ▸ List.mem_append_left _ he, hm⟩

/-- **Growing.** -/
theorem grow (hs : χ.Settled) (hlarge : 16 ≤ n) (h8 : n % 8 = 0)
    (hreach : stop + n < d.heads + 2 ^ 32) :
    (d.merge stop (d.append stop n m)).1 = (χ.grow stop n).1.payload ∧
      (χ.grow stop n).2.Depicts d (stop + n) (d.merge stop (d.append stop n m)).2 ∧
      (χ.grow stop n).2.Settled ∧ Keeps χ.blocks m (d.merge stop (d.append stop n m)).2 ∧
      χ.Grows stop n := by
  obtain ⟨-, hkeep, -⟩ := h.append hlarge h8 hreach
  obtain ⟨h2, h3, h4, h5, h6, pre, -, hm⟩ := h.settle_append hs hlarge h8 hreach
  have hin : (χ.grow stop n).1 ∈ (χ.grow stop n).2.blocks := by
    unfold Chart.grow
    rw [hm.blocks]
    simp
  have hfree : (χ.grow stop n).1.isAllocated = false := by
    unfold Chart.grow
    rw [hm.covers]
    rfl
  refine ⟨h2, h3, h4, hkeep.trans (h5.mono fun e he _ => List.mem_append_left _ he),
    ⟨fun e he => (h6 e he).trans ?_, h4.complete _ hin hfree, ?_⟩⟩
  · have hne : e ≠ fresh stop n := Block.ne_of_isAllocated he rfl
    simp [Chart.append, hne]
  · unfold Chart.grow
    rw [hm.covers]
    simp only [whole, List.map_cons, List.sum_cons, fresh]
    omega

/-- Growing adds no block but the new one. -/
theorem mem_blocks_grow (hs : χ.Settled) (hlarge : 16 ≤ n) (h8 : n % 8 = 0)
    (hreach : stop + n < d.heads + 2 ^ 32) {e : Block} (he : e ∈ (χ.grow stop n).2.blocks) :
    e ∈ χ.blocks ∨ e = (χ.grow stop n).1 := by
  obtain ⟨-, -, -, -, -, pre, hpre, hm⟩ := h.settle_append hs hlarge h8 hreach
  unfold Chart.grow at he
  rw [hm.blocks, List.mem_append, List.mem_singleton] at he
  exact he.imp_left (hpre e)

end Depicts

/-! ## The first chunk -/

/-- A block on its own has no neighbours. -/
theorem absorbed_append_empty (hn : 0 < n) :
    (Chart.empty.append stop n).absorbed (fresh stop n) = [] := by
  have hbefore : (Chart.empty.append stop n).freeBefore (fresh stop n) = none := by
    refine List.find?_eq_none.2 fun e he => ?_
    rw [List.mem_singleton.1 (show e ∈ [fresh stop n] from he)]
    simp [Block.after, fresh]
    omega
  have hafter : (Chart.empty.append stop n).freeAfter (fresh stop n) = none := by
    refine List.find?_eq_none.2 fun e he => ?_
    rw [List.mem_singleton.1 (show e ∈ [fresh stop n] from he)]
    simp [Block.after, fresh]
    omega
  rw [absorbed, hbefore, hafter]
  rfl

/-- The first chunk stays as it comes. -/
theorem grow_empty (hn : 0 < n) :
    Chart.empty.grow stop n = (fresh stop n, Chart.empty.append stop n) :=
  if_pos (absorbed_append_empty hn)

/-- It is in the list of its class. -/
theorem lists_append_empty (c : SizeClass) :
    (Chart.empty.append stop n).lists c =
      [fresh stop n].filter fun b => SizeClass.ofSize b.size = c := by
  by_cases hc : c = SizeClass.ofSize (fresh stop n).size
  · subst hc
    rw [append, lists_file_self, List.filter_singleton]
    simp [empty]
  · rw [append, lists_file_of_ne hc, List.filter_singleton]
    simp [empty, Ne.symm hc]

/-- **What a layout and a first chunk write**: bytes before the chunk, its
links, and its end. It is on its own in memory, too, and is not merged. -/
theorem byte_firstChunk (d : Directory) (m : Memory) {a : Nat} (hlarge : 16 ≤ n) (h8 : n % 8 = 0)
    (hlt : n < 2 ^ 31) (hstart : ¬ (d.heads ≤ a ∧ a < d.heads + 56 + 8))
    (hend : ¬ (d.heads + 56 + n - 8 ≤ a ∧ a < d.heads + 56 + n)) :
    (d.merge (d.heads + 56) (d.append (d.heads + 56) n (d.layOut m))).2.byte a = m.byte a := by
  obtain ⟨happend, -, hframe⟩ := (depicts_layOut d m).append hlarge h8 (by omega)
  have hbs : (Chart.empty.append (d.heads + 56) n).blocks =
      [] ++ fresh (d.heads + 56) n :: [] := rfl
  have hpayload : (fresh (d.heads + 56) n).payload = d.heads + 56 := rfl
  have hmerge := happend.merge_eq hbs
  rw [if_pos (absorbed_append_empty (by omega)), hpayload] at hmerge
  rw [hmerge, hframe a ?_ (by omega) hend, byte_layOut d m (by omega)]
  rintro (hin | ⟨b, hb, -, hin⟩)
  · omega
  · rw [List.mem_singleton.1 hb, hpayload] at hin
    omega

end Chart

end SegFit
