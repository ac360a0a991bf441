import SegFit.Proofs.Chart.Filing
import SegFit.Proofs.Client.Aliasing
import SegFit.Proofs.Client.Asked
/-!
# What giving back does, exactly

A payload that is given back becomes one free block with those of its
physical neighbours that are free (`Heap.Coalesces`). The blocks around it
stay, the neighbours leave their lists, the new block enters the list of its
class in front of the first block at least as large, and the lists are as
they were otherwise. The store is not asked
(`Client.Reachable.free_coalesces`).
-/

namespace SegFit

variable {σ : Type} [Store σ]

namespace Heap

/-- A list without some blocks, the others in their order. -/
def listWithout (h : Heap σ) (gone : List Block) (c : SizeClass) : List Nat :=
  (h.list c).filter (· ∉ gone.map Block.payload)

/-- **A block given back**: `b` and its free neighbours `left` and `right`
have become the one free block `e`, between the blocks `pre` and `post`. -/
structure Coalesces (h : Heap σ) (pre : List Block) (left : Option Block) (b : Block)
    (right : Option Block) (post : List Block) (e : Block) (h' : Heap σ) : Prop where
  before : h.blocks = pre ++ left.toList ++ b :: (right.toList ++ post)
  isAllocated : b.isAllocated = true
  free : ∀ x ∈ left.toList ++ right.toList, x.isAllocated = false
  /-- No free neighbour is left out on either side. -/
  last : ∀ x ∈ pre.getLast?, x.isAllocated = true
  first : ∀ x ∈ post.head?, x.isAllocated = true
  covers : e =
    ⟨(left.getD b).payload, ((left.toList ++ b :: right.toList).map Block.size).sum, false⟩
  after : h'.blocks = pre ++ e :: post
  /-- The new block is in the list of its class, in front of the first block
  at least as large. -/
  filed : ∃ smaller larger,
    h.listWithout (left.toList ++ right.toList) (SizeClass.ofSize e.size) = smaller ++ larger ∧
      h'.list (SizeClass.ofSize e.size) = smaller ++ e.payload :: larger ∧
      (∀ p ∈ smaller, h'.memory.blockSize p < e.size) ∧
      ∀ p ∈ larger, e.size ≤ h'.memory.blockSize p
  list_of_ne : ∀ c, c ≠ SizeClass.ofSize e.size →
    h'.list c = h.listWithout (left.toList ++ right.toList) c
  region : h'.region = h.region
  /-- Prologue and epilogue are where they were. -/
  inside : h'.region.start + 56 ≤ e.payload ∧ e.payload + e.size ≤ h'.region.stop
  prologueHeader : h'.memory.word (h'.region.start + 44) = 9
  prologueFooter : h'.memory.word (h'.region.start + 48) = 9
  epilogue : h'.memory.word (h'.region.stop - 4) = 1
  payloads : ∀ x ∈ pre ++ post, x.isAllocated = true → ∀ i, i < x.size - 8 →
    h'.memory.byte (x.payload + i) = h.memory.byte (x.payload + i)

variable {h h' : Heap σ} {d : Directory} {χ χ' : Chart} {b : Block}

/-- A list without some blocks of the chart. -/
theorem Charted.listWithout_eq (hc : h.Charted d χ) {gone : List Block}
    (hgone : ∀ x ∈ gone, x ∈ χ.blocks) (c : SizeClass) :
    h.listWithout gone c = ((χ.lists c).filter (· ∉ gone)).map Block.payload := by
  rw [listWithout, hc.list_eq, List.filter_map]
  refine congrArg _ (List.filter_congr fun x hx => ?_)
  -- blocks are known by their payloads
  have hmem : x.payload ∈ gone.map Block.payload ↔ x ∈ gone := by
    refine ⟨fun hin => ?_, List.mem_map_of_mem⟩
    obtain ⟨y, hy, heq⟩ := List.mem_map.1 hin
    rwa [hc.depicts.tiles.eq_of_payload (hc.depicts.listed c x hx).1 (hgone y hy) heq.symm]
  simp only [Function.comp_apply, hmem]

/-- **Where a block is filed** that takes the place of some others. -/
theorem Charted.filed (hc : h.Charted d χ) (hc' : h'.Charted d χ') {e : Block} {gone : List Block}
    (hgone : ∀ x ∈ gone, x ∈ χ.blocks)
    (hlist : χ'.lists (SizeClass.ofSize e.size) =
      ((χ.lists (SizeClass.ofSize e.size)).filter (· ∉ gone)).orderedInsert Block.SizeLE e) :
    ∃ smaller larger,
      h.listWithout gone (SizeClass.ofSize e.size) = smaller ++ larger ∧
        h'.list (SizeClass.ofSize e.size) = smaller ++ e.payload :: larger ∧
        (∀ p ∈ smaller, h'.memory.blockSize p < e.size) ∧
        ∀ p ∈ larger, e.size ≤ h'.memory.blockSize p := by
  have hsorted := (hc.settled.sorted (SizeClass.ofSize e.size)).filter (· ∉ gone)
  obtain ⟨smaller, larger, hstay, hfiled, hlt, hle⟩ := Chart.exists_orderedInsert e hsorted
  rw [hfiled] at hlist
  -- what is listed has the size its tag says
  have hsize : ∀ x ∈ smaller ++ e :: larger, h'.memory.blockSize x.payload = x.size := by
    intro x hx
    rw [← hlist] at hx
    exact hc'.depicts.blockSize_eq (hc'.depicts.listed _ x hx).1
  refine ⟨smaller.map Block.payload, larger.map Block.payload, ?_, ?_, ?_, ?_⟩
  · rw [hc.listWithout_eq hgone, hstay, List.map_append]
  · rw [hc'.list_eq, hlist, List.map_append, List.map_cons]
  · intro p hp
    obtain ⟨x, hx, rfl⟩ := List.mem_map.1 hp
    rw [hsize x (List.mem_append_left _ hx)]
    exact hlt x hx
  · intro p hp
    obtain ⟨x, hx, rfl⟩ := List.mem_map.1 hp
    rw [hsize x (List.mem_append_right _ (List.mem_cons_of_mem _ hx))]
    exact hle x hx

/-- **From the chart on**: a released block has coalesced. -/
theorem Frees.coalesces (hf : Frees h d χ b h') (hc : h.Charted d χ) (hb : b ∈ χ.blocks)
    (halloc : b.isAllocated = true) :
    ∃ pre left right post, h.Coalesces pre left b right post (χ.release b).1 h' := by
  obtain ⟨pre, left, right, post, hr⟩ := hc.depicts.released hc.settled hb halloc
  have hdepicts := hf.charted.depicts
  have hstart := hf.charted.base
  have hbounds := hdepicts.bounds (b := (χ.release b).1) (by rw [hr.after]; simp)
  have hend : (χ.release b).1.after = (χ.release b).1.payload + (χ.release b).1.size := rfl
  have hgone : ∀ x ∈ left.toList ++ right.toList, x ∈ χ.blocks := by
    intro x hx
    rw [hr.before]
    simp only [List.mem_append, List.mem_cons] at hx ⊢
    tauto
  refine ⟨pre, left, right, post, hc.blocks_eq.trans hr.before, halloc, hr.free, hr.last, hr.first,
    hr.covers, hf.charted.blocks_eq.trans hr.after, ?_, ?_, congrArg Store.region hf.store,
    ⟨?_, ?_⟩, ?_, ?_, hdepicts.epilogue, ?_⟩
  · exact hc.filed hf.charted hgone (by rw [hr.lists, if_pos rfl])
  · intro c hne
    rw [hf.charted.list_eq, hr.lists, if_neg (Ne.symm hne), hc.listWithout_eq hgone]
  · omega
  · omega
  · rw [← hstart]
    exact hdepicts.prologueHeader
  · rw [← hstart, ← show d.origin = d.heads + 48 from d.origin_eq]
    exact hdepicts.prologueFooter
  · intro x hx hxalloc i hi
    have hnodup := hc.depicts.tiles.nodup
    rw [hr.before, List.nodup_middle, List.nodup_cons] at hnodup
    have hin : x ∈ pre ++ left.toList ++ (right.toList ++ post) := by
      simp only [List.mem_append] at hx ⊢
      tauto
    refine hf.keeps x (hc.depicts.tiles.nodup.mem_erase_iff.2 ⟨?_, ?_⟩) hxalloc i (by omega)
    · rintro rfl
      exact hnodup.1 hin
    · rw [hr.before]
      simp only [List.mem_append, List.mem_cons] at hin ⊢
      tauto

end Heap

namespace Client

variable [Store.Lawful σ] {s : Client σ} {p : Nat}

/-- Giving back asks the store for nothing. -/
theorem Reachable.asked_free (hs : Reachable s) (hp : s.Owns p) :
    s.asked (.free (some p)) = [] := by
  obtain ⟨χ, ht⟩ := hs.sound
  obtain ⟨b, hb, d, hc, halloc, rfl, -⟩ := ht.block_of_owns hp
  refine asked_eq_nil ?_
  rw [Call.perform, Heap.ends_bind]
  refine (Heap.ends_free hc.entered hb halloc).mono ?_
  rintro r h' ⟨rfl, hf⟩
  rw [Heap.ends_pure]
  exact hf.store

/-- **Giving back, exactly.** Whatever a client owns coalesces when it is given
back, and the store is asked for nothing. -/
theorem Reachable.free_coalesces (hs : Reachable s) (hp : s.Owns p) :
    s.asked (.free (some p)) = [] ∧
      ∃ h', Heap.free (some p) s.heap = .ok () h' ∧ h'.store = s.heap.store ∧
        ∃ pre left b right post e, b.payload = p ∧
          s.heap.Coalesces pre left b right post e h' := by
  refine ⟨hs.asked_free hp, ?_⟩
  obtain ⟨χ, ht⟩ := hs.sound
  obtain ⟨b, hb, d, hc, halloc, rfl, -⟩ := ht.block_of_owns hp
  obtain ⟨h', hrun, hf⟩ := hc.free_frees hb halloc
  obtain ⟨pre, left, right, post, hcoalesces⟩ := hf.coalesces hc hb halloc
  exact ⟨h', hrun, hf.store, pre, left, b, right, post, _, rfl, hcoalesces⟩

/-- The sample's one payload. -/
theorem owns_sample : sample.Owns 104 := by
  unfold Owns
  decide +kernel

/-- It lies between two free blocks, of two lists. -/
theorem sample_free_coalesces :
    Reachable sample ∧ sample.Owns 104 ∧ sample.asked (.free (some 104)) = [] ∧
      ∃ h', Heap.free (some 104) sample.heap = .ok () h' ∧ h'.store = sample.heap.store ∧
        ∃ pre left b right post e, b.payload = 104 ∧
          sample.heap.Coalesces pre left b right post e h' :=
  ⟨reachable_sample, owns_sample, reachable_sample.free_coalesces owns_sample⟩

end Client

end SegFit
