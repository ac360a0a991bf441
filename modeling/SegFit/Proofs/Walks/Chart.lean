import SegFit.Proofs.Chart.Carve
import SegFit.Proofs.Chart.Growth
import SegFit.Proofs.Chart.Release
import SegFit.Proofs.Walks.Edits
import Mathlib.Algebra.Order.BigOperators.Group.List
import Mathlib.Algebra.Order.Group.Nat
/-!
# Walks where a chart is known

Where a chart depicts a memory, its lists together have no more blocks than the
chart has free ones, whether all of those are listed or not. So each walk of an
edit ends after at most as many blocks. Walks are also made in between, where a
chart is not settled: with a block tagged as free and not filed yet, with one
filed and not merged, and with a block and its neighbours taken out of their
lists. Such a memory is depicted by a chart of its own, with at most one free
block more.
-/

namespace SegFit

namespace Chart

variable {χ : Chart} {d : Directory} {m : Memory} {r : Region} {stop p q n need : Nat} {b : Block}
  {pre mid post : List Block}

/-- How many blocks are free. -/
def free (χ : Chart) : Nat := χ.blocks.countP fun b => !b.isAllocated

theorem free_eq_of_blocks (hbs : χ.blocks = pre ++ mid ++ post) :
    χ.free = (pre.countP fun b => !b.isAllocated) + (mid.countP fun b => !b.isAllocated) +
      post.countP fun b => !b.isAllocated := by
  rw [free, hbs, List.countP_append, List.countP_append]

namespace Depicts

variable (h : χ.Depicts d stop m)

include h

/-! ## Lists -/

/-- **The lists together** have no block but free ones, and none twice. -/
theorem sum_length_le : (SizeClass.all.map fun c => (χ.lists c).length).sum ≤ χ.free := by
  have hnd : (SizeClass.all.flatMap χ.lists).Nodup :=
    SizeClass.nodup_flatMap_all h.nodup fun he he' =>
      (h.listed _ _ he).2.2.symm.trans (h.listed _ _ he').2.2
  have hsub : SizeClass.all.flatMap χ.lists ⊆ χ.blocks.filter fun b => !b.isAllocated := by
    intro e he
    obtain ⟨c, -, he⟩ := List.mem_flatMap.1 he
    obtain ⟨hmem, hfree, -⟩ := h.listed c e he
    exact List.mem_filter.2 ⟨hmem, by rw [hfree]; rfl⟩
  rw [← List.length_flatMap, free, List.countP_eq_length_filter]
  exact (List.subperm_of_subset hnd hsub).length_le

theorem length_le (c : SizeClass) : (χ.lists c).length ≤ χ.free :=
  (List.single_le_sum (fun _ _ => Nat.zero_le _) _
    (List.mem_map_of_mem (SizeClass.mem_all c))).trans h.sum_length_le

/-- Walking some of the lists to the end. -/
theorem sum_le_of_sublist {cs : List SizeClass} (hcs : cs.Sublist SizeClass.all) :
    (cs.map fun c => ((χ.lists c).map Block.payload).length + 1).sum ≤ χ.free + 10 := by
  have hsum : (cs.map fun c => (χ.lists c).length).sum ≤ χ.free :=
    ((hcs.map _).sum_le_sum fun _ _ => Nat.zero_le _).trans h.sum_length_le
  have hlen : cs.length ≤ 10 := hcs.length_le
  simp only [List.length_map, List.sum_map_add, List.map_const', List.sum_replicate_nat,
    Nat.mul_one]
  omega

/-! ## Edits -/

/-- **Filing a block** takes a walk past no more than the free blocks. -/
theorem gives_insert (p : Nat) : (Walked.insert d p m).Gives (d.insert p m) (χ.free + 1) := by
  refine (Walked.gives_insert h.spells h.reaches_of_listed p).mono ?_
  have := h.length_le (SizeClass.ofSize (m.blockSize p))
  rw [List.length_map]
  omega

/-- **Looking for a fit.** -/
theorem gives_findFit (n : Nat) : (Walked.findFit d m n).Gives (d.findFit m n) (χ.free + 10) :=
  (Walked.gives_findFit h.spells h.reaches_of_listed n).mono
    (h.sum_le_of_sublist (List.drop_sublist _ _))

omit h in
/-- **Following the lists in an audit.** -/
theorem gives_survey (h : χ.Depicts d r.stop m) :
    (Walked.survey d m r).Gives () (χ.free + 10) := by
  have hin : ∀ c, ∀ q ∈ (χ.lists c).map Block.payload, q + 8 ≤ r.stop := by
    intro c q hq
    obtain ⟨b, hb, rfl⟩ := h.mem_of_listed q hq
    have hbounds := h.bounds hb
    simp only [Block.after] at hbounds
    omega
  exact (Walked.gives_survey h.spells hin).mono (h.sum_le_of_sublist (List.Sublist.refl _))

omit h in
/-- **An audit enters** no more blocks than are free. -/
theorem listed_surveyLists_le (h : χ.Depicts d r.stop m) (free : Array Nat) :
    Audit.Tally.listed (Audit.surveyLists (.plain m) r d free) ≤ χ.free := by
  have hchains : (SizeClass.all.map fun c => (d.chain m r.stop c).length) =
      SizeClass.all.map fun c => (χ.lists c).length :=
    List.map_congr_left fun c _ => by rw [h.chain_eq, List.length_map]
  exact (Audit.listed_surveyLists_le.trans_eq (congrArg List.sum hchains)).trans h.sum_length_le

/-! ### Merging -/

/-- **Fusing free blocks**: with all of them out of their lists, and one free
block tagged in their place. -/
theorem gives_fuse {parts : List Block} (hbs : χ.blocks = pre ++ mid ++ post)
    (hpre : Tiles d.firstBlock p pre) (hmid : Tiles p q mid) (hpost : Tiles q stop post)
    (hne : mid ≠ []) (hperm : parts.Perm mid)
    (hfiled : ∀ e ∈ mid, e ∈ χ.lists (SizeClass.ofSize e.size)) :
    (Walked.fuse d p (parts.map Block.payload) m).Gives
      (d.fuse p (parts.map Block.payload) m) (χ.free + 1) := by
  obtain ⟨hsize, hwhole, -⟩ := h.retag_whole hbs hpre hmid hpost hne hperm hfiled
  have hparts : 0 < mid.countP fun b => !b.isAllocated := by
    obtain ⟨e, he⟩ := List.exists_mem_of_ne_nil mid hne
    refine List.countP_pos_iff.2 ⟨e, he, ?_⟩
    rw [(h.listed _ e (hfiled e he)).2.1]
    rfl
  have hcount : (Chart.mk (pre ++ [whole p parts] ++ post) (χ.unfileAll parts).lists).free ≤
      χ.free := by
    rw [free_eq_of_blocks rfl, free_eq_of_blocks hbs]
    simp only [List.countP_singleton, whole, Bool.not_false, if_true]
    omega
  rw [Walked.fuse, FreeLists.fuse, hsize]
  exact (hwhole.gives_insert p).mono (Nat.succ_le_succ hcount)

/-- The walks of a merge are those of a fusion, if there is anything to fuse. -/
theorem walked_merge_eq (hbs : χ.blocks = pre ++ b :: post) :
    Walked.merge d b.payload m =
      if χ.absorbed b = [] then pure (b.payload, m)
      else do
        return (((χ.freeBefore b).getD b).payload, ← Walked.fuse d
          ((χ.freeBefore b).getD b).payload ((b :: χ.absorbed b).map Block.payload) m) := by
  unfold Walked.merge
  unfold absorbed
  rcases h.before_cases hbs with ⟨hn₁, ha₁, -⟩ | ⟨pre', l, -, -, hs₁, he₁, hf₁⟩ <;>
    rcases h.after_cases hbs with ⟨hn₂, ha₂, -⟩ | ⟨r, post', -, -, hs₂, he₂, hf₂⟩
  · simp [hn₁, hn₂, ha₁, ha₂]
  · simp [hn₁, hs₂, ha₁, he₂, hf₂]
  · simp [hs₁, hn₂, he₁, hf₁, ha₂]
  · simp [hs₁, hs₂, he₁, hf₁, he₂, hf₂]

/-- **Merging** a filed block with its free neighbours. -/
theorem gives_merge (hbs : χ.blocks = pre ++ b :: post) (hfree : b.isAllocated = false)
    (hfiled : ∀ e ∈ χ.blocks, e.isAllocated = false → e ∈ χ.lists (SizeClass.ofSize e.size)) :
    (Walked.merge d b.payload m).Gives (d.merge b.payload m) (χ.free + 1) := by
  obtain ⟨pre', post', rfl, rfl, -, -⟩ := h.neighbours hbs
  rw [h.walked_merge_eq hbs, h.merge_eq hbs]
  by_cases hnone : χ.absorbed b = []
  · rw [if_pos hnone, if_pos hnone]
    exact Walked.gives_pure _
  · obtain ⟨mid, q, hmid, hpre, hcover, hpost, hne, hperm, hlisted⟩ :=
      h.run_of_absorbed hbs hfree hfiled
    rw [if_neg hnone, if_neg hnone]
    exact (h.gives_fuse hmid hpre hcover hpost hne hperm hlisted).bind (k := 0)
      (Walked.gives_pure _)

/-- A merge leaves no more free blocks. -/
theorem free_merge_le (hbs : χ.blocks = pre ++ b :: post) (hfree : b.isAllocated = false)
    (hfiled : ∀ e ∈ χ.blocks, e.isAllocated = false → e ∈ χ.lists (SizeClass.ofSize e.size)) :
    (χ.merge b).2.free ≤ χ.free := by
  obtain ⟨pre', post', rfl, rfl, -, -⟩ := h.neighbours hbs
  obtain ⟨hm, -⟩ := h.merge hbs hfree hfiled
  rw [free, free, hm.blocks, hbs, hm.covers]
  simp only [List.countP_append, List.countP_cons, whole, hfree]
  omega

/-! ### Serving, giving back and growing -/

theorem walked_carve_eq (hb : b ∈ χ.blocks) (hle : need ≤ b.size) :
    Walked.carve d b.payload need m =
      if b.size - need < 16 then pure ((d.remove b.payload m).setTags b.payload b.size true)
      else
        let m' := (d.remove b.payload m).setTags b.payload need true
        Walked.insert d (m'.after b.payload)
          (m'.setTags (m'.after b.payload) (b.size - need) false) := by
  rw [Walked.carve, h.blockSize_eq hb, Layout.wrappingSub_of_le hle]

/-- **Serving a request**: with the block out of its list, and the rest of it
tagged as free. -/
theorem gives_carve (hb : b ∈ χ.lists (SizeClass.ofSize b.size)) (hlarge : 16 ≤ need)
    (h8 : need % 8 = 0) (hle : need ≤ b.size) :
    (Walked.carve d b.payload need m).Gives (d.carve b.payload need m) (χ.free + 1) := by
  obtain ⟨hmem, hfree, -⟩ := h.listed _ b hb
  obtain ⟨pre, post, hbs⟩ := List.append_of_mem hmem
  rw [h.walked_carve_eq hmem hle, h.carve_eq hmem hle]
  by_cases hleft : b.size - need < 16
  · rw [if_pos hleft, if_pos hleft]
    exact Walked.gives_pure _
  · obtain ⟨hafter, hsplit, -⟩ := h.split hbs hb hlarge h8 hle hleft
    rw [if_neg hleft, if_neg hleft]
    dsimp only
    rw [hafter]
    refine (hsplit.gives_insert _).mono (Nat.succ_le_succ ?_)
    rw [free, free, hbs]
    simp [hfree]

theorem free_carve_le (hb : b ∈ χ.lists (SizeClass.ofSize b.size)) :
    (χ.carve b need).free ≤ χ.free := by
  obtain ⟨hmem, hfree, -⟩ := h.listed _ b hb
  obtain ⟨pre, post, hbs⟩ := List.append_of_mem hmem
  have hcarve : (χ.carve b need).blocks =
      pre ++ served b need :: ((leftOver b need).toList ++ post) := blocks_carve h.tiles hbs
  have hrest : ((leftOver b need).toList.countP fun b => !b.isAllocated) ≤ 1 := by
    refine List.countP_le_length.trans ?_
    cases leftOver b need <;> simp
  rw [free, free, hcarve, hbs]
  simp only [List.countP_append, List.countP_cons, served, hfree, Bool.not_true, Bool.not_false,
    Bool.false_eq_true, if_false, if_true]
  omega

/-- The chart with a block freed in its place has one free block more. -/
theorem free_unlock (hbs : χ.blocks = pre ++ b :: post) (halloc : b.isAllocated = true) :
    (χ.unlock b).free = χ.free + 1 := by
  rw [free, free, (h.unlock hbs halloc).1, hbs]
  simp only [List.countP_append, List.countP_cons, freed, halloc, Bool.not_true, Bool.not_false,
    Bool.false_eq_true, if_false, if_true]
  omega

/-- **Filing a block freed in its place.** -/
theorem gives_unlock (hb : b ∈ χ.blocks) (halloc : b.isAllocated = true) :
    (Walked.insert d b.payload (m.setTags b.payload b.size false)).Gives
      (d.insert b.payload (m.setTags b.payload b.size false)) (χ.free + 2) := by
  obtain ⟨pre, post, hbs⟩ := List.append_of_mem hb
  refine ((h.retag_freed hbs halloc).1.gives_insert _).mono (Nat.succ_le_succ ?_)
  rw [← h.free_unlock hbs halloc, free, free, (h.unlock hbs halloc).1, List.append_assoc]
  exact Nat.le_refl _

/-- **Merging what has been given back.** -/
theorem gives_release (hs : χ.Settled) (hb : b ∈ χ.blocks) (halloc : b.isAllocated = true) :
    let m' := d.insert b.payload (m.setTags b.payload b.size false)
    (Walked.merge d b.payload m').Gives (d.merge b.payload m') (χ.free + 2) := by
  intro m'
  obtain ⟨pre, post, hbs⟩ := List.append_of_mem hb
  obtain ⟨hblocks, hunlock, -⟩ := h.unlock hbs halloc
  have hmerge := hunlock.gives_merge (b := freed b) hblocks rfl (h.filed_unlock hs hbs halloc)
  rwa [h.free_unlock hbs halloc] at hmerge

theorem free_release_le (hs : χ.Settled) (hb : b ∈ χ.blocks) (halloc : b.isAllocated = true) :
    (χ.release b).2.free ≤ χ.free + 1 := by
  obtain ⟨pre, post, hbs⟩ := List.append_of_mem hb
  obtain ⟨hblocks, hunlock, -⟩ := h.unlock hbs halloc
  rw [← h.free_unlock hbs halloc]
  exact hunlock.free_merge_le (b := freed b) hblocks rfl (h.filed_unlock hs hbs halloc)

omit h in
/-- The chart with new bytes behind it has one free block more. -/
theorem free_append : (χ.append stop n).free = χ.free + 1 := by
  rw [free, free, Chart.append, blocks_file, List.countP_append]
  rfl

/-- **Appending new bytes.** -/
theorem gives_append (hlarge : 16 ≤ n) (h8 : n % 8 = 0) (hreach : stop + n < d.heads + 2 ^ 32) :
    (Walked.append d stop n m).Gives (d.append stop n m) (χ.free + 2) := by
  obtain ⟨hafter, hextend, -⟩ := h.extend hlarge h8 hreach
  rw [Walked.append, Directory.append, hafter]
  refine (hextend.gives_insert _).mono (Nat.succ_le_succ ?_)
  rw [free, free, List.countP_append]
  rfl

/-- **Merging them** with the last block. -/
theorem gives_grow (hs : χ.Settled) (hlarge : 16 ≤ n) (h8 : n % 8 = 0)
    (hreach : stop + n < d.heads + 2 ^ 32) :
    (Walked.merge d stop (d.append stop n m)).Gives (d.merge stop (d.append stop n m))
      (χ.free + 2) := by
  have hbs : (χ.append stop n).blocks = χ.blocks ++ fresh stop n :: [] := rfl
  have hmerge := (h.append hlarge h8 hreach).1.gives_merge (b := fresh stop n) hbs rfl
    (filed_append hs)
  rwa [free_append] at hmerge

theorem free_grow_le (hs : χ.Settled) (hlarge : 16 ≤ n) (h8 : n % 8 = 0)
    (hreach : stop + n < d.heads + 2 ^ 32) : (χ.grow stop n).2.free ≤ χ.free + 1 := by
  have hbs : (χ.append stop n).blocks = χ.blocks ++ fresh stop n :: [] := rfl
  have hle := (h.append hlarge h8 hreach).1.free_merge_le (b := fresh stop n) hbs rfl
    (filed_append hs)
  rwa [free_append] at hle

end Depicts

end Chart

end SegFit
