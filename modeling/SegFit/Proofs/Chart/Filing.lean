import SegFit.Proofs.Chart.Undo
/-!
# Where a merged block is filed

A block that is given back goes through its list twice if it has free
neighbours: it is filed under its own size, taken out again with them, and
the whole is filed under the size of all. In the lists nothing of that is
left to see: the neighbours are gone, the whole is in front of the first
block at least as large, and all others are where they were
(`lists_release`). `Depicts.released` adds what becomes of the block
sequence. The bytes a heap grows by go the same way, with the last block as
their one neighbour (`lists_grow`, `Depicts.appended`).
-/

namespace SegFit

namespace Chart

variable {χ : Chart} {d : Directory} {m : Memory} {stop n : Nat} {b : Block}
  {parts l pre post : List Block}

/-- **A place in an ascending list**: smaller blocks before it, and larger
ones or equals behind. -/
theorem exists_orderedInsert (e : Block) (hsorted : l.Pairwise Block.SizeLE) :
    ∃ smaller larger, l = smaller ++ larger ∧
      l.orderedInsert Block.SizeLE e = smaller ++ e :: larger ∧
      (∀ x ∈ smaller, x.size < e.size) ∧ ∀ x ∈ larger, e.SizeLE x := by
  have hplace := List.orderedInsert_eq_take_drop Block.SizeLE e l
  have hinserted : (l.orderedInsert Block.SizeLE e).Pairwise Block.SizeLE :=
    List.Pairwise.orderedInsert e l hsorted
  rw [hplace, List.pairwise_append, List.pairwise_cons] at hinserted
  refine ⟨_, _, List.takeWhile_append_dropWhile.symm, hplace, ?_, hinserted.2.1.1⟩
  intro x hx
  have hnot := List.mem_takeWhile_imp hx
  exact Nat.not_le.1 (of_decide_eq_true hnot)

theorem lists_file (b : Block) (χ : Chart) (c : SizeClass) :
    (χ.file b).lists c =
      if SizeClass.ofSize b.size = c then (χ.lists c).orderedInsert Block.SizeLE b
      else χ.lists c := by
  by_cases hc : SizeClass.ofSize b.size = c
  · subst hc
    rw [lists_file_self, if_pos rfl]
  · rw [lists_file_of_ne (Ne.symm hc), if_neg hc]

section Classed

-- lists as a chart has them that depicts a memory
variable (hnodup : ∀ c, (χ.lists c).Nodup)
  (hclass : ∀ c, ∀ e ∈ χ.lists c, SizeClass.ofSize e.size = c)

include hnodup hclass

theorem lists_unfile (b : Block) (c : SizeClass) :
    (χ.unfile b).lists c = (χ.lists c).filter (· != b) := by
  by_cases hc : c = SizeClass.ofSize b.size
  · subst hc
    rw [lists_unfile_self, (hnodup _).erase_eq_filter]
  · rw [lists_unfile_of_ne hc]
    refine (List.filter_eq_self.2 fun e he => bne_iff_ne.2 ?_).symm
    rintro rfl
    exact hc (hclass c e he).symm

/-- What is left of a list when some blocks are taken out of theirs. -/
theorem lists_unfileAll (parts : List Block) (c : SizeClass) :
    (χ.unfileAll parts).lists c = (χ.lists c).filter (· ∉ parts) := by
  induction parts generalizing χ with
  | nil => simp [unfileAll]
  | cons b parts ih =>
    change ((χ.unfile b).unfileAll parts).lists c = _
    rw [ih (fun c => (hnodup c).sublist (sublist_unfile c))
      (fun c e he => hclass c e ((sublist_unfile c).subset he)), lists_unfile hnodup hclass,
      List.filter_filter]
    refine List.filter_congr fun e _ => ?_
    rw [Bool.and_comm, Bool.eq_iff_iff]
    simp

/-- **What filing a block and merging it makes of the lists.** -/
theorem lists_merge_file (b : Block) (c : SizeClass) :
    ((χ.file b).merge b).2.lists c =
      if SizeClass.ofSize ((χ.file b).merge b).1.size = c then
        ((χ.lists c).filter (· ∉ (χ.file b).absorbed b)).orderedInsert Block.SizeLE
          ((χ.file b).merge b).1
      else (χ.lists c).filter (· ∉ (χ.file b).absorbed b) := by
  unfold merge
  by_cases hnone : (χ.file b).absorbed b = []
  · rw [if_pos hnone, hnone, lists_file]
    simp
  · -- filed and taken out again, the block itself leaves no trace
    have hout : ((χ.file b).unfileAll (b :: (χ.file b).absorbed b)).lists c =
        (χ.lists c).filter (· ∉ (χ.file b).absorbed b) := by
      generalize (χ.file b).absorbed b = parts
      change (((χ.file b).unfile b).unfileAll parts).lists c = _
      rw [unfile_file]
      exact lists_unfileAll hnodup hclass parts c
    rw [if_neg hnone]
    unfold fuse
    dsimp only
    rw [lists_file, lists_swap, hout]

/-- **What giving a block back makes of the lists.** -/
theorem lists_release (c : SizeClass) :
    (χ.release b).2.lists c =
      if SizeClass.ofSize (χ.release b).1.size = c then
        ((χ.lists c).filter (· ∉ (χ.unlock b).absorbed (freed b))).orderedInsert Block.SizeLE
          (χ.release b).1
      else (χ.lists c).filter (· ∉ (χ.unlock b).absorbed (freed b)) :=
  lists_merge_file (χ := χ.swap b.payload [b] [freed b]) hnodup hclass (freed b) c

/-- **What growing makes of them.** -/
theorem lists_grow (stop n : Nat) (c : SizeClass) :
    (χ.grow stop n).2.lists c =
      if SizeClass.ofSize (χ.grow stop n).1.size = c then
        ((χ.lists c).filter (· ∉ (χ.append stop n).absorbed (fresh stop n))).orderedInsert
          Block.SizeLE (χ.grow stop n).1
      else (χ.lists c).filter (· ∉ (χ.append stop n).absorbed (fresh stop n)) :=
  lists_merge_file (χ := { χ with blocks := χ.blocks ++ [fresh stop n] }) hnodup hclass
    (fresh stop n) c

end Classed

/-- **What giving a block back makes of a chart.** Its free neighbours are
`left` and `right`, and `pre` and `post` are the blocks that stay. -/
structure Released (χ : Chart) (pre : List Block) (left : Option Block) (b : Block)
    (right : Option Block) (post : List Block) : Prop where
  before : χ.blocks = pre ++ left.toList ++ b :: (right.toList ++ post)
  free : ∀ x ∈ left.toList ++ right.toList, x.isAllocated = false
  last : ∀ x ∈ pre.getLast?, x.isAllocated = true
  first : ∀ x ∈ post.head?, x.isAllocated = true
  covers : (χ.release b).1 = whole (left.getD b).payload (left.toList ++ b :: right.toList)
  after : (χ.release b).2.blocks = pre ++ (χ.release b).1 :: post
  lists : ∀ c, (χ.release b).2.lists c =
    if SizeClass.ofSize (χ.release b).1.size = c then
      ((χ.lists c).filter (· ∉ left.toList ++ right.toList)).orderedInsert Block.SizeLE
        (χ.release b).1
    else (χ.lists c).filter (· ∉ left.toList ++ right.toList)

/-- **Giving a block back**, in full. -/
theorem Depicts.released (h : χ.Depicts d stop m) (hs : χ.Settled) (hb : b ∈ χ.blocks)
    (halloc : b.isAllocated = true) : ∃ pre left right post, χ.Released pre left b right post := by
  obtain ⟨pre, post, hbs⟩ := List.append_of_mem hb
  obtain ⟨hblocks, h1, -⟩ := h.unlock hbs halloc
  obtain ⟨pre, post, rfl, rfl, hlast, hfirst⟩ := h1.neighbours hblocks
  obtain ⟨hm, -⟩ := h1.merge hblocks rfl (h.filed_unlock hs hbs halloc)
  have hchain := hs.coalesced
  rw [hbs, List.isChain_append, List.isChain_cons] at hchain
  refine ⟨pre, _, _, post, hbs, fun x hx => isAllocated_of_mem_absorbed hx, hlast hchain.1,
    hfirst hchain.2.1.2, ?_, hm.blocks, fun c => lists_release h.nodup
      (fun c e he => (h.listed c e he).2.2) c⟩
  have hpayload : (((χ.unlock b).freeBefore (freed b)).getD (freed b)).payload =
      (((χ.unlock b).freeBefore (freed b)).getD b).payload := by
    cases (χ.unlock b).freeBefore (freed b) <;> rfl
  have hsum : ((freed b :: (χ.unlock b).absorbed (freed b)).map Block.size).sum =
      ((((χ.unlock b).freeBefore (freed b)).toList ++
        b :: ((χ.unlock b).freeAfter (freed b)).toList).map Block.size).sum := by
    simp only [absorbed, freed, List.map_append, List.map_cons, List.sum_append, List.sum_cons]
    omega
  unfold Chart.release
  rw [hm.covers, whole, whole, hpayload, hsum]

/-- **What growing makes of a chart.** `tail` is the last block if that is
free, and `pre` are the blocks that stay. -/
structure Appended (χ : Chart) (stop n : Nat) (pre : List Block) (tail : Option Block) : Prop where
  before : χ.blocks = pre ++ tail.toList
  free : ∀ x ∈ tail, x.isAllocated = false
  last : ∀ x ∈ pre.getLast?, x.isAllocated = true
  covers : (χ.grow stop n).1 =
    whole (tail.getD (fresh stop n)).payload (fresh stop n :: tail.toList)
  after : (χ.grow stop n).2.blocks = pre ++ [(χ.grow stop n).1]
  lists : ∀ c, (χ.grow stop n).2.lists c =
    if SizeClass.ofSize (χ.grow stop n).1.size = c then
      ((χ.lists c).filter (· ∉ tail.toList)).orderedInsert Block.SizeLE (χ.grow stop n).1
    else (χ.lists c).filter (· ∉ tail.toList)

/-- With a free block at the end the new bytes are added to that. -/
theorem Appended.grow_of_some {t : Block} (ha : χ.Appended stop n pre (some t)) :
    (χ.grow stop n).1 = ⟨t.payload, t.size + n, false⟩ := by
  rw [ha.covers, Nat.add_comm]
  rfl

/-- Without one they are a block of their own. -/
theorem Appended.grow_of_none (ha : χ.Appended stop n pre none) :
    (χ.grow stop n).1 = fresh stop n :=
  ha.covers

/-- **Growing**, in full. -/
theorem Depicts.appended (h : χ.Depicts d stop m) (hs : χ.Settled) (hlarge : 16 ≤ n)
    (h8 : n % 8 = 0) (hreach : stop + n < d.heads + 2 ^ 32) :
    ∃ pre tail, χ.Appended stop n pre tail := by
  obtain ⟨h1, -⟩ := h.append hlarge h8 hreach
  have hbs : (χ.append stop n).blocks = χ.blocks ++ fresh stop n :: [] := rfl
  obtain ⟨pre, post, hpre, hpost, hlast, -⟩ := h1.neighbours hbs
  -- there is nothing behind the new bytes
  obtain ⟨hnone, rfl⟩ := List.append_eq_nil_iff.1 hpost.symm
  have hbs' : (χ.append stop n).blocks =
      (pre ++ ((χ.append stop n).freeBefore (fresh stop n)).toList) ++
        fresh stop n :: (((χ.append stop n).freeAfter (fresh stop n)).toList ++ []) := by
    rw [hnone, ← hpre]
    exact hbs
  obtain ⟨hm, -⟩ := h1.merge hbs' rfl (filed_append hs)
  have habsorbed : (χ.append stop n).absorbed (fresh stop n) =
      ((χ.append stop n).freeBefore (fresh stop n)).toList := by
    rw [absorbed, hnone, List.append_nil]
  refine ⟨pre, (χ.append stop n).freeBefore (fresh stop n), hpre, fun x hx => ?_,
    hlast hs.coalesced, ?_, hm.blocks, fun c => ?_⟩
  · refine isAllocated_of_mem_absorbed (χ := χ.append stop n) (b := fresh stop n) ?_
    rw [habsorbed]
    exact Option.mem_toList.2 hx
  · rw [← habsorbed]
    exact hm.covers
  · rw [← habsorbed]
    exact lists_grow h.nodup (fun c e he => (h.listed c e he).2.2) stop n c

end Chart

end SegFit
