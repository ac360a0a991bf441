import SegFit.Proofs.Chart.Canonical
import SegFit.Proofs.Chart.Fit
import SegFit.Proofs.Chart.Growth
import SegFit.Proofs.Chart.Release
/-!
# Serving a request and taking it back

A chart that serves a request from its best fit, and then releases the
served block, is the chart it was, with every list in its old order
(`Depicts.release_carve`). The block takes back what it left over, and is
filed in front of all blocks of its size, which is where the best fit was.
A chart that has grown for want of a fit has the new block as its best fit
(`Depicts.findFit_grow`), so the same holds from there on.
-/

namespace SegFit

namespace Chart

variable {χ : Chart} {d : Directory} {m : Memory} {stop n need : Nat} {b e : Block}
  {pre post : List Block}

instance : Std.Refl Block.SizeLE := ⟨fun b => Nat.le_refl b.size⟩

/-- Filing a block is undone by taking it out. -/
theorem unfile_file (b : Block) (χ : Chart) : (χ.file b).unfile b = χ := by
  refine congrArg (Chart.mk χ.blocks) (funext fun c => ?_)
  change ((χ.file b).unfile b).lists c = χ.lists c
  by_cases hc : c = SizeClass.ofSize b.size
  · subst hc
    rw [lists_unfile_self, lists_file_self, List.erase_orderedInsert]
  · rw [lists_unfile_of_ne hc, lists_file_of_ne hc]

/-- A block goes between the smaller ones and the others. -/
theorem orderedInsert_between (hpre : ∀ e ∈ pre, e.size < b.size) (hpost : ∀ e ∈ post, b.SizeLE e) :
    (pre ++ post).orderedInsert Block.SizeLE b = pre ++ b :: post := by
  induction pre with
  | nil =>
    cases post with
    | nil => rfl
    | cons e post => exact List.orderedInsert_cons_of_le _ _ (hpost e List.mem_cons_self)
  | cons e pre ih =>
    have hlt := hpre e List.mem_cons_self
    have hnot : ¬ b.SizeLE e := Nat.not_le.2 hlt
    rw [List.cons_append, List.orderedInsert_of_not_le _ _ hnot,
      ih fun e he => hpre e (List.mem_cons_of_mem _ he), List.cons_append]

/-- **The first block of its size** goes back to where it was taken out. -/
theorem file_unfile (hlist : χ.lists (SizeClass.ofSize b.size) = pre ++ b :: post)
    (hpre : ∀ e ∈ pre, e.size < b.size) (hsorted : (pre ++ b :: post).Pairwise Block.SizeLE) :
    (χ.unfile b).file b = χ := by
  have hb : b ∉ pre := fun hin => Nat.lt_irrefl _ (hpre b hin)
  have hpost : ∀ e ∈ post, b.SizeLE e :=
    (List.pairwise_cons.1 (List.pairwise_append.1 hsorted).2.1).1
  refine congrArg (Chart.mk χ.blocks) (funext fun c => ?_)
  change ((χ.unfile b).file b).lists c = χ.lists c
  by_cases hc : c = SizeClass.ofSize b.size
  · subst hc
    rw [lists_file_self, lists_unfile_self, hlist, List.erase_append_right _ hb,
      List.erase_cons_head, orderedInsert_between hpre hpost]
  · rw [lists_file_of_ne hc, lists_unfile_of_ne hc]

/-! ## The parts of a block -/

theorem isAllocated_of_leftOver (hl : leftOver b need = some e) : e.isAllocated = false := by
  unfold leftOver at hl
  split at hl
  · cases hl
  · cases hl
    rfl

/-- A block that is served whole comes back whole. -/
theorem freed_served_of_none (hl : leftOver b need = none) (hfree : b.isAllocated = false) :
    freed (served b need) = b := by
  have hsmall : b.size - need < 16 := by
    by_contra hlarge
    rw [leftOver, if_neg hlarge] at hl
    cases hl
  rw [freed, served, if_pos hsmall, ← hfree]

/-- Served and left over make up the block. -/
theorem whole_served_of_some (hl : leftOver b need = some e) (hle : need ≤ b.size)
    (hfree : b.isAllocated = false) : whole b.payload [freed (served b need), e] = b := by
  have hlarge : ¬ b.size - need < 16 := fun hsmall => by
    rw [leftOver, if_pos hsmall] at hl
    cases hl
  rw [leftOver, if_neg hlarge] at hl
  cases hl
  simp only [whole, freed, served, if_neg hlarge, List.map_cons, List.map_nil, List.sum_cons,
    List.sum_nil, Nat.add_zero, Nat.add_sub_cancel' hle, ← hfree]

namespace Depicts

variable (h : χ.Depicts d stop m)

include h

/-- The best fit goes back to where it was taken out. -/
theorem file_unfile_of_findFit (hs : χ.Settled) (hfit : χ.findFit need = some b) :
    (χ.unfile b).file b = χ := by
  obtain ⟨-, hle⟩ := h.mem_of_findFit hfit
  obtain ⟨-, pre, post, hlist, hpre⟩ := h.bestFit hs hfit
  refine file_unfile hlist (fun e he => Nat.lt_of_lt_of_le (hpre e he) hle) ?_
  rw [← hlist]
  exact hs.sorted _

/-- **The only free neighbour** of what was just served is what it left
over. -/
theorem neighbours_served (hs : χ.Settled) (hb : b ∈ χ.lists (SizeClass.ofSize b.size))
    (hle : need ≤ b.size) (hlarge : 16 ≤ need) (h8 : need % 8 = 0) :
    ((χ.carve b need).unlock (served b need)).freeBefore (freed (served b need)) = none ∧
      ((χ.carve b need).unlock (served b need)).freeAfter (freed (served b need))
        = leftOver b need := by
  obtain ⟨hmem, hfree, -⟩ := h.listed _ b hb
  obtain ⟨pre, post, hbs⟩ := List.append_of_mem hmem
  have hcarve : (χ.carve b need).blocks = pre ++ served b need ::
      ((leftOver b need).toList ++ post) := blocks_carve h.tiles hbs
  obtain ⟨h1, -⟩ := h.serve hs hb hlarge h8 hle
  obtain ⟨hblocks, h2, -⟩ := h1.unlock hcarve rfl
  -- no free block touched the free block it was served from
  have hchain := hs.coalesced
  rw [hbs, List.isChain_append, List.isChain_cons] at hchain
  obtain ⟨-, ⟨hright, -⟩, hleft⟩ := hchain
  constructor
  · rcases h2.before_cases hblocks with ⟨hnone, -⟩ | ⟨pre', l, rfl, hl, -⟩
    · exact hnone
    · exact absurd ((hleft l (by simp) b rfl).left hfree) (by simp [hl])
  · rcases h2.after_cases hblocks with ⟨hnone, -, hfirst⟩ | ⟨r, post', hpost, hr, hsome, -⟩ <;>
      cases hl : leftOver b need with
      | none => _
      | some e => _
    · exact hnone
    · rw [hl] at hfirst
      exact absurd (hfirst e rfl) (by simp [isAllocated_of_leftOver hl])
    · rw [hl] at hpost
      have halloc := (hright r (by rw [show post = r :: post' from hpost]; rfl)).right hfree
      exact absurd halloc (by simp [hr])
    · rw [hl] at hpost
      rw [hsome, (List.cons.inj hpost).1]

/-- The lists after taking back what was just served. -/
theorem lists_release_carve (hs : χ.Settled) (hfit : χ.findFit need = some b)
    (hlarge : 16 ≤ need) (h8 : need % 8 = 0) :
    ((χ.carve b need).release (served b need)).2.lists = χ.lists := by
  obtain ⟨hb, hle⟩ := h.mem_of_findFit hfit
  have hfree := (h.listed _ b hb).2.1
  have hback := h.file_unfile_of_findFit hs hfit
  obtain ⟨hbefore, hafter⟩ := h.neighbours_served hs hb hle hlarge h8
  unfold Chart.release
  unfold Chart.merge
  unfold absorbed
  rw [hbefore, hafter]
  cases hl : leftOver b need with
  | none =>
    -- it was served whole
    have hwhole : freed (served b need) = b := freed_served_of_none hl hfree
    have hnil : (none : Option Block).toList ++ (none : Option Block).toList = [] := rfl
    rw [if_pos hnil, Chart.unlock, hwhole, Chart.carve, hl]
    change ((χ.unfile b).file b).lists = χ.lists
    rw [hback]
  | some r =>
    -- the two parts leave their lists again, and the whole comes back
    have hwhole : whole b.payload [freed (served b need), r] = b :=
      whole_served_of_some hl hle hfree
    rw [if_neg (by simp), Chart.unlock, Chart.carve, hl]
    change (((((((χ.unfile b).file r).file (freed (served b need))).unfile
      (freed (served b need))).unfile r).file (whole b.payload [freed (served b need), r]))).lists
        = χ.lists
    rw [hwhole, unfile_file, unfile_file, hback]

/-- **Taking back what was just served** leaves the chart as it was. -/
theorem release_carve (hs : χ.Settled) (hfit : χ.findFit need = some b) (hlarge : 16 ≤ need)
    (h8 : need % 8 = 0) : ((χ.carve b need).release (served b need)).2 = χ := by
  obtain ⟨hb, hle⟩ := h.mem_of_findFit hfit
  obtain ⟨h1, hs1, -, hnew, hserved⟩ := h.serve hs hb hlarge h8 hle
  obtain ⟨pre, post, hbs⟩ := List.append_of_mem ((hserved _ rfl).2 (.inr rfl))
  obtain ⟨h2, hs2, -, hreleased⟩ := h1.release hs1 hbs rfl
  refine congrArg₂ Chart.mk ?_ (h.lists_release_carve hs hfit hlarge h8)
  -- the blocks are as they were, since the allocated ones are
  refine h2.tiles.eq_of_isAllocated h.tiles hs2.coalesced hs.coalesced fun e he => ?_
  rw [hreleased e he, hserved e he]
  constructor
  · rintro ⟨hin | rfl, hne⟩
    · exact hin
    · exact absurd rfl hne
  · exact fun hin => ⟨.inl hin, fun heq => hnew (heq ▸ hin)⟩

/-- **After growing for want of a fit** the new block is the fit. -/
theorem findFit_grow (hs : χ.Settled) (hlarge : 16 ≤ n) (h8 : n % 8 = 0)
    (hreach : stop + n < d.heads + 2 ^ 32) (hnone : χ.findFit need = none) (hle : need ≤ n) :
    (χ.grow stop n).2.findFit need = some (χ.grow stop n).1 := by
  obtain ⟨-, h1, hs1, -, hgrows⟩ := h.grow hs hlarge h8 hreach
  obtain ⟨hin, hfree, -⟩ := h1.listed _ _ hgrows.filed
  have hnew := hgrows.large
  cases hfit : (χ.grow stop n).2.findFit need with
  | none =>
    have := (h1.findFit_eq_none_iff hs1).1 hfit _ hin hfree
    omega
  | some e =>
    -- an older free block is too small
    obtain ⟨hfiled, hlarge'⟩ := h1.mem_of_findFit hfit
    obtain ⟨hmem, hfree', -⟩ := h1.listed _ e hfiled
    rcases h.mem_blocks_grow hs hlarge h8 hreach hmem with hold | heq
    · have := (h.findFit_eq_none_iff hs).1 hnone e hold hfree'
      omega
    · rw [heq]

end Depicts

end Chart

end SegFit
