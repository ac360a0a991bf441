import SegFit.Proofs.Chart.Fit
import SegFit.Proofs.Chart.Growth
import SegFit.Proofs.Chart.Release
/-!
# Charts are the same wherever they lie

A chart moved to other addresses (`Chart.shift`) is changed by every
operation as the chart itself is. There is one lemma for each operation,
so that a heap can be described by a chart that begins at zero, whatever
the address of its region.
-/

namespace SegFit

/-- A block moved up by `k` bytes. -/
def Block.shift (k : Nat) (b : Block) : Block := { b with payload := b.payload + k }

namespace Block

variable {k : Nat} {b e : Block}

@[simp] theorem payload_shift : (b.shift k).payload = b.payload + k := rfl

@[simp] theorem size_shift : (b.shift k).size = b.size := rfl

@[simp] theorem isAllocated_shift : (b.shift k).isAllocated = b.isAllocated := rfl

@[simp] theorem after_shift : (b.shift k).after = b.after + k := Nat.add_right_comm ..

theorem shift_injective (k : Nat) : Function.Injective (Block.shift k) := by
  rintro ⟨p, s, a⟩ ⟨q, t, c⟩ h
  simp only [shift, Block.mk.injEq] at h
  obtain ⟨hp, rfl, rfl⟩ := h
  rw [Nat.add_right_cancel hp]

@[simp] theorem shift_inj : b.shift k = e.shift k ↔ b = e := (shift_injective k).eq_iff

end Block

namespace Chart

variable {χ : Chart} {k stop n need p : Nat} {b e : Block} {parts old new : List Block}

/-- A chart moved up by `k` bytes. -/
def shift (k : Nat) (χ : Chart) : Chart :=
  ⟨χ.blocks.map (Block.shift k), fun c => (χ.lists c).map (Block.shift k)⟩

@[simp] theorem blocks_shift : (χ.shift k).blocks = χ.blocks.map (Block.shift k) := rfl

@[simp] theorem lists_shift (c : SizeClass) :
    (χ.shift k).lists c = (χ.lists c).map (Block.shift k) := rfl

@[simp] theorem shift_empty : Chart.empty.shift k = Chart.empty := rfl

/-- A shifted chart is known by its blocks and its lists. -/
theorem shift_eq {χ' : Chart} (hblocks : χ'.blocks = χ.blocks.map (Block.shift k))
    (hlists : ∀ c, χ'.lists c = (χ.lists c).map (Block.shift k)) : χ' = χ.shift k :=
  congrArg₂ Chart.mk hblocks (funext hlists)

/-! ## Lists -/

/-- One list of a shifted chart replaced by another. -/
theorem update_shift (c : SizeClass) (l : List Block) :
    Function.update (χ.shift k).lists c (l.map (Block.shift k)) =
      fun e => (Function.update χ.lists c l e).map (Block.shift k) :=
  (Function.comp_update (List.map (Block.shift k)) χ.lists c l).symm

theorem file_shift : (χ.shift k).file (b.shift k) = (χ.file b).shift k := by
  have hinsert : ((χ.lists (SizeClass.ofSize b.size)).map (Block.shift k)).orderedInsert
      Block.SizeLE (b.shift k) =
        ((χ.lists (SizeClass.ofSize b.size)).orderedInsert Block.SizeLE b).map (Block.shift k) :=
    (List.map_orderedInsert Block.SizeLE Block.SizeLE (Block.shift k) _ b (fun _ _ => Iff.rfl)
      fun _ _ => Iff.rfl).symm
  refine congrArg (Chart.mk _) ?_
  rw [lists_shift, Block.size_shift, hinsert, update_shift]
  rfl

theorem unfile_shift : (χ.shift k).unfile (b.shift k) = (χ.unfile b).shift k := by
  refine congrArg (Chart.mk _) ?_
  rw [Block.size_shift, lists_shift, ← List.map_erase (Block.shift_injective k), update_shift]
  rfl

theorem unfileAll_shift :
    (χ.shift k).unfileAll (parts.map (Block.shift k)) = (χ.unfileAll parts).shift k := by
  induction parts generalizing χ with
  | nil => rfl
  | cons b parts ih =>
    rw [List.map_cons]
    change ((χ.shift k).unfile (b.shift k)).unfileAll _ = ((χ.unfile b).unfileAll parts).shift k
    rw [unfile_shift, ih]

/-! ## Blocks -/

theorem swap_shift : (χ.shift k).swap (p + k) (old.map (Block.shift k)) (new.map (Block.shift k)) =
    (χ.swap p old new).shift k := by
  refine shift_eq ?_ fun _ => rfl
  simp only [swap, blocks_shift, List.flatMap_map, List.map_flatMap]
  congr 1
  funext e
  simp only [Block.payload_shift, Nat.add_right_cancel_iff,
    List.mem_map_of_injective (Block.shift_injective k)]
  split
  · rfl
  · split <;> rfl

theorem whole_shift :
    whole (p + k) (parts.map (Block.shift k)) = (whole p parts).shift k := by
  simp only [whole, Block.shift, List.map_map]
  rfl

theorem fuse_shift :
    (χ.shift k).fuse (p + k) (parts.map (Block.shift k)) =
      ((χ.fuse p parts).1.shift k, (χ.fuse p parts).2.shift k) := by
  simp only [fuse, whole_shift, unfileAll_shift]
  rw [← List.map_singleton, swap_shift, file_shift]

theorem freeBefore_shift : (χ.shift k).freeBefore (b.shift k) =
    (χ.freeBefore b).map (Block.shift k) := by
  unfold freeBefore
  rw [blocks_shift, List.find?_map]
  congr 2
  funext e
  rw [Bool.eq_iff_iff]
  simp [Function.comp]

theorem freeAfter_shift : (χ.shift k).freeAfter (b.shift k) =
    (χ.freeAfter b).map (Block.shift k) := by
  unfold freeAfter
  rw [blocks_shift, List.find?_map]
  congr 2
  funext e
  rw [Bool.eq_iff_iff]
  simp [Function.comp]

theorem absorbed_shift : (χ.shift k).absorbed (b.shift k) =
    (χ.absorbed b).map (Block.shift k) := by
  rw [absorbed, absorbed, freeBefore_shift, freeAfter_shift, List.map_append, Option.toList_map,
    Option.toList_map]

theorem merge_shift : (χ.shift k).merge (b.shift k) =
    ((χ.merge b).1.shift k, (χ.merge b).2.shift k) := by
  have hstart : ((χ.shift k).freeBefore (b.shift k)).getD (b.shift k) =
      ((χ.freeBefore b).getD b).shift k := by
    rw [freeBefore_shift, Option.getD_map]
  unfold merge
  rw [hstart, absorbed_shift]
  by_cases hnone : χ.absorbed b = []
  · rw [if_pos hnone, if_pos (List.map_eq_nil_iff.2 hnone)]
  · rw [if_neg hnone, if_neg (mt List.map_eq_nil_iff.1 hnone), ← List.map_cons,
      Block.payload_shift, fuse_shift]

/-! ## The operations -/

theorem fresh_shift : fresh (stop + k) n = (fresh stop n).shift k := rfl

theorem append_shift : (χ.shift k).append (stop + k) n = (χ.append stop n).shift k := by
  unfold append
  rw [fresh_shift, ← file_shift]
  congr 1
  refine shift_eq ?_ fun _ => rfl
  rw [List.map_append]
  rfl

/-- **Growing.** -/
theorem grow_shift : (χ.shift k).grow (stop + k) n =
    ((χ.grow stop n).1.shift k, (χ.grow stop n).2.shift k) := by
  rw [grow, append_shift, fresh_shift, merge_shift]
  rfl

theorem served_shift : served (b.shift k) need = (served b need).shift k := rfl

theorem leftOver_shift : leftOver (b.shift k) need = (leftOver b need).map (Block.shift k) := by
  unfold leftOver
  rw [Block.size_shift]
  split
  · rfl
  · rw [Option.map_some, Block.payload_shift, Nat.add_right_comm]
    rfl

/-- **Serving a request.** -/
theorem carve_shift : (χ.shift k).carve (b.shift k) need = (χ.carve b need).shift k := by
  unfold carve
  rw [leftOver_shift, served_shift, unfile_shift, Block.payload_shift, Option.toList_map,
    ← List.map_cons, ← List.map_singleton, swap_shift]
  cases leftOver b need with
  | none => rfl
  | some r => exact file_shift

/-- **Giving a block back.** -/
theorem release_shift : (χ.shift k).release (b.shift k) =
    ((χ.release b).1.shift k, (χ.release b).2.shift k) := by
  have hfreed : freed (b.shift k) = (freed b).shift k := rfl
  have hunlock : (χ.shift k).unlock (b.shift k) = (χ.unlock b).shift k := by
    unfold unlock
    rw [hfreed, Block.payload_shift, ← List.map_singleton, ← List.map_singleton, swap_shift,
      file_shift]
  rw [release, hfreed, hunlock, merge_shift]
  rfl

/-- **Searching for a fit.** -/
theorem findFit_shift : (χ.shift k).findFit need = (χ.findFit need).map (Block.shift k) := by
  unfold findFit
  induction (SizeClass.ofSize need).andLarger with
  | nil => rfl
  | cons c cs ih =>
    have hfind : ((χ.shift k).lists c).find? (need ≤ ·.size) =
        ((χ.lists c).find? (need ≤ ·.size)).map (Block.shift k) := by
      rw [lists_shift, List.find?_map]
      rfl
    rw [List.findSome?_cons, List.findSome?_cons, hfind, ih]
    cases (χ.lists c).find? (need ≤ ·.size) <;> rfl

end Chart

end SegFit
