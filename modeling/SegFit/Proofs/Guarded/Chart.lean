import SegFit.Proofs.Chart.Carve
import SegFit.Proofs.Chart.Growth
import SegFit.Proofs.Chart.Release
import SegFit.Proofs.Guarded.Edits
/-!
# A chart refuses nothing

Where a chart depicts a memory, its blocks are within a link's reach and their
sizes are sizes that a tag can hold, those of merged blocks and of the two
parts of a carved one included: each is a block of a chart in turn. So a
guarded edit does there what the edit does.
-/

namespace SegFit

namespace Chart

variable {χ : Chart} {d : Directory} {m : Memory} {stop p q n need : Nat} {b : Block}

namespace Depicts

variable (h : χ.Depicts d stop m)

include h

/-- **The size of a block of a chart** can be written anywhere. -/
theorem setTags?_eq (hb : b ∈ χ.blocks) (p : Nat) (a : Bool) (m' : Memory) :
    m'.setTags? p b.size a = some (m'.setTags p b.size a) :=
  Memory.setTags?_eq (h.tiles.bounds hb).2.2.aligned (h.size_lt hb) p a m'

theorem usableSize?_eq (hb : b ∈ χ.blocks) :
    m.usableSize? b.payload = some (m.usableSize b.payload) := by
  have hlarge := (h.tiles.bounds hb).2.2.large
  refine Memory.usableSize?_eq ?_
  rw [h.blockSize_eq hb]
  simp only [Layout.tags]
  omega

theorem insert?_eq (hb : b ∈ χ.blocks) :
    d.insert? b.payload m = some (d.insert b.payload m) :=
  h.spells.insert?_eq h.reaches_of_listed (h.reaches hb)

theorem remove?_eq (hb : b ∈ χ.lists (SizeClass.ofSize b.size)) :
    d.remove? b.payload m = some (d.remove b.payload m) :=
  h.spells.remove?_eq h.reaches_of_listed (List.mem_map_of_mem hb)

/-! ## Merging -/

theorem removeAll?_eq {parts : List Block} (hnd : parts.Nodup)
    (hfiled : ∀ e ∈ parts, e ∈ χ.lists (SizeClass.ofSize e.size)) :
    (parts.map Block.payload).foldlM (fun m p => d.remove? p m) m =
      some ((parts.map Block.payload).foldl (fun m p => d.remove p m) m) := by
  induction parts generalizing χ m with
  | nil => rfl
  | cons b parts ih =>
    obtain ⟨hb, hnd⟩ := List.nodup_cons.1 hnd
    have hfirst := hfiled b List.mem_cons_self
    -- the other parts are still listed once the first is not
    have hrest : ∀ e ∈ parts, e ∈ (χ.unfile b).lists (SizeClass.ofSize e.size) := fun e he =>
      h.mem_unfile.2 ⟨hfiled e (List.mem_cons_of_mem _ he), fun heq => hb (heq ▸ he)⟩
    rw [List.map_cons, List.foldlM_cons, h.remove?_eq hfirst]
    exact ih (h.remove hfirst).1 hnd hrest

/-- **Fusing filed blocks** that cover a range: their sizes add up to the size
of a block of the chart that comes of it. -/
theorem fuse?_eq {pre mid post parts : List Block} (hbs : χ.blocks = pre ++ mid ++ post)
    (hpre : Tiles d.firstBlock p pre) (hmid : Tiles p q mid) (hpost : Tiles q stop post)
    (hne : mid ≠ []) (hperm : parts.Perm mid)
    (hfiled : ∀ e ∈ mid, e ∈ χ.lists (SizeClass.ofSize e.size)) :
    d.fuse? p (parts.map Block.payload) m = some (d.fuse p (parts.map Block.payload) m) := by
  have hremove := h.removeAll?_eq (h.nodup_parts hbs hperm) fun e he =>
    hfiled e (hperm.mem_iff.1 he)
  obtain ⟨hsize, hwhole, -⟩ := h.retag_whole hbs hpre hmid hpost hne hperm hfiled
  have hin : whole p parts ∈ pre ++ [whole p parts] ++ post := by simp
  rw [FreeLists.fuse, hsize]
  generalize (parts.map Block.payload).foldl (fun m p => d.remove p m) m = m₁ at *
  have hsum : ((parts.map Block.payload).map m₁.blockSize).sum = (whole p parts).size := by
    rw [← hsize, List.sum_eq_foldr, List.foldr_map]
  have hsum? : Layout.sum? ((parts.map Block.payload).map m₁.blockSize) =
      some (whole p parts).size := by
    rw [← hsum]
    exact Layout.sum?_eq (hsum ▸ hwhole.size_lt hin)
  simp only [FreeLists.fuse?, hremove, hsum?, hwhole.setTags?_eq hin, Option.bind_eq_bind,
    Option.bind_some]
  exact hwhole.insert?_eq (b := whole p parts) hin

/-- A guarded merge asks the same of its tags. -/
theorem merge?_eq_fuse? {pre post : List Block} (hbs : χ.blocks = pre ++ b :: post) :
    d.merge? b.payload m =
      if χ.absorbed b = [] then some (b.payload, m)
      else
        (d.fuse? ((χ.freeBefore b).getD b).payload ((b :: χ.absorbed b).map Block.payload) m).map
          (((χ.freeBefore b).getD b).payload, ·) := by
  unfold FreeLists.merge?
  unfold absorbed
  rcases h.before_cases hbs with ⟨hn₁, ha₁, -⟩ | ⟨pre', l, -, -, hs₁, he₁, hf₁⟩ <;>
    rcases h.after_cases hbs with ⟨hn₂, ha₂, -⟩ | ⟨r, post', -, -, hs₂, he₂, hf₂⟩
  · simp [hn₁, hn₂, ha₁, ha₂]
  · simp [hn₁, hs₂, ha₁, he₂, hf₂, Option.map_eq_bind]
  · simp [hs₁, hn₂, he₁, hf₁, ha₂, Option.map_eq_bind]
  · simp [hs₁, hs₂, he₁, hf₁, he₂, hf₂, Option.map_eq_bind]

/-- **Merging** a filed block with its free neighbours. -/
theorem merge?_eq {pre post : List Block} (hbs : χ.blocks = pre ++ b :: post)
    (hfree : b.isAllocated = false)
    (hfiled : ∀ e ∈ χ.blocks, e.isAllocated = false → e ∈ χ.lists (SizeClass.ofSize e.size)) :
    d.merge? b.payload m = some (d.merge b.payload m) := by
  obtain ⟨pre', post', rfl, rfl, -, -⟩ := h.neighbours hbs
  rw [h.merge?_eq_fuse? hbs, h.merge_eq hbs]
  by_cases hnone : χ.absorbed b = []
  · rw [if_pos hnone, if_pos hnone]
  · obtain ⟨mid, q, hmid, hpre, hcover, hpost, hne, hperm, hlisted⟩ :=
      h.run_of_absorbed hbs hfree hfiled
    rw [if_neg hnone, if_neg hnone, h.fuse?_eq hmid hpre hcover hpost hne hperm hlisted,
      Option.map_some]

/-! ## Serving, giving back and growing -/

/-- **Serving a request** from a filed free block that has room for it. -/
theorem carve?_eq (hb : b ∈ χ.lists (SizeClass.ofSize b.size)) (hlarge : 16 ≤ need)
    (h8 : need % 8 = 0) (hle : need ≤ b.size) :
    d.carve? b.payload need m = some (d.carve b.payload need m) := by
  have hmem := (h.listed _ b hb).1
  have hlt : need < Layout.wordRange := Nat.lt_of_le_of_lt hle (h.size_lt hmem)
  obtain ⟨pre, post, hbs⟩ := List.append_of_mem hmem
  rw [FreeLists.carve?, h.carve_eq hmem hle, h.blockSize_eq hmem, Layout.sub?_eq hle,
    h.remove?_eq hb]
  simp only [Option.bind_eq_bind, Option.bind_some]
  by_cases hleft : b.size - need < 16
  · rw [if_pos hleft, if_pos hleft, h.setTags?_eq hmem]
  · obtain ⟨hafter, hsplit, -⟩ := h.split hbs hb hlarge h8 hle hleft
    obtain ⟨r, hr⟩ : ∃ r : Block, r = ⟨b.payload + need, b.size - need, false⟩ := ⟨_, rfl⟩
    rw [← hr] at hsplit
    have hin : r ∈ pre ++ [⟨b.payload, need, true⟩, r] ++ post := by simp
    have htags := hsplit.setTags?_eq hin r.payload false
    have hinsert := hsplit.insert?_eq hin
    rw [hr] at htags hinsert
    rw [if_neg hleft, if_neg hleft, Memory.setTags?_eq h8 hlt, Option.bind_some, hafter, htags,
      Option.bind_some]
    exact hinsert

/-- **Freeing a block in its place** and filing it. -/
theorem unlock?_eq (hb : b ∈ χ.blocks) (halloc : b.isAllocated = true) :
    d.insert? b.payload (m.setTags b.payload b.size false) =
      some (d.insert b.payload (m.setTags b.payload b.size false)) := by
  obtain ⟨pre, post, hbs⟩ := List.append_of_mem hb
  have hfreed := (h.retag_freed hbs halloc).1
  have hin : freed b ∈ pre ++ [freed b] ++ post := by simp
  exact hfreed.insert?_eq (b := freed b) hin

/-- **Merging what has been given back.** -/
theorem release?_eq (hs : χ.Settled) (hb : b ∈ χ.blocks) (halloc : b.isAllocated = true) :
    let m' := d.insert b.payload (m.setTags b.payload b.size false)
    d.merge? b.payload m' = some (d.merge b.payload m') := by
  obtain ⟨pre, post, hbs⟩ := List.append_of_mem hb
  obtain ⟨hblocks, hunlock, -⟩ := h.unlock hbs halloc
  exact hunlock.merge?_eq (b := freed b) hblocks rfl (h.filed_unlock hs hbs halloc)

/-- **Appending new bytes** that a link reaches. -/
theorem append?_eq (hlarge : 16 ≤ n) (h8 : n % 8 = 0) (hreach : stop + n < d.heads + 2 ^ 32) :
    d.append? stop n m = some (d.append stop n m) := by
  obtain ⟨hafter, hextend, -⟩ := h.extend hlarge h8 hreach
  have hin : fresh stop n ∈ χ.blocks ++ [fresh stop n] := by simp
  have hlt : n < Layout.wordRange := hextend.size_lt hin
  rw [Directory.append?, Directory.append, Memory.setTags?_eq h8 hlt, Option.bind_eq_bind,
    Option.bind_some, hafter]
  exact hextend.insert?_eq (b := fresh stop n) hin

/-- **Merging them** with the last block. -/
theorem grow?_eq (hs : χ.Settled) (hlarge : 16 ≤ n) (h8 : n % 8 = 0)
    (hreach : stop + n < d.heads + 2 ^ 32) :
    d.merge? stop (d.append stop n m) = some (d.merge stop (d.append stop n m)) := by
  have hbs : (χ.append stop n).blocks = χ.blocks ++ fresh stop n :: [] := rfl
  exact (h.append hlarge h8 hreach).1.merge?_eq (b := fresh stop n) hbs rfl
    (filed_append hs)

end Depicts

end Chart

end SegFit
