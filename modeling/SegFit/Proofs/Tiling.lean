import SegFit.Block
import Mathlib.Algebra.GroupWithZero.Nat
import Mathlib.Data.List.Chain
import Mathlib.Data.List.Nodup
/-!
# Blocks that tile a range

Between prologue and epilogue every byte belongs to one block. `Tiles`
says this of a sequence of blocks, apart from any memory, and
`Memory.HasBlock` says that a memory has the tags of one block. Where
both hold, the sequence is what `Memory.blocks` reads
(`blocks_eq_of_tiles`).
-/

namespace SegFit

theorem Tag.size_prologue : Tag.prologue.size = 8 := rfl

namespace Block

/-- The payload after a block. -/
def after (b : Block) : Nat := b.payload + b.size

/-- The tag of a block. -/
def tag (b : Block) : Tag := .of b.size b.isAllocated

/-- **A size that a block can have**: room for its tags and links, and
nothing left over by the alignment. -/
structure Proper (b : Block) : Prop where
  large : 16 ≤ b.size
  aligned : b.size % 8 = 0

end Block

/-- **Blocks from one payload to another**, each directly after the one
before. -/
def Tiles : Nat → Nat → List Block → Prop
  | p, stop, [] => p = stop
  | p, stop, b :: bs => b.payload = p ∧ b.Proper ∧ Tiles b.after stop bs

section Tiles

variable {p q stop : Nat} {a b : Block} {bs cs : List Block}

theorem tiles_append :
    Tiles p stop (bs ++ cs) ↔ ∃ q, Tiles p q bs ∧ Tiles q stop cs := by
  induction bs generalizing p with
  | nil => simp [Tiles]
  | cons b bs ih => simp [Tiles, ih, and_assoc]

theorem tiles_singleton : Tiles p stop [b] ↔ b.payload = p ∧ b.Proper ∧ b.after = stop := Iff.rfl

theorem Tiles.le (h : Tiles p stop bs) : p ≤ stop := by
  induction bs generalizing p with
  | nil => exact Nat.le_of_eq h
  | cons b bs ih =>
    obtain ⟨rfl, -, h⟩ := h
    have := ih h
    simp only [Block.after] at this
    omega

/-- A tiling with a block covers something. -/
theorem Tiles.lt (h : Tiles p stop (b :: bs)) : p < stop := by
  obtain ⟨rfl, hproper, hrest⟩ := h
  have hle := hrest.le
  have hlarge := hproper.large
  simp only [Block.after] at hle
  omega

/-- The last block ends where the tiling does. -/
theorem Tiles.after_eq (h : Tiles p stop (bs ++ [b])) : b.after = stop := by
  obtain ⟨q, -, hlast⟩ := tiles_append.1 h
  exact (tiles_singleton.1 hlast).2.2

/-- A block of a tiling lies inside it. -/
theorem Tiles.bounds (h : Tiles p stop bs) (hb : b ∈ bs) :
    p ≤ b.payload ∧ b.after ≤ stop ∧ b.Proper := by
  obtain ⟨pre, post, rfl⟩ := List.append_of_mem hb
  obtain ⟨q, hpre, rfl, hproper, hpost⟩ := tiles_append.1 h
  exact ⟨hpre.le, hpost.le, hproper⟩

/-- **Different blocks of a tiling do not overlap.** -/
theorem Tiles.apart (h : Tiles p stop bs) (ha : a ∈ bs) (hb : b ∈ bs) (hne : a ≠ b) :
    a.after ≤ b.payload ∨ b.after ≤ a.payload := by
  induction bs generalizing p with
  | nil => cases ha
  | cons c bs ih =>
    obtain ⟨-, -, hrest⟩ := h
    rw [List.mem_cons] at ha hb
    rcases ha with rfl | ha <;> rcases hb with rfl | hb
    · exact absurd rfl hne
    · exact .inl (hrest.bounds hb).1
    · exact .inr (hrest.bounds ha).1
    · exact ih hrest ha hb

/-- A block of a tiling is known by its payload. -/
theorem Tiles.eq_of_payload (h : Tiles p stop bs) (ha : a ∈ bs) (hb : b ∈ bs)
    (heq : a.payload = b.payload) : a = b := by
  by_contra hne
  have hla := (h.bounds ha).2.2.large
  have hlb := (h.bounds hb).2.2.large
  rcases h.apart ha hb hne with h' | h' <;> simp only [Block.after] at h' <;> omega

/-- A block of a tiling is known by where it ends. -/
theorem Tiles.eq_of_after (h : Tiles p stop bs) (ha : a ∈ bs) (hb : b ∈ bs)
    (heq : a.after = b.after) : a = b := by
  by_contra hne
  have hla := (h.bounds ha).2.2.large
  have hlb := (h.bounds hb).2.2.large
  rcases h.apart ha hb hne with h' | h' <;> simp only [Block.after] at h' heq <;> omega

theorem Tiles.nodup (h : Tiles p stop bs) : bs.Nodup := by
  induction bs generalizing p with
  | nil => exact List.nodup_nil
  | cons b bs ih =>
    obtain ⟨-, hproper, hrest⟩ := h
    rw [List.nodup_cons]
    refine ⟨?_, ih hrest⟩
    intro hmem
    have hle := (hrest.bounds hmem).1
    have := hproper.large
    simp only [Block.after] at hle
    omega

/-- **The sizes of a tiling add up** to the range it covers. -/
theorem Tiles.sum_eq (h : Tiles p stop bs) : p + (bs.map Block.size).sum = stop := by
  induction bs generalizing p with
  | nil => exact h
  | cons b bs ih =>
    obtain ⟨rfl, -, hrest⟩ := h
    rw [List.map_cons, List.sum_cons, ← ih hrest, Block.after, Nat.add_assoc]

theorem Tiles.sum_aligned (h : Tiles p stop bs) : (bs.map Block.size).sum % 8 = 0 := by
  induction bs generalizing p with
  | nil => rfl
  | cons b bs ih =>
    obtain ⟨-, hproper, hrest⟩ := h
    have h1 := hproper.aligned
    have h2 := ih hrest
    rw [List.map_cons, List.sum_cons]
    omega

/-- Payloads of a tiling are as far from its start as the alignment
allows. -/
theorem Tiles.aligned (h : Tiles p stop bs) (hb : b ∈ bs) : (b.payload - p) % 8 = 0 := by
  induction bs generalizing p with
  | nil => cases hb
  | cons c bs ih =>
    obtain ⟨rfl, hproper, hrest⟩ := h
    rcases List.mem_cons.1 hb with rfl | hb
    · simp
    · have h1 := ih hrest hb
      have h2 := (hrest.bounds hb).1
      have h3 := hproper.aligned
      simp only [Block.after] at h1 h2
      omega

end Tiles

namespace Memory

variable {m m' : Memory} {b : Block}

/-- **A memory has a block**: both its tags are there. -/
structure HasBlock (m : Memory) (b : Block) : Prop where
  header : m.header b.payload = b.tag
  footer : m.footer b.payload = b.tag

namespace HasBlock

variable (h : m.HasBlock b) (hb : b.Proper) (hlt : b.size < 2 ^ 32)

include h hb in
theorem isAllocated_eq : m.isAllocated b.payload = b.isAllocated := by
  unfold Memory.isAllocated
  rw [h.header, Block.tag, Tag.isAllocated_of hb.aligned]

include h hb hlt

theorem blockSize_eq : m.blockSize b.payload = b.size := by
  unfold blockSize
  rw [h.header, Block.tag, Tag.size_of hb.aligned hlt]

theorem after_eq : m.after b.payload = b.after := by
  unfold Memory.after
  rw [h.blockSize_eq hb hlt, Block.after]

theorem usableSize_eq : m.usableSize b.payload = b.size - 8 := by
  have := hb.large
  unfold usableSize
  rw [h.blockSize_eq hb hlt, Layout.wrappingSub_of_le (by simp only [Layout.tags]; omega)]

theorem footerAt_eq : m.footerAt b.payload = b.after - 8 := by
  unfold footerAt
  rw [h.blockSize_eq hb hlt, Block.after]

/-- The block after finds this one by its footer. -/
theorem footerBefore_eq : m.footerBefore b.after = b.tag := by
  have := h.footer
  rwa [Memory.footer, h.footerAt_eq hb hlt] at this

theorem before_eq : m.before b.after = b.payload := by
  unfold before
  rw [h.footerBefore_eq hb hlt, Block.tag, Tag.size_of hb.aligned hlt, Block.after]
  omega

/-- **Tags survive a write elsewhere.** -/
theorem congr (hheader : m'.word (b.payload - 4) = m.word (b.payload - 4))
    (hfooter : m'.word (b.after - 8) = m.word (b.after - 8)) : m'.HasBlock b := by
  have h1 : m'.header b.payload = m.header b.payload := congrArg Tag.mk hheader
  have h2 : m'.footer b.payload = m.footer b.payload := by
    rw [Memory.footer, Memory.footer, footerAt, footerAt, blockSize, blockSize, h1]
    exact congrArg Tag.mk (by
      have := h.footerAt_eq hb hlt
      unfold footerAt at this
      unfold blockSize at this
      rw [this, hfooter])
  exact ⟨h1.trans h.header, h2.trans h.footer⟩

end HasBlock

/-- **Writing the tags of a block makes one.** -/
theorem hasBlock_setTags (hb : b.Proper) (hp : 4 ≤ b.payload) (hlt : b.size < 2 ^ 32) :
    (m.setTags b.payload b.size b.isAllocated).HasBlock b := by
  have := hb.large
  exact ⟨header_setTags hp hb.aligned (by simp only [Layout.tags]; omega) hlt,
    footer_setTags hp hb.aligned (by simp only [Layout.tags]; omega) hlt⟩

/-- The two words that `setTags` writes. -/
theorem byte_setTags (hb : b.Proper) (hlt : b.size < 2 ^ 32) {a : Nat}
    (hheader : ¬ (b.payload - 4 ≤ a ∧ a < b.payload - 4 + 4))
    (hfooter : ¬ (b.after - 8 ≤ a ∧ a < b.after - 8 + 4)) :
    (m.setTags b.payload b.size b.isAllocated).byte a = m.byte a := by
  have hat : (setHeader b.payload (Tag.of b.size b.isAllocated) m).footerAt b.payload
      = b.after - 8 := by
    simp only [footerAt, blockSize, header_setHeader, Tag.size_of hb.aligned hlt, Block.after,
      Layout.tags]
  simp only [setTags, setFooter, hat]
  rw [byte_setWord, if_neg hfooter, setHeader, byte_setWord, if_neg (by simpa using hheader)]

/-- **Two blocks side by side**, the tags of the left one written
first. -/
theorem hasBlock_setTags_setTags {l r : Block} (hl : l.Proper) (hr : r.Proper)
    (hp : 4 ≤ l.payload) (hnext : r.payload = l.after) (hlt : l.size < 2 ^ 32)
    (hlt' : r.size < 2 ^ 32) :
    ((m.setTags l.payload l.size l.isAllocated).setTags r.payload r.size r.isAllocated).HasBlock l ∧
      ((m.setTags l.payload l.size l.isAllocated).setTags r.payload r.size r.isAllocated).HasBlock r
      ∧ ∀ a, ¬ (l.payload - 4 ≤ a ∧ a < r.after - 4) →
        ((m.setTags l.payload l.size l.isAllocated).setTags r.payload r.size r.isAllocated).byte a
          = m.byte a := by
  have hlarge := hl.large
  have hlarge' := hr.large
  have hleft := hasBlock_setTags (m := m) hl hp hlt
  have hpos : l.after = l.payload + l.size := rfl
  have hpos' : r.after = r.payload + r.size := rfl
  generalize hm₁ : m.setTags l.payload l.size l.isAllocated = m₁ at hleft
  have hframe : ∀ a, ¬ (r.payload - 4 ≤ a ∧ a < r.payload - 4 + 4) →
      ¬ (r.after - 8 ≤ a ∧ a < r.after - 8 + 4) →
      (m₁.setTags r.payload r.size r.isAllocated).byte a = m₁.byte a := fun a h1 h2 =>
    byte_setTags hr hlt' h1 h2
  refine ⟨hleft.congr hl hlt ?_ ?_, hasBlock_setTags hr (by omega) hlt', ?_⟩
  · exact word_congr fun a h1 h2 => hframe a (by omega) (by omega)
  · exact word_congr fun a h1 h2 => hframe a (by omega) (by omega)
  · intro a ha
    rw [hframe a (by omega) (by omega), ← hm₁]
    exact byte_setTags hl hlt (by omega) (by omega)

/-- **The blocks a tiled memory shows** are those of the tiling. -/
theorem blocks_eq_of_tiles {p stop : Nat} {bs : List Block} (h : Tiles p stop bs)
    (hm : ∀ b ∈ bs, m.HasBlock b) (hlt : ∀ b ∈ bs, b.size < 2 ^ 32)
    (hend : m.blockSize stop = 0) : m.blocks stop p = bs := by
  induction bs generalizing p with
  | nil =>
    obtain rfl := h
    unfold blocks
    rw [if_pos (Nat.le_refl _), if_pos hend]
  | cons b bs ih =>
    have hle := h.le
    obtain ⟨rfl, hproper, hrest⟩ := h
    have hb := hm b List.mem_cons_self
    have hsize := hb.blockSize_eq hproper (hlt b List.mem_cons_self)
    have := hproper.large
    rw [blocks, if_pos hle, if_neg (by omega), hsize, hb.isAllocated_eq hproper,
      hb.after_eq hproper (hlt b List.mem_cons_self),
      ih hrest (fun c hc => hm c (List.mem_cons_of_mem _ hc))
        fun c hc => hlt c (List.mem_cons_of_mem _ hc)]

/-- The blocks a memory shows are read off their headers. -/
theorem read_of_mem_blocks {stop p : Nat} (hb : b ∈ m.blocks stop p) :
    b = ⟨b.payload, m.blockSize b.payload, m.isAllocated b.payload⟩ := by
  fun_induction Memory.blocks m stop p with
  | case1 p hle hzero => cases hb
  | case2 p hle hzero ih =>
    rcases List.mem_cons.1 hb with rfl | hb
    · rfl
    · exact ih hb
  | case3 p hle => cases hb

end Memory

end SegFit
