import SegFit.Directory
import SegFit.Proofs.FreeLists.Represents
import SegFit.Proofs.Tiling

/-!
# Charts

A chart of a heap is its sequence of blocks and its ten lists, without
the memory they are kept in. `Depicts` says that a memory is the one a
chart describes: the blocks tile it and have their tags, prologue and
epilogue are in place, and the directory spells the lists. It asks
nothing of which free blocks are listed, so it holds also in the middle
of an operation; `Settled` is what holds between operations.
-/

namespace SegFit

/-- **The order of a list**: one block is no larger than the other. -/
def Block.SizeLE (a b : Block) : Prop := a.size ≤ b.size

instance : DecidableRel Block.SizeLE := fun a b => inferInstanceAs (Decidable (a.size ≤ b.size))

instance : Std.Total Block.SizeLE := ⟨fun a b => Nat.le_total a.size b.size⟩

instance : IsTrans Block Block.SizeLE := ⟨fun _ _ _ => Nat.le_trans⟩

/-- **Not both free**: what two adjacent blocks should be. -/
def Block.Parted (a b : Block) : Prop := a.isAllocated = true ∨ b.isAllocated = true

section Parted

variable {a b : Block}

/-- What is allocated is not free. -/
theorem Block.ne_of_isAllocated (ha : a.isAllocated = true) (hb : b.isAllocated = false) :
    a ≠ b := by
  rintro rfl
  exact Bool.false_ne_true (hb.symm.trans ha)

theorem Block.Parted.left (h : a.Parted b) (hb : b.isAllocated = false) : a.isAllocated = true :=
  h.resolve_right (by rw [hb]; exact Bool.false_ne_true)

theorem Block.Parted.right (h : a.Parted b) (ha : a.isAllocated = false) : b.isAllocated = true :=
  h.resolve_left (by rw [ha]; exact Bool.false_ne_true)

end Parted

/-- The blocks of a heap, in order, and the blocks in each of its
lists. -/
structure Chart where
  blocks : List Block
  lists : SizeClass → List Block

namespace Chart

variable {χ : Chart} {d : Directory} {m m' : Memory} {stop p q : Nat} {b : Block}

/-- The chart of a heap without blocks. -/
def empty : Chart := ⟨[], fun _ => []⟩

/-- The chart with a block filed in front of the first one of its class
that is at least as large. -/
def file (b : Block) (χ : Chart) : Chart :=
  let c := SizeClass.ofSize b.size
  { χ with lists := Function.update χ.lists c ((χ.lists c).orderedInsert Block.SizeLE b) }

/-- The chart with a block taken out of its list. -/
def unfile (b : Block) (χ : Chart) : Chart :=
  let c := SizeClass.ofSize b.size
  { χ with lists := Function.update χ.lists c ((χ.lists c).erase b) }

/-- The chart with a run of blocks, of which the first is at `start`,
replaced by others. -/
def swap (start : Nat) (old new : List Block) (χ : Chart) : Chart :=
  { χ with
    blocks := χ.blocks.flatMap fun b =>
      if b.payload = start then new else if b ∈ old then [] else [b] }

/-- **The chart of a memory.** -/
structure Depicts (χ : Chart) (d : Directory) (stop : Nat) (m : Memory) : Prop where
  tiles : Tiles d.firstBlock stop χ.blocks
  /-- Links reach everywhere, and tags hold every size. -/
  reach : stop < d.heads + 2 ^ 32
  hasBlock : ∀ b ∈ χ.blocks, m.HasBlock b
  prologueHeader : m.word (d.heads + 44) = Tag.prologue.raw
  prologueFooter : m.word d.origin = Tag.prologue.raw
  epilogue : m.word (stop - 4) = Tag.epilogue.raw
  spells : d.Spells m fun c => (χ.lists c).map Block.payload
  listed : ∀ c, ∀ b ∈ χ.lists c,
    b ∈ χ.blocks ∧ b.isAllocated = false ∧ SizeClass.ofSize b.size = c

/-- **Between operations** every free block is in the list of its class,
lists ascend by size, and no two free blocks touch. -/
structure Settled (χ : Chart) : Prop where
  complete : ∀ b ∈ χ.blocks, b.isAllocated = false → b ∈ χ.lists (SizeClass.ofSize b.size)
  sorted : ∀ c, (χ.lists c).Pairwise Block.SizeLE
  coalesced : χ.blocks.IsChain Block.Parted

/-! ## The lists after filing -/

@[simp] theorem blocks_file : (χ.file b).blocks = χ.blocks := rfl

@[simp] theorem blocks_unfile : (χ.unfile b).blocks = χ.blocks := rfl

theorem lists_file_self :
    (χ.file b).lists (SizeClass.ofSize b.size) =
      (χ.lists (SizeClass.ofSize b.size)).orderedInsert Block.SizeLE b :=
  Function.update_self ..

theorem lists_file_of_ne {c : SizeClass} (hc : c ≠ SizeClass.ofSize b.size) :
    (χ.file b).lists c = χ.lists c :=
  Function.update_of_ne hc ..

theorem lists_unfile_self :
    (χ.unfile b).lists (SizeClass.ofSize b.size) =
      (χ.lists (SizeClass.ofSize b.size)).erase b :=
  Function.update_self ..

theorem lists_unfile_of_ne {c : SizeClass} (hc : c ≠ SizeClass.ofSize b.size) :
    (χ.unfile b).lists c = χ.lists c :=
  Function.update_of_ne hc ..

theorem mem_file {e : Block} {c : SizeClass} :
    e ∈ (χ.file b).lists c ↔ e ∈ χ.lists c ∨ e = b ∧ SizeClass.ofSize b.size = c := by
  by_cases hc : c = SizeClass.ofSize b.size
  · subst hc
    rw [lists_file_self, List.mem_orderedInsert]
    tauto
  · rw [lists_file_of_ne hc]
    simp [Ne.symm hc]

theorem sorted_file (h : ∀ c, (χ.lists c).Pairwise Block.SizeLE) (c : SizeClass) :
    ((χ.file b).lists c).Pairwise Block.SizeLE := by
  by_cases hc : c = SizeClass.ofSize b.size
  · subst hc
    rw [lists_file_self]
    exact List.Pairwise.orderedInsert b _ (h _)
  · rw [lists_file_of_ne hc]
    exact h c

theorem sublist_unfile (c : SizeClass) : ((χ.unfile b).lists c).Sublist (χ.lists c) := by
  by_cases hc : c = SizeClass.ofSize b.size
  · subst hc
    rw [lists_unfile_self]
    exact List.erase_sublist
  · rw [lists_unfile_of_ne hc]

/-- Blocks beside a run are not swapped. -/
theorem flatMap_swap_of_not_mem {start : Nat} {old new l : List Block}
    (hl : ∀ e ∈ l, e.payload ≠ start ∧ e ∉ old) :
    (l.flatMap fun e => if e.payload = start then new else if e ∈ old then [] else [e]) = l := by
  induction l with
  | nil => rfl
  | cons e l ih =>
    obtain ⟨hne, hnot⟩ := hl e List.mem_cons_self
    rw [List.flatMap_cons, if_neg hne, if_neg hnot, ih fun e he => hl e (List.mem_cons_of_mem _ he)]
    rfl

/-- The blocks of a run but its first leave nothing. -/
theorem flatMap_swap_of_mem {start : Nat} {old new l : List Block}
    (hl : ∀ e ∈ l, e.payload ≠ start ∧ e ∈ old) :
    (l.flatMap fun e => if e.payload = start then new else if e ∈ old then [] else [e]) = [] := by
  induction l with
  | nil => rfl
  | cons e l ih =>
    obtain ⟨hne, hin⟩ := hl e List.mem_cons_self
    rw [List.flatMap_cons, if_neg hne, if_pos hin, ih fun e he => hl e (List.mem_cons_of_mem _ he)]
    rfl

/-- **A swap replaces a run** of a tiling in place. -/
theorem swap_blocks {pre mid old new post : List Block}
    (hbs : χ.blocks = pre ++ mid ++ post) (h : Tiles p stop χ.blocks)
    (hne : mid.head?.map Block.payload = some q) (hold : ∀ e, e ∈ old ↔ e ∈ mid) :
    (χ.swap q old new).blocks = pre ++ new ++ post := by
  obtain ⟨a, rest, rfl⟩ : ∃ a rest, mid = a :: rest := by
    cases mid with
    | nil => cases hne
    | cons a rest => exact ⟨a, rest, rfl⟩
  obtain rfl : a.payload = q := Option.some.inj hne
  have hnd := h.nodup
  rw [hbs] at hnd
  -- only the first block of the run is at its payload
  have hfirst : ∀ e ∈ χ.blocks, e ≠ a → e.payload ≠ a.payload := fun e he hne heq =>
    hne (h.eq_of_payload he (by rw [hbs]; simp) heq)
  have hbeside : ∀ e ∈ χ.blocks, e ∉ a :: rest → e.payload ≠ a.payload ∧ e ∉ old :=
    fun e he hnot => ⟨hfirst e he fun heq => hnot (heq ▸ List.mem_cons_self), by rwa [hold]⟩
  have hpre : ∀ e ∈ pre, e.payload ≠ a.payload ∧ e ∉ old := fun e he =>
    hbeside e (by rw [hbs]; simp [he]) fun hin =>
      List.disjoint_of_nodup_append hnd.of_append_left he hin
  have hpost : ∀ e ∈ post, e.payload ≠ a.payload ∧ e ∉ old := fun e he =>
    hbeside e (by rw [hbs]; simp [he]) fun hin =>
      List.disjoint_of_nodup_append hnd (List.mem_append_right _ hin) he
  have hrest : ∀ e ∈ rest, e.payload ≠ a.payload ∧ e ∈ old := fun e he => by
    refine ⟨hfirst e (by rw [hbs]; simp [he]) ?_, (hold e).2 (List.mem_cons_of_mem _ he)⟩
    rintro rfl
    exact (List.nodup_cons.1 hnd.of_append_left.of_append_right).1 he
  rw [swap, hbs, List.flatMap_append, List.flatMap_append, List.flatMap_cons, if_pos rfl,
    flatMap_swap_of_not_mem hpre, flatMap_swap_of_not_mem hpost, flatMap_swap_of_mem hrest,
    List.append_nil]

theorem swap_eq {pre mid old new post : List Block} (hbs : χ.blocks = pre ++ mid ++ post)
    (h : Tiles p stop χ.blocks) (hne : mid.head?.map Block.payload = some q)
    (hold : ∀ e, e ∈ old ↔ e ∈ mid) : χ.swap q old new = ⟨pre ++ new ++ post, χ.lists⟩ :=
  congrArg (Chart.mk · χ.lists) (swap_blocks hbs h hne hold)

@[simp] theorem lists_swap (start : Nat) (old new : List Block) :
    (χ.swap start old new).lists = χ.lists := rfl

namespace Depicts

variable (h : χ.Depicts d stop m)

include h

/-- Where a block of a chart can lie, and how large it can be. -/
theorem bounds (hb : b ∈ χ.blocks) :
    d.heads + 56 ≤ b.payload ∧ b.after ≤ stop ∧ 16 ≤ b.size ∧ b.size < 2 ^ 32 := by
  obtain ⟨h1, h2, h3⟩ := h.tiles.bounds hb
  have := h3.large
  have := h.reach
  rw [d.firstBlock_eq] at h1
  refine ⟨h1, h2, h3.large, ?_⟩
  simp only [Block.after] at h2
  omega

theorem header_origin : m.header d.origin = .prologue := by
  rw [Memory.header, d.origin_sub_word]
  exact congrArg Tag.mk h.prologueHeader

theorem size_lt (hb : b ∈ χ.blocks) : b.size < 2 ^ 32 := (h.bounds hb).2.2.2

theorem blockSize_eq (hb : b ∈ χ.blocks) : m.blockSize b.payload = b.size :=
  (h.hasBlock b hb).blockSize_eq (h.tiles.bounds hb).2.2 (h.size_lt hb)

theorem isAllocated_eq (hb : b ∈ χ.blocks) : m.isAllocated b.payload = b.isAllocated :=
  (h.hasBlock b hb).isAllocated_eq (h.tiles.bounds hb).2.2

theorem usableSize_eq (hb : b ∈ χ.blocks) : m.usableSize b.payload = b.size - 8 :=
  (h.hasBlock b hb).usableSize_eq (h.tiles.bounds hb).2.2 (h.size_lt hb)

/-- **The blocks of a chart lie apart**, from each other and from the heads,
which are below all of them. -/
theorem separate : d.Separate m fun p => ∃ b ∈ χ.blocks, b.payload = p := by
  refine ⟨?_, ?_, ?_, ?_, ?_⟩
  · rintro p ⟨b, hb, rfl⟩
    have := (h.bounds hb).1
    simp only [Layout.word]
    omega
  · rintro p ⟨b, hb, rfl⟩
    rw [h.blockSize_eq hb]
    exact (h.bounds hb).2.2.1
  · rintro p ⟨b, hb, rfl⟩
    obtain ⟨h1, h2, h3, h4⟩ := h.bounds hb
    have := h.reach
    simp only [FreeLists.Reaches, d.origin_eq, Layout.origin, Layout.wordRange, Block.after] at h2 ⊢
    omega
  · rintro p q ⟨a, ha, rfl⟩ ⟨b, hb, rfl⟩ hne
    rw [h.blockSize_eq ha, h.blockSize_eq hb]
    exact h.tiles.apart ha hb fun heq => hne (congrArg Block.payload heq)
  · rintro p ⟨b, hb, rfl⟩
    have h1 : d.heads + 56 ≤ b.payload := (h.bounds hb).1
    exact .inr (by omega)

theorem spaced : d.Spaced fun p => ∃ b ∈ χ.blocks, b.payload = p := h.separate.spaced

theorem mem_of_listed {c : SizeClass} : ∀ p ∈ (χ.lists c).map Block.payload,
    ∃ b ∈ χ.blocks, b.payload = p := by
  intro p hp
  obtain ⟨b, hb, rfl⟩ := List.mem_map.1 hp
  exact ⟨b, (h.listed c b hb).1, rfl⟩

/-- **The memory of a chart represents its lists.** -/
theorem represents : d.Represents m fun c => (χ.lists c).map Block.payload := by
  refine ⟨h.spells.threaded, ?_, h.separate.mono ?_⟩
  · intro c p hp
    obtain ⟨b, hb, rfl⟩ := List.mem_map.1 hp
    rw [h.blockSize_eq (h.listed c b hb).1]
    exact (h.listed c b hb).2.2
  · rintro p ⟨c, hp⟩
    exact h.mem_of_listed p hp

/-- A link leads to each block of a chart. -/
theorem reaches (hb : b ∈ χ.blocks) : d.Reaches b.payload := h.spaced.reaches ⟨b, hb, rfl⟩

theorem reaches_of_listed (c : SizeClass) :
    ∀ q ∈ (χ.lists c).map Block.payload, d.Reaches q := fun q hq =>
  h.spaced.reaches (h.mem_of_listed q hq)

/-- An allocated block is in no list. -/
theorem not_listed (halloc : b.isAllocated = true) (c : SizeClass) : b ∉ χ.lists c :=
  fun hl => Block.ne_of_isAllocated halloc (h.listed c b hl).2.1 rfl

theorem nodup (c : SizeClass) : (χ.lists c).Nodup := List.Nodup.of_map _ (h.spells.nodup c)

/-- A block is filed under its class or not at all. -/
theorem mem_lists_iff {c : SizeClass} :
    b ∈ χ.lists c ↔ SizeClass.ofSize b.size = c ∧ b ∈ χ.lists (SizeClass.ofSize b.size) := by
  constructor
  · intro hb
    have hc := (h.listed c b hb).2.2
    exact ⟨hc, hc ▸ hb⟩
  · rintro ⟨rfl, hb⟩
    exact hb

theorem mem_unfile {e : Block} {c : SizeClass} :
    e ∈ (χ.unfile b).lists c ↔ e ∈ χ.lists c ∧ e ≠ b := by
  by_cases hc : c = SizeClass.ofSize b.size
  · subst hc
    rw [lists_unfile_self, (h.nodup _).mem_erase_iff, and_comm]
  · rw [lists_unfile_of_ne hc]
    refine ⟨fun he => ⟨he, ?_⟩, And.left⟩
    rintro rfl
    exact hc (h.listed c e he).2.2.symm

/-- The view of the block sequence is the chart's. -/
theorem blocks_eq : m.blocks stop d.firstBlock = χ.blocks := by
  refine Memory.blocks_eq_of_tiles h.tiles h.hasBlock (fun b hb => h.size_lt hb) ?_
  have hword : m.header stop = Tag.epilogue := congrArg Tag.mk h.epilogue
  unfold Memory.blockSize
  rw [hword]
  rfl

/-- So is the view of a list. -/
theorem chain_eq (c : SizeClass) : d.chain m stop c = (χ.lists c).map Block.payload := by
  refine FreeLists.chain_of_threaded (h.spells.threaded c) (h.spells.nodup c) ?_
  intro p hp
  obtain ⟨b, hb, rfl⟩ := List.mem_map.1 hp
  have := h.bounds (h.listed c b hb).1
  simp only [Block.after] at this
  omega

/-- A list in order is in order by the sizes the tags say. -/
theorem sorted_blockSize {c : SizeClass} (hs : (χ.lists c).Pairwise Block.SizeLE) :
    ((χ.lists c).map Block.payload).Pairwise fun p q => m.blockSize p ≤ m.blockSize q := by
  rw [List.pairwise_map]
  refine List.Pairwise.imp_of_mem ?_ hs
  intro a b ha hb hle
  rw [h.blockSize_eq (h.listed c a ha).1, h.blockSize_eq (h.listed c b hb).1]
  exact hle

end Depicts

end Chart

end SegFit
