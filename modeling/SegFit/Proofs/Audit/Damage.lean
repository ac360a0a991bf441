import SegFit.Proofs.Audit.Certified
import SegFit.Proofs.Audit.Membership
import SegFit.Proofs.Client.WellFormed
import Mathlib.Data.Nat.Bitwise
/-!
# Damage is found

A heap's own words check each other. `Heap.Damaged` is a well-formed heap
after one change to them: to one tag, to the previous link of a free
block, or to the allocated bit of one block. Whatever the payloads hold,
an audit finds something wrong then (`Heap.WellFormed.damage_found`).

A changed header is the hard case, since it sends the walk into a payload,
where words may look like tags. But a walk without a fault ends where the
region does, and its blocks have footers, so it can be read backwards from
there: over the footers that are still right, to the block whose header is
not (`Audit.Run.met`).
-/

namespace SegFit

/-- **The words that hold tags**: the prologue's, two of every block, and
the epilogue. -/
inductive Heap.IsTag {σ : Type} [Store σ] (h : Heap σ) (d : Directory) : Nat → Prop
  | prologueHeader : IsTag h d (d.origin - 4)
  | prologueFooter : IsTag h d d.origin
  | header {b : Block} (hb : b ∈ h.blocks) : IsTag h d (b.payload - 4)
  | footer {b : Block} (hb : b ∈ h.blocks) : IsTag h d (b.after - 8)
  | epilogue : IsTag h d (h.region.stop - 4)

/-- **The memory of a heap after one change** to the heap's own words. -/
inductive Heap.Damaged {σ : Type} [Store σ] (h : Heap σ) (d : Directory) : Memory → Prop
  /-- One tag becomes any other word. -/
  | tag {a : Nat} {v : UInt32} (ha : h.IsTag d a) (hv : v ≠ h.memory.word a) :
    Damaged h d (h.memory.setWord a v)
  /-- The previous link of a free block becomes any other word. -/
  | link {b : Block} {v : UInt32} (hb : b ∈ h.blocks) (hfree : b.isAllocated = false)
    (hv : v ≠ h.memory.word b.payload) : Damaged h d (h.memory.setWord b.payload v)
  /-- Both tags of a block say the opposite of whether it is allocated. -/
  | flip {b : Block} (hb : b ∈ h.blocks) :
    Damaged h d (h.memory
      |>.setWord (b.payload - 4) (h.memory.word (b.payload - 4) ^^^ 1)
      |>.setWord (b.after - 8) (h.memory.word (b.after - 8) ^^^ 1))

/-! ## Tags with a flipped bit -/

theorem Tag.size_flip (w : UInt32) : Tag.size ⟨w ^^^ 1⟩ = Tag.size ⟨w⟩ := by
  have hhalf : (w.toNat ^^^ 1) / 2 = w.toNat / 2 := by
    rw [Nat.xor_div_two]
    exact Nat.xor_zero _
  simp only [Tag.size, UInt32.toNat_xor, UInt32.toNat_one]
  omega

theorem Tag.isAllocated_flip (w : UInt32) :
    Tag.isAllocated ⟨w ^^^ 1⟩ = !Tag.isAllocated ⟨w⟩ := by
  have hmod : (w.toNat ^^^ 1) % 2 = (w.toNat + 1) % 2 := Nat.xor_mod_two_eq
  simp only [Tag.isAllocated, UInt32.toNat_xor, UInt32.toNat_one, hmod]
  rcases Nat.mod_two_eq_zero_or_one w.toNat with h | h
  · have hodd : (w.toNat + 1) % 2 = 1 := by omega
    rw [h, hodd]
    rfl
  · have heven : (w.toNat + 1) % 2 = 0 := by omega
    rw [h, heven]
    rfl

/-! ## What headers, footers and links decide -/

namespace Audit

variable {m m' : Memory} {r : Region} {d : Directory} {p q stop : Nat} {b : Block}
  {bs bs' cs : List Block} {ps ps' : List Nat} {ls : SizeClass → List Nat} {w : UInt32}

theorem Run.read (h : Run m p stop bs) (hb : b ∈ bs) :
    b = ⟨b.payload, m.blockSize b.payload, m.isAllocated b.payload⟩ := by
  induction bs generalizing p with
  | nil => cases hb
  | cons c bs ih =>
    obtain ⟨hc, hrun⟩ := h
    rcases List.mem_cons.1 hb with rfl | hb
    · rw [hc]
    · exact ih hrun hb

theorem Run.le (h : Run m p stop bs) : p ≤ stop := by
  induction bs generalizing p with
  | nil => exact Nat.le_of_eq h
  | cons b bs ih =>
    obtain ⟨rfl, hrun⟩ := h
    exact Nat.le_trans (Nat.le_add_right _ _) (ih hrun)

/-- A run comes to its end from a block, or is empty. -/
theorem Run.ends (h : Run m p stop bs) : stop = p ∨ ∃ e ∈ bs, e.after = stop := by
  induction bs generalizing p with
  | nil => exact .inl h.symm
  | cons b bs ih =>
    right
    rcases ih h.2 with heq | ⟨e, he, hafter⟩
    · exact ⟨b, List.mem_cons_self, heq.symm⟩
    · exact ⟨e, List.mem_cons_of_mem _ he, hafter⟩

/-- It comes to each of its blocks from another, or begins there. -/
theorem Run.comes (h : Run m p stop bs) (hb : b ∈ bs) :
    b.payload = p ∨ ∃ e ∈ bs, e.after = b.payload := by
  induction bs generalizing p with
  | nil => cases hb
  | cons c bs ih =>
    obtain ⟨rfl, hrun⟩ := h
    rcases List.mem_cons.1 hb with rfl | hb
    · exact .inl rfl
    · right
      rcases ih hrun hb with heq | ⟨e, he, hafter⟩
      · exact ⟨_, List.mem_cons_self, heq.symm⟩
      · exact ⟨e, List.mem_cons_of_mem _ he, hafter⟩

/-- **Sizes alone decide where blocks are.** A tiling whose sizes the
headers say is the run they lead through. -/
theorem Run.eq_of_tiles (h : Run m p stop bs) (hpos : ∀ b ∈ bs, b.size ≠ 0)
    (ht : Tiles p stop cs) (hsize : ∀ c ∈ cs, m.blockSize c.payload = c.size) :
    bs = cs.map fun c => ⟨c.payload, c.size, m.isAllocated c.payload⟩ := by
  induction cs generalizing p bs with
  | nil =>
    obtain rfl : p = stop := ht
    cases bs with
    | nil => rfl
    | cons b bs =>
      obtain ⟨hb, hrun⟩ := h
      have hle := hrun.le
      have := hpos b List.mem_cons_self
      rw [hb] at hle this
      simp only [Block.after] at hle this
      omega
  | cons c cs ih =>
    obtain ⟨rfl, hproper, hrest⟩ := ht
    have hc := hsize c List.mem_cons_self
    cases bs with
    | nil =>
      obtain rfl : c.payload = stop := h
      have hle := hrest.le
      have := hproper.large
      simp only [Block.after] at hle
      omega
    | cons b bs =>
      obtain ⟨hb, hrun⟩ := h
      rw [hc] at hb
      have hafter : b.after = c.after := by rw [hb, Block.after, Block.after]
      rw [hafter] at hrun
      rw [List.map_cons, ← hb, ← ih hrun (fun e he => hpos e (List.mem_cons_of_mem _ he)) hrest
        fun e he => hsize e (List.mem_cons_of_mem _ he)]

/-- **A run in order is led by footers too**, backwards from its end: it
meets every block of a tiling whose footers have its sizes. -/
theorem Run.met (h : Run m p stop bs)
    (htags : ∀ e ∈ bs, m.word (e.payload - 4) = m.word (e.after - 8))
    (ht : Tiles q stop cs) (hq : p ≤ q)
    (hfooter : ∀ c ∈ cs, Tag.size ⟨m.word (c.after - 8)⟩ = c.size) :
    (q = p ∨ ∃ e ∈ bs, e.after = q) ∧
      ∀ c ∈ cs, ∃ e ∈ bs, e.payload = c.payload ∧ e.after = c.after := by
  induction cs generalizing q with
  | nil =>
    obtain rfl : q = stop := ht
    exact ⟨h.ends, fun c hc => absurd hc List.not_mem_nil⟩
  | cons c cs ih =>
    obtain ⟨rfl, hproper, hrest⟩ := ht
    have hend : c.after = c.payload + c.size := rfl
    have hlarge := hproper.large
    obtain ⟨hlast, hmet⟩ := ih hrest (by omega) fun e he => hfooter e (List.mem_cons_of_mem _ he)
    -- the block of the run that ends where `c` does has the size of `c`
    obtain ⟨e, he, hafter⟩ := hlast.resolve_left (by omega)
    have hsize : e.size = c.size := by
      rw [← hfooter c List.mem_cons_self, ← hafter, ← htags e he]
      exact congrArg Block.size (h.read he)
    have hpayload : e.payload = c.payload := by
      have hend' : e.after = e.payload + e.size := rfl
      omega
    refine ⟨?_, List.forall_mem_cons.2 ⟨⟨e, he, hpayload, hafter⟩, hmet⟩⟩
    rw [← hpayload]
    exact h.comes he

/-- Links lead one way. -/
theorem Leads.unique (h : Leads d m w ps) (h' : Leads d m w ps') : ps = ps' := by
  induction ps generalizing w ps' with
  | nil =>
    cases ps' with
    | nil => rfl
    | cons p ps' => exact absurd h h'.1
  | cons p ps ih =>
    cases ps' with
    | nil => exact absurd h' h.1
    | cons q ps' =>
      obtain ⟨-, rfl, h⟩ := h
      obtain ⟨-, rfl, h'⟩ := h'
      rw [ih h h']

theorem Leads.congr (h : Leads d m w ps) (hnext : ∀ p ∈ ps, m'.word (p + 4) = m.word (p + 4)) :
    Leads d m' w ps := by
  induction ps generalizing w with
  | nil => exact h
  | cons p ps ih =>
    obtain ⟨hw, hp, hleads⟩ := h
    refine ⟨hw, hp, ?_⟩
    rw [hnext p List.mem_cons_self]
    exact ih hleads fun q hq => hnext q (List.mem_cons_of_mem _ hq)

/-- Where a previous link leads decides what word it is. -/
theorem word_eq_of_isChain {q : Nat}
    (h : (q :: ps).IsChain fun q p => (m.word p).toNat = q - d.origin)
    (h' : (q :: ps).IsChain fun q p => (m'.word p).toNat = q - d.origin) :
    ∀ p ∈ ps, m'.word p = m.word p := by
  induction ps generalizing q with
  | nil => exact fun p hp => absurd hp List.not_mem_nil
  | cons p ps ih =>
    rw [List.isChain_cons_cons] at h h'
    refine List.forall_mem_cons.2 ⟨?_, ih h.2 h'.2⟩
    exact UInt32.toNat_inj.1 (h'.1.trans h.1.symm)

end Audit

/-! ## Damage to a well-formed heap -/

namespace Heap

variable {σ : Type} [Store σ] {h : Heap σ} {d : Directory} {m : Memory} {p a : Nat}
  {v : UInt32} {b e : Block} {c : SizeClass} {bs : List Block} {ls : SizeClass → List Nat}

theorem read_of_mem_blocks (hb : b ∈ h.blocks) :
    b = ⟨b.payload, h.memory.blockSize b.payload, h.memory.isAllocated b.payload⟩ := by
  unfold blocks at hb
  cases hd : h.directory with
  | none =>
    rw [hd] at hb
    cases hb
  | some d =>
    rw [hd] at hb
    exact Memory.read_of_mem_blocks hb

theorem size_of_mem_blocks (hb : b ∈ h.blocks) :
    Tag.size ⟨h.memory.word (b.payload - 4)⟩ = b.size :=
  (congrArg Block.size (read_of_mem_blocks hb)).symm

namespace WellFormed

variable (hw : h.WellFormed d)

include hw

theorem tiles_firstBlock : Tiles d.firstBlock h.region.stop h.blocks := by
  have hfirst : d.firstBlock = h.region.start + 56 := by rw [Directory.firstBlock_eq, hw.base]
  rw [hfirst]
  exact hw.tiles

/-- Where a block can lie. -/
theorem bounds (hb : b ∈ h.blocks) :
    d.heads + 56 ≤ b.payload ∧ b.payload + b.size ≤ h.region.stop ∧ 16 ≤ b.size := by
  obtain ⟨hlow, hhigh, hproper⟩ := hw.tiles_firstBlock.bounds hb
  rw [d.firstBlock_eq] at hlow
  exact ⟨hlow, hhigh, hproper.large⟩

/-- Different blocks do not overlap. -/
theorem apart (hb : b ∈ h.blocks) (he : e ∈ h.blocks) (hne : e ≠ b) :
    e.payload + e.size ≤ b.payload ∨ b.payload + b.size ≤ e.payload :=
  hw.tiles_firstBlock.apart he hb hne

/-- The tags of a block are the same word. -/
theorem word_footer (hb : b ∈ h.blocks) :
    h.memory.word (b.after - 8) = h.memory.word (b.payload - 4) := by
  have hsize : h.memory.blockSize b.payload = b.size := size_of_mem_blocks hb
  have hat : h.memory.footerAt b.payload = b.after - 8 := by
    rw [Memory.footerAt, hsize, Block.after]
  have htags := hw.tags b hb
  rw [Memory.footer, hat] at htags
  exact (congrArg Tag.raw htags).symm

/-- A next link is beside the tags and the previous link of every
block. -/
theorem next_apart (hb : b ∈ h.blocks) (hp : p ∈ h.list c) :
    (p + 12 ≤ b.payload ∨ b.payload ≤ p) ∧
      (p + 16 ≤ b.payload + b.size ∨ b.payload + b.size ≤ p) := by
  obtain ⟨e, he, rfl, -, -⟩ := (hw.mem_list_iff c p).1 hp
  have hlarge := (hw.bounds he).2.2
  by_cases heb : e = b
  · subst heb
    omega
  · have := hw.apart hb he heb
    omega

/-- **An audit follows the old lists** if no next link and no head has
changed. -/
theorem list_eq (hm : Audit.Certified m h.region d bs ls)
    (hhead : m.word (d.slot c) = h.memory.word (d.slot c))
    (hnext : ∀ p ∈ h.list c, m.word (p + 4) = h.memory.word (p + 4)) : ls c = h.list c := by
  obtain ⟨hleads, -⟩ :=
    (Audit.threaded_iff fun q hq => absurd hq (Option.not_mem_none q)).1 (hw.threaded c)
  refine (hm.strung c).leads.unique ?_
  rw [hhead]
  exact hleads.congr hnext

/-- **It passes the old blocks** if no size in a header has changed. -/
theorem blocks_eq (hm : Audit.Certified m h.region d bs ls)
    (hsize : ∀ e ∈ h.blocks, Tag.size ⟨m.word (e.payload - 4)⟩ = e.size) :
    bs = h.blocks.map fun e => ⟨e.payload, e.size, m.isAllocated e.payload⟩ :=
  hm.run.eq_of_tiles (fun e he => (hm.framed e he).nonzero) hw.tiles_firstBlock hsize

/-- **A changed header is found.** From the end of the region the footers
lead back to its block, and the last of them differs from it. -/
theorem header_found (hb : b ∈ h.blocks)
    (hkept : ∀ e ∈ h.blocks, m.word (e.after - 8) = h.memory.word (e.after - 8))
    (hne : m.word (b.payload - 4) ≠ h.memory.word (b.payload - 4)) :
    ¬ Audit.Certified m h.region d bs ls := by
  intro hm
  obtain ⟨pre, post, hbs⟩ := List.append_of_mem hb
  have htiles := hw.tiles_firstBlock
  rw [hbs, tiles_append] at htiles
  obtain ⟨q, hpre, hpost⟩ := htiles
  have hfooter : ∀ e ∈ b :: post, Tag.size ⟨m.word (e.after - 8)⟩ = e.size := by
    intro e he
    have hmem : e ∈ h.blocks := hbs ▸ List.mem_append_right _ he
    rw [hkept e hmem, hw.word_footer hmem, size_of_mem_blocks hmem]
  obtain ⟨e, he, hpayload, hafter⟩ := (hm.run.met (fun e he => (hm.framed e he).tags) hpost
    hpre.le hfooter).2 b List.mem_cons_self
  have htags := (hm.framed e he).tags
  rw [hpayload, hafter, hkept b hb, hw.word_footer hb] at htags
  exact hne htags

/-- **A changed footer is found.** The headers lead to its block, and it
differs from the last of them. -/
theorem footer_found (hb : b ∈ h.blocks)
    (hkept : ∀ e ∈ h.blocks, m.word (e.payload - 4) = h.memory.word (e.payload - 4))
    (hne : m.word (b.after - 8) ≠ h.memory.word (b.after - 8)) :
    ¬ Audit.Certified m h.region d bs ls := by
  intro hm
  have hblocks := hw.blocks_eq hm fun e he => by rw [hkept e he, size_of_mem_blocks he]
  have hmem : ⟨b.payload, b.size, m.isAllocated b.payload⟩ ∈ bs :=
    hblocks ▸ List.mem_map_of_mem hb
  have htags : m.word (b.payload - 4) = m.word (b.after - 8) := (hm.framed _ hmem).tags
  rw [hkept b hb, ← hw.word_footer hb] at htags
  exact hne htags.symm

/-- **A changed tag is found.** -/
theorem tag_found (ha : h.IsTag d a) (hv : v ≠ h.memory.word a) :
    ¬ Audit.Certified (h.memory.setWord a v) h.region d bs ls := by
  have hself := Memory.word_setWord_self a v h.memory
  -- headers and footers do not overlap
  have hbeside : ∀ b ∈ h.blocks, ∀ e ∈ h.blocks,
      b.payload ≤ e.after - 8 ∨ e.after - 4 ≤ b.payload - 4 := by
    intro b hb e he
    have hend : e.after = e.payload + e.size := rfl
    have hlow := (hw.bounds hb).1
    have hlarge := (hw.bounds he).2.2
    by_cases heb : e = b
    · subst heb
      omega
    · have := (hw.bounds hb).2.2
      have := hw.apart hb he heb
      omega
  intro hm
  cases ha with
  | prologueHeader =>
    have hold : h.memory.word (d.origin - 4) = 9 :=
      (congrArg h.memory.word d.origin_sub_word).trans hw.prologueHeader
    exact hv (hself.symm.trans (hm.prologueHeader.trans hold.symm))
  | prologueFooter => exact hv (hself.symm.trans (hm.prologueFooter.trans hw.prologueFooter.symm))
  | epilogue => exact hv (hself.symm.trans (hm.epilogue.2.trans hw.epilogue.symm))
  | @header b hb =>
    refine hw.header_found hb (fun e he => Memory.word_setWord_of_disjoint _ _ ?_) ?_ hm
    · have := (hw.bounds hb).1
      have := hbeside b hb e he
      omega
    · rwa [hself]
  | @footer b hb =>
    refine hw.footer_found hb (fun e he => Memory.word_setWord_of_disjoint _ _ ?_) ?_ hm
    · have hend : b.after = b.payload + b.size := rfl
      have := (hw.bounds hb).2.2
      have := (hw.bounds he).1
      have := hbeside e he b hb
      omega
    · rwa [hself]

/-- **A changed previous link is found.** -/
theorem link_found (hb : b ∈ h.blocks) (hfree : b.isAllocated = false)
    (hv : v ≠ h.memory.word b.payload) :
    ¬ Audit.Certified (h.memory.setWord b.payload v) h.region d bs ls := by
  intro hm
  have hlow := (hw.bounds hb).1
  have hlist : ls (.ofSize b.size) = h.list (.ofSize b.size) := by
    refine hw.list_eq hm (Memory.word_setWord_of_disjoint _ _ ?_) fun p hp =>
      Memory.word_setWord_of_disjoint _ _ ?_
    · have := d.slot_bounds (.ofSize b.size)
      omega
    · have := (hw.next_apart hb hp).1
      omega
  have hmem : b.payload ∈ h.list (.ofSize b.size) :=
    (hw.mem_list_iff _ _).2 ⟨b, hb, rfl, hfree, rfl⟩
  have hback := (hm.strung (.ofSize b.size)).back
  rw [hlist] at hback
  obtain ⟨-, hback'⟩ :=
    (Audit.threaded_iff fun q hq => absurd hq (Option.not_mem_none q)).1
      (hw.threaded (.ofSize b.size))
  have hword := Audit.word_eq_of_isChain hback' hback b.payload hmem
  rw [Memory.word_setWord_self] at hword
  exact hv hword

/-- **A block that has become free is found**, since no list has it. -/
theorem freed_found (hb : b ∈ h.blocks) (halloc : b.isAllocated = true)
    (hnow : m.isAllocated b.payload = false) (hlist : ∀ c, ls c = h.list c)
    (hsize : ∀ e ∈ h.blocks, Tag.size ⟨m.word (e.payload - 4)⟩ = e.size) :
    ¬ Audit.Certified m h.region d bs ls := by
  intro hm
  have hblocks := hw.blocks_eq hm hsize
  have hconsistent := Audit.consistent_iff_certified.2 ⟨bs, ls, hm⟩
  have hlisted : ∀ c p, d.Listed m c p ↔ p ∈ h.list c := by
    intro c p
    rw [hconsistent.listed_iff, hm.chain_eq, hlist]
  -- the lists still lead to blocks only, so they should lead to all the free ones
  have hperm := hconsistent.listed_perm fun c p hp => by
    obtain ⟨e, he, rfl, -, -⟩ := (hw.mem_list_iff c p).1 ((hlisted c p).1 hp)
    rw [hm.blocks_eq, hblocks]
    exact ⟨_, List.mem_map_of_mem he, rfl⟩
  have hfree : b.payload ∈ Audit.freeOf (m.blocks h.region.stop d.firstBlock) := by
    rw [hm.blocks_eq, hblocks]
    exact Audit.mem_freeOf.2 ⟨_, List.mem_map_of_mem hb, rfl, hnow⟩
  obtain ⟨c, hc⟩ := hconsistent.mem_listed.1 (hperm.mem_iff.2 hfree)
  obtain ⟨e, he, heq, hunused, -⟩ := (hw.mem_list_iff c _).1 ((hlisted c _).1 hc)
  exact Block.ne_of_isAllocated halloc hunused (hw.tiles_firstBlock.eq_of_payload hb he heq.symm)

/-- **A flipped bit is found.** The lists then hold an allocated block, or
they lack a free one. -/
theorem flip_found (hb : b ∈ h.blocks)
    (hsame : ∀ a, (a + 4 ≤ b.payload - 4 ∨ b.payload ≤ a) →
      (a + 4 ≤ b.after - 8 ∨ b.after - 4 ≤ a) → m.word a = h.memory.word a)
    (hflip : m.word (b.payload - 4) = h.memory.word (b.payload - 4) ^^^ 1) :
    ¬ Audit.Certified m h.region d bs ls := by
  intro hm
  have hend : b.after = b.payload + b.size := rfl
  obtain ⟨hlow, -, hlarge⟩ := hw.bounds hb
  have hlist : ∀ c, ls c = h.list c := by
    intro c
    have hslot := d.slot_bounds c
    refine hw.list_eq hm (hsame _ (by omega) (by omega)) fun p hp => ?_
    have hnext := hw.next_apart hb hp
    exact hsame _ (by omega) (by omega)
  have hnow : m.isAllocated b.payload = !b.isAllocated := by
    have hread := congrArg Block.isAllocated (read_of_mem_blocks hb)
    have hbit := Tag.isAllocated_flip (h.memory.word (b.payload - 4))
    rw [← hflip] at hbit
    rw [hread]
    exact hbit
  cases halloc : b.isAllocated with
  | false =>
    have hmem : b.payload ∈ h.list (.ofSize b.size) :=
      (hw.mem_list_iff _ _).2 ⟨b, hb, rfl, halloc, rfl⟩
    rw [← hlist] at hmem
    have hunused := (hm.strung _).unused b.payload hmem
    rw [hnow, halloc] at hunused
    cases hunused
  | true =>
    refine hw.freed_found hb halloc (by rw [hnow, halloc]; rfl) hlist ?_ hm
    intro e he
    rw [← size_of_mem_blocks he]
    by_cases heb : e = b
    · subst heb
      rw [hflip, Tag.size_flip]
    · have := hw.apart hb he heb
      have := hw.bounds he
      rw [hsame _ (by omega) (by omega)]

/-- **Damage to a well-formed heap is found**, whatever the payloads
hold. -/
theorem damage_found (hd : h.directory = some d) (hm : h.Damaged d m) :
    { h with memory := m }.violations ≠ [] := by
  unfold violations
  dsimp only
  rw [hd, Ne, Audit.violations_eq_nil_iff, Audit.consistent_iff_certified]
  rintro ⟨bs, ls, hok⟩
  have hok : Audit.Certified m h.region d bs ls := hok
  cases hm with
  | tag ha hv => exact hw.tag_found ha hv hok
  | link hb hfree hv => exact hw.link_found hb hfree hv hok
  | @flip b hb =>
    have hend : b.after = b.payload + b.size := rfl
    obtain ⟨hlow, -, hlarge⟩ := hw.bounds hb
    refine hw.flip_found hb ?_ ?_ hok
    · intro a hheader hfooter
      rw [Memory.word_setWord_of_disjoint _ _ (by omega),
        Memory.word_setWord_of_disjoint _ _ (by omega)]
    · rw [Memory.word_setWord_of_disjoint _ _ (by omega), Memory.word_setWord_self]

end WellFormed

/-- A heap whose client has written words into its payload that could be
tags: a footer, and the header of a block that ends where the payload
does. -/
def deceptive : Heap Arena :=
  (Client.sample.run [.write 104 24 33, .write 104 28 81]).heap

/-- Its header is made to lead to the one and the other. -/
theorem deceptive_found :
    deceptive.directory = some (.ofBase 16) ∧ deceptive.WellFormed (.ofBase 16) ∧
      deceptive.Damaged (.ofBase 16) (deceptive.memory.setWord 100 33) ∧
      { deceptive with memory := deceptive.memory.setWord 100 33 }.violations ≠ [] := by
  have hd : deceptive.directory = some (.ofBase 16) := by decide +kernel
  have hreachable : Client.Reachable
      (Client.sample.run [.write 104 24 33, .write 104 28 81]) :=
    Client.reachable_sample.run (by decide +kernel)
  obtain ⟨χ, hc, -⟩ := hreachable.sound.charted hd
  have hdamaged : deceptive.Damaged (.ofBase 16) (deceptive.memory.setWord 100 33) :=
    .tag (.header (b := ⟨104, 112, true⟩) (by decide +kernel)) (by decide +kernel)
  exact ⟨hd, hc.wellFormed, hdamaged, hc.wellFormed.damage_found hd hdamaged⟩

end Heap

end SegFit
