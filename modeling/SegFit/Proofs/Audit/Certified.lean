import SegFit.Heap.Basic
import SegFit.Proofs.Audit.Consistent
import SegFit.Proofs.Chart.Basic
/-!
# What a clean audit certifies

`Certified` says what is in a memory that passes its audit, without the
walks: the blocks that headers lead through, up to an epilogue at the end
of the region, and the ten lists that next links lead through, up to a
link that is zero. Both walks leave early where something is wrong, and
what they then do not look at might be right or not; but an audit reports
nothing exactly if there are such blocks and lists
(`Heap.violations_eq_nil_iff_certified`).
-/

namespace SegFit

namespace Audit

variable {m : Memory} {r : Region} {d : Directory} {c : SizeClass} {p stop : Nat} {b : Block}
  {bs : List Block} {ps : List Nat} {w : UInt32} {x : Option Nat} {free : Array Nat}
  {afterFree : Bool}

/-- **The blocks that headers lead through**, from one payload to another:
each is read off the header before its payload, directly after the one
before. -/
def Run (m : Memory) : Nat → Nat → List Block → Prop
  | p, stop, [] => p = stop
  | p, stop, b :: bs => b = ⟨p, m.blockSize p, m.isAllocated p⟩ ∧ Run m b.after stop bs

/-- **The blocks that next links lead through**, from one link to the one
that is zero. -/
def Leads (d : Directory) (m : Memory) : UInt32 → List Nat → Prop
  | w, [] => w = 0
  | w, p :: ps => w ≠ 0 ∧ p = d.origin + w.toNat ∧ Leads d m (m.word (p + Layout.word)) ps

/-- **A block that is in order**, from its header to its footer. -/
structure Framed (m : Memory) (r : Region) (b : Block) : Prop where
  nonzero : b.size ≠ 0
  aligned : b.payload % 8 = 0
  inside : r.start + 4 ≤ b.payload ∧ b.after ≤ r.stop + 4
  tags : m.word (b.payload - 4) = m.word (b.after - 8)

/-- **A list that is in order**: its links lead there and back, and its
blocks are free by their headers, of the list's class, and no smaller
than the one before. -/
structure Strung (d : Directory) (m : Memory) (r : Region) (c : SizeClass) (ps : List Nat) :
    Prop where
  leads : Leads d m (m.word (d.slot c)) ps
  nodup : ps.Nodup
  inside : ∀ p ∈ ps, r.start + 8 ≤ p ∧ p + 8 ≤ r.stop
  unused : ∀ p ∈ ps, m.isAllocated p = false
  fits : ∀ p ∈ ps, c.contains (m.blockSize p) = true
  /-- A previous link says how far the block before is from the origin;
  the first one's is zero. -/
  back : (d.origin :: ps).IsChain fun q p => (m.word p).toNat = q - d.origin
  ascending : ps.IsChain fun p q => m.blockSize p ≤ m.blockSize q

/-- **What a clean audit certifies** of a memory, with the blocks and the
lists that are in it. -/
structure Certified (m : Memory) (r : Region) (d : Directory) (bs : List Block)
    (ls : SizeClass → List Nat) : Prop where
  prologueHeader : m.word (d.origin - 4) = 9
  prologueFooter : m.word d.origin = 9
  run : Run m d.firstBlock r.stop bs
  framed : ∀ b ∈ bs, Framed m r b
  /-- The last word of the region. -/
  epilogue : r.start + 4 ≤ r.stop ∧ m.word (r.stop - 4) = 1
  parted : bs.IsChain Block.Parted
  strung : ∀ c, Strung d m r c (ls c)
  counted : (SizeClass.all.map fun c => (ls c).length).sum =
    (bs.filter fun b => !b.isAllocated).length
  /-- No other block that is free ends or begins where the words of a
  listed one say that a neighbour does. -/
  alone : ∀ c, ∀ p ∈ ls c, ∀ b ∈ bs, b.isAllocated = false → b.payload ≠ p →
    b.payload + (m.footerBefore p).size ≠ p ∧ b.payload ≠ m.after p

/-! ## Blocks -/

/-- A tiling of blocks that are read off their headers is what headers
lead through. -/
theorem run_of_tiles (h : Tiles p stop bs)
    (hread : ∀ b ∈ bs, b = ⟨b.payload, m.blockSize b.payload, m.isAllocated b.payload⟩) :
    Run m p stop bs := by
  induction bs generalizing p with
  | nil => exact h
  | cons b bs ih =>
    obtain ⟨rfl, -, hrest⟩ := h
    exact ⟨hread b List.mem_cons_self, ih hrest fun e he => hread e (List.mem_cons_of_mem _ he)⟩

/-- A block passed by a clean walk is in order. -/
theorem passed_iff (hp : 8 ≤ b.payload) :
    Passed m r afterFree b ↔ b = ⟨b.payload, m.blockSize b.payload, m.isAllocated b.payload⟩ ∧
      Framed m r b ∧ (b.isAllocated = false → afterFree = false) := by
  have hend : b.after = b.payload + b.size := rfl
  have htags : b.size = m.blockSize b.payload →
      (m.header b.payload = m.footer b.payload ↔
        m.word (b.payload - 4) = m.word (b.after - 8)) := by
    intro hsize
    rw [Memory.header, Memory.footer, Memory.footerAt, ← hsize, Tag.mk.injEq, hend]
  constructor
  · intro h
    have hlarge := h.large
    have hheader := h.header
    have hfooter := h.footer
    unfold Region.Holds at hheader hfooter
    exact ⟨h.read, ⟨by omega, h.aligned, by omega, (htags h.size_eq).1 h.tags⟩, h.parted⟩
  · rintro ⟨hread, h, hparted⟩
    have hsize : b.size = m.blockSize b.payload := congrArg Block.size hread
    have h8 := (m.header b.payload).eight_dvd_size
    have hpos := h.nonzero
    have hin := h.inside
    have hlarge : 8 ≤ b.size := by
      have : m.blockSize b.payload = (m.header b.payload).size := rfl
      omega
    exact ⟨hread, hlarge, h.aligned, ⟨by omega, by omega⟩, ⟨by omega, by omega⟩,
      (htags hsize).2 h.tags, hparted⟩

/-- **A clean walk goes through blocks in order**, of which no two in a
row are free, to an epilogue at the end of the region. -/
theorem walked_iff (hp : 8 ≤ p) :
    Walked m r p afterFree bs ↔ Run m p r.stop bs ∧ (∀ b ∈ bs, Framed m r b) ∧
      (r.start + 4 ≤ r.stop ∧ m.word (r.stop - 4) = 1) ∧ bs.IsChain Block.Parted ∧
        ∀ b ∈ bs.head?, b.isAllocated = false → afterFree = false := by
  induction bs generalizing p afterFree with
  | nil =>
    have hword : m.header p = .epilogue ↔ m.word (p - 4) = 1 := by
      rw [Memory.header, Tag.epilogue, Tag.mk.injEq]
    have hin : p = r.stop → (r.Holds (p - 4) ↔ r.start + 4 ≤ r.stop) := by
      rintro rfl
      unfold Region.Holds
      omega
    constructor
    · rintro ⟨rfl, hhold, hep⟩
      exact ⟨rfl, by simp, ⟨(hin rfl).1 hhold, hword.1 hep⟩, List.isChain_nil, by simp⟩
    · rintro ⟨rfl, -, ⟨hlow, hep⟩, -, -⟩
      exact ⟨rfl, (hin rfl).2 hlow, hword.2 hep⟩
  | cons b bs ih =>
    have hend : b.after = b.payload + b.size := rfl
    have hchain : (∀ e ∈ bs.head?, e.isAllocated = false → (!b.isAllocated) = false) ↔
        ∀ e ∈ bs.head?, Block.Parted b e := by
      refine forall₂_congr fun e _ => ?_
      unfold Block.Parted
      cases b.isAllocated <;> cases e.isAllocated <;> simp
    have hread : b = ⟨p, m.blockSize p, m.isAllocated p⟩ ↔ b.payload = p ∧
        b = ⟨b.payload, m.blockSize b.payload, m.isAllocated b.payload⟩ := by
      constructor
      · rintro rfl
        exact ⟨rfl, rfl⟩
      · rintro ⟨rfl, h⟩
        exact h
    rw [Walked, Run, hread, List.isChain_cons, List.forall_mem_cons]
    constructor
    · rintro ⟨rfl, hb, hw⟩
      obtain ⟨hb, hframed, hparted⟩ := (passed_iff hp).1 hb
      obtain ⟨hrun, hrest, hep, hchain', hhead⟩ := (ih (by omega)).1 hw
      exact ⟨⟨⟨rfl, hb⟩, hrun⟩, ⟨hframed, hrest⟩, hep, ⟨hchain.1 hhead, hchain'⟩, by
        rintro e ⟨⟩
        exact hparted⟩
    · rintro ⟨⟨⟨rfl, hb⟩, hrun⟩, ⟨hframed, hrest⟩, hep, ⟨hhead, hchain'⟩, hparted⟩
      exact ⟨rfl, (passed_iff hp).2 ⟨hb, hframed, hparted b rfl⟩,
        (ih (by omega)).2 ⟨hrun, hrest, hep, hchain', hchain.2 hhead⟩⟩

/-! ## Lists -/

/-- A link is zero, or leads to where it says. -/
theorem resolve_eq_some : d.resolve w = some p ↔ w ≠ 0 ∧ p = d.origin + w.toNat := by
  unfold FreeLists.resolve
  split
  · rename_i hzero
    simp [hzero]
  · rename_i hne
    rw [Option.some.injEq, eq_comm]
    exact (and_iff_right hne).symm

theorem resolve_eq_none : d.resolve w = none ↔ w = 0 := by
  unfold FreeLists.resolve
  split <;> simp_all

/-- Links lead behind the origin. -/
theorem Leads.origin_lt (h : Leads d m w ps) (hp : p ∈ ps) : d.origin < p := by
  induction ps generalizing w with
  | nil => cases hp
  | cons q ps ih =>
    obtain ⟨hw, hq, hleads⟩ := h
    rcases List.mem_cons.1 hp with rfl | hp
    · exact (reaches_of_resolve (resolve_eq_some.2 ⟨hw, hq⟩)).1
    · exact ih hleads hp

/-- A previous link leads back exactly if it is as large as the distance
of the block before. -/
theorem prev_eq_iff (hx : ∀ q ∈ x, d.Reaches q) :
    d.prev m p = x ↔ (m.word p).toNat = x.getD d.origin - d.origin := by
  unfold FreeLists.prev
  cases x with
  | none =>
    rw [resolve_eq_none, Option.getD_none, Nat.sub_self, ← UInt32.toNat_inj]
    rfl
  | some q =>
    have hq := (hx q rfl).1
    rw [resolve_eq_some, Option.getD_some, Ne, ← UInt32.toNat_inj]
    simp only [UInt32.toNat_zero]
    omega

/-- **Threaded blocks** are those that next links lead through, with
previous links that lead back. -/
theorem threaded_iff (hx : ∀ q ∈ x, d.Reaches q) :
    d.Threaded m c x ps ↔ Leads d m (m.word (d.followerAt c x)) ps ∧
      (x.getD d.origin :: ps).IsChain fun q p => (m.word p).toNat = q - d.origin := by
  induction ps generalizing x with
  | nil =>
    rw [FreeLists.Threaded, FreeLists.follower_eq_resolve, resolve_eq_none, Leads]
    exact (and_iff_left (List.isChain_singleton _)).symm
  | cons p ps ih =>
    rw [FreeLists.Threaded, Leads, FreeLists.follower_eq_resolve, resolve_eq_some, prev_eq_iff hx,
      List.isChain_cons_cons]
    constructor
    · rintro ⟨hw, hback, h⟩
      have hp : d.Reaches p := reaches_of_resolve (resolve_eq_some.2 hw)
      obtain ⟨hleads, hbacks⟩ := (ih (by simpa using hp)).1 h
      exact ⟨⟨hw.1, hw.2, hleads⟩, hback, hbacks⟩
    · rintro ⟨⟨hw, hp, hleads⟩, hback, hbacks⟩
      have hreach : d.Reaches p := reaches_of_resolve (resolve_eq_some.2 ⟨hw, hp⟩)
      exact ⟨⟨hw, hp⟩, hback, (ih (by simpa using hreach)).2 ⟨hleads, hbacks⟩⟩

/-- No block seems to touch one at `p` exactly if no other free one ends
or begins where the words at `p` say that a neighbour does. -/
theorem touches_eq_false_iff (hpos : ∀ b ∈ bs, 0 < b.payload) :
    touches m (freeOf bs).toArray p = false ↔
      ∀ b ∈ bs, b.isAllocated = false → b.payload ≠ p →
        b.payload + (m.footerBefore p).size ≠ p ∧ b.payload ≠ m.after p := by
  have hfree : ∀ q, (q != p && (freeOf bs).toArray.contains q) = false ↔
      ∀ b ∈ bs, b.isAllocated = false → b.payload ≠ p → b.payload ≠ q := by
    intro q
    rw [← Bool.not_eq_true, Bool.and_eq_true, bne_iff_ne, List.contains_toArray,
      List.contains_iff_mem, mem_freeOf]
    constructor
    · rintro h b hb hbfree hne rfl
      exact h ⟨hne, b, hb, rfl, hbfree⟩
    · rintro h ⟨hne, b, hb, rfl, hbfree⟩
      exact h b hb hbfree hne rfl
  have hbefore : ∀ b ∈ bs, b.payload ≠ m.before p ↔
      b.payload + (m.footerBefore p).size ≠ p := by
    intro b hb
    have := hpos b hb
    unfold Memory.before
    omega
  unfold touches
  rw [Bool.or_eq_false_iff, hfree, hfree]
  constructor
  · rintro ⟨h₁, h₂⟩ b hb hbfree hne
    exact ⟨(hbefore b hb).1 (h₁ b hb hbfree hne), h₂ b hb hbfree hne⟩
  · intro h
    exact ⟨fun b hb hbfree hne => (hbefore b hb).2 (h b hb hbfree hne).1,
      fun b hb hbfree hne => (h b hb hbfree hne).2⟩

/-- **A list that a clean walk follows** is in order, and its blocks seem
to touch no free one. -/
theorem followed_none_iff :
    ps.Nodup ∧ Followed d m r free c none ps ↔
      Strung d m r c ps ∧ ∀ p ∈ ps, touches m free p = false := by
  have hlink : ∀ p, Layout.origin ≤ p →
      (r.Holds (p - 8) ∧ r.Holds (p + 7) ↔ r.start + 8 ≤ p ∧ p + 8 ≤ r.stop) := by
    intro p hp
    unfold Region.Holds
    simp only [Layout.origin] at hp
    omega
  rw [followed_iff, threaded_iff (fun q hq => absurd hq (Option.not_mem_none q))]
  constructor
  · rintro ⟨hnd, ⟨hleads, hback⟩, hentry, hle⟩
    have hin : ∀ p ∈ ps, Layout.origin ≤ p := fun p hp => by
      have := hleads.origin_lt hp
      rw [d.origin_eq] at this
      omega
    exact ⟨⟨hleads, hnd, fun p hp => (hlink p (hin p hp)).1 ⟨(hentry p hp).low, (hentry p hp).high⟩,
      fun p hp => (hentry p hp).unused, fun p hp => (hentry p hp).fits, hback, hle⟩,
      fun p hp => (hentry p hp).alone⟩
  · rintro ⟨h, halone⟩
    have hin : ∀ p ∈ ps, Layout.origin ≤ p := fun p hp => by
      have := h.leads.origin_lt hp
      rw [d.origin_eq] at this
      omega
    refine ⟨h.nodup, ⟨h.leads, h.back⟩, fun p hp => ?_, h.ascending⟩
    obtain ⟨hlow, hhigh⟩ := (hlink p (hin p hp)).2 (h.inside p hp)
    exact ⟨hlow, hhigh, h.unused p hp, h.fits p hp, halone p hp⟩

/-! ## The whole audit -/

theorem Certified.pos (h : Certified m r d bs ls) : ∀ b ∈ bs, 0 < b.payload := by
  intro b hb
  have := (h.framed b hb).inside
  omega

theorem Certified.walked (h : Certified m r d bs ls) : Walked m r d.firstBlock false bs :=
  (walked_iff (Nat.le_add_left _ _)).2 ⟨h.run, h.framed, h.epilogue, h.parted, fun _ _ _ => rfl⟩

theorem Certified.followed (h : Certified m r d bs ls) (c : SizeClass) :
    (ls c).Nodup ∧ Followed d m r (freeOf bs).toArray c none (ls c) :=
  followed_none_iff.2
    ⟨h.strung c, fun p hp => (touches_eq_false_iff h.pos).2 (h.alone c p hp)⟩

/-- The blocks are those that the memory shows. -/
theorem Certified.blocks_eq (h : Certified m r d bs ls) : m.blocks r.stop d.firstBlock = bs :=
  blocks_eq_of_walked h.walked

/-- So are the lists. -/
theorem Certified.chain_eq (h : Certified m r d bs ls) (c : SizeClass) :
    d.chain m r.stop c = ls c :=
  FreeLists.chain_of_threaded (h.followed c).2.threaded (h.followed c).1
    fun p hp => ((h.strung c).inside p hp).2

/-- **A memory is consistent exactly if it has blocks and lists that are
in order.** -/
theorem consistent_iff_certified : Consistent m r d ↔ ∃ bs ls, Certified m r d bs ls := by
  constructor
  · intro h
    obtain ⟨hrun, hframed, hep, hparted, -⟩ :=
      (walked_iff (Nat.le_add_left _ _)).1 h.walked
    have hpos : ∀ b ∈ m.blocks r.stop d.firstBlock, 0 < b.payload := fun b hb => by
      have := (hframed b hb).inside
      omega
    have hstrung := fun c => followed_none_iff.1 ⟨(h.sound c).nodup, (h.sound c).followed⟩
    refine ⟨_, fun c => d.chain m r.stop c, header_eq_prologue_iff.1 h.prologueHeader,
      (footer_eq_prologue_iff h.prologueHeader).1 h.prologueFooter, hrun, hframed, hep, hparted,
      fun c => (hstrung c).1, ?_, fun c p hp => (touches_eq_false_iff hpos).1 ((hstrung c).2 p hp)⟩
    rw [← h.counted, freeOf, List.length_map]
  · rintro ⟨bs, ls, h⟩
    have hheader := header_eq_prologue_iff.2 h.prologueHeader
    refine ⟨hheader, (footer_eq_prologue_iff hheader).2 h.prologueFooter, ?_, fun c => ?_, ?_⟩
    · rw [h.blocks_eq]
      exact h.walked
    · rw [h.blocks_eq]
      refine ⟨?_, ?_⟩
      · rw [h.chain_eq c]
        exact (h.followed c).1
      · rw [h.chain_eq c]
        exact (h.followed c).2
    · simp only [h.blocks_eq, h.chain_eq]
      rw [h.counted, freeOf, List.length_map]

end Audit

namespace Heap

variable {σ : Type} [Store σ] {h : Heap σ}

/-- **An audit reports nothing exactly if** the heap is laid out and its
memory has blocks and lists that are in order. -/
theorem violations_eq_nil_iff_certified :
    h.violations = [] ↔
      ∃ d bs ls, h.directory = some d ∧ Audit.Certified h.memory h.region d bs ls := by
  cases hd : h.directory with
  | none =>
    have hnone : h.violations = [.uninitialized] := by
      rw [violations, hd]
      rfl
    simp [hnone]
  | some d =>
    rw [violations, hd, Audit.violations_eq_nil_iff, Audit.consistent_iff_certified]
    simp

end Heap

end SegFit
