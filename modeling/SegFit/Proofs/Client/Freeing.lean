import SegFit.Proofs.Chart.Canonical
import SegFit.Proofs.Client.Aliasing
/-!
# Giving payloads back

Whatever order payloads are given back in, the same heap is left, but for
the places of blocks of one size in their list: a settled chart is known
by its allocated blocks, and those are the ones nobody gave back
(`Client.Reachable.freeAll_perm`). When all are given back, one free block
is left, of all the bytes a heap has for blocks
(`Client.Reachable.nothing_leaks`).
-/

namespace SegFit

variable {σ : Type} [Store σ]

/-- **The same heap but for ties.** It has the same block sequence, and each
list has the same blocks and the same sizes from the first to the last; two
heaps may list blocks of one size in different order. -/
structure Heap.SameButTies (h h' : Heap σ) : Prop where
  region : h'.region = h.region
  blocks : h'.blocks = h.blocks
  list_perm : ∀ c, (h'.list c).Perm (h.list c)
  sizes : ∀ c, (h'.list c).map h'.memory.blockSize = (h.list c).map h.memory.blockSize

namespace Heap

variable {h h' h'' : Heap σ} {d : Directory} {χ χ' χ'' : Chart} {b : Block} {ps : List Nat}

/-- The sizes along a list are those of the chart's blocks. -/
theorem Charted.map_blockSize (hc : h.Charted d χ) (c : SizeClass) :
    (h.list c).map h.memory.blockSize = (χ.lists c).map Block.size := by
  rw [hc.list_eq, List.map_map]
  exact List.map_congr_left fun b hb => hc.depicts.blockSize_eq (hc.depicts.listed c b hb).1

/-- **Charted heaps with the same allocated blocks** are the same but for
ties. -/
theorem Charted.sameButTies (hc : h.Charted d χ) (hc' : h'.Charted d χ')
    (hregion : h'.region = h.region)
    (hsame : ∀ e, e.isAllocated = true → (e ∈ χ'.blocks ↔ e ∈ χ.blocks)) : h.SameButTies h' := by
  have hdepicts := hc'.depicts
  rw [hregion] at hdepicts
  have hblocks : χ'.blocks = χ.blocks :=
    hdepicts.tiles.eq_of_isAllocated hc.depicts.tiles hc'.settled.coalesced hc.settled.coalesced
      hsame
  refine ⟨hregion, ?_, ?_, ?_⟩
  · rw [hc'.blocks_eq, hc.blocks_eq, hblocks]
  · intro c
    rw [hc'.list_eq, hc.list_eq]
    exact (hdepicts.perm_lists hc'.settled hc.depicts hc.settled hblocks c).map _
  · intro c
    rw [hc'.map_blockSize, hc.map_blockSize]
    exact hdepicts.map_size_lists hc'.settled hc.depicts hc.settled hblocks c

/-- **What giving some payloads back does**: of the allocated blocks those
behind them are gone, and the others keep their payloads. -/
structure FreesAll (h : Heap σ) (d : Directory) (χ : Chart) (ps : List Nat) (h' : Heap σ)
    (χ' : Chart) : Prop where
  store : h'.store = h.store
  charted : h'.Charted d χ'
  mem_blocks_iff : ∀ e, e.isAllocated = true →
    (e ∈ χ'.blocks ↔ e ∈ χ.blocks ∧ e.payload ∉ ps)
  keeps : Chart.Keeps (χ.blocks.filter (·.payload ∉ ps)) h.memory h'.memory

theorem FreesAll.refl (hc : h.Charted d χ) : FreesAll h d χ [] h χ :=
  ⟨rfl, hc, fun _ _ => by simp, Chart.Keeps.refl _ _⟩

/-- A payload that is not given back is still there with its bytes. -/
theorem FreesAll.payload (hfs : FreesAll h d χ ps h' χ') (hb : b ∈ χ.blocks)
    (halloc : b.isAllocated = true) (hp : b.payload ∉ ps) :
    h'.memory.usableSize b.payload = b.size - 8 ∧ ∀ i, i < b.size - 8 →
      h'.memory.byte (b.payload + i) = h.memory.byte (b.payload + i) := by
  have hb' : b ∈ χ'.blocks := (hfs.mem_blocks_iff b halloc).2 ⟨hb, hp⟩
  refine ⟨hfs.charted.depicts.usableSize_eq hb', fun i hi => ?_⟩
  exact hfs.keeps b (List.mem_filter.2 ⟨hb, decide_eq_true hp⟩) halloc i (by omega)

/-- One payload after another. -/
theorem Frees.trans (hc : h.Charted d χ) (hb : b ∈ χ.blocks) (hf : Frees h d χ b h')
    (hfs : FreesAll h' d (χ.release b).2 ps h'' χ'') :
    FreesAll h d χ (b.payload :: ps) h'' χ'' := by
  have hne : ∀ e ∈ χ.blocks, (e ≠ b ↔ e.payload ≠ b.payload) := fun e he =>
    not_congr ⟨congrArg Block.payload, hc.depicts.tiles.eq_of_payload he hb⟩
  refine ⟨hfs.store.trans hf.store, hfs.charted, ?_, ?_⟩
  · intro e he
    rw [hfs.mem_blocks_iff e he, hf.mem_blocks_iff e he, List.mem_cons, not_or, and_assoc]
    exact and_congr_right fun hin => and_congr_left fun _ => hne e hin
  · have hmem : ∀ e ∈ χ.blocks.filter (·.payload ∉ b.payload :: ps),
        e ∈ χ.blocks ∧ e ≠ b ∧ e.payload ∉ ps := by
      intro e he
      rw [List.mem_filter, decide_eq_true_eq, List.mem_cons, not_or] at he
      exact ⟨he.1, (hne e he.1).2 he.2.1, he.2.2⟩
    refine (hf.keeps.mono fun e he _ => ?_).trans (hfs.keeps.mono fun e he halloc => ?_)
    · exact hc.depicts.tiles.nodup.mem_erase_iff.2 ⟨(hmem e he).2.1, (hmem e he).1⟩
    · rw [List.mem_filter, decide_eq_true_eq]
      exact ⟨(hf.mem_blocks_iff e halloc).2 ⟨(hmem e he).1, (hmem e he).2.1⟩, (hmem e he).2.2⟩

end Heap

namespace Client

variable {s : Client σ} {d : Directory} {χ : Chart} {b : Block} {ps qs : List Nat}

/-- **The same payload** for two clients: of one size, and byte for byte. -/
def SamePayload (s s' : Client σ) (p : Nat) : Prop :=
  s'.usable p = s.usable p ∧
    ∀ i, i < s.usable p → s'.heap.memory.byte (p + i) = s.heap.memory.byte (p + i)

/-- The client after giving some payloads back, one after another. -/
def freeAll (s : Client σ) (ps : List Nat) : Client σ := s.run (ps.map fun p => .free (some p))

theorem freeAll_cons (p : Nat) : s.freeAll (p :: ps) = (s.step (.free (some p))).freeAll ps := rfl

/-- What was given back is not owned any more, and all else is. -/
theorem owns_freeAll {p : Nat} : (s.freeAll ps).Owns p ↔ s.Owns p ∧ p ∉ ps := by
  induction ps generalizing s with
  | nil => simp [freeAll, run]
  | cons q ps ih =>
    have hstep : (s.step (.free (some q))).Owns p ↔ s.Owns p ∧ p ≠ q := by
      change (Function.update s.shadow q none p).isSome ↔ _
      by_cases hp : p = q
      · simp [hp]
      · rw [Function.update_of_ne hp]
        exact ⟨fun howns => ⟨howns, hp⟩, And.left⟩
    rw [freeAll_cons, ih, hstep, List.mem_cons, not_or, and_assoc]

theorem step_free (hc : s.heap.Charted d χ) (hb : b ∈ χ.blocks) (halloc : b.isAllocated = true) :
    Heap.Frees s.heap d χ b (s.step (.free (some b.payload))).heap := by
  have hx : Heap.Ends (Call.free (some b.payload)).perform s.heap
      fun _ h' => Heap.Frees s.heap d χ b h' := by
    rw [Call.perform, Heap.ends_bind]
    refine (Heap.ends_free hc hb halloc).mono ?_
    rintro r h' ⟨rfl, hf⟩
    rw [Heap.ends_pure]
    exact hf
  exact (step_of_ends (P := fun _ h' => Heap.Frees s.heap d χ b h') hx).1

/-- **Giving several payloads back.** -/
theorem freeAll_frees (hc : s.heap.Charted d χ) (hnd : ps.Nodup)
    (hps : ∀ p ∈ ps, ∃ b ∈ χ.blocks, b.isAllocated = true ∧ b.payload = p) :
    ∃ χ', Heap.FreesAll s.heap d χ ps (s.freeAll ps).heap χ' := by
  induction ps generalizing s χ with
  | nil => exact ⟨χ, .refl hc⟩
  | cons p ps ih =>
    obtain ⟨b, hb, halloc, rfl⟩ := hps p List.mem_cons_self
    rw [List.nodup_cons] at hnd
    have hf := step_free hc hb halloc
    obtain ⟨χ', hfs⟩ := ih hf.charted hnd.2 fun q hq => by
      obtain ⟨e, he, halloc', rfl⟩ := hps q (List.mem_cons_of_mem _ hq)
      refine ⟨e, (hf.mem_blocks_iff e halloc').2 ⟨he, ?_⟩, halloc', rfl⟩
      rintro rfl
      exact hnd.1 hq
    exact ⟨χ', hf.trans hc hb hfs⟩

/-- A payload that is not given back is the same as before. -/
theorem samePayload_of_freesAll {s' : Client σ} {χ' : Chart} (hc : s.heap.Charted d χ)
    (hfs : Heap.FreesAll s.heap d χ ps s'.heap χ') (hb : b ∈ χ.blocks)
    (halloc : b.isAllocated = true) (hp : b.payload ∉ ps) : s.SamePayload s' b.payload := by
  obtain ⟨husable, hbytes⟩ := hfs.payload hb halloc hp
  have hsize : s.usable b.payload = b.size - 8 := hc.depicts.usableSize_eq hb
  exact ⟨husable.trans hsize.symm, fun i hi => hbytes i (hsize ▸ hi)⟩

omit [Store σ] in
theorem SamePayload.symm_trans {s₁ s₂ : Client σ} {p : Nat} (h₁ : s.SamePayload s₁ p)
    (h₂ : s.SamePayload s₂ p) : s₁.SamePayload s₂ p := by
  refine ⟨h₂.1.trans h₁.1.symm, fun i hi => ?_⟩
  have hi : i < s.usable p := h₁.1 ▸ hi
  rw [h₁.2 i hi, h₂.2 i hi]

/-- **The order of giving back does not matter.** Two clients that give
different payloads of one client back in different order are left with the
same heap but for ties, and own the same payloads with the same bytes. Of the
allocated blocks those given back are gone, and the payloads of the others are
as they were. -/
theorem Reachable.freeAll_perm [Store.Lawful σ] (hs : Reachable s) (hnd : ps.Nodup)
    (hps : ∀ p ∈ ps, s.Owns p) (hperm : ps.Perm qs) :
    (s.freeAll ps).heap.SameButTies (s.freeAll qs).heap ∧
      (∀ b, b.isAllocated = true →
        (b ∈ (s.freeAll ps).heap.blocks ↔ b ∈ s.heap.blocks ∧ b.payload ∉ ps)) ∧
      ∀ p, ((s.freeAll ps).Owns p ↔ s.Owns p ∧ p ∉ ps) ∧
        ((s.freeAll qs).Owns p ↔ (s.freeAll ps).Owns p) ∧
        ((s.freeAll ps).Owns p →
          s.SamePayload (s.freeAll ps) p ∧ (s.freeAll ps).SamePayload (s.freeAll qs) p) := by
  obtain ⟨χ, ht⟩ := hs.sound
  have hqs : ∀ p, p ∈ qs ↔ p ∈ ps := fun p => hperm.symm.mem_iff
  have howns : ∀ p, (s.freeAll qs).Owns p ↔ (s.freeAll ps).Owns p := fun p => by
    rw [owns_freeAll, owns_freeAll, hqs]
  rcases ht.shows with ⟨hblank, rfl⟩ | ⟨d, hc⟩
  · -- nothing is owned of a blank heap
    obtain rfl : ps = [] := List.eq_nil_iff_forall_not_mem.2 fun p hp => by
      obtain ⟨b, hb, -⟩ := (ht.owned_iff p).1 (hps p hp)
      cases hb
    obtain rfl : qs = [] := hperm.nil_eq.symm
    have hsame : ∀ p, s.SamePayload s p := fun p => ⟨rfl, fun _ _ => rfl⟩
    exact ⟨⟨rfl, rfl, fun _ => .refl _, fun _ => rfl⟩,
      fun b _ => (and_iff_left List.not_mem_nil).symm,
      fun p => ⟨owns_freeAll, Iff.rfl, fun _ => ⟨hsame p, hsame p⟩⟩⟩
  · have hblocks : ∀ p ∈ ps, ∃ b ∈ χ.blocks, b.isAllocated = true ∧ b.payload = p := fun p hp =>
      (ht.owned_iff p).1 (hps p hp)
    obtain ⟨χ₁, h₁⟩ := freeAll_frees hc hnd hblocks
    obtain ⟨χ₂, h₂⟩ := freeAll_frees hc (hperm.nodup_iff.1 hnd) fun p hp =>
      hblocks p ((hqs p).1 hp)
    refine ⟨h₁.charted.sameButTies h₂.charted ?_ ?_, ?_, fun p => ⟨owns_freeAll, howns p, ?_⟩⟩
    · unfold Heap.region
      rw [h₁.store, h₂.store]
    · intro e he
      rw [h₁.mem_blocks_iff e he, h₂.mem_blocks_iff e he, hqs]
    · intro b halloc
      rw [h₁.charted.blocks_eq, hc.blocks_eq]
      exact h₁.mem_blocks_iff b halloc
    · intro hp
      obtain ⟨howned, hnot⟩ := owns_freeAll.1 hp
      obtain ⟨b, hb, halloc, rfl⟩ := (ht.owned_iff p).1 howned
      have hsame₁ := samePayload_of_freesAll hc h₁ hb halloc hnot
      have hsame₂ := samePayload_of_freesAll hc h₂ hb halloc (mt (hqs _).1 hnot)
      exact ⟨hsame₁, hsame₁.symm_trans hsame₂⟩

/-- An arena of three chunks. -/
def roomyArena : Arena := { capacity := 16384, capacity_lt := by decide }

/-- A client that owns four payloads side by side. -/
def crowd : Client Arena :=
  (ofArena roomyArena).run [.malloc 24, .malloc 100, .malloc 8, .malloc 40, .write 232 39 5]

theorem reachable_crowd : Reachable crowd := (reachable_ofArena rfl).run (by decide +kernel)

/-- Three of its payloads, from left to right and with the middle one
last. -/
theorem crowd_freeAll_perm :
    Reachable crowd ∧ [72, 104, 216].Nodup ∧ (∀ p ∈ [72, 104, 216], crowd.Owns p) ∧
      [72, 104, 216].Perm [216, 72, 104] ∧
      (crowd.freeAll [72, 104, 216]).heap.SameButTies (crowd.freeAll [216, 72, 104]).heap := by
  have howns : ∀ p ∈ [72, 104, 216], crowd.Owns p := by
    unfold Owns
    decide +kernel
  have hperm : [72, 104, 216].Perm [216, 72, 104] := by decide
  exact ⟨reachable_crowd, by decide, howns, hperm,
    (reachable_crowd.freeAll_perm (by decide) howns hperm).1⟩

/-! ## Everything given back -/

/-- What a client owns is what is allocated in its heap. -/
theorem Reachable.owns_iff [Store.Lawful σ] (hs : Reachable s) {p : Nat} :
    s.Owns p ↔ ∃ b ∈ s.heap.blocks, b.isAllocated = true ∧ b.payload = p := by
  obtain ⟨χ, ht⟩ := hs.sound
  rw [ht.shows.blocks_eq]
  exact ht.owned_iff p

/-- **Nothing leaks.** When a client has given back all it was given, all
that its heap has for blocks is one free block, on its own in its list, and
it is there for the largest request it can serve, without the store. -/
theorem Reachable.nothing_leaks [Store.Truthful σ] (hs : Reachable s) (hnone : ∀ p, ¬ s.Owns p)
    (hgrown : 56 < s.heap.size) :
    s.heap.blocks = [⟨s.heap.region.start + 56, s.heap.size - 56, false⟩] ∧
      (∀ c, s.heap.list c =
        if c = SizeClass.ofSize (s.heap.size - 56) then [s.heap.region.start + 56] else []) ∧
      ∃ h', Heap.tryMalloc (s.heap.size - 64) s.heap =
          .ok (some (s.heap.region.start + 56)) h' ∧ h'.store = s.heap.store := by
  obtain ⟨χ, ht⟩ := hs.sound
  have hsize : s.heap.size = s.heap.region.extent := Store.Truthful.size_eq s.heap.store
  rcases ht.shows with ⟨hblank, -⟩ | ⟨d, hc⟩
  · have := hblank.extent
    omega
  have hdepicts := hc.depicts
  have hbase := hc.base
  have hstop : s.heap.region.stop = s.heap.region.start + s.heap.region.extent := rfl
  have hfirst : d.firstBlock = s.heap.region.start + 56 := by rw [Directory.firstBlock_eq, hbase]
  have hfree : ∀ e ∈ χ.blocks, e.isAllocated = false := fun e he =>
    Bool.eq_false_iff.2 fun halloc => hnone _ ((ht.owned_iff _).2 ⟨e, he, halloc, rfl⟩)
  -- one block of all the bytes
  obtain ⟨b, hb⟩ : ∃ b : Block, b = ⟨s.heap.region.start + 56, s.heap.size - 56, false⟩ := ⟨_, rfl⟩
  have hblocks : χ.blocks = [b] := by
    rw [hdepicts.blocks_of_all_free hc.settled (by omega) hfree, hb, hfirst, hstop, hsize,
      Nat.add_sub_add_left]
  have hbsize : b.size = s.heap.size - 56 := by rw [hb]
  refine ⟨by rw [hc.blocks_eq, hblocks, hb], ?_, ?_⟩
  · intro c
    rw [hc.list_eq, hdepicts.lists_of_blocks_eq_singleton hc.settled hblocks (by rw [hb]), hbsize]
    split
    · rw [List.map_singleton, hb]
    · rfl
  · -- the largest request it can serve
    rw [show s.heap.size - 64 = b.size - 8 by omega]
    obtain ⟨h', hrun, hstore⟩ := hc.tryMalloc_of_singleton hblocks (by rw [hb])
    exact ⟨h', by rw [hrun, hb], hstore⟩

/-- A client that moved a payload to a second chunk and gave all back. -/
def deserted : Client Arena :=
  (ofArena roomyArena).run [.malloc 24, .realloc (some 72) 4500, .free (some 104)]

theorem deserted_nothing_leaks :
    Reachable deserted ∧ (∀ p, ¬ deserted.Owns p) ∧ 56 < deserted.heap.size ∧
      deserted.heap.blocks =
        [⟨deserted.heap.region.start + 56, deserted.heap.size - 56, false⟩] ∧
      ∃ h', Heap.tryMalloc (deserted.heap.size - 64) deserted.heap =
          .ok (some (deserted.heap.region.start + 56)) h' ∧
        h'.store = deserted.heap.store := by
  have hreach : Reachable deserted := (reachable_ofArena rfl).run (by decide +kernel)
  obtain ⟨hfree, hgrown⟩ : (∀ b ∈ deserted.heap.blocks, b.isAllocated = false) ∧
      56 < deserted.heap.size := by decide +kernel
  have hnone : ∀ p, ¬ deserted.Owns p := by
    intro p hp
    obtain ⟨b, hb, halloc, -⟩ := hreach.owns_iff.1 hp
    rw [hfree b hb] at halloc
    cases halloc
  obtain ⟨hblocks, -, hrun⟩ := hreach.nothing_leaks hnone hgrown
  exact ⟨hreach, hnone, hgrown, hblocks, hrun⟩

end Client

end SegFit
