import SegFit.Proofs.Heap.Shows
import SegFit.Proofs.Walks.Basic
import SegFit.Proofs.Walks.Chart
/-!
# Operations take few steps along lists

In each heap on the way of an operation a chart is known, and with it that the
next walk ends after no more blocks than are free there. An operation makes at
most one free block more than it finds, so it takes a number of steps that is
linear in the number of free blocks. There is one lemma for each operation, in
the order of the calls.
-/

namespace SegFit

namespace Heap

variable {σ : Type} [Store σ] {h h' : Heap σ} {d : Directory} {χ χ' : Chart} {b : Block}
  {n g need : Nat}

/-- How many blocks of a heap are free. -/
def freeBlocks (h : Heap σ) : Nat := h.blocks.countP fun b => !b.isAllocated

theorem Shows.freeBlocks_eq (hs : h.Shows χ) : h.freeBlocks = χ.free := by
  rw [freeBlocks, hs.blocks_eq, Chart.free]

/-! ## Free blocks, before and after -/

/-- Growth that leads to a chart has kept within the reach of links. -/
theorem Charted.reach_of_grown (hc' : h'.Charted d χ')
    (hregion : h'.region = ⟨h.region.start, h.region.extent + g⟩) :
    h.region.stop + g < d.heads + 2 ^ 32 := by
  have hreach := hc'.depicts.reach
  rwa [hregion, Region.stop, ← Nat.add_assoc] at hreach

/-- **Growing** makes one free block more, at most. -/
theorem Charted.free_grow_le (hc : h.Charted d χ) (hlarge : 16 ≤ n)
    (hg : Layout.alignUp? n = some g) (hregion : h'.region = ⟨h.region.start, h.region.extent + g⟩)
    (hc' : h'.Charted d χ') : (χ.grow h.region.stop g).2.free ≤ χ.free + 1 := by
  obtain ⟨hn, -, h8⟩ := Layout.alignUp?_eq_some hg
  exact hc.depicts.free_grow_le hc.settled (hlarge.trans hn) h8 (hc'.reach_of_grown hregion)

/-- **A heap made ready** has one free block more, at most. -/
theorem ends_ready_free [Store.Lawful σ] (hs : h.Shows χ) :
    Ends ready h fun r h' => ∀ d, r = .ok d → ∃ χ', h'.Charted d χ' ∧ χ'.free ≤ χ.free + 1 := by
  cases hs with
  | charted d hc =>
    rw [ends_ready_of_some hc.directory]
    rintro _ ⟨⟩
    exact ⟨χ, hc, Nat.le_succ _⟩
  | blank hblank hempty =>
    subst hempty
    refine (ends_ready_of_blank hblank).mono ?_
    intro r h' hr d hd
    subst hd
    obtain ⟨rfl, hready⟩ := hr
    refine ⟨_, hready.charted, ?_⟩
    rw [Chart.grow_empty (by decide)]
    exact Nat.le_refl _

/-- **Serving a request** leaves one free block more, at most, wherever its block
comes from. -/
theorem Source.free_carve_le {χ₁ : Chart} (hc : h.Charted d χ) (hlarge : 16 ≤ need)
    (hsource : Source h χ need χ₁ b h') (hc' : h'.Charted d χ') :
    (χ₁.carve b need).free ≤ χ.free + 1 := by
  cases hsource with
  | fit hfit =>
    exact (hc.depicts.free_carve_le (hc.depicts.mem_of_findFit hfit).1).trans (Nat.le_succ _)
  | @grown _ g _ hg hregion =>
    obtain ⟨hn, -, h8⟩ := Layout.alignUp?_eq_some hg
    obtain ⟨-, hgrown, -, -, hgrows⟩ := hc.depicts.grow hc.settled (n := g) (by omega) h8
      (hc'.reach_of_grown hregion)
    exact (hgrown.free_carve_le hgrows.filed).trans (hc.free_grow_le (by omega) hg hregion hc')

end Heap

namespace Paced

variable {σ : Type} [Store σ] {h : Heap σ} {d : Directory} {χ : Chart} {b : Block} {n need : Nat}

/-- **An audit** of a charted heap. -/
theorem within_audit_charted (hc : h.Charted d χ) (line : Line) :
    Within (audit line) (Heap.audit line) h (χ.free + 10) := by
  refine within_audit (fun d' hd => ?_) line
  rw [hc.directory] at hd
  cases hd
  exact hc.depicts.gives_survey

theorem within_auditItself_charted (hc : h.Charted d χ) :
    Within auditItself Heap.auditItself h (χ.free + 10) := by
  refine within_auditItself fun d' hd => ?_
  rw [hc.directory] at hd
  cases hd
  exact hc.depicts.gives_survey

variable [Store.Lawful σ]

/-! ## Growing and getting ready -/

theorem within_extend (hc : h.Charted d χ) (hlarge : 16 ≤ n) :
    Within (extend d n) (Heap.extend d n) h (2 * χ.free + 4) := by
  rw [extend, Heap.extend]
  cases hg : Layout.alignUp? n with
  | none => exact Within.plain_bind fun _ _ hrun => by cases hrun
  | some g =>
    obtain ⟨hn, -, h8⟩ := Layout.alignUp?_eq_some hg
    refine Within.plain_bind_of_ok rfl ?_
    refine Within.plain_bind_of_ok rfl ?_
    split
    · rename_i hrange
      have hreach : h.region.stop + g < d.heads + 2 ^ 32 := by
        have hextent : h.region.extent ≤ h.size := Store.Lawful.extent_le_size h.store
        have hbase := hc.base
        simp only [Region.stop]
        simp only [Layout.wordRange] at hrange
        omega
      refine Within.plain_bind fun p h' hrun => ?_
      have hends : Heap.Ends (Heap.request g) h fun r h' =>
          r = (Store.grow g h.store).answer ∧ h'.memory = h.memory :=
        Heap.ends_request.2 ⟨rfl, rfl⟩
      obtain ⟨ha, hmemory⟩ := (Heap.ends_of_ok hrun).1 hends
      obtain rfl : p = h.region.stop := (Store.Lawful.grow_ok ha.symm).1
      refine Within.mono (n := χ.free + 2 + (χ.free + 2)) ?_ (by omega)
      refine (within_edit ?_).bind_of_ok rfl (Within.plain_bind_of_ok rfl (within_editWith ?_))
      · rw [hmemory]
        exact hc.depicts.gives_append (hlarge.trans hn) h8 hreach
      · simp only [hmemory]
        exact hc.depicts.gives_grow hc.settled (hlarge.trans hn) h8 hreach
    · exact Within.plain_bind fun _ _ _ => within_plain _

theorem within_firstChunk (hc : h.Charted d χ) :
    Within (firstChunk d) (Heap.firstChunk d) h (2 * χ.free + 4) :=
  (within_extend (n := Layout.chunk) hc (by decide)).discard.orNotReady _

/-- **Making a heap ready**: a blank heap has no free blocks to walk past. -/
theorem within_ready (hs : h.Shows χ) : Within ready Heap.ready h 4 := by
  refine Within.plain_bind_of_ok rfl ?_
  cases hs with
  | charted d hc =>
    rw [hc.directory]
    exact within_pure _
  | blank hblank =>
    rw [hblank.directory]
    refine Within.plain_bind fun base h' hrun => ?_
    obtain ⟨ha, j, rfl⟩ := (Heap.ends_of_ok hrun).1 Heap.ends_request_layout base rfl
    refine Within.plain_bind_of_ok rfl ?_
    refine Within.plain_bind_of_ok rfl ?_
    refine Within.plain_bind_of_ok rfl ?_
    obtain ⟨rfl, hbare⟩ := hblank.laidBare ha (j.push (.laidOut base))
    exact (within_firstChunk hbare.charted).bind_plain fun _ _ => within_pure _

theorem within_init (hs : h.Shows χ) : Within init Heap.init h (2 * χ.free + 10) := by
  refine Within.mono (n := 4 + (2 * χ.free + 6)) ?_ (by omega)
  refine (within_ready hs).bind_of_ends (Heap.ends_ready_free hs) fun d h' hd => ?_
  obtain ⟨χ', hc, hfree⟩ := hd d rfl
  refine Within.plain_bind_of_ok rfl ?_
  split
  · exact (within_firstChunk hc).mono (by omega)
  · exact within_pure _

/-! ## Allocating -/

omit [Store.Lawful σ] in
/-- Serving a request from a filed block that has room for it. -/
theorem within_serve (hc : h.Charted d χ) (hb : b ∈ χ.lists (SizeClass.ofSize b.size))
    (hlarge : 16 ≤ need) (h8 : need % 8 = 0) (hle : need ≤ b.size) :
    Within
      (do
        edit (Walked.carve d b.payload need)
        plain (Heap.record (.allocated n b.payload need))
        auditItself
        return some b.payload)
      (do
        Heap.edit (d.carve b.payload need)
        Heap.record (.allocated n b.payload need)
        Heap.auditItself
        return some b.payload) h (2 * χ.free + 11) := by
  obtain ⟨hc', -⟩ := hc.carve hb hlarge h8 hle (h.journal.push (.allocated n b.payload need))
  have hfree : (χ.carve b need).free ≤ χ.free := hc.depicts.free_carve_le hb
  refine Within.mono (n := χ.free + 1 + (χ.free + 10)) ?_ (by omega)
  refine (within_edit (hc.depicts.gives_carve hb hlarge h8 hle)).bind_of_ok rfl ?_
  refine Within.plain_bind_of_ok rfl ?_
  refine Within.bind_plain ?_ fun _ _ => within_pure _
  exact (within_auditItself_charted hc').mono (by omega)

theorem within_tryMalloc (hs : h.Shows χ) (n : Nat) :
    Within (tryMalloc n) (Heap.tryMalloc n) h (5 * χ.free + 36) := by
  refine Within.mono (n := 4 + (5 * χ.free + 32)) ?_ (by omega)
  refine (within_ready hs).attempt_bind (Heap.ends_ready_free hs) fun r h₁ hready => ?_
  by_cases hn : n = 0
  · rw [if_pos hn, if_pos hn]
    exact within_pure _
  rw [if_neg hn, if_neg hn]
  cases r with
  | error e => exact within_plain _
  | ok d =>
    obtain ⟨χ₁, hc, hfree⟩ := hready d rfl
    cases hneed : Layout.blockSizeFor? n with
    | none => exact Within.plain_bind fun _ _ hrun => by cases hrun
    | some need =>
      obtain ⟨-, -, hlarge, h8, -⟩ := Layout.blockSizeFor?_eq_some hneed
      refine Within.plain_bind_of_ok rfl ?_
      refine Within.mono (n := χ₁.free + 10 + (4 * χ₁.free + 17)) ?_ (by omega)
      refine (within_look (hc.depicts.gives_findFit need)).bind_of_ok rfl ?_
      dsimp only
      rw [hc.depicts.findFit_eq]
      cases hfit : χ₁.findFit need with
      | some b =>
        obtain ⟨hb, hle⟩ := hc.depicts.mem_of_findFit hfit
        have hserve := within_serve (n := n) hc hb hlarge h8 hle
        exact ((within_pure (n := 0) _).bind_of_ok rfl hserve).mono (by omega)
      | none =>
        refine Within.mono (n := 2 * χ₁.free + 4 + (2 * χ₁.free + 13)) ?_ (by omega)
        refine (within_extend hc (by omega)).bind_of_ends (Heap.ends_extend hc (by omega)) ?_
        rintro p h₂ ⟨g, hg, rfl, hregion, hc₂, -, hgrows, -⟩
        have hgrown := hc.free_grow_le (by omega) hg hregion hc₂
        refine (within_serve hc₂ hgrows.filed hlarge h8 ?_).mono (by omega)
        have := (Layout.alignUp?_eq_some hg).1
        have := hgrows.large
        omega

/-! ## Giving back -/

theorem within_free_none (hs : h.Shows χ) : Within (free none) (Heap.free none) h 4 := by
  refine (within_ready hs).attempt.bind_plain fun r h' => ?_
  cases r <;> exact Walked.gives_pure _

omit [Store.Lawful σ] in
theorem within_free (hc : h.Charted d χ) (hb : b ∈ χ.blocks) (halloc : b.isAllocated = true) :
    Within (free (some b.payload)) (Heap.free (some b.payload)) h (3 * χ.free + 15) := by
  have hfree := hc.depicts.free_release_le hc.settled hb halloc
  have hready : Within ready Heap.ready h 0 := by
    refine Within.plain_bind_of_ok rfl ?_
    rw [hc.directory]
    exact within_pure _
  refine Within.mono (n := 0 + (3 * χ.free + 15)) ?_ (by omega)
  refine hready.attempt_bind ((Heap.ends_ready_of_some hc.directory).2 ⟨rfl, rfl⟩)
    (Q := fun r h' => r = .ok d ∧ h = h') ?_
  rintro _ _ ⟨rfl, rfl⟩
  refine Within.plain_bind_of_ok rfl ?_
  dsimp only
  rw [hc.depicts.blockSize_eq hb]
  refine Within.plain_bind_of_ok rfl ?_
  refine Within.mono (n := χ.free + 2 + (χ.free + 2 + (χ.free + 11))) ?_ (by omega)
  refine (within_edit ?_).bind_of_ok rfl ?_
  · exact hc.depicts.gives_unlock hb halloc
  refine (within_editWith ?_).discard.bind_of_ends
    (Q := fun _ h' => h'.Charted d (χ.release b).2) ?_ fun _ h' hc' => ?_
  · dsimp only
    exact hc.depicts.gives_release hc.settled hb halloc
  · rw [Heap.ends_discard, Heap.ends_editWith]
    dsimp only
    exact (hc.release hb halloc h.journal).1
  · refine Within.plain_bind_of_ok rfl ?_
    exact (within_auditItself_charted (hc'.idle (Heap.idle_journal _ _))).mono (by omega)

/-! ## Moving and zeroing -/

omit [Store.Lawful σ] in
/-- Moving the contents of one block to another and giving the first back. -/
theorem within_move (hc : h.Charted d χ) {e : Block} (hb : b ∈ χ.blocks)
    (halloc : b.isAllocated = true) (he : e ∈ χ.blocks) (healloc : e.isAllocated = true)
    (hne : b ≠ e) :
    Within
      (do
        let kept ← plain (Heap.look fun m => min (m.usableSize b.payload) (m.usableSize e.payload))
        plain (Heap.edit (·.copy b.payload e.payload kept))
        free (some b.payload)
        plain (Heap.record (.moved b.payload n e.payload kept))
        return some e.payload)
      (do
        let kept ← Heap.look fun m => min (m.usableSize b.payload) (m.usableSize e.payload)
        Heap.edit (·.copy b.payload e.payload kept)
        Heap.free (some b.payload)
        Heap.record (.moved b.payload n e.payload kept)
        return some e.payload) h (3 * χ.free + 15) := by
  have hkept : min (h.memory.usableSize b.payload) (h.memory.usableSize e.payload) =
      min (b.size - 8) (e.size - 8) := by
    rw [hc.depicts.usableSize_eq hb, hc.depicts.usableSize_eq he]
  refine Within.plain_bind_of_ok rfl ?_
  refine Within.plain_bind_of_ok rfl ?_
  refine (within_free (hc.copy hb he healloc hne hkept).1 hb halloc).bind_plain fun _ _ => ?_
  exact Within.plain_bind fun _ _ _ => within_pure _

theorem within_tryRealloc (hs : h.Shows χ) {p : Option Nat} (n : Nat)
    (hp : ∀ q ∈ p, ∃ b ∈ χ.blocks, b.isAllocated = true ∧ b.payload = q) :
    Within (tryRealloc p n) (Heap.tryRealloc p n) h (8 * χ.free + 54) := by
  unfold tryRealloc Heap.tryRealloc
  cases p with
  | none =>
    split
    · exact ((within_free_none hs).bind_plain fun _ _ => within_pure _).mono (by omega)
    · exact (within_tryMalloc hs n).mono (by omega)
  | some q =>
    obtain ⟨b, hb, halloc, rfl⟩ := hp q rfl
    obtain ⟨d, hc⟩ := hs.charted_of_mem hb
    split
    · exact ((within_free hc hb halloc).bind_plain fun _ _ => within_pure _).mono (by omega)
    · refine Within.mono (n := 5 * χ.free + 36 + (3 * χ.free + 18)) ?_ (by omega)
      refine (within_tryMalloc hs n).bind_of_ends (Heap.ends_tryMalloc hc n) ?_
      intro r h₁ hr
      cases hr with
      | nothing => exact within_pure _
      | @served _ need χ₁ f _ hneed hsource _ hc₁ _ hnew hblocks =>
        have hb₁ : b ∈ (χ₁.carve f need).blocks := (hblocks b halloc).2 (.inl hb)
        have hne : b ≠ Chart.served f need := fun heq => hnew (heq ▸ hb)
        have hfree := hsource.free_carve_le hc (Layout.blockSizeFor?_eq_some hneed).2.2.1 hc₁
        exact (within_move (e := Chart.served f need) hc₁ hb₁ halloc
          ((hblocks _ rfl).2 (.inr rfl)) rfl hne).mono (by omega)

theorem within_tryCalloc (hs : h.Shows χ) (count size : Nat) :
    Within (tryCalloc count size) (Heap.tryCalloc count size) h (5 * χ.free + 36) := by
  unfold tryCalloc Heap.tryCalloc
  split
  · refine (within_tryMalloc hs _).bind_plain fun p h₁ => ?_
    cases p with
    | none => exact within_pure _
    | some p => exact Within.plain_bind fun _ _ _ => within_pure _
  · exact within_plain _

end Paced

end SegFit
