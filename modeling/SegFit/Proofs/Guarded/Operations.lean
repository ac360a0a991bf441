import SegFit.Proofs.Guarded.Basic
import SegFit.Proofs.Guarded.Chart
import SegFit.Proofs.Heap.Shows
/-!
# Operations refuse nothing

Over a truthful store no operation of a heap between operations has anything
refused: in each heap on its way a chart is known, and with it that the next
edit is exact. The sum that growth holds against the range of links is a size,
since both of its parts are bounded by that range. There is one lemma for each
operation, in the order of the calls.
-/

namespace SegFit

namespace Guarded

variable {σ : Type} [Store σ] [Store.Truthful σ] {h : Heap σ} {d : Directory} {χ : Chart}
  {b : Block} {n need : Nat}

/-! ## Growing and getting ready -/

/-- A charted heap is no larger than a link reaches. -/
theorem size_lt_of_charted (hc : h.Charted d χ) : h.size < Layout.wordRange := by
  have hreach := hc.depicts.reach
  have hbase := hc.base
  have hsize : h.size = h.region.extent := Store.Truthful.size_eq h.store
  simp only [Region.stop] at hreach
  simp only [Layout.wordRange]
  omega

theorem faithful_extend (hc : h.Charted d χ) (hlarge : 16 ≤ n) (hlt : n < Layout.wordRange) :
    Faithful (extend d n) (Heap.extend d n) h := by
  have hsize := size_lt_of_charted hc
  have hextent : h.size = h.region.extent := Store.Truthful.size_eq h.store
  rw [extend, Heap.extend]
  cases hg : Layout.alignUp? n with
  | none => rfl
  | some g =>
    obtain ⟨hn, hup, h8⟩ := Layout.alignUp?_eq_some hg
    have hsum : Layout.checkedAdd? h.size g = some (h.size + g) :=
      if_pos (by simp only [Layout.wordRange, Layout.sizeRange] at *; omega)
    refine (faithful_plain _).bind_of_ok rfl ?_
    refine faithful_read?_bind hsum ?_
    change Faithful (if h.size + g < Layout.wordRange then _ else _)
      (if h.size + g < Layout.wordRange then _ else _) h
    by_cases hrange : h.size + g < Layout.wordRange
    · rw [if_pos hrange, if_pos hrange]
      have hreach : h.region.stop + g < d.heads + 2 ^ 32 := by
        have hbase := hc.base
        simp only [Region.stop]
        simp only [Layout.wordRange] at hrange
        omega
      refine (faithful_plain _).bind_of_ends (Heap.ends_request.2 ⟨rfl, rfl⟩)
        (Q := fun r h' => r = (Store.grow g h.store).answer ∧ h'.memory = h.memory) ?_
      rintro p h' ⟨ha, hmemory⟩
      obtain rfl : p = h.region.stop := (Store.Lawful.grow_ok ha.symm).1
      refine (faithful_edit? ?_).bind_of_ok rfl ?_
      · rw [hmemory]
        exact hc.depicts.append?_eq (hlarge.trans hn) h8 hreach
      refine (faithful_plain _).bind_of_ok rfl ?_
      refine faithful_editWith? ?_
      simp only [hmemory]
      exact hc.depicts.grow?_eq hc.settled (hlarge.trans hn) h8 hreach
    · rw [if_neg hrange, if_neg hrange]
      rfl

theorem faithful_firstChunk (hc : h.Charted d χ) :
    Faithful (firstChunk d) (Heap.firstChunk d) h :=
  (faithful_extend hc (by decide) (by decide)).discard.orNotReady _

theorem faithful_ready (hs : h.Shows χ) : Faithful ready Heap.ready h := by
  refine (faithful_plain get).bind_of_ok rfl ?_
  cases hs with
  | charted d hc =>
    rw [hc.directory]
    rfl
  | blank hblank =>
    rw [hblank.directory]
    refine (faithful_plain _).bind_of_ends Heap.ends_request_layout ?_
    intro base h' hr
    obtain ⟨ha, j, rfl⟩ := hr base rfl
    refine (faithful_edit? (Directory.layOut?_eq _ _)).bind_of_ok rfl ?_
    refine (faithful_plain _).bind_of_ok rfl ?_
    refine (faithful_plain _).bind_of_ok rfl ?_
    obtain ⟨rfl, hbare⟩ := hblank.laidBare ha (j.push (.laidOut base))
    exact (faithful_firstChunk hbare.charted).bind fun _ _ _ => rfl

theorem faithful_init (hs : h.Shows χ) : Faithful init Heap.init h := by
  refine (faithful_ready hs).bind_of_ends (Heap.ends_ready hs) ?_
  rintro d h' ⟨-, hready⟩
  obtain ⟨χ', hc, -⟩ := hready d rfl
  refine (faithful_plain get).bind_of_ok rfl ?_
  split
  · exact faithful_firstChunk hc
  · rfl

/-! ## Allocating -/

omit [Store.Truthful σ] in
/-- Serving a request from a filed block that has room for it. -/
theorem faithful_serve (hc : h.Charted d χ) (hb : b ∈ χ.lists (SizeClass.ofSize b.size))
    (hlarge : 16 ≤ need) (h8 : need % 8 = 0) (hle : need ≤ b.size) :
    Faithful
      (do
        edit? (d.carve? b.payload need)
        plain (Heap.record (.allocated n b.payload need))
        auditItself
        return some b.payload)
      (do
        Heap.edit (d.carve b.payload need)
        Heap.record (.allocated n b.payload need)
        Heap.auditItself
        return some b.payload) h := by
  refine (faithful_edit? (hc.depicts.carve?_eq hb hlarge h8 hle)).bind_of_ok rfl ?_
  refine (faithful_plain _).bind_of_ok rfl ?_
  exact (faithful_auditItself _).bind fun _ _ _ => rfl

theorem faithful_tryMalloc (hs : h.Shows χ) (n : Nat) :
    Faithful (tryMalloc n) (Heap.tryMalloc n) h := by
  refine (faithful_ready hs).attempt_bind (Heap.ends_ready hs) ?_
  rintro r h₁ ⟨-, hready⟩
  by_cases hn : n = 0
  · rw [if_pos hn, if_pos hn]
    rfl
  rw [if_neg hn, if_neg hn]
  cases r with
  | error e => rfl
  | ok d =>
    obtain ⟨χ₁, hc, -⟩ := hready d rfl
    cases hneed : Layout.blockSizeFor? n with
    | none => rfl
    | some need =>
      obtain ⟨-, -, hlarge, h8, hlt⟩ := Layout.blockSizeFor?_eq_some hneed
      refine (faithful_plain _).bind_of_ok rfl ?_
      refine (faithful_plain _).bind_of_ok rfl ?_
      dsimp only
      rw [hc.depicts.findFit_eq]
      cases hfit : χ₁.findFit need with
      | some b =>
        obtain ⟨hb, hle⟩ := hc.depicts.mem_of_findFit hfit
        exact (faithful_pure _).bind_of_ok rfl (faithful_serve hc hb hlarge h8 hle)
      | none =>
        have hlt' : max need Layout.chunk < Layout.wordRange := Nat.max_lt.2 ⟨hlt, by decide⟩
        refine (faithful_extend hc (by omega) hlt').bind_of_ends
          (Heap.ends_extend hc (by omega)) ?_
        rintro p h₂ ⟨g, hg, rfl, -, hc₂, -, hgrows, -⟩
        refine faithful_serve hc₂ hgrows.filed hlarge h8 ?_
        have := (Layout.alignUp?_eq_some hg).1
        have := hgrows.large
        omega

/-! ## Giving back -/

theorem faithful_free_none (hs : h.Shows χ) : Faithful (free none) (Heap.free none) h := by
  refine (faithful_ready hs).attempt.bind fun r h' _ => ?_
  cases r <;> rfl

omit [Store.Truthful σ] in
theorem faithful_free (hc : h.Charted d χ) (hb : b ∈ χ.blocks) (halloc : b.isAllocated = true) :
    Faithful (free (some b.payload)) (Heap.free (some b.payload)) h := by
  have hready : Faithful ready Heap.ready h := by
    refine (faithful_plain get).bind_of_ok rfl ?_
    rw [hc.directory]
    rfl
  refine hready.attempt_bind ((Heap.ends_ready_of_some hc.directory).2 ⟨rfl, rfl⟩)
    (Q := fun r h' => r = .ok d ∧ h' = h) ?_
  rintro _ _ ⟨rfl, rfl⟩
  refine (faithful_plain _).bind_of_ok rfl ?_
  dsimp only
  rw [hc.depicts.blockSize_eq hb]
  refine faithful_expect?_bind ((hc.depicts.isAllocated_eq hb).trans halloc) ?_
  refine (faithful_edit? ?_).bind_of_ok rfl ?_
  · exact hc.depicts.setTags?_eq hb _ _ _
  refine (faithful_edit? ?_).bind_of_ok rfl ?_
  · exact hc.depicts.unlock?_eq hb halloc
  refine (faithful_editWith? ?_).discard.bind_of_ok rfl ?_
  · dsimp only
    exact hc.depicts.release?_eq hc.settled hb halloc
  exact (faithful_plain _).bind fun _ _ _ => faithful_auditItself _

/-! ## Moving and zeroing -/

omit [Store.Truthful σ] in
/-- Moving the contents of one block to another and giving the first back. -/
theorem faithful_move (hc : h.Charted d χ) {e : Block} (hb : b ∈ χ.blocks)
    (halloc : b.isAllocated = true) (he : e ∈ χ.blocks) (healloc : e.isAllocated = true)
    (hne : b ≠ e) :
    Faithful
      (do
        let kept ← read? fun h => do
          return min (← h.memory.usableSize? b.payload) (← h.memory.usableSize? e.payload)
        plain (Heap.edit (·.copy b.payload e.payload kept))
        free (some b.payload)
        plain (Heap.record (.moved b.payload n e.payload kept))
        return some e.payload)
      (do
        let kept ← Heap.look fun m => min (m.usableSize b.payload) (m.usableSize e.payload)
        Heap.edit (·.copy b.payload e.payload kept)
        Heap.free (some b.payload)
        Heap.record (.moved b.payload n e.payload kept)
        return some e.payload) h := by
  have hkept : min (h.memory.usableSize b.payload) (h.memory.usableSize e.payload) =
      min (b.size - 8) (e.size - 8) := by
    rw [hc.depicts.usableSize_eq hb, hc.depicts.usableSize_eq he]
  refine (faithful_read? ?_).bind_of_ok rfl ?_
  · rw [hc.depicts.usableSize?_eq hb, hc.depicts.usableSize?_eq he]
    rfl
  refine (faithful_plain _).bind_of_ok rfl ?_
  exact (faithful_free (hc.copy hb he healloc hne hkept).1 hb halloc).bind fun _ _ _ => rfl

theorem faithful_tryRealloc (hs : h.Shows χ) {p : Option Nat} (n : Nat)
    (hp : ∀ q, p = some q → ∃ b ∈ χ.blocks, b.payload = q ∧ b.isAllocated = true) :
    Faithful (tryRealloc p n) (Heap.tryRealloc p n) h := by
  unfold tryRealloc Heap.tryRealloc
  cases p with
  | none =>
    split
    · exact (faithful_free_none hs).bind fun _ _ _ => rfl
    · exact faithful_tryMalloc hs n
  | some q =>
    obtain ⟨b, hb, rfl, halloc⟩ := hp q rfl
    obtain ⟨d, hc⟩ := hs.charted_of_mem hb
    split
    · exact (faithful_free hc hb halloc).bind fun _ _ _ => rfl
    · refine (faithful_tryMalloc hs n).bind_of_ends (Heap.ends_tryMalloc hc n) ?_
      intro r h₁ hr
      cases hr with
      | nothing => rfl
      | @served _ need χ₁ f _ _ _ _ hc₁ _ hnew hblocks =>
        have hb₁ : b ∈ (χ₁.carve f need).blocks := (hblocks b halloc).2 (.inl hb)
        have hne : b ≠ Chart.served f need := fun heq => hnew (heq ▸ hb)
        exact faithful_move (e := Chart.served f need) hc₁ hb₁ halloc
          ((hblocks _ rfl).2 (.inr rfl)) rfl hne

theorem faithful_tryCalloc (hs : h.Shows χ) (count size : Nat) :
    Faithful (tryCalloc count size) (Heap.tryCalloc count size) h := by
  unfold tryCalloc Heap.tryCalloc
  split
  · refine (faithful_tryMalloc hs _).bind_of_ends (Heap.ends_tryMalloc_takes hs _) ?_
    intro r h₁ hr
    cases r with
    | none => rfl
    | some p =>
      obtain ⟨b, χ₁, rfl, hg⟩ := hr
      obtain ⟨d, hc⟩ := hg.shows.charted_of_mem hg.mem
      refine (faithful_edit? ?_).bind_of_ok rfl rfl
      rw [hc.depicts.usableSize?_eq hg.mem]
      rfl
  · rfl

end Guarded

end SegFit
