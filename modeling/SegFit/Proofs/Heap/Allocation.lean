import SegFit.Proofs.Chart.Fit
import SegFit.Proofs.Heap.Readiness
/-!
# What the operations do

Each operation is described by what it makes of the chart: `Served` for
an allocation, and for the others the chart's own operation. A failure
leaves the heap `Idle`, unless the heap was not laid out yet.
-/

namespace SegFit

namespace Heap

variable {σ : Type} [Store σ] {h h' h'' : Heap σ} {d : Directory} {χ χ' : Chart}

/-! ## Allocating -/

/-- **Where the block for a request comes from**: the best fit of the
lists, without the store, or else new bytes. -/
inductive Source (h : Heap σ) (χ : Chart) (need : Nat) : Chart → Block → Heap σ → Prop
  | fit {h' : Heap σ} {b : Block} (hfit : χ.findFit need = some b) (hstore : h'.store = h.store) :
      Source h χ need χ b h'
  | grown {h' : Heap σ} {g : Nat} (hfit : χ.findFit need = none)
      (hg : Layout.alignUp? (max need Layout.chunk) = some g)
      (hregion : h'.region = ⟨h.region.start, h.region.extent + g⟩) :
      Source h χ need (χ.grow h.region.stop g).2 (χ.grow h.region.stop g).1 h'

/-- **What came of an allocation** in a charted heap: no pointer for no
bytes, no block for too many, a refusal where nothing fits, or a block
served from its source. -/
inductive Allots (h : Heap σ) (d : Directory) (χ : Chart) (n : Nat) :
    Except Failure (Option Nat) → Heap σ → Prop
  | nothing {h' : Heap σ} (hn : n = 0) (hidle : Idle h h') : Allots h d χ n (.ok none) h'
  | oversized {h' : Heap σ} (hn : n ≠ 0) (hneed : Layout.blockSizeFor? n = none)
      (hidle : Idle h h') : Allots h d χ n (.error .overflow) h'
  | refused {h' : Heap σ} {need : Nat} {e : Failure} (hn : n ≠ 0)
      (hneed : Layout.blockSizeFor? n = some need) (hfit : χ.findFit need = none)
      (hidle : Idle h h') : Allots h d χ n (.error e) h'
  | served {h' : Heap σ} {need : Nat} {χ₁ : Chart} {b : Block} (hn : n ≠ 0)
      (hneed : Layout.blockSizeFor? n = some need) (hsource : Source h χ need χ₁ b h')
      (hle : need ≤ b.size) (hcharted : h'.Charted d (χ₁.carve b need))
      (hkeeps : Chart.Keeps χ.blocks h.memory h'.memory) (hnew : Chart.served b need ∉ χ.blocks)
      (hblocks : ∀ e, e.isAllocated = true →
        (e ∈ (χ₁.carve b need).blocks ↔ e ∈ χ.blocks ∨ e = Chart.served b need)) :
      Allots h d χ n (.ok (some b.payload)) h'

/-- Carving a charted heap. -/
theorem Charted.carve (hc : h.Charted d χ) {b : Block} {need : Nat}
    (hb : b ∈ χ.lists (SizeClass.ofSize b.size)) (hlarge : 16 ≤ need) (h8 : need % 8 = 0)
    (hle : need ≤ b.size) (j : Array Record) :
    ({ h with memory := d.carve b.payload need h.memory, journal := j } : Heap σ).Charted d
        (χ.carve b need) ∧
      Chart.Keeps χ.blocks h.memory (d.carve b.payload need h.memory) ∧
      Chart.served b need ∉ χ.blocks ∧ ∀ e, e.isAllocated = true →
        (e ∈ (χ.carve b need).blocks ↔ e ∈ χ.blocks ∨ e = Chart.served b need) := by
  obtain ⟨h1, h2, h3, h4⟩ := hc.depicts.serve hc.settled hb hlarge h8 hle
  exact ⟨⟨hc.directory, hc.base, h1, h2, hc.aligned⟩, h3, h4⟩

theorem ends_tryMalloc [Store.Lawful σ] (hc : h.Charted d χ) (n : Nat) :
    Ends (tryMalloc n) h (Allots h d χ n) := by
  simp only [tryMalloc, ends_bind, ends_attempt, ends_ready_of_some hc.directory]
  by_cases hn : n = 0
  · rw [if_pos hn, ends_pure]
    exact .nothing hn (Idle.refl h)
  · simp only [if_neg hn, ends_bind, ends_orFail]
    cases hneed : Layout.blockSizeFor? n with
    | none => exact .oversized hn hneed (Idle.refl h)
    | some need =>
      obtain ⟨-, -, hlarge, h8, -⟩ := Layout.blockSizeFor?_eq_some hneed
      simp only [ends_look, hc.depicts.findFit_eq]
      cases hfit : χ.findFit need with
      | some b =>
        obtain ⟨hb, hle⟩ := hc.depicts.mem_of_findFit hfit
        obtain ⟨hc', hkeeps, hnew, hblocks⟩ := hc.carve hb hlarge h8 hle
          (h.journal.push (.allocated n b.payload need))
        simp only [Option.map_some, ends_bind, ends_pure, ends_edit, ends_record,
          ends_auditItself hc'.violations_eq_nil]
        exact .served hn hneed (.fit hfit rfl) hle hc' hkeeps hnew hblocks
      | none =>
        simp only [Option.map_none, ends_bind]
        refine (ends_extend hc (n := max need Layout.chunk) (by omega)).mono ?_
        intro r h₁ hr
        cases r with
        | error e => exact .refused hn hneed hfit hr
        | ok p =>
          obtain ⟨g, hg, rfl, hregion, hc₁, hkeeps₁, hgrows, -⟩ := hr
          have hle : need ≤ (χ.grow h.region.stop g).1.size := by
            have := (Layout.alignUp?_eq_some hg).1
            have := hgrows.large
            omega
          obtain ⟨hc', hkeeps, hnew, hblocks⟩ := hc₁.carve hgrows.filed hlarge h8 hle
            (h₁.journal.push (.allocated n (χ.grow h.region.stop g).1.payload need))
          simp only [ends_edit, ends_record, ends_auditItself hc'.violations_eq_nil, ends_pure]
          refine .served hn hneed (.grown hfit hg hregion) hle hc' (hkeeps₁.trans ?_) ?_ ?_
          · exact hkeeps.mono fun e he halloc => (hgrows.mem_blocks_iff e halloc).2 he
          · exact fun hin => hnew ((hgrows.mem_blocks_iff _ rfl).2 hin)
          · intro e he
            rw [hblocks e he, hgrows.mem_blocks_iff e he]

/-- **Where a block fits**, a request is served from it, and the store is
not asked. -/
theorem tryMalloc_of_fit [Store.Lawful σ] (hc : h.Charted d χ) {n need : Nat} {b : Block}
    (hn : n ≠ 0) (hneed : Layout.blockSizeFor? n = some need) (hfit : χ.findFit need = some b) :
    ∃ h', tryMalloc n h = .ok (some b.payload) h' ∧ h'.store = h.store ∧
      h'.Charted d (χ.carve b need) ∧ Chart.Keeps χ.blocks h.memory h'.memory := by
  rcases (ends_tryMalloc hc n).cases with ⟨q, h', hrun, ha⟩ | ⟨e, h', -, ha⟩
  · cases ha with
    | nothing hn' => exact absurd hn' hn
    | served _ hneed' hsource _ hc' hkeeps =>
      obtain rfl : need = _ := Option.some.inj (hneed.symm.trans hneed')
      cases hsource with
      | fit hfit' hstore =>
        obtain rfl : b = _ := Option.some.inj (hfit.symm.trans hfit')
        exact ⟨h', hrun, hstore, hc', hkeeps⟩
      | grown hfit' =>
        rw [hfit] at hfit'
        cases hfit'
  · -- a failure is for want of a size or of a fit
    cases ha with
    | oversized _ hneed' =>
      rw [hneed] at hneed'
      cases hneed'
    | refused _ hneed' hfit' =>
      obtain rfl : need = _ := Option.some.inj (hneed.symm.trans hneed')
      rw [hfit] at hfit'
      cases hfit'

/-- **A heap of one free block** serves the largest request that its block has
room for. -/
theorem Charted.tryMalloc_of_singleton [Store.Lawful σ] (hc : h.Charted d χ) {b : Block}
    (hblocks : χ.blocks = [b]) (hfree : b.isAllocated = false) :
    ∃ h', tryMalloc (b.size - 8) h = .ok (some b.payload) h' ∧ h'.store = h.store := by
  have hin : b ∈ χ.blocks := by rw [hblocks]; exact List.mem_singleton_self b
  have hproper := (hc.depicts.tiles.bounds hin).2.2
  have hlarge := hproper.large
  have hneed : Layout.blockSizeFor? (b.size - 8) = some b.size :=
    Layout.blockSizeFor?_sub hlarge hproper.aligned (hc.depicts.size_lt hin)
  obtain ⟨e, he⟩ : ∃ e, χ.findFit b.size = some e := by
    refine Option.ne_none_iff_exists'.1 fun hnil => ?_
    have := (hc.depicts.findFit_eq_none_iff hc.settled).1 hnil b hin hfree
    omega
  obtain rfl : e = b := by
    have hmem := (hc.depicts.listed _ e (hc.depicts.mem_of_findFit he).1).1
    rwa [hblocks, List.mem_singleton] at hmem
  obtain ⟨h', hrun, hstore, -⟩ := tryMalloc_of_fit hc (by omega) hneed he
  exact ⟨h', hrun, hstore⟩

/-- **What came of growing for a request** that no block fitted: the heap
`h₀` right after it, and the heap with the request served from there. -/
structure ServedGrown (h : Heap σ) (d : Directory) (χ : Chart) (need g : Nat) (h₀ h' : Heap σ) :
    Prop where
  size : Layout.alignUp? (max need Layout.chunk) = some g
  extend : extend d (max need Layout.chunk) h = .ok (χ.grow h.region.stop g).1.payload h₀
  grows : χ.Grows h.region.stop g
  region : h₀.region = ⟨h.region.start, h.region.extent + g⟩
  charted : h₀.Charted d (χ.grow h.region.stop g).2
  keeps : Chart.Keeps χ.blocks h.memory h₀.memory
  store : h'.store = h₀.store
  carved : h'.Charted d ((χ.grow h.region.stop g).2.carve (χ.grow h.region.stop g).1 need)
  carve_keeps : Chart.Keeps (χ.grow h.region.stop g).2.blocks h₀.memory h'.memory

/-- **Where no block fits** and new bytes are to be had, a request is served
from them. -/
theorem ends_tryMalloc_of_extended [Store.Lawful σ] (hc : h.Charted d χ) {n need p : Nat}
    {h₀ : Heap σ} (hn : n ≠ 0) (hneed : Layout.blockSizeFor? n = some need)
    (hfit : χ.findFit need = none) (hext : extend d (max need Layout.chunk) h = .ok p h₀) :
    Ends (tryMalloc n) h fun r h' => ∃ g, p = (χ.grow h.region.stop g).1.payload ∧
      r = .ok (some p) ∧ ServedGrown h d χ need g h₀ h' := by
  obtain ⟨-, -, hlarge, h8, -⟩ := Layout.blockSizeFor?_eq_some hneed
  obtain ⟨g, hg, rfl, hregion, hc₀, hkeeps, hgrows, -⟩ :=
    (ends_of_ok hext).1 (ends_extend hc (n := max need Layout.chunk) (by omega))
  have hle : need ≤ (χ.grow h.region.stop g).1.size := by
    have := (Layout.alignUp?_eq_some hg).1
    have := hgrows.large
    omega
  obtain ⟨hc', hkeeps', -⟩ := hc₀.carve hgrows.filed hlarge h8 hle
    (h₀.journal.push (.allocated n (χ.grow h.region.stop g).1.payload need))
  simp only [tryMalloc, ends_bind, ends_attempt, ends_ready_of_some hc.directory, if_neg hn,
    ends_orFail, hneed, ends_look, hc.depicts.findFit_eq, hfit, Option.map_none,
    ends_of_ok hext, ends_edit, ends_record, ends_auditItself hc'.violations_eq_nil, ends_pure]
  exact ⟨g, rfl, trivial, hg, hext, hgrows, hregion, hc₀, hkeeps, rfl, hc', hkeeps'⟩

/-- Where no block fits and none are to be had, it fails for the same cause. -/
theorem ends_tryMalloc_of_not_extended (hc : h.Charted d χ) {n need : Nat} {e : Failure}
    {h₀ : Heap σ} {Q : Except Failure (Option Nat) → Heap σ → Prop} (hn : n ≠ 0)
    (hneed : Layout.blockSizeFor? n = some need) (hfit : χ.findFit need = none)
    (hext : extend d (max need Layout.chunk) h = .error (.failed e) h₀) :
    Ends (tryMalloc n) h Q ↔ Q (.error e) h₀ := by
  simp only [tryMalloc, ends_bind, ends_attempt, ends_ready_of_some hc.directory, if_neg hn,
    ends_orFail, hneed, ends_look, hc.depicts.findFit_eq, hfit, Option.map_none,
    ends_of_failed hext]

/-- **Where no block fits**, a request that is served is served from the
new bytes. -/
theorem tryMalloc_of_no_fit [Store.Lawful σ] (hc : h.Charted d χ) {n need : Nat} {q : Option Nat}
    (hn : n ≠ 0) (hneed : Layout.blockSizeFor? n = some need) (hfit : χ.findFit need = none)
    (hrun : tryMalloc n h = .ok q h') :
    ∃ g h₀, q = some (χ.grow h.region.stop g).1.payload ∧ ServedGrown h d χ need g h₀ h' := by
  have hlarge := (Layout.blockSizeFor?_eq_some hneed).2.2.1
  rcases (ends_extend hc (n := max need Layout.chunk) (by omega)).cases with
    ⟨p, h₀, hext, -⟩ | ⟨e, h₀, hext, -⟩
  · have hx := ends_tryMalloc_of_extended hc hn hneed hfit hext
    rw [ends_of_ok hrun] at hx
    obtain ⟨g, rfl, hq, hserved⟩ := hx
    exact ⟨g, h₀, Except.ok.inj hq, hserved⟩
  · have hx : Ends (tryMalloc n) h fun r _ => r = .error e :=
      (ends_tryMalloc_of_not_extended hc hn hneed hfit hext).2 rfl
    rw [ends_of_ok hrun] at hx
    cases hx

/-! ## Giving back -/

/-- **What giving a block back does**: its chart releases it, and every
other allocated block keeps its payload. -/
structure Frees (h : Heap σ) (d : Directory) (χ : Chart) (b : Block) (h' : Heap σ) : Prop where
  store : h'.store = h.store
  charted : h'.Charted d (χ.release b).2
  keeps : Chart.Keeps (χ.blocks.erase b) h.memory h'.memory
  mem_blocks_iff : ∀ e, e.isAllocated = true →
    (e ∈ (χ.release b).2.blocks ↔ e ∈ χ.blocks ∧ e ≠ b)

/-- Releasing a block of a charted heap. -/
theorem Charted.release (hc : h.Charted d χ) {b : Block} (hb : b ∈ χ.blocks)
    (halloc : b.isAllocated = true) (j : Array Record) :
    let m' := (d.merge b.payload (d.insert b.payload (h.memory.setTags b.payload b.size false))).2
    ({ h with memory := m', journal := j } : Heap σ).Charted d (χ.release b).2 ∧
      Chart.Keeps (χ.blocks.erase b) h.memory m' ∧
      ∀ e, e.isAllocated = true → (e ∈ (χ.release b).2.blocks ↔ e ∈ χ.blocks ∧ e ≠ b) := by
  obtain ⟨pre, post, hbs⟩ := List.append_of_mem hb
  obtain ⟨h1, h2, h3, h4⟩ := hc.depicts.release hc.settled hbs halloc
  dsimp only
  generalize (d.merge b.payload (d.insert b.payload (h.memory.setTags b.payload b.size false))).2
    = m' at h1 h3 ⊢
  refine ⟨⟨hc.directory, hc.base, h1, h2, hc.aligned⟩, h3.mono ?_, h4⟩
  intro e he _
  have hne := (hc.depicts.tiles.nodup.mem_erase_iff.1 he).1
  have hmem := List.mem_of_mem_erase he
  rw [hbs] at hmem
  simp only [List.mem_append, List.mem_cons] at hmem ⊢
  tauto

theorem ends_free (hc : h.Charted d χ) {b : Block} (hb : b ∈ χ.blocks)
    (halloc : b.isAllocated = true) :
    Ends (free (some b.payload)) h fun r h' => r = .ok () ∧ Frees h d χ b h' := by
  obtain ⟨hc', hkeeps, hblocks⟩ :=
    hc.release hb halloc (h.journal.push (.freed b.payload b.size))
  simp only [free, ends_bind, ends_attempt, ends_ready_of_some hc.directory, ends_look, ends_edit,
    ends_discard, ends_editWith, ends_record, hc.depicts.blockSize_eq hb]
  generalize (d.merge b.payload (d.insert b.payload (h.memory.setTags b.payload b.size false))).2
    = m' at hc' hkeeps
  rw [ends_auditItself hc'.violations_eq_nil]
  exact ⟨rfl, rfl, hc', hkeeps, hblocks⟩

/-- **Giving an allocated block back never fails.** -/
theorem Charted.free_frees (hc : h.Charted d χ) {b : Block} (hb : b ∈ χ.blocks)
    (halloc : b.isAllocated = true) :
    ∃ h', free (some b.payload) h = .ok () h' ∧ Frees h d χ b h' := by
  rcases (ends_free hc hb halloc).cases with ⟨_, h', hrun, -, hf⟩ | ⟨e, h', -, he, -⟩
  · exact ⟨h', hrun, hf⟩
  · cases he

/-! ## Moving and zeroing -/

/-- A write to one payload of a charted heap. -/
theorem Charted.write (hc : h.Charted d χ) {b : Block} (hb : b ∈ χ.blocks)
    (halloc : b.isAllocated = true) {m' : Memory}
    (hframe : ∀ a, ¬ (b.payload ≤ a ∧ a < b.payload + (b.size - 8)) →
      m'.byte a = h.memory.byte a) :
    ({ h with memory := m' } : Heap σ).Charted d χ ∧
      Chart.Keeps (χ.blocks.erase b) h.memory m' := by
  obtain ⟨h1, h2⟩ := hc.depicts.write hb halloc hframe
  refine ⟨⟨hc.directory, hc.base, h1, hc.settled, hc.aligned⟩, ?_⟩
  intro e he _
  exact h2 e (List.mem_of_mem_erase he) (hc.depicts.tiles.nodup.mem_erase_iff.1 he).1

/-- A copy of one payload of a charted heap to another. -/
theorem Charted.copy (hc : h.Charted d χ) {b f : Block} {k : Nat} (hb : b ∈ χ.blocks)
    (hf : f ∈ χ.blocks) (halloc : f.isAllocated = true) (hne : b ≠ f)
    (hk : k = min (b.size - 8) (f.size - 8)) :
    ({ h with memory := h.memory.copy b.payload f.payload k } : Heap σ).Charted d χ ∧
      Chart.Keeps (χ.blocks.erase f) h.memory (h.memory.copy b.payload f.payload k) ∧
      ∀ i, i < k →
        (h.memory.copy b.payload f.payload k).byte (f.payload + i) =
          h.memory.byte (b.payload + i) := by
  have hapart := hc.depicts.tiles.apart hb hf hne
  have hend : b.after = b.payload + b.size := rfl
  have hend' : f.after = f.payload + f.size := rfl
  have hcopy : ∀ a, (h.memory.copy b.payload f.payload k).byte a =
      if f.payload ≤ a ∧ a < f.payload + k then h.memory.byte (b.payload + (a - f.payload))
      else h.memory.byte a :=
    Memory.byte_copy h.memory (by omega)
  obtain ⟨hc', hkeeps⟩ := hc.write hf halloc fun a ha => by
    rw [hcopy, if_neg (by omega)]
  refine ⟨hc', hkeeps, ?_⟩
  intro i hi
  rw [hcopy, if_pos (by omega), Nat.add_sub_cancel_left]

/-- Zeroing one payload of a charted heap, all that it has room for. -/
theorem Charted.zero (hc : h.Charted d χ) {b : Block} (hb : b ∈ χ.blocks)
    (halloc : b.isAllocated = true) {m : Memory}
    (hm : m = h.memory.fill b.payload (h.memory.usableSize b.payload) 0) :
    ({ h with memory := m } : Heap σ).Charted d χ ∧
      ∀ a, m.byte a =
        if b.payload ≤ a ∧ a < b.payload + (b.size - 8) then 0 else h.memory.byte a := by
  have hzero : ∀ a, m.byte a =
      if b.payload ≤ a ∧ a < b.payload + (b.size - 8) then 0 else h.memory.byte a := by
    rw [hm, hc.depicts.usableSize_eq hb]
    exact Memory.byte_fill _ _ _ _
  exact ⟨(hc.write hb halloc fun a ha => by rw [hzero, if_neg ha]).1, hzero⟩

/-- **What came of moving a block**: a refusal, or another block served
from its source, with the old one's contents as far as both go, and the
old one released. -/
inductive Moves (h : Heap σ) (d : Directory) (χ : Chart) (b : Block) (n : Nat) :
    Except Failure (Option Nat) → Heap σ → Prop
  | refused {h' : Heap σ} {e : Failure} (hidle : Idle h h') : Moves h d χ b n (.error e) h'
  | moved {h' : Heap σ} {need : Nat} {χ₁ : Chart} {f : Block}
      (hneed : Layout.blockSizeFor? n = some need) (hsource : Source h χ need χ₁ f h')
      (hle : need ≤ f.size) (hcharted : h'.Charted d ((χ₁.carve f need).release b).2)
      (hkeeps : Chart.Keeps (χ.blocks.erase b) h.memory h'.memory)
      (hmoved : ∀ i, i < min (b.size - 8) ((Chart.served f need).size - 8) →
        h'.memory.byte (f.payload + i) = h.memory.byte (b.payload + i))
      (hne : f.payload ≠ b.payload) (hnew : Chart.served f need ∉ χ.blocks)
      (hblocks : ∀ e, e.isAllocated = true →
        (e ∈ ((χ₁.carve f need).release b).2.blocks ↔
          (e ∈ χ.blocks ∨ e = Chart.served f need) ∧ e ≠ b)) :
      Moves h d χ b n (.ok (some f.payload)) h'

/-- The source of a block is known by the store alone. -/
theorem Source.of_store {need : Nat} {χ₁ : Chart} {b : Block} (hsource : Source h χ need χ₁ b h')
    {h'' : Heap σ} (hstore : h''.store = h'.store) : Source h χ need χ₁ b h'' := by
  cases hsource with
  | fit hfit hs => exact .fit hfit (hstore.trans hs)
  | grown hfit hg hregion =>
    refine .grown hfit hg ?_
    unfold Heap.region
    rw [hstore]
    exact hregion

/-- **Moving, once the new block `f` is there**: the contents are copied to
it, as far as both blocks go, and the old block `b` is released. -/
structure Relocates (h : Heap σ) (d : Directory) (χ : Chart) (b f : Block) (h' : Heap σ) :
    Prop where
  store : h'.store = h.store
  charted : h'.Charted d (χ.release b).2
  /-- Every block but these two keeps its payload. -/
  keeps : Chart.Keeps ((χ.blocks.erase b).erase f) h.memory h'.memory
  moved : ∀ i, i < min (b.size - 8) (f.size - 8) →
    h'.memory.byte (f.payload + i) = h.memory.byte (b.payload + i)
  mem_blocks_iff : ∀ e, e.isAllocated = true →
    (e ∈ (χ.release b).2.blocks ↔ e ∈ χ.blocks ∧ e ≠ b)

/-- **A move is an allocation, a copy, and a release.** -/
theorem ends_tryRealloc_of_tryMalloc {b f : Block} {n : Nat} (hn : n ≠ 0)
    (hrun : tryMalloc n h = .ok (some f.payload) h') (hc : h'.Charted d χ) (hb : b ∈ χ.blocks)
    (halloc : b.isAllocated = true) (hf : f ∈ χ.blocks) (hfalloc : f.isAllocated = true)
    (hne : b ≠ f) :
    Ends (tryRealloc (some b.payload) n) h fun r h'' =>
      r = .ok (some f.payload) ∧ Relocates h' d χ b f h'' := by
  have hsize : h'.memory.usableSize b.payload = b.size - 8 := hc.depicts.usableSize_eq hb
  have hsize' : h'.memory.usableSize f.payload = f.size - 8 := hc.depicts.usableSize_eq hf
  simp only [tryRealloc, if_neg hn, ends_bind, ends_of_ok hrun, ends_look, ends_edit, hsize, hsize']
  generalize hk : min (b.size - 8) (f.size - 8) = k
  -- the copy writes to the new payload only
  obtain ⟨hc₂, hkeeps₂, hcopied⟩ := hc.copy hb hf hfalloc hne hk.symm
  refine (ends_free hc₂ hb halloc).mono ?_
  rintro r h₃ ⟨rfl, hfrees⟩
  simp only [ends_record, ends_pure]
  have hnodup := hc.depicts.tiles.nodup
  refine ⟨trivial, hfrees.store, hfrees.charted.idle (idle_journal _ _), ?_, ?_,
    hfrees.mem_blocks_iff⟩
  · refine (hkeeps₂.mono ?_).trans (hfrees.keeps.mono ?_)
    · intro e he _
      rw [List.erase_comm] at he
      exact List.mem_of_mem_erase he
    · exact fun e he _ => List.mem_of_mem_erase he
  · intro i hi
    have hkept := hfrees.keeps f (hnodup.mem_erase_iff.2 ⟨hne.symm, hf⟩) hfalloc i (by omega)
    exact hkept.trans (hcopied i (by omega))

theorem ends_tryRealloc [Store.Lawful σ] (hc : h.Charted d χ) {b : Block} (hb : b ∈ χ.blocks)
    (halloc : b.isAllocated = true) {n : Nat} (hn : n ≠ 0) :
    Ends (tryRealloc (some b.payload) n) h (Moves h d χ b n) := by
  rcases (ends_tryMalloc hc n).cases with ⟨q, h₁, hrun, ha⟩ | ⟨e, h₁, hrun, ha⟩
  · cases ha with
    | nothing hn' => exact absurd hn' hn
    | @served _ need χ₁ f _ hneed hsource hle hc₁ hkeeps hnew hblocks =>
      -- the old block and the new one, side by side in the chart after the allocation
      have hserved : Chart.served f need ∈ (χ₁.carve f need).blocks := (hblocks _ rfl).2 (.inr rfl)
      have hb₁ : b ∈ (χ₁.carve f need).blocks := (hblocks b halloc).2 (.inl hb)
      have hne : b ≠ Chart.served f need := fun heq => hnew (heq ▸ hb)
      refine (ends_tryRealloc_of_tryMalloc (f := Chart.served f need) hn hrun hc₁ hb₁ halloc hserved
        rfl hne).mono ?_
      rintro r h' ⟨rfl, hmoves⟩
      refine .moved (f := f) hneed (hsource.of_store hmoves.store) hle hmoves.charted ?_ ?_ ?_
        hnew ?_
      · refine (hkeeps.mono fun e he _ => List.mem_of_mem_erase he).trans (hmoves.keeps.mono ?_)
        intro e he ha
        obtain ⟨heb, hmem⟩ := hc.depicts.tiles.nodup.mem_erase_iff.1 he
        -- another block is neither the old one nor the new one
        have hnodup := hc₁.depicts.tiles.nodup
        refine (hnodup.erase b).mem_erase_iff.2 ⟨fun heq => hnew (heq ▸ hmem), ?_⟩
        exact hnodup.mem_erase_iff.2 ⟨heb, (hblocks e ha).2 (.inl hmem)⟩
      · intro i hi
        exact (hmoves.moved i hi).trans (hkeeps b hb halloc i (by omega))
      · exact fun heq => hne (hc₁.depicts.tiles.eq_of_payload hb₁ hserved heq.symm)
      · intro e he
        rw [hmoves.mem_blocks_iff e he, hblocks e he]
  · have hidle : Idle h h₁ := by
      cases ha with
      | oversized _ _ hidle => exact hidle
      | refused _ _ _ hidle => exact hidle
    simp only [tryRealloc, if_neg hn, ends_bind, ends_of_failed hrun]
    exact .refused hidle

/-- **Zeroed allocation** is allocation, and on success a fill of all that
the payload has room for. Too large a product is refused at once. -/
theorem ends_tryCalloc {count size : Nat} {Q : Except Failure (Option Nat) → Heap σ → Prop} :
    Ends (tryCalloc count size) h Q ↔
      if count * size < Layout.sizeRange then
        Ends (tryMalloc (count * size)) h fun r h' => match r with
          | .ok (some p) =>
            Q (.ok (some p)) { h' with memory := h'.memory.fill p (h'.memory.usableSize p) 0 }
          | .ok none => Q (.ok none) h'
          | .error e => Q (.error e) h'
      else Q (.error .overflow) h := by
  unfold tryCalloc
  split
  · rw [ends_bind]
    refine Ends.congr ?_
    intro r h'
    match r with
    | .ok (some p) => simp only [ends_bind, ends_edit, ends_pure]
    | .ok none => simp only [ends_pure]
    | .error e => rfl
  · rw [ends_fail]

end Heap

end SegFit
