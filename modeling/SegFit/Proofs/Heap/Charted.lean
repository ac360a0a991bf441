import SegFit.Proofs.Chart.Audit
import SegFit.Proofs.Chart.Carve
import SegFit.Proofs.Chart.Growth
import SegFit.Proofs.Chart.Release
import SegFit.Proofs.Heap.Ends
import SegFit.Proofs.Layout
import SegFit.Proofs.Store.Laws
/-!
# Charted heaps

Between operations a heap is `Blank`, with nothing laid out, or it is
`Charted`: its memory is the one a settled chart depicts, from the start
of its region to the end. `Shows` is either. What growth and readiness
do to a heap is said in terms of its chart.
-/

namespace SegFit

namespace Heap

variable {σ : Type} [Store σ] {h h' h'' : Heap σ} {d : Directory} {χ : Chart}

/-- **A heap nothing has happened to** that its user could tell: the
store and the journal may have changed within. -/
structure Idle (h h' : Heap σ) : Prop where
  region : h'.region = h.region
  memory : h'.memory = h.memory
  directory : h'.directory = h.directory
  auditsItself : h'.auditsItself = h.auditsItself

/-- **A heap with nothing laid out**, and an empty region. A heap that
audits itself begins at a multiple of eight. -/
structure Blank (h : Heap σ) : Prop where
  directory : h.directory = none
  extent : h.region.extent = 0
  aligned : h.auditsItself = true → h.region.start % 8 = 0

/-- **A heap that is as a chart says.** -/
structure Charted (h : Heap σ) (d : Directory) (χ : Chart) : Prop where
  directory : h.directory = some d
  base : d.heads = h.region.start
  depicts : χ.Depicts d h.region.stop h.memory
  settled : χ.Settled
  aligned : h.auditsItself = true → h.region.start % 8 = 0

/-- A heap and its chart, laid out or not. -/
inductive Shows (h : Heap σ) (χ : Chart) : Prop
  | blank (hblank : h.Blank) (hempty : χ = .empty)
  | charted (d : Directory) (hcharted : h.Charted d χ)

theorem Idle.refl (h : Heap σ) : Idle h h := ⟨rfl, rfl, rfl, rfl⟩

theorem Idle.trans (h₁ : Idle h h') (h₂ : Idle h' h'') : Idle h h'' :=
  ⟨h₂.region.trans h₁.region, h₂.memory.trans h₁.memory, h₂.directory.trans h₁.directory,
    h₂.auditsItself.trans h₁.auditsItself⟩

theorem Blank.idle (hb : h.Blank) (hi : Idle h h') : h'.Blank :=
  ⟨hi.directory.trans hb.directory, by rw [hi.region, hb.extent],
    by rw [hi.region, hi.auditsItself]; exact hb.aligned⟩

theorem Charted.idle (hc : h.Charted d χ) (hi : Idle h h') : h'.Charted d χ :=
  ⟨hi.directory.trans hc.directory, by rw [hi.region, hc.base],
    by rw [hi.region, hi.memory]; exact hc.depicts, hc.settled,
    by rw [hi.region, hi.auditsItself]; exact hc.aligned⟩

/-- **A charted heap that audits itself passes.** -/
theorem Charted.violations_eq_nil (hc : h.Charted d χ) (haudits : h.auditsItself = true) :
    h.violations = [] := by
  rw [violations, hc.directory, Audit.violations_eq_nil_iff]
  exact hc.depicts.consistent hc.settled hc.base (hc.aligned haudits)

/-- The blocks a charted heap shows are the chart's. -/
theorem Charted.blocks_eq (hc : h.Charted d χ) : h.blocks = χ.blocks := by
  rw [blocks, hc.directory, Option.elim_some, blocksOf, hc.depicts.blocks_eq]

/-- So are its lists. -/
theorem Charted.list_eq (hc : h.Charted d χ) (c : SizeClass) :
    h.list c = (χ.lists c).map Block.payload := by
  rw [list, hc.directory, Option.elim_some, hc.depicts.chain_eq]

/-- The blocks a heap shows are those of its chart, laid out or not. -/
theorem Shows.blocks_eq (hs : h.Shows χ) : h.blocks = χ.blocks := by
  rcases hs with ⟨hblank, rfl⟩ | ⟨d, hc⟩
  · rw [blocks, hblank.directory]
    rfl
  · exact hc.blocks_eq

theorem Shows.idle (hs : h.Shows χ) (hi : Idle h h') : h'.Shows χ := by
  cases hs with
  | blank hblank hempty => exact .blank (hblank.idle hi) hempty
  | charted d hcharted => exact .charted d (hcharted.idle hi)

theorem region_mk (s : σ) (m : Memory) (d : Option Directory) (b : Bool) (j : Array Record) :
    (⟨s, m, d, b, j⟩ : Heap σ).region = Store.region s := rfl

/-- A record in the journal is nothing a user could tell. -/
theorem idle_journal (h : Heap σ) (j : Array Record) : Idle h { h with journal := j } :=
  ⟨rfl, rfl, rfl, rfl⟩

/-- A refused request leaves a heap idle. -/
theorem idle_of_refused [Store.Lawful σ] {n : Nat} {e : Failure} (j : Array Record)
    (he : (Store.grow n h.store).answer = .error e) :
    Idle h { h with store := (Store.grow n h.store).store, journal := j } :=
  ⟨Store.Lawful.grow_error he, rfl, rfl, rfl⟩

/-! ## Growing -/

/-- **What growing does**: it fails and the heap is idle, or the region
has the new bytes and the chart a free block that covers them. -/
def Grown (h : Heap σ) (d : Directory) (χ : Chart) (n : Nat) (r : Except Failure Nat)
    (h' : Heap σ) : Prop :=
  match r with
  | .error _ => Idle h h'
  | .ok p => ∃ g, Layout.alignUp? n = some g ∧
      p = (χ.grow h.region.stop g).1.payload ∧
      h'.region = ⟨h.region.start, h.region.extent + g⟩ ∧
      h'.Charted d (χ.grow h.region.stop g).2 ∧ Chart.Keeps χ.blocks h.memory h'.memory ∧
      χ.Grows h.region.stop g ∧
      h'.memory = (d.merge h.region.stop (d.append h.region.stop g h.memory)).2

theorem ends_extend [Store.Lawful σ] (hc : h.Charted d χ) {n : Nat} (hn : 8 < n) :
    Ends (extend d n) h (Grown h d χ n) := by
  rw [extend, ends_bind, ends_orFail]
  cases hg : Layout.alignUp? n with
  | none => exact Idle.refl h
  | some g =>
    obtain ⟨hng, -, h8⟩ := Layout.alignUp?_eq_some hg
    simp only [ends_bind, ends_get]
    split
    · rename_i hlt
      simp only [ends_bind, ends_request, ends_edit, ends_record, ends_editWith]
      cases ha : (Store.grow g h.store).answer with
      | error e => exact idle_of_refused _ ha
      | ok p =>
        have hp : p = h.region.stop := (Store.Lawful.grow_ok ha).1
        have hregion : Store.region (Store.grow g h.store).store
            = ⟨h.region.start, h.region.extent + g⟩ := (Store.Lawful.grow_ok ha).2
        have hsize : h.region.extent ≤ h.size := Store.Lawful.extent_le_size h.store
        have hstart := hc.base
        have hstop : h.region.stop = h.region.start + h.region.extent := rfl
        have hreach : h.region.stop + g < d.heads + 2 ^ 32 := by
          simp only [Layout.wordRange] at hlt
          omega
        obtain ⟨h1, h2, h3, h4, hgrows⟩ :=
          hc.depicts.grow hc.settled (n := g) (by omega) h8 hreach
        have hend : (⟨h.region.start, h.region.extent + g⟩ : Region).stop = h.region.stop + g := by
          simp only [Region.stop]
          omega
        subst hp
        refine ⟨g, hg, h1, hregion, ⟨hc.directory, ?_, ?_, h3, ?_⟩, ?_, hgrows, by dsimp only⟩
        · rw [region_mk (Store.grow g h.store).store, hregion]
          exact hc.base
        · rw [region_mk (Store.grow g h.store).store, hregion, hend]
          dsimp only
          exact h2
        · rw [region_mk (Store.grow g h.store).store, hregion]
          exact hc.aligned
        · dsimp only
          exact h4
    · simp only [ends_bind, ends_record, ends_fail]
      exact idle_journal h _

end Heap

end SegFit
