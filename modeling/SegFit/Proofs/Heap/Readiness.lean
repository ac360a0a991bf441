import SegFit.Proofs.Heap.Charted
/-!
# How a heap becomes ready

A heap is ready from the moment it is laid out. A blank heap asks its
store for its layout and then for its first chunk, and either may be
refused. Each step is said twice over: what it does to the chart, and what
it asks of the store (`Draw`, `Opening`).
-/

namespace SegFit

namespace Heap

variable {σ : Type} [Store σ] {h h' h'' : Heap σ} {d : Directory} {χ : Chart}

/-- A heap that is laid out is ready. -/
theorem ready_of_some (hd : h.directory = some d) : ready h = .ok d h := by
  rw [ready, get_bind, hd]
  rfl

theorem ends_ready_of_some {Q : Except Failure Directory → Heap σ → Prop}
    (hd : h.directory = some d) : Ends ready h Q ↔ Q (.ok d) h :=
  ends_of_ok (ready_of_some hd)

omit [Store σ] in
theorem ends_orNotReady {α : Type} {x : Operation σ α} {f : Failure → Record}
    {Q : Except Failure α → Heap σ → Prop} :
    Ends (orNotReady x f) h Q ↔ Ends x h fun r h' => match r with
      | .ok a => Q (.ok a) h'
      | .error e => Q (.error .notReady) { h' with journal := h'.journal.push (f e) } := by
  unfold orNotReady
  rw [ends_bind, ends_attempt]
  refine Ends.congr ?_
  intro r h'
  cases r <;> simp only [ends_pure, ends_bind, ends_record, ends_fail]

/-- The bytes of a layout, where the store grants them: only store and journal
have changed. -/
theorem ends_request_layout :
    Ends (orNotReady (request Layout.bytes) .layoutRefused) h fun r h' => ∀ base, r = .ok base →
      (Store.grow Layout.bytes h.store).answer = .ok base ∧
        ∃ j, h' = { h with store := (Store.grow Layout.bytes h.store).store, journal := j } := by
  rw [ends_orNotReady, ends_request]
  cases ha : (Store.grow Layout.bytes h.store).answer with
  | error e => exact fun _ hr => by cases hr
  | ok base => exact fun _ hr => ⟨hr, _, rfl⟩

/-! ## What growing asks for -/

/-- **What growing by `n` bytes asks of the store**, and what it makes of the
answer. Nothing is asked for if there is no such size or if a link would
not reach it. -/
inductive Draw (h : Heap σ) (n : Nat) : Except Failure Nat → σ → Prop
  | unsized (hg : Layout.alignUp? n = none) : Draw h n (.error .overflow) h.store
  | unreachable {g : Nat} (hg : Layout.alignUp? n = some g)
      (hrange : Layout.wordRange ≤ h.size + g) : Draw h n (.error .outOfMemory) h.store
  | refused {g : Nat} {e : Failure} (hg : Layout.alignUp? n = some g)
      (hrange : h.size + g < Layout.wordRange) (ha : (Store.grow g h.store).answer = .error e) :
      Draw h n (.error e) (Store.grow g h.store).store
  | granted {g p q : Nat} (hg : Layout.alignUp? n = some g)
      (hrange : h.size + g < Layout.wordRange) (ha : (Store.grow g h.store).answer = .ok p) :
      Draw h n (.ok q) (Store.grow g h.store).store

theorem ends_extend_draw (d : Directory) (n : Nat) :
    Ends (extend d n) h fun r h' => Draw h n r h'.store := by
  rw [extend, ends_bind, ends_orFail]
  cases hg : Layout.alignUp? n with
  | none => exact .unsized hg
  | some g =>
    simp only [ends_bind, ends_get]
    split
    · rename_i hrange
      simp only [ends_bind, ends_request, ends_edit, ends_record, ends_editWith]
      cases ha : (Store.grow g h.store).answer with
      | error e => exact .refused hg hrange ha
      | ok p => exact .granted hg hrange ha
    · rename_i hrange
      simp only [ends_bind, ends_record, ends_fail]
      exact .unreachable hg (Nat.le_of_not_lt hrange)

/-- A size that needs no rounding is out of the reach of a link, or the store
says whether it is to be had. -/
theorem Draw.of_rounded {n : Nat} {r : Except Failure Nat} {t : σ} (hdraw : Draw h n r t)
    (hn : Layout.alignUp? n = some n) :
    Layout.wordRange ≤ h.size + n ∧ r = .error .outOfMemory ∧ t = h.store ∨
      h.size + n < Layout.wordRange ∧ t = (Store.grow n h.store).store ∧ match r with
        | .ok _ => ∃ p, (Store.grow n h.store).answer = .ok p
        | .error e => (Store.grow n h.store).answer = .error e := by
  cases hdraw with
  | unsized hg =>
    rw [hn] at hg
    cases hg
  | unreachable hg hrange =>
    obtain rfl := Option.some.inj (hn.symm.trans hg)
    exact .inl ⟨hrange, rfl, rfl⟩
  | refused hg hrange ha =>
    obtain rfl := Option.some.inj (hn.symm.trans hg)
    exact .inr ⟨hrange, rfl, ha⟩
  | granted hg hrange ha =>
    obtain rfl := Option.some.inj (hn.symm.trans hg)
    exact .inr ⟨hrange, rfl, _, ha⟩

/-! ## The layout and the first chunk -/

/-- The first chunk, refused or granted. -/
theorem ends_firstChunk [Store.Lawful σ] (hc : h.Charted d χ) :
    Ends (firstChunk d) h fun r h' => match r with
      | .ok () => h'.Charted d (χ.grow h.region.stop Layout.chunk).2 ∧
          h'.region = ⟨h.region.start, h.region.extent + Layout.chunk⟩ ∧
          Chart.Keeps χ.blocks h.memory h'.memory ∧ χ.Grows h.region.stop Layout.chunk ∧
          h'.memory = (d.merge h.region.stop (d.append h.region.stop Layout.chunk h.memory)).2
      | .error _ => Idle h h' := by
  have hlarge : 16 ≤ Layout.chunk := by decide
  have hround := Layout.alignUp?_chunk
  unfold firstChunk
  rw [ends_orNotReady, ends_discard]
  -- the chunk as a variable: nothing here depends on its value
  generalize Layout.chunk = n at hlarge hround
  refine (ends_extend hc (by omega)).mono ?_
  intro r h' hr
  cases r with
  | error e => exact Idle.trans hr (idle_journal h' _)
  | ok p =>
    obtain ⟨g, hg, -, hregion, hc', hkeep, hgrows, hmemory⟩ := hr
    obtain rfl : n = g := Option.some.inj (hround.symm.trans hg)
    exact ⟨hc', hregion, hkeep, hgrows, hmemory⟩

/-- It asks for the chunk once. -/
theorem ends_firstChunk_draw (d : Directory) :
    Ends (firstChunk d) h fun r h' => match r with
      | .ok () => ∃ q, Draw h Layout.chunk (.ok q) h'.store
      | .error e => e = .notReady ∧ ∃ e, Draw h Layout.chunk (.error e) h'.store := by
  unfold firstChunk
  rw [ends_orNotReady, ends_discard]
  refine (ends_extend_draw d _).mono ?_
  intro r h' hr
  cases r with
  | error e => exact ⟨rfl, e, hr⟩
  | ok q => exact ⟨q, hr⟩

/-- **A heap that has just been laid out**, with nothing but its layout
written. -/
structure LaidBare (h h' : Heap σ) : Prop where
  charted : h'.Charted (.ofBase h.region.start) .empty
  region : h'.region = ⟨h.region.start, Layout.bytes⟩
  memory : h'.memory = (Directory.ofBase h.region.start).layOut h.memory

/-- **A heap that has just been made ready**, with its first chunk. -/
structure MadeReady (h h' : Heap σ) : Prop where
  charted : h'.Charted (.ofBase h.region.start)
    (Chart.empty.grow (h.region.start + Layout.bytes) Layout.chunk).2
  grows : Chart.empty.Grows (h.region.start + Layout.bytes) Layout.chunk
  region : h'.region = ⟨h.region.start, Layout.bytes + Layout.chunk⟩
  memory : h'.memory = ((Directory.ofBase h.region.start).merge (h.region.start + Layout.bytes)
    ((Directory.ofBase h.region.start).append (h.region.start + Layout.bytes) Layout.chunk
      ((Directory.ofBase h.region.start).layOut h.memory))).2

theorem LaidBare.idle (hl : LaidBare h h') (hi : Idle h' h'') : LaidBare h h'' :=
  ⟨hl.charted.idle hi, hi.region.trans hl.region, hi.memory.trans hl.memory⟩

theorem MadeReady.idle (hr : MadeReady h h') (hi : Idle h' h'') : MadeReady h h'' :=
  ⟨hr.charted.idle hi, hr.grows, hi.region.trans hr.region, hi.memory.trans hr.memory⟩

/-- **Laying a blank heap out** in the bytes it was granted for it. -/
theorem Blank.laidBare [Store.Lawful σ] (hb : h.Blank) {base : Nat}
    (ha : (Store.grow Layout.bytes h.store).answer = .ok base) (j : Array Record) :
    base = h.region.start ∧
      LaidBare h ⟨(Store.grow Layout.bytes h.store).store, (Directory.ofBase base).layOut h.memory,
        some (.ofBase base), h.auditsItself, j⟩ := by
  have hbase : base = h.region.stop := (Store.Lawful.grow_ok ha).1
  have hregion : Store.region (Store.grow Layout.bytes h.store).store
      = ⟨h.region.start, h.region.extent + Layout.bytes⟩ := (Store.Lawful.grow_ok ha).2
  rw [hb.extent, Nat.zero_add] at hregion
  obtain rfl : base = h.region.start := by
    rw [hbase, Region.stop, hb.extent, Nat.add_zero]
  refine ⟨rfl, ⟨rfl, ?_, ?_, Chart.settled_empty, ?_⟩, hregion, rfl⟩
  · rw [region_mk (Store.grow Layout.bytes h.store).store, hregion]
    rfl
  · rw [region_mk (Store.grow Layout.bytes h.store).store, hregion]
    exact Chart.depicts_layOut (.ofBase h.region.start) h.memory
  · rw [region_mk (Store.grow Layout.bytes h.store).store, hregion]
    exact hb.aligned

/-- **What making a blank heap ready asks of the store**: the layout, and then
the first chunk, for a heap `h₁` laid out bare. -/
inductive Opening (h : Heap σ) : Except Failure Directory → Heap σ → Prop
  | refused {h' : Heap σ} {e : Failure} (ha : (Store.grow Layout.bytes h.store).answer = .error e)
      (hstore : h'.store = (Store.grow Layout.bytes h.store).store) (hidle : Idle h h') :
      Opening h (.error .notReady) h'
  | bare {h₁ h' : Heap σ} {base : Nat} {e : Failure}
      (ha : (Store.grow Layout.bytes h.store).answer = .ok base)
      (hstore : h₁.store = (Store.grow Layout.bytes h.store).store) (hbare : LaidBare h h₁)
      (hdraw : Draw h₁ Layout.chunk (.error e) h'.store) (hidle : Idle h₁ h') :
      Opening h (.error .notReady) h'
  | made {h₁ h' : Heap σ} {base q : Nat}
      (ha : (Store.grow Layout.bytes h.store).answer = .ok base)
      (hstore : h₁.store = (Store.grow Layout.bytes h.store).store) (hbare : LaidBare h h₁)
      (hdraw : Draw h₁ Layout.chunk (.ok q) h'.store) (hready : MadeReady h h') :
      Opening h (.ok (.ofBase h.region.start)) h'

theorem ends_ready_opening [Store.Lawful σ] (hb : h.Blank) : Ends ready h (Opening h) := by
  simp only [ready, ends_bind, ends_get, hb.directory, ends_orNotReady, ends_request, ends_edit,
    ends_modify, ends_record, ends_pure]
  cases ha : (Store.grow Layout.bytes h.store).answer with
  | error e => exact .refused ha rfl ⟨Store.Lawful.grow_error ha, rfl, hb.directory.symm, rfl⟩
  | ok base =>
    obtain ⟨rfl, hbare⟩ := hb.laidBare ha ((h.journal.appendList
      (Store.grow Layout.bytes h.store).records).push (.laidOut base))
    refine ((ends_firstChunk hbare.charted).and (ends_firstChunk_draw _)).mono ?_
    intro r h'' hr
    obtain ⟨hr, hdraw⟩ := hr
    cases r with
    | error e =>
      obtain ⟨rfl, e, hdraw⟩ := hdraw
      exact .bare ha rfl hbare hdraw hr
    | ok _ =>
      rw [hbare.region, hbare.memory] at hr
      obtain ⟨hc, hregion, -, hgrows, hmemory⟩ := hr
      obtain ⟨q, hdraw⟩ := hdraw
      exact .made ha rfl hbare hdraw ⟨hc, hgrows, hregion, hmemory⟩

/-- **Making a blank heap ready** fails without a layout, fails without a
chunk, or gives a heap of one free block. -/
theorem ends_ready_of_blank [Store.Lawful σ] (hb : h.Blank) :
    Ends ready h fun r h' => match r with
      | .ok d => d = .ofBase h.region.start ∧ MadeReady h h'
      | .error _ => Idle h h' ∨ LaidBare h h' := by
  refine (ends_ready_opening hb).mono ?_
  intro r h' hr
  cases hr with
  | refused _ _ hidle => exact .inl hidle
  | bare _ _ hbare _ hidle => exact .inr (hbare.idle hidle)
  | made _ _ _ _ hready => exact ⟨rfl, hready⟩

end Heap

end SegFit
