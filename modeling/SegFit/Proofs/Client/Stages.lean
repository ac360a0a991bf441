import SegFit.Proofs.Client.Sound
import SegFit.Proofs.Heap.Requests
/-!
# The stages of a heap

A heap is untouched until it is laid out, then bare until it has a block,
and then stocked. What each stage asks of the store is said over a ledger:
what a call does that finds its heap untouched (`FirstUse`), and what it does
that finds it bare (`BareUse`), by what the store answers.
-/

namespace SegFit

namespace Call

/-- The bytes that a call asks for which brings no payload of its own. -/
def bytes : Call → Option Nat
  | .tryMalloc n | .tryRealloc none n => some n
  | .tryCalloc count size => if count * size < Layout.sizeRange then some (count * size) else none
  | .free none => some 0
  | _ => none

/-- What a call answers where its heap cannot be made ready. A request for no
bytes does not mind. -/
def unready (c : Call) : Except Failure (Option Nat) :=
  if c.bytes = some 0 then .ok none else .error .notReady

end Call

namespace Heap

/-- **How far a heap has come.** -/
inductive Stage
  | untouched
  | bare
  | stocked
  deriving DecidableEq, Repr

/-- The stages in their order. -/
def Stage.rank : Stage → Nat
  | .untouched => 0
  | .bare => 1
  | .stocked => 2

theorem Stage.rank_inj {a b : Stage} (h : a.rank = b.rank) : a = b := by
  cases a <;> cases b <;> simp_all [Stage.rank]

variable {σ : Type} [Store σ]

/-- Laid out or not, with a block or without. -/
def stage (h : Heap σ) : Stage :=
  if h.isInitialized then (if h.blocks = [] then .bare else .stocked) else .untouched

section Charted

variable {h h' : Heap σ} {d : Directory} {χ : Chart} {c : Call}

theorem stage_of_none (hd : h.directory = none) : h.stage = .untouched := by
  rw [stage, isInitialized, hd]
  rfl

/-- **The region tells the stage** of a heap that is laid out. -/
theorem Charted.extent_eq (hc : h.Charted d χ) :
    h.region.extent = Layout.bytes + (χ.blocks.map Block.size).sum := by
  have hsum := hc.depicts.tiles.sum_eq
  have hstop : h.region.stop = h.region.start + h.region.extent := rfl
  rw [Directory.firstBlock_eq, hc.base] at hsum
  simp only [Layout.bytes]
  omega

theorem Charted.stage_eq (hc : h.Charted d χ) :
    h.stage = if h.region.extent = Layout.bytes then .bare else .stocked := by
  have hextent := hc.extent_eq
  rw [stage, isInitialized, hc.directory, Option.isSome_some, if_pos rfl, hc.blocks_eq]
  cases hblocks : χ.blocks with
  | nil =>
    rw [hblocks, List.map_nil, List.sum_nil, Nat.add_zero] at hextent
    rw [if_pos rfl, if_pos hextent]
  | cons b bs =>
    have hlarge := (hc.depicts.tiles.bounds (hblocks ▸ List.mem_cons_self)).2.2.large
    rw [hblocks, List.map_cons, List.sum_cons] at hextent
    rw [if_neg (List.cons_ne_nil b bs), if_neg (by omega)]

/-- A bare heap shows the empty chart. -/
theorem Charted.eq_empty_of_bare (hc : h.Charted d χ) (hstage : h.stage = .bare) : χ = .empty := by
  refine hc.depicts.eq_empty ?_
  rw [stage, isInitialized, hc.directory, Option.isSome_some, if_pos rfl, hc.blocks_eq] at hstage
  split at hstage
  · assumption
  · cases hstage

/-! ## Calls by what they begin with -/

/-- **A call that makes its heap ready** does from there what it does in a
heap that is. -/
theorem perform_of_ready (hcall : c = .init ∨ c.bytes.isSome) (hready : ready h = .ok d h')
    (hd : h'.directory = some d) : c.perform h = c.perform h' := by
  have hsame : ready h = ready h' := hready.trans (ready_of_some hd).symm
  have hattempt : attempt ready h = attempt ready h' := by simp only [attempt, hsame]
  have hmalloc : ∀ n, tryMalloc n h = tryMalloc n h' := fun n => bind_congr_apply hattempt
  have hfree : (do Heap.free none; return none : Operation σ (Option Nat)) h =
      (do Heap.free none; return none : Operation σ (Option Nat)) h' :=
    bind_congr_apply (bind_congr_apply hattempt)
  cases c with
  | init => exact bind_congr_apply (bind_congr_apply hsame)
  | tryMalloc n => exact hmalloc n
  | tryCalloc count size =>
    simp only [Call.perform, tryCalloc]
    split
    · exact bind_congr_apply (hmalloc _)
    · simp_all [Call.bytes]
  | tryRealloc p n =>
    cases p with
    | some p => simp [Call.bytes] at hcall
    | none =>
      simp only [Call.perform, tryRealloc]
      split
      · exact hfree
      · exact hmalloc n
  | free p =>
    cases p with
    | some p => simp [Call.bytes] at hcall
    | none => exact hfree
  | _ => simp [Call.bytes] at hcall

/-- A call that cannot make its heap ready goes no further. -/
theorem ends_perform_of_not_ready {Q : Except Failure (Option Nat) → Heap σ → Prop}
    (hcall : c = .init ∨ c.bytes.isSome) (hready : ready h = .error (.failed .notReady) h')
    (hQ : ∀ j, Q c.unready { h' with journal := j }) : Ends c.perform h Q := by
  have hmalloc : ∀ n, Ends (tryMalloc n) h fun r h'' =>
      r = (if n = 0 then .ok none else .error .notReady) ∧ h'' = h' := fun n => by
    simp only [tryMalloc, ends_bind, ends_attempt, ends_of_failed hready]
    split <;> simp only [ends_pure, ends_fail, and_self]
  have hfree : Q (.ok none) { h' with journal := h'.journal.push (.freeFailed none .notReady) } →
      Ends (do Heap.free none; return none : Operation σ (Option Nat)) h Q := fun hq => by
    simpa only [free, ends_bind, ends_attempt, ends_of_failed hready, ends_record, ends_pure]
  have hsame : Q c.unready h' := hQ h'.journal
  cases c with
  | init =>
    simp only [Call.perform, init, ends_bind, ends_of_failed hready]
    exact hsame
  | tryMalloc n =>
    refine (hmalloc n).mono ?_
    rintro r h'' ⟨rfl, rfl⟩
    simpa only [Call.unready, Call.bytes, Option.some.injEq] using hsame
  | tryCalloc count size =>
    by_cases hlt : count * size < Layout.sizeRange
    · simp only [Call.perform, ends_tryCalloc, if_pos hlt]
      refine (hmalloc _).mono ?_
      rintro r h'' ⟨rfl, rfl⟩
      simp only [Call.unready, Call.bytes, if_pos hlt, Option.some.injEq] at hsame
      by_cases hn : count * size = 0
      · simpa only [if_pos hn] using hsame
      · simpa only [if_neg hn] using hsame
    · simp [Call.bytes, hlt] at hcall
  | tryRealloc p n =>
    cases p with
    | some p => simp [Call.bytes] at hcall
    | none =>
      simp only [Call.perform, tryRealloc]
      split
      · rename_i hn
        exact hfree (by simpa only [Call.unready, Call.bytes, hn, if_pos] using hQ _)
      · rename_i hn
        refine (hmalloc n).mono ?_
        rintro r h'' ⟨rfl, rfl⟩
        simpa only [Call.unready, Call.bytes, Option.some.injEq] using hsame
  | free p =>
    cases p with
    | some p => simp [Call.bytes] at hcall
    | none => exact hfree (hQ _)
  | _ => simp [Call.bytes] at hcall

/-- A call for no bytes does nothing in a heap that is laid out. -/
theorem ends_perform_of_zero {Q : Except Failure (Option Nat) → Heap σ → Prop}
    (hd : h.directory = some d) (hbytes : c.bytes = some 0) :
    Ends c.perform h Q ↔ Q (.ok none) h := by
  cases c with
  | tryMalloc n =>
    obtain rfl : n = 0 := Option.some.inj hbytes
    simp only [Call.perform, tryMalloc, ends_bind, ends_attempt, ends_ready_of_some hd, if_true,
      ends_pure]
  | tryCalloc count size =>
    simp only [Call.bytes] at hbytes
    split at hbytes
    · rename_i hlt
      have hn : count * size = 0 := Option.some.inj hbytes
      simp only [Call.perform, ends_tryCalloc, if_pos hlt, tryMalloc, ends_bind, ends_attempt,
        ends_ready_of_some hd, if_pos hn, ends_pure]
    · cases hbytes
  | tryRealloc p n =>
    cases p with
    | some p => cases hbytes
    | none =>
      obtain rfl : n = 0 := Option.some.inj hbytes
      simp only [Call.perform, tryRealloc, free, ends_bind, ends_attempt, ends_ready_of_some hd,
        if_true, ends_pure]
  | free p =>
    cases p with
    | some p => cases hbytes
    | none =>
      simp only [Call.perform, free, ends_bind, ends_attempt, ends_ready_of_some hd, ends_pure]
  | _ => cases hbytes

/-- A call that wants no bytes does nothing in a heap that has its chunk. -/
theorem ends_perform_of_idle {Q : Except Failure (Option Nat) → Heap σ → Prop}
    (hd : h.directory = some d) (hsize : h.size ≠ Layout.bytes)
    (hcall : c = .init ∨ c.bytes = some 0) : Ends c.perform h Q ↔ Q (.ok none) h := by
  rcases hcall with rfl | hbytes
  · simp only [Call.perform, init, ends_bind, ends_ready_of_some hd, ends_get, if_neg hsize,
      ends_pure]
  · exact ends_perform_of_zero hd hbytes

/-- A call for some bytes is an allocation, and may write to what it is
given. -/
theorem ends_perform_of_bytes {Q : Except Failure (Option Nat) → Heap σ → Prop} {n : Nat}
    (hbytes : c.bytes = some n) (hn : n ≠ 0) (hx : Ends (tryMalloc n) h Q)
    (hQ : ∀ p h' m, Q (.ok (some p)) h' → Q (.ok (some p)) { h' with memory := m }) :
    Ends c.perform h Q := by
  cases c with
  | tryMalloc k =>
    obtain rfl : k = n := Option.some.inj hbytes
    exact hx
  | tryCalloc count size =>
    simp only [Call.bytes] at hbytes
    split at hbytes
    · rename_i hlt
      obtain rfl : count * size = n := Option.some.inj hbytes
      simp only [Call.perform, ends_tryCalloc, if_pos hlt]
      refine hx.mono ?_
      intro r h' hq
      match r with
      | .ok (some p) => exact hQ p h' _ hq
      | .ok none => exact hq
      | .error e => exact hq
    · cases hbytes
  | tryRealloc p k =>
    cases p with
    | some p => cases hbytes
    | none =>
      obtain rfl : k = n := Option.some.inj hbytes
      simpa only [Call.perform, tryRealloc, if_neg hn] using hx
  | free p =>
    cases p with
    | some p => cases hbytes
    | none => exact absurd (Option.some.inj hbytes).symm hn
  | _ => cases hbytes

end Charted

/-! ## What is asked of the store -/

section Ledgers

variable [Store.Truthful σ] {h h' h'' : Heap (Ledger σ)} {d : Directory} {χ : Chart} {c : Call}

/-- The account of a heap's store adds up to its region. -/
theorem extent_eq_sum (h : Heap (Ledger σ)) : h.region.extent = (granted h.store.account).sum :=
  h.store.balanced.symm

/-- **Every call asks a laid-out heap's store for chunks only.** -/
theorem drawing_perform (c : Call) : Drawing (c.perform : Operation (Ledger σ) (Option Nat)) := by
  cases c with
  | init => exact drawing_init.bind fun _ => drawing_pure none
  | malloc n => exact (drawing_tryMalloc n).orNull _
  | tryMalloc n => exact drawing_tryMalloc n
  | calloc count size => exact (drawing_tryCalloc count size).orNull _
  | tryCalloc count size => exact drawing_tryCalloc count size
  | realloc p n => exact (drawing_tryRealloc p n).orNull _
  | tryRealloc p n => exact drawing_tryRealloc p n
  | free p => exact (drawing_free p).bind fun _ => drawing_pure none
  | write p i v => exact (drawing_edit _).bind fun _ => drawing_pure none

/-- Every size is granted or refused by the store, unless a link would not
reach that far. -/
theorem Draw.entered {n : Nat} {r : Except Failure Nat} {l : Ledger σ} (hdraw : Draw h n r l)
    (hn : Layout.alignUp? n = some n) :
    match r with
    | .ok _ => ∃ p, l.account = h.store.account ++ [(n, .ok p)]
    | .error e => Layout.wordRange ≤ h.size + n ∧ e = .outOfMemory ∧ l = h.store ∨
        l.account = h.store.account ++ [(n, .error e)] := by
  rcases hdraw.of_rounded hn with ⟨hrange, rfl, rfl⟩ | ⟨-, rfl, ha⟩
  · exact .inl ⟨hrange, rfl, rfl⟩
  · cases r with
    | ok q =>
      obtain ⟨p, ha⟩ := ha
      exact ⟨p, by rw [Ledger.account_grow, ha]⟩
    | error e => exact .inr (by rw [Ledger.account_grow, ha])

/-- **What a call does that finds its heap untouched**, by what the store
answers: the layout is asked for first, and then the first chunk. -/
inductive FirstUse (h : Heap (Ledger σ)) (c : Call) :
    Except Failure (Option Nat) → Heap (Ledger σ) → Prop
  | layoutRefused {h' : Heap (Ledger σ)} {e : Failure}
      (haccount : h'.store.account = h.store.account ++ [(Layout.bytes, .error e)])
      (hidle : Idle h h') : FirstUse h c c.unready h'
  | chunkRefused {h' : Heap (Ledger σ)} {base : Nat} {e : Failure}
      (haccount : h'.store.account =
        h.store.account ++ [(Layout.bytes, .ok base), (Layout.chunk, .error e)])
      (hstage : h'.stage = .bare) : FirstUse h c c.unready h'
  | opened {h' : Heap (Ledger σ)} {base p : Nat} {r : Except Failure (Option Nat)}
      {asked : List (Nat × Except Failure Nat)}
      (haccount : h'.store.account =
        h.store.account ++ (Layout.bytes, .ok base) :: (Layout.chunk, .ok p) :: asked)
      (hlarge : ∀ r ∈ asked, Layout.chunk ≤ r.1)
      (hidle : c = .init ∨ c.bytes = some 0 → r = .ok none ∧ asked = [])
      (hstage : h'.stage = .stocked) : FirstUse h c r h'

/-- A heap is stocked if more than its layout was granted. -/
theorem Shows.stage_eq_stocked (hs : h.Shows χ) (hd : h.directory = some d)
    (hsum : Layout.bytes < (granted h.store.account).sum) : h.stage = .stocked := by
  have hextent := extent_eq_sum h
  rw [(hs.charted_of_some hd).stage_eq, if_neg (by omega)]

/-- The first use of a heap that is made ready and stocked for it. -/
theorem ends_firstUse_of_made (hmade : MadeReady h h') (hready : ready h = .ok d h')
    (hd : h'.directory = some d) {base p : Nat}
    (haccount : h'.store.account =
      h.store.account ++ [(Layout.bytes, .ok base), (Layout.chunk, .ok p)])
    (hcall : c = .init ∨ c.bytes.isSome) (hshows : Ends c.perform h fun _ h' => ∃ χ, h'.Shows χ) :
    Ends c.perform h (FirstUse h c) := by
  rw [ends_congr (perform_of_ready hcall hready hd)] at hshows ⊢
  -- no bytes are asked for where none are wanted
  have hidle : Ends c.perform h' fun r h'' =>
      c = .init ∨ c.bytes = some 0 → r = .ok none ∧ h'' = h' := by
    by_cases hor : c = .init ∨ c.bytes = some 0
    · have hsize : h'.size ≠ Layout.bytes := by
        rw [size, Store.Truthful.size_eq, ← region, hmade.region]
        exact Nat.ne_of_gt (Nat.lt_add_of_pos_right (by decide))
      exact (ends_perform_of_idle hd hsize hor).2 fun _ => ⟨rfl, rfl⟩
    · exact hshows.mono fun _ _ _ hor' => absurd hor' hor
  refine (((drawing_perform c).ends (by rw [hd]; rfl) hshows).and hidle).mono ?_
  rintro r h'' ⟨⟨⟨χ, hs⟩, hdraws⟩, hidle⟩
  obtain ⟨asked, hasked, hlarge⟩ := hdraws.account
  have hall : h''.store.account =
      h.store.account ++ (Layout.bytes, .ok base) :: (Layout.chunk, .ok p) :: asked := by
    rw [hasked, haccount, List.append_assoc]
    rfl
  refine .opened hall hlarge ?_ (hs.stage_eq_stocked (hdraws.directory.trans hd) ?_)
  · intro hor
    obtain ⟨hr, rfl⟩ := hidle hor
    exact ⟨hr, List.append_right_eq_self.1 hasked.symm⟩
  · rw [hall, granted_append, granted_cons_ok, granted_cons_ok, List.sum_append, List.sum_cons,
      List.sum_cons]
    simp only [Layout.bytes, Layout.chunk]
    omega

/-- **The first use of a heap**, by each call that can be it. -/
theorem ends_firstUse (hb : h.Blank) (hcall : c = .init ∨ c.bytes.isSome)
    (hshows : Ends c.perform h fun _ h' => ∃ χ, h'.Shows χ) :
    Ends c.perform h (FirstUse h c) := by
  rcases (ends_ready_opening hb).cases with ⟨d, h₁, hready, ho⟩ | ⟨e, h₁, hready, ho⟩
  · cases ho with
    | @made h₀ _ base q ha hstore hbare hdraw hmade =>
      obtain ⟨p, hentered⟩ := hdraw.entered Layout.alignUp?_chunk
      have haccount : h₁.store.account =
          h.store.account ++ [(Layout.bytes, .ok base), (Layout.chunk, .ok p)] := by
        rw [hentered, hstore, Ledger.account_grow, ha, List.append_assoc]
        rfl
      exact ends_firstUse_of_made hmade hready hmade.charted.directory haccount hcall hshows
  · cases ho with
    | @refused _ e ha hstore hidle =>
      refine ends_perform_of_not_ready hcall hready fun j => .layoutRefused (e := e) ?_
        (hidle.trans (idle_journal h₁ j))
      rw [hstore, Ledger.account_grow, ha]
    | @bare h₀ _ base e ha hstore hbare hdraw hidle =>
      have hsize : h₀.size = Layout.bytes := by
        rw [size, Store.Truthful.size_eq, ← region, hbare.region]
      obtain ⟨hrange, -⟩ | hentered := hdraw.entered Layout.alignUp?_chunk
      · exact absurd hrange (by rw [hsize]; decide)
      · have hasked : h₁.store.account =
            h.store.account ++ [(Layout.bytes, .ok base), (Layout.chunk, .error e)] := by
          rw [hentered, hstore, Ledger.account_grow, ha, List.append_assoc]
          rfl
        refine ends_perform_of_not_ready hcall hready fun j => .chunkRefused hasked ?_
        have hbare' := hbare.idle (hidle.trans (idle_journal h₁ j))
        rw [hbare'.charted.stage_eq, hbare'.region, if_pos rfl]

/-- **What a call does that finds its heap bare**, by what the store answers.
Only `init` asks for the first chunk again; a call for some bytes asks for
what it needs, a chunk at least, and passes on why there is none. -/
inductive BareUse (h : Heap (Ledger σ)) :
    Call → Except Failure (Option Nat) → Heap (Ledger σ) → Prop
  | chunkRefused {h' : Heap (Ledger σ)} {e : Failure}
      (haccount : h'.store.account = h.store.account ++ [(Layout.chunk, .error e)])
      (hidle : Idle h h') : BareUse h .init (.error .notReady) h'
  | chunkGranted {h' : Heap (Ledger σ)} {p : Nat}
      (haccount : h'.store.account = h.store.account ++ [(Layout.chunk, .ok p)])
      (hstage : h'.stage = .stocked) : BareUse h .init (.ok none) h'
  | nothing {c : Call} (hbytes : c.bytes = some 0) : BareUse h c (.ok none) h
  | oversized {c : Call} {n : Nat} (hbytes : c.bytes = some n) (hn : n ≠ 0)
      (hneed : Layout.blockSizeFor? n = none) : BareUse h c (.error .overflow) h
  | unreachable {h' : Heap (Ledger σ)} {c : Call} {n need : Nat} (hbytes : c.bytes = some n)
      (hn : n ≠ 0) (hneed : Layout.blockSizeFor? n = some need)
      (hrange : Layout.wordRange ≤ Layout.bytes + max need Layout.chunk)
      (hstore : h'.store = h.store) (hidle : Idle h h') : BareUse h c (.error .outOfMemory) h'
  | refused {h' : Heap (Ledger σ)} {c : Call} {n need : Nat} {e : Failure}
      (hbytes : c.bytes = some n) (hn : n ≠ 0) (hneed : Layout.blockSizeFor? n = some need)
      (haccount : h'.store.account = h.store.account ++ [(max need Layout.chunk, .error e)])
      (hidle : Idle h h') : BareUse h c (.error e) h'
  | granted {h' : Heap (Ledger σ)} {c : Call} {n need p q : Nat} (hbytes : c.bytes = some n)
      (hn : n ≠ 0) (hneed : Layout.blockSizeFor? n = some need)
      (haccount : h'.store.account = h.store.account ++ [(max need Layout.chunk, .ok p)])
      (hstage : h'.stage = .stocked) : BareUse h c (.ok (some q)) h'

/-- A bare heap that is granted something is stocked. -/
theorem Shows.stage_of_granted (hs : h'.Shows χ) (hd : h'.directory = some d)
    (hextent : h.region.extent = Layout.bytes) {n p : Nat} (hn : 0 < n)
    (haccount : h'.store.account = h.store.account ++ [(n, .ok p)]) : h'.stage = .stocked := by
  rw [extent_eq_sum] at hextent
  refine hs.stage_eq_stocked hd ?_
  rw [haccount, granted_append, granted_cons_ok, granted_nil, List.sum_append, List.sum_singleton]
  omega

theorem ends_bareUse_init (hc : h.Charted d .empty) :
    Ends (Call.init).perform h fun r h' => ∀ χ, h'.Shows χ → BareUse h .init r h' := by
  have hextent : h.region.extent = Layout.bytes := hc.extent_eq
  have hsize : h.size = Layout.bytes := (Store.Truthful.size_eq h.store).trans hextent
  simp only [Call.perform, init, ends_bind, ends_ready_of_some hc.directory, ends_get, if_pos hsize]
  refine ((ends_firstChunk hc).and (ends_firstChunk_draw d)).mono ?_
  rintro r h' ⟨hr, hdraw⟩
  cases r with
  | ok _ =>
    obtain ⟨q, hdraw⟩ := hdraw
    obtain ⟨p, haccount⟩ := hdraw.entered Layout.alignUp?_chunk
    simp only [ends_pure]
    exact fun χ hs => .chunkGranted haccount
      (hs.stage_of_granted hr.1.directory hextent (by decide) haccount)
  | error e =>
    obtain ⟨rfl, e, hdraw⟩ := hdraw
    obtain ⟨hrange, -⟩ | haccount := hdraw.entered Layout.alignUp?_chunk
    · exact absurd hrange (by rw [hsize]; decide)
    · exact fun χ _ => .chunkRefused haccount hr

/-- An allocation in a bare heap. -/
theorem ends_tryMalloc_of_bare (hc : h.Charted d .empty) {n need : Nat} (hn : n ≠ 0)
    (hbytes : c.bytes = some n) (hneed : Layout.blockSizeFor? n = some need) :
    Ends (tryMalloc n) h fun r h' => match r with
      | .ok q => q.isSome ∧ h'.directory = some d ∧ ∃ p,
          h'.store.account = h.store.account ++ [(max need Layout.chunk, .ok p)]
      | .error e => BareUse h c (.error e) h' := by
  obtain ⟨-, -, hlarge, h8, hlt⟩ := Layout.blockSizeFor?_eq_some hneed
  have hsize : h.size = Layout.bytes := (Store.Truthful.size_eq h.store).trans hc.extent_eq
  have hfit : Chart.empty.findFit need = none :=
    (hc.depicts.findFit_eq_none_iff hc.settled).2 fun b hb => absurd hb List.not_mem_nil
  have hround := Layout.alignUp?_max_chunk hneed
  rcases ((ends_extend hc (n := max need Layout.chunk) (by omega)).and
    (ends_extend_draw d _)).cases with ⟨q, h₀, hext, -, hdraw⟩ | ⟨e, h₀, hext, hidle, hdraw⟩
  · obtain ⟨p, haccount⟩ := hdraw.entered hround
    refine (ends_tryMalloc_of_extended hc hn hneed hfit hext).mono ?_
    rintro r h' ⟨g, -, rfl, hserved⟩
    rw [← hserved.store] at haccount
    exact ⟨rfl, hserved.carved.directory, p, haccount⟩
  · rw [ends_tryMalloc_of_not_extended hc hn hneed hfit hext]
    obtain ⟨hrange, rfl, hstore⟩ | haccount := hdraw.entered hround
    · exact .unreachable hbytes hn hneed (hsize ▸ hrange) hstore hidle
    · exact .refused hbytes hn hneed haccount hidle

/-- **The use of a bare heap**, by the same calls. -/
theorem ends_bareUse (hc : h.Charted d .empty) (hcall : c = .init ∨ c.bytes.isSome) :
    Ends c.perform h fun r h' => ∀ χ, h'.Shows χ → BareUse h c r h' := by
  rcases hcall with rfl | hcall
  · exact ends_bareUse_init hc
  obtain ⟨n, hbytes⟩ := Option.isSome_iff_exists.1 hcall
  by_cases hn : n = 0
  · subst hn
    exact (ends_perform_of_zero hc.directory hbytes).2 fun _ _ => .nothing hbytes
  cases hneed : Layout.blockSizeFor? n with
  | none =>
    have hends : Ends (tryMalloc n) h fun r h' => r = .error .overflow ∧ h' = h := by
      simp only [tryMalloc, ends_bind, ends_attempt, ends_ready_of_some hc.directory, if_neg hn,
        ends_orFail, hneed, and_self]
    refine (ends_perform_of_bytes hbytes hn hends fun _ _ _ hr => by cases hr.1).mono ?_
    rintro r h' ⟨rfl, rfl⟩ χ -
    exact .oversized hbytes hn hneed
  | some need =>
    refine (ends_perform_of_bytes hbytes hn (ends_tryMalloc_of_bare hc hn hbytes hneed)
      fun _ _ _ hr => hr).mono ?_
    intro r h' hr χ hs
    have hpos : 0 < max need Layout.chunk := Nat.lt_of_lt_of_le (by decide) (Nat.le_max_right ..)
    rcases r with e | _ | q
    · exact hr
    · exact absurd hr.1 Bool.false_ne_true
    · obtain ⟨-, hd, p, haccount⟩ := hr
      exact .granted hbytes hn hneed haccount
        (hs.stage_of_granted hd hc.extent_eq hpos haccount)

end Ledgers

end Heap

end SegFit
