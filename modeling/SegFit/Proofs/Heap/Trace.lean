import SegFit.Proofs.Heap.Abreast
import SegFit.Proofs.Heap.Shows
/-!
# What operations trace

The records of trace level say which blocks a heap handed out, took back
and moved. Becoming ready and growing add none. An allocation that is
answered with a pointer adds one record, with the size the request asks
for, and a release one with the size the block has (`Ends.tryMalloc_trace`,
`Charted.free_trace`). So the trace is to be held against what the
allocated blocks have in all (`occupied`), which each operation changes by
the blocks it gains and loses.
-/

namespace SegFit

/-- **A store that traces nothing**: it may write to the journal, but not
what only a heap can tell. -/
class Store.Untraced (σ : Type) [Store σ] : Prop where
  level_ne {n : Nat} {s : σ} : ∀ r ∈ (Store.grow n s).records, r.level ≠ .trace

instance : Store.Untraced Arena where
  level_ne {n a} r hr := by
    change r ∈ (a.grow n).records at hr
    unfold Arena.grow at hr
    split at hr
    · cases hr
    · split at hr
      · obtain rfl := List.mem_singleton.1 hr
        exact nofun
      · cases hr

namespace Heap

variable {σ α : Type} {h h' h'' : Heap σ} {d : Directory} {χ χ' : Chart} {b e : Block} {n p : Nat}

/-- **The trace of a heap**: the records of that level, from the first to the
last. -/
def trace (h : Heap σ) : List Record := h.journal.toList.filter (·.level = .trace)

/-- The bytes of all blocks in use. -/
def occupied [Store σ] (h : Heap σ) : Nat :=
  ((h.blocks.filter (·.isAllocated)).map Block.size).sum

/-! ## Records -/

theorem trace_push {r : Record} (hj : h'.journal = h.journal.push r) (hr : r.level = .trace) :
    h'.trace = h.trace ++ [r] := by
  simp [trace, hj, hr]

theorem trace_push_of_ne {r : Record} (hj : h'.journal = h.journal.push r)
    (hr : r.level ≠ .trace) : h'.trace = h.trace := by
  simp [trace, hj, hr]

/-- What a store writes does not add to the trace. -/
theorem trace_grow [Store σ] [Store.Untraced σ] {s : σ}
    (hj : h'.journal = h.journal.appendList (Store.grow n s).records) : h'.trace = h.trace := by
  have hnil : (Store.grow n s).records.filter (·.level = .trace) = [] :=
    List.filter_eq_nil_iff.2 fun r hr => by simpa using Store.Untraced.level_ne r hr
  rw [trace, hj, Array.appendList_eq_append, Array.toList_appendList, List.filter_append, hnil]
  exact List.append_nil _

/-- Nor does a record of another level behind that. -/
theorem trace_grow_push [Store σ] [Store.Untraced σ] {s : σ} {r : Record}
    (hj : h'.journal = (h.journal.appendList (Store.grow n s).records).push r)
    (hr : r.level ≠ .trace) : h'.trace = h.trace :=
  (trace_push_of_ne (h := { h with journal := h.journal.appendList (Store.grow n s).records })
    hj hr).trans (trace_grow rfl)

/-- **An audit that lets an operation go on** has changed nothing. -/
theorem ends_auditItself_of [Store σ] {Q R : Except Failure Unit → Heap σ → Prop}
    (hx : Ends auditItself h Q) : Ends auditItself h R ↔ R (.ok ()) h := by
  rcases auditItself_cases h with heq | ⟨report, j, heq⟩
  · exact ends_of_ok heq
  · rcases hx.cases with ⟨_, _, hrun, -⟩ | ⟨_, _, hrun, -⟩
    · rw [heq] at hrun
      cases hrun
    · rw [heq] at hrun
      cases hrun

/-! ## The trace of an operation -/

section Trace

variable [Store σ] [Store.Untraced σ]

theorem ends_extend_trace (d : Directory) (n : Nat) :
    Ends (extend d n) h fun _ h' => h'.trace = h.trace := by
  rw [extend, ends_bind, ends_orFail]
  cases Layout.alignUp? n with
  | none => exact rfl
  | some g =>
    simp only [ends_bind, ends_get]
    split
    · simp only [ends_bind, ends_request, ends_edit, ends_record, ends_editWith]
      cases (Store.grow g h.store).answer with
      | error e => exact trace_grow rfl
      | ok q => exact trace_grow_push rfl (fun hr => by cases hr)
    · simp only [ends_bind, ends_record, ends_fail]
      exact trace_push_of_ne rfl (fun hr => by cases hr)

omit [Store σ] [Store.Untraced σ] in
/-- Nor does the record of a failure. -/
theorem ends_orNotReady_trace {x : Operation σ α} {f : Failure → Record}
    (hf : ∀ e, (f e).level ≠ .trace) (hx : Ends x h fun _ h' => h'.trace = h.trace) :
    Ends (orNotReady x f) h fun _ h' => h'.trace = h.trace := by
  rw [ends_orNotReady]
  refine hx.mono ?_
  intro r h' hr
  cases r with
  | ok a => exact hr
  | error e =>
    exact (trace_push_of_ne rfl (hf e)).trans hr

theorem ends_firstChunk_trace (d : Directory) :
    Ends (firstChunk d) h fun _ h' => h'.trace = h.trace := by
  refine ends_orNotReady_trace (fun _ => nofun) ?_
  rw [ends_discard]
  refine (ends_extend_trace d Layout.chunk).mono ?_
  intro r h' hr
  cases r <;> exact hr

theorem ends_ready_trace : Ends ready h fun _ h' => h'.trace = h.trace := by
  cases hd : h.directory with
  | some d => exact (ends_ready_of_some hd).2 rfl
  | none =>
    simp only [ready, ends_bind, ends_get, hd, ends_orNotReady, ends_request, ends_edit,
      ends_modify, ends_record, ends_pure]
    cases (Store.grow Layout.bytes h.store).answer with
    | error e => exact trace_grow_push rfl (fun hr => by cases hr)
    | ok base =>
      refine (ends_firstChunk_trace _).mono ?_
      intro r h' hr
      have hlaid := hr.trans (trace_grow_push rfl (fun hr => by cases hr))
      cases r <;> exact hlaid

theorem ends_init_trace : Ends init h fun _ h' => h'.trace = h.trace := by
  rw [init, ends_bind]
  refine ends_ready_trace.mono ?_
  intro r h₁ hr
  cases r with
  | error e => exact hr
  | ok d =>
    simp only [ends_bind, ends_get]
    split
    · exact (ends_firstChunk_trace d).mono fun r h' hr' => hr'.trans hr
    · rw [ends_pure]
      exact hr

/-- **The record of an allocation** that is answered with a pointer: it has
the size that the request asks for. -/
def allotment (n : Nat) : Option Nat → List Record
  | none => []
  | some p => [.allocated n p (Layout.alignUp n + Layout.tags)]

/-- **The record of a release**, if there is anything to release: it has the
size of the block. -/
def surrender (before : Heap σ) : Option Nat → List Record
  | none => []
  | some p => [.freed p (before.memory.blockSize p)]

/-- **The records of a move** that is answered with a pointer: an allocation,
a release, and how many bytes were kept. -/
def relocation (before after : Heap σ) (old n : Nat) : Option Nat → List Record
  | none => []
  | some q => allotment n (some q) ++ surrender before (some old) ++
      [.moved old n q (min (before.usableSize (some old)) (after.usableSize (some q)))]

/-- **An allocation traces what it gives**, in every heap it does not stop in
for an audit. -/
theorem Ends.tryMalloc_trace {Q : Except Failure (Option Nat) → Heap σ → Prop}
    (hx : Ends (tryMalloc n) h Q) :
    Ends (tryMalloc n) h fun r h' => h'.trace = h.trace ++ allotment n r.toOption.join := by
  rw [tryMalloc, ends_bind, ends_attempt] at hx ⊢
  refine (hx.and ends_ready_trace).mono ?_
  rintro r h₁ ⟨hx, htrace⟩
  rw [← htrace]
  by_cases hn : n = 0
  · simp only [if_pos hn, ends_pure]
    exact (List.append_nil _).symm
  · simp only [if_neg hn] at hx ⊢
    cases r with
    | error e =>
      rw [ends_fail]
      exact (List.append_nil _).symm
    | ok d =>
      simp only [ends_bind, ends_orFail] at hx ⊢
      cases hneed : Layout.blockSizeFor? n with
      | none => exact (List.append_nil _).symm
      | some need =>
        obtain rfl := Layout.blockSizeFor?_eq_alignUp hneed (Nat.pos_of_ne_zero hn)
        simp only [hneed, ends_look] at hx ⊢
        cases hfit : d.findFit h₁.memory (Layout.alignUp n + Layout.tags) with
        | some p =>
          simp only [hfit, ends_bind, ends_pure, ends_edit, ends_record] at hx ⊢
          rw [ends_auditItself_of hx]
          exact trace_push rfl rfl
        | none =>
          simp only [hfit, ends_bind] at hx ⊢
          refine (hx.and (ends_extend_trace d _)).mono ?_
          rintro r h₂ ⟨hx, htrace₂⟩
          rw [← htrace₂]
          cases r with
          | error e => exact (List.append_nil _).symm
          | ok p =>
            simp only [ends_pure, ends_edit, ends_record] at hx ⊢
            rw [ends_auditItself_of hx]
            exact trace_push rfl rfl

omit [Store.Untraced σ] in
/-- **A release traces what it takes**, in a heap that is laid out. -/
theorem Ends.free_trace {Q : Except Failure Unit → Heap σ → Prop}
    (hx : Ends (free (some p)) h Q) (hd : h.directory = some d) :
    Ends (free (some p)) h fun _ h' => h'.trace = h.trace ++ surrender h (some p) := by
  simp only [free, ends_bind, ends_attempt, ends_ready_of_some hd, ends_look, ends_edit,
    ends_discard, ends_editWith, ends_record] at hx ⊢
  rw [ends_auditItself_of hx]
  exact trace_push rfl rfl

theorem ends_free_none_trace : Ends (free none) h fun _ h' => h'.trace = h.trace := by
  rw [free, ends_bind, ends_attempt]
  refine ends_ready_trace.mono ?_
  intro r h₁ hr
  cases r with
  | error e =>
    simp only [ends_record]
    exact (trace_push_of_ne (r := .freeFailed none e) rfl nofun).trans hr
  | ok d =>
    simp only [ends_pure]
    exact hr

omit [Store.Untraced σ] in
/-- What a move traces once the new block `f` is there. -/
theorem ends_tryRealloc_trace_of_tryMalloc {f : Block} (hn : n ≠ 0)
    (hrun : tryMalloc n h = .ok (some f.payload) h') (hc : h'.Charted d χ) (hb : b ∈ χ.blocks)
    (halloc : b.isAllocated = true) (hf : f ∈ χ.blocks) (hfalloc : f.isAllocated = true)
    (hne : b ≠ f) :
    Ends (tryRealloc (some b.payload) n) h fun _ h'' => h''.trace = h'.trace ++
      [.freed b.payload b.size, .moved b.payload n f.payload (min (b.size - 8) (f.size - 8))] := by
  have hsize : h'.memory.usableSize b.payload = b.size - 8 := hc.depicts.usableSize_eq hb
  have hsize' : h'.memory.usableSize f.payload = f.size - 8 := hc.depicts.usableSize_eq hf
  simp only [tryRealloc, if_neg hn, ends_bind, ends_of_ok hrun, ends_look, ends_edit, hsize, hsize']
  generalize hk : min (b.size - 8) (f.size - 8) = k
  obtain ⟨hc₂, -⟩ := hc.copy hb hf hfalloc hne hk.symm
  have hblock := hc₂.depicts.blockSize_eq hb
  generalize h'.memory.copy b.payload f.payload k = m at hc₂ hblock ⊢
  have hfrees := ends_free hc₂ hb halloc
  refine (hfrees.and (hfrees.free_trace hc₂.directory)).mono ?_
  rintro r h₃ ⟨⟨rfl, -⟩, htrace⟩
  simp only [ends_record, ends_pure]
  dsimp only at hblock
  refine (trace_push (h := h₃) rfl rfl).trans ?_
  rw [htrace, surrender, hblock, List.append_assoc]
  rfl

/-- **A move traces all three of its steps.** -/
theorem ends_tryRealloc_trace [Store.Lawful σ] (hs : h.Shows χ) (hb : b ∈ χ.blocks)
    (halloc : b.isAllocated = true) (hn : n ≠ 0) :
    Ends (tryRealloc (some b.payload) n) h fun r h' =>
      h'.trace = h.trace ++ relocation h h' b.payload n r.toOption.join := by
  have htakes := ends_tryMalloc_takes hs n
  rcases (htakes.and htakes.tryMalloc_trace).cases with
    ⟨q, h₁, hrun, hr, htrace⟩ | ⟨e, h₁, hrun, -, htrace⟩
  · match q with
    | none =>
      simp only [tryRealloc, if_neg hn, ends_bind, ends_of_ok hrun, ends_pure]
      exact htrace
    | some q =>
      obtain ⟨f, χ₁, rfl, hg⟩ := hr
      obtain ⟨d, hc⟩ := hs.charted_of_mem hb
      obtain ⟨d₁, hc₁⟩ := hg.shows.charted_of_mem hg.mem
      have hb₁ : b ∈ χ₁.blocks := (hg.mem_blocks_iff b halloc).2 (.inl hb)
      have hne : b ≠ f := fun heq => hg.new (heq ▸ hb)
      have hends := ends_tryRealloc_of_tryMalloc hn hrun hc₁ hb₁ halloc hg.mem hg.isAllocated hne
      refine (hends.and (ends_tryRealloc_trace_of_tryMalloc hn hrun hc₁ hb₁ halloc hg.mem
        hg.isAllocated hne)).mono ?_
      rintro r h₂ ⟨⟨rfl, hmoves⟩, htrace₂⟩
      -- the sizes are those of the old block before and the new one after
      have hf := (hmoves.mem_blocks_iff f hg.isAllocated).2 ⟨hg.mem, hne.symm⟩
      have hold := hc.depicts.blockSize_eq hb
      have hfrom : h.usableSize (some b.payload) = b.size - 8 := hc.depicts.usableSize_eq hb
      have hto : h₂.usableSize (some f.payload) = f.size - 8 :=
        hmoves.charted.depicts.usableSize_eq hf
      change _ = _ ++ relocation _ _ _ _ (some f.payload)
      rw [htrace₂, htrace, relocation, surrender, hold, hfrom, hto, List.append_assoc,
        List.append_assoc]
      rfl
  · simp only [tryRealloc, if_neg hn, ends_bind, ends_of_failed hrun]
    exact htrace

/-- **A zeroed allocation** traces as the allocation it is. -/
theorem ends_tryCalloc_trace {count size : Nat} {Q : Except Failure (Option Nat) → Heap σ → Prop}
    (hx : Ends (tryMalloc (count * size)) h Q) :
    Ends (tryCalloc count size) h fun r h' =>
      h'.trace = h.trace ++ allotment (count * size) r.toOption.join := by
  rw [ends_tryCalloc]
  split
  · refine hx.tryMalloc_trace.mono ?_
    intro r h' hr
    match r with
    | .ok (some p) => exact hr
    | .ok none => exact hr
    | .error e => exact hr
  · exact (List.append_nil _).symm

end Trace

/-! ## The bytes in use -/

section Occupied

variable [Store σ]

/-- A heap shows no block twice. -/
theorem Shows.nodup (hs : h.Shows χ) : χ.blocks.Nodup := by
  rcases hs with ⟨-, rfl⟩ | ⟨d, hc⟩
  · exact List.nodup_nil
  · exact hc.depicts.tiles.nodup

theorem Shows.occupied_eq (hs : h.Shows χ) :
    h.occupied = ((χ.blocks.filter (·.isAllocated)).map Block.size).sum := by
  rw [occupied, hs.blocks_eq]

/-- **What is in use changes by what is gained and lost**, if the blocks in use
are the same but for these. -/
theorem Shows.occupied_change (hs : h.Shows χ) (hs' : h'.Shows χ') (gained lost : Option Block)
    (hgained : ∀ x ∈ gained, x ∉ χ.blocks) (hlost : ∀ x ∈ lost, x ∉ χ'.blocks)
    (hmem : ∀ x, x ∈ lost ∨ x ∈ χ'.blocks ∧ x.isAllocated = true ↔
      x ∈ gained ∨ x ∈ χ.blocks ∧ x.isAllocated = true) :
    h'.occupied + (lost.elim 0 Block.size) = h.occupied + (gained.elim 0 Block.size) := by
  have hsum : ∀ (o : Option Block) (l : List Block),
      ((o.toList ++ l).map Block.size).sum = (l.map Block.size).sum + o.elim 0 Block.size := by
    intro o l
    cases o with
    | none => rfl
    | some b => exact Nat.add_comm ..
  have hnd : ∀ {o : Option Block} {l : List Block}, l.Nodup → (∀ x ∈ o, x ∉ l) →
      (o.toList ++ l.filter (·.isAllocated)).Nodup := by
    intro o l hl ho
    cases o with
    | none => exact hl.filter _
    | some b =>
      exact List.nodup_cons.2 ⟨fun hb => ho b rfl (List.mem_of_mem_filter hb), hl.filter _⟩
  have hperm : (lost.toList ++ χ'.blocks.filter (·.isAllocated)).Perm
      (gained.toList ++ χ.blocks.filter (·.isAllocated)) := by
    refine (List.perm_ext_iff_of_nodup (hnd hs'.nodup hlost) (hnd hs.nodup hgained)).2 fun x => ?_
    simp only [List.mem_append, Option.mem_toList, List.mem_filter]
    exact hmem x
  rw [hs.occupied_eq, hs'.occupied_eq, ← hsum, ← hsum]
  exact (hperm.map _).sum_nat

theorem Blank.occupied (hb : h.Blank) : h.occupied = 0 := by
  rw [Heap.occupied, blocks, hb.directory]
  rfl

theorem Preserves.occupied (hs : h.Shows χ) (hp : Preserves h χ h' χ') :
    h'.occupied = h.occupied := by
  refine hs.occupied_change hp.shows none none nofun nofun fun x => ?_
  simp only [Option.not_mem_none, false_or]
  exact and_congr_left (hp.mem_blocks_iff x)

theorem Gains.occupied (hs : h.Shows χ) (hg : Gains h χ b h' χ') :
    h'.occupied = h.occupied + b.size := by
  refine hs.occupied_change hg.shows (some b) none ?_ nofun fun x => ?_
  · rintro x ⟨⟩
    exact hg.new
  · have hx := hg.mem_blocks_iff x
    have hb := hg.isAllocated
    grind

theorem Loses.occupied (hs : h.Shows χ) (hb : b ∈ χ.blocks) (halloc : b.isAllocated = true)
    (hl : Loses h χ b h' χ') : h'.occupied + b.size = h.occupied := by
  refine hs.occupied_change hl.shows none (some b) nofun ?_ fun x => ?_
  · rintro x ⟨⟩
    exact fun hin => ((hl.mem_blocks_iff b halloc).1 hin).2 rfl
  · have hx := hl.mem_blocks_iff x
    grind

theorem Trades.occupied (hs : h.Shows χ) (hb : b ∈ χ.blocks) (halloc : b.isAllocated = true)
    (hx : Trades h χ b e h' χ') : h'.occupied + b.size = h.occupied + e.size := by
  refine hs.occupied_change hx.shows (some e) (some b) ?_ ?_ fun x => ?_
  · rintro x ⟨⟩
    exact hx.new
  · rintro x ⟨⟩
    exact fun hin => ((hx.mem_blocks_iff b halloc).1 hin).2 rfl
  · have hmem := hx.mem_blocks_iff x
    have he := hx.isAllocated
    have hne : e ≠ b := fun heq => hx.ne (congrArg Block.payload heq)
    grind

end Occupied

end Heap

end SegFit
