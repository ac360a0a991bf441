import SegFit.Proofs.Heap.Allocation
/-!
# What owners of blocks can tell

An operation may make a blank heap ready before it does its own work, and
may fail on the way. To those who own allocated blocks only this matters:
their blocks are still there with their payloads (`Preserves`), or there
is one block more (`Gains`), or one less (`Loses`).
-/

namespace SegFit

namespace Heap

variable {σ : Type} [Store σ] {h h' h'' : Heap σ} {χ χ' χ'' : Chart} {b : Block}

/-- **Nothing an owner could tell.** The same blocks are allocated, and
their payloads are kept. -/
structure Preserves (h : Heap σ) (χ : Chart) (h' : Heap σ) (χ' : Chart) : Prop where
  shows : h'.Shows χ'
  mem_blocks_iff : ∀ e, e.isAllocated = true → (e ∈ χ'.blocks ↔ e ∈ χ.blocks)
  keeps : Chart.Keeps χ.blocks h.memory h'.memory

/-- **One block more.** -/
structure Gains (h : Heap σ) (χ : Chart) (b : Block) (h' : Heap σ) (χ' : Chart) : Prop where
  shows : h'.Shows χ'
  isAllocated : b.isAllocated = true
  new : b ∉ χ.blocks
  mem_blocks_iff : ∀ e, e.isAllocated = true → (e ∈ χ'.blocks ↔ e ∈ χ.blocks ∨ e = b)
  keeps : Chart.Keeps χ.blocks h.memory h'.memory

/-- **One block less.** -/
structure Loses (h : Heap σ) (χ : Chart) (b : Block) (h' : Heap σ) (χ' : Chart) : Prop where
  shows : h'.Shows χ'
  mem_blocks_iff : ∀ e, e.isAllocated = true → (e ∈ χ'.blocks ↔ e ∈ χ.blocks ∧ e ≠ b)
  keeps : Chart.Keeps (χ.blocks.erase b) h.memory h'.memory

/-- **One block for another**, with the old one's contents as far as both
go. -/
structure Trades (h : Heap σ) (χ : Chart) (b e : Block) (h' : Heap σ) (χ' : Chart) : Prop where
  shows : h'.Shows χ'
  isAllocated : e.isAllocated = true
  new : e ∉ χ.blocks
  ne : e.payload ≠ b.payload
  mem_blocks_iff : ∀ x, x.isAllocated = true →
    (x ∈ χ'.blocks ↔ (x ∈ χ.blocks ∨ x = e) ∧ x ≠ b)
  keeps : Chart.Keeps (χ.blocks.erase b) h.memory h'.memory
  moved : ∀ i, i < min (b.size - 8) (e.size - 8) →
    h'.memory.byte (e.payload + i) = h.memory.byte (b.payload + i)

theorem Gains.mem (hg : Gains h χ b h' χ') : b ∈ χ'.blocks :=
  (hg.mem_blocks_iff b hg.isAllocated).2 (.inr rfl)

/-- The block gained is one of the heap's. -/
theorem Gains.mem_blocks (hg : Gains h χ b h' χ') : b ∈ h'.blocks := by
  rw [hg.shows.blocks_eq]
  exact hg.mem

/-- So is still what was allocated before. -/
theorem Gains.persists {e : Block} (hg : Gains h χ b h' χ') (he : e ∈ χ.blocks)
    (halloc : e.isAllocated = true) : e ∈ h'.blocks := by
  rw [hg.shows.blocks_eq]
  exact (hg.mem_blocks_iff e halloc).2 (.inl he)

theorem Trades.mem {e : Block} (hx : Trades h χ b e h' χ') : e ∈ χ'.blocks :=
  (hx.mem_blocks_iff e hx.isAllocated).2 ⟨.inr rfl, fun heq => hx.ne (congrArg Block.payload heq)⟩

theorem Preserves.of_idle (hs : h.Shows χ) (hi : Idle h h') : Preserves h χ h' χ :=
  ⟨hs.idle hi, fun _ _ => Iff.rfl, by rw [hi.memory]; exact Chart.Keeps.refl _ _⟩

/-- What is kept by two changes in a row is kept. -/
theorem Preserves.keeps_trans (h₁ : Preserves h χ h' χ') {m : Memory}
    (h₂ : Chart.Keeps χ'.blocks h'.memory m) : Chart.Keeps χ.blocks h.memory m :=
  h₁.keeps.trans (h₂.mono fun e he halloc => (h₁.mem_blocks_iff e halloc).2 he)

theorem Preserves.trans (h₁ : Preserves h χ h' χ') (h₂ : Preserves h' χ' h'' χ'') :
    Preserves h χ h'' χ'' :=
  ⟨h₂.shows, fun e he => (h₂.mem_blocks_iff e he).trans (h₁.mem_blocks_iff e he),
    h₁.keeps_trans h₂.keeps⟩

theorem Preserves.gains (h₁ : Preserves h χ h' χ') (h₂ : Gains h' χ' b h'' χ'') :
    Gains h χ b h'' χ'' :=
  ⟨h₂.shows, h₂.isAllocated,
    fun hin => h₂.new ((h₁.mem_blocks_iff b h₂.isAllocated).2 hin),
    fun e he => by rw [h₂.mem_blocks_iff e he, h₁.mem_blocks_iff e he], h₁.keeps_trans h₂.keeps⟩

/-! ## Failures -/

/-- **What an operation that fails may leave behind**: an idle heap, or one
that was blank and has been made ready, with its first chunk or without. -/
inductive Leaves (h : Heap σ) : Heap σ → Prop
  | idle {h' : Heap σ} (hidle : Idle h h') : Leaves h h'
  | bare {h' : Heap σ} (hblank : h.Blank) (hbare : LaidBare h h') : Leaves h h'
  | ready {h' : Heap σ} (hblank : h.Blank) (hready : MadeReady h h') : Leaves h h'

theorem Leaves.trans_idle (hl : Leaves h h') (hi : Idle h' h'') : Leaves h h'' := by
  cases hl with
  | idle hidle => exact .idle (hidle.trans hi)
  | bare hblank hbare => exact .bare hblank (hbare.idle hi)
  | ready hblank hready => exact .ready hblank (hready.idle hi)

/-- **A heap that is not laid out** is blank. -/
theorem Shows.blank_of_none (hs : h.Shows χ) (hd : h.directory = none) : h.Blank := by
  cases hs with
  | blank hblank => exact hblank
  | charted d hc =>
    rw [hc.directory] at hd
    cases hd

theorem Shows.charted_of_some {d : Directory} (hs : h.Shows χ) (hd : h.directory = some d) :
    h.Charted d χ := by
  cases hs with
  | blank hblank =>
    rw [hblank.directory] at hd
    cases hd
  | charted d' hc =>
    rw [hc.directory] at hd
    cases hd
    exact hc

/-- A blank heap shows no block. -/
theorem Shows.eq_empty (hs : h.Shows χ) (hb : h.Blank) : χ = .empty := by
  cases hs with
  | blank _ hempty => exact hempty
  | charted d hc =>
    have hd := hc.directory
    rw [hb.directory] at hd
    cases hd

theorem MadeReady.preserves (hr : MadeReady h h') :
    Preserves h .empty h' (Chart.empty.grow (h.region.start + Layout.bytes) Layout.chunk).2 :=
  ⟨.charted _ hr.charted, hr.grows.mem_blocks_iff, fun _ hb => absurd hb List.not_mem_nil⟩

/-- **A failure** costs no owner anything. -/
theorem Leaves.preserves (hs : h.Shows χ) (hl : Leaves h h') : ∃ χ', Preserves h χ h' χ' := by
  cases hl with
  | idle hidle => exact ⟨χ, .of_idle hs hidle⟩
  | bare hblank hbare =>
    obtain rfl := hs.eq_empty hblank
    exact ⟨.empty, .charted _ hbare.charted, fun _ _ => Iff.rfl,
      fun _ hb => absurd hb List.not_mem_nil⟩
  | ready hblank hready =>
    obtain rfl := hs.eq_empty hblank
    exact ⟨_, hready.preserves⟩

variable [Store.Lawful σ]

/-- **Making a heap ready** leaves no more behind than a failure may. -/
theorem ends_ready (hs : h.Shows χ) :
    Ends ready h fun r h' => Leaves h h' ∧
      ∀ d, r = .ok d → ∃ χ', h'.Charted d χ' ∧ Preserves h χ h' χ' := by
  cases hs with
  | charted d hc =>
    rw [ends_ready_of_some hc.directory]
    refine ⟨.idle (Idle.refl h), ?_⟩
    intro d' hd
    cases hd
    exact ⟨χ, hc, .of_idle (.charted d hc) (Idle.refl h)⟩
  | blank hblank hempty =>
    subst hempty
    refine (ends_ready_of_blank hblank).mono ?_
    intro r h' hr
    match r with
    | .ok d =>
      obtain ⟨rfl, hready⟩ := hr
      refine ⟨.ready hblank hready, ?_⟩
      intro d' hd
      cases hd
      exact ⟨_, hready.charted, hready.preserves⟩
    | .error e =>
      refine ⟨?_, fun _ hd => by cases hd⟩
      rcases hr with hidle | hbare
      · exact .idle hidle
      · exact .bare hblank hbare

/-- **What came of a request for a block**: one block more, at the pointer
given, or what a failure may leave. -/
def Takes (h : Heap σ) (χ : Chart) : Except Failure (Option Nat) → Heap σ → Prop
  | .ok (some p), h' => ∃ b χ', b.payload = p ∧ Gains h χ b h' χ'
  | .ok none, h' => Leaves h h'
  | .error _, h' => Leaves h h'

omit [Store.Lawful σ] in
/-- An allocation in a heap that was made ready for it. -/
theorem Allots.takes {d : Directory} {n : Nat} {r : Except Failure (Option Nat)}
    (hl : Leaves h h') (hp : Preserves h χ h' χ') (ha : Allots h' d χ' n r h'') :
    Takes h χ r h'' := by
  cases ha with
  | nothing _ hidle => exact hl.trans_idle hidle
  | oversized _ _ hidle => exact hl.trans_idle hidle
  | refused _ _ _ hidle => exact hl.trans_idle hidle
  | served _ _ _ _ hcharted hkeeps hnew hblocks =>
    exact ⟨Chart.served _ _, _, rfl, hp.gains ⟨.charted d hcharted, rfl, hnew, hblocks, hkeeps⟩⟩

/-- **Any allocation** fails on the way to a ready heap, or is one in a heap that
was made ready for it. -/
theorem ends_tryMalloc_allots (hs : h.Shows χ) (n : Nat) :
    Ends (tryMalloc n) h fun r h' =>
      (Leaves h h' ∧ ∀ p, r ≠ .ok (some p)) ∨
        ∃ d χ₁ h₁, Leaves h h₁ ∧ Preserves h χ h₁ χ₁ ∧ Allots h₁ d χ₁ n r h' := by
  rw [tryMalloc, ends_bind, ends_attempt]
  refine (ends_ready hs).mono ?_
  intro r h₁ hr
  obtain ⟨hleaves, hready⟩ := hr
  rcases r with e | d
  · by_cases hn : n = 0
    · simp only [if_pos hn, ends_pure]
      exact .inl ⟨hleaves, by simp⟩
    · simp only [if_neg hn, ends_fail]
      exact .inl ⟨hleaves, by simp⟩
  · -- from here on it is an allocation in the heap that is now ready
    obtain ⟨χ₁, hc, hpreserves⟩ := hready d rfl
    have hx := (ends_tryMalloc hc n).mono (R := fun r h' =>
        (Leaves h h' ∧ ∀ p, r ≠ .ok (some p)) ∨
          ∃ d χ₁ h₁, Leaves h h₁ ∧ Preserves h χ h₁ χ₁ ∧ Allots h₁ d χ₁ n r h')
      fun r h₂ ha => .inr ⟨d, χ₁, h₁, hleaves, hpreserves, ha⟩
    rw [tryMalloc, ends_bind, ends_attempt, ends_ready_of_some hc.directory] at hx
    exact hx

/-- So it takes a block or leaves what a failure may. -/
theorem ends_tryMalloc_takes (hs : h.Shows χ) (n : Nat) : Ends (tryMalloc n) h (Takes h χ) := by
  refine (ends_tryMalloc_allots hs n).mono ?_
  rintro r h' (⟨hleaves, hnone⟩ | ⟨d, χ₁, h₁, hleaves, hpreserves, ha⟩)
  · match r with
    | .ok (some p) => exact absurd rfl (hnone p)
    | .ok none => exact hleaves
    | .error e => exact hleaves
  · exact ha.takes hleaves hpreserves

omit [Store.Lawful σ] in
/-- A heap with a block is laid out. -/
theorem Shows.charted_of_mem (hs : h.Shows χ) (hb : b ∈ χ.blocks) : ∃ d, h.Charted d χ := by
  cases hs with
  | charted d hc => exact ⟨d, hc⟩
  | blank _ hempty =>
    subst hempty
    exact absurd hb List.not_mem_nil

omit [Store.Lawful σ] in
/-- The block gained may be written to before it is handed out. -/
theorem Gains.write (hg : Gains h χ b h' χ') {m : Memory}
    (hframe : ∀ a, ¬ (b.payload ≤ a ∧ a < b.payload + (b.size - 8)) →
      m.byte a = h'.memory.byte a) :
    Gains h χ b { h' with memory := m } χ' := by
  have hb := hg.mem
  obtain ⟨d, hc⟩ := hg.shows.charted_of_mem hb
  obtain ⟨hc', hkeeps⟩ := hc.write hb hg.isAllocated hframe
  refine ⟨.charted d hc', hg.isAllocated, hg.new, hg.mem_blocks_iff,
    hg.keeps.trans (hkeeps.mono ?_)⟩
  intro e he halloc
  refine hc.depicts.tiles.nodup.mem_erase_iff.2 ⟨fun heq => hg.new (heq ▸ he), ?_⟩
  exact (hg.mem_blocks_iff e halloc).2 (.inl he)

/-- **Any zeroed allocation.** The fill stays in the new payload. -/
theorem ends_tryCalloc_takes (hs : h.Shows χ) (count size : Nat) :
    Ends (tryCalloc count size) h fun r h' => Takes h χ r h' ∧
      ∀ p, r = .ok (some p) → ∀ i, i < h'.memory.usableSize p → h'.memory.byte (p + i) = 0 := by
  rw [ends_tryCalloc]
  split
  · refine (ends_tryMalloc_takes hs (count * size)).mono ?_
    intro r h₁ hr
    match r with
    | .error e => exact ⟨hr, fun _ hp => by cases hp⟩
    | .ok none => exact ⟨hr, fun _ hp => by cases hp⟩
    | .ok (some p) =>
      obtain ⟨b, χ₁, rfl, hg⟩ := hr
      have hb := hg.mem
      obtain ⟨d, hc⟩ := hg.shows.charted_of_mem hb
      dsimp only
      generalize hm : h₁.memory.fill b.payload (h₁.memory.usableSize b.payload) 0 = m
      obtain ⟨hc', hzero⟩ := hc.zero hb hg.isAllocated hm.symm
      refine ⟨⟨b, χ₁, rfl, hg.write fun a ha => by rw [hzero, if_neg ha]⟩, ?_⟩
      intro p hp i hi
      cases hp
      have husable : m.usableSize b.payload = b.size - 8 := hc'.depicts.usableSize_eq hb
      rw [hzero, if_pos ⟨by omega, by omega⟩]
  · exact ⟨.idle (Idle.refl h), fun _ hp => by cases hp⟩

/-- **Initialization** costs no owner anything. -/
theorem ends_init_preserves (hs : h.Shows χ) :
    Ends init h fun r h' =>
      (∃ χ', Preserves h χ h' χ') ∧ ∀ e, r = .error e → Leaves h h' := by
  rw [init, ends_bind]
  refine (ends_ready hs).mono ?_
  intro r h₁ hr
  obtain ⟨hleaves, hready⟩ := hr
  rcases r with e | d
  · exact ⟨hleaves.preserves hs, fun _ _ => hleaves⟩
  · obtain ⟨χ₁, hc, hpreserves⟩ := hready d rfl
    simp only [ends_bind, ends_get]
    split
    · refine (ends_firstChunk hc).mono ?_
      intro r h₂ hr
      rcases r with e | _
      · exact ⟨(hleaves.trans_idle hr).preserves hs, fun _ _ => hleaves.trans_idle hr⟩
      · obtain ⟨hc₂, -, hkeeps, hgrows, -⟩ := hr
        exact ⟨⟨_, hpreserves.trans ⟨.charted d hc₂, hgrows.mem_blocks_iff, hkeeps⟩⟩,
          fun _ he => by cases he⟩
    · rw [ends_pure]
      exact ⟨⟨χ₁, hpreserves⟩, fun _ he => by cases he⟩

/-- **Giving back no pointer** at most makes the heap ready. -/
theorem ends_free_preserves (hs : h.Shows χ) :
    Ends (free none) h fun r h' => r = .ok () ∧ ∃ χ', Preserves h χ h' χ' := by
  rw [free, ends_bind, ends_attempt]
  refine (ends_ready hs).mono ?_
  intro r h₁ hr
  obtain ⟨hleaves, -⟩ := hr
  rcases r with e | d
  · simp only [ends_record]
    exact ⟨trivial, (hleaves.trans_idle (idle_journal h₁ _)).preserves hs⟩
  · simp only [ends_pure]
    exact ⟨trivial, hleaves.preserves hs⟩

omit [Store.Lawful σ] in
/-- **Giving an allocated block back** never fails. -/
theorem ends_free_loses (hs : h.Shows χ) (hb : b ∈ χ.blocks) (halloc : b.isAllocated = true) :
    Ends (free (some b.payload)) h fun r h' => r = .ok () ∧ ∃ χ', Loses h χ b h' χ' := by
  obtain ⟨d, hc⟩ := hs.charted_of_mem hb
  refine (ends_free hc hb halloc).mono fun r h' hr => ⟨hr.1, (χ.release b).2, ?_⟩
  exact ⟨.charted d hr.2.charted, hr.2.mem_blocks_iff, hr.2.keeps⟩

/-- **Moving an allocated block** trades it for another or fails. -/
theorem ends_tryRealloc_trades (hs : h.Shows χ) (hb : b ∈ χ.blocks) (halloc : b.isAllocated = true)
    {n : Nat} (hn : n ≠ 0) :
    Ends (tryRealloc (some b.payload) n) h fun r h' =>
      (∃ e, r = .error e ∧ Idle h h') ∨
        ∃ e χ', r = .ok (some e.payload) ∧ Trades h χ b e h' χ' := by
  obtain ⟨d, hc⟩ := hs.charted_of_mem hb
  refine (ends_tryRealloc hc hb halloc hn).mono ?_
  intro r h' hr
  cases hr with
  | @refused _ e hidle => exact .inl ⟨e, rfl, hidle⟩
  | moved hneed hsource hle hcharted hkeeps hmoved hne hnew hblocks =>
    exact .inr ⟨Chart.served _ _, _, rfl,
      ⟨.charted d hcharted, rfl, hnew, hne, hblocks, hkeeps, hmoved⟩⟩

omit [Store σ] [Store.Lawful σ] in
/-- The lenient forms give no pointer where the strict ones fail. -/
theorem ends_orNull {x : Operation σ (Option Nat)} {f : Failure → Record}
    {Q : Except Failure (Option Nat) → Heap σ → Prop} :
    Ends (orNull x f) h Q ↔ Ends x h fun r h' => match r with
      | .ok p => Q (.ok p) h'
      | .error e => Q (.ok none) { h' with journal := h'.journal.push (f e) } := by
  rw [orNull, ends_bind, ends_attempt]
  refine Ends.congr ?_
  intro r h'
  cases r <;> simp only [ends_pure, ends_bind, ends_record]

end Heap

end SegFit
