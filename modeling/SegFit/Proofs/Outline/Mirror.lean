import SegFit.Proofs.Chart.Shift
import SegFit.Proofs.Heap.Shows
import SegFit.Proofs.Outline.Basic
/-!
# Heaps do what their plans do

`Outlined start h o` says that a heap begins at `start` and is what the
outline `o` says. Each operation of such a heap does what its plan does
(`Mirrors`): it gives the same answer, but for the address, and the heap
has the outline the plan leaves. What an outlined heap has in its payloads
plays no part.
-/

namespace SegFit

namespace Heap

variable {σ α β γ δ : Type} [Store σ] {h h' : Heap σ} {o o' : Outline} {start n : Nat} {χ : Chart}
  {b : Block}

/-- **A chart at an address**, if there is one: the heap is as it says. -/
def Drawn (h : Heap σ) (start : Nat) : Option Chart → Prop
  | none => h.Blank
  | some χ => h.Charted (.ofBase start) (χ.shift start)

/-- **A heap and its outline.** -/
structure Outlined (h : Heap σ) (start : Nat) (o : Outline) : Prop where
  start_eq : h.region.start = start
  growth : Store.behaviour h.store = o.growth
  drawn : h.Drawn start o.chart

/-- **One result and its plan's**, of which `f` makes an answer at an
address. -/
def Matches (start : Nat) (f : β → α) (s : Except Failure β × Outline) (r : Except Failure α)
    (h' : Heap σ) : Prop :=
  r = s.1.map f ∧ h'.Outlined start s.2

/-- **An operation does what a plan does.** -/
def Mirrors (start : Nat) (x : Operation σ α) (y : Plan β) (f : β → α) (h : Heap σ)
    (o : Outline) : Prop :=
  Ends x h (Matches start f (y.exec o))

namespace Outlined

theorem extent (ho : h.Outlined start o) : h.region.extent = (o.growth []).extent :=
  congrArg Store.Face.extent (congrFun ho.growth [])

theorem size (ho : h.Outlined start o) : h.size = (o.growth []).size :=
  congrArg Store.Face.size (congrFun ho.growth [])

theorem refusal (ho : h.Outlined start o) (n : Nat) :
    (match (Store.grow n h.store).answer with
      | .ok _ => none
      | .error e => some e) = (o.growth []).refusal n :=
  congrFun (congrArg Store.Face.refusal (congrFun ho.growth [])) n

/-- How the store grows after a request. -/
theorem growth_grow (ho : h.Outlined start o) (n : Nat) :
    Store.behaviour (Store.grow n h.store).store = fun ns => o.growth (n :: ns) :=
  funext fun ns => congrFun ho.growth (n :: ns)

theorem blank (ho : h.Outlined start o) (hχ : o.chart = none) : h.Blank := by
  have hdrawn := ho.drawn
  rwa [hχ] at hdrawn

theorem charted (ho : h.Outlined start o) (hχ : o.chart = some χ) :
    h.Charted (.ofBase start) (χ.shift start) := by
  have hdrawn := ho.drawn
  rwa [hχ] at hdrawn

theorem shows (ho : h.Outlined start o) : ∃ χ, h.Shows χ := by
  cases hχ : o.chart with
  | none => exact ⟨_, .blank (ho.blank hχ) rfl⟩
  | some χ => exact ⟨_, .charted _ (ho.charted hχ)⟩

/-- A charted heap has an outline if its store grows as said. -/
theorem of_charted (hc : h.Charted (.ofBase start) (χ.shift start)) (hχ : o.chart = some χ)
    (hgrowth : Store.behaviour h.store = o.growth) : h.Outlined start o :=
  ⟨hc.base.symm, hgrowth, by rw [hχ]; exact hc⟩

/-- The outline of an idle heap changes as its store does. -/
theorem idle (ho : h.Outlined start o) (hi : Idle h h')
    (hgrowth : Store.behaviour h'.store = o'.growth) (hχ : o'.chart = o.chart) :
    h'.Outlined start o' := by
  refine ⟨by rw [hi.region, ho.start_eq], hgrowth, ?_⟩
  rw [hχ]
  cases hχ : o.chart with
  | none => exact (ho.blank hχ).idle hi
  | some χ => exact (ho.charted hχ).idle hi

theorem journal (ho : h.Outlined start o) (j : Array Record) :
    Outlined { h with journal := j } start o :=
  ho.idle (idle_journal h j) ho.growth rfl

end Outlined

/-! ## What an outlined heap shows -/

theorem Outlined.isInitialized_eq (ho : h.Outlined start o) :
    h.isInitialized = o.chart.isSome := by
  rw [isInitialized]
  cases hχ : o.chart with
  | none => rw [(ho.blank hχ).directory]; rfl
  | some χ => rw [(ho.charted hχ).directory]; rfl

theorem Outlined.blocks_eq (ho : h.Outlined start o) :
    h.blocks = (o.chart.getD .empty).blocks.map (Block.shift start) := by
  cases hχ : o.chart with
  | none => exact (Shows.blank (ho.blank hχ) rfl).blocks_eq
  | some χ => exact (ho.charted hχ).blocks_eq

theorem Outlined.list_eq (ho : h.Outlined start o) (c : SizeClass) :
    h.list c = (((o.chart.getD .empty).lists c).map Block.payload).map (· + start) := by
  cases hχ : o.chart with
  | none =>
    rw [list, (ho.blank hχ).directory]
    rfl
  | some χ =>
    rw [(ho.charted hχ).list_eq, Chart.lists_shift, List.map_map, Option.getD_some, List.map_map]
    rfl

/-- An audit of an outlined heap finds the payloads of misaligned blocks,
and where they are misaligned depends on `start` by its remainder only. -/
theorem Outlined.violations_eq (ho : h.Outlined start o) :
    h.violations = match o.chart with
      | none => [.uninitialized]
      | some χ => (χ.blocks.filter fun b => !Layout.isAligned (b.payload + start % 8)).map
          fun b => .misaligned (b.payload + start) := by
  cases hχ : o.chart with
  | none =>
    rw [violations, (ho.blank hχ).directory]
    rfl
  | some χ =>
    have hc := ho.charted hχ
    have haligned : ∀ b : Block, Layout.isAligned (b.shift start).payload =
        Layout.isAligned (b.payload + start % 8) := fun b => by
      simp only [Layout.isAligned, Layout.alignment, Block.payload_shift, Nat.add_mod_mod]
    rw [violations, hc.directory, hc.depicts.violations_eq hc.settled hc.base, Audit.misaligned,
      Chart.blocks_shift, List.filter_map, List.map_map]
    simp only [Function.comp_def, haligned]
    rfl

/-! ## Steps -/

theorem mirrors_pure (ho : h.Outlined start o) {f : β → α} (b : β) :
    Mirrors start (pure (f b)) (pure b) f h o := by
  rw [Mirrors, ends_pure]
  exact ⟨rfl, ho⟩

theorem mirrors_fail (ho : h.Outlined start o) {f : β → α} (e : Failure) :
    Mirrors start (fail e) (throw e) f h o := by
  rw [Mirrors, ends_fail]
  exact ⟨rfl, ho⟩

theorem mirrors_orFail (ho : h.Outlined start o) (e : Failure) (a : Option α) :
    Mirrors start (orFail e a) (Plan.orFail e a) id h o := by
  cases a with
  | some a => exact mirrors_pure (f := id) ho a
  | none => exact mirrors_fail ho e

/-- **One operation after another**, of which the first is known to end as
`Q` says. -/
theorem Mirrors.bind_of_ends {x : Operation σ α} {y : Plan β} {f : β → α} {k : α → Operation σ γ}
    {l : β → Plan δ} {g : δ → γ} {Q : Except Failure α → Heap σ → Prop}
    (hx : Mirrors start x y f h o) (hQ : Ends x h Q)
    (hk : ∀ b h' o', y.exec o = (.ok b, o') → h'.Outlined start o' → Q (.ok (f b)) h' →
      Mirrors start (k (f b)) (l b) g h' o') :
    Mirrors start (x >>= k) (y >>= l) g h o := by
  rw [Mirrors, ends_bind]
  refine (Ends.and hx hQ).mono ?_
  rintro r h' ⟨⟨rfl, ho'⟩, hQ⟩
  rw [Plan.exec_bind]
  cases hy : y.exec o with
  | mk s o' =>
    rw [hy] at ho' hQ
    cases s with
    | ok b => exact hk b h' o' hy ho' hQ
    | error e => exact ⟨rfl, ho'⟩

theorem Mirrors.bind {x : Operation σ α} {y : Plan β} {f : β → α} {k : α → Operation σ γ}
    {l : β → Plan δ} {g : δ → γ} (hx : Mirrors start x y f h o)
    (hk : ∀ b h' o', y.exec o = (.ok b, o') → h'.Outlined start o' →
      Mirrors start (k (f b)) (l b) g h' o') :
    Mirrors start (x >>= k) (y >>= l) g h o :=
  hx.bind_of_ends hx fun b h' o' hy ho' _ => hk b h' o' hy ho'

theorem Mirrors.attempt {x : Operation σ α} {y : Plan β} {f : β → α}
    (hx : Mirrors start x y f h o) :
    Mirrors start (attempt x) y.attempt (Except.map f) h o := by
  rw [Mirrors, ends_attempt]
  refine Ends.mono hx ?_
  rintro r h' ⟨rfl, ho'⟩
  exact ⟨rfl, ho'⟩

theorem Mirrors.orNotReady {x : Operation σ α} {y : Plan β} {f : β → α} {g : Failure → Record}
    (hx : Mirrors start x y f h o) : Mirrors start (orNotReady x g) y.orNotReady f h o := by
  rw [Mirrors, ends_orNotReady]
  refine Ends.mono hx ?_
  rintro r h' ⟨rfl, ho'⟩
  rw [Plan.exec_orNotReady]
  cases (y.exec o).1 with
  | ok b => exact ⟨rfl, ho'⟩
  | error e => exact ⟨rfl, ho'.journal _⟩

theorem Mirrors.orNull {x : Operation σ (Option Nat)} {y : Plan (Option Nat)}
    {f : Nat → Nat} {g : Failure → Record} (hx : Mirrors start x y (Option.map f) h o) :
    Mirrors start (orNull x g) y.orNull (Option.map f) h o := by
  rw [Mirrors, ends_orNull]
  refine Ends.mono hx ?_
  rintro r h' ⟨rfl, ho'⟩
  rw [Plan.orNull, Plan.exec_bind, Plan.exec_attempt]
  cases (y.exec o).1 with
  | ok b => exact ⟨rfl, ho'⟩
  | error e => exact ⟨rfl, ho'.journal _⟩

/-! ## Growth -/

/-- Growing asks of the store what its plan does, and fails when its plan
does and for the same cause. -/
theorem ends_extend_growth (ho : h.Outlined start o) (d : Directory) (n : Nat) :
    Ends (extend d n) h fun r h' =>
      Store.behaviour h'.store = ((Plan.extend n).exec o).2.growth ∧
        ∀ e, r = .error e ↔ ((Plan.extend n).exec o).1 = .error e := by
  rw [extend, ends_bind, ends_orFail, Plan.exec_extend]
  cases Layout.alignUp? n with
  | none => exact ⟨ho.growth, fun e => by simp⟩
  | some g =>
    simp only [ends_bind, ends_get, ho.size]
    split
    · have hrefusal := ho.refusal g
      simp only [ends_bind, ends_request, ends_edit, ends_record, ends_editWith]
      cases ha : (Store.grow g h.store).answer with
      | error e =>
        rw [ha] at hrefusal
        rw [← hrefusal]
        exact ⟨ho.growth_grow g, fun e' => by simp⟩
      | ok p =>
        rw [ha] at hrefusal
        rw [← hrefusal]
        exact ⟨ho.growth_grow g, fun e' => by simp⟩
    · simp only [ends_bind, ends_record, ends_fail]
      exact ⟨ho.growth, fun e => by simp⟩

/-- **Growing does what its plan does**, and offers the block it gives. -/
theorem mirrors_extend [Store.Lawful σ] (ho : h.Outlined start o) (hχ : o.chart = some χ)
    (hn : 16 ≤ n) :
    Ends (extend (.ofBase start) n) h fun r h' =>
      Matches start (fun b => b.payload + start) ((Plan.extend n).exec o) r h' ∧
        ∀ b, ((Plan.extend n).exec o).1 = .ok b → ((Plan.extend n).exec o).2.Offers n b := by
  refine ((ends_extend (ho.charted hχ) (by omega)).and (ends_extend_growth ho _ n)).mono ?_
  rintro r h' ⟨hgrown, hgrowth, hfail⟩
  rcases Plan.exec_extend_cases n (o := o) with ⟨e, he, hsame⟩ | ⟨g, hg, hok, hχ'⟩
  · obtain rfl := (hfail e).2 he
    refine ⟨⟨by rw [he]; rfl, ho.idle hgrown hgrowth hsame⟩, fun b hb => ?_⟩
    rw [he] at hb
    cases hb
  · rw [hχ, Option.getD_some] at hok hχ'
    match r with
    | .error e =>
      have he := (hfail e).1 rfl
      rw [hok] at he
      cases he
    | .ok p =>
      obtain ⟨g', hg', rfl, -, hc', -, hgrows, -⟩ := hgrown
      obtain rfl : g = g' := Option.some.inj (hg.symm.trans hg')
      have hstop : h.region.stop = (o.growth []).extent + start := by
        rw [Region.stop, ho.start_eq, ho.extent, Nat.add_comm]
      have hfiled := hgrows.filed
      have hlarge := hgrows.large
      rw [hstop, Chart.grow_shift] at hc' hfiled hlarge
      rw [Chart.lists_shift, List.mem_map_of_injective (Block.shift_injective start)] at hfiled
      refine ⟨⟨?_, .of_charted hc' hχ' hgrowth⟩, ?_⟩
      · rw [hok, hstop, Chart.grow_shift]
        rfl
      · intro b hb
        rw [hok] at hb
        cases hb
        exact ⟨_, hχ', hfiled, (Layout.alignUp?_eq_some hg).1.trans hlarge⟩

theorem Mirrors.discard {x : Operation σ α} {y : Plan β} {f : β → α}
    (hx : Mirrors start x y f h o) : Mirrors start (discard x) (discard y) id h o := by
  rw [Mirrors, ends_discard, Plan.exec_discard]
  refine Ends.mono hx ?_
  rintro r h' ⟨rfl, ho'⟩
  cases (y.exec o).1 with
  | ok b => exact ⟨rfl, ho'⟩
  | error e => exact ⟨rfl, ho'⟩

theorem mirrors_firstChunk [Store.Lawful σ] (ho : h.Outlined start o) (hχ : o.chart = some χ) :
    Mirrors start (firstChunk (.ofBase start)) Plan.firstChunk id h o := by
  have hlarge : 16 ≤ Layout.chunk := by decide
  unfold firstChunk Plan.firstChunk
  -- the chunk as a variable: nothing here depends on its value
  generalize Layout.chunk = n at hlarge
  have hextend : Mirrors start (extend (.ofBase start) n) (Plan.extend n)
      (fun b => b.payload + start)
      h o := (mirrors_extend ho hχ hlarge).mono fun _ _ => And.left
  exact hextend.discard.orNotReady

/-- **Making a heap ready.** -/
theorem mirrors_ready [Store.Lawful σ] (ho : h.Outlined start o) :
    Mirrors start ready Plan.ready (fun _ => (.ofBase start)) h o := by
  cases hχ : o.chart with
  | some χ =>
    rw [Mirrors, ends_ready_of_some (ho.charted hχ).directory, Plan.exec_ready_of_some hχ]
    exact ⟨rfl, ho⟩
  | none =>
    have hb := ho.blank hχ
    have hrefusal := ho.refusal Layout.bytes
    simp only [Mirrors, ready, ends_bind, ends_get, hb.directory, ends_orNotReady, ends_request,
      ends_edit, ends_modify, ends_record, ends_pure]
    rw [Plan.exec_ready_of_none hχ, ← hrefusal]
    cases ha : (Store.grow Layout.bytes h.store).answer with
    | error e =>
      exact ⟨rfl, ho.idle ⟨Store.Lawful.grow_error ha, rfl, hb.directory.symm, rfl⟩
        (ho.growth_grow _) rfl⟩
    | ok base =>
      obtain ⟨rfl, hbare⟩ := hb.laidBare ha ((h.journal.appendList
        (Store.grow Layout.bytes h.store).records).push (.laidOut base))
      obtain rfl := ho.start_eq
      have ho₁ := Outlined.of_charted (o := ⟨fun ns => o.growth (Layout.bytes :: ns), some .empty⟩)
        (χ := .empty) hbare.charted rfl (ho.growth_grow _)
      have hfirst := mirrors_firstChunk ho₁ rfl
      rw [Mirrors] at hfirst
      generalize Plan.firstChunk.exec ⟨fun ns => o.growth (Layout.bytes :: ns), some .empty⟩ = s
        at hfirst ⊢
      refine hfirst.mono ?_
      rintro r h' ⟨rfl, ho'⟩
      obtain ⟨r, o'⟩ := s
      cases r with
      | ok _ => exact ⟨rfl, ho'⟩
      | error e => exact ⟨rfl, ho'⟩

/-- **Making a heap ready for use.** -/
theorem mirrors_init [Store.Lawful σ] (ho : h.Outlined start o) :
    Mirrors start init Plan.init id h o := by
  refine (mirrors_ready ho).bind ?_
  intro _ h₁ o₁ hr ho₁
  obtain ⟨χ, hχ⟩ : ∃ χ, o₁.chart = some χ := by
    have hready := Plan.chart_of_ready (o := o) (congrArg Prod.fst hr)
    rwa [hr] at hready
  rw [Mirrors, ends_bind, ends_get, Plan.exec_bind, Plan.exec_get]
  simp only [ho₁.size]
  split
  · exact mirrors_firstChunk ho₁ hχ
  · exact mirrors_pure (f := id) ho₁ ()

/-! ## Allocation -/

/-- **Serving a request** from a block on offer. -/
theorem mirrors_carve {need : Nat} (ho : h.Outlined start o)
    (hneed : Layout.blockSizeFor? n = some need) (hb : o.Offers need b) (r : Record) :
    Mirrors start
      (do
        edit ((Directory.ofBase start).carve (b.payload + start) need)
        record r
        auditItself
        return some (b.payload + start))
      (do
        Plan.draw ((← Plan.chart).carve b need)
        return some b.payload) (Option.map (· + start)) h o := by
  obtain ⟨χ, hχ, hlisted, hle⟩ := hb
  obtain ⟨-, -, hlarge, h8, -⟩ := Layout.blockSizeFor?_eq_some hneed
  have hlisted' : b.shift start ∈ (χ.shift start).lists (SizeClass.ofSize (b.shift start).size) :=
    List.mem_map_of_mem hlisted
  obtain ⟨hc, -⟩ := (ho.charted hχ).carve hlisted' hlarge h8 hle (h.journal.push r)
  rw [Chart.carve_shift, Block.payload_shift] at hc
  simp only [Mirrors, ends_bind, ends_edit, ends_record, ends_pure, Plan.exec_bind,
    Plan.exec_chart, Plan.exec_draw, Plan.exec_pure, hχ, Option.getD_some]
  rw [ends_auditItself hc.violations_eq_nil]
  exact ⟨rfl, .of_charted hc rfl ho.growth⟩

/-- **Finding a block for a request**, and going on with it. -/
theorem mirrors_source [Store.Lawful σ] {need : Nat} {k : Nat → Operation σ γ} {l : Block → Plan δ}
    {g : δ → γ} (ho : h.Outlined start o) (hχ : o.chart = some χ) (hlarge : 16 ≤ need)
    (hk : ∀ b h' o', h'.Outlined start o' → o'.Offers need b →
      Mirrors start (k (b.payload + start)) (l b) g h' o') :
    Mirrors start
      (do
        match ← look ((Directory.ofBase start).findFit · need) with
        | some p => k p
        | none => extend (.ofBase start) (max need Layout.chunk) >>= k)
      (Plan.source need >>= l) g h o := by
  have hc := ho.charted hχ
  have hfind : (Directory.ofBase start).findFit h.memory need =
      (χ.findFit need).map fun b => b.payload + start := by
    rw [hc.depicts.findFit_eq, Chart.findFit_shift, Option.map_map]
    rfl
  rw [Mirrors, ends_bind, ends_look, hfind, Plan.exec_bind]
  cases hfit : χ.findFit need with
  | some b =>
    rw [Plan.exec_source_of_fit hχ hfit]
    have hfit' : (χ.shift start).findFit need = some (b.shift start) := by
      rw [Chart.findFit_shift, hfit]
      rfl
    obtain ⟨hb, hle⟩ := hc.depicts.mem_of_findFit hfit'
    rw [Chart.lists_shift, List.mem_map_of_injective (Block.shift_injective start)] at hb
    exact hk b h o ho ⟨χ, hχ, hb, hle⟩
  | none =>
    rw [Plan.exec_source_of_no_fit hχ hfit, ← Plan.exec_bind]
    have hextend := mirrors_extend ho hχ (n := max need Layout.chunk) (by omega)
    refine Mirrors.bind_of_ends (hextend.mono fun _ _ => And.left) hextend ?_
    rintro b h' o' hb ho' ⟨-, hoffers⟩
    rw [hb] at hoffers
    obtain ⟨χ', hχ', hmem, hle⟩ := hoffers b rfl
    exact hk b h' o' ho' ⟨χ', hχ', hmem, (le_max_left _ _).trans hle⟩

theorem mirrors_tryMalloc [Store.Lawful σ] (ho : h.Outlined start o) (n : Nat) :
    Mirrors start (tryMalloc n) (Plan.tryMalloc n) (Option.map (· + start)) h o := by
  refine (mirrors_ready ho).attempt.bind ?_
  intro r h₁ o₁ hr ho₁
  by_cases hn : n = 0
  · rw [if_pos hn, if_pos hn]
    exact mirrors_pure (f := Option.map (· + start)) ho₁ none
  rw [if_neg hn, if_neg hn]
  rw [Plan.exec_attempt, Prod.mk.injEq, Except.ok.injEq] at hr
  obtain ⟨rfl, rfl⟩ := hr
  cases hready : (Plan.ready.exec o).1 with
  | error e => exact mirrors_fail ho₁ e
  | ok _ =>
    obtain ⟨χ, hχ⟩ := Plan.chart_of_ready hready
    generalize (Plan.ready.exec o).2 = o₁ at ho₁ hχ
    refine (mirrors_orFail ho₁ _ _).bind ?_
    intro need h₂ o₂ hr ho₂
    rw [Plan.exec_orFail, Prod.mk.injEq] at hr
    obtain ⟨hr, rfl⟩ := hr
    cases hneed : Layout.blockSizeFor? n with
    | none =>
      rw [hneed] at hr
      cases hr
    | some _ =>
      rw [hneed] at hr
      cases hr
      obtain ⟨-, -, hlarge, -⟩ := Layout.blockSizeFor?_eq_some hneed
      exact mirrors_source ho₂ hχ hlarge fun b h' o' ho' hb => mirrors_carve ho' hneed hb _

/-! ## Giving back and moving -/

/-- The blocks of an outlined heap are the outline's, at their addresses. -/
theorem Outlined.mem_blocks_iff (ho : h.Outlined start o) :
    b ∈ h.blocks ↔ ∃ χ, o.chart = some χ ∧ ∃ e ∈ χ.blocks, e.shift start = b := by
  rw [ho.blocks_eq, List.mem_map]
  cases o.chart <;> simp [Chart.empty]

theorem Outlined.owns_iff {p : Nat} (ho : h.Outlined start o) :
    o.Owns p ↔ ∃ b ∈ h.blocks, b.isAllocated = true ∧ b.payload = p + start := by
  constructor
  · rintro ⟨χ, hχ, b, hb, halloc, rfl⟩
    exact ⟨b.shift start, ho.mem_blocks_iff.2 ⟨χ, hχ, b, hb, rfl⟩, halloc, rfl⟩
  · rintro ⟨_, hin, halloc, hp⟩
    obtain ⟨χ, hχ, b, hb, rfl⟩ := ho.mem_blocks_iff.1 hin
    exact ⟨χ, hχ, b, hb, halloc, Nat.add_right_cancel hp⟩

/-- A block of the outline is found by its payload. -/
theorem Outlined.find?_payload (ho : h.Outlined start o) (hχ : o.chart = some χ)
    (hb : b ∈ χ.blocks) : χ.blocks.find? (·.payload = b.payload) = some b := by
  cases hfind : χ.blocks.find? (·.payload = b.payload) with
  | none => simpa using List.find?_eq_none.1 hfind b hb
  | some e =>
    have he := List.mem_of_find?_eq_some hfind
    have heq : e.payload = b.payload := by simpa using List.find?_some hfind
    have hshift := (ho.charted hχ).depicts.tiles.eq_of_payload (List.mem_map_of_mem he)
      (List.mem_map_of_mem hb) (congrArg (· + start) heq)
    rw [Block.shift_injective start hshift]

theorem mirrors_free [Store.Lawful σ] (ho : h.Outlined start o) {p : Option Nat}
    (hp : ∀ q ∈ p, o.Owns q) :
    Mirrors start (free (p.map (· + start))) (Plan.free p) id h o := by
  cases p with
  | none =>
    refine (mirrors_ready ho).attempt.bind ?_
    intro r h₁ o₁ _ ho₁
    cases r with
    | error e =>
      rw [Mirrors, Except.map, ends_record, Plan.exec_pure]
      exact ⟨rfl, ho₁.journal _⟩
    | ok _ => exact mirrors_pure (f := id) ho₁ ()
  | some q =>
    obtain ⟨χ, hχ, b, hb, halloc, rfl⟩ := hp q rfl
    refine (ends_free (ho.charted hχ) (List.mem_map_of_mem hb) halloc).mono ?_
    rintro r h' ⟨rfl, hf⟩
    have hc := hf.charted
    rw [Chart.release_shift] at hc
    rw [Plan.exec_free_of_find hχ (ho.find?_payload hχ hb)]
    exact ⟨rfl, .of_charted hc rfl (by rw [hf.store, ho.growth])⟩

/-- **A write to an allocated payload** leaves the outline as it is. -/
theorem Outlined.write (ho : h.Outlined start o) (hb : b ∈ h.blocks) (halloc : b.isAllocated = true)
    {m : Memory} (hframe : ∀ a, ¬ (b.payload ≤ a ∧ a < b.payload + (b.size - 8)) →
      m.byte a = h.memory.byte a) :
    Outlined { h with memory := m } start o := by
  obtain ⟨χ, hχ, e, he, rfl⟩ := ho.mem_blocks_iff.1 hb
  obtain ⟨hc, -⟩ := (ho.charted hχ).write (List.mem_map_of_mem he) halloc hframe
  exact .of_charted hc hχ ho.growth

theorem Outlined.usableSize_eq (ho : h.Outlined start o) (hb : b ∈ h.blocks) :
    h.memory.usableSize b.payload = b.size - 8 := by
  obtain ⟨χ, hχ, e, he, rfl⟩ := ho.mem_blocks_iff.1 hb
  exact (ho.charted hχ).depicts.usableSize_eq (List.mem_map_of_mem he)

/-- A copy from one block to an allocated one stays in its payload. -/
theorem Outlined.copy {e : Block} {k : Nat} (ho : h.Outlined start o) (hb : b ∈ h.blocks)
    (he : e ∈ h.blocks) (halloc : e.isAllocated = true) (hne : b ≠ e)
    (hk : k = min (h.memory.usableSize b.payload) (h.memory.usableSize e.payload)) :
    Outlined { h with memory := h.memory.copy b.payload e.payload k } start o := by
  rw [ho.usableSize_eq hb, ho.usableSize_eq he] at hk
  obtain ⟨χ, hχ, b₀, hb₀, rfl⟩ := ho.mem_blocks_iff.1 hb
  obtain ⟨χ', hχ', e₀, he₀, rfl⟩ := ho.mem_blocks_iff.1 he
  obtain rfl : χ = χ' := Option.some.inj (hχ.symm.trans hχ')
  obtain ⟨hc, -⟩ := (ho.charted hχ).copy (List.mem_map_of_mem hb₀) (List.mem_map_of_mem he₀)
    halloc hne hk
  exact .of_charted hc hχ ho.growth

theorem mirrors_tryRealloc [Store.Lawful σ] (ho : h.Outlined start o) {p : Option Nat}
    (hp : ∀ q ∈ p, o.Owns q) (n : Nat) :
    Mirrors start (tryRealloc (p.map (· + start)) n) (Plan.tryRealloc p n) (Option.map (· + start))
      h o := by
  unfold tryRealloc Plan.tryRealloc
  by_cases hn : n = 0
  · rw [if_pos hn, if_pos hn]
    exact (mirrors_free ho hp).bind fun _ _ _ _ ho₁ =>
      mirrors_pure (f := Option.map (· + start)) ho₁ none
  rw [if_neg hn, if_neg hn]
  cases p with
  | none => exact mirrors_tryMalloc ho n
  | some old =>
    obtain ⟨b, hb, halloc, hold⟩ := ho.owns_iff.1 (hp old rfl)
    obtain ⟨χ, hs⟩ := ho.shows
    rw [hs.blocks_eq] at hb
    refine (mirrors_tryMalloc ho n).bind_of_ends (ends_tryMalloc_takes hs n) ?_
    intro q h₁ o₁ hq ho₁ htakes
    cases q with
    | none => exact mirrors_pure (f := Option.map (· + start)) ho₁ none
    | some new =>
      -- the old block and the new one, side by side
      obtain ⟨e, χ₁, hnew, hg⟩ := htakes
      have hb₁ := hg.persists hb halloc
      have hne : b ≠ e := fun heq => hg.new (heq ▸ hb)
      have ho₂ := ho₁.copy hb₁ hg.mem_blocks hg.isAllocated hne rfl
      have hold₁ : o₁.Owns old := ho₁.owns_iff.2 ⟨b, hb₁, halloc, hold⟩
      rw [hold, hnew] at ho₂
      have hfree := mirrors_free ho₂ (p := some old) fun _ hq => by
        cases hq
        exact hold₁
      simp only [Option.map_some, Mirrors, ends_bind, ends_look, ends_edit, ends_record, ends_pure,
        Plan.exec_bind]
      refine Ends.mono hfree ?_
      rintro r h₃ ⟨rfl, ho₃⟩
      generalize (Plan.free (some old)).exec o₁ = s at ho₃
      obtain ⟨r, o₃⟩ := s
      cases r with
      | ok _ => exact ⟨rfl, ho₃.journal _⟩
      | error e => exact ⟨rfl, ho₃⟩

/-- **Zeroed allocation**: the fill stays in the new payload. -/
theorem mirrors_tryCalloc [Store.Lawful σ] (ho : h.Outlined start o) (count size : Nat) :
    Mirrors start (tryCalloc count size) (Plan.tryCalloc count size) (Option.map (· + start))
      h o := by
  obtain ⟨χ, hs⟩ := ho.shows
  rw [Mirrors, ends_tryCalloc, Plan.tryCalloc]
  split
  · refine ((Ends.and (mirrors_tryMalloc ho (count * size))
      (ends_tryMalloc_takes hs (count * size)))).mono ?_
    rintro r h₁ ⟨⟨rfl, ho₁⟩, htakes⟩
    revert htakes
    cases hr : ((Plan.tryMalloc (count * size)).exec o).1 with
    | error e => exact fun _ => ⟨by rw [hr]; rfl, ho₁⟩
    | ok q =>
      cases q with
      | none => exact fun _ => ⟨by rw [hr]; rfl, ho₁⟩
      | some new =>
        rintro ⟨b, χ₁, hnew, hg⟩
        refine ⟨by rw [hr]; rfl, ho₁.write hg.mem_blocks hg.isAllocated fun a ha => ?_⟩
        rw [← hnew, ho₁.usableSize_eq hg.mem_blocks, Memory.byte_fill, if_neg ha]
  · exact ⟨rfl, ho⟩

end Heap

end SegFit
