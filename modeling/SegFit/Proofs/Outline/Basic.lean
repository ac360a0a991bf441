import SegFit.Proofs.Chart.Fit
import SegFit.Proofs.Chart.Growth
import SegFit.Proofs.Chart.Release
import SegFit.Proofs.Client.Basic
import SegFit.Proofs.Store.Laws
/-!
# Heaps without memory

An outline is a heap of which only the growth of its store and its chart
are left, with addresses counted from the start of the region. It has no
memory, and nothing in it says what is in a payload or was there before. A
plan is an operation on outlines, and there is one for each operation of a
heap, with the same text but for what is read and written: where the
operation looks into memory, its plan looks at the chart. So an operation
that does what its plan does takes no decision by a byte of its user.
-/

namespace SegFit

/-- **A heap without memory**: how its store grows, and its chart, once it
is laid out. -/
structure Outline where
  growth : List Nat → Store.Face
  chart : Option Chart := none

/-- **A block an outline offers** for `n` bytes: it is listed and large
enough. -/
def Outline.Offers (o : Outline) (n : Nat) (b : Block) : Prop :=
  ∃ χ, o.chart = some χ ∧ b ∈ χ.lists (SizeClass.ofSize b.size) ∧ n ≤ b.size

/-- An allocated block is at the payload `p`. -/
def Outline.Owns (o : Outline) (p : Nat) : Prop :=
  ∃ χ, o.chart = some χ ∧ ∃ b ∈ χ.blocks, b.isAllocated = true ∧ b.payload = p

/-- **What an outline lets a client do**: pass the payloads of allocated
blocks, and write to their bytes. -/
def Outline.Allows (o : Outline) : Call → Prop
  | .write p i _ => ∃ χ, o.chart = some χ ∧
      ∃ b ∈ χ.blocks, b.isAllocated = true ∧ b.payload = p ∧ i < b.size - 8
  | c => ∀ p ∈ c.subject, o.Owns p

/-- A change of an outline that may fail. What was done before it failed
stays done. -/
abbrev Plan := ExceptT Failure (StateM Outline)

namespace Plan

variable {α β : Type}

/-- What a plan makes of an outline. -/
def exec (y : Plan α) (o : Outline) : Except Failure α × Outline := StateT.run (ExceptT.run y) o

/-! ## Steps of a plan -/

/-- Does a plan and gives its cause instead of failing for it. -/
def attempt (y : Plan α) : Plan (Except Failure α) := ExceptT.lift (ExceptT.run y)

/-- The value, or a failure for want of one. -/
def orFail (e : Failure) : Option α → Plan α
  | some a => pure a
  | none => throw e

/-- Asks the store for more bytes. -/
def request (n : Nat) : Plan Unit := do
  let o ← get
  set { o with growth := fun ns => o.growth (n :: ns) }
  match (o.growth []).refusal n with
  | none => return ()
  | some e => throw e

/-- The chart as it is; the empty one before there is one. -/
def chart : Plan Chart := return (← get).chart.getD .empty

/-- Changes the chart. -/
def draw (χ : Chart) : Plan Unit := modify fun o => { o with chart := some χ }

/-! ## Growth -/

/-- Grows by at least `n` bytes and gives the free block that covers the
new ones. -/
def extend (n : Nat) : Plan Block := do
  let grown ← orFail .overflow (Layout.alignUp? n)
  let face := (← get).growth []
  if face.size + grown < Layout.wordRange then
    request grown
    let (b, χ) := (← chart).grow face.extent grown
    draw χ
    return b
  else throw .outOfMemory

/-- Gives what a plan gives; if it fails, it is for not being ready. -/
def orNotReady (y : Plan α) : Plan α := do
  match ← attempt y with
  | .ok a => return a
  | .error _ => throw .notReady

/-- Grows by the first chunk. -/
def firstChunk : Plan Unit := orNotReady (discard (extend Layout.chunk))

/-- Lays the heap out if it is not yet. -/
def ready : Plan Unit := do
  match (← get).chart with
  | some _ => return ()
  | none =>
    orNotReady (request Layout.bytes)
    draw .empty
    firstChunk

/-- Makes the heap ready for use. -/
def init : Plan Unit := do
  ready
  if ((← get).growth []).size = Layout.bytes then firstChunk

/-! ## Allocation -/

/-- The best fit for a block of `need` bytes, or else new bytes. -/
def source (need : Nat) : Plan Block := do
  match (← chart).findFit need with
  | some b => return b
  | none => extend (max need Layout.chunk)

/-- A block for at least `n` bytes, by its payload. -/
def tryMalloc (n : Nat) : Plan (Option Nat) := do
  let r ← attempt ready
  if n = 0 then return none
  else
    match r with
    | .error e => throw e
    | .ok () =>
      let need ← orFail .overflow (Layout.blockSizeFor? n)
      let b ← source need
      draw ((← chart).carve b need)
      return some b.payload

/-- Gives a block back. -/
def free (p : Option Nat) : Plan Unit := do
  match ← attempt ready with
  | .error _ => return ()
  | .ok () =>
    let χ ← chart
    match p.bind fun p => χ.blocks.find? (·.payload = p) with
    | none => return ()
    | some b => draw (χ.release b).2

/-- Gives a block back for another. -/
def tryRealloc (p : Option Nat) (n : Nat) : Plan (Option Nat) := do
  if n = 0 then
    free p
    return none
  else
    match p with
    | none => tryMalloc n
    | some old =>
      match ← tryMalloc n with
      | none => return none
      | some new =>
        free (some old)
        return some new

/-- A block for at least `count * size` bytes. -/
def tryCalloc (count size : Nat) : Plan (Option Nat) :=
  if count * size < Layout.sizeRange then tryMalloc (count * size) else throw .overflow

/-- Gives what a plan gives, and nothing if it fails. -/
def orNull (y : Plan (Option Nat)) : Plan (Option Nat) := do
  match ← attempt y with
  | .ok p => return p
  | .error _ => return none

/-- **The plan of a call.** To write is to do nothing. -/
def perform : Call → Plan (Option Nat)
  | .init => do
    init
    return none
  | .malloc n => orNull (tryMalloc n)
  | .tryMalloc n => tryMalloc n
  | .calloc count size => orNull (tryCalloc count size)
  | .tryCalloc count size => tryCalloc count size
  | .realloc p n => orNull (tryRealloc p n)
  | .tryRealloc p n => tryRealloc p n
  | .free p => do
    free p
    return none
  | .write _ _ _ => return none

/-! ## What steps make of an outline -/

variable {o : Outline}

@[simp] theorem exec_pure (a : α) : exec (pure a) o = (.ok a, o) := rfl

@[simp] theorem exec_get : exec get o = (.ok o, o) := rfl

@[simp] theorem exec_chart : exec chart o = (.ok (o.chart.getD .empty), o) := rfl

@[simp] theorem exec_draw (χ : Chart) :
    exec (draw χ) o = (.ok (), { o with chart := some χ }) := rfl

@[simp] theorem exec_attempt (y : Plan α) :
    exec (attempt y) o = (.ok (exec y o).1, (exec y o).2) := rfl

/-- **One plan after another.** -/
@[simp] theorem exec_bind (y : Plan β) (f : β → Plan α) :
    exec (y >>= f) o = match exec y o with
      | (.ok b, o') => exec (f b) o'
      | (.error e, o') => (.error e, o') := by
  simp only [exec, ExceptT.run_bind, StateT.run_bind]
  obtain ⟨r, o'⟩ := StateT.run (ExceptT.run y) o
  cases r <;> rfl

@[simp] theorem exec_map (y : Plan β) (f : β → α) :
    exec (f <$> y) o = ((exec y o).1.map f, (exec y o).2) := by
  simp only [exec, ExceptT.run_map, StateT.run_map]
  rfl

@[simp] theorem exec_discard (y : Plan β) :
    exec (discard y) o = ((exec y o).1.map fun _ => ⟨⟩, (exec y o).2) :=
  exec_map y _

@[simp] theorem exec_request (n : Nat) :
    exec (request n) o = (match (o.growth []).refusal n with
        | none => .ok ()
        | some e => .error e, { o with growth := fun ns => o.growth (n :: ns) }) := by
  have hset : exec (set { o with growth := fun ns => o.growth (n :: ns) }) o =
      (.ok ⟨⟩, { o with growth := fun ns => o.growth (n :: ns) }) := rfl
  simp only [request, exec_bind, exec_get, hset]
  cases (o.growth []).refusal n <;> rfl

@[simp] theorem exec_orFail (e : Failure) (a : Option α) :
    exec (orFail e a) o = (match a with
      | some a => .ok a
      | none => .error e, o) := by
  cases a <;> rfl

theorem exec_orNotReady (y : Plan α) :
    exec (orNotReady y) o = (match (exec y o).1 with
      | .ok a => .ok a
      | .error _ => .error .notReady, (exec y o).2) := by
  rw [orNotReady, exec_bind, exec_attempt]
  cases (exec y o).1 <;> rfl

theorem exec_extend (n : Nat) :
    exec (extend n) o = match Layout.alignUp? n with
      | none => (.error .overflow, o)
      | some g =>
        if (o.growth []).size + g < Layout.wordRange then
          match (o.growth []).refusal g with
          | none =>
            let (b, χ) := (o.chart.getD .empty).grow (o.growth []).extent g
            (.ok b, ⟨fun ns => o.growth (g :: ns), some χ⟩)
          | some e => (.error e, { o with growth := fun ns => o.growth (g :: ns) })
        else (.error .outOfMemory, o) := by
  rw [extend, exec_bind, exec_orFail]
  cases Layout.alignUp? n with
  | none => rfl
  | some g =>
    simp only [exec_bind, exec_get]
    split
    · rw [exec_bind, exec_request]
      cases (o.growth []).refusal g <;> rfl
    · rfl

theorem exec_ready_of_some {χ : Chart} (hχ : o.chart = some χ) : exec ready o = (.ok (), o) := by
  simp only [ready, exec_bind, exec_get, hχ, exec_pure]

/-- What has no chart is laid out and given its first chunk. -/
theorem exec_ready_of_none (hχ : o.chart = none) :
    exec ready o = match (o.growth []).refusal Layout.bytes with
      | none => exec firstChunk ⟨fun ns => o.growth (Layout.bytes :: ns), some .empty⟩
      | some _ =>
        (.error .notReady, { o with growth := fun ns => o.growth (Layout.bytes :: ns) }) := by
  simp only [ready, exec_bind, exec_get, hχ, exec_orNotReady, exec_request]
  cases (o.growth []).refusal Layout.bytes <;> rfl

/-- **Growing** fails and leaves the chart as it is, or grows it at the end
of the region. -/
theorem exec_extend_cases (n : Nat) :
    (∃ e, (exec (extend n) o).1 = .error e ∧ (exec (extend n) o).2.chart = o.chart) ∨
      ∃ g, Layout.alignUp? n = some g ∧
        (exec (extend n) o).1 = .ok ((o.chart.getD .empty).grow (o.growth []).extent g).1 ∧
        (exec (extend n) o).2.chart =
          some ((o.chart.getD .empty).grow (o.growth []).extent g).2 := by
  rw [exec_extend]
  cases Layout.alignUp? n with
  | none => exact .inl ⟨_, rfl, rfl⟩
  | some g =>
    simp only
    split
    · cases (o.growth []).refusal g with
      | none => exact .inr ⟨g, rfl, rfl, rfl⟩
      | some e => exact .inl ⟨e, rfl, rfl⟩
    · exact .inl ⟨_, rfl, rfl⟩

theorem exec_source_of_fit {χ : Chart} {need : Nat} {b : Block} (hχ : o.chart = some χ)
    (hfit : χ.findFit need = some b) : exec (source need) o = (.ok b, o) := by
  simp only [source, exec_bind, exec_chart, hχ, Option.getD_some, hfit, exec_pure]

theorem exec_source_of_no_fit {χ : Chart} {need : Nat} (hχ : o.chart = some χ)
    (hfit : χ.findFit need = none) :
    exec (source need) o = exec (extend (max need Layout.chunk)) o := by
  simp only [source, exec_bind, exec_chart, hχ, Option.getD_some, hfit]

theorem exec_free_of_find {χ : Chart} {b : Block} (hχ : o.chart = some χ)
    (hb : χ.blocks.find? (·.payload = b.payload) = some b) :
    exec (free (some b.payload)) o = (.ok (), { o with chart := some (χ.release b).2 }) := by
  simp only [free, exec_bind, exec_attempt, exec_ready_of_some hχ, exec_chart, hχ,
    Option.getD_some, Option.bind_some, hb, exec_draw]

/-- **What is ready has a chart.** -/
theorem chart_of_ready (hok : (exec ready o).1 = .ok ()) :
    ∃ χ, (exec ready o).2.chart = some χ := by
  cases hχ : o.chart with
  | some χ =>
    rw [exec_ready_of_some hχ]
    exact ⟨χ, hχ⟩
  | none =>
    revert hok
    rw [exec_ready_of_none hχ]
    cases (o.growth []).refusal Layout.bytes with
    | some e => exact fun hok => nomatch hok
    | none =>
      simp only [firstChunk, exec_orNotReady, exec_discard]
      rcases exec_extend_cases (o := ⟨fun ns => o.growth (Layout.bytes :: ns), some .empty⟩)
        Layout.chunk with ⟨e, he, -⟩ | ⟨g, -, -, hχ'⟩
      · rw [he]
        exact fun hok => nomatch hok
      · exact fun _ => ⟨_, hχ'⟩

end Plan

end SegFit
