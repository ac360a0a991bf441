import SegFit.Heap.Allocation
import SegFit.Proofs.Heap.Ends
import SegFit.Proofs.Walks.Edits
/-!
# Operations with the walks they make

A paced operation is an operation that keeps a log of its walks along lists,
those of its edits, of its search for a fit, and of its audit. It has no result
if one of them does not end. A failure of its own is a result. `Within` says
that a paced operation does in some heap what the operation does, along walks
that end, and in no more than so many steps. There is one lemma for each step
an operation is made of, and steps add up.
-/

namespace SegFit

/-- A change of a heap that may stop early, along some walks. -/
def Paced (σ α : Type) : Type := Heap σ → Walked (EStateM.Result Stop (Heap σ) α)

namespace Paced

variable {σ α β : Type}

instance : Monad (Paced σ) where
  pure a h := pure (.ok a h)
  bind x f h := do
    match ← x h with
    | .ok a h => f a h
    | .error stop h => return .error stop h

/-- An operation without a walk. -/
def plain (x : Operation σ α) : Paced σ α := fun h => pure (x h)

/-! ## Steps of a paced operation -/

/-- Reads the memory along some walks. -/
def look (f : Memory → Walked α) : Paced σ α := fun h => do
  return .ok (← f h.memory) h

/-- Changes the memory along some walks. -/
def edit (f : Memory → Walked Memory) : Paced σ Unit := fun h => do
  return .ok () { h with memory := ← f h.memory }

/-- Changes the memory along some walks and gives a value. -/
def editWith (f : Memory → Walked (α × Memory)) : Paced σ α := fun h => do
  let (a, m) ← f h.memory
  return .ok a { h with memory := m }

/-- Does an operation and gives its cause instead of stopping for it. -/
def attempt (x : Paced σ α) : Paced σ (Except Failure α) := fun h => do
  match ← x h with
  | .ok a h => return .ok (.ok a) h
  | .error (.failed e) h => return .ok (.error e) h
  | .error stop h => return .error stop h

/-- Gives what an operation gives; if it fails, records its cause and gives no
pointer. -/
def orNull (x : Paced σ (Option Nat)) (r : Failure → Record) : Paced σ (Option Nat) := do
  match ← attempt x with
  | .ok p => return p
  | .error e =>
    plain (Heap.record (r e))
    return none

/-- Gives what an operation gives; if it fails, records its cause and stops
because the heap is not ready. -/
def orNotReady (x : Paced σ α) (r : Failure → Record) : Paced σ α := do
  match ← attempt x with
  | .ok a => return a
  | .error e =>
    plain (Heap.record (r e))
    plain (Heap.fail .notReady)

variable [Store σ]

/-- Audits the heap, records what it finds, and reports it. -/
def audit (line : Line) : Paced σ Report := fun h => do
  h.directory.elim (pure ()) fun d => Walked.survey d h.memory h.region
  plain (Heap.audit line) h

/-- Audits the heap if it audits itself, and stops if anything is wrong. -/
def auditItself : Paced σ Unit := do
  if (← plain get).auditsItself then
    let report ← audit none
    if !report.isOk then plain (throw (.inconsistent report))

/-! ## The operations -/

/-- Grows the heap by at least `n` bytes and gives the free block that covers
the new ones. -/
def extend (d : Directory) (n : Nat) : Paced σ Nat := do
  let grown ← plain (Heap.orFail .overflow (Layout.alignUp? n))
  if (← plain get).size + grown < Layout.wordRange then
    let p ← plain (Heap.request grown)
    edit (Walked.append d p grown)
    plain (Heap.record (.extended grown p))
    editWith (Walked.merge d p)
  else
    plain (Heap.record (.unreachable grown))
    plain (Heap.fail .outOfMemory)

/-- Grows the heap by its first chunk. -/
def firstChunk (d : Directory) : Paced σ Unit :=
  orNotReady (discard (extend d Layout.chunk)) .chunkRefused

/-- The directory of the heap, which is laid out if it is not yet. -/
def ready : Paced σ Directory := do
  match (← plain get).directory with
  | some d => return d
  | none =>
    let base ← plain (Heap.orNotReady (Heap.request Layout.bytes) .layoutRefused)
    let d := Directory.ofBase base
    plain (Heap.edit d.layOut)
    plain (modify fun h => { h with directory := some d })
    plain (Heap.record (.laidOut base))
    firstChunk d
    return d

/-- Makes the heap ready for use. -/
def init : Paced σ Unit := do
  let d ← ready
  if (← plain get).size = Layout.bytes then firstChunk d

/-- A payload of at least `n` bytes. -/
def tryMalloc (n : Nat) : Paced σ (Option Nat) := do
  let d ← attempt ready
  if n = 0 then return none
  else
    match d with
    | .error e => plain (Heap.fail e)
    | .ok d =>
      let need ← plain (Heap.orFail .overflow (Layout.blockSizeFor? n))
      let p ← do
        match ← look (Walked.findFit d · need) with
        | some p => pure p
        | none => extend d (max need Layout.chunk)
      edit (Walked.carve d p need)
      plain (Heap.record (.allocated n p need))
      auditItself
      return some p

/-- Gives a payload back. -/
def free (p : Option Nat) : Paced σ Unit := do
  match ← attempt ready with
  | .error e => plain (Heap.record (.freeFailed p e))
  | .ok d =>
    match p with
    | none => pure ()
    | some p =>
      let size ← plain (Heap.look (·.blockSize p))
      plain (Heap.edit (·.setTags p size false))
      edit (Walked.insert d p)
      discard (editWith (Walked.merge d p))
      plain (Heap.record (.freed p size))
      auditItself

/-- A payload of at least `n` bytes with the old one's contents; the old one is
given back. -/
def tryRealloc (p : Option Nat) (n : Nat) : Paced σ (Option Nat) := do
  if n = 0 then
    free p
    return none
  else
    match p with
    | none => tryMalloc n
    | some old =>
      match ← tryMalloc n with
      | none => return none
      | some new =>
        let kept ← plain (Heap.look fun m => min (m.usableSize old) (m.usableSize new))
        plain (Heap.edit (·.copy old new kept))
        free (some old)
        plain (Heap.record (.moved old n new kept))
        return some new

/-- A payload of at least `count * size` bytes, all of them zero. -/
def tryCalloc (count size : Nat) : Paced σ (Option Nat) := do
  if count * size < Layout.sizeRange then
    match ← tryMalloc (count * size) with
    | none => return none
    | some p =>
      plain (Heap.edit fun m =>
        let n := m.usableSize p
        m.fill p n 0)
      return some p
  else plain (Heap.fail .overflow)

/-! ## Doing the same -/

section Within

omit [Store σ]

/-- **A paced operation does what an operation does**, in one heap, along walks
that end, with at most `n` steps in all. -/
def Within (x : Paced σ α) (y : Operation σ α) (h : Heap σ) (n : Nat) : Prop :=
  (x h).Gives (y h) n

variable {x : Paced σ α} {y : Operation σ α} {h : Heap σ} {n k : Nat}

theorem within_pure (a : α) : Within (pure a) (pure a) h n := Walked.gives_pure _

theorem within_plain (y : Operation σ α) : Within (plain y) y h n := Walked.gives_pure _

theorem Within.mono (hx : Within x y h n) (hle : n ≤ k) : Within x y h k := Walked.Gives.mono hx hle

/-- **One operation after another**: the steps of both, if the second keeps to
its own where the first leads. -/
theorem Within.bind {f : α → Paced σ β} {g : α → Operation σ β} (hx : Within x y h n)
    (hf : ∀ a h', y h = .ok a h' → Within (f a) (g a) h' k) :
    Within (x >>= f) (y >>= g) h (n + k) := by
  change Walked.Gives (x h >>= fun r => match r with
    | .ok a h' => f a h'
    | .error stop h' => pure (.error stop h')) ((y >>= g) h) (n + k)
  refine Walked.Gives.bind hx ?_
  cases hy : y h with
  | ok a h' =>
    rw [Heap.bind_of_ok hy]
    exact hf a h' hy
  | error stop h' =>
    rw [Heap.bind_of_error hy]
    exact Walked.gives_pure _

/-- A first that succeeds leads to one heap. -/
theorem Within.bind_of_ok {f : α → Paced σ β} {g : α → Operation σ β} {a : α} {h' : Heap σ}
    (hx : Within x y h n) (hy : y h = .ok a h') (hf : Within (f a) (g a) h' k) :
    Within (x >>= f) (y >>= g) h (n + k) :=
  hx.bind fun a' h'' hrun => by
    rw [hy] at hrun
    cases hrun
    exact hf

/-- Where the first leads is known by how it ends. -/
theorem Within.bind_of_ends {f : α → Paced σ β} {g : α → Operation σ β}
    {Q : Except Failure α → Heap σ → Prop} (hx : Within x y h n) (hy : Heap.Ends y h Q)
    (hf : ∀ a h', Q (.ok a) h' → Within (f a) (g a) h' k) :
    Within (x >>= f) (y >>= g) h (n + k) :=
  hx.bind fun a h' hrun => hf a h' ((Heap.ends_of_ok hrun).1 hy)

/-- A first without a walk leaves all steps to the second. -/
theorem Within.plain_bind {f : α → Paced σ β} {g : α → Operation σ β}
    (hf : ∀ a h', y h = .ok a h' → Within (f a) (g a) h' k) :
    Within (plain y >>= f) (y >>= g) h k :=
  ((within_plain (n := 0) y).bind hf).mono (Nat.le_of_eq (Nat.zero_add k))

theorem Within.plain_bind_of_ok {f : α → Paced σ β} {g : α → Operation σ β} {a : α} {h' : Heap σ}
    (hy : y h = .ok a h') (hf : Within (f a) (g a) h' k) :
    Within (plain y >>= f) (y >>= g) h k :=
  ((within_plain (n := 0) y).bind_of_ok hy hf).mono (Nat.le_of_eq (Nat.zero_add k))

/-- A second that only passes on what the first gives takes no step. -/
theorem Within.bind_plain {f : α → Paced σ β} {g : α → Operation σ β} (hx : Within x y h n)
    (hf : ∀ a h', Within (f a) (g a) h' 0) : Within (x >>= f) (y >>= g) h n :=
  hx.bind fun a h' _ => hf a h'

theorem Within.discard (hx : Within x y h n) : Within (discard x) (discard y) h n :=
  hx.bind_plain fun _ _ => Walked.gives_pure _

theorem Within.attempt (hx : Within x y h n) :
    Within (Paced.attempt x) (Heap.attempt y) h n := by
  refine Walked.Gives.bind (k := 0) hx ?_
  unfold Heap.attempt
  cases y h with
  | ok a h' => exact Walked.gives_pure _
  | error stop h' => cases stop <;> exact Walked.gives_pure _

/-- An attempt leads on from every end of its operation. -/
theorem Within.attempt_bind {f : Except Failure α → Paced σ β}
    {g : Except Failure α → Operation σ β} {Q : Except Failure α → Heap σ → Prop}
    (hx : Within x y h n) (hy : Heap.Ends y h Q)
    (hf : ∀ r h', Q r h' → Within (f r) (g r) h' k) :
    Within (Paced.attempt x >>= f) (Heap.attempt y >>= g) h (n + k) := by
  have hends : Heap.Ends (Heap.attempt y) h fun r h' => ∀ s, r = .ok s → Q s h' := by
    rw [Heap.ends_attempt]
    exact hy.mono fun r h' hr s hs => Except.ok.inj hs ▸ hr
  exact hx.attempt.bind_of_ends hends fun r h' hr => hf r h' (hr r rfl)

theorem Within.orNull {x : Paced σ (Option Nat)} {y : Operation σ (Option Nat)}
    (hx : Within x y h n) (r : Failure → Record) :
    Within (Paced.orNull x r) (Heap.orNull y r) h n := by
  refine hx.attempt.bind_plain fun a h' => ?_
  cases a with
  | ok p => exact within_pure p
  | error e => exact Within.plain_bind fun _ _ _ => within_pure none

theorem Within.orNotReady (hx : Within x y h n) (r : Failure → Record) :
    Within (Paced.orNotReady x r) (Heap.orNotReady y r) h n := by
  refine hx.attempt.bind_plain fun a h' => ?_
  cases a with
  | ok a => exact within_pure a
  | error e => exact Within.plain_bind fun _ _ _ => within_plain _

theorem within_look {f : Memory → Walked α} {g : Memory → α}
    (hm : (f h.memory).Gives (g h.memory) n) : Within (look f) (Heap.look g) h n :=
  hm.bind (k := 0) (Walked.gives_pure _)

theorem within_edit {f : Memory → Walked Memory} {g : Memory → Memory}
    (hm : (f h.memory).Gives (g h.memory) n) : Within (edit f) (Heap.edit g) h n :=
  hm.bind (k := 0) (Walked.gives_pure _)

theorem within_editWith {f : Memory → Walked (α × Memory)} {g : Memory → α × Memory}
    (hm : (f h.memory).Gives (g h.memory) n) : Within (editWith f) (Heap.editWith g) h n :=
  hm.bind (k := 0) (Walked.gives_pure _)

end Within

/-- **An audit** follows the lists of the heap's directory, if it has one. -/
theorem within_audit {h : Heap σ} {n : Nat}
    (hlists : ∀ d ∈ h.directory, (Walked.survey d h.memory h.region).Gives () n) (line : Line) :
    Within (audit line) (Heap.audit line) h n := by
  have hsurvey : (h.directory.elim (pure ()) fun d => Walked.survey d h.memory h.region).Gives
      () n := by
    cases hd : h.directory with
    | none => exact Walked.gives_pure _
    | some d => exact hlists d hd
  exact hsurvey.bind (k := 0) (Walked.gives_pure _)

theorem within_auditItself {h : Heap σ} {n : Nat}
    (hlists : ∀ d ∈ h.directory, (Walked.survey d h.memory h.region).Gives () n) :
    Within auditItself Heap.auditItself h n := by
  refine Within.plain_bind fun h₁ h₂ hrun => ?_
  cases hrun
  split
  · refine (within_audit hlists none).bind_plain fun report h' => ?_
    split <;> exact Walked.gives_pure _
  · exact Walked.gives_pure _

end Paced

end SegFit
