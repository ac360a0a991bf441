import SegFit.Heap.Allocation
import SegFit.Proofs.Guarded.Audit
import SegFit.Proofs.Heap.Ends
/-!
# Operations that refuse to truncate

A guarded operation is an operation whose edits are guarded, and so is the sum
it holds against the range of links: it has no result where one of them is
refused, nor where it should give back a block that is not allocated. A failure
of its own is a result. `Faithful` says that a guarded
operation does in some heap what the operation does, and so refuses nothing
there. There is one lemma for each step an operation is made of.
-/

namespace SegFit

/-- A change of a heap that may stop early, and that has no result where an
edit is refused. -/
def Guarded (σ α : Type) : Type := Heap σ → Option (EStateM.Result Stop (Heap σ) α)

namespace Guarded

variable {σ α β : Type}

instance : Monad (Guarded σ) where
  pure a h := some (.ok a h)
  bind x f h := (x h).bind fun
    | .ok a h => f a h
    | .error stop h => some (.error stop h)

/-- An operation in which there is nothing to refuse. -/
def plain (x : Operation σ α) : Guarded σ α := fun h => some (x h)

/-! ## Steps of a guarded operation -/

/-- Reads the heap. -/
def read? (f : Heap σ → Option α) : Guarded σ α := fun h => (f h).map (.ok · h)

/-- Goes on where the memory is as expected, and refuses to elsewhere. -/
def expect? (f : Memory → Bool) : Guarded σ Unit :=
  read? fun h => if f h.memory then some () else none

/-- Changes the memory. -/
def edit? (f : Memory → Option Memory) : Guarded σ Unit := fun h =>
  (f h.memory).map fun m => .ok () { h with memory := m }

/-- Changes the memory and gives a value. -/
def editWith? (f : Memory → Option (α × Memory)) : Guarded σ α := fun h =>
  (f h.memory).map fun (a, m) => .ok a { h with memory := m }

/-- Does an operation and gives its cause instead of stopping for it. -/
def attempt (x : Guarded σ α) : Guarded σ (Except Failure α) := fun h =>
  (x h).map fun
    | .ok a h => .ok (.ok a) h
    | .error (.failed e) h => .ok (.error e) h
    | .error stop h => .error stop h

/-- Gives what an operation gives; if it fails, records its cause and gives no
pointer. -/
def orNull (x : Guarded σ (Option Nat)) (r : Failure → Record) : Guarded σ (Option Nat) := do
  match ← attempt x with
  | .ok p => return p
  | .error e =>
    plain (Heap.record (r e))
    return none

/-- Gives what an operation gives; if it fails, records its cause and stops
because the heap is not ready. -/
def orNotReady (x : Guarded σ α) (r : Failure → Record) : Guarded σ α := do
  match ← attempt x with
  | .ok a => return a
  | .error e =>
    plain (Heap.record (r e))
    plain (Heap.fail .notReady)

variable [Store σ]

/-- Audits the heap, records what it finds, and reports it. -/
def audit (line : Line) : Guarded σ Report := do
  let found ← read? fun h => Audit.violations? h.memory h.region h.directory
  plain (modify fun h => { h with journal := h.journal.appendList (found.map (.found line)) })
  return ⟨line, found⟩

/-- Audits the heap if it audits itself, and stops if anything is wrong. -/
def auditItself : Guarded σ Unit := do
  if (← plain get).auditsItself then
    let report ← audit none
    if !report.isOk then plain (throw (.inconsistent report))

/-! ## The operations -/

/-- Grows the heap by at least `n` bytes and gives the free block that covers
the new ones. -/
def extend (d : Directory) (n : Nat) : Guarded σ Nat := do
  let grown ← plain (Heap.orFail .overflow (Layout.alignUp? n))
  let total ← read? fun h => Layout.checkedAdd? h.size grown
  if total < Layout.wordRange then
    let p ← plain (Heap.request grown)
    edit? (d.append? p grown)
    plain (Heap.record (.extended grown p))
    editWith? (d.merge? p)
  else
    plain (Heap.record (.unreachable grown))
    plain (Heap.fail .outOfMemory)

/-- Grows the heap by its first chunk. -/
def firstChunk (d : Directory) : Guarded σ Unit :=
  orNotReady (discard (extend d Layout.chunk)) .chunkRefused

/-- The directory of the heap, which is laid out if it is not yet. -/
def ready : Guarded σ Directory := do
  match (← plain get).directory with
  | some d => return d
  | none =>
    let base ← plain (Heap.orNotReady (Heap.request Layout.bytes) .layoutRefused)
    let d := Directory.ofBase base
    edit? d.layOut?
    plain (modify fun h => { h with directory := some d })
    plain (Heap.record (.laidOut base))
    firstChunk d
    return d

/-- Makes the heap ready for use. -/
def init : Guarded σ Unit := do
  let d ← ready
  if (← plain get).size = Layout.bytes then firstChunk d

/-- A payload of at least `n` bytes. -/
def tryMalloc (n : Nat) : Guarded σ (Option Nat) := do
  let d ← attempt ready
  if n = 0 then return none
  else
    match d with
    | .error e => plain (Heap.fail e)
    | .ok d =>
      let need ← plain (Heap.orFail .overflow (Layout.blockSizeFor? n))
      let p ← do
        match ← plain (Heap.look (d.findFit · need)) with
        | some p => pure p
        | none => extend d (max need Layout.chunk)
      edit? (d.carve? p need)
      plain (Heap.record (.allocated n p need))
      auditItself
      return some p

/-- Gives a payload back. -/
def free (p : Option Nat) : Guarded σ Unit := do
  match ← attempt ready with
  | .error e => plain (Heap.record (.freeFailed p e))
  | .ok d =>
    match p with
    | none => pure ()
    | some p =>
      let size ← plain (Heap.look (·.blockSize p))
      expect? (·.isAllocated p)
      edit? (·.setTags? p size false)
      edit? (d.insert? p)
      discard (editWith? (d.merge? p))
      plain (Heap.record (.freed p size))
      auditItself

/-- A payload of at least `n` bytes with the old one's contents; the old one is
given back. -/
def tryRealloc (p : Option Nat) (n : Nat) : Guarded σ (Option Nat) := do
  if n = 0 then
    free p
    return none
  else
    match p with
    | none => tryMalloc n
    | some old =>
      match ← tryMalloc n with
      | none => return none
      | some new =>
        let kept ← read? fun h => do
          return min (← h.memory.usableSize? old) (← h.memory.usableSize? new)
        plain (Heap.edit (·.copy old new kept))
        free (some old)
        plain (Heap.record (.moved old n new kept))
        return some new

/-- A payload of at least `count * size` bytes, all of them zero. -/
def tryCalloc (count size : Nat) : Guarded σ (Option Nat) := do
  if count * size < Layout.sizeRange then
    match ← tryMalloc (count * size) with
    | none => return none
    | some p =>
      edit? fun m => do
        let n ← m.usableSize? p
        return m.fill p n 0
      return some p
  else plain (Heap.fail .overflow)

/-! ## Doing the same -/

section Faithful

omit [Store σ]

/-- **A guarded operation does what an operation does**, in one heap: nothing
is refused there. -/
def Faithful (x : Guarded σ α) (y : Operation σ α) (h : Heap σ) : Prop := x h = some (y h)

variable {x : Guarded σ α} {y : Operation σ α} {h : Heap σ}

theorem faithful_pure (a : α) : Faithful (pure a) (pure a) h := rfl

theorem faithful_plain (y : Operation σ α) : Faithful (plain y) y h := rfl

/-- **One operation after another**: the second refuses nothing where the first
leads. -/
theorem Faithful.bind {f : α → Guarded σ β} {g : α → Operation σ β} (hx : Faithful x y h)
    (hf : ∀ a h', y h = .ok a h' → Faithful (f a) (g a) h') :
    Faithful (x >>= f) (y >>= g) h := by
  unfold Faithful at hx
  change (x h).bind _ = some (EStateM.bind y g h)
  rw [hx, Option.bind_some]
  unfold EStateM.bind
  cases hy : y h with
  | ok a h' => exact hf a h' hy
  | error stop h' => rfl

/-- A first that succeeds leads to one heap. -/
theorem Faithful.bind_of_ok {f : α → Guarded σ β} {g : α → Operation σ β} {a : α} {h' : Heap σ}
    (hx : Faithful x y h) (hy : y h = .ok a h') (hf : Faithful (f a) (g a) h') :
    Faithful (x >>= f) (y >>= g) h :=
  hx.bind fun a' h'' hrun => by
    rw [hy] at hrun
    cases hrun
    exact hf

/-- Where the first leads is known by how it ends. -/
theorem Faithful.bind_of_ends {f : α → Guarded σ β} {g : α → Operation σ β}
    {Q : Except Failure α → Heap σ → Prop} (hx : Faithful x y h) (hy : Heap.Ends y h Q)
    (hf : ∀ a h', Q (.ok a) h' → Faithful (f a) (g a) h') : Faithful (x >>= f) (y >>= g) h :=
  hx.bind fun a h' hrun => hf a h' ((Heap.ends_of_ok hrun).1 hy)

theorem Faithful.discard (hx : Faithful x y h) : Faithful (discard x) (discard y) h := by
  unfold Faithful at hx
  change (x h).bind _ = some (EStateM.map _ y h)
  rw [hx, Option.bind_some]
  unfold EStateM.map
  cases y h <;> rfl

theorem Faithful.attempt (hx : Faithful x y h) :
    Faithful (Guarded.attempt x) (Heap.attempt y) h := by
  unfold Faithful at hx ⊢
  rw [Guarded.attempt, hx, Option.map_some]
  unfold Heap.attempt
  cases y h with
  | ok a h' => rfl
  | error stop h' => cases stop <;> rfl

/-- An attempt leads on from every end of its operation. -/
theorem Faithful.attempt_bind {f : Except Failure α → Guarded σ β}
    {g : Except Failure α → Operation σ β} {Q : Except Failure α → Heap σ → Prop}
    (hx : Faithful x y h) (hy : Heap.Ends y h Q)
    (hf : ∀ r h', Q r h' → Faithful (f r) (g r) h') :
    Faithful (Guarded.attempt x >>= f) (Heap.attempt y >>= g) h := by
  have hends : Heap.Ends (Heap.attempt y) h fun r h' => ∀ s, r = .ok s → Q s h' := by
    rw [Heap.ends_attempt]
    exact hy.mono fun r h' hr s hs => Except.ok.inj hs ▸ hr
  exact hx.attempt.bind_of_ends hends fun r h' hr => hf r h' (hr r rfl)

theorem Faithful.orNull {x : Guarded σ (Option Nat)} {y : Operation σ (Option Nat)}
    (hx : Faithful x y h) (r : Failure → Record) :
    Faithful (Guarded.orNull x r) (Heap.orNull y r) h := by
  refine hx.attempt.bind fun a h' _ => ?_
  cases a <;> rfl

theorem Faithful.orNotReady (hx : Faithful x y h) (r : Failure → Record) :
    Faithful (Guarded.orNotReady x r) (Heap.orNotReady y r) h := by
  refine hx.attempt.bind fun a h' _ => ?_
  cases a <;> rfl

theorem faithful_edit? {f : Memory → Option Memory} {g : Memory → Memory}
    (hm : f h.memory = some (g h.memory)) : Faithful (edit? f) (Heap.edit g) h := by
  rw [Faithful, edit?, hm]
  rfl

theorem faithful_editWith? {f : Memory → Option (α × Memory)} {g : Memory → α × Memory}
    (hm : f h.memory = some (g h.memory)) : Faithful (editWith? f) (Heap.editWith g) h := by
  rw [Faithful, editWith?, hm]
  rfl

theorem faithful_read? {f : Heap σ → Option α} {g : Memory → α} (hf : f h = some (g h.memory)) :
    Faithful (read? f) (Heap.look g) h := by
  rw [Faithful, read?, hf]
  rfl

/-- What is read is a value there, and the rest goes on with it. -/
theorem faithful_read?_bind {f : Heap σ → Option β} {k : β → Guarded σ α} {b : β}
    (hb : f h = some b) (hk : Faithful (k b) y h) : Faithful (read? f >>= k) y h := by
  unfold Faithful at hk ⊢
  change ((f h).map _).bind _ = _
  rw [hb]
  exact hk

theorem faithful_expect?_bind {f : Memory → Bool} {k : Unit → Guarded σ α}
    (hf : f h.memory = true) (hk : Faithful (k ()) y h) : Faithful (expect? f >>= k) y h :=
  faithful_read?_bind (if_pos hf) hk

end Faithful

/-- **An audit** refuses nothing in any heap. -/
theorem faithful_auditItself (h : Heap σ) : Faithful auditItself Heap.auditItself h := by
  have haudit : Faithful (audit none) (Heap.audit none) h :=
    faithful_read?_bind (Audit.violations?_eq _ _ _) rfl
  refine (faithful_plain get).bind ?_
  rintro _ _ ⟨⟩
  split
  · refine haudit.bind fun report h' _ => ?_
    split <;> rfl
  · rfl

end Guarded

end SegFit
