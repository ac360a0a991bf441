import SegFit.Proofs.Heap.Readiness
import SegFit.Proofs.Store.Ledger
/-!
# What a heap asks for once it is laid out

A heap that is laid out asks its store for chunks only: each request is for
at least a chunk's bytes. That holds of every operation, however it ends, and
of every heap, sound or not (`Drawing`). There is one lemma for each step an
operation is made of, and from them one for each operation.
-/

namespace SegFit

namespace Heap

variable {σ α β : Type}

/-- The heap an operation leaves, however it ends. -/
def left : EStateM.Result Stop (Heap σ) α → Heap σ
  | .ok _ h | .error _ h => h

variable [Store σ] {h h' h'' : Heap (Ledger σ)}

/-- **A heap that has asked for chunks only**, if for anything. -/
structure Draws (h h' : Heap (Ledger σ)) : Prop where
  directory : h'.directory = h.directory
  account : ∃ asked, h'.store.account = h.store.account ++ asked ∧ ∀ r ∈ asked, Layout.chunk ≤ r.1

/-- **An operation that asks a laid-out heap's store for chunks only.** -/
def Drawing (x : Operation (Ledger σ) α) : Prop :=
  ∀ h, h.directory.isSome → Draws h (left (x h))

theorem Draws.of_store (hstore : h'.store = h.store) (hdirectory : h'.directory = h.directory) :
    Draws h h' :=
  ⟨hdirectory, [], by rw [hstore, List.append_nil], fun r hr => absurd hr List.not_mem_nil⟩

theorem Draws.trans (h₁ : Draws h h') (h₂ : Draws h' h'') : Draws h h'' := by
  obtain ⟨asked, haccount, hlarge⟩ := h₁.account
  obtain ⟨asked', haccount', hlarge'⟩ := h₂.account
  refine ⟨h₂.directory.trans h₁.directory, asked ++ asked', ?_, ?_⟩
  · rw [haccount', haccount, List.append_assoc]
  · intro r hr
    exact (List.mem_append.1 hr).elim (hlarge r) (hlarge' r)

/-- What an operation ends with, when it asks for chunks only. -/
theorem Drawing.ends {x : Operation (Ledger σ) α} {Q : Except Failure α → Heap (Ledger σ) → Prop}
    (hx : Drawing x) (hd : h.directory.isSome) (hends : Ends x h Q) :
    Ends x h fun r h' => Q r h' ∧ Draws h h' := by
  have hdraws := hx h hd
  rcases hends.cases with ⟨a, h', heq, hQ⟩ | ⟨e, h', heq, hQ⟩
  · rw [heq] at hdraws
    exact (ends_of_ok heq).2 ⟨hQ, hdraws⟩
  · rw [heq] at hdraws
    exact (ends_of_failed heq).2 ⟨hQ, hdraws⟩

/-! ## The steps of an operation -/

/-- A step that leaves the store and the directory alone. -/
theorem drawing_of_store {x : Operation (Ledger σ) α}
    (hx : ∀ h, (left (x h)).store = h.store ∧ (left (x h)).directory = h.directory) : Drawing x :=
  fun h _ => .of_store (hx h).1 (hx h).2

theorem drawing_pure (a : α) : Drawing (pure a : Operation (Ledger σ) α) :=
  drawing_of_store fun _ => ⟨rfl, rfl⟩

theorem drawing_record (r : Record) : Drawing (record r : Operation (Ledger σ) Unit) :=
  drawing_of_store fun _ => ⟨rfl, rfl⟩

theorem drawing_look (g : Memory → α) : Drawing (look g : Operation (Ledger σ) α) :=
  drawing_of_store fun _ => ⟨rfl, rfl⟩

theorem drawing_edit (g : Memory → Memory) : Drawing (edit g : Operation (Ledger σ) Unit) :=
  drawing_of_store fun _ => ⟨rfl, rfl⟩

theorem drawing_editWith (g : Memory → α × Memory) :
    Drawing (editWith g : Operation (Ledger σ) α) :=
  drawing_of_store fun _ => ⟨rfl, rfl⟩

theorem drawing_fail (e : Failure) : Drawing (fail e : Operation (Ledger σ) α) :=
  drawing_of_store fun _ => ⟨rfl, rfl⟩

theorem drawing_orFail (e : Failure) (a : Option α) :
    Drawing (orFail e a : Operation (Ledger σ) α) := by
  cases a with
  | none => exact drawing_fail e
  | some a => exact drawing_pure a

/-- **One operation after another**: the second finds the heap laid out
too. -/
theorem Drawing.bind {x : Operation (Ledger σ) α} {F : α → Operation (Ledger σ) β}
    (hx : Drawing x) (hF : ∀ a, Drawing (F a)) : Drawing (x >>= F) := by
  intro h hd
  have hdraws := hx h hd
  simp only [Bind.bind, EStateM.bind]
  generalize x h = r at hdraws ⊢
  cases r with
  | ok a h' => exact hdraws.trans (hF a h' (hdraws.directory ▸ hd))
  | error stop h' => exact hdraws

theorem Drawing.discard {x : Operation (Ledger σ) α} (hx : Drawing x) : Drawing (discard x) := by
  intro h hd
  have hdraws := hx h hd
  simp only [Functor.discard, Functor.mapConst, EStateM.map, Function.comp]
  generalize x h = r at hdraws ⊢
  cases r <;> exact hdraws

theorem drawing_get {F : Heap (Ledger σ) → Operation (Ledger σ) α} (hF : ∀ h, Drawing (F h)) :
    Drawing (get >>= F) :=
  fun h hd => hF h h hd

theorem Drawing.attempt {x : Operation (Ledger σ) α} (hx : Drawing x) : Drawing (attempt x) := by
  intro h hd
  have hdraws := hx h hd
  simp only [Heap.attempt]
  generalize x h = r at hdraws ⊢
  cases r with
  | ok a h' => exact hdraws
  | error stop h' => cases stop <;> exact hdraws

theorem Drawing.orNotReady {x : Operation (Ledger σ) α} (hx : Drawing x) (r : Failure → Record) :
    Drawing (orNotReady x r) := by
  refine hx.attempt.bind fun a => ?_
  cases a with
  | ok a => exact drawing_pure a
  | error e => exact (drawing_record _).bind fun _ => drawing_fail _

theorem Drawing.orNull {x : Operation (Ledger σ) (Option Nat)} (hx : Drawing x)
    (r : Failure → Record) : Drawing (orNull x r) := by
  refine hx.attempt.bind fun a => ?_
  cases a with
  | ok a => exact drawing_pure a
  | error e => exact (drawing_record _).bind fun _ => drawing_pure _

variable [Store.Lawful σ]

theorem drawing_auditItself : Drawing (auditItself : Operation (Ledger σ) Unit) := by
  refine drawing_of_store fun h => ?_
  rcases auditItself_cases h with heq | ⟨report, j, heq⟩
  · rw [heq]
    exact ⟨rfl, rfl⟩
  · rw [heq]
    exact ⟨rfl, rfl⟩

/-- A request for a chunk or more. -/
theorem drawing_request {n : Nat} (hn : Layout.chunk ≤ n) :
    Drawing (request n : Operation (Ledger σ) Nat) := by
  intro h hd
  have hdraws : ∀ j, Draws h ⟨(Store.grow n h.store).store, h.memory, h.directory,
      h.auditsItself, j⟩ := by
    refine fun j => ⟨rfl, [_], Ledger.account_grow n h.store, fun r hr => ?_⟩
    rw [List.mem_singleton.1 hr]
    exact hn
  simp only [request]
  cases (Store.grow n h.store).answer with
  | ok p => exact hdraws _
  | error e => exact hdraws _

/-! ## The operations -/

theorem drawing_extend (d : Directory) {n : Nat} (hn : Layout.chunk ≤ n) :
    Drawing (extend d n : Operation (Ledger σ) Nat) := by
  have hgrown : ∀ g ∈ Layout.alignUp? n, Layout.chunk ≤ g := fun g hg =>
    Nat.le_trans hn (Layout.alignUp?_eq_some hg).1
  unfold extend
  generalize Layout.alignUp? n = size at hgrown ⊢
  cases size with
  | none => exact drawing_fail _
  | some g =>
    have hsome : ∀ F : Nat → Operation (Ledger σ) Nat,
        (orFail .overflow (some g) >>= F) = F g := fun _ => rfl
    rw [hsome]
    refine drawing_get fun h => ?_
    split
    · exact (drawing_request (hgrown g rfl)).bind fun p => (drawing_edit _).bind fun _ =>
        (drawing_record _).bind fun _ => drawing_editWith _
    · exact (drawing_record _).bind fun _ => drawing_fail _

theorem drawing_firstChunk (d : Directory) :
    Drawing (firstChunk d : Operation (Ledger σ) Unit) :=
  (drawing_extend d (Nat.le_refl _)).discard.orNotReady _

/-- What is laid out is ready, and asks for nothing. -/
theorem drawing_ready : Drawing (ready : Operation (Ledger σ) Directory) := by
  intro h hd
  obtain ⟨d, hd⟩ := Option.isSome_iff_exists.1 hd
  rw [ready_of_some hd]
  exact .of_store rfl rfl

theorem drawing_init : Drawing (init : Operation (Ledger σ) Unit) := by
  refine drawing_ready.bind fun d => drawing_get fun h => ?_
  split
  · exact drawing_firstChunk d
  · exact drawing_pure _

theorem drawing_tryMalloc (n : Nat) :
    Drawing (tryMalloc n : Operation (Ledger σ) (Option Nat)) := by
  refine drawing_ready.attempt.bind fun d => ?_
  split
  · exact drawing_pure none
  · cases d with
    | error e => exact drawing_fail e
    | ok d =>
      refine (drawing_orFail _ _).bind fun need => (drawing_look _).bind fun fit => ?_
      cases fit with
      | some p =>
        exact (drawing_pure p).bind fun p => (drawing_edit _).bind fun _ =>
          (drawing_record _).bind fun _ => drawing_auditItself.bind fun _ => drawing_pure _
      | none =>
        exact (drawing_extend d (Nat.le_max_right ..)).bind fun p => (drawing_edit _).bind fun _ =>
          (drawing_record _).bind fun _ => drawing_auditItself.bind fun _ => drawing_pure _

theorem drawing_free (p : Option Nat) : Drawing (free p : Operation (Ledger σ) Unit) := by
  refine drawing_ready.attempt.bind fun d => ?_
  cases d with
  | error e => exact drawing_record _
  | ok d =>
    cases p with
    | none => exact drawing_pure ()
    | some p =>
      exact (drawing_look _).bind fun size => (drawing_edit _).bind fun _ =>
        (drawing_edit _).bind fun _ => (drawing_editWith _).discard.bind fun _ =>
          (drawing_record _).bind fun _ => drawing_auditItself

theorem drawing_tryRealloc (p : Option Nat) (n : Nat) :
    Drawing (tryRealloc p n : Operation (Ledger σ) (Option Nat)) := by
  unfold tryRealloc
  split
  · exact (drawing_free p).bind fun _ => drawing_pure none
  · cases p with
    | none => exact drawing_tryMalloc n
    | some old =>
      refine (drawing_tryMalloc n).bind fun q => ?_
      cases q with
      | none => exact drawing_pure none
      | some new =>
        exact (drawing_look _).bind fun kept => (drawing_edit _).bind fun _ =>
          (drawing_free _).bind fun _ => (drawing_record _).bind fun _ => drawing_pure _

theorem drawing_tryCalloc (count size : Nat) :
    Drawing (tryCalloc count size : Operation (Ledger σ) (Option Nat)) := by
  unfold tryCalloc
  split
  · refine (drawing_tryMalloc _).bind fun q => ?_
    cases q with
    | none => exact drawing_pure none
    | some p => exact (drawing_edit _).bind fun _ => drawing_pure _
  · exact drawing_fail _

end Heap

end SegFit
