import SegFit.Proofs.Heap.Ends
/-!
# Heaps side by side

The same operation, done over two stores that answer alike, by a heap
that audits itself and one that may not. `Abreast` says that the two
come to the same: the same answer or the same cause, and heaps that
differ only in the store and in whether they audit themselves. The one
thing that can part them is an audit that finds something, since an
audit that finds nothing changes nothing. There is one lemma for each
step an operation is made of, and from them one for each operation.
-/

namespace SegFit

/-- **A map of stores that a heap cannot tell from the identity**: what is
asked is answered alike before and after it. Where the region is matters
to an audit only. -/
structure Store.Conforms {σ τ : Type} [Store σ] [Store τ] (f : σ → τ) : Prop where
  answer (n : Nat) (s : σ) : (Store.grow n (f s)).answer = (Store.grow n s).answer
  store (n : Nat) (s : σ) : (Store.grow n (f s)).store = f (Store.grow n s).store
  records (n : Nat) (s : σ) : (Store.grow n (f s)).records = (Store.grow n s).records
  size (s : σ) : Store.size (f s) = Store.size s

theorem Store.Conforms.id {σ : Type} [Store σ] : Store.Conforms (id : σ → σ) :=
  ⟨fun _ _ => rfl, fun _ _ => rfl, fun _ _ => rfl, fun _ => rfl⟩

namespace Heap

variable {σ τ α β : Type}

/-- The same heap over another store, auditing itself or not. -/
def recast (f : σ → τ) (b : Bool) (h : Heap σ) : Heap τ :=
  ⟨f h.store, h.memory, h.directory, b, h.journal⟩

@[simp] theorem recast_directory (f : σ → τ) (b : Bool) (h : Heap σ) :
    (h.recast f b).directory = h.directory := rfl

/-- The same result over another store. -/
def recastResult (f : σ → τ) (b : Bool) :
    EStateM.Result Stop (Heap σ) α → EStateM.Result Stop (Heap τ) α
  | .ok a h => .ok a (h.recast f b)
  | .error stop h => .error stop (h.recast f b)

/-- **Two results that come to the same**, or an audit that parted them. -/
inductive Concur (f : σ → τ) (b : Bool) :
    EStateM.Result Stop (Heap σ) α → EStateM.Result Stop (Heap τ) α → Prop
  | ok (a : α) (h : Heap σ) : Concur f b (.ok a h) (.ok a (h.recast f b))
  | failed (e : Failure) (h : Heap σ) :
      Concur f b (.error (.failed e) h) (.error (.failed e) (h.recast f b))
  | left (report : Report) (h : Heap σ) (r : EStateM.Result Stop (Heap τ) α) :
      Concur f b (.error (.inconsistent report) h) r
  | right (report : Report) (r : EStateM.Result Stop (Heap σ) α) (h : Heap τ) :
      Concur f b r (.error (.inconsistent report) h)

/-- **Two operations that come to the same** from heaps side by side. -/
def Abreast (f : σ → τ) (b : Bool) (x : Operation σ α) (y : Operation τ α) : Prop :=
  ∀ h, Concur f b (x h) (y (h.recast f b))

variable {f : σ → τ} {b : Bool}

/-! ## The steps of an operation -/

theorem abreast_pure (a : α) : Abreast f b (pure a : Operation σ α) (pure a) :=
  fun h => .ok a h

/-- **One operation after another**: what parts the first parts both. -/
theorem Abreast.bind {x : Operation σ α} {y : Operation τ α} {F : α → Operation σ β}
    {G : α → Operation τ β} (hxy : Abreast f b x y) (hFG : ∀ a, Abreast f b (F a) (G a)) :
    Abreast f b (x >>= F) (y >>= G) := by
  intro h
  have hx := hxy h
  simp only [Bind.bind, EStateM.bind]
  generalize x h = r at hx ⊢
  generalize y (h.recast f b) = r' at hx ⊢
  cases hx with
  | ok a h' => exact hFG a h'
  | failed e h' => exact .failed e h'
  | left report h' => exact .left report h' _
  | right report _ h' => exact .right report _ h'

theorem Abreast.discard {x : Operation σ α} {y : Operation τ α} (hxy : Abreast f b x y) :
    Abreast f b (discard x) (discard y) := by
  intro h
  have hx := hxy h
  simp only [Functor.discard, Functor.mapConst, EStateM.map, Function.comp]
  generalize x h = r at hx ⊢
  generalize y (h.recast f b) = r' at hx ⊢
  cases hx with
  | ok a h' => exact .ok _ h'
  | failed e h' => exact .failed e h'
  | left report h' => exact .left report h' _
  | right report _ h' => exact .right report _ h'

/-- Where an operation looks at its heap, it goes on by what it sees. -/
theorem abreast_get {F : Heap σ → Operation σ α} {G : Heap τ → Operation τ α}
    (hFG : ∀ h, Abreast f b (F h) (G (h.recast f b))) :
    Abreast f b (get >>= F) (get >>= G) :=
  fun h => hFG h h

theorem abreast_record (r : Record) : Abreast f b (record r : Operation σ Unit) (record r) :=
  fun h => .ok () { h with journal := h.journal.push r }

theorem abreast_look (g : Memory → α) : Abreast f b (look g : Operation σ α) (look g) :=
  fun h => .ok (g h.memory) h

theorem abreast_edit (g : Memory → Memory) : Abreast f b (edit g : Operation σ Unit) (edit g) :=
  fun h => .ok () { h with memory := g h.memory }

theorem abreast_editWith (g : Memory → α × Memory) :
    Abreast f b (editWith g : Operation σ α) (editWith g) :=
  fun h => .ok (g h.memory).1 { h with memory := (g h.memory).2 }

theorem abreast_place (d : Option Directory) :
    Abreast f b (modify fun h : Heap σ => { h with directory := d })
      (modify fun h : Heap τ => { h with directory := d }) :=
  fun h => .ok PUnit.unit { h with directory := d }

theorem abreast_fail (e : Failure) : Abreast f b (fail e : Operation σ α) (fail e) :=
  fun h => .failed e h

theorem abreast_orFail (e : Failure) (a : Option α) :
    Abreast f b (orFail e a : Operation σ α) (orFail e a) := by
  cases a with
  | none => exact abreast_fail e
  | some a => exact abreast_pure a

theorem Abreast.attempt {x : Operation σ α} {y : Operation τ α} (hxy : Abreast f b x y) :
    Abreast f b (attempt x) (attempt y) := by
  intro h
  have hx := hxy h
  simp only [Heap.attempt]
  generalize x h = r at hx ⊢
  generalize y (h.recast f b) = r' at hx ⊢
  cases hx with
  | ok a h' => exact .ok _ h'
  | failed e h' => exact .ok _ h'
  | left report h' => exact .left report h' _
  | right report _ h' => exact .right report _ h'

theorem Abreast.orNotReady {x : Operation σ α} {y : Operation τ α} (hxy : Abreast f b x y)
    (r : Failure → Record) : Abreast f b (orNotReady x r) (orNotReady y r) := by
  refine hxy.attempt.bind fun a => ?_
  cases a with
  | ok a => exact abreast_pure a
  | error e => exact (abreast_record _).bind fun _ => abreast_fail _

theorem Abreast.orNull {x : Operation σ (Option Nat)} {y : Operation τ (Option Nat)}
    (hxy : Abreast f b x y) (r : Failure → Record) : Abreast f b (orNull x r) (orNull y r) := by
  refine hxy.attempt.bind fun a => ?_
  cases a with
  | ok a => exact abreast_pure a
  | error e => exact (abreast_record _).bind fun _ => abreast_pure _

/-- **An audit changes nothing**, unless it finds something, and then nothing
but the journal. -/
theorem auditItself_cases [Store σ] (h : Heap σ) :
    auditItself h = .ok () h ∨
      ∃ report j, auditItself h = .error (.inconsistent report) { h with journal := j } := by
  have haudit : audit none h = .ok ⟨none, h.violations⟩
      { h with journal := h.journal.appendList (h.violations.map (.found none)) } := rfl
  rw [auditItself, get_bind]
  by_cases haudits : h.auditsItself = true
  · rw [if_pos haudits, bind_of_ok haudit]
    cases h.violations with
    | nil => exact .inl rfl
    | cons v vs => exact .inr ⟨⟨none, v :: vs⟩, _, rfl⟩
  · rw [if_neg haudits]
    exact .inl rfl

theorem abreast_auditItself [Store σ] [Store τ] :
    Abreast f b (auditItself : Operation σ Unit) auditItself := by
  intro h
  rcases auditItself_cases h with heq | ⟨report, j, heq⟩
  · rcases auditItself_cases (h.recast f b) with heq' | ⟨report, j, heq'⟩
    · rw [heq, heq']
      exact .ok () h
    · rw [heq']
      exact .right report _ _
  · rw [heq]
    exact .left report _ _

/-! ## The operations -/

section Operations

variable [Store σ] [Store τ] (hf : Store.Conforms f)

include hf

theorem abreast_request (n : Nat) : Abreast f b (request n : Operation σ Nat) (request n) := by
  intro h
  simp only [request, recast, hf.answer, hf.store, hf.records]
  cases (Store.grow n h.store).answer with
  | ok p => exact .ok p ⟨_, _, _, _, _⟩
  | error e => exact .failed e ⟨_, _, _, _, _⟩

theorem abreast_extend (d : Directory) (n : Nat) :
    Abreast f b (extend d n : Operation σ Nat) (extend d n) := by
  refine (abreast_orFail _ _).bind fun grown => abreast_get fun h => ?_
  have hsize : (h.recast f b).size = h.size := hf.size h.store
  rw [hsize]
  split
  · exact (abreast_request hf grown).bind fun p => (abreast_edit _).bind fun _ =>
      (abreast_record _).bind fun _ => abreast_editWith _
  · exact (abreast_record _).bind fun _ => abreast_fail _

theorem abreast_firstChunk (d : Directory) :
    Abreast f b (firstChunk d : Operation σ Unit) (firstChunk d) :=
  (abreast_extend hf d Layout.chunk).discard.orNotReady _

theorem abreast_ready : Abreast f b (ready : Operation σ Directory) ready := by
  refine abreast_get fun h => ?_
  rw [recast_directory]
  cases h.directory with
  | some d => exact abreast_pure d
  | none =>
    exact ((abreast_request hf Layout.bytes).orNotReady _).bind fun base =>
      (abreast_edit _).bind fun _ => (abreast_place _).bind fun _ =>
        (abreast_record _).bind fun _ => (abreast_firstChunk hf _).bind fun _ => abreast_pure _

theorem abreast_init : Abreast f b (init : Operation σ Unit) init := by
  refine (abreast_ready hf).bind fun d => abreast_get fun h => ?_
  have hsize : (h.recast f b).size = h.size := hf.size h.store
  rw [hsize]
  split
  · exact abreast_firstChunk hf d
  · exact abreast_pure _

theorem abreast_tryMalloc (n : Nat) :
    Abreast f b (tryMalloc n : Operation σ (Option Nat)) (tryMalloc n) := by
  refine (abreast_ready hf).attempt.bind fun d => ?_
  split
  · exact abreast_pure none
  · cases d with
    | error e => exact abreast_fail e
    | ok d =>
      refine (abreast_orFail _ _).bind fun need => (abreast_look _).bind fun fit => ?_
      cases fit with
      | some p =>
        exact (abreast_pure p).bind fun p => (abreast_edit _).bind fun _ =>
          (abreast_record _).bind fun _ => abreast_auditItself.bind fun _ => abreast_pure _
      | none =>
        exact (abreast_extend hf d _).bind fun p => (abreast_edit _).bind fun _ =>
          (abreast_record _).bind fun _ => abreast_auditItself.bind fun _ => abreast_pure _

theorem abreast_free (p : Option Nat) :
    Abreast f b (free p : Operation σ Unit) (free p) := by
  refine (abreast_ready hf).attempt.bind fun d => ?_
  cases d with
  | error e => exact abreast_record _
  | ok d =>
    cases p with
    | none => exact abreast_pure ()
    | some p =>
      exact (abreast_look _).bind fun size => (abreast_edit _).bind fun _ =>
        (abreast_edit _).bind fun _ => (abreast_editWith _).discard.bind fun _ =>
          (abreast_record _).bind fun _ => abreast_auditItself

theorem abreast_tryRealloc (p : Option Nat) (n : Nat) :
    Abreast f b (tryRealloc p n : Operation σ (Option Nat)) (tryRealloc p n) := by
  unfold tryRealloc
  split
  · exact (abreast_free hf p).bind fun _ => abreast_pure none
  · cases p with
    | none => exact abreast_tryMalloc hf n
    | some old =>
      refine (abreast_tryMalloc hf n).bind fun q => ?_
      cases q with
      | none => exact abreast_pure none
      | some new =>
        exact (abreast_look _).bind fun kept => (abreast_edit _).bind fun _ =>
          (abreast_free hf _).bind fun _ => (abreast_record _).bind fun _ => abreast_pure _

theorem abreast_tryCalloc (count size : Nat) :
    Abreast f b (tryCalloc count size : Operation σ (Option Nat)) (tryCalloc count size) := by
  unfold tryCalloc
  split
  · refine (abreast_tryMalloc hf _).bind fun q => ?_
    cases q with
    | none => exact abreast_pure none
    | some p => exact (abreast_edit _).bind fun _ => abreast_pure _
  · exact abreast_fail _

end Operations

end Heap

end SegFit
