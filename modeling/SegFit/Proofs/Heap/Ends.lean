import SegFit.Heap.Allocation
/-!
# How operations end

`Ends x h Q` says that the operation `x`, begun in the heap `h`, ends with
an answer and a heap that `Q` holds of; the answer may be the cause of a
failure, but not an inconsistency. There is one lemma for each step an
operation is made of, so that what a whole operation does is read off
its text.
-/

namespace SegFit

namespace Heap

variable {σ α β : Type} {h : Heap σ}

/-- **An operation ends as said.** -/
def Ends (x : Operation σ α) (h : Heap σ) (Q : Except Failure α → Heap σ → Prop) : Prop :=
  match x h with
  | .ok a h' => Q (.ok a) h'
  | .error (.failed e) h' => Q (.error e) h'
  | .error (.inconsistent _) _ => False

variable {Q R : Except Failure α → Heap σ → Prop}

theorem Ends.mono {x : Operation σ α} (hx : Ends x h Q) (hsub : ∀ r h', Q r h' → R r h') :
    Ends x h R := by
  unfold Ends at *
  split
  · rename_i heq
    rw [heq] at hx
    exact hsub _ _ hx
  · rename_i heq
    rw [heq] at hx
    exact hsub _ _ hx
  · rename_i heq
    rw [heq] at hx
    exact hx

@[simp] theorem ends_pure {a : α} : Ends (pure a) h Q ↔ Q (.ok a) h := Iff.rfl

theorem get_bind {f : Heap σ → Operation σ α} : (get >>= f) h = f h h := rfl

theorem bind_of_ok {x : Operation σ β} {f : β → Operation σ α} {b : β} {h' : Heap σ}
    (hx : x h = .ok b h') : (x >>= f) h = f b h' := by
  change EStateM.bind x f h = f b h'
  rw [EStateM.bind, hx]

theorem bind_of_error {x : Operation σ β} {f : β → Operation σ α} {stop : Stop} {h' : Heap σ}
    (hx : x h = .error stop h') : (x >>= f) h = .error stop h' := by
  change EStateM.bind x f h = .error stop h'
  rw [EStateM.bind, hx]

theorem bind_congr_apply {x : Operation σ β} {f : β → Operation σ α} {h' : Heap σ}
    (hx : x h = x h') : (x >>= f) h = (x >>= f) h' := by
  change EStateM.bind x f h = EStateM.bind x f h'
  rw [EStateM.bind, EStateM.bind, hx]

/-- **One operation after another**: a failure of the first is the
failure of both. -/
@[simp] theorem ends_bind {x : Operation σ β} {f : β → Operation σ α} :
    Ends (x >>= f) h Q ↔
      Ends x h fun r h' => match r with
        | .ok b => Ends (f b) h' Q
        | .error e => Q (.error e) h' := by
  simp only [Ends, bind, EStateM.bind]
  cases x h with
  | ok a h' => rfl
  | error s h' => cases s <;> rfl

@[simp] theorem ends_map {x : Operation σ β} {f : β → α} :
    Ends (f <$> x) h Q ↔
      Ends x h fun r h' => match r with
        | .ok b => Q (.ok (f b)) h'
        | .error e => Q (.error e) h' := by
  simp only [Ends, Functor.map, EStateM.map]
  cases x h with
  | ok a h' => rfl
  | error s h' => cases s <;> rfl

theorem Ends.congr {x : Operation σ α} (hQR : ∀ r h', Q r h' ↔ R r h') :
    Ends x h Q ↔ Ends x h R :=
  ⟨fun hx => hx.mono fun r h' => (hQR r h').1, fun hx => hx.mono fun r h' => (hQR r h').2⟩

@[simp] theorem ends_discard {x : Operation σ β} {Q : Except Failure PUnit → Heap σ → Prop} :
    Ends (discard x) h Q ↔
      Ends x h fun r h' => match r with
        | .ok _ => Q (.ok ⟨⟩) h'
        | .error e => Q (.error e) h' :=
  ends_map (f := fun _ => PUnit.unit)

@[simp] theorem ends_get {Q : Except Failure (Heap σ) → Heap σ → Prop} :
    Ends get h Q ↔ Q (.ok h) h := Iff.rfl

@[simp] theorem ends_modify {Q : Except Failure PUnit → Heap σ → Prop} {f : Heap σ → Heap σ} :
    Ends (modify f) h Q ↔ Q (.ok ⟨⟩) (f h) := Iff.rfl

@[simp] theorem ends_record {Q : Except Failure Unit → Heap σ → Prop} {r : Record} :
    Ends (record r) h Q ↔ Q (.ok ()) { h with journal := h.journal.push r } := Iff.rfl

@[simp] theorem ends_look {f : Memory → α} : Ends (look f) h Q ↔ Q (.ok (f h.memory)) h := Iff.rfl

@[simp] theorem ends_edit {Q : Except Failure Unit → Heap σ → Prop} {f : Memory → Memory} :
    Ends (edit f) h Q ↔ Q (.ok ()) { h with memory := f h.memory } := Iff.rfl

@[simp] theorem ends_editWith {f : Memory → α × Memory} :
    Ends (editWith f) h Q ↔ Q (.ok (f h.memory).1) { h with memory := (f h.memory).2 } := Iff.rfl

@[simp] theorem ends_fail {e : Failure} : Ends (fail e) h Q ↔ Q (.error e) h := Iff.rfl

@[simp] theorem ends_orFail {e : Failure} {a : Option α} :
    Ends (orFail e a) h Q ↔ match a with
      | some a => Q (.ok a) h
      | none => Q (.error e) h := by
  cases a <;> rfl

/-- An attempt answers what its operation ends with. -/
@[simp] theorem ends_attempt {x : Operation σ β}
    {Q : Except Failure (Except Failure β) → Heap σ → Prop} :
    Ends (attempt x) h Q ↔ Ends x h fun r h' => Q (.ok r) h' := by
  simp only [Ends, attempt]
  cases x h with
  | ok a h' => rfl
  | error s h' => cases s <;> rfl

@[simp] theorem ends_request [Store σ] {Q : Except Failure Nat → Heap σ → Prop} {n : Nat} :
    Ends (request n) h Q ↔
      Q (Store.grow n h.store).answer
        { h with
          store := (Store.grow n h.store).store
          journal := h.journal.appendList (Store.grow n h.store).records } := by
  simp only [Ends, request]
  cases (Store.grow n h.store).answer <;> rfl

/-- A heap that audits itself goes on if nothing is wrong with it. -/
theorem ends_auditItself [Store σ] {Q : Except Failure Unit → Heap σ → Prop}
    (hok : h.auditsItself = true → h.violations = []) :
    Ends auditItself h Q ↔ Q (.ok ()) h := by
  simp only [auditItself, ends_bind, ends_get]
  cases haudits : h.auditsItself with
  | false => rfl
  | true =>
    have hreport : audit none h = .ok ⟨none, []⟩ h := by
      rw [audit, hok haudits]
      rfl
    simp only [Ends, if_true, bind, EStateM.bind, hreport]
    rfl

/-- **What an operation that ends as said gives**, as a result. -/
theorem Ends.cases {x : Operation σ α} (hx : Ends x h Q) :
    (∃ a h', x h = .ok a h' ∧ Q (.ok a) h') ∨
      ∃ e h', x h = .error (.failed e) h' ∧ Q (.error e) h' := by
  unfold Ends at hx
  split at hx
  · rename_i a h' heq
    exact .inl ⟨a, h', heq, hx⟩
  · rename_i e h' heq
    exact .inr ⟨e, h', heq, hx⟩
  · exact hx.elim

/-- An operation whose result is known ends with that result. -/
theorem ends_of_ok {x : Operation σ α} {a : α} {h' : Heap σ} (hx : x h = .ok a h') :
    Ends x h Q ↔ Q (.ok a) h' := by
  rw [Ends, hx]

theorem ends_of_failed {x : Operation σ α} {e : Failure} {h' : Heap σ}
    (hx : x h = .error (.failed e) h') : Ends x h Q ↔ Q (.error e) h' := by
  rw [Ends, hx]

/-- Whether a run gives what is expected can be computed. -/
instance decidableGives [DecidableEq α] (r : EStateM.Result Stop (Heap σ) α) (a : α) :
    Decidable (∃ h', r = .ok a h') :=
  match r with
  | .ok b h' => decidable_of_iff (b = a)
      ⟨fun hab => ⟨h', hab ▸ rfl⟩, fun ⟨_, heq⟩ => (EStateM.Result.ok.inj heq).1⟩
  | .error _ _ => isFalse fun ⟨_, heq⟩ => by cases heq

/-- How an operation ends is a matter of its result. -/
theorem ends_congr {x y : Operation σ α} {h' : Heap σ} (hxy : x h = y h') :
    Ends x h Q ↔ Ends y h' Q := by
  rw [Ends, Ends, hxy]

/-- What is said twice of an operation holds together. -/
theorem Ends.and {x : Operation σ α} (hQ : Ends x h Q) (hR : Ends x h R) :
    Ends x h fun r h' => Q r h' ∧ R r h' := by
  rcases hQ.cases with ⟨a, h', hx, hq⟩ | ⟨e, h', hx, hq⟩
  · rw [ends_of_ok hx] at hR ⊢
    exact ⟨hq, hR⟩
  · rw [ends_of_failed hx] at hR ⊢
    exact ⟨hq, hR⟩

-- from here on an operation is opened by the lemmas above only
attribute [irreducible] Ends

end Heap

end SegFit
