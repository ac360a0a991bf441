import SegFit.Proofs.Client.Aliasing
/-!
# How much a payload wastes, and for how long

A payload has the bytes it was requested with, rounded up to the alignment,
or one step of the alignment more: what is left of a block is a block of its
own unless it is smaller than one can be, and all sizes are multiples of the
alignment (`Layout.Snug`). No later call changes that, to whatever neighbour
it does something, for as long as the client owns the payload
(`Client.Reachable.bounded_waste`).
-/

namespace SegFit

/-- **A payload of `k` bytes for a request of `n`**: the request rounded up,
or one step of the alignment more. -/
def Layout.Snug (n k : Nat) : Prop :=
  k = Layout.alignUp n ∨ k = Layout.alignUp n + Layout.alignment

/-- So it has room for the request, and wastes fifteen bytes at most. -/
theorem Layout.Snug.bounds {n k : Nat} (h : Snug n k) : n ≤ k ∧ k ≤ n + 15 := by
  simp only [Snug, alignUp, alignment] at h
  omega

/-- The bytes of the payload that a call asks for, if it asks for one. -/
def Call.requested : Call → Option Nat
  | .malloc n | .tryMalloc n | .realloc _ n | .tryRealloc _ n => some n
  | .calloc count size | .tryCalloc count size => some (count * size)
  | .init | .free _ | .write .. => none

variable {σ : Type} [Store σ]

namespace Heap

variable {h h' : Heap σ} {d : Directory} {χ : Chart} {b : Block} {n need : Nat}

/-- **A payload that an operation gives** for a request of `n` bytes is snug. -/
def GivesSnug (n : Nat) (r : Except Failure (Option Nat)) (h : Heap σ) : Prop :=
  ∀ p, r = .ok (some p) → Layout.Snug n (h.memory.usableSize p)

/-- A served block is snug. -/
theorem Charted.snug (hc : h.Charted d χ) (hn : 0 < n)
    (hneed : Layout.blockSizeFor? n = some need) (hle : need ≤ b.size)
    (hb : Chart.served b need ∈ χ.blocks) : Layout.Snug n (h.memory.usableSize b.payload) := by
  obtain ⟨-, -, hlarge, h8, -⟩ := Layout.blockSizeFor?_eq_some hneed
  have hround := Layout.blockSizeFor?_eq_alignUp hneed hn
  have hproper := (hc.depicts.tiles.bounds hb).2.2
  have husable : h.memory.usableSize b.payload = (Chart.served b need).size - 8 :=
    hc.depicts.usableSize_eq hb
  rw [husable, Layout.Snug]
  simp only [Layout.tags, Layout.alignment] at hround ⊢
  rcases Chart.size_served hle h8 hproper.aligned with hsize | hsize
  · exact .inl (by omega)
  · exact .inr (by omega)

omit [Store σ] in
theorem GivesSnug.of_ne {r : Except Failure (Option Nat)} (hnone : ∀ p, r ≠ .ok (some p)) :
    GivesSnug n r h :=
  fun p hp => absurd hp (hnone p)

variable [Store.Lawful σ]

theorem ends_tryMalloc_snug (hs : h.Shows χ) (hn : 0 < n) :
    Ends (tryMalloc n) h (GivesSnug n) := by
  refine (ends_tryMalloc_allots hs n).mono ?_
  rintro r h' (⟨-, hnone⟩ | ⟨d, χ₁, h₁, -, -, ha⟩)
  · exact .of_ne hnone
  · cases ha with
    | nothing => exact .of_ne (by simp)
    | oversized => exact .of_ne (by simp)
    | refused => exact .of_ne (by simp)
    | served _ hneed _ hle hcharted _ _ hblocks =>
      intro p hp
      cases hp
      exact hcharted.snug hn hneed hle ((hblocks _ rfl).2 (.inr rfl))

/-- The fill of a payload does not change its size. -/
theorem ends_tryCalloc_snug (hs : h.Shows χ) {count size : Nat} (hn : 0 < count * size) :
    Ends (tryCalloc count size) h (GivesSnug (count * size)) := by
  rw [ends_tryCalloc]
  split
  · refine ((ends_tryMalloc_snug hs hn).and (ends_tryMalloc_takes hs _)).mono ?_
    rintro r h₁ ⟨hsnug, htakes⟩
    match r with
    | .error e => exact .of_ne (by simp)
    | .ok none => exact .of_ne (by simp)
    | .ok (some p) =>
      obtain ⟨b, χ₁, rfl, hg⟩ := htakes
      obtain ⟨d, hc⟩ := hg.shows.charted_of_mem hg.mem
      obtain ⟨hc', -⟩ := hc.zero hg.mem hg.isAllocated rfl
      intro p hp
      cases hp
      have hkept := hc'.depicts.usableSize_eq hg.mem
      have hbefore := hc.depicts.usableSize_eq hg.mem
      dsimp only at hkept ⊢
      rw [hkept, ← hbefore]
      exact hsnug _ rfl
  · exact .of_ne (by simp)

theorem ends_tryRealloc_snug (hs : h.Shows χ) {p : Option Nat}
    (hp : ∀ q ∈ p, ∃ b ∈ χ.blocks, b.isAllocated = true ∧ b.payload = q) (hn : 0 < n) :
    Ends (tryRealloc p n) h (GivesSnug n) := by
  have hn' : n ≠ 0 := Nat.ne_of_gt hn
  match p with
  | none =>
    rw [tryRealloc, if_neg hn']
    exact ends_tryMalloc_snug hs hn
  | some p =>
    obtain ⟨b, hb, halloc, rfl⟩ := hp p rfl
    obtain ⟨d, hc⟩ := hs.charted_of_mem hb
    refine (ends_tryRealloc hc hb halloc hn').mono ?_
    intro r h' hr
    cases hr with
    | refused => exact .of_ne (by simp)
    | @moved _ need χ₁ f hneed _ hle hcharted _ _ hne _ hblocks =>
      intro q hq
      cases hq
      have hother : Chart.served f need ≠ b := fun heq => hne (heq ▸ rfl)
      exact hcharted.snug hn hneed hle ((hblocks _ rfl).2 ⟨.inr rfl, hother⟩)

omit [Store σ] [Store.Lawful σ] in
theorem ends_orNull_snug {x : Operation σ (Option Nat)} {f : Failure → Record}
    (hx : Ends x h (GivesSnug n)) : Ends (orNull x f) h (GivesSnug n) := by
  rw [ends_orNull]
  refine hx.mono ?_
  intro r h' hr
  match r with
  | .ok p => exact hr
  | .error e => exact .of_ne (by simp)

end Heap

namespace Client

variable {s : Client σ} {c : Call} {χ : Chart} {cs : List Call} {n p : Nat}

/-- **The client owns the payload at `p` all along**, before the calls and
after each of them. -/
def Holds (s : Client σ) (p : Nat) : List Call → Prop
  | [] => s.Owns p
  | c :: cs => s.Owns p ∧ (s.step c).Holds p cs

theorem Holds.owns (h : s.Holds p cs) : s.Owns p := by
  cases cs with
  | nil => exact h
  | cons c cs => exact h.1

/-- What is asked for and given is owned from then on. -/
theorem owns_step (hreq : c.requested = some n) (hn : 0 < n) (ha : s.Answers c (.ok (some p))) :
    (s.step c).Owns p := by
  have hn' : n ≠ 0 := Nat.ne_of_gt hn
  obtain ⟨h', hrun⟩ := ha
  have hshadow : (s.step c).shadow = c.settle s.heap h' (some p) s.shadow := by
    rw [step, hrun]
    rfl
  unfold Owns
  rw [hshadow]
  have hgiven : ∀ (w : Shadow) (bytes : Nat → UInt8),
      (Function.update w p (some bytes) p).isSome := fun w bytes => by
    rw [Function.update_self]
    rfl
  cases c with
  | malloc k => exact hgiven ..
  | tryMalloc k => exact hgiven ..
  | calloc count size => exact hgiven ..
  | tryCalloc count size => exact hgiven ..
  | realloc q k =>
    cases hreq
    rw [Call.settle, if_neg hn']
    exact hgiven ..
  | tryRealloc q k =>
    cases hreq
    rw [Call.settle, if_neg hn']
    exact hgiven ..
  | _ => cases hreq

variable [Store.Lawful σ]

theorem Tracks.ends_perform_snug (ht : Tracks s.heap s.shadow χ) (hc : s.Allows c)
    (hreq : c.requested = some n) (hn : 0 < n) :
    Heap.Ends c.perform s.heap (Heap.GivesSnug n) := by
  have hsubject := ht.allocated_of_subject hc
  cases c with
  | malloc k =>
    cases hreq
    exact Heap.ends_orNull_snug (Heap.ends_tryMalloc_snug ht.shows hn)
  | tryMalloc k =>
    cases hreq
    exact Heap.ends_tryMalloc_snug ht.shows hn
  | calloc count size =>
    cases hreq
    exact Heap.ends_orNull_snug (Heap.ends_tryCalloc_snug ht.shows hn)
  | tryCalloc count size =>
    cases hreq
    exact Heap.ends_tryCalloc_snug ht.shows hn
  | realloc q k =>
    cases hreq
    exact Heap.ends_orNull_snug (Heap.ends_tryRealloc_snug ht.shows hsubject hn)
  | tryRealloc q k =>
    cases hreq
    exact Heap.ends_tryRealloc_snug ht.shows hsubject hn
  | _ => cases hreq

/-- **A call leaves alone** what it does not give back or move. -/
theorem Reachable.owns_step_of_ne (hs : Reachable s) (hc : s.Allows c) (hp : s.Owns p)
    (hne : c.subject ≠ some p) : (s.step c).Owns p := by
  obtain ⟨χ, ht⟩ := hs.sound
  exact (ht.spares hc p hp).1.resolve_right hne

/-- So do many calls. -/
theorem Reachable.holds_of_ne (hs : Reachable s) (hcs : s.AllowsAll cs) (hp : s.Owns p)
    (hne : ∀ c ∈ cs, c.subject ≠ some p) : s.Holds p cs := by
  induction cs generalizing s with
  | nil => exact hp
  | cons c cs ih =>
    have hp' := hs.owns_step_of_ne hcs.1 hp (hne c List.mem_cons_self)
    exact ⟨hp, ih (hs.step hcs.1) hcs.2 hp' fun e he => hne e (List.mem_cons_of_mem _ he)⟩

/-- A payload that is still owned has its old size. -/
theorem Reachable.usable_step (hs : Reachable s) (hc : s.Allows c) (hp : s.Owns p)
    (hp' : (s.step c).Owns p) : (s.step c).usable p = s.usable p := by
  obtain ⟨χ, ht⟩ := hs.sound
  exact ((ht.spares hc p hp).2 hp').1

/-- It has it after any calls. -/
theorem Reachable.usable_run (hs : Reachable s) (hcs : s.AllowsAll cs) (hp : s.Holds p cs) :
    (s.run cs).usable p = s.usable p := by
  induction cs generalizing s with
  | nil => rfl
  | cons c cs ih =>
    have hstep := hs.usable_step hcs.1 hp.1 hp.2.owns
    exact (ih (hs.step hcs.1) hcs.2 hp.2).trans hstep

/-- **A payload wastes at most fifteen bytes, all its life.** It is given with
a snug size, and has that size for as long as the client owns it, which is
until the client gives it back or moves it. -/
theorem Reachable.bounded_waste (hs : Reachable s) (hc : s.Allows c)
    (hreq : c.requested = some n) (hn : 0 < n) (ha : s.Answers c (.ok (some p))) :
    (s.step c).Owns p ∧ Layout.Snug n ((s.step c).usable p) ∧
      n ≤ (s.step c).usable p ∧ (s.step c).usable p ≤ n + 15 ∧
      ∀ cs, (s.step c).AllowsAll cs →
        ((∀ c' ∈ cs, c'.subject ≠ some p) → (s.step c).Holds p cs) ∧
          ((s.step c).Holds p cs → ((s.step c).run cs).usable p = (s.step c).usable p) := by
  have howns := owns_step hreq hn ha
  have hsnug : Layout.Snug n ((s.step c).usable p) := by
    obtain ⟨χ, ht⟩ := hs.sound
    obtain ⟨h', hrun⟩ := ha
    have hgives := ht.ends_perform_snug hc hreq hn
    rw [Heap.ends_of_ok hrun] at hgives
    have hheap : (s.step c).heap = h' := by
      rw [Client.step, hrun]
      rfl
    rw [usable, hheap]
    exact hgives p rfl
  obtain ⟨hlow, hhigh⟩ := hsnug.bounds
  refine ⟨howns, hsnug, hlow, hhigh, fun cs hcs => ⟨?_, ?_⟩⟩
  · exact (hs.step hc).holds_of_ne hcs howns
  · exact (hs.step hc).usable_run hcs

/-- Sixteen bytes get twenty-four, as what would be left of the block is too
small to be one. They keep them when the neighbour is given back and what that
leaves is cut again. -/
theorem sample_bounded_waste :
    sample.Allows (.malloc 16) ∧ (Call.malloc 16).requested = some 16 ∧
      sample.Answers (.malloc 16) (.ok (some 72)) ∧ (sample.step (.malloc 16)).usable 72 = 24 ∧
      (sample.step (.malloc 16)).AllowsAll [.free (some 104), .malloc 4040] ∧
      ((sample.step (.malloc 16)).run [.free (some 104), .malloc 4040]).usable 72 = 24 := by
  have hallows : sample.Allows (.malloc 16) := by decide +kernel
  have hanswers : sample.Answers (.malloc 16) (.ok (some 72)) := by
    unfold Answers
    decide +kernel
  have hsize : (sample.step (.malloc 16)).usable 72 = 24 := by decide +kernel
  have hcs : (sample.step (.malloc 16)).AllowsAll [.free (some 104), .malloc 4040] := by
    decide +kernel
  obtain ⟨-, -, -, -, hlater⟩ := reachable_sample.bounded_waste hallows rfl (by decide) hanswers
  obtain ⟨hholds, hkept⟩ := hlater _ hcs
  refine ⟨hallows, rfl, hanswers, hsize, hcs, ?_⟩
  rw [hkept (hholds (by decide)), hsize]

end Client

end SegFit
