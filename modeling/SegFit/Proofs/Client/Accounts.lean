import SegFit.Proofs.Client.Waste
import SegFit.Proofs.Heap.Trace
import Mathlib.Algebra.Ring.Int.Defs
/-!
# What the trace of a run accounts for

The sizes traced as allocated, less those traced as freed, are the bytes in
use but for what allocations leave out: a block that is too small to be cut
is handed out whole, and traced with the size the request asks for, while a
release is traced with the size the block has (`Heap.Books`). So the trace
accounts for the heap as long as every payload that was given has the size
of its request, rounded up, and else says less than there is
(`Client.trace_accounts`).
-/

namespace SegFit

namespace Record

/-- What a record says of the bytes in use. -/
def credit : Record → Int
  | allocated _ _ size => size
  | freed _ size => -size
  | _ => 0

/-- The sizes allocated, less the sizes freed. -/
def credits (l : List Record) : Int := (l.map credit).sum

@[simp] theorem credits_nil : credits [] = 0 := rfl

@[simp] theorem credits_cons (r : Record) (l : List Record) :
    credits (r :: l) = r.credit + credits l :=
  List.sum_cons

@[simp] theorem credits_append (l l' : List Record) :
    credits (l ++ l') = credits l + credits l' := by
  simp only [credits, List.map_append, List.sum_append]

end Record

open Record (credits credits_nil credits_cons credits_append)

variable {σ : Type}

/-- The bytes that a payload has beyond its request, rounded up; none if there
is no payload. -/
def Heap.spare (after : Heap σ) (n : Nat) : Option Nat → Nat
  | none => 0
  | some p => after.memory.usableSize p - Layout.alignUp n

namespace Call

/-- **What a call traces**, when it gives the pointer `q`, in a heap that was
`before` and is `after`. -/
def trace (before after : Heap σ) (q : Option Nat) : Call → List Record
  | .init | .write .. => []
  | .malloc n | .tryMalloc n => Heap.allotment n q
  | .calloc count size | .tryCalloc count size => Heap.allotment (count * size) q
  | .free p => before.surrender p
  | .realloc p n | .tryRealloc p n =>
    if n = 0 then before.surrender p
    else match p with
      | none => Heap.allotment n q
      | some old => before.relocation after old n q

/-- What its trace leaves out of the bytes in use. -/
def spare (after : Heap σ) (q : Option Nat) (c : Call) : Nat :=
  c.requested.elim 0 fun n => after.spare n q

end Call

variable [Store σ]

namespace Heap

variable {h h' h'' : Heap σ} {χ : Chart} {b : Block} {n : Nat} {l l' : List Record} {k k' : Nat}

/-- **The books of a change**: the trace has the records `l` more, and the bytes
in use are what they say and `k` more. -/
structure Books (h h' : Heap σ) (l : List Record) (k : Nat) : Prop where
  trace : h'.trace = h.trace ++ l
  occupied : (h'.occupied : Int) = h.occupied + credits l + k

namespace Books

theorem refl (h : Heap σ) : Books h h [] 0 :=
  ⟨(List.append_nil _).symm, by simp⟩

theorem trans (h₁ : Books h h' l k) (h₂ : Books h' h'' l' k') :
    Books h h'' (l ++ l') (k + k') := by
  refine ⟨by rw [h₂.trace, h₁.trace, List.append_assoc], ?_⟩
  rw [h₂.occupied, h₁.occupied, credits_append]
  omega

theorem of_same (htrace : h'.trace = h.trace) (hoccupied : h'.occupied = h.occupied) :
    Books h h' [] 0 :=
  ⟨htrace.trans (List.append_nil _).symm, by simp [hoccupied]⟩

/-- A record of another level is not in the books. -/
theorem push {r : Record} (hb : Books h h' l k) (hr : r.level ≠ .trace) :
    Books h { h' with journal := h'.journal.push r } l k :=
  ⟨(trace_push_of_ne (h := h') rfl hr).trans hb.trace, hb.occupied⟩

end Books

/-- **An allocation's books**, for a payload that is snug. -/
theorem Takes.books {r : Except Failure (Option Nat)} (hs : h.Shows χ) (hr : Takes h χ r h')
    (hsnug : GivesSnug n r h') (htrace : h'.trace = h.trace ++ allotment n r.toOption.join) :
    Books h h' (allotment n r.toOption.join) (h'.spare n r.toOption.join) := by
  match r with
  | .error e =>
    obtain ⟨χ', hp⟩ := Leaves.preserves hs hr
    exact .of_same (htrace.trans (List.append_nil _)) (hp.occupied hs)
  | .ok none =>
    obtain ⟨χ', hp⟩ := Leaves.preserves hs hr
    exact .of_same (htrace.trans (List.append_nil _)) (hp.occupied hs)
  | .ok (some p) =>
    obtain ⟨b, χ', rfl, hg⟩ := hr
    obtain ⟨d, hc⟩ := hg.shows.charted_of_mem hg.mem
    have hlarge := (hc.depicts.tiles.bounds hg.mem).2.2.large
    have husable : h'.memory.usableSize b.payload = b.size - 8 := hc.depicts.usableSize_eq hg.mem
    have hgains := hg.occupied hs
    refine ⟨htrace, ?_⟩
    have hpayload := (hsnug _ rfl).bounds.1
    have hsnug := hsnug _ rfl
    simp only [Except.toOption, Option.join_some, allotment, spare, credits_cons, credits_nil,
      Record.credit, Layout.tags, hgains]
    simp only [Layout.Snug] at hsnug
    omega

variable [Store.Lawful σ]

/-- A request for no bytes gives no pointer. -/
theorem ends_tryMalloc_zero (hs : h.Shows χ) :
    Ends (tryMalloc 0) h fun r _ => ∀ p, r ≠ .ok (some p) := by
  refine (ends_tryMalloc_allots hs 0).mono ?_
  rintro r h' (⟨-, hnone⟩ | ⟨d, χ₁, h₁, -, -, ha⟩)
  · exact hnone
  · cases ha with
    | nothing => exact nofun
    | oversized => exact nofun
    | refused => exact nofun
    | served hn => exact absurd rfl hn

variable [Store.Untraced σ]

theorem ends_tryMalloc_books (hs : h.Shows χ) (n : Nat) :
    Ends (tryMalloc n) h fun r h' =>
      Books h h' (allotment n r.toOption.join) (h'.spare n r.toOption.join) := by
  have hsnug : Ends (tryMalloc n) h (GivesSnug n) := by
    rcases Nat.eq_zero_or_pos n with rfl | hn
    · exact (ends_tryMalloc_zero hs).mono fun r h' hr => .of_ne hr
    · exact ends_tryMalloc_snug hs hn
  have htakes := ends_tryMalloc_takes hs n
  refine ((htakes.and hsnug).and htakes.tryMalloc_trace).mono ?_
  rintro r h' ⟨⟨hr, hsnug⟩, htrace⟩
  exact hr.books hs hsnug htrace

theorem ends_tryCalloc_books (hs : h.Shows χ) (count size : Nat) :
    Ends (tryCalloc count size) h fun r h' =>
      Books h h' (allotment (count * size) r.toOption.join)
        (h'.spare (count * size) r.toOption.join) := by
  have hsnug : Ends (tryCalloc count size) h (GivesSnug (count * size)) := by
    rcases Nat.eq_zero_or_pos (count * size) with hn | hn
    · rw [ends_tryCalloc, hn]
      split
      · refine (ends_tryMalloc_zero hs).mono ?_
        intro r h' hr
        match r with
        | .ok (some p) => exact absurd rfl (hr p)
        | .ok none => exact .of_ne nofun
        | .error e => exact .of_ne nofun
      · exact .of_ne nofun
    · exact ends_tryCalloc_snug hs hn
  refine (((ends_tryCalloc_takes hs count size).and hsnug).and
    (ends_tryCalloc_trace (ends_tryMalloc_takes hs _))).mono ?_
  rintro r h' ⟨⟨⟨hr, -⟩, hsnug⟩, htrace⟩
  exact hr.books hs hsnug htrace

/-- **A release's books**: nothing is left out. -/
theorem ends_free_books (hs : h.Shows χ) {p : Option Nat}
    (hp : ∀ q ∈ p, ∃ b ∈ χ.blocks, b.isAllocated = true ∧ b.payload = q) :
    Ends (free p) h fun _ h' => Books h h' (h.surrender p) 0 := by
  match p with
  | none =>
    refine ((ends_free_preserves hs).and ends_free_none_trace).mono ?_
    rintro r h' ⟨⟨-, χ', hpres⟩, htrace⟩
    exact .of_same htrace (hpres.occupied hs)
  | some p =>
    obtain ⟨b, hb, halloc, rfl⟩ := hp p rfl
    obtain ⟨d, hc⟩ := hs.charted_of_mem hb
    have hfrees := ends_free_loses hs hb halloc
    refine (hfrees.and (hfrees.free_trace hc.directory)).mono ?_
    rintro r h' ⟨⟨-, χ', hl⟩, htrace⟩
    have hloses := hl.occupied hs hb halloc
    have hblock := hc.depicts.blockSize_eq hb
    refine ⟨htrace, ?_⟩
    simp only [surrender, credits_cons, credits_nil, Record.credit, hblock]
    omega

/-- **A move's books**: what is left out is the new payload's. -/
theorem ends_tryRealloc_books (hs : h.Shows χ) (hb : b ∈ χ.blocks)
    (halloc : b.isAllocated = true) (hn : n ≠ 0) :
    Ends (tryRealloc (some b.payload) n) h fun r h' =>
      Books h h' (h.relocation h' b.payload n r.toOption.join) (h'.spare n r.toOption.join) := by
  have hsnug := ends_tryRealloc_snug hs (p := some b.payload)
    (by rintro q ⟨⟩; exact ⟨b, hb, halloc, rfl⟩) (Nat.pos_of_ne_zero hn)
  refine (((ends_tryRealloc_trades hs hb halloc hn).and hsnug).and
    (ends_tryRealloc_trace hs hb halloc hn)).mono ?_
  rintro r h' ⟨⟨⟨e, rfl, hidle⟩ | ⟨f, χ', rfl, hx⟩, hsnug⟩, htrace⟩
  · exact .of_same (htrace.trans (List.append_nil _)) ((Preserves.of_idle hs hidle).occupied hs)
  · obtain ⟨d, hc⟩ := hs.charted_of_mem hb
    obtain ⟨d', hc'⟩ := hx.shows.charted_of_mem hx.mem
    have hlarge := (hc'.depicts.tiles.bounds hx.mem).2.2.large
    have husable : h'.memory.usableSize f.payload = f.size - 8 := hc'.depicts.usableSize_eq hx.mem
    have htrades := hx.occupied hs hb halloc
    have hblock := hc.depicts.blockSize_eq hb
    have hsnug := hsnug _ rfl
    refine ⟨htrace, ?_⟩
    simp only [Layout.Snug] at hsnug
    simp only [Except.toOption, Option.join_some, relocation, allotment, surrender, spare,
      credits_append, credits_cons, credits_nil, Record.credit, hblock, Layout.tags]
    omega

/-- Initialization traces nothing. -/
theorem ends_init_books (hs : h.Shows χ) : Ends init h fun _ h' => Books h h' [] 0 := by
  refine ((ends_init_preserves hs).and ends_init_trace).mono ?_
  rintro r h' ⟨⟨⟨χ', hp⟩, -⟩, htrace⟩
  exact .of_same htrace (hp.occupied hs)

end Heap

namespace Client

variable {s : Client σ} {h : Heap σ} {c : Call} {cs later : List Call} {χ : Chart} {n p k : Nat}

/-- **What calls trace**, one after the other. -/
def traced (s : Client σ) : List Call → List Record
  | [] => []
  | c :: cs => c.trace s.heap (s.step c).heap (s.gets c) ++ (s.step c).traced cs

/-- **The bytes in use that calls leave out of the trace.** -/
def untraced (s : Client σ) : List Call → Nat
  | [] => 0
  | c :: cs => c.spare (s.step c).heap (s.gets c) + (s.step c).untraced cs

/-- What is the books of an operation is the books of its lenient form. -/
theorem ends_orNull_books {x : Operation σ (Option Nat)} {f : Failure → Record}
    (hf : ∀ e, (f e).level ≠ .trace)
    (hx : Heap.Ends x h fun r h' =>
      Heap.Books h h' (c.trace h h' r.toOption.join) (c.spare h' r.toOption.join)) :
    Heap.Ends (Heap.orNull x f) h fun r h' =>
      Heap.Books h h' (c.trace h h' r.toOption.join) (c.spare h' r.toOption.join) := by
  rw [Heap.ends_orNull]
  refine hx.mono ?_
  intro r h' hb
  match r with
  | .ok q => exact hb
  | .error e =>
    have hb' := hb.push (hf e)
    cases c <;> exact hb'

/-- Nor is it other for an operation that gives no pointer. -/
theorem ends_none_books {x : Operation σ Unit}
    (hx : Heap.Ends x h fun _ h' => Heap.Books h h' (c.trace h h' none) (c.spare h' none)) :
    Heap.Ends (do x; return none) h fun r h' =>
      Heap.Books h h' (c.trace h h' r.toOption.join) (c.spare h' r.toOption.join) := by
  rw [Heap.ends_bind]
  refine hx.mono ?_
  intro r h' hb
  match r with
  | .ok () =>
    simp only [Heap.ends_pure]
    exact hb
  | .error e => exact hb

variable [Store.Lawful σ] [Store.Untraced σ]

theorem ends_realloc_books (hs : h.Shows χ) {p : Option Nat} {n : Nat}
    (hp : ∀ q ∈ p, ∃ b ∈ χ.blocks, b.isAllocated = true ∧ b.payload = q) :
    Heap.Ends (Heap.tryRealloc p n) h fun r h' =>
      Heap.Books h h' ((Call.tryRealloc p n).trace h h' r.toOption.join)
        ((Call.tryRealloc p n).spare h' r.toOption.join) := by
  by_cases hn : n = 0
  · subst hn
    unfold Heap.tryRealloc
    rw [if_pos rfl]
    exact ends_none_books (c := .tryRealloc p 0) (Heap.ends_free_books hs hp)
  · simp only [Call.trace, if_neg hn]
    cases p with
    | none =>
      unfold Heap.tryRealloc
      rw [if_neg hn]
      exact Heap.ends_tryMalloc_books hs n
    | some p =>
      obtain ⟨b, hb, halloc, rfl⟩ := hp p rfl
      exact Heap.ends_tryRealloc_books hs hb halloc hn

omit [Store.Lawful σ] [Store.Untraced σ] in
/-- What a client writes to a payload changes no book. -/
theorem ends_write_books (ht : Tracks s.heap s.shadow χ) {i : Nat} {v : UInt8}
    (hp : (s.shadow p).isSome) (hi : i < s.heap.memory.usableSize p) :
    Heap.Ends (Heap.edit (·.setByte (p + i) v)) s.heap fun _ h' => Heap.Books s.heap h' [] 0 := by
  rw [Heap.ends_edit]
  obtain ⟨b, hb, halloc, rfl⟩ := (ht.owned_iff p).1 hp
  obtain ⟨d, hc⟩ := ht.shows.charted_of_mem hb
  rw [hc.depicts.usableSize_eq hb] at hi
  have hset : ∀ a, ¬ (b.payload ≤ a ∧ a < b.payload + (b.size - 8)) →
      (s.heap.memory.setByte (b.payload + i) v).byte a = s.heap.memory.byte a := fun a ha => by
    rw [Memory.byte_setByte, if_neg (by omega)]
  obtain ⟨hc', -⟩ := hc.write hb halloc hset
  refine .of_same rfl ?_
  rw [Heap.Shows.occupied_eq (.charted d hc'), ht.shows.occupied_eq]

/-- **The books of a call.** -/
theorem Tracks.ends_perform_books (ht : Tracks s.heap s.shadow χ) (hc : s.Allows c) :
    Heap.Ends c.perform s.heap fun r h' => Heap.Books s.heap h'
      (c.trace s.heap h' r.toOption.join) (c.spare h' r.toOption.join) := by
  have hsubject := ht.allocated_of_subject hc
  cases c with
  | init => exact ends_none_books (c := .init) (Heap.ends_init_books ht.shows)
  | malloc n =>
    exact ends_orNull_books (c := .malloc n) (fun _ => nofun) (Heap.ends_tryMalloc_books ht.shows n)
  | tryMalloc n => exact Heap.ends_tryMalloc_books ht.shows n
  | calloc count size =>
    exact ends_orNull_books (c := .calloc count size) (fun _ => nofun)
      (Heap.ends_tryCalloc_books ht.shows count size)
  | tryCalloc count size => exact Heap.ends_tryCalloc_books ht.shows count size
  | realloc p n =>
    exact ends_orNull_books (c := .realloc p n) (fun _ => nofun)
      (ends_realloc_books ht.shows hsubject)
  | tryRealloc p n => exact ends_realloc_books ht.shows hsubject
  | free p => exact ends_none_books (c := .free p) (Heap.ends_free_books ht.shows hsubject)
  | write p i v => exact ends_none_books (c := .write p i v) (ends_write_books ht hc.1 hc.2)

theorem Reachable.books_step (hs : Reachable s) (hc : s.Allows c) :
    Heap.Books s.heap (s.step c).heap (c.trace s.heap (s.step c).heap (s.gets c))
      (c.spare (s.step c).heap (s.gets c)) := by
  obtain ⟨χ, ht⟩ := hs.sound
  unfold Client.step gets
  rcases (ht.ends_perform_books hc).cases with ⟨q, h', heq, hb⟩ | ⟨e, h', heq, hb⟩
  · rw [heq]
    exact hb
  · rw [heq]
    exact hb

/-- **The books of a run.** -/
theorem Reachable.books_run (hs : Reachable s) (hcs : s.AllowsAll cs) :
    Heap.Books s.heap (s.run cs).heap (s.traced cs) (s.untraced cs) := by
  induction cs generalizing s with
  | nil => exact .refl s.heap
  | cons c cs ih => exact (hs.books_step hcs.1).trans (ih (hs.step hcs.1) hcs.2)

/-! ## What is traced of one payload -/

omit [Store σ] [Store.Lawful σ] [Store.Untraced σ] in
/-- What is given for some bytes is traced with the size they ask for. -/
theorem mem_trace_of_requested {before after : Heap σ} (hreq : c.requested = some n) (hn : 0 < n) :
    .allocated n p (Layout.alignUp n + Layout.tags) ∈ c.trace before after (some p) := by
  have hn' : n ≠ 0 := Nat.ne_of_gt hn
  cases c with
  | realloc old k | tryRealloc old k =>
    cases hreq
    simp only [Call.trace, if_neg hn']
    cases old <;> exact List.mem_cons_self
  | malloc k | tryMalloc k | calloc count size | tryCalloc count size =>
    cases hreq
    exact List.mem_cons_self
  | init | free | write => cases hreq

omit [Store σ] [Store.Lawful σ] [Store.Untraced σ] in
/-- What is given back is traced with the size of its block. -/
theorem eq_of_freed_mem_surrender {before : Heap σ} {q : Option Nat}
    (hin : .freed p k ∈ before.surrender q) : k = before.memory.blockSize p := by
  cases q with
  | none => cases hin
  | some old =>
    cases List.mem_singleton.1 hin
    rfl

omit [Store σ] [Store.Lawful σ] [Store.Untraced σ] in
/-- So is what is moved, and nothing else is traced as given back. -/
theorem eq_of_freed_mem_trace {before after : Heap σ} {q : Option Nat}
    (hin : .freed p k ∈ c.trace before after q) : k = before.memory.blockSize p := by
  have hallotment : ∀ m, .freed p k ∉ Heap.allotment m q := by
    intro m hin
    cases q <;> simp [Heap.allotment] at hin
  have hmoved : ∀ old m, .freed p k ∈ (Call.realloc old m).trace before after q →
      k = before.memory.blockSize p := by
    intro old m hin
    by_cases hm : m = 0
    · simp only [Call.trace, if_pos hm] at hin
      exact eq_of_freed_mem_surrender hin
    · simp only [Call.trace, if_neg hm] at hin
      cases old with
      | none => exact absurd hin (hallotment m)
      | some old =>
        cases q with
        | none => cases hin
        | some q =>
          simp only [Heap.relocation, List.mem_append, List.mem_singleton] at hin
          rcases hin with (hin | hin) | hin
          · exact absurd hin (hallotment m)
          · exact eq_of_freed_mem_surrender hin
          · cases hin
  cases c with
  | malloc | tryMalloc | calloc | tryCalloc => exact absurd hin (hallotment _)
  | realloc old m | tryRealloc old m => exact hmoved old m hin
  | free old => exact eq_of_freed_mem_surrender hin
  | init | write => cases hin

omit [Store.Untraced σ] in
/-- The block of a payload has its bytes and its tags. -/
theorem Reachable.blockSize_eq (hs : Reachable s) (hp : s.Owns p) :
    s.heap.memory.blockSize p = s.usable p + Layout.tags := by
  obtain ⟨χ, ht⟩ := hs.sound
  obtain ⟨b, hb, d, hc, -, rfl, husable⟩ := ht.block_of_owns hp
  have hlarge := (hc.depicts.tiles.bounds hb).2.2.large
  rw [hc.depicts.blockSize_eq hb, husable, Layout.tags]
  omega

omit [Store.Lawful σ] [Store.Untraced σ] in
theorem Holds.owns_run (hp : s.Holds p cs) : (s.run cs).Owns p := by
  induction cs generalizing s with
  | nil => exact hp
  | cons c cs ih => exact ih hp.2

/-- **The two sizes traced of a payload**: as it is allocated that of the
request, with the tags, and as it is given back, whenever that is and by
whatever call, what the allocation left out besides. -/
structure Told (s : Client σ) (c : Call) (n p : Nat) : Prop where
  allocated : .allocated n p (Layout.alignUp n + Layout.tags) ∈ s.traced [c]
  left_out : s.untraced [c] = 0 ∨ s.untraced [c] = Layout.alignment
  freed : ∀ later, (s.step c).AllowsAll later → (s.step c).Holds p later → ∀ c' k,
    .freed p k ∈ ((s.step c).run later).traced [c'] →
      k = Layout.alignUp n + Layout.tags + s.untraced [c]

omit [Store.Untraced σ] in
theorem Reachable.told (hs : Reachable s) (hc : s.Allows c) (hreq : c.requested = some n)
    (hn : 0 < n) (ha : s.Answers c (.ok (some p))) : s.Told c n p := by
  obtain ⟨χ, ht⟩ := hs.sound
  have howns := owns_step hreq hn ha
  obtain ⟨h', hrun⟩ := ha
  have hgets : s.gets c = some p := by rw [gets, hrun]; rfl
  have hheap : (s.step c).heap = h' := by rw [Client.step, hrun]; rfl
  have hsnug : Layout.Snug n ((s.step c).usable p) := by
    have hgives := ht.ends_perform_snug hc hreq hn
    rw [Heap.ends_of_ok hrun] at hgives
    rw [usable, hheap]
    exact hgives p rfl
  have huntraced : s.untraced [c] = (s.step c).usable p - Layout.alignUp n := by
    simp only [untraced, hgets, Call.spare, hreq, Option.elim_some, Heap.spare, Nat.add_zero]
    rfl
  refine ⟨?_, ?_, ?_⟩
  · simp only [traced, hgets, List.append_nil]
    exact mem_trace_of_requested hreq hn
  · rw [huntraced]
    simp only [Layout.Snug] at hsnug
    omega
  · intro later hlater hholds c' k hin
    rw [traced, traced, List.append_nil] at hin
    have hlast := ((hs.step hc).run hlater).blockSize_eq hholds.owns_run
    rw [eq_of_freed_mem_trace hin, hlast, (hs.step hc).usable_run hlater hholds, huntraced]
    have := hsnug.bounds.1
    simp only [Layout.Snug] at hsnug
    omega

/-! ## The account of a run -/

/-- **What the trace of a run accounts for.** The run traces what its calls do.
The sizes allocated less the sizes freed are the bytes in use if no call left
anything out, and else that much less. And so it is with the two sizes traced
of each payload that a call gives. -/
structure Accounted (s : Client σ) (cs : List Call) : Prop where
  trace : (s.run cs).heap.trace = s.heap.trace ++ s.traced cs
  balance : credits (s.traced cs) + s.untraced cs = (s.run cs).heap.occupied
  exact_iff : credits (s.traced cs) = (s.run cs).heap.occupied ↔ s.untraced cs = 0
  told : ∀ c n p, (s.run cs).Allows c → c.requested = some n → 0 < n →
    (s.run cs).Answers c (.ok (some p)) → (s.run cs).Told c n p

/-- **The trace accounts for the heap but for what allocations leave out**, in
every run of a client of a heap that was blank. -/
theorem trace_accounts (hblank : h.Blank)
    (hcs : (⟨h, fun _ => none⟩ : Client σ).AllowsAll cs) :
    Accounted ⟨h, fun _ => none⟩ cs := by
  have hs : Reachable (⟨h, fun _ => none⟩ : Client σ) := .start hblank
  have hbooks := hs.books_run hcs
  have hbalance := hbooks.occupied
  rw [hblank.occupied] at hbalance
  refine ⟨hbooks.trace, by omega, by omega, fun c n p hc hreq hn ha => ?_⟩
  exact (hs.run hcs).told hc hreq hn ha

/-- Of forty bytes given back, twenty-four and the tags leave too few to be a
block. -/
def unsplit : List Call := [.malloc 32, .malloc 8, .free (some 72), .malloc 24]

/-- Twenty-four bytes are given a block of forty, which is traced as one of
thirty-two, and as one of forty when it is given back. -/
theorem unsplit_not_accounted :
    (ofArena smallArena).AllowsAll (unsplit ++ [.free (some 72)]) ∧
      ((ofArena smallArena).run (unsplit ++ [.free (some 72)])).heap.trace =
        [.allocated 32 72 40, .allocated 8 112 16, .freed 72 40, .allocated 24 72 32,
          .freed 72 40] ∧
      credits (((ofArena smallArena).run unsplit).heap.trace) = 48 ∧
      ((ofArena smallArena).run unsplit).heap.occupied = 56 := by
  decide +kernel

/-- The trace says eight bytes less than are in use, and said all of them before
the last of these calls. -/
theorem accounted_unsplit :
    (ofArena smallArena).AllowsAll unsplit ∧ Accounted (ofArena smallArena) unsplit ∧
      (ofArena smallArena).untraced unsplit = 8 ∧
      (ofArena smallArena).untraced (unsplit.take 3) = 0 := by
  have hcs : (ofArena smallArena).AllowsAll unsplit := by decide +kernel
  have hblank : (ofArena smallArena).heap.Blank :=
    ⟨rfl, rfl, fun haudits => Bool.noConfusion haudits⟩
  exact ⟨hcs, trace_accounts hblank hcs, by decide +kernel, by decide +kernel⟩

end Client

end SegFit
