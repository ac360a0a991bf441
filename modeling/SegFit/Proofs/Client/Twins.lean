import SegFit.Proofs.Client.Freeing
import SegFit.Proofs.Outline.Mirror
/-!
# Twins

Twins are two clients that make the same calls, over stores that grow
alike, with memories that have nothing in common. Each passes the
pointers it was itself given, and between calls each writes what it
likes to its own payloads. They cannot tell themselves apart by anything
but their bytes and the addresses of their regions (`Twins.same_sight`): the
blocks, the lists, the answers and the audits are the same. So nothing a
heap decides depends on a byte that its user wrote, or that was there
before.
-/

namespace SegFit

/-- A violation in a heap moved up by `k` bytes. -/
def Violation.shift (k : Nat) : Violation → Violation
  | .tagMismatch b header footer => .tagMismatch (b + k) header footer
  | .misaligned b => .misaligned (b + k)
  | .outOfHeap b => .outOfHeap (b + k)
  | .zeroSize b => .zeroSize (b + k)
  | .badEpilogue b => .badEpilogue (b + k)
  | .uncoalesced b => .uncoalesced (b + k)
  | .allocatedInList b c => .allocatedInList (b + k) c
  | .wrongClass b size c => .wrongClass (b + k) size c
  | .brokenBackLink b c => .brokenBackLink (b + k) c
  | .unsorted b c => .unsorted (b + k) c
  | v => v

namespace Call

/-- Does a call write to a payload? -/
def writes : Call → Bool
  | .write _ _ _ => true
  | _ => false

/-- The call with its pointers moved up by `k` bytes. -/
def shift (k : Nat) : Call → Call
  | .realloc p n => .realloc (p.map (· + k)) n
  | .tryRealloc p n => .tryRealloc (p.map (· + k)) n
  | .free p => .free (p.map (· + k))
  | .write p i v => .write (p + k) i v
  | c => c

/-- The call with the pointers that its numbers stand for: `i` is the `i`-th
of those the client was given. -/
def on (ps : List Nat) : Call → Call
  | .realloc i n => .realloc (i.bind fun i => ps[i]?) n
  | .tryRealloc i n => .tryRealloc (i.bind fun i => ps[i]?) n
  | .free i => .free (i.bind fun i => ps[i]?)
  | c => c

theorem on_map_add {c : Call} (hc : c.writes = false) (k : Nat) (ps : List Nat) :
    c.on (ps.map (· + k)) = (c.on ps).shift k := by
  have hget : ∀ i : Option Nat, (i.bind fun i => (ps.map (· + k))[i]?) =
      (i.bind fun i => ps[i]?).map (· + k) := by
    intro i
    cases i with
    | none => rfl
    | some i => exact List.getElem?_map ..
  cases c with
  | write => cases hc
  | realloc i n => rw [on, hget]; rfl
  | tryRealloc i n => rw [on, hget]; rfl
  | free i => rw [on, hget]; rfl
  | _ => rfl

end Call

/-- **What a client sees of its heap**, with addresses counted from the
start of the region. -/
structure Sight where
  isInitialized : Bool
  size : Nat
  extent : Nat
  blocks : List Block
  list : SizeClass → List Nat
  /-- What an audit finds. It finds more where regions do not begin at a
  multiple of eight, so this is by the remainder. -/
  violations : Nat → List Violation
  /-- The pointers it was given, in order. -/
  pointers : List Nat

/-- What an audit finds in an outline whose region begins `k` bytes after a
multiple of eight. -/
def Outline.violations (o : Outline) (k : Nat) : List Violation :=
  match o.chart with
  | none => [.uninitialized]
  | some χ => (χ.blocks.filter fun b => !Layout.isAligned (b.payload + k)).map fun b =>
    .misaligned b.payload

/-- What there is to see of an outline by a client that was given pointers
at `offs`. -/
def Outline.sight (o : Outline) (offs : List Nat) : Sight where
  isInitialized := o.chart.isSome
  size := (o.growth []).size
  extent := (o.growth []).extent
  blocks := (o.chart.getD .empty).blocks
  list c := ((o.chart.getD .empty).lists c).map Block.payload
  violations := o.violations
  pointers := offs

namespace Client

variable {σ : Type} [Store σ] {s : Client σ} {ps offs : List Nat} {c : Call} {o : Outline} {k : Nat}

/-- The pointer a call gives, if it gives one. -/
def gives (s : Client σ) (c : Call) : Option Nat := (given (c.perform s.heap)).1

/-- **What a client that was given the pointers `ps` sees.** -/
structure Sees (s : Client σ) (ps : List Nat) (v : Sight) : Prop where
  isInitialized : s.heap.isInitialized = v.isInitialized
  size : s.heap.size = v.size
  extent : s.heap.region.extent = v.extent
  blocks : s.heap.blocks = v.blocks.map (Block.shift s.heap.region.start)
  list : ∀ c, s.heap.list c = (v.list c).map (· + s.heap.region.start)
  violations : s.heap.violations =
    (v.violations (s.heap.region.start % 8)).map (Violation.shift s.heap.region.start)
  pointers : ps = v.pointers.map (· + s.heap.region.start)
  owns_iff : ∀ p, s.Owns p ↔
    ∃ b ∈ v.blocks, b.isAllocated = true ∧ b.payload + s.heap.region.start = p
  usable : ∀ b ∈ v.blocks, b.isAllocated = true →
    s.usable (b.payload + s.heap.region.start) = b.size - 8

section Twins

variable {τ : Type} [Store τ]

/-- **Two clients that make the same calls**, over stores that grow alike, and
the pointers each was given. Nothing is asked of the memories they begin
with, and each may write to its own payloads at any time. -/
inductive Twins : Client σ → List Nat → Client τ → List Nat → Prop
  | start {h : Heap σ} {h' : Heap τ} (hblank : h.Blank) (hblank' : h'.Blank)
      (hgrowth : Store.behaviour h.store = Store.behaviour h'.store) :
      Twins ⟨h, fun _ => none⟩ [] ⟨h', fun _ => none⟩ []
  | left {s : Client σ} {t : Client τ} {ps qs : List Nat} {c : Call} (htwins : Twins s ps t qs)
      (hwrites : c.writes = true) (hc : s.Allows c) : Twins (s.step c) ps t qs
  | right {s : Client σ} {t : Client τ} {ps qs : List Nat} {c : Call} (htwins : Twins s ps t qs)
      (hwrites : c.writes = true) (hc : t.Allows c) : Twins s ps (t.step c) qs
  /-- The same call, each with its own pointers. -/
  | both {s : Client σ} {t : Client τ} {ps qs : List Nat} {c : Call} (htwins : Twins s ps t qs)
      (hwrites : c.writes = false) (hc : s.Allows (c.on ps)) :
      Twins (s.step (c.on ps)) (ps ++ (s.gives (c.on ps)).toList)
        (t.step (c.on qs)) (qs ++ (t.gives (c.on qs)).toList)

end Twins

/-! ## A client and its outline -/

/-- **A client at an address**, with its outline and the places of the
pointers it was given. -/
structure Placed (k : Nat) (s : Client σ) (ps : List Nat) (o : Outline) (offs : List Nat) :
    Prop where
  reachable : Reachable s
  outlined : s.heap.Outlined k o
  pointers : ps = offs.map (· + k)

theorem Placed.on_eq (hp : Placed k s ps o offs) (hwrites : c.writes = false) :
    c.on ps = (c.on offs).shift k := by
  rw [hp.pointers, Call.on_map_add hwrites]

/-- What an operation that ends with a known answer is to its caller. -/
theorem answers_of_ends {r : Except Failure (Option Nat)} {P : Heap σ → Prop}
    (hx : Heap.Ends c.perform s.heap fun r' h' => r' = r ∧ P h') :
    s.Answers c r ∧ s.gives c = answer r ∧ P (s.step c).heap := by
  rcases hx.cases with ⟨q, h', heq, rfl, hP⟩ | ⟨e, h', heq, rfl, hP⟩
  · refine ⟨⟨h', heq⟩, ?_, ?_⟩
    · rw [gives, heq]
      rfl
    · rw [step, heq]
      exact hP
  · refine ⟨⟨h', heq⟩, ?_, ?_⟩
    · rw [gives, heq]
      rfl
    · rw [step, heq]
      exact hP

variable [Store.Lawful σ]

/-- **A client may do what its outline allows.** -/
theorem Reachable.allows_iff (hs : Reachable s) (ho : s.heap.Outlined k o) :
    s.Allows (c.shift k) ↔ o.Allows c := by
  have howns : ∀ p, s.Owns (p + k) ↔ o.Owns p := fun p => hs.owns_iff.trans ho.owns_iff.symm
  have hsubject : ∀ p : Option Nat, (∀ q ∈ p.map (· + k), s.Owns q) ↔ ∀ q ∈ p, o.Owns q := by
    intro p
    cases p with
    | none => simp
    | some p => simpa using howns p
  cases c with
  | write p i v =>
    constructor
    · rintro ⟨hp, hi⟩
      obtain ⟨b, hb, halloc, hbp⟩ := hs.owns_iff.1 hp
      rw [← hbp, ho.usableSize_eq hb] at hi
      obtain ⟨χ, hχ, e, he, rfl⟩ := ho.mem_blocks_iff.1 hb
      exact ⟨χ, hχ, e, he, halloc, Nat.add_right_cancel hbp, hi⟩
    · rintro ⟨χ, hχ, e, he, halloc, rfl, hi⟩
      have hb := ho.mem_blocks_iff.2 ⟨χ, hχ, e, he, rfl⟩
      refine ⟨hs.owns_iff.2 ⟨_, hb, halloc, rfl⟩, ?_⟩
      rwa [← Block.payload_shift, ho.usableSize_eq hb]
  | realloc p n => exact hsubject p
  | tryRealloc p n => exact hsubject p
  | free p => exact hsubject p
  | _ => exact hsubject none

/-- **A call does what its plan does.** -/
theorem mirrors_perform {h : Heap σ} (ho : h.Outlined k o) (hc : o.Allows c) :
    Heap.Mirrors k (c.shift k).perform (Plan.perform c) (Option.map (· + k)) h o := by
  cases c with
  | init =>
    exact (Heap.mirrors_init ho).bind fun _ _ _ _ ho' =>
      Heap.mirrors_pure (f := Option.map (· + k)) ho' none
  | malloc n => exact (Heap.mirrors_tryMalloc ho n).orNull
  | tryMalloc n => exact Heap.mirrors_tryMalloc ho n
  | calloc count size => exact (Heap.mirrors_tryCalloc ho count size).orNull
  | tryCalloc count size => exact Heap.mirrors_tryCalloc ho count size
  | realloc p n => exact (Heap.mirrors_tryRealloc ho hc n).orNull
  | tryRealloc p n => exact Heap.mirrors_tryRealloc ho hc n
  | free p =>
    exact (Heap.mirrors_free ho hc).bind fun _ _ _ _ ho' =>
      Heap.mirrors_pure (f := Option.map (· + k)) ho' none
  | write p i v =>
    obtain ⟨χ, hχ, e, he, halloc, rfl, hi⟩ := hc
    have hb := ho.mem_blocks_iff.2 ⟨χ, hχ, e, he, rfl⟩
    have ho' := ho.write hb halloc (m := h.memory.setByte (e.payload + k + i) v) fun a ha => by
      rw [Block.payload_shift, Block.size_shift] at ha
      rw [Memory.byte_setByte, if_neg (by omega)]
    simp only [Heap.Mirrors, Call.shift, Call.perform, Heap.ends_bind, Heap.ends_edit,
      Heap.ends_pure]
    exact ⟨rfl, ho'⟩

/-- **One call of a client**, and what its outline says of it. -/
theorem Placed.step (hp : Placed k s ps o offs) (hc : o.Allows c) :
    s.Answers (c.shift k) (((Plan.perform c).exec o).1.map (Option.map (· + k))) ∧
      Placed k (s.step (c.shift k)) (ps ++ (s.gives (c.shift k)).toList)
        ((Plan.perform c).exec o).2 (offs ++ (answer ((Plan.perform c).exec o).1).toList) := by
  obtain ⟨hanswers, hgives, ho⟩ := answers_of_ends (mirrors_perform hp.outlined hc)
  refine ⟨hanswers, hp.reachable.step ((hp.reachable.allows_iff hp.outlined).2 hc), ho, ?_⟩
  rw [hgives, hp.pointers, List.map_append]
  cases ((Plan.perform c).exec o).1 with
  | ok q => cases q <;> rfl
  | error e => rfl

/-- A write changes no outline. -/
theorem Placed.write (hp : Placed k s ps o offs) (hwrites : c.writes = true)
    (hc : s.Allows c) : Placed k (s.step c) ps o offs := by
  cases c with
  | write p i v =>
    obtain ⟨b, hb, -, hbp⟩ := hp.reachable.owns_iff.1 hc.1
    obtain ⟨χ, -, e, -, rfl⟩ := hp.outlined.mem_blocks_iff.1 hb
    obtain rfl : e.payload + k = p := hbp
    have hallows := (hp.reachable.allows_iff (c := .write e.payload i v) hp.outlined).1 hc
    have hstep := (hp.step hallows).2
    change Placed k _ (ps ++ []) o (offs ++ []) at hstep
    rwa [List.append_nil, List.append_nil] at hstep
  | _ => cases hwrites

/-- **A client sees what its outline shows.** -/
theorem Placed.sees (hp : Placed k s ps o offs) : s.Sees ps (o.sight offs) := by
  have ho := hp.outlined
  obtain rfl := ho.start_eq
  refine ⟨ho.isInitialized_eq, ho.size, ho.extent, ho.blocks_eq, ho.list_eq, ?_, hp.pointers, ?_,
    ?_⟩
  · change _ = (o.violations (s.heap.region.start % 8)).map _
    rw [ho.violations_eq, Outline.violations]
    cases o.chart with
    | none => rfl
    | some χ => rw [List.map_map]; rfl
  · intro p
    rw [hp.reachable.owns_iff, ho.blocks_eq]
    simp only [List.mem_map, exists_exists_and_eq_and, Block.isAllocated_shift, Block.payload_shift]
    rfl
  · intro b hb _
    have hb' : b.shift s.heap.region.start ∈ s.heap.blocks :=
      ho.blocks_eq ▸ List.mem_map_of_mem hb
    have husable := ho.usableSize_eq hb'
    rwa [Block.payload_shift, Block.size_shift] at husable

/-! ## Two clients -/

variable {τ : Type} [Store τ] [Store.Lawful τ] {t : Client τ} {qs : List Nat}

/-- **Twins have one outline.** -/
theorem Twins.placed (htwins : Twins s ps t qs) :
    ∃ k l o offs, Placed k s ps o offs ∧ Placed l t qs o offs := by
  induction htwins with
  | start hblank hblank' hgrowth =>
    exact ⟨_, _, ⟨_, none⟩, [], ⟨.start hblank, ⟨rfl, rfl, hblank⟩, rfl⟩,
      ⟨.start hblank', ⟨rfl, hgrowth.symm, hblank'⟩, rfl⟩⟩
  | left _ hwrites hc ih =>
    obtain ⟨k, l, o, offs, hs, ht⟩ := ih
    exact ⟨k, l, o, offs, hs.write hwrites hc, ht⟩
  | right _ hwrites hc ih =>
    obtain ⟨k, l, o, offs, hs, ht⟩ := ih
    exact ⟨k, l, o, offs, hs, ht.write hwrites hc⟩
  | both _ hwrites hc ih =>
    obtain ⟨k, l, o, offs, hs, ht⟩ := ih
    rw [hs.on_eq hwrites] at hc ⊢
    rw [ht.on_eq hwrites]
    have hallows := (hs.reachable.allows_iff hs.outlined).1 hc
    exact ⟨k, l, _, _, (hs.step hallows).2, (ht.step hallows).2⟩

/-- **Nothing a heap decides depends on its users' bytes.** Twins see the same,
may make the same calls, and are given the same answers. -/
theorem Twins.same_sight (htwins : Twins s ps t qs) :
    (∃ v, s.Sees ps v ∧ t.Sees qs v) ∧
      ∀ c : Call, c.writes = false → (s.Allows (c.on ps) ↔ t.Allows (c.on qs)) ∧
        (s.Allows (c.on ps) → ∃ r : Except Failure (Option Nat),
          s.Answers (c.on ps) (r.map (Option.map (· + s.heap.region.start))) ∧
            t.Answers (c.on qs) (r.map (Option.map (· + t.heap.region.start)))) := by
  obtain ⟨k, l, o, offs, hs, ht⟩ := htwins.placed
  refine ⟨⟨o.sight offs, hs.sees, ht.sees⟩, fun c hwrites => ?_⟩
  obtain rfl := hs.outlined.start_eq
  obtain rfl := ht.outlined.start_eq
  rw [hs.on_eq hwrites, ht.on_eq hwrites, hs.reachable.allows_iff hs.outlined,
    ht.reachable.allows_iff ht.outlined]
  exact ⟨Iff.rfl, fun hallows => ⟨_, (hs.step hallows).1, (ht.step hallows).1⟩⟩

/-- A client that writes to its first payload, and asks for a second. -/
def tidy : Client Arena := (ofArena smallArena).run [.malloc 24, .write 72 0 7, .malloc 100]

/-- A client that makes the same calls and writes to its second payload, in
a memory that was in use before. -/
def untidy : Client Arena :=
  Client.run ⟨{ store := smallArena, memory := ({} : Memory).fill 16 96 255 }, fun _ => none⟩
    [.malloc 24, .malloc 100, .write 104 3 9]

theorem tidy_untidy_same_sight :
    ∃ ps qs, Twins tidy ps untidy qs ∧ (∃ v, tidy.Sees ps v ∧ untidy.Sees qs v) ∧
      tidy.heap.memory.byte 72 ≠ untidy.heap.memory.byte 72 := by
  have hstart : Twins (ofArena smallArena) []
      ⟨{ store := smallArena, memory := ({} : Memory).fill 16 96 255 }, fun _ => none⟩ [] :=
    .start ⟨rfl, rfl, fun h => Bool.noConfusion h⟩ ⟨rfl, rfl, fun h => Bool.noConfusion h⟩ rfl
  have hfirst := hstart.both (c := .malloc 24) rfl (by decide)
  have hleft := hfirst.left (c := .write 72 0 7) rfl (by decide +kernel)
  have hsecond := hleft.both (c := .malloc 100) rfl (by decide)
  have hright := hsecond.right (c := .write 104 3 9) rfl (by decide +kernel)
  simp only [Call.on] at hright
  rw [tidy, untidy]
  simp only [run, List.foldl_cons, List.foldl_nil]
  exact ⟨_, _, hright, hright.same_sight.1, by decide +kernel⟩

end Client

end SegFit
