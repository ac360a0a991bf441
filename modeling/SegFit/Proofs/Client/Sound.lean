import SegFit.Proofs.Client.Basic
/-!
# The invariant of clients

`Tracks` ties a client's copies to a chart: the heap shows it, its
allocated blocks are the payloads the client owns, and the copies are
what the memory holds. Each call keeps this up (`Tracks.step`), so it
holds of every client there can be (`Reachable.sound`).
-/

namespace SegFit

namespace Client

variable {σ : Type} [Store σ] {s : Client σ} {h h' : Heap σ} {w w' : Shadow} {χ χ' : Chart}
  {b e : Block}

/-- **A heap, its chart, and its client's copies.** -/
structure Tracks (h : Heap σ) (w : Shadow) (χ : Chart) : Prop where
  shows : h.Shows χ
  owned_iff : ∀ p, (w p).isSome ↔ ∃ b ∈ χ.blocks, b.isAllocated = true ∧ b.payload = p
  agrees : ∀ b ∈ χ.blocks, b.isAllocated = true → ∀ bytes ∈ w b.payload,
    ∀ i, i + 8 < b.size → h.memory.byte (b.payload + i) = bytes i

/-- **A change of a tracked heap**: the new chart is tracked too, and has
every allocated block that the client still owns. -/
structure Follows (χ : Chart) (h' : Heap σ) (w' : Shadow) (χ' : Chart) : Prop where
  tracks : Tracks h' w' χ'
  persists : ∀ e ∈ χ.blocks, e.isAllocated = true → (w' e.payload).isSome → e ∈ χ'.blocks

/-- **What holds of a client after every call.** -/
def Sound (s : Client σ) : Prop := ∃ χ, Tracks s.heap s.shadow χ

/-- Behind the pointer that a call is about there is a block in use. -/
theorem Tracks.allocated_of_subject {c : Call} (ht : Tracks s.heap s.shadow χ) (hc : s.Allows c) :
    ∀ p ∈ c.subject, ∃ b ∈ χ.blocks, b.isAllocated = true ∧ b.payload = p :=
  fun p hp => (ht.owned_iff p).1 (by cases c <;> first | exact hc p hp | cases hp)

/-- Blocks of a chart that a heap shows are known by their payloads. -/
theorem eq_of_payload (hs : h.Shows χ) (ha : b ∈ χ.blocks) (hb : e ∈ χ.blocks)
    (heq : b.payload = e.payload) : b = e := by
  obtain ⟨d, hc⟩ := hs.charted_of_mem ha
  exact hc.depicts.tiles.eq_of_payload ha hb heq

theorem mem_erase_iff (hs : h.Shows χ) (hb : b ∈ χ.blocks) :
    e ∈ χ.blocks.erase b ↔ e ≠ b ∧ e ∈ χ.blocks := by
  obtain ⟨d, hc⟩ := hs.charted_of_mem hb
  exact hc.depicts.tiles.nodup.mem_erase_iff

/-! ## What each kind of change keeps up -/

/-- **Tracking goes on** if every allocated block of the new chart was
there with its payload and its copy, or has a copy that agrees. -/
theorem Tracks.change (ht : Tracks h w χ) (hs : h'.Shows χ')
    (hblocks : ∀ e ∈ χ'.blocks, e.isAllocated = true →
      e ∈ χ.blocks ∧ w' e.payload = w e.payload ∧
          (∀ i, i + 8 < e.size → h'.memory.byte (e.payload + i) = h.memory.byte (e.payload + i)) ∨
        ∃ bytes, w' e.payload = some bytes ∧
          ∀ i, i + 8 < e.size → h'.memory.byte (e.payload + i) = bytes i)
    (howned : ∀ p, (w' p).isSome → ∃ e ∈ χ'.blocks, e.isAllocated = true ∧ e.payload = p) :
    Tracks h' w' χ' := by
  refine ⟨hs, fun p => ⟨howned p, ?_⟩, ?_⟩
  · rintro ⟨e, he, halloc, rfl⟩
    rcases hblocks e he halloc with ⟨he', hw, -⟩ | ⟨bytes, hw, -⟩
    · rw [hw, ht.owned_iff]
      exact ⟨e, he', halloc, rfl⟩
    · rw [hw]
      rfl
  · intro e he halloc bytes hf i hi
    rcases hblocks e he halloc with ⟨he', hw, hkept⟩ | ⟨f, hw, hagrees⟩
    · rw [hw] at hf
      exact (hkept i hi).trans (ht.agrees e he' halloc bytes hf i hi)
    · rw [hw] at hf
      cases hf
      exact hagrees i hi

/-- The client still owns what it did. -/
theorem Tracks.preserves (ht : Tracks h w χ) (hp : h.Preserves χ h' χ') : Follows χ h' w χ' := by
  refine ⟨ht.change hp.shows ?_ ?_, fun e he halloc _ => (hp.mem_blocks_iff e halloc).2 he⟩
  · intro e he halloc
    have he' := (hp.mem_blocks_iff e halloc).1 he
    exact .inl ⟨he', rfl, hp.keeps e he' halloc⟩
  · intro p hsome
    obtain ⟨e, he, halloc, hep⟩ := (ht.owned_iff p).1 hsome
    exact ⟨e, (hp.mem_blocks_iff e halloc).2 he, halloc, hep⟩

/-- The client owns one payload more. -/
theorem Tracks.gains (ht : Tracks h w χ) (hg : h.Gains χ b h' χ') {bytes : Nat → UInt8}
    (hbytes : ∀ i, i + 8 < b.size → h'.memory.byte (b.payload + i) = bytes i) :
    Follows χ h' (Function.update w b.payload (some bytes)) χ' := by
  have hb := hg.mem
  refine ⟨ht.change hg.shows ?_ ?_, fun e he halloc _ => (hg.mem_blocks_iff e halloc).2 (.inl he)⟩
  · intro e he halloc
    by_cases heb : e = b
    · -- the one block that is new has the copy made for it
      subst heb
      exact .inr ⟨bytes, Function.update_self .., hbytes⟩
    · have he' := ((hg.mem_blocks_iff e halloc).1 he).resolve_right heb
      have hne : e.payload ≠ b.payload := fun heq => heb (eq_of_payload hg.shows he hb heq)
      exact .inl ⟨he', Function.update_of_ne hne .., hg.keeps e he' halloc⟩
  · intro p hsome
    by_cases hp : p = b.payload
    · exact ⟨b, hb, hg.isAllocated, hp.symm⟩
    · rw [Function.update_of_ne hp] at hsome
      obtain ⟨e, he, halloc, hep⟩ := (ht.owned_iff p).1 hsome
      exact ⟨e, (hg.mem_blocks_iff e halloc).2 (.inl he), halloc, hep⟩

/-- The client owns one payload less. -/
theorem Tracks.loses (ht : Tracks h w χ) (hb : b ∈ χ.blocks) (hl : h.Loses χ b h' χ') :
    Follows χ h' (Function.update w b.payload none) χ' := by
  refine ⟨ht.change hl.shows ?_ ?_, ?_⟩
  · intro e he halloc
    obtain ⟨he', hne⟩ := (hl.mem_blocks_iff e halloc).1 he
    have hpne : e.payload ≠ b.payload := fun heq => hne (eq_of_payload ht.shows he' hb heq)
    exact .inl ⟨he', Function.update_of_ne hpne ..,
      hl.keeps e ((mem_erase_iff ht.shows hb).2 ⟨hne, he'⟩) halloc⟩
  · intro p hsome
    by_cases hp : p = b.payload
    · rw [hp, Function.update_self] at hsome
      cases hsome
    · rw [Function.update_of_ne hp] at hsome
      obtain ⟨e, he, halloc, hep⟩ := (ht.owned_iff p).1 hsome
      refine ⟨e, (hl.mem_blocks_iff e halloc).2 ⟨he, ?_⟩, halloc, hep⟩
      rintro rfl
      exact hp hep.symm
  · intro e he halloc hsome
    refine (hl.mem_blocks_iff e halloc).2 ⟨he, ?_⟩
    rintro rfl
    rw [Function.update_self] at hsome
    cases hsome

/-- The client owns one payload in place of another. -/
theorem Tracks.trades (ht : Tracks h w χ) (hb : b ∈ χ.blocks)
    (hx : h.Trades χ b e h' χ') {bytes : Nat → UInt8}
    (hbytes : ∀ i, i + 8 < e.size → h'.memory.byte (e.payload + i) = bytes i) :
    Follows χ h' (Function.update (Function.update w b.payload none) e.payload (some bytes))
      χ' := by
  have he := hx.mem
  refine ⟨ht.change hx.shows ?_ ?_, ?_⟩
  · intro x hxin halloc'
    by_cases hxe : x = e
    · subst hxe
      exact .inr ⟨bytes, Function.update_self .., hbytes⟩
    · obtain ⟨hx', hxb⟩ := (hx.mem_blocks_iff x halloc').1 hxin
      have hx' := hx'.resolve_right hxe
      have hpne : x.payload ≠ e.payload := fun heq => hxe (eq_of_payload hx.shows hxin he heq)
      have hpne' : x.payload ≠ b.payload := fun heq => hxb (eq_of_payload ht.shows hx' hb heq)
      refine .inl ⟨hx', ?_, hx.keeps x ((mem_erase_iff ht.shows hb).2 ⟨hxb, hx'⟩) halloc'⟩
      rw [Function.update_of_ne hpne, Function.update_of_ne hpne']
  · intro p hsome
    by_cases hp : p = e.payload
    · exact ⟨e, he, hx.isAllocated, hp.symm⟩
    · rw [Function.update_of_ne hp] at hsome
      by_cases hp' : p = b.payload
      · rw [hp', Function.update_self] at hsome
        cases hsome
      · rw [Function.update_of_ne hp'] at hsome
        obtain ⟨x, hxin, halloc', hxp⟩ := (ht.owned_iff p).1 hsome
        refine ⟨x, (hx.mem_blocks_iff x halloc').2 ⟨.inl hxin, ?_⟩, halloc', hxp⟩
        rintro rfl
        exact hp' hxp.symm
  · intro x hxin halloc' hsome
    refine (hx.mem_blocks_iff x halloc').2 ⟨.inl hxin, ?_⟩
    rintro rfl
    rw [Function.update_of_ne hx.ne.symm, Function.update_self] at hsome
    cases hsome

/-! ## Steps -/

/-- The pointer an operation answers with, if it does. -/
def answer : Except Failure (Option Nat) → Option Nat
  | .ok q => q
  | .error _ => none

/-- The copies with what a call writes. -/
def written (w : Shadow) : Call → Shadow
  | .write p i v => w.write p i v
  | _ => w

/-- **A call disturbs no payload** of its client but by writing to it, or
by taking away the one it is about. -/
def Undisturbed (c : Call) (w w' : Shadow) : Prop :=
  ∀ p, (w p).isSome → w' p = written w c p ∨ c.subject = some p ∧ w' p = none

/-- **A pointer that is given** leads to a payload the client did not own, and
owns from then on. -/
def Fresh (q : Option Nat) (w w' : Shadow) : Prop :=
  ∀ p ∈ q, ¬ (w p).isSome ∧ (w' p).isSome

theorem fresh_none (w w' : Shadow) : Fresh none w w' :=
  fun _ hp => absurd hp (Option.not_mem_none _)

/-- **What a call leaves behind**, when it gives the pointer `q`. -/
def After (c : Call) (s : Client σ) (χ : Chart) (q : Option Nat) (h' : Heap σ) : Prop :=
  (∃ χ', Follows χ h' (c.settle s.heap h' q s.shadow) χ') ∧
    Undisturbed c s.shadow (c.settle s.heap h' q s.shadow) ∧
    Fresh q s.shadow (c.settle s.heap h' q s.shadow)

theorem step_of_ends {c : Call} {P : Option Nat → Heap σ → Prop}
    (hx : Heap.Ends c.perform s.heap fun r h' => P (answer r) h') :
    P (s.gets c) (s.step c).heap ∧
      (s.step c).shadow = c.settle s.heap (s.step c).heap (s.gets c) s.shadow := by
  unfold step gets
  rcases hx.cases with ⟨q, h', heq, hP⟩ | ⟨e, h', heq, hP⟩
  · rw [heq]
    exact ⟨hP, rfl⟩
  · -- an operation that stops early gives no pointer
    rw [heq]
    exact ⟨hP, rfl⟩

/-- A pointer that is new is not one the client owns. -/
theorem Tracks.ne_of_gains (ht : Tracks h w χ) (hg : h.Gains χ b h' χ') {p : Nat}
    (hp : (w p).isSome) : p ≠ b.payload := by
  obtain ⟨e, he, halloc, rfl⟩ := (ht.owned_iff p).1 hp
  intro heq
  have hb := hg.mem
  have he' : e ∈ χ'.blocks := (hg.mem_blocks_iff e halloc).2 (.inl he)
  exact hg.new (eq_of_payload hg.shows he' hb heq ▸ he)

/-- Nor is one that comes in trade for another. -/
theorem Tracks.ne_of_trades (ht : Tracks h w χ) (hx : h.Trades χ b e h' χ') {p : Nat}
    (hp : (w p).isSome) (hpb : p ≠ b.payload) : p ≠ e.payload := by
  obtain ⟨x, hxin, halloc, rfl⟩ := (ht.owned_iff p).1 hp
  intro heq
  have hxb : x ≠ b := fun h => hpb (congrArg Block.payload h)
  have hx' : x ∈ χ'.blocks := (hx.mem_blocks_iff x halloc).2 ⟨.inl hxin, hxb⟩
  exact hx.new (eq_of_payload hx.shows hx' hx.mem heq ▸ hxin)

/-- A record in the journal matters to no client. -/
theorem After.journal {c : Call} {q : Option Nat} (ha : After c s χ q h') (j : Array Record) :
    After c s χ q { h' with journal := j } := by
  obtain ⟨⟨χ', ht, hpersists⟩, hu, hf⟩ := ha
  have heq : c.settle s.heap { h' with journal := j } q s.shadow =
      c.settle s.heap h' q s.shadow := by
    cases c <;> rfl
  unfold After
  rw [heq]
  exact ⟨⟨χ', ⟨ht.shows.idle (Heap.idle_journal h' j), ht.owned_iff, ht.agrees⟩, hpersists⟩, hu, hf⟩

/-- The lenient form of an operation leaves behind what the strict one
does. -/
theorem ends_orNull_after {c : Call} {x : Operation σ (Option Nat)} {f : Failure → Record}
    (hx : Heap.Ends x s.heap fun r h' => After c s χ (answer r) h') :
    Heap.Ends (Heap.orNull x f) s.heap fun r h' => After c s χ (answer r) h' := by
  rw [Heap.ends_orNull]
  refine hx.mono ?_
  intro r h' ha
  match r with
  | .ok p => exact ha
  | .error e => exact ha.journal _

/-- An operation that gives no pointer. -/
theorem ends_none_after {c : Call} {x : Operation σ Unit}
    (hx : Heap.Ends x s.heap fun _ h' => After c s χ none h') :
    Heap.Ends (do x; return none) s.heap fun r h' => After c s χ (answer r) h' := by
  rw [Heap.ends_bind]
  refine hx.mono ?_
  intro r h' ha
  match r with
  | .ok () =>
    simp only [Heap.ends_pure]
    exact ha
  | .error e => exact ha

/-- **A request for a block**, answered with one or not. -/
theorem Tracks.takes (ht : Tracks h w χ) {r : Except Failure (Option Nat)}
    (hr : h.Takes χ r h') (bytes : Nat → Nat → UInt8)
    (hbytes : ∀ p, r = .ok (some p) → ∀ i, i < h'.memory.usableSize p →
      h'.memory.byte (p + i) = bytes p i) :
    (∃ χ', Follows χ h' (w.take (answer r) bytes) χ') ∧
      (∀ p, (w p).isSome → w.take (answer r) bytes p = w p) ∧
      Fresh (answer r) w (w.take (answer r) bytes) := by
  match r with
  | .error e =>
    obtain ⟨χ', hp⟩ := Heap.Leaves.preserves ht.shows hr
    exact ⟨⟨χ', ht.preserves hp⟩, fun _ _ => rfl, fresh_none _ _⟩
  | .ok none =>
    obtain ⟨χ', hp⟩ := Heap.Leaves.preserves ht.shows hr
    exact ⟨⟨χ', ht.preserves hp⟩, fun _ _ => rfl, fresh_none _ _⟩
  | .ok (some p) =>
    obtain ⟨b, χ', rfl, hg⟩ := hr
    have hb := hg.mem
    obtain ⟨d, hc⟩ := hg.shows.charted_of_mem hb
    have husable := hc.depicts.usableSize_eq hb
    refine ⟨⟨χ', ht.gains hg fun i hi => hbytes _ rfl i (by omega)⟩, ?_, ?_⟩
    · intro p hp
      exact Function.update_of_ne (ht.ne_of_gains hg hp) ..
    · intro p hp
      cases hp
      have howns : Function.update w b.payload (some (bytes b.payload)) b.payload =
          some (bytes b.payload) := Function.update_self ..
      exact ⟨fun howned => ht.ne_of_gains hg howned rfl, Option.isSome_iff_exists.2 ⟨_, howns⟩⟩

variable [Store.Lawful σ]

theorem ends_malloc_after (ht : Tracks s.heap s.shadow χ) (n : Nat) :
    Heap.Ends (Heap.tryMalloc n) s.heap fun r h' => After (.tryMalloc n) s χ (answer r) h' := by
  refine (Heap.ends_tryMalloc_takes ht.shows n).mono ?_
  intro r h' hr
  obtain ⟨htracks, hsame, hfresh⟩ :=
    ht.takes hr (fun q i => h'.memory.byte (q + i)) fun p _ i _ => rfl
  exact ⟨htracks, fun p hp => .inl (hsame p hp), hfresh⟩

theorem ends_calloc_after (ht : Tracks s.heap s.shadow χ) (count size : Nat) :
    Heap.Ends (Heap.tryCalloc count size) s.heap fun r h' =>
      After (.tryCalloc count size) s χ (answer r) h' := by
  refine (Heap.ends_tryCalloc_takes ht.shows count size).mono ?_
  intro r h' hr
  obtain ⟨htracks, hsame, hfresh⟩ := ht.takes hr.1 (fun _ _ => 0) hr.2
  exact ⟨htracks, fun p hp => .inl (hsame p hp), hfresh⟩

theorem ends_init_after (ht : Tracks s.heap s.shadow χ) :
    Heap.Ends Heap.init s.heap fun _ h' => After .init s χ none h' := by
  refine (Heap.ends_init_preserves ht.shows).mono ?_
  intro r h' hr
  obtain ⟨⟨χ', hp⟩, -⟩ := hr
  exact ⟨⟨χ', ht.preserves hp⟩, fun p _ => .inl rfl, fresh_none _ _⟩

/-- What is left when a payload is given back. -/
theorem ends_free_drops (ht : Tracks s.heap s.shadow χ) {p : Option Nat}
    (hp : ∀ q ∈ p, (s.shadow q).isSome) :
    Heap.Ends (Heap.free p) s.heap fun r h' => r = .ok () ∧
      (∃ χ', Follows χ h' (s.shadow.drop p) χ') ∧
        ∀ q, (s.shadow q).isSome →
          s.shadow.drop p q = s.shadow q ∨ p = some q ∧ s.shadow.drop p q = none := by
  match p with
  | none =>
    refine (Heap.ends_free_preserves ht.shows).mono ?_
    intro r h' hr
    obtain ⟨rfl, χ', hpres⟩ := hr
    exact ⟨rfl, ⟨χ', ht.preserves hpres⟩, fun q _ => .inl rfl⟩
  | some p =>
    obtain ⟨b, hb, halloc, rfl⟩ := (ht.owned_iff p).1 (hp p rfl)
    refine (Heap.ends_free_loses ht.shows hb halloc).mono ?_
    intro r h' hr
    obtain ⟨rfl, χ', hl⟩ := hr
    refine ⟨rfl, ⟨χ', ht.loses hb hl⟩, ?_⟩
    intro q _
    by_cases hq : q = b.payload
    · subst hq
      exact .inr ⟨rfl, Function.update_self ..⟩
    · exact .inl (Function.update_of_ne hq ..)

theorem ends_free_after (ht : Tracks s.heap s.shadow χ) {p : Option Nat}
    (hp : ∀ q ∈ p, (s.shadow q).isSome) :
    Heap.Ends (Heap.free p) s.heap fun _ h' => After (.free p) s χ none h' :=
  (ends_free_drops ht hp).mono fun _ _ hr => ⟨hr.2.1, hr.2.2, fresh_none _ _⟩

/-- Moving no payload is a request for one. -/
theorem ends_realloc_none_after (ht : Tracks s.heap s.shadow χ) {n : Nat} (hn : n ≠ 0) :
    Heap.Ends (Heap.tryRealloc none n) s.heap fun r h' =>
      After (.tryRealloc none n) s χ (answer r) h' := by
  unfold Heap.tryRealloc
  rw [if_neg hn]
  refine (Heap.ends_tryMalloc_takes ht.shows n).mono ?_
  intro r h' hr
  -- there are no old bytes to keep, so the copy is what is found
  have hmove : ∀ q, s.shadow.move none q
      (fun q => min (s.heap.usableSize none) (h'.usableSize (some q)))
      (fun q i => h'.memory.byte (q + i)) = s.shadow.take q fun q i => h'.memory.byte (q + i) := by
    intro q
    cases q with
    | none => rfl
    | some q => simp [Shadow.move, Shadow.drop]
  obtain ⟨htracks, hsame, hfresh⟩ :=
    ht.takes hr (fun q i => h'.memory.byte (q + i)) fun p _ i _ => rfl
  unfold After
  rw [Call.settle, if_neg hn, hmove]
  exact ⟨htracks, fun q hq => .inl (hsame q hq), hfresh⟩

/-- **Moving a payload** moves its copy, or leaves all as it was. -/
theorem ends_realloc_some_after (ht : Tracks s.heap s.shadow χ) (hb : b ∈ χ.blocks)
    (halloc : b.isAllocated = true) {n : Nat} (hn : n ≠ 0) :
    Heap.Ends (Heap.tryRealloc (some b.payload) n) s.heap fun r h' =>
      After (.tryRealloc (some b.payload) n) s χ (answer r) h' := by
  have howned : (s.shadow b.payload).isSome := (ht.owned_iff _).2 ⟨b, hb, halloc, rfl⟩
  refine (Heap.ends_tryRealloc_trades ht.shows hb halloc hn).mono ?_
  intro r h' hr
  unfold After
  rw [Call.settle, if_neg hn]
  rcases hr with ⟨e, rfl, hidle⟩ | ⟨e, χ', rfl, hx⟩
  · exact ⟨⟨χ, ht.preserves (.of_idle ht.shows hidle)⟩, fun q _ => .inl rfl, fresh_none _ _⟩
  · obtain ⟨old, hold⟩ := Option.isSome_iff_exists.1 howned
    have he := hx.mem
    obtain ⟨d, hc⟩ := ht.shows.charted_of_mem hb
    obtain ⟨d', hc'⟩ := hx.shows.charted_of_mem he
    have hfrom : s.heap.usableSize (some b.payload) = b.size - 8 := hc.depicts.usableSize_eq hb
    have hto : h'.usableSize (some e.payload) = e.size - 8 := hc'.depicts.usableSize_eq he
    have hanswer : answer (.ok (some e.payload)) = some e.payload := rfl
    rw [hanswer, Shadow.move_some]
    refine ⟨⟨χ', ht.trades hb hx ?_⟩, ?_, ?_⟩
    · intro i hi
      -- the first bytes are the old payload's, the others are as they are found
      rw [hfrom, hto, hold, Option.map_some, Option.getD_some]
      split
      · rename_i hlt
        exact (hx.moved i hlt).trans (ht.agrees b hb halloc old hold i (by omega))
      · rfl
    · intro q hq
      by_cases hqb : q = b.payload
      · subst hqb
        refine .inr ⟨rfl, ?_⟩
        exact (Function.update_of_ne hx.ne.symm ..).trans (Function.update_self ..)
      · refine .inl ?_
        exact (Function.update_of_ne (ht.ne_of_trades hx hq hqb) ..).trans
          (Function.update_of_ne hqb ..)
    · intro q hq
      cases hq
      refine ⟨fun howned => ?_, ?_⟩
      · exact ht.ne_of_trades hx howned hx.ne rfl
      · rw [Function.update_self]
        rfl

theorem ends_realloc_after (ht : Tracks s.heap s.shadow χ) {p : Option Nat}
    (hp : ∀ q ∈ p, (s.shadow q).isSome) (n : Nat) :
    Heap.Ends (Heap.tryRealloc p n) s.heap fun r h' =>
      After (.tryRealloc p n) s χ (answer r) h' := by
  by_cases hn : n = 0
  · -- for no bytes the payload is given back
    unfold Heap.tryRealloc
    rw [if_pos hn, Heap.ends_bind]
    refine (ends_free_drops ht hp).mono ?_
    intro r h' hr
    obtain ⟨rfl, htracks, hsame⟩ := hr
    rw [Heap.ends_pure, After, Call.settle, if_pos hn]
    exact ⟨htracks, hsame, fresh_none _ _⟩
  · rcases p with _ | p
    · exact ends_realloc_none_after ht hn
    · obtain ⟨b, hb, halloc, rfl⟩ := (ht.owned_iff p).1 (hp p rfl)
      exact ends_realloc_some_after ht hb halloc hn

omit [Store.Lawful σ] in
/-- A write to a payload is a write to its copy. -/
theorem ends_write_after (ht : Tracks s.heap s.shadow χ) {p i : Nat} {v : UInt8}
    (hp : (s.shadow p).isSome) (hi : i < s.heap.memory.usableSize p) :
    Heap.Ends (Heap.edit (·.setByte (p + i) v)) s.heap fun _ h' =>
      After (.write p i v) s χ none h' := by
  obtain ⟨b, hb, halloc, rfl⟩ := (ht.owned_iff p).1 hp
  obtain ⟨bytes, hbytes⟩ := Option.isSome_iff_exists.1 hp
  obtain ⟨d, hc⟩ := ht.shows.charted_of_mem hb
  rw [hc.depicts.usableSize_eq hb] at hi
  have hset : ∀ a, (s.heap.memory.setByte (b.payload + i) v).byte a =
      if a = b.payload + i then v else s.heap.memory.byte a := fun a => Memory.byte_setByte _ _ _ a
  generalize hm : s.heap.memory.setByte (b.payload + i) v = m at hset
  obtain ⟨hc', hkeeps⟩ := hc.write hb halloc fun a ha => by rw [hset, if_neg (by omega)]
  rw [Heap.ends_edit, hm]
  refine ⟨⟨χ, ht.change (.charted d hc') ?_ ?_, fun _ he _ _ => he⟩, fun q _ => .inl rfl,
    fresh_none _ _⟩
  · intro e he halloc'
    by_cases heb : e = b
    · -- the one payload that changes, and its copy with it
      subst heb
      refine .inr ⟨Function.update bytes i v, ?_, ?_⟩
      · exact (Function.update_self ..).trans (by rw [hbytes, Option.map_some])
      · intro j _
        rw [hset]
        by_cases hj : j = i
        · rw [if_pos (by omega), hj, Function.update_self]
        · rw [if_neg (by omega), Function.update_of_ne hj]
          exact ht.agrees e he halloc' bytes hbytes j (by omega)
    · have hne : e.payload ≠ b.payload := fun heq => heb (eq_of_payload ht.shows he hb heq)
      exact .inl ⟨he, Function.update_of_ne hne ..,
        hkeeps e ((mem_erase_iff ht.shows hb).2 ⟨heb, he⟩) halloc'⟩
  · intro q hq
    refine (ht.owned_iff q).1 ?_
    by_cases hqb : q = b.payload
    · rw [hqb]
      exact hp
    · rwa [Call.settle, Shadow.write, Function.update_of_ne hqb] at hq

/-- **Every call a client may make** leaves a tracked heap, and disturbs
none of the client's payloads. -/
theorem ends_perform_after {c : Call} (ht : Tracks s.heap s.shadow χ) (hc : s.Allows c) :
    Heap.Ends c.perform s.heap fun r h' => After c s χ (answer r) h' := by
  cases c with
  | init => exact ends_none_after (ends_init_after ht)
  | malloc n => exact ends_orNull_after (ends_malloc_after ht n)
  | tryMalloc n => exact ends_malloc_after ht n
  | calloc count size => exact ends_orNull_after (ends_calloc_after ht count size)
  | tryCalloc count size => exact ends_calloc_after ht count size
  | realloc p n => exact ends_orNull_after (ends_realloc_after ht hc n)
  | tryRealloc p n => exact ends_realloc_after ht hc n
  | free p => exact ends_none_after (ends_free_after ht hc)
  | write p i v => exact ends_none_after (ends_write_after ht hc.1 hc.2)

theorem Tracks.step {c : Call} (ht : Tracks s.heap s.shadow χ) (hc : s.Allows c) :
    (∃ χ', Follows χ (s.step c).heap (s.step c).shadow χ') ∧
      Undisturbed c s.shadow (s.step c).shadow ∧
      Fresh (s.gets c) s.shadow (s.step c).shadow := by
  obtain ⟨hafter, hshadow⟩ := step_of_ends (ends_perform_after ht hc)
  rw [hshadow]
  exact hafter

/-- **Every client there can be is sound.** -/
theorem Reachable.sound (hs : Reachable s) : s.Sound := by
  induction hs with
  | start hblank =>
    refine ⟨.empty, .blank hblank rfl, ?_, fun b hb => absurd hb List.not_mem_nil⟩
    intro p
    exact ⟨fun h => absurd h Bool.false_ne_true, fun ⟨b, hb, _⟩ => absurd hb List.not_mem_nil⟩
  | step _ hc ih =>
    obtain ⟨χ, ht⟩ := ih
    obtain ⟨⟨χ', hfollows⟩, -⟩ := ht.step hc
    exact ⟨χ', hfollows.tracks⟩

end Client

end SegFit
