import SegFit.Proofs.Client.WellFormed
/-!
# Payloads are their owner's alone

What a client owns lies in the region, is aligned, overlaps neither
another payload nor a byte the heap keeps its own data in, and holds what
the client last wrote (`Client.Guarded`). A call changes no byte of a
payload that the client still owns afterwards, but where it writes one
(`Client.Spares`), and the payload it gives is none that the client owned
before. All of this holds of every client there can be
(`Client.Reachable.guarded_and_spares`).
-/

namespace SegFit

variable {σ : Type} [Store σ]

/-- **The bytes a heap keeps its own data in.** -/
inductive Heap.IsMetadata (h : Heap σ) : Nat → Prop
  /-- The ten heads, the padding, the prologue, and the word behind it. -/
  | directory {d : Directory} {a : Nat} (hd : h.directory = some d)
      (ha : d.heads ≤ a ∧ a < d.heads + Layout.bytes) : IsMetadata h a
  | epilogue {d : Directory} {a : Nat} (hd : h.directory = some d)
      (ha : h.region.stop - Layout.word ≤ a ∧ a < h.region.stop) : IsMetadata h a
  | header {b : Block} {a : Nat} (hb : b ∈ h.blocks)
      (ha : b.payload - Layout.word ≤ a ∧ a < b.payload) : IsMetadata h a
  | footer {b : Block} {a : Nat} (hb : b ∈ h.blocks)
      (ha : b.after - Layout.tags ≤ a ∧ a < b.after - Layout.word) : IsMetadata h a
  /-- The two links of a listed block. -/
  | link {c : SizeClass} {p a : Nat} (hp : p ∈ h.list c) (ha : p ≤ a ∧ a < p + 2 * Layout.word) :
      IsMetadata h a

namespace Client

/-- The client owns the payload at `p`. -/
def Owns (s : Client σ) (p : Nat) : Prop := (s.shadow p).isSome

/-- The bytes the client may use behind `p`. -/
def usable (s : Client σ) (p : Nat) : Nat := s.heap.memory.usableSize p

/-- **What a client can rely on** between calls. -/
structure Guarded (s : Client σ) : Prop where
  inside : ∀ p, s.Owns p → s.heap.region.start ≤ p ∧ p + s.usable p ≤ s.heap.region.stop
  aligned : ∀ p, s.Owns p → (p - s.heap.region.start) % 8 = 0
  apart : ∀ p q, s.Owns p → s.Owns q → p ≠ q → p + s.usable p ≤ q ∨ q + s.usable q ≤ p
  clear : ∀ p, s.Owns p → ∀ a, p ≤ a → a < p + s.usable p → ¬ s.heap.IsMetadata a
  copied : ∀ p, ∀ bytes ∈ s.shadow p, ∀ i, i < s.usable p → s.heap.memory.byte (p + i) = bytes i

/-- **What a call leaves alone**: all that the client owns and has not
handed over, each payload with its size, and each byte the call does not
write. -/
def Spares (s : Client σ) (c : Call) : Prop :=
  ∀ p, s.Owns p →
    ((s.step c).Owns p ∨ c.subject = some p) ∧
      ((s.step c).Owns p → (s.step c).usable p = s.usable p ∧
        ∀ i, i < s.usable p → (∀ v, c ≠ .write p i v) →
          (s.step c).heap.memory.byte (p + i) = s.heap.memory.byte (p + i))

variable {s : Client σ} {χ χ' : Chart} {b : Block} {d : Directory}

/-- The block behind an owned pointer. -/
theorem Tracks.block_of_owns (ht : Tracks s.heap s.shadow χ) {p : Nat} (hp : s.Owns p) :
    ∃ b ∈ χ.blocks, ∃ d, s.heap.Charted d χ ∧ b.isAllocated = true ∧ b.payload = p ∧
      s.usable p = b.size - 8 := by
  obtain ⟨b, hb, halloc, rfl⟩ := (ht.owned_iff p).1 hp
  obtain ⟨d, hc⟩ := ht.shows.charted_of_mem hb
  exact ⟨b, hb, d, hc, halloc, rfl, hc.depicts.usableSize_eq hb⟩

/-- **The payload of an allocated block has no byte of the heap's own.**
Tags are outside of every payload, and links are in free blocks. -/
theorem not_isMetadata (hc : s.heap.Charted d χ) (hb : b ∈ χ.blocks)
    (halloc : b.isAllocated = true) {a : Nat} (hlow : b.payload ≤ a)
    (hhigh : a < b.payload + (b.size - 8)) : ¬ s.heap.IsMetadata a := by
  have hbounds := hc.depicts.bounds hb
  have hend : b.after = b.payload + b.size := rfl
  -- another block is wholly on one side of the payload
  have hother : ∀ e ∈ χ.blocks, e ≠ b → a + 8 < e.payload ∨ e.payload + e.size ≤ a := by
    intro e he hne
    have h1 := hc.depicts.tiles.apart he hb hne
    have hend' : e.after = e.payload + e.size := rfl
    omega
  rintro (⟨hd, ha⟩ | ⟨hd, ha⟩ | @⟨e, _, he, ha⟩ | @⟨e, _, he, ha⟩ | @⟨c, p, _, hp, ha⟩)
  · rw [hc.directory] at hd
    cases hd
    simp only [Layout.bytes] at ha
    omega
  · simp only [Layout.word] at ha
    omega
  · rw [hc.blocks_eq] at he
    simp only [Layout.word] at ha
    by_cases heb : e = b
    · subst heb
      omega
    · have := hother e he heb
      omega
  · rw [hc.blocks_eq] at he
    simp only [Layout.word, Layout.tags, Block.after] at ha
    by_cases heb : e = b
    · subst heb
      omega
    · have := hother e he heb
      have := hc.depicts.bounds he
      omega
  · rw [hc.list_eq] at hp
    obtain ⟨e, he, rfl⟩ := List.mem_map.1 hp
    obtain ⟨hmem, hfree, -⟩ := hc.depicts.listed c e he
    simp only [Layout.word] at ha
    have heb : e ≠ b := (Block.ne_of_isAllocated halloc hfree).symm
    have := hother e hmem heb
    have := hc.depicts.bounds hmem
    omega

/-- A tracked heap guards its client's payloads. -/
theorem Tracks.guarded (ht : Tracks s.heap s.shadow χ) : s.Guarded := by
  refine ⟨?_, ?_, ?_, ?_, ?_⟩
  · intro p hp
    obtain ⟨b, hb, d, hc, -, rfl, husable⟩ := ht.block_of_owns hp
    have hbounds := hc.depicts.bounds hb
    have hend : b.after = b.payload + b.size := rfl
    have hbase := hc.base
    omega
  · intro p hp
    obtain ⟨b, hb, d, hc, -, rfl, -⟩ := ht.block_of_owns hp
    have haligned := hc.depicts.tiles.aligned hb
    have hbounds := hc.depicts.bounds hb
    rw [Directory.firstBlock_eq, hc.base] at haligned
    rw [hc.base] at hbounds
    omega
  · intro p q hp hq hne
    obtain ⟨b, hb, d, hc, -, rfl, husable⟩ := ht.block_of_owns hp
    obtain ⟨e, he, -, -, -, rfl, husable'⟩ := ht.block_of_owns hq
    have hapart := hc.depicts.tiles.apart hb he fun heq => hne (congrArg Block.payload heq)
    have hend : b.after = b.payload + b.size := rfl
    have hend' : e.after = e.payload + e.size := rfl
    omega
  · intro p hp a h1 h2
    obtain ⟨b, hb, d, hc, halloc, rfl, husable⟩ := ht.block_of_owns hp
    exact not_isMetadata hc hb halloc h1 (by omega)
  · intro p bytes hbytes i hi
    obtain ⟨b, hb, d, hc, halloc, rfl, husable⟩ :=
      ht.block_of_owns (Option.isSome_iff_exists.2 ⟨bytes, hbytes⟩ : s.Owns p)
    exact ht.agrees b hb halloc bytes hbytes i (by omega)

omit [Store σ] in
theorem isSome_written (w : Shadow) (c : Call) (p : Nat) :
    (written w c p).isSome = (w p).isSome := by
  match c with
  | .write q j v =>
    by_cases hq : p = q
    · subst hq
      rw [written, Shadow.write, Function.update_self, Option.isSome_map]
    · rw [written, Shadow.write, Function.update_of_ne hq]
  | .init | .malloc _ | .tryMalloc _ | .calloc _ _ | .tryCalloc _ _ | .realloc _ _
  | .tryRealloc _ _ | .free _ => rfl

omit [Store σ] in
/-- A write changes one byte of one copy. -/
theorem written_apply {w : Shadow} {c : Call} {p i : Nat} (hnot : ∀ v, c ≠ .write p i v) :
    (written w c p).map (fun bytes => bytes i) = (w p).map fun bytes => bytes i := by
  match c with
  | .write q j v =>
    by_cases hq : p = q
    · subst hq
      have hi : i ≠ j := fun heq => hnot v (by rw [heq])
      rw [written, Shadow.write, Function.update_self, Option.map_map]
      congr 1
      funext bytes
      exact Function.update_of_ne hi ..
    · rw [written, Shadow.write, Function.update_of_ne hq]
  | .init | .malloc _ | .tryMalloc _ | .calloc _ _ | .tryCalloc _ _ | .realloc _ _
  | .tryRealloc _ _ | .free _ => rfl

/-- A step of a tracked client spares what the client still owns. -/
theorem Tracks.spares [Store.Lawful σ] (ht : Tracks s.heap s.shadow χ) {c : Call}
    (hallowed : s.Allows c) : s.Spares c := by
  intro p hp
  obtain ⟨⟨χ', hfollows⟩, hu, -⟩ := ht.step hallowed
  obtain ⟨bytes, hbytes⟩ := Option.isSome_iff_exists.1 hp
  obtain ⟨b, hb, d, hc, halloc, rfl, husable⟩ := ht.block_of_owns hp
  refine ⟨?_, ?_⟩
  · rcases hu b.payload hp with heq | ⟨hsubject, -⟩
    · left
      unfold Owns
      rw [heq, isSome_written]
      exact hp
    · exact .inr hsubject
  · intro howns
    have hb' := hfollows.persists b hb halloc howns
    obtain ⟨d', hc'⟩ := hfollows.tracks.shows.charted_of_mem hb'
    have husable' : (s.step c).usable b.payload = b.size - 8 := hc'.depicts.usableSize_eq hb'
    refine ⟨husable'.trans husable.symm, ?_⟩
    intro i hi hnot
    -- both bytes are the copy's, and the copy is not written there
    obtain ⟨bytes', hbytes'⟩ := Option.isSome_iff_exists.1 howns
    have hcopy : bytes' i = bytes i := by
      have heq := (hu b.payload hp).resolve_right fun hnone => by
        rw [hnone.2] at hbytes'
        cases hbytes'
      have hsame := written_apply (w := s.shadow) hnot
      rw [← heq, hbytes', hbytes] at hsame
      exact Option.some.inj hsame
    rw [hfollows.tracks.agrees b hb' halloc bytes' hbytes' i (by omega), hcopy,
      ht.agrees b hb halloc bytes hbytes i (by omega)]

/-- **No aliasing and no corruption.** Whatever a client does, what it owns
is its own, holds what it wrote, and is spared by every call it may make
next. A pointer that such a call gives is not one the client owns already. -/
theorem Reachable.guarded_and_spares [Store.Truthful σ] (hs : Reachable s) :
    s.Guarded ∧ ∀ c, s.Allows c →
      s.Spares c ∧ ∀ p ∈ s.gets c, ¬ s.Owns p ∧ (s.step c).Owns p := by
  obtain ⟨χ, ht⟩ := hs.sound
  exact ⟨ht.guarded, fun c hc => ⟨ht.spares hc, (ht.step hc).2.2⟩⟩

/-- The one payload of the sample, before the call that moves it behind all
others. -/
theorem sample_guarded :
    Reachable sample ∧ sample.Owns 104 ∧ sample.Allows (.realloc (some 104) 200) ∧
      sample.gets (.realloc (some 104) 200) = some 216 ∧ sample.Guarded ∧
      sample.Spares (.realloc (some 104) 200) ∧ ¬ sample.Owns 216 ∧
      (sample.step (.realloc (some 104) 200)).Owns 216 := by
  have howns : sample.Owns 104 := by
    unfold Owns
    decide +kernel
  have hallowed : sample.Allows (.realloc (some 104) 200) := by decide +kernel
  have hgets : sample.gets (.realloc (some 104) 200) = some 216 := by decide +kernel
  obtain ⟨hguarded, hcall⟩ := reachable_sample.guarded_and_spares
  obtain ⟨hspares, hgiven⟩ := hcall _ hallowed
  obtain ⟨hnew, howned⟩ := hgiven 216 hgets
  exact ⟨reachable_sample, howns, hallowed, hgets, hguarded, hspares, hnew, howned⟩

end Client

end SegFit
