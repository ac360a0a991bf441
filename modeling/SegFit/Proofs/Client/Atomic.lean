import SegFit.Proofs.Client.Aliasing
/-!
# Failures are atomic

A call that fails has changed nothing: no byte, no list, no payload of its
client, and not the region. Only the first calls to a heap may leave
something behind, what they did to make it ready before they failed for
another cause: the layout, and the first chunk if it was granted
(`Heap.LaidOut`). `Client.Reachable.fails_atomically` says so of every call,
for every store that may refuse whatever it is asked.
-/

namespace SegFit

variable {σ : Type} [Store σ]

/-- **A heap as it was.** -/
structure Heap.Unchanged (h h' : Heap σ) : Prop where
  region : h'.region = h.region
  byte : ∀ a, h'.memory.byte a = h.memory.byte a
  directory : h'.directory = h.directory
  blocks : h'.blocks = h.blocks
  list : ∀ c, h'.list c = h.list c

/-- **A heap that was laid out, and no more.** It has its first chunk, one
free block, or no block at all, and bytes have changed where the heap keeps
its own data. -/
structure Heap.LaidOut (h : Heap σ) (chunk : Option Block) (h' : Heap σ) : Prop where
  directory : h'.directory = some (.ofBase h.region.start)
  region : h'.region = ⟨h.region.start, 56 + chunk.elim 0 Block.size⟩
  prologueHeader : h'.memory.word (h.region.start + 44) = 9
  prologueFooter : h'.memory.word (h.region.start + 48) = 9
  epilogue : h'.memory.word (h'.region.stop - 4) = 1
  blocks : h'.blocks = chunk.toList
  tags : ∀ b ∈ chunk, h'.memory.header b.payload = h'.memory.footer b.payload
  /-- The chunk is in the list of its class. -/
  list : ∀ c, h'.list c =
    (chunk.toList.filter fun b => SizeClass.ofSize b.size = c).map Block.payload
  kept : ∀ a, ¬ h'.IsMetadata a → h'.memory.byte a = h.memory.byte a

namespace Heap

variable {h h' h'' : Heap σ} {d : Directory} {χ : Chart} {b : Block} {α : Type}

theorem Idle.unchanged (hi : Idle h h') : h.Unchanged h' := by
  have hblocks : h'.blocksOf = h.blocksOf := by
    funext d
    rw [blocksOf, blocksOf, hi.memory, hi.region]
  refine ⟨hi.region, ?_, hi.directory, ?_, ?_⟩
  · intro a
    rw [hi.memory]
  · rw [blocks, blocks, hi.directory, hblocks]
  · intro c
    simp only [list, hi.directory, hi.memory, hi.region]

/-! ## What a layout writes -/

/-- A charted heap with one block or none is one that was laid out, if
bytes have changed in its own data only. -/
theorem Charted.laidOut {chunk : Option Block} (hc : h'.Charted (.ofBase h.region.start) χ)
    (hregion : h'.region = ⟨h.region.start, 56 + chunk.elim 0 Block.size⟩)
    (hblocks : χ.blocks = chunk.toList)
    (hlists : ∀ c, χ.lists c = chunk.toList.filter fun b => SizeClass.ofSize b.size = c)
    (hkept : ∀ a, ¬ h'.IsMetadata a → h'.memory.byte a = h.memory.byte a) :
    h.LaidOut chunk h' := by
  have hdepicts := hc.depicts
  refine ⟨hc.directory, hregion, hdepicts.prologueHeader, hdepicts.prologueFooter,
    hdepicts.epilogue, hc.blocks_eq.trans hblocks, ?_, ?_, hkept⟩
  · intro b hb
    have hmem : b ∈ χ.blocks := hblocks ▸ Option.mem_toList.2 hb
    rw [(hdepicts.hasBlock b hmem).header, (hdepicts.hasBlock b hmem).footer]
  · intro c
    rw [hc.list_eq, hlists]

theorem LaidBare.laidOut (hl : LaidBare h h') : h.LaidOut none h' := by
  refine hl.charted.laidOut hl.region rfl (fun _ => rfl) fun a ha => ?_
  rw [hl.memory]
  exact Chart.byte_layOut _ _ fun hin => ha (.directory hl.charted.directory hin)

theorem MadeReady.laidOut (hr : MadeReady h h') :
    h.LaidOut (some ⟨h.region.start + 56, 4096, false⟩) h' := by
  have hcharted : h'.Charted (.ofBase h.region.start)
      (Chart.empty.append (h.region.start + 56) 4096) := by
    have hc := hr.charted
    rwa [Chart.grow_empty (by decide)] at hc
  have hblock : (⟨h.region.start + 56, 4096, false⟩ : Block) ∈ h'.blocks := by
    rw [hcharted.blocks_eq]
    exact List.mem_singleton_self _
  have hlist : h.region.start + 56 ∈ h'.list (.ofSize 4096) := by
    rw [hcharted.list_eq, Chart.lists_append_empty]
    simp [Chart.fresh]
  have hstop : h'.region.stop = h.region.start + (56 + 4096) := by
    rw [hr.region]
    rfl
  refine hcharted.laidOut hr.region rfl (fun c => Chart.lists_append_empty c) fun a ha => ?_
  rw [hr.memory]
  refine Chart.byte_firstChunk (.ofBase h.region.start) h.memory (by decide) (by decide)
    (by decide) ?_ ?_
  · rintro ⟨hlow, hhigh⟩
    change h.region.start ≤ a at hlow
    change a < h.region.start + 56 + 8 at hhigh
    by_cases hin : a < h.region.start + 56
    · exact ha (.directory hcharted.directory ⟨hlow, hin⟩)
    · exact ha (.link hlist ⟨by omega, hhigh⟩)
  · rintro ⟨hlow, hhigh⟩
    change h.region.start + 56 + 4096 - 8 ≤ a at hlow
    change a < h.region.start + 56 + 4096 at hhigh
    by_cases hin : a < h.region.start + 56 + 4096 - 4
    · exact ha (.footer hblock ⟨hlow, hin⟩)
    · refine ha (.epilogue hcharted.directory ⟨?_, ?_⟩)
      · change h'.region.stop - 4 ≤ a
        omega
      · omega

end Heap

namespace Client

variable {s : Client σ} {χ : Chart} {h' : Heap σ} [Store.Lawful σ]

/-- **What a failed call leaves behind.** It stopped for a cause of its
own, and its client owns what it did, each payload with its size and its
bytes. The heap is as it was; only one that was not laid out may have been,
with its first chunk or without. -/
structure FailsAtomically (s : Client σ) (c : Call) (stop : Stop) (h' : Heap σ) : Prop where
  cause : ∃ e, stop = .failed e
  client : s.step c = ⟨h', s.shadow⟩
  payloads : ∀ p, s.Owns p → h'.memory.usableSize p = s.usable p ∧
    ∀ i, i < s.usable p → h'.memory.byte (p + i) = s.heap.memory.byte (p + i)
  heap : s.heap.Unchanged h' ∨ s.heap.directory = none ∧
    (s.heap.LaidOut none h' ∨
      s.heap.LaidOut (some ⟨s.heap.region.start + 56, 4096, false⟩) h')

/-- A failed call leaves what its operation leaves, and its client goes on
with the copies it had. -/
def CallLeaves (s : Client σ) (c : Call) (r : Except Failure (Option Nat)) (h' : Heap σ) : Prop :=
  ∀ e, r = .error e → s.heap.Leaves h' ∧ c.settle s.heap h' none s.shadow = s.shadow

omit [Store.Lawful σ] in
theorem callLeaves_ok {c : Call} {q : Option Nat} : CallLeaves s c (.ok q) h' := by
  intro e he
  cases he

omit [Store.Lawful σ] in
theorem callLeaves_of_takes {c : Call} {r : Except Failure (Option Nat)}
    (hr : s.heap.Takes χ r h') (hsettle : c.settle s.heap h' none s.shadow = s.shadow) :
    CallLeaves s c r h' := by
  rintro e rfl
  exact ⟨hr, hsettle⟩

theorem ends_tryRealloc_leaves (ht : Tracks s.heap s.shadow χ) {p : Option Nat}
    (hp : ∀ q ∈ p, (s.shadow q).isSome) (n : Nat) :
    Heap.Ends (Heap.tryRealloc p n) s.heap (CallLeaves s (.tryRealloc p n)) := by
  by_cases hn : n = 0
  · -- giving back does not fail
    unfold Heap.tryRealloc
    rw [if_pos hn, Heap.ends_bind]
    refine (ends_free_drops ht hp).mono ?_
    rintro r h' ⟨rfl, -⟩
    rw [Heap.ends_pure]
    exact callLeaves_ok
  · match p with
    | none =>
      unfold Heap.tryRealloc
      rw [if_neg hn]
      exact (Heap.ends_tryMalloc_takes ht.shows n).mono fun r h' hr =>
        callLeaves_of_takes hr (if_neg hn)
    | some p =>
      obtain ⟨b, hb, halloc, rfl⟩ := (ht.owned_iff p).1 (hp p rfl)
      refine (Heap.ends_tryRealloc_trades ht.shows hb halloc hn).mono ?_
      rintro r h' (⟨e, rfl, hidle⟩ | ⟨e, χ', rfl, -⟩)
      · exact fun _ _ => ⟨.idle hidle, if_neg hn⟩
      · exact callLeaves_ok

/-- **Every call a client may make leaves little behind**, if it fails. -/
theorem ends_perform_leaves {c : Call} (ht : Tracks s.heap s.shadow χ) (hc : s.Allows c) :
    Heap.Ends c.perform s.heap (CallLeaves s c) := by
  -- the lenient forms do not fail
  have hnull : ∀ {x : Operation σ (Option Nat)} {f : Failure → Record} {Q},
      Heap.Ends x s.heap Q → Heap.Ends (Heap.orNull x f) s.heap (CallLeaves s c) := by
    intro x f Q hx
    rw [Heap.ends_orNull]
    refine hx.mono fun r h' _ => ?_
    cases r <;> exact callLeaves_ok
  cases c with
  | init =>
    rw [Call.perform, Heap.ends_bind]
    refine (Heap.ends_init_preserves ht.shows).mono ?_
    rintro (e | _) h' ⟨-, hleaves⟩
    · exact fun _ _ => ⟨hleaves e rfl, rfl⟩
    · rw [Heap.ends_pure]
      exact callLeaves_ok
  | tryMalloc n =>
    exact (Heap.ends_tryMalloc_takes ht.shows n).mono fun r h' hr => callLeaves_of_takes hr rfl
  | tryCalloc count size =>
    exact (Heap.ends_tryCalloc_takes ht.shows count size).mono fun r h' hr =>
      callLeaves_of_takes hr.1 rfl
  | tryRealloc p n => exact ends_tryRealloc_leaves ht hc n
  | malloc n => exact hnull (Heap.ends_tryMalloc_takes ht.shows n)
  | calloc count size => exact hnull (Heap.ends_tryCalloc_takes ht.shows count size)
  | realloc p n => exact hnull (ends_tryRealloc_leaves ht hc n)
  | free p =>
    rw [Call.perform, Heap.ends_bind]
    refine (ends_free_drops ht hc).mono ?_
    rintro r h' ⟨rfl, -⟩
    rw [Heap.ends_pure]
    exact callLeaves_ok
  | write p i v =>
    rw [Call.perform, Heap.ends_bind, Heap.ends_edit, Heap.ends_pure]
    exact callLeaves_ok

/-- **Failures are atomic**: all that a client gets of a call that fails is
the cause. -/
theorem Reachable.fails_atomically (hs : Reachable s) {c : Call} (hc : s.Allows c) {stop : Stop}
    (hstop : c.perform s.heap = .error stop h') : s.FailsAtomically c stop h' := by
  obtain ⟨χ, ht⟩ := hs.sound
  rcases (ends_perform_leaves ht hc).cases with ⟨q, h₁, heq, -⟩ | ⟨e, h₁, heq, hcall⟩
  · rw [hstop] at heq
    cases heq
  rw [hstop] at heq
  cases heq
  obtain ⟨hleaves, hsettle⟩ := hcall e rfl
  have hclient : s.step c = ⟨h', s.shadow⟩ := by
    unfold Client.step
    rw [hstop]
    exact congrArg (Client.mk h') hsettle
  -- a blank heap has no blocks, so nobody owns one
  have hnone : s.heap.Blank → ∀ p, ¬ s.Owns p := by
    intro hblank p hp
    obtain ⟨b, hb, -⟩ := (ht.owned_iff p).1 hp
    rw [ht.shows.eq_empty hblank] at hb
    cases hb
  cases hleaves with
  | idle hidle =>
    refine ⟨⟨e, rfl⟩, hclient, fun p _ => ?_, .inl hidle.unchanged⟩
    rw [hidle.memory]
    exact ⟨rfl, fun _ _ => rfl⟩
  | bare hblank hbare =>
    exact ⟨⟨e, rfl⟩, hclient, fun p hp => absurd hp (hnone hblank p),
      .inr ⟨hblank.directory, .inl hbare.laidOut⟩⟩
  | ready hblank hready =>
    exact ⟨⟨e, rfl⟩, hclient, fun p hp => absurd hp (hnone hblank p),
      .inr ⟨hblank.directory, .inr hready.laidOut⟩⟩

/-- A move that the sample's arena has no room for. -/
theorem sample_fails_atomically :
    Reachable sample ∧ sample.Owns 104 ∧ sample.Allows (.tryRealloc (some 104) 5000) ∧
      ∃ stop h', (Call.tryRealloc (some 104) 5000).perform sample.heap = .error stop h' ∧
        sample.FailsAtomically (.tryRealloc (some 104) 5000) stop h' := by
  have howns : sample.Owns 104 := by
    unfold Owns
    decide +kernel
  have hallowed : sample.Allows (.tryRealloc (some 104) 5000) := by decide +kernel
  have hfails : (match (Call.tryRealloc (some 104) 5000).perform sample.heap with
      | .ok _ _ => false
      | .error _ _ => true) = true := by decide +kernel
  refine ⟨reachable_sample, howns, hallowed, ?_⟩
  cases hres : (Call.tryRealloc (some 104) 5000).perform sample.heap with
  | ok q h' =>
    rw [hres] at hfails
    cases hfails
  | error stop h' => exact ⟨stop, h', rfl, reachable_sample.fails_atomically hallowed hres⟩

end Client

end SegFit
