import SegFit.Proofs.Chart.Reuse
import SegFit.Proofs.Client.Coalescing
import SegFit.Proofs.Client.Freeing
/-!
# Allocating undoes giving back

A payload between allocated blocks that is given back is the next one to be
handed out for a request of its size, and the heap is put back with it: the
block is filed in front of its equals, and the search finds it there. So a
client that needs the same bytes again gets the same place, and no list has
changed (`Client.Reachable.tryMalloc_undoes_free`).
-/

namespace SegFit

variable {σ : Type} [Store σ]

namespace Heap

/-- **The payload at `p` lies between allocated blocks**, or touches the
prologue or the epilogue. -/
def Isolated (h : Heap σ) (p : Nat) : Prop :=
  ∃ pre b post, h.blocks = pre ++ b :: post ∧ b.payload = p ∧
    (∀ e ∈ pre.getLast?, e.isAllocated = true) ∧ ∀ e ∈ post.head?, e.isAllocated = true

/-- **A heap put back but for one payload**: it has the blocks and the lists it
had, and every payload but that at `p` as it was. The bytes behind `p` may
hold the links that were there. -/
structure RestoredBut (h : Heap σ) (p : Nat) (h' : Heap σ) : Prop where
  store : h'.store = h.store
  directory : h'.directory = h.directory
  blocks : h'.blocks = h.blocks
  list : ∀ c, h'.list c = h.list c
  payload : ∀ b ∈ h.blocks, b.isAllocated = true → b.payload ≠ p → ∀ i, i < b.size - 8 →
    h'.memory.byte (b.payload + i) = h.memory.byte (b.payload + i)

variable {h h₁ h₂ : Heap σ} {d : Directory} {χ : Chart} {b : Block} {pre post : List Block}

/-- **A heap that released such a block** serves it again for its size, and
shows the chart it showed before. -/
theorem Charted.serves_released [Store.Lawful σ] (hc₁ : h₁.Charted d (χ.release b).2)
    (hc : h.Charted d χ) (hbs : χ.blocks = pre ++ b :: post) (halloc : b.isAllocated = true)
    (hlast : ∀ e ∈ pre.getLast?, e.isAllocated = true)
    (hfirst : ∀ e ∈ post.head?, e.isAllocated = true) :
    ∃ h₂, tryMalloc (b.size - 8) h₁ = .ok (some b.payload) h₂ ∧ h₂.store = h₁.store ∧
      h₂.Charted d χ ∧ Chart.Keeps (χ.release b).2.blocks h₁.memory h₂.memory := by
  have hb : b ∈ χ.blocks := by rw [hbs]; simp
  have hproper := (hc.depicts.tiles.bounds hb).2.2
  have hlarge := hproper.large
  obtain ⟨hfit, hcarve⟩ := hc.depicts.carve_release hc.settled hbs halloc hlast hfirst
  obtain ⟨h₂, hrun, hstore, hc₂, hkeeps⟩ := tryMalloc_of_fit hc₁ (by omega)
    (Layout.blockSizeFor?_sub hlarge hproper.aligned (hc.depicts.size_lt hb)) hfit
  rw [hcarve] at hc₂
  exact ⟨h₂, hrun, hstore, hc₂, hkeeps⟩

/-- **With its old chart** it is put back. -/
theorem Frees.restoredBut (hf : Frees h d χ b h₁) (hc : h.Charted d χ)
    (hstore : h₂.store = h₁.store) (hc₂ : h₂.Charted d χ)
    (hkeeps : Chart.Keeps (χ.release b).2.blocks h₁.memory h₂.memory) :
    h.RestoredBut b.payload h₂ := by
  refine ⟨hstore.trans hf.store, ?_, ?_, ?_, ?_⟩
  · rw [hc₂.directory, hc.directory]
  · rw [hc₂.blocks_eq, hc.blocks_eq]
  · intro c
    rw [hc₂.list_eq, hc.list_eq]
  · rw [hc.blocks_eq]
    intro e he halloc hne i hi
    have heb : e ≠ b := fun heq => hne (congrArg Block.payload heq)
    have hmem : e ∈ (χ.release b).2.blocks := (hf.mem_blocks_iff e halloc).2 ⟨he, heb⟩
    have hkept := hf.keeps e (hc.depicts.tiles.nodup.mem_erase_iff.2 ⟨heb, he⟩) halloc
    exact (hkeeps e hmem halloc i (by omega)).trans (hkept i (by omega))

end Heap

namespace Client

variable [Store.Lawful σ] {s : Client σ} {p : Nat}

/-- **Allocating undoes giving back.** A payload between allocated blocks that
is given back, and asked for again by its size, is the one handed out. The
store is asked for nothing, and the heap is put back. -/
theorem Reachable.tryMalloc_undoes_free (hs : Reachable s) (hp : s.Owns p)
    (hisolated : s.heap.Isolated p) :
    s.asked (.free (some p)) = [] ∧
      (s.step (.free (some p))).asked (.tryMalloc (s.usable p)) = [] ∧
      s.Answers (.free (some p)) (.ok none) ∧
      (s.step (.free (some p))).Answers (.tryMalloc (s.usable p)) (.ok (some p)) ∧
      s.heap.RestoredBut p (s.run [.free (some p), .tryMalloc (s.usable p)]).heap := by
  obtain ⟨χ, ht⟩ := hs.sound
  obtain ⟨b, hb, d, hc, halloc, rfl, husable⟩ := ht.block_of_owns hp
  obtain ⟨pre, e, post, hbs, heb, hlast, hfirst⟩ := hisolated
  rw [hc.blocks_eq] at hbs
  obtain rfl : e = b := hc.depicts.tiles.eq_of_payload (by rw [hbs]; simp) hb heb
  have hfrees := step_free hc hb halloc
  obtain ⟨h₁, hfree, -⟩ := hc.free_frees hb halloc
  obtain ⟨h₂, hrun, hstore, hc₂, hkeeps⟩ :=
    hfrees.charted.serves_released hc hbs halloc hlast hfirst
  have hagain : (Call.tryMalloc (s.usable e.payload)).perform
      (s.step (.free (some e.payload))).heap = .ok (some e.payload) h₂ := by
    rw [husable]
    exact hrun
  refine ⟨hs.asked_free hp, ?_, ?_, ⟨h₂, hagain⟩, ?_⟩
  · -- over a ledger it is the same search
    obtain ⟨l₂, hentered, hsame, -⟩ :=
      hfrees.charted.entered.serves_released hc.entered hbs halloc hlast hfirst
    rw [husable]
    exact asked_eq_nil ((Heap.ends_of_ok hentered).2 hsame)
  · refine ⟨h₁, ?_⟩
    rw [Call.perform, Heap.bind_of_ok hfree]
    rfl
  · have hheap : (s.run [.free (some e.payload), .tryMalloc (s.usable e.payload)]).heap = h₂ := by
      change ((s.step (.free (some e.payload))).step (.tryMalloc (s.usable e.payload))).heap = h₂
      rw [Client.step, hagain]
      rfl
    rw [hheap]
    exact hfrees.restoredBut hc hstore hc₂ hkeeps

/-- A client that owns four payloads of one size, with a free block of that
size behind the first. -/
def gapped : Client Arena :=
  (ofArena smallArena).run
    [.malloc 24, .malloc 24, .malloc 24, .malloc 24, .malloc 24, .free (some 104)]

/-- The free block is listed behind the payload that is given back, and is not
the one that is handed out. -/
theorem gapped_tryMalloc_undoes_free :
    Reachable gapped ∧ gapped.Owns 168 ∧ gapped.heap.Isolated 168 ∧
      gapped.heap.list (SizeClass.ofSize 32) = [104] ∧
      (gapped.step (.free (some 168))).heap.list (SizeClass.ofSize 32) = [168, 104] ∧
      (gapped.step (.free (some 168))).Answers (.tryMalloc (gapped.usable 168)) (.ok (some 168)) ∧
      gapped.heap.RestoredBut 168
        (gapped.run [.free (some 168), .tryMalloc (gapped.usable 168)]).heap := by
  obtain ⟨hallowed, howns, hblocks, hlisted, hfiled⟩ :
      (ofArena smallArena).AllowsAll
          [.malloc 24, .malloc 24, .malloc 24, .malloc 24, .malloc 24, .free (some 104)] ∧
        (gapped.shadow 168).isSome ∧
        gapped.heap.blocks = [⟨72, 32, true⟩, ⟨104, 32, false⟩, ⟨136, 32, true⟩, ⟨168, 32, true⟩,
          ⟨200, 32, true⟩, ⟨232, 3936, false⟩] ∧
        gapped.heap.list (SizeClass.ofSize 32) = [104] ∧
        (gapped.step (.free (some 168))).heap.list (SizeClass.ofSize 32) = [168, 104] := by
    decide +kernel
  have hreach : Reachable gapped := (reachable_ofArena rfl).run hallowed
  have hisolated : gapped.heap.Isolated 168 :=
    ⟨[⟨72, 32, true⟩, ⟨104, 32, false⟩, ⟨136, 32, true⟩], ⟨168, 32, true⟩,
      [⟨200, 32, true⟩, ⟨232, 3936, false⟩], hblocks, rfl, by decide, by decide⟩
  obtain ⟨-, -, -, hagain, hrestored⟩ := hreach.tryMalloc_undoes_free howns hisolated
  exact ⟨hreach, howns, hisolated, hlisted, hfiled, hagain, hrestored⟩

end Client

end SegFit
