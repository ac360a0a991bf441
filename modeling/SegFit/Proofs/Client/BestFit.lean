import SegFit.Proofs.Client.WellFormed
/-!
# Allocation takes the best fit

A request is served from the smallest free block of the whole heap that
is large enough, though only some lists are searched and the search stops
at the first block that fits (`Client.Reachable.tryMalloc_bestFit`).
-/

namespace SegFit

variable {σ : Type} [Store σ]

/-- **The block an exhaustive scan would choose**: free and large enough,
no larger than any other such block of the heap, and in its list before
all others of its size. -/
structure Heap.BestFit (h : Heap σ) (need : Nat) (b : Block) : Prop where
  mem : b ∈ h.blocks
  free : b.isAllocated = false
  fits : need ≤ b.size
  least : ∀ e ∈ h.blocks, e.isAllocated = false → need ≤ e.size → b.size ≤ e.size
  first : ∃ pre post, h.list (SizeClass.ofSize b.size) = pre ++ b.payload :: post ∧
    ∀ p ∈ pre, h.memory.blockSize p < b.size

/-- What a request of `need` bytes makes of a free block. -/
def Block.split (b : Block) (need : Nat) : List Block :=
  if b.size - need < Layout.minBlock then [⟨b.payload, b.size, true⟩]
  else [⟨b.payload, need, true⟩, ⟨b.payload + need, b.size - need, false⟩]

theorem Block.split_eq (b : Block) (need : Nat) :
    b.split need = Chart.served b need :: (Chart.leftOver b need).toList := by
  rw [split, Chart.served, Chart.leftOver]
  split <;> rfl

namespace Heap

variable {h : Heap σ} {d : Directory} {χ : Chart} {need : Nat} {b e : Block}

/-- There is at most one best fit. -/
theorem Charted.bestFit_unique (hc : h.Charted d χ) (hb : h.BestFit need b)
    (he : h.BestFit need e) : e = b := by
  have hsize : e.size = b.size :=
    Nat.le_antisymm (he.least b hb.mem hb.free hb.fits) (hb.least e he.mem he.free he.fits)
  have hbin := hb.mem
  have hein := he.mem
  rw [hc.blocks_eq] at hbin hein
  have hbs := hc.depicts.blockSize_eq hbin
  have hes := hc.depicts.blockSize_eq hein
  obtain ⟨pre, post, hlist, hpre⟩ := hb.first
  obtain ⟨pre', post', hlist', hpre'⟩ := he.first
  -- neither comes before the other in their list
  rw [hsize, hlist] at hlist'
  rcases List.append_eq_append_iff.1 hlist' with ⟨as, rfl, has⟩ | ⟨as, rfl, has⟩
  · cases as with
    | nil =>
      exact hc.depicts.tiles.eq_of_payload hein hbin (List.cons.inj has).1.symm
    | cons x as =>
      have hx : b.payload = x := (List.cons.inj has).1
      have := hpre' x (by simp)
      rw [← hx, hbs] at this
      omega
  · cases as with
    | nil =>
      exact hc.depicts.tiles.eq_of_payload hein hbin (List.cons.inj has).1
    | cons x as =>
      have hx : e.payload = x := (List.cons.inj has).1
      have := hpre x (by simp)
      rw [← hx, hes] at this
      omega

/-- The chart's fit is the heap's best. -/
theorem Charted.bestFit (hc : h.Charted d χ) (hb : χ.findFit need = some b) : h.BestFit need b := by
  obtain ⟨hfiled, hle⟩ := hc.depicts.mem_of_findFit hb
  obtain ⟨hmem, hfree, -⟩ := hc.depicts.listed _ b hfiled
  obtain ⟨hleast, pre, post, hlist, hpre⟩ := hc.depicts.bestFit hc.settled hb
  refine ⟨by rw [hc.blocks_eq]; exact hmem, hfree, hle, ?_, pre.map Block.payload,
    post.map Block.payload, ?_, ?_⟩
  · rw [hc.blocks_eq]
    exact hleast
  · rw [hc.list_eq, hlist, List.map_append, List.map_cons]
  · intro p hp
    obtain ⟨e, he, rfl⟩ := List.mem_map.1 hp
    have hin : e ∈ χ.lists (SizeClass.ofSize b.size) := by
      rw [hlist]
      exact List.mem_append_left _ he
    rw [hc.depicts.blockSize_eq (hc.depicts.listed _ e hin).1]
    have := hpre e he
    omega

end Heap

namespace Client

variable {s : Client σ} {d : Directory} {n need : Nat}

/-- **Global best fit.** Nothing is found exactly if no free block is large
enough; otherwise the one best fit is taken, without the store, and
replaced in its place by the request and what it leaves. -/
theorem Reachable.tryMalloc_bestFit [Store.Lawful σ] (hs : Reachable s)
    (hd : s.heap.directory = some d) (hn : 0 < n) (hneed : Layout.blockSizeFor? n = some need) :
    (d.findFit s.heap.memory need = none ↔
        ∀ e ∈ s.heap.blocks, e.isAllocated = false → e.size < need) ∧
      ((∃ e ∈ s.heap.blocks, e.isAllocated = false ∧ need ≤ e.size) →
        ∃ b h' pre post, s.heap.BestFit need b ∧ (∀ e, s.heap.BestFit need e → e = b) ∧
          d.findFit s.heap.memory need = some b.payload ∧
          Heap.tryMalloc n s.heap = .ok (some b.payload) h' ∧ h'.store = s.heap.store ∧
          s.heap.blocks = pre ++ b :: post ∧ h'.blocks = pre ++ b.split need ++ post) := by
  obtain ⟨χ, hc, -⟩ := hs.sound.charted hd
  have hnone : χ.findFit need = none ↔ ∀ e ∈ χ.blocks, e.isAllocated = false → e.size < need :=
    hc.depicts.findFit_eq_none_iff hc.settled
  rw [← hc.blocks_eq] at hnone
  refine ⟨by rw [hc.depicts.findFit_eq, Option.map_eq_none_iff, hnone], ?_⟩
  rintro ⟨e, he, hfree, hle⟩
  obtain ⟨b, hb⟩ : ∃ b, χ.findFit need = some b := by
    refine Option.ne_none_iff_exists'.1 ?_
    intro hnil
    have := hnone.1 hnil e he hfree
    omega
  have hbest := hc.bestFit hb
  obtain ⟨hfiled, hle⟩ := hc.depicts.mem_of_findFit hb
  obtain ⟨-, -, hlarge, h8, -⟩ := Layout.blockSizeFor?_eq_some hneed
  obtain ⟨pre, post, hbs⟩ := List.append_of_mem (hc.depicts.listed _ b hfiled).1
  have hblocks : (χ.carve b need).blocks = pre ++ Chart.served b need ::
      ((Chart.leftOver b need).toList ++ post) := Chart.blocks_carve hc.depicts.tiles hbs
  -- of all that can come of an allocation, only the fit is possible
  obtain ⟨h', hrun, hstore, hc'⟩ : ∃ h', Heap.tryMalloc n s.heap = .ok (some b.payload) h' ∧
      h'.store = s.heap.store ∧ h'.Charted d (χ.carve b need) := by
    rcases (Heap.ends_tryMalloc hc n).cases with ⟨q, h', hrun, ha⟩ | ⟨e, h', -, ha⟩
    · cases ha with
      | nothing hn' => omega
      | served _ hneed' hsource _ hc' =>
        obtain rfl : need = _ := Option.some.inj (hneed.symm.trans hneed')
        cases hsource with
        | fit hfit hstore =>
          obtain rfl : b = _ := Option.some.inj (hb.symm.trans hfit)
          exact ⟨h', hrun, hstore, hc'⟩
        | grown hfit =>
          rw [hb] at hfit
          cases hfit
    · cases ha with
      | oversized _ hneed' =>
        rw [hneed] at hneed'
        cases hneed'
      | refused _ hneed' hfit =>
        obtain rfl : need = _ := Option.some.inj (hneed.symm.trans hneed')
        rw [hb] at hfit
        cases hfit
  refine ⟨b, h', pre, post, hbest, fun e he => hc.bestFit_unique hbest he, ?_, hrun, hstore, ?_, ?_⟩
  · rw [hc.depicts.findFit_eq, hb, Option.map_some]
  · rw [hc.blocks_eq, hbs]
  · rw [hc'.blocks_eq, hblocks, Block.split_eq]
    simp

/-- A request that only the larger of the sample's two free blocks can
serve. -/
theorem sample_tryMalloc :
    Reachable sample ∧ sample.heap.directory = some (.ofBase 16) ∧
      Layout.blockSizeFor? 200 = some 208 ∧
      (∃ e ∈ sample.heap.blocks, e.isAllocated = false ∧ 208 ≤ e.size) ∧
        ∃ b h' pre post, sample.heap.BestFit 208 b ∧
          Heap.tryMalloc 200 sample.heap = .ok (some b.payload) h' ∧
          h'.store = sample.heap.store ∧ sample.heap.blocks = pre ++ b :: post ∧
          h'.blocks = pre ++ b.split 208 ++ post := by
  have hd : sample.heap.directory = some (.ofBase 16) := by decide +kernel
  have hneed : Layout.blockSizeFor? 200 = some 208 := by decide
  have hfree : ∃ e ∈ sample.heap.blocks, e.isAllocated = false ∧ 208 ≤ e.size := by decide +kernel
  obtain ⟨b, h', pre, post, hbest, -, -, hrun⟩ :=
    (reachable_sample.tryMalloc_bestFit hd (n := 200) (by decide) hneed).2 hfree
  exact ⟨reachable_sample, hd, hneed, hfree, b, h', pre, post, hbest, hrun⟩

end Client

end SegFit
