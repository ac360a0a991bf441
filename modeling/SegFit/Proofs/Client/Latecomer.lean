import SegFit.Proofs.Client.Stages
/-!
# Heaps that come late to their store

A store may have given bytes before its heap came, and count them in its
size for good. A heap takes the size of its layout as the sign that its first
chunk is missing, so over such a store `init` does not ask for the chunk a
second time: it gives a bare heap and says that all is well
(`Reachable.init_bare_iff`). In every other case what `init` gives has a block,
and a heap that has a block is left alone.
-/

namespace SegFit

/-- **An arena that had given its first `k` bytes** before the heap came. The
heap's region is what lies behind them. -/
structure Late (k : Nat) where
  arena : Arena
  taken_le : k ≤ arena.used

theorem Arena.used_le_grow (n : Nat) (a : Arena) : a.used ≤ (a.grow n).store.used := by
  by_cases hle : a.used + n ≤ a.capacity
  · rw [grow_of_le hle]
    exact Nat.le_add_right ..
  · rw [(grow_of_lt (by omega)).2]

namespace Late

variable {k : Nat}

instance : Store (Late k) where
  grow n l :=
    { answer := (l.arena.grow n).answer
      store := ⟨(l.arena.grow n).store, Nat.le_trans l.taken_le (l.arena.used_le_grow n)⟩
      records := (l.arena.grow n).records }
  region l := ⟨l.arena.start + k, l.arena.used - k⟩
  size l := l.arena.used

/-- The size counts the bytes taken before. -/
theorem size_eq (l : Late k) : Store.size l = (Store.region l).extent + k :=
  (Nat.sub_add_cancel l.taken_le).symm

instance : Store.Lawful (Late k) where
  grow_ok {n l p} h := by
    have htaken := l.taken_le
    change (l.arena.grow n).answer = .ok p at h
    change p = l.arena.start + k + (l.arena.used - k) ∧
      (⟨(l.arena.grow n).store.start + k, (l.arena.grow n).store.used - k⟩ : Region) =
        ⟨l.arena.start + k, l.arena.used - k + n⟩
    by_cases hle : l.arena.used + n ≤ l.arena.capacity
    · rw [Arena.grow_of_le hle] at h ⊢
      cases h
      exact ⟨by omega, congrArg (Region.mk _) (Nat.sub_add_comm htaken)⟩
    · rw [(Arena.grow_of_lt (by omega)).1] at h
      cases h
  grow_error {n l e} h := by
    change (l.arena.grow n).answer = .error e at h
    change (⟨(l.arena.grow n).store.start + k, (l.arena.grow n).store.used - k⟩ : Region) = _
    by_cases hle : l.arena.used + n ≤ l.arena.capacity
    · rw [Arena.grow_of_le hle] at h
      cases h
    · rw [(Arena.grow_of_lt (by omega)).2]
      rfl
  extent_le_size l := Nat.sub_le ..

end Late

namespace Heap

variable {σ : Type} [Store σ] {h : Heap σ} {d : Directory} {χ : Chart}

/-- A heap with more than the layout has a block. -/
theorem Charted.blocks_ne_nil (hc : h.Charted d χ) (hlt : Layout.bytes < h.region.extent) :
    h.blocks ≠ [] := by
  intro hnil
  have hextent := hc.extent_eq
  rw [← hc.blocks_eq, hnil, List.map_nil, List.sum_nil] at hextent
  omega

/-- A heap of another size than its layout's is left alone. -/
theorem init_of_size_ne (hd : h.directory = some d) (hsize : h.size ≠ Layout.bytes) :
    init h = .ok () h := by
  rw [init, bind_of_ok (ready_of_some hd), get_bind, if_neg hsize]
  rfl

/-- A heap of its layout's size asks for its first chunk. -/
theorem init_of_size_eq (hd : h.directory = some d) (hsize : h.size = Layout.bytes) :
    init h = firstChunk d h := by
  rw [init, bind_of_ok (ready_of_some hd), get_bind, if_pos hsize]

/-- A blank heap that `init` makes ready has a block. -/
theorem Blank.ends_init [Store.Lawful σ] (hb : h.Blank) :
    Ends init h fun r h' => r = .ok () → h'.blocks ≠ [] := by
  rcases (ends_ready_of_blank hb).cases with ⟨d, h₁, hready, rfl, hmade⟩ | ⟨e, h₁, hready, -⟩
  · have hd := hmade.charted.directory
    have hlt : Layout.bytes < h₁.region.extent := by
      rw [hmade.region]
      exact Nat.lt_add_of_pos_right (by decide)
    have hsize : h₁.size ≠ Layout.bytes :=
      Nat.ne_of_gt (Nat.lt_of_lt_of_le hlt (Store.Lawful.extent_le_size h₁.store))
    simp only [init, ends_bind, ends_of_ok hready, ends_get, if_neg hsize, ends_pure]
    exact fun _ => hmade.charted.blocks_ne_nil hlt
  · simp only [init, ends_bind, ends_of_failed hready]
    exact fun hok => by cases hok

end Heap

namespace Client

variable {σ : Type} [Store σ] [Store.Lawful σ] {s : Client σ} {k : Nat}

/-- **What `init` says is so, but for one case.** A store counts `k` bytes that
are none of the heap's. A heap that has a block is left alone, and the store
is not asked. Where `init` says that all is well there is a block, unless `k`
is not zero and the heap was bare: that heap is left alone too. -/
theorem Reachable.init_bare_iff (hsize : ∀ t : σ, Store.size t = (Store.region t).extent + k)
    (hs : Reachable s) :
    (s.heap.blocks ≠ [] → Heap.init s.heap = .ok () s.heap) ∧
      ∀ h', Heap.init s.heap = .ok () h' →
        (h'.blocks = [] ↔ k ≠ 0 ∧ s.heap.stage = .bare) ∧ (h'.blocks = [] → h' = s.heap) := by
  obtain ⟨χ, ht⟩ := hs.sound
  cases ht.shows with
  | blank hblank =>
    have hstage := Heap.stage_of_none hblank.directory
    refine ⟨fun hne => absurd ?_ hne, fun h' hinit => ?_⟩
    · rw [Heap.blocks, hblank.directory]
      rfl
    · have hblocks := (Heap.ends_of_ok hinit).1 hblank.ends_init rfl
      rw [hstage]
      exact ⟨⟨fun hnil => absurd hnil hblocks, fun hbare => by cases hbare.2⟩,
        fun hnil => absurd hnil hblocks⟩
  | charted d hc =>
    have hd := hc.directory
    have hcount : s.heap.size = s.heap.region.extent + k := hsize s.heap.store
    have hextent := hc.extent_eq
    by_cases hlayout : s.heap.region.extent = Layout.bytes
    · -- nothing but the layout: only for `k = 0` does the size say so
      have hbare : s.heap.stage = .bare := by rw [hc.stage_eq, if_pos hlayout]
      obtain rfl := hc.eq_empty_of_bare hbare
      have hnil : s.heap.blocks = [] := hc.blocks_eq
      refine ⟨fun hne => absurd hnil hne, fun h' hinit => ?_⟩
      by_cases hk : k = 0
      · rw [Heap.init_of_size_eq hd (by omega)] at hinit
        obtain ⟨hc', hregion, -⟩ := (Heap.ends_of_ok hinit).1 (Heap.ends_firstChunk hc)
        have hblocks := hc'.blocks_ne_nil (by
          rw [hregion, hlayout]
          exact Nat.lt_add_of_pos_right (by decide))
        exact ⟨⟨fun hnil => absurd hnil hblocks, fun hne => absurd hk hne.1⟩,
          fun hnil => absurd hnil hblocks⟩
      · rw [Heap.init_of_size_ne hd (by omega)] at hinit
        cases hinit
        exact ⟨⟨fun _ => ⟨hk, hbare⟩, fun _ => hnil⟩, fun _ => rfl⟩
    · have hblocks := hc.blocks_ne_nil (by omega)
      have hinit' := Heap.init_of_size_ne hd (h := s.heap) (by omega)
      refine ⟨fun _ => hinit', fun h' hinit => ?_⟩
      rw [hinit'] at hinit
      cases hinit
      refine ⟨⟨fun hnil => absurd hnil hblocks, fun hbare => ?_⟩, fun _ => rfl⟩
      rw [hc.stage_eq, if_neg hlayout] at hbare
      cases hbare.2

/-- A client that comes to an arena eight bytes late, and has asked a first
time: there was room for the layout, but for no chunk. -/
def late : Client (Late 8) :=
  run ⟨{ store := ⟨{ capacity := 64, used := 8, capacity_lt := by decide }, Nat.le_refl 8⟩ },
    fun _ => none⟩ [.init]

theorem reachable_late : Reachable late :=
  Reachable.run (.start ⟨rfl, rfl, fun haudits => Bool.noConfusion haudits⟩) (by decide)

theorem late_init_bare_iff :
    (∀ t : Late 8, Store.size t = (Store.region t).extent + 8) ∧ Reachable late ∧
      ∀ h', Heap.init late.heap = .ok () h' →
        (h'.blocks = [] ↔ (8 : Nat) ≠ 0 ∧ late.heap.stage = .bare) :=
  ⟨Late.size_eq, reachable_late, fun h' hinit =>
    ((reachable_late.init_bare_iff Late.size_eq).2 h' hinit).1⟩

/-- **`init` may say that all is well without a block**, though it failed for
want of one a moment before. -/
theorem late_init_without_block :
    ¬ ∀ (s : Client (Late 8)) (h' : Heap (Late 8)), Reachable s →
      Heap.init s.heap = .ok () h' → h'.blocks ≠ [] := by
  intro hall
  have hinit : Heap.init late.heap = .ok () late.heap :=
    Heap.init_of_size_ne (d := .ofBase 24) (by decide +kernel) (by decide +kernel)
  exact hall late late.heap reachable_late hinit (by decide +kernel)

end Client

end SegFit
