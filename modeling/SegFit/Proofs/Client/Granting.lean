import SegFit.Proofs.Client.Asked
import SegFit.Proofs.Client.Stages
import SegFit.Proofs.Client.WellFormed
/-!
# Which requests are granted

Over an arena it is known beforehand what an allocation comes to. The block it
needs is too large for a tag, or some free block fits, or else the arena has to
have room for the block, a chunk at least (`Heap.Decides`). The tests are made
in that order, so the arena is asked only in the last case, and once
(`Client.Reachable.tryMalloc_decides`).
-/

namespace SegFit

namespace Store.Conforms

variable {σ : Type} [Store σ] {arena : σ → Arena} {s : σ} {g : Nat}

/-- What is like an arena gives what the arena has. -/
theorem grow_of_le (harena : Conforms arena) (hle : Store.size s + g ≤ (arena s).capacity) :
    (∃ p, (Store.grow g s).answer = .ok p) ∧
      Store.size (Store.grow g s).store = Store.size s + g := by
  have hused : (arena s).used = Store.size s := harena.size s
  have hgrow := Arena.grow_of_le (n := g) (a := arena s) (by rw [hused]; exact hle)
  rw [← harena.answer, ← harena.size (Store.grow g s).store, ← harena.store, ← hused]
  change (∃ p, ((arena s).grow g).answer = .ok p) ∧ ((arena s).grow g).store.used = _
  rw [hgrow]
  exact ⟨⟨_, rfl⟩, rfl⟩

/-- And nothing beyond it. -/
theorem grow_of_lt (harena : Conforms arena) (hlt : (arena s).capacity < Store.size s + g) :
    (Store.grow g s).answer = .error .outOfMemory ∧
      Store.size (Store.grow g s).store = Store.size s := by
  have hused : (arena s).used = Store.size s := harena.size s
  obtain ⟨hanswer, hsame⟩ := Arena.grow_of_lt (n := g) (a := arena s) (by rw [hused]; exact hlt)
  rw [← harena.answer, ← harena.size (Store.grow g s).store, ← harena.store, ← hused]
  exact ⟨hanswer, congrArg Arena.used hsame⟩

end Store.Conforms

namespace Heap

section Views

variable {σ : Type} [Store σ]

/-- Some free block is large enough. -/
def Fits (h : Heap σ) (need : Nat) : Prop :=
  ∃ b ∈ h.blocks, b.isAllocated = false ∧ need ≤ b.size

/-- **How an allocation of `n` bytes is decided** that needs a block of `a`
bytes, in a heap over an arena of the given capacity: what it answers, the heap
it leaves, and what it asked of the arena. -/
structure Decides (h : Heap σ) (capacity n a : Nat) (r : Except Failure (Option Nat))
    (h' : Heap σ) (asked : List (Nat × Except Failure Nat)) : Prop where
  overflow_iff : r = .error .overflow ↔ 2 ^ 32 - 1 < a
  tag_iff : 2 ^ 32 - 1 < a ↔ 2 ^ 32 - 16 < n
  outOfMemory_iff : r = .error .outOfMemory ↔
    a ≤ 2 ^ 32 - 1 ∧ ¬ h.Fits a ∧ capacity < h.size + max a 4096
  pointer : r ≠ .error .overflow → r ≠ .error .outOfMemory → ∃ p, r = .ok (some p)
  /-- Where a block fits, the arena is not asked. -/
  fits : h.Fits a → h'.size = h.size ∧ asked = []
  /-- Where none does, it is asked once, for all that the heap grows by. -/
  grows : ∀ q, r = .ok q → ¬ h.Fits a →
    h'.size = h.size + max a 4096 ∧ ∃ p, asked = [(max a 4096, .ok p)]
  /-- A failure grants nothing. The arena was asked, once too, unless the block
  is too large or a link would not reach it. -/
  refused : ∀ e, r = .error e → h'.size = h.size ∧
    asked = if a < 2 ^ 32 ∧ h.size + max a 4096 < 2 ^ 32 then [(max a 4096, .error e)] else []

end Views

variable {σ : Type} [Store σ] [Store.Lawful σ] {arena : σ → Arena} {h : Heap σ} {d : Directory}
  {χ : Chart} {n a : Nat}

omit [Store.Lawful σ] in
theorem Charted.findFit_eq_none_iff (hc : h.Charted d χ) : χ.findFit a = none ↔ ¬ h.Fits a := by
  rw [hc.depicts.findFit_eq_none_iff hc.settled]
  simp only [Fits, hc.blocks_eq, not_exists, not_and, Nat.not_le]

/-- **Where no block fits**, an allocation comes to what growing comes to. -/
theorem ends_tryMalloc_draw (hc : h.Charted d χ) (hn : n ≠ 0)
    (hneed : Layout.blockSizeFor? n = some a) (hfit : χ.findFit a = none) :
    Ends (tryMalloc n) h fun r h' =>
      ∃ x, r = x.map some ∧ Draw h (max a Layout.chunk) x h'.store := by
  rcases (ends_extend_draw (h := h) d (max a Layout.chunk)).cases with
    ⟨p, h₀, hext, hdraw⟩ | ⟨e, h₀, hext, hdraw⟩
  · refine (ends_tryMalloc_of_extended hc hn hneed hfit hext).mono ?_
    rintro r h' ⟨g, -, rfl, hserved⟩
    exact ⟨.ok p, rfl, hserved.store ▸ hdraw⟩
  · rw [ends_tryMalloc_of_not_extended hc hn hneed hfit hext]
    exact ⟨.error e, rfl, hdraw⟩

/-- **What growing comes to over an arena**: the bytes are granted if there
are so many, and else refused, whether the arena was asked or not. -/
theorem Draw.of_arena (harena : Store.Conforms arena) {h : Heap (Ledger σ)} {g : Nat}
    {x : Except Failure Nat} {l : Ledger σ} (hdraw : Draw h g x l)
    (hg : Layout.alignUp? g = some g) :
    match x with
    | .ok _ => h.size + g ≤ (arena h.store.store).capacity ∧ Store.size l = h.size + g ∧
        ∃ p, l.account = h.store.account ++ [(g, .ok p)]
    | .error e => e = .outOfMemory ∧ (arena h.store.store).capacity < h.size + g ∧
        Store.size l = h.size ∧ l.account = h.store.account ++
          if h.size + g < Layout.wordRange then [(g, .error e)] else [] := by
  rcases hdraw.of_rounded hg with ⟨hrange, rfl, rfl⟩ | ⟨hrange, rfl, hanswered⟩
  · -- no arena is as large as what a link cannot reach
    have hcapacity := (arena h.store.store).capacity_lt
    refine ⟨rfl, by omega, rfl, ?_⟩
    rw [if_neg (Nat.not_lt.2 hrange), List.append_nil]
  by_cases hle : h.size + g ≤ (arena h.store.store).capacity
  · obtain ⟨⟨p, hok⟩, hsize⟩ := harena.grow_of_le hle
    change (Store.grow g h.store).answer = _ at hok
    cases x with
    | ok _ => exact ⟨hle, hsize, p, by rw [Ledger.account_grow, hok]⟩
    | error e =>
      rw [hok] at hanswered
      cases hanswered
  · have hlt := Nat.lt_of_not_le hle
    obtain ⟨hno, hsize⟩ := harena.grow_of_lt hlt
    change (Store.grow g h.store).answer = _ at hno
    cases x with
    | ok _ =>
      obtain ⟨p, hok⟩ := hanswered
      rw [hno] at hok
      cases hok
    | error e =>
      rw [hno] at hanswered
      cases hanswered
      exact ⟨rfl, hlt, hsize, by rw [if_pos hrange, Ledger.account_grow, hno]⟩

/-! ## The three cases -/

/-- The decision over a ledger, by what is known of the heap before. -/
theorem Charted.decides_of_oversized (hc : h.Charted d χ) {c : Nat} (hn : n ≠ 0)
    (htag : 2 ^ 32 - 1 < a ↔ 2 ^ 32 - 16 < n) (hlarge : 2 ^ 32 ≤ a)
    (hneed : Layout.blockSizeFor? n = none) :
    Ends (tryMalloc n) h.entered fun r h' =>
      h.Decides c n a r (h'.recast Ledger.store h.auditsItself) h'.store.account.tail := by
  simp only [tryMalloc, ends_bind, ends_attempt, ends_ready_of_some hc.entered.directory, if_neg hn,
    ends_orFail, hneed]
  exact
    { overflow_iff := iff_of_true rfl (by omega)
      tag_iff := htag
      outOfMemory_iff := iff_of_false (by simp) (by omega)
      pointer := fun hno => absurd rfl hno
      fits := fun _ => ⟨rfl, rfl⟩
      grows := fun _ hq => by cases hq
      refused := fun _ _ => ⟨rfl, (if_neg fun hin => by omega).symm⟩ }

theorem Charted.decides_of_fits (hc : h.Charted d χ) {c : Nat} (hn : n ≠ 0)
    (htag : 2 ^ 32 - 1 < a ↔ 2 ^ 32 - 16 < n) (hlt : a < 2 ^ 32)
    (hneed : Layout.blockSizeFor? n = some a) (hfits : h.Fits a) :
    Ends (tryMalloc n) h.entered fun r h' =>
      h.Decides c n a r (h'.recast Ledger.store h.auditsItself) h'.store.account.tail := by
  obtain ⟨b, hfit⟩ := Option.ne_none_iff_exists'.1 fun hnone =>
    hc.findFit_eq_none_iff.1 hnone hfits
  obtain ⟨h', hrun, hstore, -⟩ := tryMalloc_of_fit hc.entered hn hneed hfit
  have hsame : (h'.recast Ledger.store h.auditsItself).size = h.size ∧
      h'.store.account.tail = [] := by
    rw [size, recast, hstore]
    exact ⟨rfl, rfl⟩
  rw [ends_of_ok hrun]
  exact
    { overflow_iff := iff_of_false (by simp) (by omega)
      tag_iff := htag
      outOfMemory_iff := iff_of_false (by simp) fun hno => hno.2.1 hfits
      pointer := fun _ _ => ⟨_, rfl⟩
      fits := fun _ => hsame
      grows := fun _ _ hno => absurd hfits hno
      refused := fun _ he => by cases he }

theorem Charted.decides_of_not_fits (harena : Store.Conforms arena) (hc : h.Charted d χ)
    (hn : n ≠ 0) (htag : 2 ^ 32 - 1 < a ↔ 2 ^ 32 - 16 < n) (hlt : a < 2 ^ 32)
    (hneed : Layout.blockSizeFor? n = some a) (hfits : ¬ h.Fits a) :
    Ends (tryMalloc n) h.entered fun r h' =>
      h.Decides (arena h.store).capacity n a r (h'.recast Ledger.store h.auditsItself)
        h'.store.account.tail := by
  refine (ends_tryMalloc_draw hc.entered hn hneed (hc.findFit_eq_none_iff.2 hfits)).mono ?_
  rintro r h' ⟨x, rfl, hdraw⟩
  have hcomes := hdraw.of_arena harena (Layout.alignUp?_max_chunk hneed)
  cases x with
  | ok p =>
    obtain ⟨hroom, hsize, q, haccount⟩ := hcomes
    have hasked : h'.store.account.tail = [(max a 4096, .ok q)] := by
      rw [haccount]
      rfl
    exact
      { overflow_iff := iff_of_false (by simp [Except.map]) (by omega)
        tag_iff := htag
        outOfMemory_iff :=
          iff_of_false (by simp [Except.map]) fun hno => absurd hno.2.2 (Nat.not_lt.2 hroom)
        pointer := fun _ _ => ⟨p, rfl⟩
        fits := fun hin => absurd hin hfits
        grows := fun _ _ _ => ⟨hsize, q, hasked⟩
        refused := fun _ he => by cases he }
  | error e =>
    obtain ⟨rfl, hroom, hsize, haccount⟩ := hcomes
    have hreach : (a < 2 ^ 32 ∧ h.size + max a 4096 < 2 ^ 32) ↔
        h.entered.size + max a Layout.chunk < Layout.wordRange :=
      ⟨fun hin => hin.2, fun hin => ⟨hlt, hin⟩⟩
    have hasked : h'.store.account.tail =
        if a < 2 ^ 32 ∧ h.size + max a 4096 < 2 ^ 32 then
          [(max a 4096, .error .outOfMemory)] else [] := by
      simp only [haccount, hreach]
      rfl
    exact
      { overflow_iff := iff_of_false (by simp [Except.map]) (by omega)
        tag_iff := htag
        outOfMemory_iff := iff_of_true rfl ⟨by omega, hfits, hroom⟩
        pointer := fun _ hno => absurd rfl hno
        fits := fun hin => absurd hin hfits
        grows := fun _ hq => by cases hq
        refused := fun _ he => by
          cases he
          exact ⟨hsize, hasked⟩ }

end Heap

namespace Client

variable {σ : Type} [Store σ] [Store.Lawful σ] {arena : σ → Arena} {s : Client σ} {n a : Nat}

/-- **Which requests are granted**, and at what cost. The heap is over an arena,
or over what a heap cannot tell from one, and `a` is the size of the block for
`n` bytes. -/
theorem Reachable.tryMalloc_decides (harena : Store.Conforms arena) (hs : Reachable s)
    (hinit : s.heap.isInitialized = true) (hn : 0 < n)
    (ha : IsLeast {k | 8 ∣ k ∧ max 16 (n + 8) ≤ k} a) :
    ∃ r, s.Answers (.tryMalloc n) r ∧
      s.heap.Decides (arena s.heap.store).capacity n a r (s.step (.tryMalloc n)).heap
        (s.asked (.tryMalloc n)) := by
  obtain ⟨d, hd⟩ := Option.isSome_iff_exists.1 hinit
  obtain ⟨χ, hc, -⟩ := hs.sound.charted hd
  have hn : n ≠ 0 := Nat.ne_of_gt hn
  have hneed := Layout.blockSizeFor?_of_isLeast ha
  have htag : 2 ^ 32 - 1 < a ↔ 2 ^ 32 - 16 < n := by
    have := Layout.lt_tagRange_iff ha
    omega
  refine hs.exists_asked (c := .tryMalloc n) (fun p hp => by cases hp) ?_
  by_cases hlt : a < 2 ^ 32
  · rw [if_pos hlt] at hneed
    by_cases hfits : s.heap.Fits a
    · exact hc.decides_of_fits hn htag hlt hneed hfits
    · exact hc.decides_of_not_fits harena hn htag hlt hneed hfits
  · rw [if_neg hlt] at hneed
    exact hc.decides_of_oversized hn htag (Nat.le_of_not_lt hlt) hneed

/-- A request that no free block of the sample fits and its arena has no room
for. -/
theorem sample_tryMalloc_decides :
    Store.Conforms (id : Arena → Arena) ∧ Reachable sample ∧
      sample.heap.isInitialized = true ∧ 0 < 5000 ∧
        IsLeast {k | 8 ∣ k ∧ max 16 (5000 + 8) ≤ k} 5008 ∧
          ∃ r, sample.Answers (.tryMalloc 5000) r ∧
            sample.heap.Decides (id sample.heap.store).capacity 5000 5008 r
              (sample.step (.tryMalloc 5000)).heap (sample.asked (.tryMalloc 5000)) := by
  have hinit : sample.heap.isInitialized = true := by decide +kernel
  have hleast : IsLeast {k | 8 ∣ k ∧ max 16 (5000 + 8) ≤ k} 5008 :=
    ⟨by decide, fun k hk => Nat.le_trans (by decide) hk.2⟩
  exact ⟨.id, reachable_sample, hinit, by decide, hleast,
    reachable_sample.tryMalloc_decides .id hinit (by decide) hleast⟩

end Client

end SegFit
