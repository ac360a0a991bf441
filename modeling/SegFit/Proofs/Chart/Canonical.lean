import SegFit.Proofs.Chart.Basic
/-!
# Settled charts are canonical

A settled chart is known by its allocated blocks. Between two of them the
rest of a region is one free block, since no two free blocks touch, so a
region has only one settled sequence with given allocated blocks
(`Tiles.eq_of_isAllocated`). The lists then hold the same blocks too, and
their sizes in the same order; only blocks of one size may have changed
places (`Depicts.perm_lists`, `Depicts.map_size_lists`).
-/

namespace SegFit

section Tiles

variable {p stop : Nat} {b c : Block} {bs cs : List Block}

/-- **A free block reaches as far as any block in its place.** Behind it
comes an allocated block, which cannot begin inside the other. -/
theorem Tiles.after_le (h : Tiles p stop (b :: bs)) (h' : Tiles p stop (c :: cs))
    (hparted : (b :: bs).IsChain Block.Parted) (hfree : b.isAllocated = false)
    (hsub : ∀ e ∈ b :: bs, e.isAllocated = true → e ∈ c :: cs) : c.after ≤ b.after := by
  obtain ⟨hb, hproper, hrest⟩ := h
  have hlarge := hproper.large
  have hend : b.after = b.payload + b.size := rfl
  cases bs with
  | nil =>
    have hstop : b.after = stop := hrest
    rw [hstop]
    exact (h'.bounds List.mem_cons_self).2.1
  | cons e bs =>
    have he : e.payload = b.after := hrest.1
    have halloc : e.isAllocated = true :=
      ((List.isChain_cons.1 hparted).1 e rfl).right hfree
    have hin : e ∈ c :: cs := hsub e (by simp) halloc
    have hc : c.payload = p := h'.1
    have hne : e ≠ c := by
      rintro rfl
      omega
    have hlarge' := (h'.bounds hin).2.2.large
    have hend' : e.after = e.payload + e.size := rfl
    rcases h'.apart hin List.mem_cons_self hne with hle | hle <;> omega

/-- **A tiling without touching free blocks** is known by its allocated
blocks. -/
theorem Tiles.eq_of_isAllocated (h : Tiles p stop bs) (h' : Tiles p stop cs)
    (hbs : bs.IsChain Block.Parted) (hcs : cs.IsChain Block.Parted)
    (hsame : ∀ e, e.isAllocated = true → (e ∈ bs ↔ e ∈ cs)) : bs = cs := by
  induction bs generalizing p cs with
  | nil =>
    cases cs with
    | nil => rfl
    | cons c cs => exact absurd h (Nat.ne_of_lt h'.lt)
  | cons b bs ih =>
    cases cs with
    | nil => exact absurd h' (Nat.ne_of_lt h.lt)
    | cons c cs =>
      have hpayload : b.payload = c.payload := h.1.trans h'.1.symm
      have hbc : b = c := by
        cases hb : b.isAllocated with
        | true =>
          exact h'.eq_of_payload ((hsame b hb).1 List.mem_cons_self) List.mem_cons_self hpayload
        | false =>
          cases hc : c.isAllocated with
          | true =>
            exact h.eq_of_payload List.mem_cons_self ((hsame c hc).2 List.mem_cons_self) hpayload
          | false =>
            -- each reaches as far as the other
            have hafter : b.after = c.after := Nat.le_antisymm
              (h'.after_le h hcs hc fun e he halloc => (hsame e halloc).2 he)
              (h.after_le h' hbs hb fun e he halloc => (hsame e halloc).1 he)
            cases b
            cases c
            simp_all [Block.after]
      subst hbc
      have hnd := h.nodup
      have hnd' := h'.nodup
      rw [List.nodup_cons] at hnd hnd'
      congr 1
      refine ih h.2.2 h'.2.2 (List.isChain_cons.1 hbs).2 (List.isChain_cons.1 hcs).2 ?_
      intro e he
      have hiff := hsame e he
      rw [List.mem_cons, List.mem_cons] at hiff
      by_cases heb : e = b
      · subst heb
        simp [hnd.1, hnd'.1]
      · simpa [heb] using hiff

end Tiles

namespace Chart

variable {χ χ' : Chart} {d : Directory} {m m' : Memory} {stop : Nat} {e : Block} {c : SizeClass}

/-- A settled chart lists its free blocks, each in its class. -/
theorem Depicts.mem_lists_iff_free (h : χ.Depicts d stop m) (hs : χ.Settled) :
    e ∈ χ.lists c ↔ e ∈ χ.blocks ∧ e.isAllocated = false ∧ SizeClass.ofSize e.size = c := by
  refine ⟨h.listed c e, ?_⟩
  rintro ⟨hmem, hfree, rfl⟩
  exact hs.complete e hmem hfree

/-- **Settled charts with the same blocks list the same blocks.** -/
theorem Depicts.perm_lists (h : χ.Depicts d stop m) (hs : χ.Settled) (h' : χ'.Depicts d stop m')
    (hs' : χ'.Settled) (hblocks : χ.blocks = χ'.blocks) (c : SizeClass) :
    (χ.lists c).Perm (χ'.lists c) := by
  refine (List.perm_ext_iff_of_nodup (h.nodup c) (h'.nodup c)).2 fun e => ?_
  rw [h.mem_lists_iff_free hs, h'.mem_lists_iff_free hs', hblocks]

/-- And with the same sizes from the first to the last. -/
theorem Depicts.map_size_lists (h : χ.Depicts d stop m) (hs : χ.Settled)
    (h' : χ'.Depicts d stop m') (hs' : χ'.Settled) (hblocks : χ.blocks = χ'.blocks)
    (c : SizeClass) : (χ.lists c).map Block.size = (χ'.lists c).map Block.size := by
  refine ((h.perm_lists hs h' hs' hblocks c).map Block.size).eq_of_pairwise'
    (r := (· ≤ ·)) ?_ ?_
  · exact List.pairwise_map.2 (hs.sorted c)
  · exact List.pairwise_map.2 (hs'.sorted c)

/-- **A settled chart without allocated blocks** has one block, of all
there is: two free ones would touch. -/
theorem Depicts.blocks_of_all_free (h : χ.Depicts d stop m) (hs : χ.Settled)
    (hlt : d.firstBlock < stop) (hfree : ∀ e ∈ χ.blocks, e.isAllocated = false) :
    χ.blocks = [⟨d.firstBlock, stop - d.firstBlock, false⟩] := by
  have htiles := h.tiles
  have hchain := hs.coalesced
  cases hblocks : χ.blocks with
  | nil =>
    rw [hblocks] at htiles
    exact absurd htiles (Nat.ne_of_lt hlt)
  | cons b bs =>
    rw [hblocks] at htiles hchain hfree
    have hb : b.isAllocated = false := hfree b List.mem_cons_self
    cases bs with
    | nil =>
      obtain ⟨hpayload, -, hafter⟩ := tiles_singleton.1 htiles
      have hsize : b.size = stop - d.firstBlock := by
        simp only [Block.after] at hafter
        omega
      rw [← hsize, ← hpayload, ← hb]
    | cons c bs =>
      have hc : c.isAllocated = false := hfree c (by simp)
      exact absurd (((List.isChain_cons_cons.1 hchain).1).right hb) (by simp [hc])

/-- A block on its own is on its own in its list, and no other has a
block. -/
theorem Depicts.lists_of_blocks_eq_singleton (h : χ.Depicts d stop m) (hs : χ.Settled)
    (hblocks : χ.blocks = [e]) (hfree : e.isAllocated = false) (c : SizeClass) :
    χ.lists c = if c = SizeClass.ofSize e.size then [e] else [] := by
  have hmem : ∀ b, b ∈ χ.lists c ↔ b = e ∧ c = SizeClass.ofSize e.size := by
    intro b
    rw [h.mem_lists_iff_free hs, hblocks, List.mem_singleton]
    constructor
    · rintro ⟨rfl, -, rfl⟩
      exact ⟨rfl, rfl⟩
    · rintro ⟨rfl, rfl⟩
      exact ⟨rfl, hfree, rfl⟩
  split
  · rename_i hc
    refine List.perm_singleton.1 ((List.perm_ext_iff_of_nodup (h.nodup c) (by simp)).2 fun b => ?_)
    rw [hmem, List.mem_singleton]
    exact and_iff_left hc
  · rename_i hc
    exact List.eq_nil_iff_forall_not_mem.2 fun b hb => hc ((hmem b).1 hb).2

end Chart

end SegFit
