import SegFit.Audit.Blocks
import SegFit.Proofs.Tiling
import Mathlib.Data.List.Basic
/-!
# A clean walk over the blocks

The walk from block to block reads memory that may hold anything. If it
notes nothing wrong, the headers do lead from the prologue to an epilogue
at the end of the region (`Walked`), what they lead through is the block
sequence (`blocks_eq_of_walked`), and the free blocks noted are those of
the sequence (`free_walkBlocks`).
-/

namespace SegFit

namespace Audit

variable {m : Memory} {r : Region} {d : Directory} {s : Survey} {p : Nat} {b : Block}
  {bs : List Block} {afterFree : Bool}

/-- Nothing wrong has been noted. -/
def Survey.Clean (s : Survey) : Prop := s.violations = #[]

theorem Survey.clean_note {wrong : Bool} {v : Violation} :
    (s.note wrong v).Clean ↔ s.Clean ∧ wrong = false := by
  cases wrong with
  | false => exact (and_iff_left rfl).symm
  | true =>
    constructor
    · intro h
      exact absurd h (Array.push_ne_empty)
    · rintro ⟨-, h⟩
      cases h

/-- A walk that stops for a violation is not clean. -/
theorem Survey.not_clean {v : Violation} : ¬ (s.note true v).Clean := by
  rw [clean_note]
  rintro ⟨-, h⟩
  cases h

theorem Survey.clean_enter {header footer : Tag} :
    (s.enter p header footer afterFree).Clean ↔
      s.Clean ∧ header = footer ∧ (header.isAllocated = false → afterFree = false) := by
  unfold enter
  cases header.isAllocated with
  | true => simp [clean_note]
  | false =>
    have hpush : ∀ t : Survey, Clean { t with free := t.free.push p } ↔ t.Clean :=
      fun _ => Iff.rfl
    simp [clean_note, hpush, and_assoc]

/-- The payloads of the free blocks of a sequence. -/
def freeOf (bs : List Block) : List Nat := (bs.filter fun b => !b.isAllocated).map Block.payload

theorem freeOf_cons (b : Block) (bs : List Block) :
    freeOf (b :: bs) = (if b.isAllocated then [] else [b.payload]) ++ freeOf bs := by
  unfold freeOf
  rw [List.filter_cons]
  cases b.isAllocated <;> rfl

theorem mem_freeOf : p ∈ freeOf bs ↔ ∃ b ∈ bs, b.payload = p ∧ b.isAllocated = false := by
  simp only [freeOf, List.mem_map, List.mem_filter, Bool.not_eq_true']
  constructor
  · rintro ⟨b, ⟨hb, hfree⟩, rfl⟩
    exact ⟨b, hb, rfl, hfree⟩
  · rintro ⟨b, hb, rfl, hfree⟩
    exact ⟨b, ⟨hb, hfree⟩, rfl⟩

theorem Survey.free_note (wrong : Bool) (v : Violation) : (s.note wrong v).free = s.free := by
  cases wrong <;> rfl

theorem Survey.free_enter (header footer : Tag) :
    (s.enter p header footer afterFree).free.toList =
      s.free.toList ++ if header.isAllocated then [] else [p] := by
  unfold enter
  cases header.isAllocated with
  | true => simp [free_note]
  | false => simp [free_note]

theorem Survey.violations_note (wrong : Bool) (v : Violation) :
    (s.note wrong v).violations.toList = s.violations.toList ++ if wrong then [v] else [] := by
  cases wrong with
  | false => exact (List.append_nil _).symm
  | true => exact Array.toList_push

/-- A block whose tags agree, and that is not free after a free one, adds
no violation. -/
theorem Survey.violations_enter {t : Tag} (hparted : t.isAllocated = false → afterFree = false) :
    (s.enter p t t afterFree).violations = s.violations := by
  unfold enter
  rw [bne_self_eq_false]
  cases ht : t.isAllocated with
  | true => rfl
  | false =>
    rw [hparted ht]
    rfl

/-- The violations of blocks that are out of alignment. -/
def misaligned (bs : List Block) : List Violation :=
  (bs.filter fun b => !Layout.isAligned b.payload).map fun b => .misaligned b.payload

theorem misaligned_cons (b : Block) (bs : List Block) :
    misaligned (b :: bs) =
      (if !Layout.isAligned b.payload then [.misaligned b.payload] else []) ++ misaligned bs := by
  unfold misaligned
  rw [List.filter_cons]
  cases Layout.isAligned b.payload <;> rfl

/-! ## The walk -/

/-- The walk over a memory as it is. -/
theorem walkBlocks_plain (s : Survey) (p : Nat) (afterFree : Bool) :
    walkBlocks (.plain m) r p afterFree s = (
      if r.Holds (p - Layout.word) then
        if m.header p = .epilogue then s.note (p != r.stop) (.badEpilogue p)
        else if m.blockSize p = 0 then s.note true (.zeroSize p)
        else if r.Holds (p + Layout.wrappingSub (m.blockSize p) (Layout.word + 1)) then
          walkBlocks (.plain m) r (m.after p) (!m.isAllocated p)
            ((s.note (!Layout.isAligned p) (.misaligned p)).enter p (m.header p) (m.footer p)
              afterFree)
        else (s.note (!Layout.isAligned p) (.misaligned p)).note true (.outOfHeap p)
      else s.note true (.outOfHeap p) : Id Survey) := by
  rw [walkBlocks]
  rfl

/-- **A block that a clean walk passes**, after one that was free or not. -/
structure Passed (m : Memory) (r : Region) (afterFree : Bool) (b : Block) : Prop where
  read : b = ⟨b.payload, m.blockSize b.payload, m.isAllocated b.payload⟩
  large : 8 ≤ b.size
  aligned : b.payload % 8 = 0
  header : r.Holds (b.payload - 4)
  footer : r.Holds (b.payload + (b.size - 5))
  tags : m.header b.payload = m.footer b.payload
  parted : b.isAllocated = false → afterFree = false

/-- **What a clean walk goes through**: blocks, each directly after the
one before, and an epilogue at the end of the region. -/
def Walked (m : Memory) (r : Region) : Nat → Bool → List Block → Prop
  | p, _, [] => p = r.stop ∧ r.Holds (p - 4) ∧ m.header p = .epilogue
  | p, afterFree, b :: bs =>
    b.payload = p ∧ Passed m r afterFree b ∧ Walked m r b.after (!b.isAllocated) bs

namespace Passed

theorem size_eq (h : Passed m r afterFree b) : b.size = m.blockSize b.payload :=
  congrArg Block.size h.read

theorem isAllocated_eq (h : Passed m r afterFree b) : b.isAllocated = m.isAllocated b.payload :=
  congrArg Block.isAllocated h.read

theorem after_eq (h : Passed m r afterFree b) : m.after b.payload = b.after := by
  unfold Memory.after
  unfold Block.after
  rw [h.size_eq]

/-- A block that is passed is no epilogue, which has no size. -/
theorem ne_epilogue (h : Passed m r afterFree b) : m.header b.payload ≠ .epilogue := by
  intro hep
  have hzero : m.blockSize b.payload = 0 := by rw [Memory.blockSize, hep]; rfl
  have hsize := h.size_eq
  have := h.large
  omega

end Passed

theorem walked_iff_of_epilogue (hep : m.header p = .epilogue) :
    (∃ bs, Walked m r p afterFree bs) ↔ p = r.stop ∧ r.Holds (p - 4) := by
  constructor
  · rintro ⟨_ | ⟨b, bs⟩, hw⟩
    · exact ⟨hw.1, hw.2.1⟩
    · obtain ⟨rfl, hb, -⟩ := hw
      exact absurd hep hb.ne_epilogue
  · rintro ⟨hp, hin⟩
    exact ⟨[], hp, hin, hep⟩

theorem walked_iff_of_ne (hep : m.header p ≠ .epilogue) :
    (∃ bs, Walked m r p afterFree bs) ↔
      Passed m r afterFree ⟨p, m.blockSize p, m.isAllocated p⟩ ∧
        ∃ bs, Walked m r (m.after p) (!m.isAllocated p) bs := by
  constructor
  · rintro ⟨_ | ⟨b, bs⟩, hw⟩
    · exact absurd hw.2.2 hep
    · obtain ⟨rfl, hb, hw⟩ := hw
      have hread := hb.read
      rw [hread] at hb hw
      exact ⟨hb, bs, hw⟩
  · rintro ⟨hb, bs, hw⟩
    exact ⟨_ :: bs, rfl, hb, hw⟩

/-- **A walk is clean exactly if there are blocks for it to go through.** -/
theorem clean_walkBlocks :
    Survey.Clean (walkBlocks (.plain m) r p afterFree s) ↔
      s.Clean ∧ ∃ bs, Walked m r p afterFree bs := by
  -- on the bytes left before the end of the region
  induction hn : r.stop + 4 - p using Nat.strong_induction_on generalizing p afterFree s with
  | _ n ih =>
  rw [walkBlocks_plain]
  by_cases hep : m.header p = .epilogue
  · rw [if_pos hep, walked_iff_of_epilogue hep]
    split
    · rename_i hin
      rw [Survey.clean_note, bne_eq_false_iff_eq, and_iff_left hin]
    · rename_i hin
      exact iff_of_false Survey.not_clean fun h => hin h.2.2
  · rw [if_neg hep, walked_iff_of_ne hep]
    split
    · rename_i hin
      split
      · rename_i hzero
        refine iff_of_false Survey.not_clean ?_
        intro h
        have := h.2.1.large
        dsimp only at this
        omega
      · have h8 : 8 ≤ m.blockSize p := by
          have := (m.header p).eight_dvd_size
          have hsize : m.blockSize p = (m.header p).size := rfl
          omega
        have hleft : r.stop + 4 - m.after p < n := by
          have := hin.2
          simp only [Memory.after, Layout.word] at this ⊢
          omega
        rw [Layout.wrappingSub_of_le (by simp only [Layout.word]; omega)]
        split
        · rename_i hfit
          rw [ih _ hleft rfl, Survey.clean_enter, Survey.clean_note]
          have haligned : (!Layout.isAligned p) = false ↔ p % 8 = 0 := by simp [Layout.isAligned]
          rw [haligned]
          constructor
          · rintro ⟨⟨⟨hs, haligned⟩, htags, hparted⟩, hw⟩
            exact ⟨hs, ⟨rfl, h8, haligned, hin, hfit, htags, hparted⟩, hw⟩
          · rintro ⟨hs, hb, hw⟩
            exact ⟨⟨⟨hs, hb.aligned⟩, hb.tags, hb.parted⟩, hw⟩
        · rename_i hfit
          exact iff_of_false Survey.not_clean fun h => hfit h.2.1.footer
    · rename_i hin
      exact iff_of_false Survey.not_clean fun h => hin h.2.1.header

theorem Walked.read (h : Walked m r p afterFree bs) (hb : b ∈ bs) :
    b.isAllocated = m.isAllocated b.payload := by
  induction bs generalizing p afterFree with
  | nil => cases hb
  | cons e bs ih =>
    rcases List.mem_cons.1 hb with rfl | hb
    · exact h.2.1.isAllocated_eq
    · exact ih h.2.2 hb

/-- What a clean walk goes through is the block sequence. -/
theorem blocks_eq_of_walked (h : Walked m r p afterFree bs) : m.blocks r.stop p = bs := by
  induction bs generalizing p afterFree with
  | nil =>
    have hzero : m.blockSize p = 0 := by rw [Memory.blockSize, h.2.2]; rfl
    unfold Memory.blocks
    rw [if_pos (Nat.le_of_eq h.1), if_pos hzero]
  | cons b bs ih =>
    obtain ⟨rfl, hb, hw⟩ := h
    have hsize := hb.size_eq
    have hlarge := hb.large
    have hle : b.payload ≤ r.stop := by
      have := hb.footer.2
      omega
    unfold Memory.blocks
    rw [if_pos hle, if_neg (by omega), hb.after_eq, ih hw, ← hb.read]

/-- The free blocks a clean walk notes are those it goes through. -/
theorem free_walkBlocks (h : Walked m r p afterFree bs) :
    (Survey.free (walkBlocks (.plain m) r p afterFree s)).toList = s.free.toList ++ freeOf bs := by
  induction bs generalizing p afterFree s with
  | nil =>
    rw [walkBlocks_plain, if_pos h.2.1, if_pos h.2.2, Survey.free_note]
    exact (List.append_nil _).symm
  | cons b bs ih =>
    obtain ⟨rfl, hb, hw⟩ := h
    have hsize := hb.size_eq
    have hlarge := hb.large
    have hfit : r.Holds (b.payload + Layout.wrappingSub (m.blockSize b.payload) 5) := by
      rw [← hsize, Layout.wrappingSub_of_le (by omega)]
      exact hb.footer
    rw [walkBlocks_plain, if_pos hb.header, if_neg hb.ne_epilogue, if_neg (by omega), if_pos hfit,
      hb.after_eq, ← hb.isAllocated_eq, ih hw, Survey.free_enter, Survey.free_note, freeOf_cons,
      List.append_assoc, hb.isAllocated_eq]
    rfl

/-! ## From the prologue on -/

theorem header_eq_prologue_iff : m.header d.origin = .prologue ↔ m.word (d.origin - 4) = 9 := by
  have hprologue : (⟨9⟩ : Tag) = .prologue := rfl
  rw [Memory.header, ← hprologue, Tag.mk.injEq]

theorem footer_eq_prologue_iff (h : m.header d.origin = .prologue) :
    m.footer d.origin = .prologue ↔ m.word d.origin = 9 := by
  have hprologue : (⟨9⟩ : Tag) = .prologue := rfl
  have hat : m.footerAt d.origin = d.origin := by
    rw [Memory.footerAt, Memory.blockSize, h, Tag.size_prologue]
    exact Nat.add_sub_cancel _ _
  rw [Memory.footer, hat, ← hprologue, Tag.mk.injEq]

/-- The survey of a memory as it is. -/
theorem surveyBlocks_plain :
    surveyBlocks (.plain m) r d = (
      if m.header d.origin = .prologue then
        if m.footer d.origin = .prologue then walkBlocks (.plain m) r d.firstBlock false {}
        else Survey.note {} true (.badPrologue (m.header d.origin))
      else Survey.note {} true (.badPrologue (m.header d.origin)) : Id Survey) := by
  unfold surveyBlocks
  by_cases hheader : m.header d.origin = .prologue
  · have hfirst : d.origin + (m.header d.origin).size = d.firstBlock := by
      rw [hheader, Tag.size_prologue, Directory.firstBlock]
    rw [← hfirst]
    rfl
  · rw [if_neg hheader]
    exact if_neg hheader

/-- **A survey is clean** exactly if the prologue's tags are its own and a
walk from there is clean. -/
theorem clean_surveyBlocks :
    Survey.Clean (surveyBlocks (.plain m) r d) ↔
      m.header d.origin = .prologue ∧ m.footer d.origin = .prologue ∧
        ∃ bs, Walked m r d.firstBlock false bs := by
  rw [surveyBlocks_plain]
  split
  · rename_i hheader
    split
    · rename_i hfooter
      rw [clean_walkBlocks, and_iff_right hheader, and_iff_right hfooter]
      exact and_iff_right rfl
    · rename_i hfooter
      exact iff_of_false Survey.not_clean fun h => hfooter h.2.1
  · rename_i hheader
    exact iff_of_false Survey.not_clean fun h => hheader h.1

theorem free_surveyBlocks (hheader : m.header d.origin = .prologue)
    (hfooter : m.footer d.origin = .prologue) (h : Walked m r d.firstBlock false bs) :
    Survey.free (surveyBlocks (.plain m) r d) = (freeOf bs).toArray := by
  apply Array.toList_inj.1
  rw [surveyBlocks_plain, if_pos hheader, if_pos hfooter, free_walkBlocks h]
  exact List.nil_append _

end Audit

end SegFit
