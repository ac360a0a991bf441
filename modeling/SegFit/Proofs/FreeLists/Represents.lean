import SegFit.Proofs.FreeLists.Search
import SegFit.Proofs.SizeClass
/-!
# Lists as sequences

A memory represents ten sequences of blocks if heads and links spell them, each
block is in the sequence of its class, and the blocks lie apart, from each other
and from the heads (`Represents`). Where the heads are does not matter, nor what
heap the memory is of, nor what its other bytes are. Filing a block and taking one
out are then what they are to sequences, an insertion in front of the first block
at least as large and an erasure, and both write to the links around one seam and
nowhere else (`Represents.refines`).
-/

namespace SegFit

namespace FreeLists

variable {d : FreeLists} {m m' : Memory} {c : SizeClass} {ls ls' : SizeClass → List Nat}
  {P Q : Nat → Prop} {p q a : Nat} {l l₁ l₂ : List Nat}

/-- **Blocks that lie apart**, from each other and from the heads. Each has
room for its tags and links, and is where a link can lead. A block begins with
its header, in front of the payload it is known by. -/
structure Separate (d : FreeLists) (m : Memory) (P : Nat → Prop) : Prop where
  header : ∀ p, P p → Layout.word ≤ p
  large : ∀ p, P p → 16 ≤ m.blockSize p
  reaches : ∀ p, P p → d.Reaches p
  apart : ∀ p q, P p → P q → p ≠ q → p + m.blockSize p ≤ q ∨ q + m.blockSize q ≤ p
  clear : ∀ p, P p → p - 4 + m.blockSize p ≤ d.heads ∨ d.heads + 40 ≤ p - 4

/-- A block of one of the sequences. -/
def Among (ls : SizeClass → List Nat) (p : Nat) : Prop := ∃ c, p ∈ ls c

/-- **A memory that represents ten sequences of blocks.** -/
structure Represents (d : FreeLists) (m : Memory) (ls : SizeClass → List Nat) : Prop where
  threaded : ∀ c, d.Threaded m c none (ls c)
  classed : ∀ c, ∀ p ∈ ls c, SizeClass.ofSize (m.blockSize p) = c
  separate : d.Separate m (Among ls)

/-- A sequence in ascending order of size. -/
def Ascending (m : Memory) (l : List Nat) : Prop :=
  l.Pairwise fun p q => m.blockSize p ≤ m.blockSize q

/-- **The sequences with a block filed**: behind the longest run of smaller
blocks of its class. -/
def filed (m : Memory) (p : Nat) (ls : SizeClass → List Nat) : SizeClass → List Nat :=
  let c := SizeClass.ofSize (m.blockSize p)
  Function.update ls c
    ((ls c).takeWhile (m.blockSize · < m.blockSize p) ++
      p :: (ls c).dropWhile (m.blockSize · < m.blockSize p))

/-! ## Blocks that lie apart -/

namespace Separate

theorem mono (h : d.Separate m P) (hsub : ∀ p, Q p → P p) : d.Separate m Q :=
  ⟨fun p hp => h.header p (hsub p hp), fun p hp => h.large p (hsub p hp),
    fun p hp => h.reaches p (hsub p hp), fun p q hp hq => h.apart p q (hsub p hp) (hsub q hq),
    fun p hp => h.clear p (hsub p hp)⟩

theorem congr (h : d.Separate m P) (hsize : ∀ p, P p → m'.blockSize p = m.blockSize p) :
    d.Separate m' P := by
  refine ⟨h.header, fun p hp => ?_, h.reaches, fun p q hp hq hne => ?_, fun p hp => ?_⟩
  · rw [hsize p hp]
    exact h.large p hp
  · rw [hsize p hp, hsize q hq]
    exact h.apart p q hp hq hne
  · rw [hsize p hp]
    exact h.clear p hp

/-- Their links do not overlap. -/
theorem spaced (h : d.Separate m P) : d.Spaced P := by
  refine ⟨fun {p} hp => h.reaches p hp, fun {p q} hp hq hne => ?_, fun {p} hp => ?_⟩
  · have := h.large p hp
    have := h.large q hq
    have := h.apart p q hp hq hne
    simp only [Layout.tags]
    omega
  · have hheader := h.header p hp
    have := h.large p hp
    have := h.clear p hp
    simp only [Layout.word, Layout.tags] at hheader ⊢
    omega

/-- **No link is in a header**: not of the block itself, and not of another. -/
theorem not_link_of_header (h : d.Separate m P) (hp : P p) (hq : P q)
    (ha : p - 4 ≤ a ∧ a < p) : ¬ (q ≤ a ∧ a < q + 8) := by
  by_cases hne : p = q
  · omega
  · have := h.large q hq
    have := h.apart p q hp hq hne
    omega

/-- Nor is a head. -/
theorem not_isLink_of_header (h : d.Separate m P) (hls : ∀ c, ∀ q ∈ ls c, P q) (hp : P p)
    (ha : p - 4 ≤ a ∧ a < p) : ¬ d.IsLink ls a := by
  rintro (hin | ⟨c, q, hq, hin⟩)
  · have := h.large p hp
    have := h.clear p hp
    omega
  · exact h.not_link_of_header hp (hls c q hq) ha hin

/-- So a size is kept by what keeps every byte that is not one of theirs. -/
theorem blockSize_eq (h : d.Separate m P) (hp : P p)
    (hbyte : ∀ a, p - 4 ≤ a ∧ a < p → m'.byte a = m.byte a) :
    m'.blockSize p = m.blockSize p := by
  have hheader := h.header p hp
  have hword : m'.word (p - Layout.word) = m.word (p - Layout.word) :=
    Memory.word_congr fun a h1 h2 => hbyte a (by simp only [Layout.word] at hheader h1 h2; omega)
  exact congrArg Tag.size (congrArg Tag.mk hword)

end Separate

/-! ## What a memory represents -/

/-- Outside its class nothing is filed. -/
theorem filed_of_ne (ls : SizeClass → List Nat) (hc : c ≠ SizeClass.ofSize (m.blockSize p)) :
    filed m p ls c = ls c :=
  Function.update_of_ne hc ..

theorem filed_self :
    filed m p ls (SizeClass.ofSize (m.blockSize p)) =
      (ls (SizeClass.ofSize (m.blockSize p))).takeWhile (m.blockSize · < m.blockSize p) ++
        p :: (ls (SizeClass.ofSize (m.blockSize p))).dropWhile (m.blockSize · < m.blockSize p) :=
  Function.update_self ..

theorem mem_filed :
    q ∈ filed m p ls c ↔ q = p ∧ c = SizeClass.ofSize (m.blockSize p) ∨ q ∈ ls c := by
  by_cases hc : c = SizeClass.ofSize (m.blockSize p)
  · subst hc
    have hl := List.takeWhile_append_dropWhile (p := (m.blockSize · < m.blockSize p))
      (l := ls (SizeClass.ofSize (m.blockSize p)))
    rw [filed_self, List.perm_middle.mem_iff, List.mem_cons, hl, and_iff_left rfl]
  · rw [filed_of_ne ls hc, or_iff_right fun hq => hc hq.2]

/-- Listed is now the filed block, and what was listed before. -/
theorem among_filed : Among (filed m p ls) q ↔ q = p ∨ Among ls q := by
  constructor
  · rintro ⟨c, hq⟩
    exact (mem_filed.1 hq).imp And.left fun hq => ⟨c, hq⟩
  · rintro (rfl | ⟨c, hq⟩)
    · exact ⟨_, mem_filed.2 (.inl ⟨rfl, rfl⟩)⟩
    · exact ⟨c, mem_filed.2 (.inr hq)⟩

/-- **Erasing a filed block** gives the sequences back. -/
theorem erase_filed (hnew : ¬ Among ls p) (c : SizeClass) : (filed m p ls c).erase p = ls c := by
  have hnot : ∀ c, p ∉ ls c := fun c hp => hnew ⟨c, hp⟩
  by_cases hc : c = SizeClass.ofSize (m.blockSize p)
  · subst hc
    have hl := List.takeWhile_append_dropWhile (p := (m.blockSize · < m.blockSize p))
      (l := ls (SizeClass.ofSize (m.blockSize p)))
    rw [filed_self,
      List.erase_append_right _ fun hp => hnot _ ((List.takeWhile_sublist _).subset hp),
      List.erase_cons_head, hl]
  · rw [filed_of_ne ls hc, List.erase_of_not_mem (hnot c)]

namespace Represents

/-- **A memory represents one family of sequences.** -/
theorem unique (h : d.Represents m ls) (h' : d.Represents m ls') : ls = ls' :=
  funext fun c => (h.threaded c).unique (h'.threaded c)

/-- No block is in two of the sequences, or in one twice. -/
theorem spells (h : d.Represents m ls) : d.Spells m ls := by
  refine ⟨h.threaded, fun c => (h.threaded c).nodup, fun {c c' p} hp hp' => ?_⟩
  rw [← h.classed c p hp, ← h.classed c' p hp']

theorem reaches (h : d.Represents m ls) (c : SizeClass) : ∀ q ∈ ls c, d.Reaches q :=
  fun q hq => h.separate.reaches q ⟨c, hq⟩

/-- **After an edit** the sequences are the new ones if the words spell them
and all sizes are as they were. -/
theorem of_spells (hs : d.Spells m' ls') (hsep : d.Separate m P)
    (hls : ∀ c, ∀ q ∈ ls' c, P q ∧ SizeClass.ofSize (m.blockSize q) = c)
    (hsize : ∀ q, P q → m'.blockSize q = m.blockSize q) : d.Represents m' ls' := by
  refine ⟨hs.threaded, fun c q hq => ?_, (hsep.congr hsize).mono ?_⟩
  · rw [hsize q (hls c q hq).1]
    exact (hls c q hq).2
  · rintro q ⟨c, hq⟩
    exact (hls c q hq).1

end Represents

/-! ## Filing -/

/-- **What filing the block at `p` does** to a memory and its sequences. -/
structure Files (d : FreeLists) (m : Memory) (ls : SizeClass → List Nat) (p : Nat) : Prop where
  represents : d.Represents (d.insert p m) (filed m p ls)
  ascending : (∀ c, Ascending m (ls c)) → ∀ c, Ascending (d.insert p m) (filed m p ls c)
  undone : d.Represents (d.remove p (d.insert p m)) ls
  /-- Written are the block's own links, one link of the block before it or the
  head, and one link of the block after it. -/
  frame : ∀ a, ¬ (p ≤ a ∧ a < p + 8) →
    ¬ Seam.Touches d (SizeClass.ofSize (m.blockSize p))
      ⟨((ls (SizeClass.ofSize (m.blockSize p))).takeWhile
          (m.blockSize · < m.blockSize p)).getLast?,
        ((ls (SizeClass.ofSize (m.blockSize p))).dropWhile
          (m.blockSize · < m.blockSize p)).head?⟩ a →
    (d.insert p m).byte a = m.byte a

/-- **What taking out the block at `p` does.** -/
structure Unfiles (d : FreeLists) (m : Memory) (ls : SizeClass → List Nat) (p : Nat) : Prop where
  represents : d.Represents (d.remove p m) fun c => (ls c).erase p
  ascending : (∀ c, Ascending m (ls c)) → ∀ c, Ascending (d.remove p m) ((ls c).erase p)
  /-- Written are one link of the block before it or the head, and one link of
  the block after it. -/
  frame : ∀ l₁ l₂, ls (SizeClass.ofSize (m.blockSize p)) = l₁ ++ p :: l₂ →
    ∀ a, ¬ Seam.Touches d (SizeClass.ofSize (m.blockSize p)) ⟨l₁.getLast?, l₂.head?⟩ a →
      (d.remove p m).byte a = m.byte a

/-- Sizes that are kept keep an ascending order. -/
theorem Ascending.congr (h : Ascending m l) (hsize : ∀ q ∈ l, m'.blockSize q = m.blockSize q) :
    Ascending m' l := by
  refine List.Pairwise.imp_of_mem (fun {p q} hp hq hle => ?_) h
  rw [hsize p hp, hsize q hq]
  exact hle

/-- A filed block is in its place. -/
theorem Ascending.filed (h : ∀ c, Ascending m (ls c)) (c : SizeClass) :
    Ascending m (filed m p ls c) := by
  by_cases hc : c = SizeClass.ofSize (m.blockSize p)
  · subst hc
    have : Std.Total fun a b => m.blockSize a ≤ m.blockSize b := ⟨fun a b => Nat.le_total ..⟩
    have : IsTrans Nat fun a b => m.blockSize a ≤ m.blockSize b := ⟨fun _ _ _ => Nat.le_trans⟩
    have hinserted := List.Pairwise.orderedInsert p _ (h (SizeClass.ofSize (m.blockSize p)))
    simp only [List.orderedInsert_eq_take_drop, Nat.not_le] at hinserted
    rw [filed_self]
    exact hinserted
  · rw [filed_of_ne ls hc]
    exact h c

namespace Represents

variable (h : d.Represents m ls)

include h

/-- Filing keeps every size, as no header is written to. -/
theorem blockSize_insert (hsep : d.Separate m fun q => q = p ∨ Among ls q)
    (hq : q = p ∨ Among ls q) : (d.insert p m).blockSize q = m.blockSize q := by
  refine hsep.blockSize_eq hq fun a ha => ?_
  exact h.spells.byte_insert h.reaches (hsep.not_link_of_header hq (.inl rfl) ha)
    (hsep.not_isLink_of_header (fun c r hr => .inr ⟨c, hr⟩) hq ha)

/-- **Filing a block files it in the sequences.** -/
theorem insert (hnew : ¬ Among ls p) (hsep : d.Separate m fun q => q = p ∨ Among ls q) :
    d.Represents (d.insert p m) (filed m p ls) := by
  have hspells := h.spells.insert hsep.spaced (fun c q hq => .inr ⟨c, hq⟩) (.inl rfl)
    (fun c hp => hnew ⟨c, hp⟩) rfl
  simp only [List.orderedInsert_eq_take_drop, Nat.not_le] at hspells
  refine of_spells hspells hsep (fun c q hq => ?_) fun q hq => h.blockSize_insert hsep hq
  refine ⟨among_filed.1 ⟨c, hq⟩, ?_⟩
  rcases mem_filed.1 hq with ⟨rfl, rfl⟩ | hq
  · rfl
  · exact h.classed c q hq

/-- Taking a block out keeps every size. -/
theorem blockSize_remove (hp : p ∈ ls c) (hq : Among ls q) :
    (d.remove p m).blockSize q = m.blockSize q := by
  refine h.separate.blockSize_eq hq fun a ha => ?_
  exact h.spells.byte_remove (h.classed c p hp) hp
    (h.separate.not_isLink_of_header (fun c r hr => ⟨c, hr⟩) hq ha)

/-- **Taking a block out erases it from the sequences.** -/
theorem remove (hp : p ∈ ls c) : d.Represents (d.remove p m) fun c => (ls c).erase p := by
  obtain ⟨l₁, l₂, hl⟩ := List.append_of_mem hp
  have hspells := h.spells.remove h.separate.spaced (fun c q hq => ⟨c, hq⟩) (h.classed c p hp) hl
  have herased : Function.update ls c (l₁ ++ l₂) = fun c => (ls c).erase p := by
    funext c'
    by_cases hc : c' = c
    · subst hc
      have hnd := hl ▸ h.spells.nodup c'
      have hnot := (List.nodup_cons.1 (List.nodup_middle.1 hnd)).1
      rw [Function.update_self, hl,
        List.erase_append_right _ fun hin => hnot (List.mem_append_left _ hin),
        List.erase_cons_head]
    · rw [Function.update_of_ne hc, List.erase_of_not_mem fun hin => hc (h.spells.disjoint hin hp)]
  rw [herased] at hspells
  refine of_spells hspells h.separate (fun c' q hq => ?_) fun q hq => h.blockSize_remove hp hq
  have hq := List.mem_of_mem_erase hq
  exact ⟨⟨c', hq⟩, h.classed c' q hq⟩

theorem files (hnew : ¬ Among ls p) (hsep : d.Separate m fun q => q = p ∨ Among ls q) :
    d.Files m ls p := by
  have hinserted := h.insert hnew hsep
  refine ⟨hinserted, fun hls c => ?_, ?_, fun a hown hseam => ?_⟩
  · exact (Ascending.filed hls c).congr fun q hq =>
      h.blockSize_insert hsep (among_filed.1 ⟨c, hq⟩)
  · have hremoved := hinserted.remove (mem_filed.2 (.inl ⟨rfl, rfl⟩))
    rwa [show (fun c => (filed m p ls c).erase p) = ls from funext (erase_filed hnew)] at hremoved
  · rw [← lastFrom_none] at hseam
    exact h.spells.byte_insert_of_not_touches h.reaches rfl hown hseam

theorem unfiles (hp : p ∈ ls c) : d.Unfiles m ls p := by
  refine ⟨h.remove hp, fun hls c' => ?_, fun l₁ l₂ hl a hseam => ?_⟩
  · exact Ascending.congr ((hls c').sublist List.erase_sublist) fun q hq =>
      h.blockSize_remove hp ⟨c', List.mem_of_mem_erase hq⟩
  · rw [← lastFrom_none] at hseam
    exact h.spells.byte_remove_of_not_touches rfl hl hseam

/-- **The lists refine sequences.** Any block that lies apart from the listed
ones is filed in the sequences when it is filed in the memory, and any listed
block is erased from them when it is taken out. -/
theorem refines :
    (∀ p, ¬ Among ls p → d.Separate m (fun q => q = p ∨ Among ls q) → d.Files m ls p) ∧
      ∀ p, Among ls p → d.Unfiles m ls p :=
  ⟨fun _ hnew hsep => h.files hnew hsep, fun _ hp => hp.elim fun _ hp => h.unfiles hp⟩

end Represents

/-- Lists whose heads are behind the blocks. -/
def aside : FreeLists := ⟨400, 48⟩

/-- A memory with a block of 32 bytes in one of them, and one of 24 bytes beside
it that is in none. -/
def shelf : Memory :=
  ({} : Memory) |> Memory.setTags 56 32 false |> Memory.setTags 88 24 false |> aside.insert 56

/-- What the memory represents. -/
def shelved : SizeClass → List Nat := fun c => if c = SizeClass.ofSize 32 then [56] else []

/-- The smaller block is filed in front, in the same list, and the larger one is
taken out. -/
theorem shelf_refines :
    aside.Represents shelf shelved ∧ ¬ Among shelved 88 ∧
      aside.Separate shelf (fun q => q = 88 ∨ Among shelved q) ∧ Among shelved 56 ∧
      filed shelf 88 shelved (SizeClass.ofSize 32) = [88, 56] ∧ aside.Files shelf shelved 88 ∧
      aside.Unfiles shelf shelved 56 := by
  have hlisted : ∀ q, Among shelved q → q = 56 := by
    rintro q ⟨c, hq⟩
    unfold shelved at hq
    split at hq
    · exact List.mem_singleton.1 hq
    · cases hq
  obtain ⟨hsize, hsize', hthreaded, hclassed, hfiled⟩ :
      shelf.blockSize 56 = 32 ∧ shelf.blockSize 88 = 24 ∧
        (∀ c, aside.Threaded shelf c none (shelved c)) ∧
        (∀ c, ∀ p ∈ shelved c, SizeClass.ofSize (shelf.blockSize p) = c) ∧
        filed shelf 88 shelved (SizeClass.ofSize 32) = [88, 56] := by decide +kernel
  have hin : Among shelved 56 := ⟨SizeClass.ofSize 32, by decide⟩
  have hnew : ¬ Among shelved 88 := fun h => absurd (hlisted 88 h) (by decide)
  have hsep : aside.Separate shelf fun q => q = 88 ∨ Among shelved q := by
    have hcases : ∀ q, q = 88 ∨ Among shelved q → q = 88 ∨ q = 56 :=
      fun q hq => hq.imp_right (hlisted q)
    have hheads : aside.heads = 400 := rfl
    refine ⟨fun p hp => ?_, fun p hp => ?_, fun p hp => ?_, fun p q hp hq hne => ?_, fun p hp => ?_⟩
    · rcases hcases p hp with rfl | rfl <;> decide
    · rcases hcases p hp with rfl | rfl <;> omega
    · rcases hcases p hp with rfl | rfl <;> exact ⟨by decide, by decide⟩
    · rcases hcases p hp with rfl | rfl <;> rcases hcases q hq with rfl | rfl <;> omega
    · rcases hcases p hp with rfl | rfl <;> omega
  have hrep : aside.Represents shelf shelved := ⟨hthreaded, hclassed, hsep.mono fun _ => .inr⟩
  obtain ⟨hfiles, hunfiles⟩ := hrep.refines
  exact ⟨hrep, hnew, hsep, hin, hfiled, hfiles 88 hnew hsep, hunfiles 56 hin⟩

end FreeLists

end SegFit
