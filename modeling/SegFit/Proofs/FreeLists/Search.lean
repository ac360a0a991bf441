import SegFit.FreeLists.Chain
import SegFit.Proofs.FreeLists.Seam
import Mathlib.Data.List.Perm.Subperm
import Mathlib.Data.List.Sort
import Mathlib.Data.List.TakeWhile
/-!
# The search along a list

A list is searched for the seam in front of its first block of at least
some size. `seam_of_threaded` says where that is; the walk has fuel for
every list whose blocks a link can tell apart (`length_lt_maxLength`).
Filing a block is then an ordered insertion by size (`Spells.insert`),
and `findFit` the first fitting block over the lists (`findFit_eq`).
-/

namespace SegFit

namespace FreeLists

variable {d : FreeLists} {m : Memory} {c : SizeClass} {P : Nat → Prop}

/-- **The walk for a seam stops at the first block that is not smaller**
than the size, or at the end of the list. -/
theorem seamFrom_of_threaded {size : Nat} {l : List Nat} {x : Option Nat}
    (h : d.Threaded m c x l) {fuel : Nat} (hfuel : l.length < fuel) :
    d.seamFrom m size fuel ⟨x, d.follower m c x⟩ =
      some ⟨lastFrom x (l.takeWhile (m.blockSize · < size)),
        (l.dropWhile (m.blockSize · < size)).head?⟩ := by
  induction l generalizing x fuel with
  | nil =>
    obtain ⟨k, rfl⟩ := Nat.exists_eq_add_of_lt hfuel
    rw [show d.follower m c x = none from h]
    simp [seamFrom]
  | cons q l ih =>
    obtain ⟨k, rfl⟩ : ∃ k, fuel = k + 1 := ⟨fuel - 1, by omega⟩
    have hk : l.length < k := by simpa using hfuel
    rw [h.1, seamFrom]
    by_cases hq : m.blockSize q < size
    · rw [if_neg (by omega), List.takeWhile_cons_of_pos (by simpa using hq),
        List.dropWhile_cons_of_pos (by simpa using hq)]
      exact ih h.2.2 hk
    · rw [if_pos (by omega), List.takeWhile_cons_of_neg (by simpa using hq),
        List.dropWhile_cons_of_neg (by simpa using hq)]
      rfl

/-- Links have too few values for a longer list without repetition. -/
theorem length_lt_maxLength {l : List Nat} (hnd : l.Nodup) (h : ∀ p ∈ l, d.Reaches p) :
    l.length < maxLength := by
  -- the blocks are different addresses out of fewer than a word has values
  have hsub : l ⊆ List.range' (d.origin + 1) (Layout.wordRange - 1) := by
    intro p hp
    obtain ⟨h1, h2⟩ := h p hp
    rw [List.mem_range'_1]
    omega
  have hle := (hnd.subperm hsub).length_le
  rw [List.length_range'] at hle
  exact Nat.lt_of_le_of_lt hle (by decide)

theorem seam_of_threaded (size : Nat) {l : List Nat} (h : d.Threaded m c none l) (hnd : l.Nodup)
    (hr : ∀ p ∈ l, d.Reaches p) :
    d.seam m c size = some ⟨lastFrom none (l.takeWhile (m.blockSize · < size)),
      (l.dropWhile (m.blockSize · < size)).head?⟩ :=
  seamFrom_of_threaded h (length_lt_maxLength hnd hr)

variable {ls : SizeClass → List Nat} {p : Nat}

/-- The bytes of links: of the heads, and of the first two payload words
of each listed block. -/
def IsLink (d : FreeLists) (ls : SizeClass → List Nat) (a : Nat) : Prop :=
  d.heads ≤ a ∧ a < d.heads + 40 ∨ ∃ c, ∃ q ∈ ls c, q ≤ a ∧ a < q + 8

/-- A word an edit writes behind a place of a list is one of the links. -/
theorem isLink_of_followerAt {x : Option Nat} {a : Nat} (hx : ∀ q ∈ x, q ∈ ls c)
    (ha : d.followerAt c x ≤ a ∧ a < d.followerAt c x + 4) : d.IsLink ls a := by
  cases x with
  | none =>
    have := slot_bounds (d := d) c
    simp only [followerAt] at ha
    exact .inl ⟨by omega, by omega⟩
  | some q =>
    simp only [followerAt, Layout.word] at ha
    exact .inr ⟨c, q, hx q rfl, by omega, by omega⟩

/-- **The bytes an edit at a seam writes**: of the link to what comes after
the block before it, or else of the head, and of the link back from the block
after it. -/
def Seam.Touches (d : FreeLists) (c : SizeClass) (s : Seam) (a : Nat) : Prop :=
  (d.followerAt c s.before ≤ a ∧ a < d.followerAt c s.before + 4) ∨
    ∃ q ∈ s.after, q ≤ a ∧ a < q + 4

/-- They are bytes of links. -/
theorem isLink_of_touches {l₁ l₂ : List Nat} (mid : List Nat) (hl : ls c = l₁ ++ mid ++ l₂)
    {a : Nat} (ha : Seam.Touches d c ⟨lastFrom none l₁, l₂.head?⟩ a) : d.IsLink ls a := by
  have hl' : ls c = l₁ ++ (mid ++ l₂) := by rw [hl, List.append_assoc]
  rcases ha with hin | ⟨q, hq, hin⟩
  · exact isLink_of_followerAt (Spells.mem_of_lastFrom hl') hin
  · exact .inr ⟨c, q, Spells.mem_of_head? hl q hq, hin.1, by omega⟩

namespace Spells

/-- **Filing a block** inserts it in front of the first block of its
class that is at least as large. -/
theorem insert (h : d.Spells m ls) (hs : d.Spaced P) (hP : ∀ c, ∀ q ∈ ls c, P q) (hp : P p)
    (hnew : ∀ c, p ∉ ls c) (hc : SizeClass.ofSize (m.blockSize p) = c) :
    d.Spells (d.insert p m)
      (Function.update ls c
        ((ls c).orderedInsert (fun a b => m.blockSize a ≤ m.blockSize b) p)) := by
  have hseam := seam_of_threaded (m.blockSize p) (h.threaded c) (h.nodup c)
    fun q hq => hs.reaches (hP c q hq)
  rw [insert_eq_splice (hc ▸ hseam), hc]
  simp only [List.orderedInsert_eq_take_drop, Nat.not_le]
  exact h.splice hs hP hp hnew List.takeWhile_append_dropWhile.symm

/-- **Taking a block out** of the list of its class changes that list
there. -/
theorem remove (h : d.Spells m ls) (hs : d.Spaced P) (hP : ∀ c, ∀ q ∈ ls c, P q)
    (hc : SizeClass.ofSize (m.blockSize p) = c) {l₁ l₂ : List Nat} (hl : ls c = l₁ ++ p :: l₂) :
    d.Spells (d.remove p m) (Function.update ls c (l₁ ++ l₂)) := by
  rw [remove_eq_unlink, hc]
  exact h.unlink hs hP hl

/-- **Filing a block writes** its own links, and at the seam in front of the
first block of its class that is at least as large. -/
theorem byte_insert_of_not_touches (h : d.Spells m ls) (hr : ∀ c, ∀ q ∈ ls c, d.Reaches q)
    (hc : SizeClass.ofSize (m.blockSize p) = c) {a : Nat} (hp : ¬ (p ≤ a ∧ a < p + 8))
    (ha : ¬ Seam.Touches d c ⟨lastFrom none ((ls c).takeWhile (m.blockSize · < m.blockSize p)),
      ((ls c).dropWhile (m.blockSize · < m.blockSize p)).head?⟩ a) :
    (d.insert p m).byte a = m.byte a := by
  subst hc
  rw [insert_eq_splice (seam_of_threaded _ (h.threaded _) (h.nodup _) (hr _))]
  exact byte_splice hp (fun hin => ha (.inl hin)) fun q hq hin => ha (.inr ⟨q, hq, hin⟩)

/-- **Filing a block writes only links**, its own included. -/
theorem byte_insert (h : d.Spells m ls) (hr : ∀ c, ∀ q ∈ ls c, d.Reaches q) {a : Nat}
    (hp : ¬ (p ≤ a ∧ a < p + 8)) (ha : ¬ d.IsLink ls a) :
    (d.insert p m).byte a = m.byte a := by
  refine h.byte_insert_of_not_touches hr rfl hp fun hin => ha (isLink_of_touches [] ?_ hin)
  rw [List.append_nil]
  exact List.takeWhile_append_dropWhile.symm

/-- **Taking a block out writes** at the seam that is left. -/
theorem byte_remove_of_not_touches (h : d.Spells m ls)
    (hc : SizeClass.ofSize (m.blockSize p) = c) {l₁ l₂ : List Nat} (hl : ls c = l₁ ++ p :: l₂)
    {a : Nat} (ha : ¬ Seam.Touches d c ⟨lastFrom none l₁, l₂.head?⟩ a) :
    (d.remove p m).byte a = m.byte a := by
  have hthread := h.threaded c
  rw [hl] at hthread
  rw [remove_eq_unlink, hc, hthread.prev_eq, hthread.next_eq]
  exact byte_unlink (fun hin => ha (.inl hin)) fun q hq hin => ha (.inr ⟨q, hq, hin⟩)

/-- **Taking a block out writes only links.** -/
theorem byte_remove (h : d.Spells m ls) (hc : SizeClass.ofSize (m.blockSize p) = c)
    (hp : p ∈ ls c) {a : Nat} (ha : ¬ d.IsLink ls a) : (d.remove p m).byte a = m.byte a := by
  obtain ⟨l₁, l₂, hl⟩ := List.append_of_mem hp
  refine h.byte_remove_of_not_touches hc hl fun hin => ha (isLink_of_touches [p] ?_ hin)
  rw [hl, List.append_assoc]
  rfl

/-- Ten lists survive a write that touches none of their links. -/
theorem congr {m' : Memory} (h : d.Spells m ls)
    (hlink : ∀ a, d.IsLink ls a → m'.byte a = m.byte a) : d.Spells m' ls := by
  refine ⟨fun c => (h.threaded c).congr ?_ ?_, h.nodup, h.disjoint⟩
  · intro y hy
    rw [follower_eq_resolve, follower_eq_resolve]
    congr 1
    exact Memory.word_congr fun a h1 h2 =>
      hlink a (isLink_of_followerAt (place_of_mem hy) ⟨h1, h2⟩)
  · intro q hq
    rw [prev, prev]
    congr 1
    exact Memory.word_congr fun a h1 h2 => hlink a (.inr ⟨c, q, hq, h1, by omega⟩)

/-- **The first fit** over the lists from a size's class on. -/
theorem findFit_eq (h : d.Spells m ls) (hr : ∀ c, ∀ q ∈ ls c, d.Reaches q) (size : Nat) :
    d.findFit m size =
      (SizeClass.ofSize size).andLarger.findSome? fun c =>
        (ls c).find? (size ≤ m.blockSize ·) := by
  rw [findFit]
  congr 1
  funext c
  rw [seam_of_threaded _ (h.threaded c) (h.nodup c) (hr c), Option.bind_some,
    List.find?_eq_head?_dropWhile_not]
  simp only [← decide_not, Nat.not_le]

end Spells

/-! ## Reading a list -/

/-- What comes behind a block that comes once is neither it nor what was
seen before it. -/
theorem not_mem_seen_cons {p : Nat} {l seen : List Nat} (hnd : (p :: l).Nodup)
    (hseen : ∀ q ∈ p :: l, q ∉ seen) : ∀ q ∈ l, q ∉ p :: seen := by
  intro q hq
  rw [List.mem_cons, not_or]
  refine ⟨?_, hseen q (List.mem_cons_of_mem _ hq)⟩
  rintro rfl
  exact (List.nodup_cons.1 hnd).1 hq

theorem chainFrom_of_threaded {stop : Nat} {l seen : List Nat} {x : Option Nat}
    (h : d.Threaded m c x l) (hnd : l.Nodup) (hseen : ∀ p ∈ l, p ∉ seen)
    (hin : ∀ p ∈ l, p + 8 ≤ stop) : d.chainFrom m stop seen (d.follower m c x) = l := by
  induction l generalizing x seen with
  | nil => rw [show d.follower m c x = none from h, chainFrom]
  | cons q l ih =>
    rw [h.1, chainFrom, dif_neg (hseen q List.mem_cons_self), dif_pos (hin q List.mem_cons_self)]
    congr 1
    exact ih h.2.2 (List.nodup_cons.1 hnd).2 (not_mem_seen_cons hnd hseen)
      fun p hp => hin p (List.mem_cons_of_mem _ hp)

/-- **A list is read as the sequence it spells.** -/
theorem chain_of_threaded {stop : Nat} {l : List Nat} (h : d.Threaded m c none l)
    (hnd : l.Nodup) (hin : ∀ p ∈ l, p + 8 ≤ stop) : d.chain m stop c = l :=
  chainFrom_of_threaded h hnd (fun _ _ => List.not_mem_nil) hin

end FreeLists

end SegFit
