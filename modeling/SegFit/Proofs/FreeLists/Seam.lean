import SegFit.Proofs.FreeLists.Thread
import Mathlib.Data.List.Nodup
import Mathlib.Logic.Function.Basic
/-!
# Editing lists at a seam

Filing a block writes four words and taking one out writes two, all at
one seam of one list. `Spells` says that heads and links spell ten given
sequences; `Spells.splice` and `Spells.unlink` say which ten they spell
after the edit. Both rest on `Spaced`: the links of different blocks lie
in different words, and none of them in a head.
-/

namespace SegFit

namespace FreeLists

variable {d : FreeLists} {m : Memory} {c c' : SizeClass} {P : Nat → Prop}

/-- A link can say where `p` is. -/
def Reaches (d : FreeLists) (p : Nat) : Prop :=
  d.origin < p ∧ p - d.origin < Layout.wordRange

/-- **Blocks whose links do not overlap**, with each other or with the
heads. -/
structure Spaced (d : FreeLists) (P : Nat → Prop) : Prop where
  reaches : ∀ {p}, P p → d.Reaches p
  apart : ∀ {p q}, P p → P q → p ≠ q → p + Layout.tags ≤ q ∨ q + Layout.tags ≤ p
  clear : ∀ {p}, P p → p + Layout.tags ≤ d.heads ∨ d.heads + 40 ≤ p

theorem resolve_encode_of_reaches {x : Option Nat} (h : ∀ p ∈ x, d.Reaches p) :
    d.resolve (d.encode x) = x := by
  cases x with
  | none => rfl
  | some p => exact d.resolve_encode (h p rfl).1 (h p rfl).2

/-! ## Where the links are -/

theorem slot_bounds (c : SizeClass) : d.heads ≤ d.slot c ∧ d.slot c + 4 ≤ d.heads + 40 := by
  have := c.index.isLt
  simp only [slot, Layout.word, Layout.classes] at this ⊢
  omega

theorem slot_apart (h : c ≠ c') : d.slot c + 4 ≤ d.slot c' ∨ d.slot c' + 4 ≤ d.slot c := by
  have hne : (c.index : Nat) ≠ c'.index := fun heq =>
    h (by cases c; cases c'; exact congrArg SizeClass.mk (Fin.ext heq))
  simp only [slot, Layout.word]
  omega

/-- A head is no link. -/
theorem Spaced.slot_apart (hs : d.Spaced P) (c : SizeClass) {p : Nat} (hp : P p) :
    d.slot c + 4 ≤ p ∨ p + 8 ≤ d.slot c := by
  have hslot := slot_bounds (d := d) c
  have hclear := hs.clear hp
  simp only [Layout.tags] at hclear
  omega

/-- A next link, or a head, is no previous link. -/
theorem followerAt_apart_prev (c : SizeClass) (hs : d.Spaced P) {x : Option Nat} {q : Nat}
    (hx : ∀ p ∈ x, P p) (hq : P q) :
    d.followerAt c x + 4 ≤ q ∨ q + 4 ≤ d.followerAt c x := by
  cases x with
  | none =>
    have := hs.slot_apart c hq
    simp only [followerAt]
    omega
  | some p =>
    simp only [followerAt, Layout.word]
    by_cases hpq : p = q
    · omega
    · have := hs.apart (hx p rfl) hq hpq
      simp only [Layout.tags] at this
      omega

/-- Different places have different words for what follows them. Two
places at the front differ when their classes do. -/
theorem followerAt_apart (c c' : SizeClass) (hs : d.Spaced P) {x y : Option Nat} (hx : ∀ p ∈ x, P p)
    (hy : ∀ p ∈ y, P p) (hne : x ≠ y ∨ x = none ∧ c ≠ c') :
    d.followerAt c x + 4 ≤ d.followerAt c' y ∨ d.followerAt c' y + 4 ≤ d.followerAt c x := by
  cases x with
  | none =>
    cases y with
    | none =>
      rcases hne with h | ⟨-, h⟩
      · exact absurd rfl h
      · exact slot_apart h
    | some q =>
      have := hs.slot_apart c (hy q rfl)
      simp only [followerAt, Layout.word]
      omega
  | some p =>
    cases y with
    | none =>
      have := hs.slot_apart c' (hx p rfl)
      simp only [followerAt, Layout.word]
      omega
    | some q =>
      have hpq : p ≠ q := by
        rcases hne with h | ⟨h, -⟩
        · exact fun heq => h (congrArg some heq)
        · cases h
      have := hs.apart (hx p rfl) (hy q rfl) hpq
      simp only [followerAt, Layout.word, Layout.tags] at this ⊢
      omega

/-! ## The two edits -/

/-- Links `p` in at a seam. -/
def splice (d : FreeLists) (c : SizeClass) (p : Nat) (s : Seam) (m : Memory) : Memory :=
  m |> d.setPrev p s.before |> d.setNext p s.after |> d.setBetween c p s

/-- Links what is before a block to what is after it. -/
def unlink (d : FreeLists) (c : SizeClass) (s : Seam) (m : Memory) : Memory :=
  m |> d.setAfter c s.before s.after |> d.setBefore s.before s.after

theorem insert_eq_splice {p : Nat} {s : Seam}
    (h : d.seam m (SizeClass.ofSize (m.blockSize p)) (m.blockSize p) = some s) :
    d.insert p m = d.splice (SizeClass.ofSize (m.blockSize p)) p s m := by
  simp only [insert, h, splice]

theorem remove_eq_unlink (p : Nat) :
    d.remove p m = d.unlink (SizeClass.ofSize (m.blockSize p)) ⟨d.prev m p, d.next m p⟩ m := rfl

theorem setAfter_eq (x q : Option Nat) :
    d.setAfter c x q m = m.setWord (d.followerAt c x) (d.encode q) := by
  cases x <;> rfl

theorem byte_setBefore {x y : Option Nat} {a : Nat} (h : ∀ q ∈ y, ¬ (q ≤ a ∧ a < q + 4)) :
    (d.setBefore x y m).byte a = m.byte a := by
  cases y with
  | none => rfl
  | some q => rw [setBefore, setPrev, Memory.byte_setWord, if_neg (h q rfl)]

/-- **What unlinking writes**, byte by byte: the word for what follows,
and one previous link. -/
theorem byte_unlink {s : Seam} {a : Nat}
    (hafter : ¬ (d.followerAt c s.before ≤ a ∧ a < d.followerAt c s.before + 4))
    (hbefore : ∀ q ∈ s.after, ¬ (q ≤ a ∧ a < q + 4)) :
    (d.unlink c s m).byte a = m.byte a := by
  rw [unlink, setAfter_eq, byte_setBefore hbefore, Memory.byte_setWord, if_neg hafter]

theorem setBetween_none (p : Nat) (after : Option Nat) :
    d.setBetween c p ⟨none, after⟩ m = d.setHead c (some p) (d.setBefore (some p) after m) := rfl

theorem setBetween_some (p q : Nat) (after : Option Nat) :
    d.setBetween c p ⟨some q, after⟩ m = d.setBefore (some p) after (d.setNext q (some p) m) := rfl

/-- **What splicing writes**, byte by byte: also the block's own links. -/
theorem byte_splice {s : Seam} {p a : Nat} (hp : ¬ (p ≤ a ∧ a < p + 8))
    (hafter : ¬ (d.followerAt c s.before ≤ a ∧ a < d.followerAt c s.before + 4))
    (hbefore : ∀ q ∈ s.after, ¬ (q ≤ a ∧ a < q + 4)) :
    (d.splice c p s m).byte a = m.byte a := by
  have hlink : ((m |> d.setPrev p s.before |> d.setNext p s.after)).byte a = m.byte a := by
    rw [setNext, setPrev, Memory.byte_setWord, if_neg (by simp only [Layout.word]; omega),
      Memory.byte_setWord, if_neg (by omega)]
  obtain ⟨before, after⟩ := s
  cases before with
  | none =>
    rw [splice, setBetween_none, setHead, Memory.byte_setWord]
    exact (if_neg hafter).trans ((byte_setBefore hbefore).trans hlink)
  | some r =>
    rw [splice, setBetween_some, byte_setBefore hbefore, setNext, Memory.byte_setWord]
    exact (if_neg hafter).trans hlink

/-! ## What the edits leave of a list -/

section Words

variable {s : Seam} {p : Nat}

/-- A link outside the edit is kept: of `follower` where the place is
another, and of `prev` where the block is neither the one after the seam
nor, in a splice, the new one. -/
theorem follower_unlink_of_ne (hs : d.Spaced P) (hb : ∀ q ∈ s.before, P q)
    (ha : ∀ q ∈ s.after, P q) {x : Option Nat} (hx : ∀ q ∈ x, P q)
    (hne : s.before ≠ x ∨ s.before = none ∧ c ≠ c') :
    d.follower (d.unlink c s m) c' x = d.follower m c' x := by
  rw [follower_eq_resolve, follower_eq_resolve]
  congr 1
  have h1 := followerAt_apart c c' hs hb hx hne
  refine Memory.word_congr fun a _ _ => byte_unlink (by omega) ?_
  intro q hq
  have := followerAt_apart_prev c' hs hx (ha q hq)
  omega

theorem prev_unlink_of_ne (hs : d.Spaced P) (hb : ∀ q ∈ s.before, P q)
    (ha : ∀ q ∈ s.after, P q) {q : Nat} (hq : P q) (hne : s.after ≠ some q) :
    d.prev (d.unlink c s m) q = d.prev m q := by
  simp only [prev]
  congr 1
  have h1 := followerAt_apart_prev c hs hb hq
  refine Memory.word_congr fun a _ _ => byte_unlink (by omega) ?_
  intro r hr
  have := hs.apart (ha r hr) hq fun heq => hne (by rw [← heq]; exact hr)
  simp only [Layout.tags] at this
  omega

/-- After unlinking, the place before the seam leads to the block after
it, and back. -/
theorem follower_unlink (hs : d.Spaced P) (hb : ∀ q ∈ s.before, P q) (ha : ∀ q ∈ s.after, P q) :
    d.follower (d.unlink c s m) c s.before = s.after := by
  rw [follower_eq_resolve, unlink, setAfter_eq]
  have hword : (d.setBefore s.before s.after
      (m.setWord (d.followerAt c s.before) (d.encode s.after))).word (d.followerAt c s.before)
        = d.encode s.after := by
    cases hafter : s.after with
    | none => rw [setBefore, Memory.word_setWord_self]
    | some q =>
      have := followerAt_apart_prev c hs hb (ha q hafter)
      rw [setBefore, setPrev, Memory.word_setWord_of_disjoint _ _ (by omega),
        Memory.word_setWord_self]
  rw [hword, resolve_encode_of_reaches fun q hq => hs.reaches (ha q hq)]

theorem prev_unlink (hs : d.Spaced P) (hb : ∀ q ∈ s.before, P q) {q : Nat}
    (hafter : s.after = some q) : d.prev (d.unlink c s m) q = s.before := by
  rw [prev, unlink, hafter, setBefore, setPrev, Memory.word_setWord_self,
    resolve_encode_of_reaches fun q hq => hs.reaches (hb q hq)]

theorem follower_splice_of_ne (hs : d.Spaced P) (hb : ∀ q ∈ s.before, P q)
    (ha : ∀ q ∈ s.after, P q) (hp : P p) {x : Option Nat} (hx : ∀ q ∈ x, P q) (hxp : x ≠ some p)
    (hne : s.before ≠ x ∨ s.before = none ∧ c ≠ c') :
    d.follower (d.splice c p s m) c' x = d.follower m c' x := by
  rw [follower_eq_resolve, follower_eq_resolve]
  congr 1
  have h1 := followerAt_apart c c' hs hb hx hne
  have h2 : d.followerAt c' x + 4 ≤ p + 4 ∨ p + 4 + 4 ≤ d.followerAt c' x :=
    followerAt_apart c' c (y := some p) hs hx (fun q hq => by cases hq; exact hp) (.inl hxp)
  have h3 := followerAt_apart_prev c' hs hx hp
  refine Memory.word_congr fun a _ _ => byte_splice (by omega) (by omega) ?_
  intro q hq
  have := followerAt_apart_prev c' hs hx (ha q hq)
  omega

theorem prev_splice_of_ne (hs : d.Spaced P) (hb : ∀ q ∈ s.before, P q)
    (ha : ∀ q ∈ s.after, P q) (hp : P p) {q : Nat} (hq : P q) (hqp : p ≠ q)
    (hne : s.after ≠ some q) : d.prev (d.splice c p s m) q = d.prev m q := by
  simp only [prev]
  congr 1
  have h1 := followerAt_apart_prev c hs hb hq
  have h2 := hs.apart hp hq hqp
  simp only [Layout.tags] at h2
  refine Memory.word_congr fun a _ _ => byte_splice (by omega) (by omega) ?_
  intro r hr
  have := hs.apart (ha r hr) hq fun heq => hne (by rw [← heq]; exact hr)
  simp only [Layout.tags] at this
  omega

/-- A word after a splice, unless it is the previous link of the block after
the seam: that write can be left out. -/
theorem word_splice {a : Nat} (h : ∀ q ∈ s.after, a + 4 ≤ q ∨ q + 4 ≤ a) :
    (d.splice c p s m).word a =
      (((m.setWord p (d.encode s.before)).setWord (p + 4) (d.encode s.after)).setWord
        (d.followerAt c s.before) (d.encode (some p))).word a := by
  have hbefore : ∀ (m' : Memory) b, a ≤ b → b < a + 4 →
      (d.setBefore (some p) s.after m').byte b = m'.byte b := fun m' b h1 h2 =>
    byte_setBefore fun q hq hin => by have := h q hq; omega
  obtain ⟨before, after⟩ := s
  refine Memory.word_congr fun b h1 h2 => ?_
  cases before with
  | none =>
    rw [splice, setBetween_none, setHead, Memory.byte_setWord, hbefore _ b h1 h2]
    exact (Memory.byte_setWord ..).symm
  | some r => exact hbefore _ b h1 h2

/-- **After a splice the place before the seam leads to the new block**,
the new block to the one after the seam, and both back. -/
theorem follower_splice (hs : d.Spaced P) (hb : ∀ q ∈ s.before, P q) (ha : ∀ q ∈ s.after, P q)
    (hp : P p) : d.follower (d.splice c p s m) c s.before = some p := by
  rw [follower_eq_resolve, word_splice fun q hq => followerAt_apart_prev c hs hb (ha q hq),
    Memory.word_setWord_self]
  exact resolve_encode_of_reaches fun q hq => by cases hq; exact hs.reaches hp

theorem follower_splice_self (hs : d.Spaced P) (hb : ∀ q ∈ s.before, P q)
    (ha : ∀ q ∈ s.after, P q) (hp : P p) (hbp : s.before ≠ some p) :
    d.follower (d.splice c p s m) c' (some p) = s.after := by
  have hsome : ∀ q ∈ some p, P q := fun q hq => by cases hq; exact hp
  have h1 : d.followerAt c s.before + 4 ≤ p + 4 ∨ p + 4 + 4 ≤ d.followerAt c s.before :=
    followerAt_apart c c' hs hb hsome (.inl hbp)
  rw [follower_eq_resolve, word_splice fun q hq => followerAt_apart_prev c' hs hsome (ha q hq)]
  rw [followerAt, Layout.word, Memory.word_setWord_of_disjoint _ _ (by omega),
    Memory.word_setWord_self]
  exact resolve_encode_of_reaches fun q hq => hs.reaches (ha q hq)

theorem prev_splice_self (hs : d.Spaced P) (hb : ∀ q ∈ s.before, P q)
    (ha : ∀ q ∈ s.after, P q) (hp : P p) (hap : s.after ≠ some p) :
    d.prev (d.splice c p s m) p = s.before := by
  have h1 := followerAt_apart_prev c hs hb hp
  have h2 : ∀ q ∈ s.after, p + 4 ≤ q ∨ q + 4 ≤ p := fun q hq => by
    have := hs.apart hp (ha q hq) fun heq => hap (by rw [heq]; exact hq)
    simp only [Layout.tags] at this
    omega
  rw [prev, word_splice h2, Memory.word_setWord_of_disjoint _ _ (by omega),
    Memory.word_setWord_of_disjoint _ _ (by omega), Memory.word_setWord_self]
  exact resolve_encode_of_reaches fun q hq => hs.reaches (hb q hq)

theorem prev_splice (hs : d.Spaced P) (hp : P p) {q : Nat} (hq : P q) (hafter : s.after = some q) :
    d.prev (d.splice c p s m) q = some p := by
  have hword : (d.splice c p s m).word q = d.encode (some p) := by
    have hslot := hs.slot_apart c hq
    obtain ⟨before, after⟩ := s
    obtain rfl : after = some q := hafter
    cases before with
    | none => rw [splice, setBetween_none, setHead,
        Memory.word_setWord_of_disjoint _ _ (by omega), setBefore, setPrev,
        Memory.word_setWord_self]
    | some r => rw [splice, setBetween_some, setBefore, setPrev, Memory.word_setWord_self]
  rw [prev, hword]
  exact resolve_encode_of_reaches fun r hr => by cases hr; exact hs.reaches hp

end Words

/-! ## Ten lists -/

/-- **Heads and links spell ten sequences of blocks.** No block is
in two of them, or in one twice. -/
structure Spells (d : FreeLists) (m : Memory) (ls : SizeClass → List Nat) : Prop where
  threaded : ∀ c, d.Threaded m c none (ls c)
  nodup : ∀ c, (ls c).Nodup
  disjoint : ∀ {c c' p}, p ∈ ls c → p ∈ ls c' → c = c'

theorem nodup_none_cons {l : List Nat} (h : l.Nodup) : (none :: l.map some).Nodup := by
  rw [List.nodup_cons]
  exact ⟨by simp, List.Nodup.map (fun _ _ => Option.some.inj) h⟩

theorem place_of_mem {l : List Nat} {x : Option Nat} (hx : x ∈ none :: l.map some) :
    ∀ q ∈ x, q ∈ l := by
  intro q hq
  rcases List.mem_cons.1 hx with rfl | hx
  · cases hq
  · obtain ⟨r, hr, rfl⟩ := List.mem_map.1 hx
    cases hq
    exact hr

namespace Spells

variable {m' : Memory} {ls : SizeClass → List Nat} {l₁ l₂ : List Nat} {p : Nat}

/-- Every place of a list at which an edit happens is one of its blocks
or its front. -/
theorem mem_of_lastFrom (hl : ls c = l₁ ++ l₂) : ∀ q ∈ lastFrom none l₁, q ∈ ls c := by
  intro q hq
  rcases lastFrom_mem none l₁ with ⟨h, -⟩ | ⟨r, hr, h⟩
  · rw [h] at hq; cases hq
  · rw [h] at hq
    cases hq
    rw [hl]
    exact List.mem_append_left _ hr

theorem mem_of_head? (hl : ls c = l₁ ++ l₂) : ∀ q ∈ l₂.head?, q ∈ ls c := fun q hq => by
  rw [hl]
  exact List.mem_append_right _ (List.mem_of_mem_head? hq)

/-- **What an edit at a seam leaves alone**: every link of the ten lists
but the one after the place before the seam, and the one back from the
block after it. -/
structure Keeps (d : FreeLists) (m m' : Memory) (ls : SizeClass → List Nat) (c : SizeClass)
    (s : Seam) : Prop where
  follower : ∀ c' x, x ∈ none :: (ls c').map some → s.before ≠ x ∨ s.before = none ∧ c ≠ c' →
    d.follower m' c' x = d.follower m c' x
  prev : ∀ c' q, q ∈ ls c' → s.after ≠ some q → d.prev m' q = d.prev m q

section Keeps

variable {mid : List Nat} (h : d.Spells m ls) (hl : ls c = l₁ ++ mid ++ l₂)
  (k : Keeps d m m' ls c ⟨lastFrom none l₁, l₂.head?⟩)

include h hl k

/-- The blocks before the seam stay as they are. -/
theorem Keeps.path : d.Path m' c none l₁ := by
  have hthread := h.threaded c
  have hnd : (l₁ ++ mid ++ l₂).Nodup := hl ▸ h.nodup c
  rw [hl, List.append_assoc, threaded_append] at hthread
  refine hthread.1.congr (nodup_none_cons hnd.of_append_left.of_append_left)
    (fun y hy hne => k.follower _ _ ?_ (.inl (Ne.symm hne))) fun q hq => k.prev c _ ?_ ?_
  · rw [hl, List.append_assoc, List.map_append]
    exact (List.mem_append_left _ hy : y ∈ (none :: l₁.map some) ++ _)
  · rw [hl, List.append_assoc]
    exact List.mem_append_left _ hq
  · intro heq
    exact List.disjoint_of_nodup_append hnd (List.mem_append_left _ hq)
      (List.mem_of_mem_head? heq)

/-- And so do the blocks behind the first one after it. -/
theorem Keeps.rest {q : Nat} {l : List Nat} (hcons : l₂ = q :: l) :
    d.Threaded m' c (some q) l := by
  subst hcons
  have hthread := h.threaded c
  have hnd : (l₁ ++ mid ++ q :: l).Nodup := hl ▸ h.nodup c
  rw [hl, threaded_append] at hthread
  have hmem : ∀ r ∈ q :: l, r ∈ ls c := fun r hr => by rw [hl]; exact List.mem_append_right _ hr
  -- no place behind the seam is the one before it, or the block after it
  refine hthread.2.2.2.congr (fun y hy => k.follower _ _ ?_ (.inl ?_))
    fun r hr => k.prev c _ (hmem r (List.mem_cons_of_mem _ hr)) ?_
  · obtain ⟨r, hr, rfl⟩ := List.mem_map.1 (show y ∈ (q :: l).map some from hy)
    exact List.mem_cons_of_mem _ (List.mem_map_of_mem (hmem r hr))
  · intro heq
    obtain ⟨r, hr, rfl⟩ := List.mem_map.1 (show y ∈ (q :: l).map some from hy)
    have : r ∈ l₁ := by
      rcases lastFrom_mem none l₁ with ⟨h', -⟩ | ⟨r', hr', h'⟩
      · rw [h'] at heq; cases heq
      · rw [h'] at heq; cases heq; exact hr'
    exact List.disjoint_of_nodup_append hnd (List.mem_append_left _ this) hr
  · intro heq
    cases heq
    exact (List.nodup_cons.1 hnd.of_append_right).1 hr

/-- Every other list stays as it is. -/
theorem Keeps.other (hc : c' ≠ c) : d.Threaded m' c' none (ls c') := by
  have hl' : ls c = l₁ ++ (mid ++ l₂) := by rw [hl, List.append_assoc]
  -- the front of another list is a place of its own, and its blocks are others
  refine (h.threaded c').congr (fun y hy => k.follower _ _ hy ?_) fun q hq => k.prev _ _ hq ?_
  · by_cases hy' : lastFrom none l₁ = y
    · refine .inr ⟨?_, Ne.symm hc⟩
      cases hlast : lastFrom none l₁ with
      | none => rfl
      | some q =>
        exact absurd (h.disjoint (place_of_mem hy q (by rw [← hy', hlast]; rfl))
          (mem_of_lastFrom hl' q (by rw [hlast]; rfl))) hc
    · exact .inl hy'
  · intro heq
    exact hc (h.disjoint hq (mem_of_head? hl q heq))

end Keeps

/-- One sequence changed, to blocks that it had or no sequence had. -/
theorem update {l : List Nat} (h : d.Spells m ls) (hself : d.Threaded m' c none l)
    (hother : ∀ c', c' ≠ c → d.Threaded m' c' none (ls c')) (hnd : l.Nodup)
    (hmem : ∀ q ∈ l, q ∈ ls c ∨ ∀ c', q ∉ ls c') : d.Spells m' (Function.update ls c l) := by
  have hnew : ∀ {c' q}, q ∈ Function.update ls c l c' →
      q ∈ ls c' ∨ c' = c ∧ ∀ c', q ∉ ls c' := by
    intro c' q hq
    by_cases hc : c' = c
    · subst hc
      rw [Function.update_self] at hq
      exact (hmem q hq).imp_right fun hnone => ⟨rfl, hnone⟩
    · rw [Function.update_of_ne hc] at hq
      exact .inl hq
  refine ⟨(Function.forall_update_iff ls fun c' l => d.Threaded m' c' none l).2 ⟨hself, hother⟩,
    (Function.forall_update_iff ls fun _ l => l.Nodup).2 ⟨hnd, fun c' _ => h.nodup c'⟩, ?_⟩
  intro c₁ c₂ q h₁ h₂
  rcases hnew h₁ with hold₁ | ⟨hc₁, hnone⟩ <;> rcases hnew h₂ with hold₂ | ⟨hc₂, hnone'⟩
  · exact h.disjoint hold₁ hold₂
  · exact absurd hold₁ (hnone' _)
  · exact absurd hold₂ (hnone _)
  · exact hc₁.trans hc₂.symm

/-- **Splicing a block in** at a seam of one list changes that list
there, and no other. -/
theorem splice (h : d.Spells m ls) (hs : d.Spaced P) (hP : ∀ c, ∀ q ∈ ls c, P q) (hp : P p)
    (hnew : ∀ c, p ∉ ls c) (hl : ls c = l₁ ++ l₂) :
    d.Spells (d.splice c p ⟨lastFrom none l₁, l₂.head?⟩ m)
      (Function.update ls c (l₁ ++ p :: l₂)) := by
  have hmb := mem_of_lastFrom hl
  have hma := mem_of_head? hl
  have hb : ∀ q ∈ lastFrom none l₁, P q := fun q hq => hP c q (hmb q hq)
  have ha : ∀ q ∈ l₂.head?, P q := fun q hq => hP c q (hma q hq)
  have hbp : lastFrom none l₁ ≠ some p := fun heq => hnew c (hmb p heq)
  have hap : l₂.head? ≠ some p := fun heq => hnew c (hma p heq)
  have hk : Keeps d m (d.splice c p ⟨lastFrom none l₁, l₂.head?⟩ m) ls c
      ⟨lastFrom none l₁, l₂.head?⟩ := by
    refine ⟨?_, ?_⟩
    · intro c' x hx hne
      have hmem := place_of_mem hx
      refine follower_splice_of_ne hs hb ha hp (fun q hq => hP c' q (hmem q hq)) ?_ hne
      rintro rfl
      exact hnew c' (hmem p rfl)
    · intro c' q hq hne
      exact prev_splice_of_ne hs hb ha hp (hP c' q hq) (fun heq => hnew c' (heq ▸ hq)) hne
  have hl' : ls c = l₁ ++ [] ++ l₂ := by rw [hl, List.append_nil]
  have hself : d.Threaded (d.splice c p ⟨lastFrom none l₁, l₂.head?⟩ m) c none (l₁ ++ p :: l₂) := by
    rw [threaded_append]
    refine ⟨hk.path h hl', follower_splice hs hb ha hp, prev_splice_self hs hb ha hp hap, ?_⟩
    -- behind the new block is the rest of the list, if there is one
    cases l₂ with
    | nil => exact follower_splice_self hs hb ha hp hbp
    | cons q l₂ =>
      exact ⟨follower_splice_self hs hb ha hp hbp, prev_splice hs hp (ha _ rfl) rfl,
        hk.rest h hl' rfl⟩
  have hnd : (l₁ ++ p :: l₂).Nodup := by
    have hperm : (l₁ ++ p :: l₂).Perm (p :: ls c) := hl ▸ List.perm_middle
    rw [hperm.nodup_iff, List.nodup_cons]
    exact ⟨hnew c, h.nodup c⟩
  refine h.update hself (fun c' hc => hk.other h hl' hc) hnd ?_
  intro q hq
  rw [List.perm_middle.mem_iff, List.mem_cons, ← hl] at hq
  rcases hq with rfl | hq
  · exact .inr hnew
  · exact .inl hq

/-- **Unlinking a block** takes it out of its list, and changes no
other. -/
theorem unlink (h : d.Spells m ls) (hs : d.Spaced P) (hP : ∀ c, ∀ q ∈ ls c, P q)
    (hl : ls c = l₁ ++ p :: l₂) :
    d.Spells (d.unlink c ⟨d.prev m p, d.next m p⟩ m) (Function.update ls c (l₁ ++ l₂)) := by
  have hthread := h.threaded c
  rw [hl] at hthread
  rw [hthread.prev_eq, hthread.next_eq]
  have hl' : ls c = l₁ ++ [p] ++ l₂ := by rw [hl, List.append_assoc]; rfl
  have hb : ∀ q ∈ lastFrom none l₁, P q := fun q hq => hP c q (mem_of_lastFrom hl q hq)
  have ha : ∀ q ∈ l₂.head?, P q := fun q hq =>
    hP c q (mem_of_head? hl' q hq)
  have hk : Keeps d m (d.unlink c ⟨lastFrom none l₁, l₂.head?⟩ m) ls c
      ⟨lastFrom none l₁, l₂.head?⟩ := by
    refine ⟨?_, ?_⟩
    · intro c' x hx hne
      exact follower_unlink_of_ne hs hb ha (fun q hq => hP c' q (place_of_mem hx q hq)) hne
    · intro c' q hq hne
      exact prev_unlink_of_ne hs hb ha (hP c' q hq) hne
  have hsub : (l₁ ++ l₂).Sublist (ls c) := by
    rw [hl]
    exact (List.Sublist.refl l₁).append (List.sublist_cons_self p l₂)
  have hself : d.Threaded (d.unlink c ⟨lastFrom none l₁, l₂.head?⟩ m) c none (l₁ ++ l₂) := by
    rw [threaded_append]
    refine ⟨hk.path h hl', ?_⟩
    cases l₂ with
    | nil => exact follower_unlink hs hb ha
    | cons q l₂ => exact ⟨follower_unlink hs hb ha, prev_unlink hs hb rfl, hk.rest h hl' rfl⟩
  exact h.update hself (fun c' hc => hk.other h hl' hc) ((h.nodup c).sublist hsub)
    fun q hq => .inl (hsub.subset hq)

end Spells

end FreeLists

end SegFit
