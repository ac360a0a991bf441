import SegFit.Audit.Lists
import SegFit.Block
import SegFit.Proofs.FreeLists.Search
import SegFit.Proofs.SizeClass
import Mathlib.Data.List.Chain
/-!
# A clean walk over the lists

A list that the walk finds nothing wrong with ends, repeats no block, and
is threaded both ways (`Sound`). What the walk counts is then the length
of the list. It takes each listed block at its word: the words before and
in it are read as a header and as links, whether or not a block of the
heap is there.
-/

namespace SegFit

namespace Audit

variable {m : Memory} {r : Region} {d : Directory} {c : SizeClass} {t : Tally} {p : Nat}
  {free : Array Nat} {seen ps : List Nat} {x : Option Nat}

/-- Nothing wrong has been noted. -/
def Tally.Clean (t : Tally) : Prop := t.violations = #[]

theorem Tally.clean_note {wrong : Bool} {v : Violation} :
    (t.note wrong v).Clean ↔ t.Clean ∧ wrong = false := by
  cases wrong with
  | false => exact (and_iff_left rfl).symm
  | true =>
    constructor
    · intro h
      exact absurd h Array.push_ne_empty
    · rintro ⟨-, h⟩
      cases h

theorem Tally.not_clean {v : Violation} : ¬ (t.note true v).Clean := by
  rw [clean_note]
  rintro ⟨-, h⟩
  cases h

theorem Tally.listed_note (wrong : Bool) (v : Violation) :
    (t.note wrong v).listed = t.listed := by
  cases wrong <;> rfl

theorem Tally.listed_enter {size : Nat} {touches linksBack : Bool} {before : Option Nat} :
    (t.enter c p size touches linksBack before).listed = t.listed + 1 := by
  simp only [enter, listed_note]

theorem Tally.clean_enter {size : Nat} {touches linksBack : Bool} {before : Option Nat} :
    (t.enter c p size touches linksBack before).Clean ↔
      t.Clean ∧ touches = false ∧ c.contains size = true ∧ linksBack = true ∧
        before.any (size < ·) = false := by
  have hcount : Clean { t with listed := t.listed + 1 } ↔ t.Clean := Iff.rfl
  simp only [enter, clean_note, hcount, and_assoc, Bool.not_eq_false']

/-! ## Listed blocks -/

/-- The free neighbours that a listed block seems to have, by its header
and the word before it. -/
def touches (m : Memory) (free : Array Nat) (p : Nat) : Bool :=
  let isFree := fun q => q != p && free.contains q
  isFree (m.before p) || isFree (m.after p)

/-- **What a clean walk has found of a listed block.** -/
structure Entry (m : Memory) (r : Region) (free : Array Nat) (c : SizeClass) (p : Nat) : Prop where
  low : r.Holds (p - 8)
  high : r.Holds (p + 7)
  unused : m.isAllocated p = false
  fits : c.contains (m.blockSize p) = true
  alone : touches m free p = false

/-- **What a clean walk follows** from a place on: links that lead to
blocks and back, sizes that do not fall, and an end. -/
def Followed (d : Directory) (m : Memory) (r : Region) (free : Array Nat) (c : SizeClass) :
    Option Nat → List Nat → Prop
  | x, [] => d.follower m c x = none
  | x, p :: ps =>
    d.follower m c x = some p ∧ d.prev m p = x ∧ Entry m r free c p ∧
      (∀ q ∈ x, m.blockSize q ≤ m.blockSize p) ∧ Followed d m r free c (some p) ps

theorem encode_resolve (w : UInt32) : d.encode (d.resolve w) = w := by
  unfold FreeLists.resolve
  split
  · rename_i hzero
    rw [hzero]
    rfl
  · rename_i hne
    have hlt := w.toNat_lt
    have hpos : w.toNat ≠ 0 := fun h => hne (UInt32.toNat_inj.1 h)
    rw [FreeLists.encode, if_pos ⟨by omega, by rw [Layout.wordRange]; omega⟩]
    apply UInt32.toNat_inj.1
    rw [Nat.add_sub_cancel_left, UInt32.ofNat_toNat]

/-- Wherever a link leads is within a link's reach. -/
theorem reaches_of_resolve {w : UInt32} (h : d.resolve w = some p) : d.Reaches p := by
  unfold FreeLists.resolve at h
  split at h
  · cases h
  · rename_i hne
    have hlt := w.toNat_lt
    have hpos : w.toNat ≠ 0 := fun h => hne (UInt32.toNat_inj.1 h)
    cases h
    exact ⟨by omega, by rw [Layout.wordRange]; omega⟩

/-- A link is one to a place exactly if it leads there. -/
theorem beq_encode_iff {w : UInt32} (hx : ∀ q ∈ x, d.Reaches q) :
    (w == d.encode x) = true ↔ d.resolve w = x := by
  rw [beq_iff_eq]
  constructor
  · rintro rfl
    exact FreeLists.resolve_encode_of_reaches hx
  · rintro rfl
    exact (encode_resolve w).symm

/-- A block of a list, with its size, as the walk keeps it. -/
def sized (m : Memory) (x : Option Nat) : Option (Nat × Nat) := x.map fun q => (q, m.blockSize q)

/-- The walk over a memory as it is. -/
theorem walkList_some (p : Nat) :
    walkList (.plain m) r d free c seen (sized m x) (some p) t = (
      if p ∈ seen then t.note true (.listCycle c)
      else if r.Holds (p - 8) ∧ r.Holds (p + 7) then
        if m.isAllocated p then t.note true (.allocatedInList p c)
        else
          walkList (.plain m) r d free c (p :: seen) (sized m (some p)) (d.next m p)
            (t.enter c p (m.blockSize p) (touches m free p) (m.word p == d.encode x)
              (x.map m.blockSize))
      else t.note true (.outOfHeap p) : Id Tally) := by
  rw [walkList]
  cases x <;> rfl

theorem walkList_none :
    walkList (.plain m) r d free c seen (sized m x) none t = (t : Id Tally) := by
  unfold walkList
  rfl

/-- There is a list to follow from a place on, and nothing in it comes
twice or is in `seen`. -/
def Followable (d : Directory) (m : Memory) (r : Region) (free : Array Nat) (c : SizeClass)
    (x : Option Nat) (seen : List Nat) : Prop :=
  ∃ ps, ps.Nodup ∧ (∀ p ∈ ps, p ∉ seen) ∧ Followed d m r free c x ps

theorem followable_of_none (h : d.follower m c x = none) : Followable d m r free c x seen :=
  ⟨[], List.nodup_nil, fun _ hp => absurd hp List.not_mem_nil, h⟩

/-- Following a list is passing its first block and following the rest. -/
theorem followable_iff_of_some (h : d.follower m c x = some p) :
    Followable d m r free c x seen ↔
      p ∉ seen ∧ d.prev m p = x ∧ Entry m r free c p ∧
        (∀ q ∈ x, m.blockSize q ≤ m.blockSize p) ∧
          Followable d m r free c (some p) (p :: seen) := by
  constructor
  · rintro ⟨_ | ⟨q, ps⟩, hnd, hseen, hf⟩
    · exact absurd (h.symm.trans hf) (Option.some_ne_none p)
    · obtain ⟨hq, hprev, hentry, hsorted, hf⟩ := hf
      obtain rfl : p = q := Option.some.inj (h.symm.trans hq)
      exact ⟨hseen p List.mem_cons_self, hprev, hentry, hsorted, ps, (List.nodup_cons.1 hnd).2,
        FreeLists.not_mem_seen_cons hnd hseen, hf⟩
  · rintro ⟨hp, hprev, hentry, hsorted, ps, hnd, hseen, hf⟩
    refine ⟨p :: ps, List.nodup_cons.2 ⟨?_, hnd⟩, ?_, h, hprev, hentry, hsorted, hf⟩
    · intro hmem
      exact hseen p hmem List.mem_cons_self
    · intro q hq
      rcases List.mem_cons.1 hq with rfl | hq
      · exact hp
      · exact fun hin => hseen q hq (List.mem_cons_of_mem _ hin)

/-- **A walk over a list is clean exactly if there is a list to follow.** -/
theorem clean_walkList (hx : ∀ q ∈ x, d.Reaches q) :
    Tally.Clean (walkList (.plain m) r d free c seen (sized m x) (d.follower m c x) t) ↔
      t.Clean ∧ Followable d m r free c x seen := by
  -- on the addresses of the region not seen yet
  induction hn : unseen r.stop seen using Nat.strong_induction_on generalizing seen x t with
  | _ n ih =>
  cases hp : d.follower m c x with
  | none =>
    rw [walkList_none]
    exact (and_iff_left (followable_of_none hp)).symm
  | some p =>
    have hreach : ∀ q ∈ some p, d.Reaches q := by
      rintro q ⟨⟩
      rw [FreeLists.follower_eq_resolve] at hp
      exact reaches_of_resolve hp
    rw [walkList_some, followable_iff_of_some hp]
    split
    · rename_i hseen
      exact iff_of_false Tally.not_clean fun h => h.2.1 hseen
    · rename_i hseen
      split
      · rename_i hin
        split
        · rename_i halloc
          refine iff_of_false Tally.not_clean ?_
          intro h
          rw [h.2.2.2.1.unused] at halloc
          cases halloc
        · rename_i halloc
          have hleft : unseen r.stop (p :: seen) < n := by
            have := hin.2.2
            rw [← hn]
            exact unseen_cons_lt (by omega) hseen
          have hsorted : (x.map m.blockSize).any (m.blockSize p < ·) = false ↔
              ∀ q ∈ x, m.blockSize q ≤ m.blockSize p := by
            cases x <;> simp
          have hnext : d.next m p = d.follower m c (some p) := rfl
          rw [hnext, ih _ hleft hreach rfl, Tally.clean_enter, beq_encode_iff hx, hsorted]
          constructor
          · rintro ⟨⟨ht, halone, hfits, hprev, hle⟩, hf⟩
            exact ⟨ht, hseen, hprev, ⟨hin.1, hin.2, by simpa using halloc, hfits, halone⟩, hle, hf⟩
          · rintro ⟨ht, -, hprev, hentry, hle, hf⟩
            exact ⟨⟨ht, hentry.alone, hentry.fits, hprev, hle⟩, hf⟩
      · rename_i hin
        exact iff_of_false Tally.not_clean fun h => hin ⟨h.2.2.2.1.low, h.2.2.2.1.high⟩

/-- A clean walk counts the blocks it follows. -/
theorem listed_walkList {ps : List Nat} (hnd : ps.Nodup) (hseen : ∀ p ∈ ps, p ∉ seen)
    (h : Followed d m r free c x ps) :
    Tally.listed (walkList (.plain m) r d free c seen (sized m x) (d.follower m c x) t) =
      t.listed + ps.length := by
  induction ps generalizing seen x t with
  | nil =>
    rw [show d.follower m c x = none from h, walkList_none]
    rfl
  | cons p ps ih =>
    obtain ⟨hp, -, hentry, -, hf⟩ := h
    have hrest := FreeLists.not_mem_seen_cons hnd hseen
    have hnext : d.next m p = d.follower m c (some p) := rfl
    rw [hp, walkList_some, if_neg (hseen p List.mem_cons_self), if_pos ⟨hentry.low, hentry.high⟩,
      if_neg (by rw [hentry.unused]; exact Bool.false_ne_true), hnext,
      ih (List.nodup_cons.1 hnd).2 hrest hf, Tally.listed_enter, List.length_cons]
    omega

/-! ## All lists -/

/-- **A clean walk follows threaded blocks**, each as it should be, and
none smaller than the one before. -/
theorem followed_iff :
    Followed d m r free c x ps ↔ d.Threaded m c x ps ∧ (∀ p ∈ ps, Entry m r free c p) ∧
      (x.toList ++ ps).IsChain fun p q => m.blockSize p ≤ m.blockSize q := by
  induction ps generalizing x with
  | nil =>
    cases x <;> simp [Followed, FreeLists.Threaded]
  | cons p ps ih =>
    have hsize : (x.toList ++ p :: ps).IsChain (fun p q => m.blockSize p ≤ m.blockSize q) ↔
        (∀ q ∈ x, m.blockSize q ≤ m.blockSize p) ∧
          ((some p).toList ++ ps).IsChain fun p q => m.blockSize p ≤ m.blockSize q := by
      cases x <;> simp [List.isChain_cons_cons]
    rw [Followed, FreeLists.Threaded, List.forall_mem_cons, hsize, ih]
    tauto

theorem Followed.threaded (h : Followed d m r free c x ps) : d.Threaded m c x ps :=
  (followed_iff.1 h).1

theorem Followed.entry (h : Followed d m r free c x ps) : ∀ p ∈ ps, Entry m r free c p :=
  (followed_iff.1 h).2.1

/-- **What a clean walk has found of the list of a class.** -/
structure Sound (d : Directory) (m : Memory) (r : Region) (free : Array Nat) (c : SizeClass) :
    Prop where
  nodup : (d.chain m r.stop c).Nodup
  followed : Followed d m r free c none (d.chain m r.stop c)

theorem followable_iff_sound :
    Followable d m r free c none [] ↔ Sound d m r free c := by
  constructor
  · rintro ⟨ps, hnd, -, hf⟩
    have hchain : d.chain m r.stop c = ps := by
      refine FreeLists.chain_of_threaded hf.threaded hnd ?_
      intro p hp
      have := (hf.entry p hp).high.2
      omega
    refine ⟨?_, ?_⟩
    · rw [hchain]
      exact hnd
    · rw [hchain]
      exact hf
  · rintro ⟨hnd, hf⟩
    exact ⟨_, hnd, fun _ _ => List.not_mem_nil, hf⟩

/-- One class of a survey. -/
def surveyList (d : Directory) (m : Memory) (r : Region) (free : Array Nat) (t : Tally)
    (c : SizeClass) : Tally :=
  walkList (.plain m) r d free c [] (sized m none) (d.follower m c none) t

theorem surveyLists_plain :
    surveyLists (.plain m) r d free = SizeClass.all.foldl (surveyList d m r free) {} :=
  List.idRun_foldlM

theorem clean_foldl (cs : List SizeClass) (t : Tally) :
    (cs.foldl (surveyList d m r free) t).Clean ↔ t.Clean ∧ ∀ c ∈ cs, Sound d m r free c := by
  induction cs generalizing t with
  | nil => simp
  | cons c cs ih =>
    have hc : (surveyList d m r free t c).Clean ↔ t.Clean ∧ Sound d m r free c := by
      rw [surveyList, clean_walkList (fun q hq => absurd hq (Option.not_mem_none q)),
        followable_iff_sound]
    rw [List.foldl_cons, ih, hc, List.forall_mem_cons, and_assoc]

theorem listed_foldl (h : ∀ c, Sound d m r free c) (cs : List SizeClass) (t : Tally) :
    (cs.foldl (surveyList d m r free) t).listed =
      t.listed + (cs.map fun c => (d.chain m r.stop c).length).sum := by
  induction cs generalizing t with
  | nil => rfl
  | cons c cs ih =>
    have hc : (surveyList d m r free t c).listed = t.listed + (d.chain m r.stop c).length :=
      listed_walkList (h c).nodup (fun _ _ => List.not_mem_nil) (h c).followed
    rw [List.foldl_cons, ih, hc, List.map_cons, List.sum_cons, Nat.add_assoc]

/-- **A survey of the lists is clean exactly if each of them is sound.** -/
theorem clean_surveyLists :
    Tally.Clean (surveyLists (.plain m) r d free) ↔ ∀ c, Sound d m r free c := by
  rw [surveyLists_plain, clean_foldl]
  constructor
  · rintro ⟨-, h⟩ c
    exact h c (SizeClass.mem_all c)
  · exact fun h => ⟨rfl, fun c _ => h c⟩

theorem listed_surveyLists (h : ∀ c, Sound d m r free c) :
    Tally.listed (surveyLists (.plain m) r d free) =
      (SizeClass.all.map fun c => (d.chain m r.stop c).length).sum := by
  rw [surveyLists_plain, listed_foldl h, Nat.zero_add]

end Audit

end SegFit
