import SegFit.SizeClass
import Mathlib.Algebra.GroupWithZero.Nat
import Mathlib.Data.List.Basic
import Mathlib.Data.List.FinRange
/-!
# Size classes are ordered

The class of a size is the least whose sizes go that far
(`ofSize_le_iff`), so larger sizes have larger classes (`ofSize_mono`),
and the classes searched for a size are those its larger sizes can be in
(`mem_andLarger_iff`), in ascending order. The intervals that describe the
classes part the sizes, and the one a size is in is that of the class it is
filed under (`selected_ofSize`).
-/

namespace SegFit

namespace SizeClass

variable {c c' : SizeClass} {m n : Nat}

theorem ext_index (h : (c.index : Nat) = c'.index) : c = c' := by
  cases c
  cases c'
  exact congrArg mk (Fin.ext h)

theorem index_le_nine (c : SizeClass) : (c.index : Nat) ≤ 9 := Nat.le_of_lt_succ c.index.isLt

theorem mem_all (c : SizeClass) : c ∈ all := List.mem_map.2 ⟨c.index, List.mem_finRange _, rfl⟩

/-- What is said of every class can be checked class by class. -/
instance decidableForall {P : SizeClass → Prop} [DecidablePred P] : Decidable (∀ c, P c) :=
  decidable_of_iff (∀ c ∈ all, P c) ⟨fun h c => h c (mem_all c), fun h c _ => h c⟩

/-- All classes, in ascending order. -/
theorem pairwise_all : all.Pairwise fun c c' => (c.index : Nat) < c'.index := by decide

/-- Lists of all classes that share nothing have nothing twice together. -/
theorem nodup_flatMap_all {α : Type} {f : SizeClass → List α} (hnd : ∀ c, (f c).Nodup)
    (hdisjoint : ∀ {c c' a}, a ∈ f c → a ∈ f c' → c = c') : (all.flatMap f).Nodup := by
  rw [List.nodup_flatMap]
  refine ⟨fun c _ => hnd c, pairwise_all.imp ?_⟩
  intro c c' hlt a ha ha'
  obtain rfl := hdisjoint ha ha'
  exact Nat.lt_irrefl _ hlt

/-- What is found first is below everything else that could be. -/
theorem index_le_of_find? {p : SizeClass → Bool} (hc : all.find? p = some c) (hp : p c' = true) :
    (c.index : Nat) ≤ c'.index := by
  obtain ⟨-, pre, post, hall, hpre⟩ := List.find?_eq_some_iff_append.1 hc
  have hpairs := pairwise_all
  rw [hall, List.pairwise_append, List.pairwise_cons] at hpairs
  have hmem := mem_all c'
  rw [hall, List.mem_append, List.mem_cons] at hmem
  rcases hmem with hmem | rfl | hmem
  · have := hpre c' hmem
    rw [hp] at this
    cases this
  · exact Nat.le_refl _
  · exact Nat.le_of_lt (hpairs.2.1.1 c' hmem)

/-- Sizes up to a class's limit, and every size if it is the last. -/
def Reaches (c : SizeClass) (n : Nat) : Prop := c = last ∨ n ≤ c.limit

theorem shiftLeft_le {i j : Nat} (h : i ≤ j) (k : Nat) : k <<< i ≤ k <<< j := by
  rw [Nat.shiftLeft_eq, Nat.shiftLeft_eq]
  exact Nat.mul_le_mul_left _ (Nat.pow_le_pow_right (by decide) h)

theorem limit_le (h : (c.index : Nat) ≤ c'.index) : c.limit ≤ c'.limit := shiftLeft_le h _

/-- Larger classes reach further. -/
theorem Reaches.of_le (hc : c.Reaches n) (h : (c.index : Nat) ≤ c'.index) : c'.Reaches n := by
  rcases hc with rfl | hn
  · have hlast : (last.index : Nat) = 9 := rfl
    have := c'.index_le_nine
    exact .inl (ext_index (by omega))
  · exact .inr (Nat.le_trans hn (limit_le h))

theorem find?_ofSize (n : Nat) :
    all.find? (fun c => c == last || n ≤ c.limit) = some (ofSize n) := by
  have hsome : (all.find? fun c => c == last || n ≤ c.limit).isSome :=
    List.find?_isSome.2 ⟨last, mem_all last, by simp⟩
  obtain ⟨c, hc⟩ := Option.isSome_iff_exists.1 hsome
  rw [ofSize, hc, Option.getD_some]

/-- **The class of a size is the least that reaches it.** -/
theorem ofSize_le_iff : ((ofSize n).index : Nat) ≤ c.index ↔ c.Reaches n := by
  constructor
  · have hfound := List.find?_some (find?_ofSize n)
    simp only [Bool.or_eq_true, beq_iff_eq, decide_eq_true_eq] at hfound
    exact Reaches.of_le hfound
  · intro hc
    refine index_le_of_find? (find?_ofSize n) ?_
    simp only [Bool.or_eq_true, beq_iff_eq, decide_eq_true_eq]
    exact hc

/-- **Larger sizes have larger classes.** -/
theorem ofSize_mono (h : m ≤ n) : ((ofSize m).index : Nat) ≤ (ofSize n).index := by
  rw [ofSize_le_iff]
  rcases ofSize_le_iff.1 (Nat.le_refl (ofSize n).index) with hlast | hn
  · exact .inl hlast
  · exact .inr (Nat.le_trans h hn)

/-- **A size is in the interval of its own class only.** -/
theorem ofSize_of_contains (h : c.contains n = true) : ofSize n = c := by
  simp only [contains, Bool.and_eq_true, decide_eq_true_eq] at h
  obtain ⟨hlow, hhigh⟩ := h
  have hreaches : c.Reaches n := by
    by_cases hlast : c = last
    · exact .inl hlast
    · rw [upperBound, if_neg hlast, Option.all_some, decide_eq_true_eq] at hhigh
      exact .inr hhigh
  have hle := ofSize_le_iff.2 hreaches
  rcases Nat.eq_or_lt_of_le hle with heq | hlt
  · exact ext_index heq
  · -- a smaller class ends at or below the bound that the size is above
    exfalso
    have hsize : n ≤ (ofSize n).limit := by
      rcases ofSize_le_iff.1 (Nat.le_refl (ofSize n).index) with hlast | hn
      · have := c.index_le_nine
        rw [hlast] at hlt
        exact absurd hlt (Nat.not_lt.2 this)
      · exact hn
    have hbound : (ofSize n).limit ≤ c.lowerBound := by
      rw [lowerBound, if_neg (by omega), limit]
      exact shiftLeft_le (by omega) _
    omega

/-- **And it is in that one.** -/
theorem contains_ofSize (hn : 0 < n) : (ofSize n).contains n = true := by
  simp only [contains, Bool.and_eq_true, decide_eq_true_eq]
  constructor
  · rw [lowerBound]
    split
    · exact hn
    · -- the class below does not reach the size
      rename_i hpos
      have hlt := (ofSize n).index.isLt
      let c : SizeClass := ⟨⟨(ofSize n).index - 1, by omega⟩⟩
      have hbelow : ¬ c.Reaches n := fun hreach => by
        have hle : ((ofSize n).index : Nat) ≤ (ofSize n).index - 1 := ofSize_le_iff.2 hreach
        omega
      exact Nat.lt_of_not_le fun hle => hbelow (.inr hle)
  · rcases ofSize_le_iff.1 (Nat.le_refl (ofSize n).index) with hlast | hle
    · rw [upperBound, if_pos hlast]
      rfl
    · rw [upperBound]
      split
      · rfl
      · exact decide_eq_true hle

/-- The classes from one on are those not below it. -/
theorem mem_andLarger_iff : c' ∈ c.andLarger ↔ (c.index : Nat) ≤ c'.index := by
  have hall : ∀ i j : Fin 10, (⟨j⟩ : SizeClass) ∈ andLarger ⟨i⟩ ↔ (i : Nat) ≤ j := by decide
  exact hall c.index c'.index

theorem pairwise_andLarger (c : SizeClass) :
    c.andLarger.Pairwise fun c c' => (c.index : Nat) < c'.index :=
  pairwise_all.sublist (List.drop_sublist _ _)

/-! ## Selection and bounds -/

theorem contains_iff (hn : 0 < n) : c.contains n = true ↔ c = ofSize n :=
  ⟨fun h => (ofSize_of_contains h).symm, fun h => h ▸ contains_ofSize hn⟩

theorem containing_eq (hn : 0 < n) : containing n = [ofSize n] := by
  have hone : ∀ c : SizeClass, (all.filter fun c' => decide (c' = c)) = [c] := by decide
  rw [containing, ← hone (ofSize n)]
  refine List.filter_congr fun c _ => ?_
  rw [Bool.eq_iff_iff, decide_eq_true_eq, contains_iff hn]

/-- The classes searched leave none out. -/
theorem map_index_andLarger :
    (c.andLarger.map fun c => (c.index : Nat)) = List.range' c.index (count - c.index) := by
  have hall : ∀ c : SizeClass, (c.andLarger.map fun c => (c.index : Nat)) =
      List.range' c.index (count - c.index) := by decide
  exact hall c

theorem getLast?_andLarger : c.andLarger.getLast? = some last := by
  have hall : ∀ c : SizeClass, c.andLarger.getLast? = some last := by decide
  exact hall c

/-- **Larger classes hold larger sizes.** -/
theorem lt_of_contains (hlt : (c.index : Nat) < c'.index) (hm : c.contains m = true)
    (hn : c'.contains n = true) : m < n := by
  by_contra hle
  have hmono := ofSize_mono (Nat.le_of_not_lt hle)
  rw [ofSize_of_contains hm, ofSize_of_contains hn] at hmono
  omega

/-- **The class of a size, said by the bounds**: they put the size in this
class and in no other. Larger sizes are in it or a class behind it, and those
are searched in a row, so that what is met later is larger. -/
structure Selected (n : Nat) (c : SizeClass) : Prop where
  alone : containing n = [c]
  bounds : ∀ c', c'.contains n = true ↔ c' = c
  mono : ∀ m, n ≤ m → (c.index : Nat) ≤ (ofSize m).index
  covers : ∀ m, n ≤ m → ∃ c' ∈ c.andLarger, c'.contains m = true
  consecutive : (c.andLarger.map fun c' => (c'.index : Nat)) = List.range' c.index (count - c.index)
  ends : c.andLarger.getLast? = some last
  ascending : c.andLarger.Pairwise fun c₁ c₂ =>
    ∀ k₁ k₂, c₁.contains k₁ = true → c₂.contains k₂ = true → k₁ < k₂

/-- **Class selection and class bounds agree** on every size. -/
theorem selected_ofSize (hn : 0 < n) : Selected n (ofSize n) where
  alone := containing_eq hn
  bounds _ := contains_iff hn
  mono _ hm := ofSize_mono hm
  covers m hm :=
    ⟨ofSize m, mem_andLarger_iff.2 (ofSize_mono hm), contains_ofSize (Nat.lt_of_lt_of_le hn hm)⟩
  consecutive := map_index_andLarger
  ends := getLast?_andLarger
  ascending := (pairwise_andLarger _).imp fun hlt _ _ h₁ h₂ => lt_of_contains hlt h₁ h₂

/-- A size on a bound is in the class below it; the next is above. -/
theorem selected_at_bound : Selected 4096 ⟨8⟩ ∧ Selected 4097 last :=
  ⟨selected_ofSize (n := 4096) (by decide), selected_ofSize (n := 4097) (by decide)⟩

end SizeClass

end SegFit
