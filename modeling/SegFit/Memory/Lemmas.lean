import SegFit.Memory.Basic

/-!
# What writing does to reading

Each write of a byte, a word or a range is described by the bytes it
leaves (`byte_setByte`, `byte_setWord`, `byte_tabulate`, `byte_copy`).
For words, a word reads back as it was written (`word_setWord_self`) and
a disjoint one is kept (`word_setWord_of_disjoint`).
-/

namespace SegFit

namespace Memory

variable {m : Memory}

theorem size_addPages (n : Nat) (ps : Array Page) : (addPages n ps).size = ps.size + n := by
  induction n generalizing ps with
  | zero => rfl
  | succ n ih => rw [addPages, ih, Array.size_push]; omega

/-- Added pages change no byte. -/
theorem getD_addPages (n : Nat) (ps : Array Page) (i : Nat) :
    (addPages n ps)[i]?.getD {} = ps[i]?.getD {} := by
  induction n generalizing ps with
  | zero => rfl
  | succ n ih =>
    rw [addPages, ih, Array.getElem?_push]
    split
    case isTrue h => rw [h, Array.getElem?_eq_none (Nat.le_refl _)]; rfl
    case isFalse => rfl

/-- **A byte reads back as it was written**, and every other byte is
kept. -/
@[simp] theorem byte_setByte (a : Nat) (v : UInt8) (m : Memory) (b : Nat) :
    (setByte a v m).byte b = if b = a then v else m.byte b := by
  have hsize := size_addPages (a / pageSize + 1 - m.pages.size) m.pages
  have hget := getD_addPages (a / pageSize + 1 - m.pages.size) m.pages (b / pageSize)
  simp only [setByte, byte, page, Array.getElem?_modify]
  generalize addPages (a / pageSize + 1 - m.pages.size) m.pages = ps at hsize hget
  by_cases hpage : a / pageSize = b / pageSize
  · have hlt : b / pageSize < ps.size := by omega
    rw [if_pos hpage, ← hget, Array.getElem?_eq_getElem hlt]
    have hsame : b % pageSize = a % pageSize ↔ b = a := by
      constructor
      · intro h
        rw [← Nat.div_add_mod b pageSize, ← Nat.div_add_mod a pageSize, hpage, h]
      · rintro rfl; rfl
    simp only [Option.map_some, Option.getD_some, Page.byte_setByte, hsame]
  · rw [if_neg hpage, hget, if_neg (by rintro rfl; exact hpage rfl)]

/-- The bytes of a written word, lowest first. -/
theorem byte_setWord (a : Nat) (v : UInt32) (m : Memory) (b : Nat) :
    (setWord a v m).byte b =
      if a ≤ b ∧ b < a + 4 then UInt8.ofNat (v.toNat >>> (8 * (b - a))) else m.byte b := by
  simp only [setWord, byte_setByte]
  by_cases h : a ≤ b ∧ b < a + 4
  · obtain ⟨i, rfl⟩ := Nat.exists_eq_add_of_le h.1
    obtain rfl | rfl | rfl | rfl : i = 0 ∨ i = 1 ∨ i = 2 ∨ i = 3 := by omega
    all_goals simp [Nat.shiftRight_eq_div_pow]
  · rw [if_neg h]
    rw [if_neg (by omega), if_neg (by omega), if_neg (by omega), if_neg (by omega)]

/-- **A word reads back as it was written.** -/
@[simp] theorem word_setWord_self (a : Nat) (v : UInt32) (m : Memory) :
    (setWord a v m).word a = v := by
  have hv := v.toNat_lt
  apply UInt32.toNat_inj.1
  simp [word, byte_setWord]
  omega

/-- Words depend on their four bytes alone. -/
theorem word_congr {m m' : Memory} {a : Nat}
    (h : ∀ b, a ≤ b → b < a + 4 → m.byte b = m'.byte b) : m.word a = m'.word a := by
  simp only [word]
  rw [h a (by omega) (by omega), h (a + 1) (by omega) (by omega), h (a + 2) (by omega) (by omega),
    h (a + 3) (by omega) (by omega)]

/-- **A write keeps every word it does not overlap.** -/
theorem word_setWord_of_disjoint {a b : Nat} (v : UInt32) (m : Memory)
    (h : b + 4 ≤ a ∨ a + 4 ≤ b) : (setWord a v m).word b = m.word b :=
  word_congr fun c _ _ => by rw [byte_setWord, if_neg (by omega)]

theorem byte_tabulate (f : Nat → UInt8) (i : Nat) (a : Nat) (n : Nat) (m : Memory) (b : Nat) :
    (tabulate f i a n m).byte b =
      if a ≤ b ∧ b < a + n then f (i + (b - a)) else m.byte b := by
  induction n generalizing i a m with
  | zero => rw [tabulate, if_neg (by omega)]
  | succ n ih =>
    rw [tabulate, ih, byte_setByte]
    by_cases h : a + 1 ≤ b ∧ b < a + 1 + n
    · rw [if_pos h, if_pos (by omega)]; congr 1; omega
    · rw [if_neg h]
      by_cases hb : b = a
      · subst hb; simp
      · rw [if_neg hb, if_neg (by omega)]

/-- A filled range is of one byte, and nothing else changes. -/
theorem byte_fill (a n : Nat) (v : UInt8) (m : Memory) (b : Nat) :
    (fill a n v m).byte b = if a ≤ b ∧ b < a + n then v else m.byte b :=
  byte_tabulate _ _ _ _ _ b

/-- **A copy between disjoint ranges** leaves the source's bytes in the
target and every other byte as it was. -/
theorem byte_copy {source target n : Nat} (m : Memory)
    (h : source + n ≤ target ∨ target + n ≤ source) (b : Nat) :
    (copy source target n m).byte b =
      if target ≤ b ∧ b < target + n then m.byte (source + (b - target)) else m.byte b := by
  induction n generalizing source target m with
  | zero => rw [copy, if_neg (by omega)]
  | succ n ih =>
    rw [copy, ih _ (by omega), byte_setByte, byte_setByte]
    by_cases hin : target + 1 ≤ b ∧ b < target + 1 + n
    · rw [if_pos hin, if_neg (by omega), if_pos (by omega)]; congr 1; omega
    · rw [if_neg hin]
      by_cases hb : b = target
      · subst hb; simp
      · rw [if_neg hb, if_neg (by omega)]

end Memory

end SegFit
