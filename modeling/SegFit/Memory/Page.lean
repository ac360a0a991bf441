/-!
# Pages

A page is a short run of bytes. It holds the bytes up to the last one
written and every later byte is zero, so a page has a byte at every
position and a new page takes no room.
-/

namespace SegFit

/-- The bytes of a page up to the last one written; all later ones are
zero. -/
structure Page where
  bytes : ByteArray := .empty

namespace Page

instance : Inhabited Page := ⟨{}⟩

/-- The byte at a position. -/
def byte (p : Page) (i : Nat) : UInt8 :=
  if h : i < p.bytes.size then p.bytes[i] else 0

/-- A byte array with `n` zeros added at its end. -/
def zeroExtend : Nat → ByteArray → ByteArray
  | 0, b => b
  | n + 1, b => zeroExtend n (b.push 0)

/-- The page with one byte replaced. -/
def setByte (i : Nat) (v : UInt8) (p : Page) : Page :=
  if h : i < p.bytes.size then ⟨p.bytes.set i v h⟩
  else ⟨(zeroExtend (i - p.bytes.size) p.bytes).push v⟩

theorem byte_eq_getD (p : Page) (i : Nat) : p.byte i = p.bytes.data[i]?.getD 0 := by
  unfold byte
  split
  case isTrue h => rw [ByteArray.getElem_eq_getElem_data, Array.getElem?_eq_getElem h]; rfl
  case isFalse h => rw [Array.getElem?_eq_none (Nat.le_of_not_lt h)]; rfl

theorem size_zeroExtend (n : Nat) (b : ByteArray) : (zeroExtend n b).size = b.size + n := by
  induction n generalizing b with
  | zero => rfl
  | succ n ih => rw [zeroExtend, ih, ByteArray.size_push]; omega

/-- Added zeros change no byte. -/
theorem byte_zeroExtend (n : Nat) (b : ByteArray) (i : Nat) :
    byte ⟨zeroExtend n b⟩ i = byte ⟨b⟩ i := by
  induction n generalizing b with
  | zero => rfl
  | succ n ih =>
    rw [zeroExtend, ih, byte_eq_getD, byte_eq_getD, ByteArray.data_push, Array.getElem?_push]
    split
    case isTrue h => rw [h, Array.getElem?_eq_none (Nat.le_refl _)]; rfl
    case isFalse => rfl

@[simp] theorem byte_empty (i : Nat) : byte {} i = 0 := dif_neg (Nat.not_lt_zero _)

/-- **A byte reads back as it was written**, and every other byte of the
page is kept. -/
@[simp] theorem byte_setByte (i : Nat) (v : UInt8) (p : Page) (j : Nat) :
    (setByte i v p).byte j = if j = i then v else p.byte j := by
  unfold setByte
  split
  case isTrue h =>
    simp only [byte_eq_getD, ByteArray.data_set, Array.getElem?_set]
    by_cases hj : j = i
    · subst hj; simp
    · simp [hj, Ne.symm hj]
  case isFalse h =>
    have hsize : (zeroExtend (i - p.bytes.size) p.bytes).data.size = i := by
      have := size_zeroExtend (i - p.bytes.size) p.bytes
      rw [← ByteArray.size_data] at this; omega
    rw [byte_eq_getD, ByteArray.data_push, Array.getElem?_push, hsize]
    split
    case isTrue => rfl
    case isFalse =>
      have := byte_zeroExtend (i - p.bytes.size) p.bytes j
      rw [byte_eq_getD] at this; exact this

end Page

end SegFit
