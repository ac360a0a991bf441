import SegFit.Layout
import SegFit.Memory.Page

/-!
# Memory

The bytes of the machine, kept in pages. A byte nobody has written is
zero, so a memory has a byte at every address and no operation on it can
fail; which addresses belong to a heap's region is its store's affair. Words are
four bytes with the lowest first. `Memory.Lemmas` says what each write
does to each read.
-/

namespace SegFit

/-- The pages written so far, from address zero; all later bytes are
zero. -/
structure Memory where
  pages : Array Page := #[]

namespace Memory

instance : Inhabited Memory := ⟨{}⟩

/-- The number of bytes in a page. -/
def pageSize : Nat := 64

/-- The page that holds an address. -/
def page (m : Memory) (a : Nat) : Page := m.pages[a / pageSize]?.getD {}

/-- The byte at an address. -/
def byte (m : Memory) (a : Nat) : UInt8 := (m.page a).byte (a % pageSize)

/-- The pages with `n` empty ones added at their end. -/
def addPages : Nat → Array Page → Array Page
  | 0, ps => ps
  | n + 1, ps => addPages n (ps.push {})

/-- The memory with one byte replaced. -/
def setByte (a : Nat) (v : UInt8) (m : Memory) : Memory :=
  let i := a / pageSize
  let ps := addPages (i + 1 - m.pages.size) m.pages
  ⟨ps.modify i (Page.setByte (a % pageSize) v)⟩

/-- The word at an address. -/
def word (m : Memory) (a : Nat) : UInt32 :=
  UInt32.ofNat ((m.byte a).toNat + 0x100 * (m.byte (a + 1)).toNat
    + 0x10000 * (m.byte (a + 2)).toNat + 0x1000000 * (m.byte (a + 3)).toNat)

/-- The memory with one word replaced. -/
def setWord (a : Nat) (v : UInt32) (m : Memory) : Memory :=
  m |> setByte a (UInt8.ofNat v.toNat)
    |> setByte (a + 1) (UInt8.ofNat (v.toNat / 0x100))
    |> setByte (a + 2) (UInt8.ofNat (v.toNat / 0x10000))
    |> setByte (a + 3) (UInt8.ofNat (v.toNat / 0x1000000))

/-- Writes `f i, f (i + 1), …` to `n` bytes from address `a` on. -/
def tabulate (f : Nat → UInt8) : Nat → Nat → Nat → Memory → Memory
  | _, _, 0, m => m
  | i, a, n + 1, m => tabulate f (i + 1) (a + 1) n (setByte a (f i) m)

/-- Writes the bytes `v, v + 1, …` modulo 256 to `n` bytes from address
`a` on. -/
def writeRamp (a : Nat) (n : Nat) (v : UInt8) (m : Memory) : Memory :=
  m.tabulate (fun i => v + UInt8.ofNat i) 0 a n

/-- Writes the byte `v` to `n` bytes from address `a` on. -/
def fill (a : Nat) (n : Nat) (v : UInt8) (m : Memory) : Memory :=
  m.tabulate (fun _ => v) 0 a n

/-- Copies `n` bytes from one address to another, in ascending order. -/
def copy : Nat → Nat → Nat → Memory → Memory
  | _, _, 0, m => m
  | source, target, n + 1, m =>
    copy (source + 1) (target + 1) n (setByte target (m.byte source) m)

/-- The `n` bytes from address `a` on. -/
def read (m : Memory) (a : Nat) (n : Nat) : List UInt8 :=
  (List.range n).map fun i => m.byte (a + i)

/-- The `n` words from address `a` on. -/
def words (m : Memory) (a : Nat) (n : Nat) : List UInt32 :=
  (List.range n).map fun i => m.word (a + Layout.word * i)

/-- A checksum of `n` bytes from address `a` on: `h` becomes
`31 * h + b` at each byte `b`, modulo `2 ^ 32`. -/
def digest (m : Memory) : Nat → Nat → UInt32 → UInt32
  | _, 0, h => h
  | a, n + 1, h => digest m (a + 1) n (31 * h + (m.byte a).toUInt32)

end Memory

end SegFit
