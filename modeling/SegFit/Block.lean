import SegFit.Memory.Lemmas
import SegFit.Tag

/-!
# Blocks in memory

A block is addressed by its payload. Its header is the word before the
payload and its footer the last of the words its size covers, both the
same tag, so that the block after and the block before can be found from
either side. The block before is found through its footer; a footer is
found through its header. `blocks` reads the sequence of blocks from one
payload to the end of a region.
-/

namespace SegFit

namespace Memory

/-- The header of the block at `p`. -/
def header (m : Memory) (p : Nat) : Tag := ⟨m.word (p - Layout.word)⟩

/-- The size of the block at `p`, tags included. -/
def blockSize (m : Memory) (p : Nat) : Nat := (m.header p).size

/-- Is the block at `p` allocated, by its header? -/
def isAllocated (m : Memory) (p : Nat) : Bool := (m.header p).isAllocated

/-- The bytes of the block at `p` that its owner may use. -/
def usableSize (m : Memory) (p : Nat) : Nat :=
  Layout.wrappingSub (m.blockSize p) Layout.tags

/-- The address of the footer of the block at `p`. -/
def footerAt (m : Memory) (p : Nat) : Nat := p + m.blockSize p - Layout.tags

/-- The footer of the block at `p`. -/
def footer (m : Memory) (p : Nat) : Tag := ⟨m.word (m.footerAt p)⟩

/-- The footer of the block before the one at `p`. -/
def footerBefore (m : Memory) (p : Nat) : Tag := ⟨m.word (p - Layout.tags)⟩

/-- The payload after the block at `p`. -/
def after (m : Memory) (p : Nat) : Nat := p + m.blockSize p

/-- The payload before the block at `p`. -/
def before (m : Memory) (p : Nat) : Nat := p - (m.footerBefore p).size

/-- Replaces the header of the block at `p`. -/
def setHeader (p : Nat) (t : Tag) (m : Memory) : Memory := m.setWord (p - Layout.word) t.raw

/-- Replaces the footer of the block at `p`, where its header puts it. -/
def setFooter (p : Nat) (t : Tag) (m : Memory) : Memory :=
  let a := m.footerAt p
  m.setWord a t.raw

/-- Makes a block at `p`: the header first, since it places the
footer. -/
def setTags (p size : Nat) (allocated : Bool) (m : Memory) : Memory :=
  let t := Tag.of size allocated
  m |> setHeader p t |> setFooter p t

@[simp] theorem header_setHeader (p : Nat) (t : Tag) (m : Memory) :
    (setHeader p t m).header p = t := by
  simp [header, setHeader]

section Tags

variable {p size : Nat} {b : Bool} {m : Memory}

/-- **A made block has the tag it was made with as its header.** Its two
tags do not overlap, since it is at least as large as both. -/
theorem header_setTags (hp : Layout.word ≤ p) (h8 : size % 8 = 0) (hlo : Layout.tags ≤ size)
    (hlt : size < Layout.wordRange) : (m.setTags p size b).header p = Tag.of size b := by
  simp only [Layout.word, Layout.tags] at hp hlo
  have hat : (setHeader p (Tag.of size b) m).footerAt p = p + size - 8 := by
    simp [footerAt, blockSize, Tag.size_of h8 hlt, Layout.tags]
  simp only [setTags, setFooter, hat, header, Layout.word]
  rw [word_setWord_of_disjoint _ _ (by omega)]
  exact header_setHeader p _ m

/-- **The footer of a made block is its header's equal**, and lies where
the size puts it. -/
theorem footer_setTags (hp : Layout.word ≤ p) (h8 : size % 8 = 0) (hlo : Layout.tags ≤ size)
    (hlt : size < Layout.wordRange) : (m.setTags p size b).footer p = Tag.of size b := by
  have hheader := header_setTags (m := m) (b := b) hp h8 hlo hlt
  have hat : (m.setTags p size b).footerAt p = (setHeader p (Tag.of size b) m).footerAt p := by
    simp [footerAt, blockSize, hheader]
  rw [footer, hat]
  simp [setTags, setFooter]

end Tags

end Memory

/-- A block: where its payload is, its size with tags, and whether it is
allocated. -/
structure Block where
  payload : Nat
  size : Nat
  isAllocated : Bool
  deriving DecidableEq, Repr

namespace Memory

/-- **The block sequence.** The blocks from payload `p` on, each
directly after the one before, up to a header of size zero or one that
reaches behind `stop`. -/
def blocks (m : Memory) (stop p : Nat) : List Block :=
  if p ≤ stop then
    if m.blockSize p = 0 then []
    else ⟨p, m.blockSize p, m.isAllocated p⟩ :: m.blocks stop (m.after p)
  else []
termination_by stop + 1 - p
decreasing_by simp only [after]; omega

end Memory

end SegFit
