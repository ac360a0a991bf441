import SegFit.Directory
import SegFit.FreeLists.Carve
import SegFit.FreeLists.Merge
import SegFit.Proofs.FreeLists.Search
import Mathlib.Algebra.GroupWithZero.Nat
/-!
# Edits that refuse to truncate

A tag cuts a size to the width of a word, a link that cannot say where a block
is says that there is none, and a difference of sizes wraps. The edits of
free lists are here once more with none of this: where a size is no multiple of
eight or too large for a tag, where a block is out of a link's reach, where a
sum of sizes is too large for a tag, or a difference below zero, they have no
result. There is one lemma for each that says when it does what the
edit itself does.
-/

namespace SegFit

namespace Layout

/-- A difference of sizes, if it is not below zero. -/
def sub? (a b : Nat) : Option Nat := if b ≤ a then some (a - b) else none

/-- A sum of block sizes, if a tag can hold it and every sum on the way. -/
def sum? : List Nat → Option Nat
  | [] => some 0
  | n :: ns => do
    let rest ← sum? ns
    if n + rest < wordRange then some (n + rest) else none

theorem sub?_eq {a b : Nat} (h : b ≤ a) : sub? a b = some (a - b) := if_pos h

theorem sum?_eq {ns : List Nat} (h : ns.sum < wordRange) : sum? ns = some ns.sum := by
  induction ns with
  | nil => rfl
  | cons n ns ih =>
    rw [List.sum_cons] at h
    rw [sum?, ih (by omega), List.sum_cons]
    exact if_pos h

end Layout

namespace Tag

/-- The tag of a block, if a tag can hold its size. -/
def of? (size : Nat) (allocated : Bool) : Option Tag :=
  if size % Layout.alignment = 0 ∧ size < Layout.wordRange then some (of size allocated) else none

theorem of?_eq {size : Nat} (h8 : size % 8 = 0) (hlt : size < Layout.wordRange) (b : Bool) :
    of? size b = some (of size b) :=
  if_pos ⟨h8, hlt⟩

/-- **A tag that is not refused** gives back what it was made of. -/
theorem of_of?_eq_some {size : Nat} {b : Bool} {t : Tag} (h : of? size b = some t) :
    size % 8 = 0 ∧ size < Layout.wordRange ∧ t.size = size ∧ t.isAllocated = b := by
  unfold of? at h
  split at h
  · rename_i hin
    cases h
    exact ⟨hin.1, hin.2, size_of hin.1 hin.2 b, isAllocated_of hin.1 b⟩
  · cases h

example : of? (2 ^ 32) true = none ∧ (of (2 ^ 32) true).size = 0 := ⟨rfl, rfl⟩

end Tag

namespace Memory

/-- Makes a block at `p`, if a tag can hold its size. -/
def setTags? (p size : Nat) (allocated : Bool) (m : Memory) : Option Memory := do
  let t ← Tag.of? size allocated
  return m |> setHeader p t |> setFooter p t

/-- The bytes of the block at `p` that its owner may use, if it has room for
its tags. -/
def usableSize? (m : Memory) (p : Nat) : Option Nat := Layout.sub? (m.blockSize p) Layout.tags

theorem setTags?_eq {size : Nat} (h8 : size % 8 = 0) (hlt : size < Layout.wordRange) (p : Nat)
    (b : Bool) (m : Memory) : m.setTags? p size b = some (m.setTags p size b) := by
  rw [setTags?, Tag.of?_eq h8 hlt]
  rfl

theorem usableSize?_eq {m : Memory} {p : Nat} (h : Layout.tags ≤ m.blockSize p) :
    m.usableSize? p = some (m.usableSize p) := by
  rw [usableSize?, Layout.sub?_eq h, usableSize, Layout.wrappingSub_of_le h]

end Memory

namespace FreeLists

variable (d : FreeLists)

instance (p : Nat) : Decidable (d.Reaches p) := inferInstanceAs (Decidable (_ ∧ _))

/-- A block as a link, if a link can say where it is. -/
def encode? : Option Nat → Option UInt32
  | none => some 0
  | some p => if d.Reaches p then some (UInt32.ofNat (p - d.origin)) else none

/-- Writes a block as a link. -/
def setLink? (a : Nat) (q : Option Nat) (m : Memory) : Option Memory := do
  let link ← d.encode? q
  return m.setWord a link

/-- Makes `q` the first block of a list. -/
def setHead? (c : SizeClass) (q : Option Nat) (m : Memory) : Option Memory :=
  d.setLink? (d.slot c) q m

/-- Makes `q` the block before `p`. -/
def setPrev? (p : Nat) (q : Option Nat) (m : Memory) : Option Memory := d.setLink? p q m

/-- Makes `q` the block after `p`. -/
def setNext? (p : Nat) (q : Option Nat) (m : Memory) : Option Memory :=
  d.setLink? (p + Layout.word) q m

/-- Makes `q` follow `p` in the list of a class, or lead it. -/
def setAfter? (c : SizeClass) (p q : Option Nat) (m : Memory) : Option Memory :=
  match p with
  | none => d.setHead? c q m
  | some p => d.setNext? p q m

/-- Makes `p` precede `q`, if there is such a block. -/
def setBefore? (p : Option Nat) (q : Option Nat) (m : Memory) : Option Memory :=
  match q with
  | none => some m
  | some q => d.setPrev? q p m

/-- Makes `p` the block at a seam for the blocks on both sides of it. -/
def setBetween? (c : SizeClass) (p : Nat) (s : Seam) (m : Memory) : Option Memory :=
  match s.before with
  | none => do d.setHead? c (some p) (← d.setBefore? (some p) s.after m)
  | some q => do d.setBefore? (some p) s.after (← d.setNext? q (some p) m)

/-- Empties every list. -/
def clear? (m : Memory) : Option Memory :=
  SizeClass.all.foldlM (fun m c => d.setHead? c none m) m

/-- Files the block at `p` in the list of its class. -/
def insert? (p : Nat) (m : Memory) : Option Memory := do
  let size := m.blockSize p
  let c := SizeClass.ofSize size
  match d.seam m c size with
  | none => return m
  | some s =>
    let m ← d.setPrev? p s.before m
    let m ← d.setNext? p s.after m
    d.setBetween? c p s m

/-- Takes the block at `p` out of the list of its class. -/
def remove? (p : Nat) (m : Memory) : Option Memory := do
  let c := SizeClass.ofSize (m.blockSize p)
  let before := d.prev m p
  let after := d.next m p
  let m ← d.setAfter? c before after m
  d.setBefore? before after m

/-- Makes one free block at `start` of the filed blocks `parts`. -/
def fuse? (start : Nat) (parts : List Nat) (m : Memory) : Option Memory := do
  let m ← parts.foldlM (fun m p => d.remove? p m) m
  let size ← Layout.sum? (parts.map m.blockSize)
  let m ← m.setTags? start size false
  d.insert? start m

/-- Merges the filed block at `p` with its free neighbours. -/
def merge? (p : Nat) (m : Memory) : Option (Nat × Memory) :=
  let left := m.before p
  let right := m.after p
  match m.isAllocated left, m.isAllocated right with
  | true, true => some (p, m)
  | true, false => do return (p, ← d.fuse? p [p, right] m)
  | false, true => do return (left, ← d.fuse? left [p, left] m)
  | false, false => do return (left, ← d.fuse? left [p, left, right] m)

/-- Serves `need` bytes from the filed free block at `p`. -/
def carve? (p need : Nat) (m : Memory) : Option Memory := do
  let size := m.blockSize p
  let left ← Layout.sub? size need
  let m ← d.remove? p m
  if left < Layout.minBlock then m.setTags? p size true
  else
    let m ← m.setTags? p need true
    let rest := m.after p
    let m ← m.setTags? rest left false
    d.insert? rest m

variable {d} {m : Memory} {c : SizeClass} {x q : Option Nat} {p : Nat}
  {ls : SizeClass → List Nat}

/-- **A link that is not refused** leads back to the block it was made of, and
is not the link to none. -/
theorem resolve_of_encode?_eq_some {w : UInt32} (h : d.encode? (some p) = some w) :
    d.Reaches p ∧ w ≠ 0 ∧ d.resolve w = some p := by
  rw [encode?] at h
  split at h
  · rename_i hp
    have hlink : d.encode (some p) = w := (if_pos hp).trans (Option.some.inj h)
    have hresolve : d.resolve w = some p := by
      rw [← hlink]
      exact d.resolve_encode hp.1 hp.2
    refine ⟨hp, ?_, hresolve⟩
    rintro rfl
    cases hresolve
  · cases h

theorem encode?_eq (h : ∀ p ∈ x, d.Reaches p) : d.encode? x = some (d.encode x) := by
  cases x with
  | none => rfl
  | some p =>
    have hp : d.origin < p ∧ p - d.origin < Layout.wordRange := h p rfl
    rw [encode?, encode, if_pos (h p rfl), if_pos hp]

theorem setLink?_eq (h : ∀ p ∈ x, d.Reaches p) (a : Nat) :
    d.setLink? a x m = some (m.setWord a (d.encode x)) := by
  rw [setLink?, encode?_eq h]
  rfl

theorem setAfter?_eq (h : ∀ p ∈ q, d.Reaches p) :
    d.setAfter? c x q m = some (d.setAfter c x q m) := by
  cases x <;> exact setLink?_eq h _

theorem setBefore?_eq (h : ∀ p ∈ x, d.Reaches p) :
    d.setBefore? x q m = some (d.setBefore x q m) := by
  cases q with
  | none => rfl
  | some q => exact setLink?_eq h q

theorem setBetween?_eq {s : Seam} (hp : d.Reaches p) :
    d.setBetween? c p s m = some (d.setBetween c p s m) := by
  have hself : ∀ q ∈ some p, d.Reaches q := fun q hq => by cases hq; exact hp
  obtain ⟨before, after⟩ := s
  cases before with
  | none =>
    change (d.setBefore? (some p) after m).bind (d.setHead? c (some p)) = _
    rw [setBefore?_eq hself]
    exact setLink?_eq hself _
  | some q =>
    change (d.setLink? (q + Layout.word) (some p) m).bind (d.setBefore? (some p) after) = _
    rw [setLink?_eq hself]
    exact setBefore?_eq hself

/-- **Nothing is refused at a seam** whose blocks are within reach. -/
theorem insert?_of_seam {s : Seam}
    (hseam : d.seam m (SizeClass.ofSize (m.blockSize p)) (m.blockSize p) = some s)
    (hp : d.Reaches p) (hbefore : ∀ q ∈ s.before, d.Reaches q)
    (hafter : ∀ q ∈ s.after, d.Reaches q) : d.insert? p m = some (d.insert p m) := by
  simp only [insert?, insert, hseam, setPrev?, setNext?, setLink?_eq hbefore, setLink?_eq hafter,
    setBetween?_eq hp, bind, Option.bind_some]
  rfl

theorem remove?_of_links (hprev : ∀ q ∈ d.prev m p, d.Reaches q)
    (hnext : ∀ q ∈ d.next m p, d.Reaches q) : d.remove? p m = some (d.remove p m) := by
  simp only [remove?, setAfter?_eq hnext, setBefore?_eq hprev, bind, Option.bind_some]
  rfl

namespace Spells

variable (h : d.Spells m ls) (hr : ∀ c, ∀ q ∈ ls c, d.Reaches q)

include h hr

/-- **Filing a block** refuses nothing where every listed block is within
reach, and the block itself. -/
theorem insert?_eq (hp : d.Reaches p) : d.insert? p m = some (d.insert p m) := by
  have hseam := seam_of_threaded (m.blockSize p)
    (h.threaded (SizeClass.ofSize (m.blockSize p))) (h.nodup _) (hr _)
  have hl := (List.takeWhile_append_dropWhile (p := (m.blockSize · < m.blockSize p))
    (l := ls (SizeClass.ofSize (m.blockSize p)))).symm
  exact insert?_of_seam hseam hp (fun q hq => hr _ q (mem_of_lastFrom hl q hq))
    fun q hq => hr _ q (mem_of_head? hl q hq)

/-- So does taking a block out. -/
theorem remove?_eq (hp : p ∈ ls c) : d.remove? p m = some (d.remove p m) := by
  obtain ⟨l₁, l₂, hl⟩ := List.append_of_mem hp
  have hthread := h.threaded c
  rw [hl] at hthread
  have hl' : ls c = l₁ ++ [p] ++ l₂ := by rw [hl, List.append_assoc]; rfl
  refine remove?_of_links ?_ ?_
  · rw [hthread.prev_eq]
    exact fun q hq => hr c q (mem_of_lastFrom hl q hq)
  · rw [hthread.next_eq]
    exact fun q hq => hr c q (mem_of_head? hl' q hq)

end Spells

theorem clear?_eq (d : FreeLists) (m : Memory) : d.clear? m = some (d.clear m) :=
  List.foldlM_pure

end FreeLists

/-! ## Laying out -/

namespace Directory

variable (d : Directory)

/-- Writes the layout of a heap without blocks. -/
def layOut? (m : Memory) : Option Memory := do
  let prologue ← Tag.of? Layout.tags true
  m |>.setWord (d.heads + Layout.pad) 0
    |>.setWord (d.heads + Layout.prologueHeader) prologue.raw
    |>.setWord d.origin prologue.raw
    |>.setWord (d.heads + Layout.epilogue) Tag.epilogue.raw
    |> d.clear?

/-- Makes one free block of the `grown` bytes new at the end of a region. -/
def append? (p grown : Nat) (m : Memory) : Option Memory := do
  let m ← m.setTags? p grown false
  let rest := m.after p
  m |>.setHeader rest .epilogue |> d.insert? p

/-- **Laying out** refuses nothing anywhere. -/
theorem layOut?_eq (m : Memory) : d.layOut? m = some (d.layOut m) := by
  have hprologue : Tag.of? Layout.tags true = some Tag.prologue := Tag.of?_eq rfl (by decide) true
  rw [layOut?, hprologue, Option.bind_eq_bind, Option.bind_some, FreeLists.clear?_eq, layOut]

end Directory

end SegFit
