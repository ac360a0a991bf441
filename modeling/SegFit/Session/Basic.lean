import SegFit.Heap.Allocation
import Std.Data.TreeMap.Basic

/-!
# Sessions

A session is a heap in use: its user keeps pointers in numbered slots
and works on the bytes behind them. A `Command` names one thing the user
can do and an `Answer` what comes of it.
-/

namespace SegFit

/-- Numbered variables that hold pointers; those that hold none are
absent. -/
abbrev Slots := Std.TreeMap Nat Nat

namespace Slots

/-- The pointer in a slot. -/
def pointer (s : Slots) (i : Nat) : Option Nat := s[i]?

/-- The slots with one replaced. -/
def put (i : Nat) (p : Option Nat) (s : Slots) : Slots :=
  match p with
  | none => s.erase i
  | some p => s.insert i p

end Slots

/-- A heap and the pointers its user keeps. -/
structure Session (σ : Type) where
  heap : Heap σ
  slots : Slots := {}

namespace Session

variable {σ : Type}

/-- Changes the store behind the heap. -/
def mapStore (f : σ → σ) : Session σ → Session σ
  | ⟨⟨store, memory, directory, auditsItself, journal⟩, slots⟩ =>
    ⟨⟨f store, memory, directory, auditsItself, journal⟩, slots⟩

/-- Empties the journal. -/
def forget : Session σ → Session σ
  | ⟨⟨store, memory, directory, auditsItself, _⟩, slots⟩ =>
    ⟨⟨store, memory, directory, auditsItself, #[]⟩, slots⟩

end Session

/-- Something the user of a heap can do. -/
inductive Command
  | init
  | malloc (slot n : Nat)
  | tryMalloc (slot n : Nat)
  | calloc (slot count size : Nat)
  | tryCalloc (slot count size : Nat)
  | realloc (slot n : Nat)
  | tryRealloc (slot n : Nat)
  | free (slot : Nat)
  /-- Allocates `n`, `n + growth`, … bytes for slots in a row. -/
  | mallocMany (slot count n growth : Nat)
  /-- Frees every `stride`-th slot. -/
  | freeMany (slot count stride : Nat)
  | usableSize (slot : Nat)
  /-- Writes ascending bytes behind a slot. -/
  | write (slot start length : Nat) (v : UInt8)
  /-- Writes equal bytes behind a slot. -/
  | fill (slot start length : Nat) (v : UInt8)
  | read (slot start length : Nat)
  | digest (slot start length : Nat)
  | audit (line : Nat)
  /-- Reads words from an offset in the region on. -/
  | peek (offset n : Nat)
  /-- Overwrites the word at an offset in the region, whatever it is. -/
  | poke (offset : Nat) (v : UInt32)
  /-- Reads the blocks, laid out or not. -/
  | blocks
  /-- Reads the lists, laid out or not. -/
  | lists
  deriving Repr

/-- What comes of a command. -/
inductive Answer
  /-- The heap is ready. -/
  | ready
  /-- There is nothing to say. -/
  | done
  | pointer (p : Option Nat)
  | pointers (ps : List (Option Nat))
  /-- A number of bytes. -/
  | count (n : Nat)
  | bytes (bs : List UInt8)
  | digest (h : UInt32)
  | words (ws : List UInt32)
  /-- There are no bytes behind a null pointer. -/
  | nullSlot
  | report (r : Report)
  | blocks (bs : List Block)
  | lists (ls : List (SizeClass × List Nat))
  /-- The command stopped early. -/
  | stopped (why : Stop)

/-- A step of a session that may stop early. -/
abbrev Turn (σ : Type) := EStateM Stop (Session σ)

namespace Turn

variable {σ α : Type}

/-- Operates on the heap. -/
def operate (x : Operation σ α) : Turn σ α := fun ⟨h, slots⟩ =>
  match x h with
  | .ok a h => .ok a ⟨h, slots⟩
  | .error stop h => .error stop ⟨h, slots⟩

/-- The pointer in a slot. -/
def pointer (i : Nat) : Turn σ (Option Nat) := fun s => .ok (s.slots.pointer i) s

/-- Puts a pointer into a slot. -/
def put (i : Nat) (p : Option Nat) : Turn σ Unit :=
  fun ⟨h, slots⟩ => .ok () ⟨h, slots.put i p⟩

end Turn

end SegFit
