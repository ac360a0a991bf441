import SegFit.Audit.Inspect
import SegFit.FreeLists.Chain
import SegFit.Store.Basic

/-!
# Heaps

A heap is a store, the memory its region lies in, the directory once
there is one, and the journal of what was done. An operation changes the heap and
may stop early, either for a cause of its own or, in a heap that audits
itself, because an audit found something wrong. What was done before it
stopped stays done.
-/

namespace SegFit

/-- A heap over a store. -/
structure Heap (σ : Type) where
  store : σ
  memory : Memory := {}
  /-- The free lists, from the moment the heap is laid out. -/
  directory : Option Directory := none
  /-- Is the heap audited after every operation? -/
  auditsItself : Bool := false
  journal : Array Record := #[]

/-- Why an operation stops early. -/
inductive Stop
  | failed (cause : Failure)
  | inconsistent (report : Report)
  deriving Repr

/-- A change of a heap that may stop early. -/
abbrev Operation (σ : Type) := EStateM Stop (Heap σ)

namespace Heap

variable {σ α : Type}

/-- Has the heap been laid out? -/
def isInitialized (h : Heap σ) : Bool := h.directory.isSome

/-- The bytes a pointer's owner may use; none behind a null pointer. -/
def usableSize (h : Heap σ) (p : Option Nat) : Nat := p.elim 0 h.memory.usableSize

section Views

variable [Store σ]

/-- The region of the heap. -/
def region (h : Heap σ) : Region := Store.region h.store

/-- The size of the heap, by its store's account. -/
def size (h : Heap σ) : Nat := Store.size h.store

/-- The sequence of blocks, read as a directory has it. -/
def blocksOf (h : Heap σ) (d : Directory) : List Block :=
  h.memory.blocks h.region.stop d.firstBlock

/-- The lists that are not empty, read as a directory has them. -/
def listsOf (h : Heap σ) (d : Directory) : List (SizeClass × List Nat) :=
  (SizeClass.all.map fun c => (c, d.chain h.memory h.region.stop c)).filter
    fun (_, ps) => !ps.isEmpty

/-- The sequence of blocks. -/
def blocks (h : Heap σ) : List Block := h.directory.elim [] h.blocksOf

/-- The blocks in the list of a class. -/
def list (h : Heap σ) (c : SizeClass) : List Nat :=
  h.directory.elim [] fun d => d.chain h.memory h.region.stop c

/-- The lists that are not empty. -/
def lists (h : Heap σ) : List (SizeClass × List Nat) := h.directory.elim [] h.listsOf

/-- Everything wrong with the heap. -/
def violations (h : Heap σ) : List Violation :=
  Audit.violations h.memory h.region h.directory

end Views

/-! ## Steps of an operation -/

/-- Writes to the journal. -/
def record (r : Record) : Operation σ Unit :=
  fun h => .ok () { h with journal := h.journal.push r }

/-- Reads the memory. -/
def look (f : Memory → α) : Operation σ α :=
  fun h => .ok (f h.memory) h

/-- Changes the memory. -/
def edit (f : Memory → Memory) : Operation σ Unit :=
  fun h => .ok () { h with memory := f h.memory }

/-- Changes the memory and gives a value. -/
def editWith (f : Memory → α × Memory) : Operation σ α :=
  fun h =>
    let (a, m) := f h.memory
    .ok a { h with memory := m }

/-- Stops for a cause. -/
def fail (e : Failure) : Operation σ α := fun h => .error (.failed e) h

/-- The value, or a stop for want of one. -/
def orFail (e : Failure) : Option α → Operation σ α
  | some a => pure a
  | none => fail e

/-- Does an operation and gives its cause instead of stopping for it. -/
def attempt (x : Operation σ α) : Operation σ (Except Failure α) := fun h =>
  match x h with
  | .ok a h => .ok (.ok a) h
  | .error (.failed e) h => .ok (.error e) h
  | .error stop h => .error stop h

/-- Asks the store for more bytes. -/
def request [Store σ] (n : Nat) : Operation σ Nat := fun h =>
  let growth := Store.grow n h.store
  let h := { h with store := growth.store, journal := h.journal.appendList growth.records }
  match growth.answer with
  | .ok p => .ok p h
  | .error e => .error (.failed e) h

/-- Audits the heap, records what it finds, and reports it. -/
def audit [Store σ] (line : Line) : Operation σ Report := fun h =>
  let found := h.violations
  .ok ⟨line, found⟩ { h with journal := h.journal.appendList (found.map (.found line)) }

/-- Audits the heap if it audits itself, and stops if anything is
wrong. -/
def auditItself [Store σ] : Operation σ Unit := do
  if (← get).auditsItself then
    let report ← audit none
    if !report.isOk then throw (.inconsistent report)

end Heap

end SegFit
