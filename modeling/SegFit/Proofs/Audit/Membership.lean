import SegFit.Proofs.Audit.Consistent
import SegFit.Proofs.Client.Basic
import Mathlib.Data.List.Perm.Subperm
/-!
# What a clean audit says of the lists

An audit compares how many blocks are free with how many are listed; it
does not look whether they are the same. So bytes of a payload that look
like a free block can be listed in the place of one (`Heap.forged`). That
is the only way for the lists of a heap that passes an audit to be wrong:
if they lead to nothing but blocks, they lead to all the free ones
(`Heap.accounted_of_violations_eq_nil`).
-/

namespace SegFit

/-- **The blocks that a list leads to**, from its head along next links. -/
inductive Directory.Listed (d : Directory) (m : Memory) (c : SizeClass) : Nat → Prop
  | head {p : Nat} (hp : d.head m c = some p) : Listed d m c p
  | next {p q : Nat} (hp : Listed d m c p) (hq : d.next m p = some q) : Listed d m c q

namespace Directory

variable {d : Directory} {m : Memory} {c : SizeClass} {p : Nat} {l l₁ l₂ : List Nat}
  {x : Option Nat}

theorem Listed.of_threaded (h : d.Threaded m c x l)
    (hx : ∀ q, d.follower m c x = some q → d.Listed m c q) : ∀ q ∈ l, d.Listed m c q := by
  induction l generalizing x with
  | nil => exact fun q hq => absurd hq List.not_mem_nil
  | cons p l ih =>
    have hp := hx p h.1
    refine List.forall_mem_cons.2 ⟨hp, ih h.2.2 ?_⟩
    intro q hq
    exact .next hp hq

/-- **A threaded list leads to its blocks**, and to nothing else. -/
theorem listed_iff_mem (h : d.Threaded m c none l) : d.Listed m c p ↔ p ∈ l := by
  constructor
  · intro hp
    induction hp with
    | head hp => exact List.mem_of_head? (h.follower_eq.symm.trans hp)
    | next _ hq ih =>
      obtain ⟨l₁, l₂, rfl⟩ := List.append_of_mem ih
      have hhead := h.next_eq.symm.trans hq
      exact List.mem_append_right _ (List.mem_cons_of_mem _ (List.mem_of_head? hhead))
  · exact Listed.of_threaded h (fun q hq => .head hq) p

end Directory

namespace Audit

variable {m : Memory} {r : Region} {d : Directory} {c c' : SizeClass} {p : Nat}

namespace Consistent

theorem listed_iff (h : Consistent m r d) : d.Listed m c p ↔ p ∈ d.chain m r.stop c :=
  Directory.listed_iff_mem (h.sound c).followed.threaded

theorem entry (h : Consistent m r d) (hp : d.Listed m c p) :
    Entry m r (freeOf (m.blocks r.stop d.firstBlock)).toArray c p :=
  (h.sound c).followed.entry p (h.listed_iff.1 hp)

/-- Nothing is in two lists, since it has one size. -/
theorem eq_of_listed (h : Consistent m r d) (hp : d.Listed m c p) (hp' : d.Listed m c' p) :
    c = c' :=
  (SizeClass.ofSize_of_contains (h.entry hp).fits).symm.trans
    (SizeClass.ofSize_of_contains (h.entry hp').fits)

/-- All blocks of all lists. -/
def listed (m : Memory) (r : Region) (d : Directory) : List Nat :=
  SizeClass.all.flatMap (d.chain m r.stop)

theorem mem_listed (h : Consistent m r d) : p ∈ listed m r d ↔ ∃ c, d.Listed m c p := by
  simp only [listed, List.mem_flatMap, h.listed_iff]
  exact ⟨fun ⟨c, _, hp⟩ => ⟨c, hp⟩, fun ⟨c, hp⟩ => ⟨c, SizeClass.mem_all c, hp⟩⟩

theorem nodup_listed (h : Consistent m r d) : (listed m r d).Nodup := by
  refine SizeClass.nodup_flatMap_all (fun c => (h.sound c).nodup) ?_
  intro c c' p hp hp'
  exact h.eq_of_listed (h.listed_iff.2 hp) (h.listed_iff.2 hp')

/-- **Lists that lead to nothing but blocks lead to all the free ones.**
They lead to free ones only, each once, and to as many as there are. -/
theorem listed_perm (h : Consistent m r d)
    (hblocks : ∀ c p, d.Listed m c p → ∃ b ∈ m.blocks r.stop d.firstBlock, b.payload = p) :
    (listed m r d).Perm (freeOf (m.blocks r.stop d.firstBlock)) := by
  have hsub : listed m r d ⊆ freeOf (m.blocks r.stop d.firstBlock) := by
    intro p hp
    obtain ⟨c, hp⟩ := h.mem_listed.1 hp
    obtain ⟨b, hb, rfl⟩ := hblocks c p hp
    exact mem_freeOf.2 ⟨b, hb, rfl, (h.walked.read hb).trans (h.entry hp).unused⟩
  refine (List.subperm_of_subset h.nodup_listed hsub).perm_of_length_le ?_
  rw [h.counted, listed, List.length_flatMap]

end Consistent

end Audit

namespace Heap

variable {σ : Type} [Store σ] {h : Heap σ} {d : Directory}

/-- **The lists lead to the free blocks**, and to nothing else. -/
def ListsFreeBlocks (h : Heap σ) (d : Directory) : Prop :=
  ∀ p, (∃ c, d.Listed h.memory c p) ↔ ∃ b ∈ h.blocks, b.payload = p ∧ b.isAllocated = false

/-- **What a clean audit says of the lists.** -/
structure Accounted (h : Heap σ) (d : Directory) : Prop where
  /-- The blocks begin behind the prologue and end at the epilogue. -/
  walked : Audit.Walked h.memory h.region d.firstBlock false h.blocks
  listed_iff : ∀ c p, d.Listed h.memory c p ↔ p ∈ h.list c
  nodup : ∀ c, (h.list c).Nodup
  disjoint : ∀ c c' p, d.Listed h.memory c p → d.Listed h.memory c' p → c = c'
  unused : ∀ c p, d.Listed h.memory c p → h.memory.isAllocated p = false
  counted : (h.blocks.filter fun b => !b.isAllocated).length =
    (SizeClass.all.map fun c => (h.list c).length).sum
  /-- The lists are right unless they lead to what is no block. -/
  listsFreeBlocks_iff : h.ListsFreeBlocks d ↔
    ∀ c p, d.Listed h.memory c p → ∃ b ∈ h.blocks, b.payload = p

theorem accounted_of_violations_eq_nil (hd : h.directory = some d) (hok : h.violations = []) :
    h.Accounted d := by
  unfold violations at hok
  rw [hd, Audit.violations_eq_nil_iff] at hok
  have hblocks : h.blocks = h.memory.blocks h.region.stop d.firstBlock := by
    unfold blocks
    rw [hd]
    rfl
  have hlist : ∀ c, h.list c = d.chain h.memory h.region.stop c := by
    intro c
    unfold list
    rw [hd]
    rfl
  refine ⟨?_, ?_, ?_, fun c c' p => hok.eq_of_listed, ?_, ?_, ?_⟩
  · rw [hblocks]
    exact hok.walked
  · intro c p
    rw [hlist]
    exact hok.listed_iff
  · intro c
    rw [hlist]
    exact (hok.sound c).nodup
  · intro c p hp
    exact (hok.entry hp).unused
  · simp only [hblocks, hlist, ← hok.counted, Audit.freeOf, List.length_map]
  · constructor
    · intro hfree c p hp
      obtain ⟨b, hb, heq, -⟩ := (hfree p).1 ⟨c, hp⟩
      exact ⟨b, hb, heq⟩
    · intro hin p
      rw [hblocks] at hin ⊢
      rw [← hok.mem_listed, (hok.listed_perm hin).mem_iff, Audit.mem_freeOf]

/-- The lists of the sample's heap, which passes its audit. -/
theorem accounted_sample :
    Client.sample.heap.directory = some (.ofBase 16) ∧ Client.sample.heap.violations = [] ∧
      Client.sample.heap.Accounted (.ofBase 16) := by
  have hd : Client.sample.heap.directory = some (.ofBase 16) := by decide +kernel
  have hok : Client.sample.heap.violations = [] := by decide +kernel
  exact ⟨hd, hok, accounted_of_violations_eq_nil hd hok⟩

/-- A heap whose free block is in no list. In its place two words of a
payload are made a footer and a header, and the bytes behind are listed. -/
def forged : Heap Arena :=
  let h := ((Client.ofArena Client.smallArena).step (.malloc 24)).heap
  let d := Directory.ofBase 16
  { h with
    memory := h.memory |>.setWord 72 (Tag.of 0 false).raw |>.setHeader 80 (.of 16 false)
      |> d.setPrev 80 none |> d.setNext 80 none
      |> d.setHead (.ofSize 16) (some 80) |> d.setHead (.ofSize 4064) none }

/-- **A clean audit of wrong lists.** The free block at 104 is in none of
them, and 80, which is in one, is no block. -/
theorem forged_passes :
    forged.directory = some (.ofBase 16) ∧ forged.violations = [] ∧
      forged.blocks = [⟨72, 32, true⟩, ⟨104, 4064, false⟩] ∧
      (∀ c, ¬ (Directory.ofBase 16).Listed forged.memory c 104) ∧
      (Directory.ofBase 16).Listed forged.memory (.ofSize 16) 80 ∧
      ¬ forged.ListsFreeBlocks (.ofBase 16) := by
  have hok : forged.violations = [] := by decide +kernel
  have hblocks : forged.blocks = [⟨72, 32, true⟩, ⟨104, 4064, false⟩] := by decide +kernel
  have hlisted : (Directory.ofBase 16).Listed forged.memory (.ofSize 16) 80 :=
    .head (by decide +kernel)
  have hconsistent : Audit.Consistent forged.memory forged.region (.ofBase 16) := by
    have hd : forged.directory = some (.ofBase 16) := by decide +kernel
    rwa [violations, hd, Audit.violations_eq_nil_iff] at hok
  refine ⟨by decide +kernel, hok, hblocks, ?_, hlisted, ?_⟩
  · intro c hc
    have hnone : ∀ c ∈ SizeClass.all,
        104 ∉ (Directory.ofBase 16).chain forged.memory forged.region.stop c := by decide +kernel
    exact hnone c (SizeClass.mem_all c) (hconsistent.listed_iff.1 hc)
  · intro hfree
    obtain ⟨b, hb, heq, -⟩ := (hfree 80).1 ⟨_, hlisted⟩
    rw [hblocks] at hb
    rcases List.mem_pair.1 hb with rfl | rfl <;> cases heq

end Heap

end SegFit
