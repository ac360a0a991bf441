import SegFit.Heap.Basic
import SegFit.Proofs.Audit.Blocks
import SegFit.Proofs.Audit.Lists
import SegFit.Proofs.Client.Basic
import Mathlib.Data.List.Perm.Subperm
import Mathlib.Data.List.Range
/-!
# What an audit reads

An audit follows sizes and links out of a memory that may hold anything.
Here it is done through a probe that has no result for a word out of the
region, or for a difference below zero, and that keeps every address it
is asked for. The report is the same (`Heap.violations_within_region`),
so whatever the memory, an audit does neither; and the addresses it has
asked for are no more than 41 for each byte of the region.

Blocks are passed in steps of eight bytes, as the region is long, so a
header that begins in the region also ends there. A list may go through
any address, but comes to none of the region twice.
-/

namespace SegFit

/-- The probe, with the addresses of the words it is asked for, the latest
first. -/
def Probe.traced {f : Type → Type} [Monad f] (probe : Probe f) :
    Probe (StateT (List Nat) f) where
  word a := fun reads => do return (← probe.word a, a :: reads)
  sub a b := fun reads => do return (← probe.sub a b, reads)

namespace Audit

variable {α β : Type} {m : Memory} {r : Region} {d : Directory} {c : SizeClass}
  {x : StateT (List Nat) Option α} {k : α → StateT (List Nat) Option β} {v : α} {w : β}
  {n n' p k' : Nat} {s : Survey} {t : Tally} {afterFree : Bool} {free : Array Nat}
  {seen : List Nat} {y : Option Nat}

/-- **A procedure that stays within a region**: it comes to a value after
at most `n` reads, each of a word that is wholly inside. -/
def Within (r : Region) (n : Nat) (x : StateT (List Nat) Option α) (v : α) : Prop :=
  ∃ reads : List Nat, (∀ log, x.run log = some (v, reads ++ log)) ∧
    (∀ a ∈ reads, r.start ≤ a ∧ a + 4 ≤ r.stop) ∧ reads.length ≤ n

theorem within_pure (n : Nat) (v : α) : Within r n (pure v) v :=
  ⟨[], fun _ => rfl, fun _ ha => absurd ha List.not_mem_nil, Nat.zero_le n⟩

theorem Within.mono (h : Within r n x v) (hn : n ≤ n') : Within r n' x v := by
  obtain ⟨reads, hrun, hin, hlength⟩ := h
  exact ⟨reads, hrun, hin, hlength.trans hn⟩

/-- What comes after has the reads that are left. -/
theorem Within.bind (h : Within r n x v) (hn : n ≤ n') (hk : Within r (n' - n) (k v) w) :
    Within r n' (x >>= k) w := by
  obtain ⟨reads, hrun, hin, hlength⟩ := h
  obtain ⟨reads', hrun', hin', hlength'⟩ := hk
  refine ⟨reads' ++ reads, fun log => ?_, ?_, ?_⟩
  · rw [StateT.run_bind, hrun, List.append_assoc]
    exact hrun' (reads ++ log)
  · exact List.forall_mem_append.2 ⟨hin', hin⟩
  · rw [List.length_append]
    omega

/-- The probe that keeps to the region. -/
abbrev probe (m : Memory) (r : Region) : Probe (StateT (List Nat) Option) :=
  (Probe.guarded r m).traced

theorem within_word {a : Nat} (hlow : r.start ≤ a) (hhigh : a + 4 ≤ r.stop) :
    Within r 1 ((probe m r).word a) (m.word a) := by
  refine ⟨[a], fun log => ?_, List.forall_mem_singleton.2 ⟨hlow, hhigh⟩, Nat.le_refl 1⟩
  have hguard : (Probe.guarded r m).word a = some (m.word a) := if_pos ⟨hlow, hhigh⟩
  change ((Probe.guarded r m).word a >>= fun w => some (w, a :: log)) = _
  rw [hguard]
  rfl

theorem within_sub {a b : Nat} (h : b ≤ a) : Within r 0 ((probe m r).sub a b) (a - b) := by
  refine ⟨[], fun log => ?_, fun _ ha => absurd ha List.not_mem_nil, Nat.le_refl 0⟩
  have hguard : (Probe.guarded r m).sub a b = some (a - b) := if_pos h
  change ((Probe.guarded r m).sub a b >>= fun w => some (w, log)) = _
  rw [hguard]
  rfl

theorem within_ite {b : Prop} [Decidable b] {x' : StateT (List Nat) Option α} {v' : α}
    (ht : b → Within r n x v) (he : ¬ b → Within r n x' v') :
    Within r n (if b then x else x') (if b then v else v') := by
  by_cases hb : b
  · rw [if_pos hb, if_pos hb]
    exact ht hb
  · rw [if_neg hb, if_neg hb]
    exact he hb

/-! ## Blocks -/

/-- The walk through the probe. -/
theorem walkBlocks_probe :
    walkBlocks (probe m r) r p afterFree s =
      if r.Holds (p - 4) then (probe m r).word (p - 4) >>= fun header =>
        if Tag.mk header = .epilogue then pure (s.note (p != r.stop) (.badEpilogue p))
        else if Tag.size ⟨header⟩ = 0 then pure (s.note true (.zeroSize p))
        else (probe m r).sub (Tag.size ⟨header⟩) 5 >>= fun reach =>
          if r.Holds (p + reach) then
            (probe m r).word (p + Tag.size ⟨header⟩ - 8) >>= fun footer =>
              walkBlocks (probe m r) r (p + Tag.size ⟨header⟩) (!Tag.isAllocated ⟨header⟩)
                ((s.note (!Layout.isAligned p) (.misaligned p)).enter p ⟨header⟩ ⟨footer⟩ afterFree)
          else pure ((s.note (!Layout.isAligned p) (.misaligned p)).note true (.outOfHeap p))
      else pure (s.note true (.outOfHeap p)) := by
  rw [walkBlocks]
  rfl

/-- **The walk over the blocks stays within the region**, from any payload
as far from its end as sizes can be. It reads two words of each block and
a last header, at most. -/
theorem within_walkBlocks (hlow : r.start + 4 ≤ p) (h8 : p % 8 = r.stop % 8) :
    Within r ((r.stop + 8 - p) / 4) (walkBlocks (probe m r) r p afterFree s)
      (walkBlocks (.plain m) r p afterFree s) := by
  -- on the bytes left before the end of the region
  induction hn : r.stop + 4 - p using Nat.strong_induction_on generalizing p afterFree s with
  | _ n ih =>
  rw [walkBlocks_plain, walkBlocks_probe]
  refine within_ite (fun hin => ?_) fun _ => within_pure _ _
  have hhigh : p < r.stop + 4 := by
    have := hin.2
    omega
  refine (within_word (by omega) (by omega)).bind (by omega) ?_
  refine within_ite (fun _ => within_pure _ _) fun _ =>
    within_ite (fun _ => within_pure _ _) fun hzero => ?_
  have hzero : m.blockSize p ≠ 0 := hzero
  have hsize : m.blockSize p % 8 = 0 := (m.header p).eight_dvd_size
  have hafter : m.after p = p + m.blockSize p := rfl
  rw [Layout.wrappingSub_of_le (by simp only [Layout.word]; omega)]
  have hreach : Within r 0 ((probe m r).sub (m.blockSize p) 5) (m.blockSize p - 5) :=
    within_sub (by omega)
  refine hreach.bind (Nat.zero_le _) (within_ite (fun hfit => ?_) fun _ => within_pure _ _)
  have hfoot : m.after p < r.stop + 5 := by
    have := hfit.2
    omega
  have hfooter : Within r 1 ((probe m r).word (p + m.blockSize p - 8))
      (m.word (p + m.blockSize p - 8)) := within_word (by omega) (by omega)
  have hrest : ∀ b t, Within r ((r.stop + 8 - m.after p) / 4)
      (walkBlocks (probe m r) r (m.after p) b t) (walkBlocks (.plain m) r (m.after p) b t) :=
    fun b t => ih _ (by omega) (by omega) (by omega) rfl
  exact hfooter.bind (by omega) ((hrest _ _).mono (by omega))

/-- **So does the survey of the blocks.** -/
theorem within_surveyBlocks (hbase : d.heads = r.start) (hlong : 56 ≤ r.extent)
    (h8 : r.extent % 8 = 0) :
    Within r (r.extent / 4) (surveyBlocks (probe m r) r d) (surveyBlocks (.plain m) r d) := by
  have hfirst : d.firstBlock = r.start + 56 := by rw [d.firstBlock_eq, hbase]
  have horigin : d.origin = r.start + 48 := by rw [d.origin_eq, hbase, Layout.origin]
  have hstop : r.stop = r.start + r.extent := rfl
  have hheader : Within r 1 ((probe m r).word (d.origin - 4)) (m.word (d.origin - 4)) :=
    within_word (by omega) (by omega)
  rw [surveyBlocks_plain, surveyBlocks]
  refine hheader.bind (by omega) ?_
  refine within_ite (fun hheader => ?_) fun _ => within_pure _ _
  have hsize : Tag.size ⟨m.word (d.origin - 4)⟩ = 8 := congrArg Tag.size hheader
  have hat : m.footerAt d.origin = d.origin := by
    unfold Memory.footerAt
    exact congrArg (d.origin + · - 8) hsize
  rw [Memory.footer, hat, Directory.firstBlock]
  simp only [hsize, Layout.tags, Nat.add_sub_cancel]
  refine (within_word (by omega) (by omega)).bind (by omega) ?_
  refine within_ite (fun _ => ?_) fun _ => within_pure _ _
  exact (within_walkBlocks (by omega) (by omega)).mono (by omega)

/-! ## Lists -/

/-- The walk through the probe. -/
theorem walkList_probe (p : Nat) :
    walkList (probe m r) r d free c seen (sized m y) (some p) t =
      if p ∈ seen then pure (t.note true (.listCycle c))
      else if r.Holds (p - 8) ∧ r.Holds (p + 7) then
        (probe m r).word (p - 4) >>= fun header =>
          if Tag.isAllocated ⟨header⟩ then pure (t.note true (.allocatedInList p c))
          else (probe m r).word (p - 8) >>= fun before => (probe m r).word p >>= fun link =>
            (probe m r).word (p + 4) >>= fun next =>
              walkList (probe m r) r d free c (p :: seen) (some (p, Tag.size ⟨header⟩))
                (d.resolve next)
                (t.enter c p (Tag.size ⟨header⟩)
                  ((p - Tag.size ⟨before⟩ != p && free.contains (p - Tag.size ⟨before⟩)) ||
                    (p + Tag.size ⟨header⟩ != p && free.contains (p + Tag.size ⟨header⟩)))
                  (link == d.encode y) (y.map m.blockSize))
      else pure (t.note true (.outOfHeap p)) := by
  rw [walkList]
  cases y <;> rfl

/-- There are only so many addresses in a region. -/
theorem length_le_extent (hnd : seen.Nodup) (hseen : ∀ q ∈ seen, r.Holds q) :
    seen.length ≤ r.extent := by
  have hsub : seen ⊆ List.range' r.start r.extent := fun q hq =>
    List.mem_range'_1.2 (hseen q hq)
  have hle := (List.subperm_of_subset hnd hsub).length_le
  rwa [List.length_range'] at hle

/-- **The walk over a list stays within the region**, wherever links lead.
It reads four words of each block, and no block twice. -/
theorem within_walkList (hnd : seen.Nodup) (hseen : ∀ q ∈ seen, r.Holds q) (next : Option Nat) :
    Within r (4 * (r.extent - seen.length))
      (walkList (probe m r) r d free c seen (sized m y) next t)
      (walkList (.plain m) r d free c seen (sized m y) next t) := by
  -- on the addresses of the region not seen yet
  induction hn : unseen r.stop seen using Nat.strong_induction_on generalizing seen y next t with
  | _ n ih =>
  cases next with
  | none =>
    rw [walkList_none, walkList]
    exact within_pure _ _
  | some p =>
    rw [walkList_some, walkList_probe]
    refine within_ite (fun _ => within_pure _ _) fun hnew =>
      within_ite (fun hin => ?_) fun _ => within_pure _ _
    have hlow := hin.1.1
    have hhigh := hin.2.2
    have hnd' : (p :: seen).Nodup := List.nodup_cons.2 ⟨hnew, hnd⟩
    have hseen' : ∀ q ∈ p :: seen, r.Holds q :=
      List.forall_mem_cons.2 ⟨⟨by omega, by omega⟩, hseen⟩
    have hroom := length_le_extent hnd' hseen'
    rw [List.length_cons] at hroom
    refine (within_word (by omega) (by omega)).bind (by omega) ?_
    refine within_ite (fun _ => within_pure _ _) fun _ => ?_
    refine (within_word (by omega) (by omega)).bind (by omega) ?_
    refine (within_word (by omega) (by omega)).bind (by omega) ?_
    refine (within_word (by omega) (by omega)).bind (by omega) ?_
    have hleft : unseen r.stop (p :: seen) < n := hn ▸ unseen_cons_lt (by omega) hnew
    have hrest := fun t => ih _ hleft (y := some p) (t := t) hnd' hseen' (d.next m p) rfl
    rw [List.length_cons] at hrest
    exact (hrest _).mono (by omega)

/-- A fold of procedures has the reads of each. -/
theorem within_foldlM {step : Tally → SizeClass → StateT (List Nat) Option Tally}
    {step' : Tally → SizeClass → Tally} (h : ∀ t c, Within r n (step t c) (step' t c))
    (cs : List SizeClass) (t : Tally) :
    Within r (n * cs.length) (cs.foldlM step t) (cs.foldl step' t) := by
  induction cs generalizing t with
  | nil => exact within_pure _ _
  | cons c cs ih =>
    rw [List.foldlM_cons, List.foldl_cons, List.length_cons, Nat.mul_succ]
    refine (h t c).bind (by omega) ((ih _).mono (by omega))

/-- **The survey of the lists stays within the region.** -/
theorem within_surveyLists (hbase : d.heads = r.start) (hlong : 56 ≤ r.extent) :
    Within r (40 * r.extent + 10) (surveyLists (probe m r) r d free)
      (surveyLists (.plain m) r d free) := by
  have hstop : r.stop = r.start + r.extent := rfl
  have hclass : ∀ t c, Within r (4 * r.extent + 1)
      ((probe m r).word (d.slot c) >>= fun head =>
        walkList (probe m r) r d free c [] none (d.resolve head) t)
      (surveyList d m r free t c) := by
    intro t c
    have hslot := d.slot_bounds c
    refine (within_word (by omega) (by omega)).bind (by omega) ?_
    exact within_walkList (y := none) List.nodup_nil (fun q hq => absurd hq List.not_mem_nil)
      (d.follower m c none)
  rw [surveyLists_plain]
  refine (within_foldlM hclass SizeClass.all {}).mono ?_
  have hten : SizeClass.all.length = 10 := rfl
  rw [hten]
  omega

/-- **A whole audit stays within the region.** -/
theorem within_inspect (hbase : d.heads = r.start) (hlong : 56 ≤ r.extent)
    (h8 : r.extent % 8 = 0) :
    Within r (41 * r.extent) (inspect (probe m r) r d) (violations m r (some d)) := by
  refine (within_surveyBlocks hbase hlong h8).bind (by omega) ?_
  refine (within_surveyLists hbase hlong).bind (by omega) ?_
  exact within_pure _ _

end Audit

namespace Heap

variable {σ : Type} [Store σ] {h : Heap σ} {d : Directory}

/-- **An audit is safe on any memory.** It comes to its report and reads
only words that are wholly in the region, at most 41 for each byte of it;
and it takes no size from a smaller one. -/
theorem violations_within_region (hd : h.directory = some d) (hbase : d.heads = h.region.start)
    {k : Nat} (hextent : h.region.extent = 56 + 8 * k) :
    ∃ reads : List Nat,
      (Audit.inspect (Probe.guarded h.region h.memory).traced h.region d).run [] =
          some (h.violations, reads) ∧
        (∀ a ∈ reads, h.region.start ≤ a ∧ a + 4 ≤ h.region.stop) ∧
        reads.length ≤ 41 * h.region.extent := by
  obtain ⟨reads, hrun, hin, hlength⟩ :=
    Audit.within_inspect (m := h.memory) hbase (by omega) (by omega)
  refine ⟨reads, ?_, hin, hlength⟩
  rw [violations, hd, hrun [], List.append_nil]

/-- A heap with a header that leads out of its region, and with a list
whose first block is at an odd address and its own successor. -/
def hostile : Heap Arena :=
  let h := Client.sample.heap
  { h with
    memory := h.memory |>.setHeader 104 ⟨0xfffffff9⟩ |>.setWord 16 13 |>.setWord 81 13 }

theorem hostile_within_region :
    hostile.directory = some (.ofBase 16) ∧ hostile.region = ⟨16, 56 + 8 * 512⟩ ∧
      hostile.violations =
        [.outOfHeap 104, .wrongClass 77 0 ⟨0⟩, .listCycle ⟨0⟩, .unlisted 1 3] ∧
      ∃ reads : List Nat,
        (Audit.inspect (Probe.guarded hostile.region hostile.memory).traced hostile.region
          (.ofBase 16)).run [] = some (hostile.violations, reads) ∧
        (∀ a ∈ reads, hostile.region.start ≤ a ∧ a + 4 ≤ hostile.region.stop) ∧
        reads.length ≤ 41 * hostile.region.extent := by
  have hd : hostile.directory = some (.ofBase 16) := by decide +kernel
  have hregion : hostile.region = ⟨16, 56 + 8 * 512⟩ := by decide +kernel
  exact ⟨hd, hregion, by decide +kernel,
    violations_within_region hd (congrArg Region.start hregion).symm
      (congrArg Region.extent hregion)⟩

end Heap

end SegFit
