import SegFit.Directory
import SegFit.FreeLists.Carve
import SegFit.FreeLists.Merge
import SegFit.Proofs.Audit.Lists
import SegFit.Proofs.FreeLists.Search
import Mathlib.Computability.StateTransition
/-!
# Walks along lists

A list is walked for the first place in front of a block of at least some
size. Links are in memory and can lead anywhere, so a walk need not end. Here
it has no bound on its length, and no value if it does not end
(`FreeLists.walkFrom`); a search that has a bound finds the same, if the bound
is large enough. The edits of free lists are here once more with such walks:
an edit keeps a log of the walks it makes (`Walked`), and has no value if one
of them does not end. `Walked.Gives` says that it has one, that each of its
walks met blocks of its list one after another and none of them twice, and how
many steps there were at most. An audit follows lists too, and leaves one where
a block comes up again, so its walks end anyhow.
-/

namespace SegFit

/-- **A walk along a list**: the blocks whose sizes it read, in that order. -/
structure Walk where
  lists : FreeLists
  memory : Memory
  list : SizeClass
  visited : List Nat

namespace Walk

/-- **A walk that ends as it should**: its list ends, the blocks visited are the
first of it, and none is visited twice. -/
def Ends (w : Walk) : Prop :=
  ∃ l, w.lists.Threaded w.memory w.list none l ∧ w.visited <+: l ∧ w.visited.Nodup

/-- The steps of a walk: to each block it visits, and from the last. -/
def paces (w : Walk) : Nat := w.visited.length + 1

/-- Visiting the first blocks of a threaded list. -/
theorem ends_of_prefix {d : FreeLists} {m : Memory} {c : SizeClass} {l visited : List Nat}
    (h : d.Threaded m c none l) (hvisited : visited <+: l) : Ends ⟨d, m, c, visited⟩ :=
  ⟨l, h, hvisited, h.nodup.sublist hvisited.sublist⟩

end Walk

/-- What is computed along some walks, if they all end. -/
def Walked (α : Type) : Type := Part (α × List Walk)

namespace Walked

variable {α β : Type} {x : Walked α} {f : α → Walked β} {a : α} {b : β} {n k : Nat}

instance : Monad Walked where
  pure a := Part.some (a, [])
  bind x f := Part.bind x fun (a, ws) => Part.map (fun (b, ws') => (b, ws ++ ws')) (f a)

/-- **A value along walks that end**, with at most `n` steps in all. -/
def Gives (x : Walked α) (a : α) (n : Nat) : Prop :=
  ∃ ws, x = Part.some (a, ws) ∧ (∀ w ∈ ws, w.Ends) ∧ (ws.map Walk.paces).sum ≤ n

theorem gives_pure (a : α) : (pure a : Walked α).Gives a n :=
  ⟨[], rfl, fun _ hw => absurd hw List.not_mem_nil, Nat.zero_le n⟩

theorem Gives.mono (hx : x.Gives a n) (hle : n ≤ k) : x.Gives a k := by
  obtain ⟨ws, heq, hends, hsum⟩ := hx
  exact ⟨ws, heq, hends, hsum.trans hle⟩

/-- **Steps add up**, one computation after another. -/
theorem Gives.bind (hx : x.Gives a n) (hf : (f a).Gives b k) : (x >>= f).Gives b (n + k) := by
  obtain ⟨ws, rfl, hends, hsum⟩ := hx
  obtain ⟨ws', heq, hends', hsum'⟩ := hf
  refine ⟨ws ++ ws', ?_, ?_, ?_⟩
  · change Part.bind (Part.some (a, ws)) _ = _
    rw [Part.bind_some]
    exact (congrArg (Part.map _) heq).trans (Part.map_some _ _)
  · intro w hw
    exact (List.mem_append.1 hw).elim (hends w) (hends' w)
  · rw [List.map_append, List.sum_append]
    omega

end Walked

namespace FreeLists

variable (d : FreeLists)

/-- **One turn of a walk** for the first place in front of a block of at least
the given size: it passes a smaller block, and stays in front of any other. -/
def pass (m : Memory) (size : Nat) : Seam × List Nat → Option (Seam × List Nat)
  | (⟨_, none⟩, _) => none
  | (⟨_, some q⟩, l) =>
    if size ≤ m.blockSize q then none else some (⟨some q, d.next m q⟩, l ++ [q])

/-- **The walk**, turn after turn until there is none, and the blocks that it
passes. -/
def walkFrom (m : Memory) (size : Nat) (s : Seam) : Part (Seam × List Nat) :=
  StateTransition.eval (d.pass m size) (s, [])

variable {d} {m : Memory} {c : SizeClass} {p size : Nat} {l : List Nat} {ls : SizeClass → List Nat}

theorem reaches_of_threaded {x : Option Nat} (h : d.Threaded m c x l) (passed : List Nat) :
    StateTransition.Reaches (d.pass m size) (⟨x, d.follower m c x⟩, passed)
      (⟨lastFrom x (l.takeWhile (m.blockSize · < size)),
        (l.dropWhile (m.blockSize · < size)).head?⟩,
        passed ++ l.takeWhile (m.blockSize · < size)) := by
  induction l generalizing x passed with
  | nil =>
    rw [show d.follower m c x = none from h, List.takeWhile_nil, List.append_nil]
    exact .refl
  | cons q l ih =>
    rw [h.1]
    by_cases hq : m.blockSize q < size
    · have hpass : d.pass m size (⟨x, some q⟩, passed) =
          some (⟨some q, d.follower m c (some q)⟩, passed ++ [q]) := if_neg (by omega)
      rw [List.takeWhile_cons_of_pos (by simpa using hq),
        List.dropWhile_cons_of_pos (by simpa using hq), List.append_cons]
      exact .head hpass (ih h.2.2 (passed ++ [q]))
    · rw [List.takeWhile_cons_of_neg (by simpa using hq),
        List.dropWhile_cons_of_neg (by simpa using hq), List.append_nil]
      exact .refl

/-- **The walk along a list** ends, and passes the smaller blocks. -/
theorem walkFrom_of_threaded {x : Option Nat} (h : d.Threaded m c x l) :
    d.walkFrom m size ⟨x, d.follower m c x⟩ =
      Part.some (⟨lastFrom x (l.takeWhile (m.blockSize · < size)),
        (l.dropWhile (m.blockSize · < size)).head?⟩,
        l.takeWhile (m.blockSize · < size)) := by
  refine Part.eq_some_iff.2 (StateTransition.mem_eval.2 ⟨reaches_of_threaded h [], ?_⟩)
  -- the first of the others is as large as it has to be
  have hfirst := List.head?_dropWhile_not (m.blockSize · < size) l
  cases hd : (l.dropWhile (m.blockSize · < size)).head? with
  | none => rfl
  | some q =>
    rw [hd] at hfirst
    exact if_pos (by simpa using hfirst)

end FreeLists

namespace Audit

variable {m : Memory} {r : Region} {d : Directory} {c : SizeClass} {t : Tally} {free : Array Nat}
  {seen : List Nat} {x y : Option Nat}

/-- **An audit enters only blocks of a list's chain**, whatever the memory. -/
theorem listed_walkList_le :
    Tally.listed (walkList (.plain m) r d free c seen (sized m x) y t) ≤
      t.listed + (d.chainFrom m r.stop seen y).length := by
  -- on the addresses of the region not seen yet
  induction hn : unseen r.stop seen using Nat.strong_induction_on generalizing seen x y t with
  | _ n ih =>
  cases y with
  | none =>
    rw [walkList_none]
    exact Nat.le_add_right _ _
  | some p =>
    have hstay : ∀ v, (t.note true v).listed ≤
        t.listed + (d.chainFrom m r.stop seen (some p)).length := fun v => by
      rw [Tally.listed_note]
      exact Nat.le_add_right _ _
    rw [walkList_some]
    split
    · exact hstay _
    · rename_i hseen
      split
      · rename_i hin
        split
        · exact hstay _
        · have hstop : p + 8 ≤ r.stop := hin.2.2
          have hleft : unseen r.stop (p :: seen) < n := by
            rw [← hn]
            exact unseen_cons_lt (by omega) hseen
          rw [FreeLists.chainFrom, dif_neg hseen, dif_pos hstop, List.length_cons]
          refine (ih _ hleft rfl).trans ?_
          rw [Tally.listed_enter]
          omega
      · exact hstay _

/-- What an audit counts is no more than all chains together. -/
theorem listed_surveyLists_le :
    Tally.listed (surveyLists (.plain m) r d free) ≤
      (SizeClass.all.map fun c => (d.chain m r.stop c).length).sum := by
  have hfold : ∀ (cs : List SizeClass) (t : Tally),
      (cs.foldl (surveyList d m r free) t).listed ≤
        t.listed + (cs.map fun c => (d.chain m r.stop c).length).sum := by
    intro cs
    induction cs with
    | nil => exact fun t => Nat.le_refl _
    | cons c cs ih =>
      intro t
      have hfirst : (surveyList d m r free t c).listed ≤
          t.listed + (d.chain m r.stop c).length := listed_walkList_le
      have hrest := ih (surveyList d m r free t c)
      rw [List.foldl_cons, List.map_cons, List.sum_cons]
      omega
  have h := hfold SizeClass.all {}
  rwa [Nat.zero_add] at h

end Audit

namespace Walked

open FreeLists

/-- Walks along the list of a class. Besides the blocks that are passed it reads
the size of the one it stops in front of. -/
def walk (d : FreeLists) (m : Memory) (c : SizeClass) (size : Nat) : Walked Seam :=
  (d.walkFrom m size ⟨none, d.head m c⟩).map fun (s, l) =>
    (s, [⟨d, m, c, l ++ s.after.toList⟩])

/-- Files the block at `p` in the list of its class. -/
def insert (d : FreeLists) (p : Nat) (m : Memory) : Walked Memory := do
  let size := m.blockSize p
  let c := SizeClass.ofSize size
  return d.splice c p (← walk d m c size) m

/-- The first block of at least the given size, over some lists. -/
def search (d : FreeLists) (m : Memory) (size : Nat) : List SizeClass → Walked (Option Nat)
  | [] => return none
  | c :: cs => do
    match (← walk d m c size).after with
    | some p => return some p
    | none => search d m size cs

/-- The first block of at least the given size, over the lists from its class
on. -/
def findFit (d : FreeLists) (m : Memory) (size : Nat) : Walked (Option Nat) :=
  search d m size (SizeClass.ofSize size).andLarger

/-- Makes one free block of the `grown` bytes new at the end of a region. -/
def append (d : Directory) (p grown : Nat) (m : Memory) : Walked Memory :=
  let m := m.setTags p grown false
  let rest := m.after p
  m |>.setHeader rest .epilogue |> insert d p

/-- Makes one free block at `start` of the filed blocks `parts`. -/
def fuse (d : FreeLists) (start : Nat) (parts : List Nat) (m : Memory) : Walked Memory :=
  let m := parts.foldl (fun m p => d.remove p m) m
  let size := parts.foldr (fun p n => m.blockSize p + n) 0
  m |>.setTags start size false |> insert d start

/-- Merges the filed block at `p` with its free neighbours. -/
def merge (d : FreeLists) (p : Nat) (m : Memory) : Walked (Nat × Memory) :=
  let left := m.before p
  let right := m.after p
  match m.isAllocated left, m.isAllocated right with
  | true, true => return (p, m)
  | true, false => do return (p, ← fuse d p [p, right] m)
  | false, true => do return (left, ← fuse d left [p, left] m)
  | false, false => do return (left, ← fuse d left [p, left, right] m)

/-- Serves `need` bytes from the filed free block at `p`. -/
def carve (d : FreeLists) (p need : Nat) (m : Memory) : Walked Memory :=
  let size := m.blockSize p
  let left := Layout.wrappingSub size need
  let m := d.remove p m
  if left < Layout.minBlock then return m.setTags p size true
  else
    let m := m.setTags p need true
    let rest := m.after p
    m |>.setTags rest left false |> insert d rest

/-- An audit of the lists, which follows each of them. It enters no more blocks
than this log has, whatever the memory (`Audit.listed_surveyLists_le`). -/
def survey (d : FreeLists) (m : Memory) (r : Region) : Walked Unit :=
  Part.some ((), SizeClass.all.map fun c => ⟨d, m, c, d.chain m r.stop c⟩)

variable {d : FreeLists} {m : Memory} {c : SizeClass} {p size : Nat} {l : List Nat}
  {ls : SizeClass → List Nat}

/-- The blocks that a walk passes, and the one it stops in front of, are the first
of the list. -/
theorem visited_of_list (f : Nat → Bool) (l : List Nat) :
    l.takeWhile f ++ (l.dropWhile f).head?.toList <+: l := by
  have hhead : (l.dropWhile f).head?.toList <+: l.dropWhile f := by
    cases l.dropWhile f with
    | nil => exact List.nil_prefix
    | cons q l' => exact ⟨l', rfl⟩
  have h := (List.prefix_append_right_inj (l.takeWhile f)).2 hhead
  rwa [List.takeWhile_append_dropWhile] at h

/-- **The walk along a list ends** where the bounded search does, and visits the
first of its blocks. -/
theorem walkFrom_ends (h : d.Threaded m c none l) (hr : ∀ q ∈ l, d.Reaches q) (size : Nat) :
    ∃ s passed, d.walkFrom m size ⟨none, d.head m c⟩ = Part.some (s, passed) ∧
      d.seam m c size = some s ∧ Walk.Ends ⟨d, m, c, passed ++ s.after.toList⟩ :=
  ⟨_, _, walkFrom_of_threaded h, seam_of_threaded size h h.nodup hr,
    Walk.ends_of_prefix h (visited_of_list _ l)⟩

theorem gives_walk (h : d.Threaded m c none l) (size : Nat) :
    (walk d m c size).Gives ⟨lastFrom none (l.takeWhile (m.blockSize · < size)),
      (l.dropWhile (m.blockSize · < size)).head?⟩ (l.length + 1) := by
  have hwalk : d.walkFrom m size ⟨none, d.head m c⟩ = _ := walkFrom_of_threaded h
  have hvisited := visited_of_list (m.blockSize · < size) l
  refine ⟨[_], by rw [walk, hwalk]; exact Part.map_some _ _, ?_, ?_⟩
  · intro w hw
    rw [List.mem_singleton.1 hw]
    exact Walk.ends_of_prefix h hvisited
  · have hle := hvisited.length_le
    simp only [List.map_cons, List.map_nil, List.sum_cons, List.sum_nil, Walk.paces]
    omega

/-- **Filing a block** takes a walk along the list of its class. -/
theorem gives_insert (h : d.Spells m ls) (hr : ∀ c, ∀ q ∈ ls c, d.Reaches q) (p : Nat) :
    (insert d p m).Gives (d.insert p m)
      ((ls (SizeClass.ofSize (m.blockSize p))).length + 1) := by
  have hseam := seam_of_threaded (m.blockSize p)
    (h.threaded (SizeClass.ofSize (m.blockSize p))) (h.nodup _) (hr _)
  rw [insert_eq_splice hseam]
  have hwalk := gives_walk (h.threaded (SizeClass.ofSize (m.blockSize p))) (m.blockSize p)
  exact hwalk.bind (k := 0) (gives_pure _)

theorem gives_search (h : d.Spells m ls) (hr : ∀ c, ∀ q ∈ ls c, d.Reaches q) (size : Nat)
    (cs : List SizeClass) :
    (search d m size cs).Gives (cs.findSome? fun c => (d.seam m c size).bind Seam.after)
      ((cs.map fun c => (ls c).length + 1).sum) := by
  induction cs with
  | nil => exact gives_pure none
  | cons c cs ih =>
    have hseam := seam_of_threaded size (h.threaded c) (h.nodup c) (hr c)
    rw [List.findSome?_cons, hseam, Option.bind_some, List.map_cons, List.sum_cons]
    refine (gives_walk (h.threaded c) size).bind ?_
    cases ((ls c).dropWhile (m.blockSize · < size)).head? with
    | some p => exact gives_pure (some p)
    | none => exact ih

/-- **Looking for a fit** takes a walk along each list that is searched. -/
theorem gives_findFit (h : d.Spells m ls) (hr : ∀ c, ∀ q ∈ ls c, d.Reaches q) (size : Nat) :
    (findFit d m size).Gives (d.findFit m size)
      (((SizeClass.ofSize size).andLarger.map fun c => (ls c).length + 1).sum) :=
  gives_search h hr size _

/-- **An audit** follows each list to its end, if every block of them is in the
region. -/
theorem gives_survey {r : Region} (h : d.Spells m ls)
    (hin : ∀ c, ∀ q ∈ ls c, q + 8 ≤ r.stop) :
    (survey d m r).Gives () ((SizeClass.all.map fun c => (ls c).length + 1).sum) := by
  have hchain : ∀ c, d.chain m r.stop c = ls c := fun c =>
    chain_of_threaded (h.threaded c) (h.nodup c) (hin c)
  refine ⟨_, rfl, ?_, ?_⟩
  · intro w hw
    obtain ⟨c, -, rfl⟩ := List.mem_map.1 hw
    exact Walk.ends_of_prefix (h.threaded c) ⟨[], (List.append_nil _).trans (hchain c)⟩
  · simp only [List.map_map, Function.comp_def, Walk.paces, hchain]
    exact Nat.le_refl _

end Walked

end SegFit
