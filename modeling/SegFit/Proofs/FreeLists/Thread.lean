import SegFit.FreeLists.Basic
/-!
# Lists in memory

A list is spelled by a head and by two links in each of its blocks.
`Threaded` says that the words reachable from a place spell exactly a
given sequence of blocks, with every previous link leading back; `Path`
is the same without the end. A list is split at a seam into the one and
the other (`threaded_append`), and both survive a write elsewhere
(`Path.congr`, `Threaded.congr`), so filing a block and taking one out
are each an edit at one seam.
-/

namespace SegFit

namespace FreeLists

variable {d : FreeLists} {m m' : Memory} {c : SizeClass}

/-- The block that follows a place in the list of a class: after a block
the one its next link leads to, and at the front the list's head. -/
def follower (d : FreeLists) (m : Memory) (c : SizeClass) : Option Nat → Option Nat
  | none => d.head m c
  | some p => d.next m p

/-- The address of the word `follower` reads. -/
def followerAt (d : FreeLists) (c : SizeClass) : Option Nat → Nat
  | none => d.slot c
  | some p => p + Layout.word

theorem follower_eq_resolve (x : Option Nat) :
    d.follower m c x = d.resolve (m.word (d.followerAt c x)) := by
  cases x <;> rfl

/-- The last of a run of blocks after a place, or the place itself. -/
def lastFrom : Option Nat → List Nat → Option Nat
  | x, [] => x
  | _, q :: l => lastFrom (some q) l

@[simp] theorem lastFrom_nil (x : Option Nat) : lastFrom x [] = x := rfl

@[simp] theorem lastFrom_cons (x : Option Nat) (q : Nat) (l : List Nat) :
    lastFrom x (q :: l) = lastFrom (some q) l := rfl

/-- From the front it is the last block, if there is one. -/
theorem lastFrom_none (l : List Nat) : lastFrom none l = l.getLast? := by
  have hlast : ∀ x l, lastFrom x l = l.getLast?.or x := fun x l => by
    induction l generalizing x with
    | nil => rfl
    | cons q l ih =>
      rw [lastFrom_cons, ih, List.getLast?_cons]
      cases l.getLast? <;> rfl
  rw [hlast, Option.or_none]

/-- The last of a run is one of its blocks, or the run is empty. -/
theorem lastFrom_mem (x : Option Nat) (l : List Nat) :
    lastFrom x l = x ∧ l = [] ∨ ∃ q ∈ l, lastFrom x l = some q := by
  induction l generalizing x with
  | nil => exact .inl ⟨rfl, rfl⟩
  | cons q l ih =>
    right
    rcases ih (some q) with ⟨h, -⟩ | ⟨r, hr, h⟩
    · exact ⟨q, List.mem_cons_self, h⟩
    · exact ⟨r, List.mem_cons_of_mem _ hr, h⟩

/-- **A run of blocks from a place on.** Each is where the link before it
leads, and its own previous link leads back. -/
def Path (d : FreeLists) (m : Memory) (c : SizeClass) : Option Nat → List Nat → Prop
  | _, [] => True
  | x, q :: l => d.follower m c x = some q ∧ d.prev m q = x ∧ Path d m c (some q) l

/-- **The blocks from a place to the end of its list.** -/
def Threaded (d : FreeLists) (m : Memory) (c : SizeClass) : Option Nat → List Nat → Prop
  | x, [] => d.follower m c x = none
  | x, q :: l => d.follower m c x = some q ∧ d.prev m q = x ∧ Threaded d m c (some q) l

instance decidableThreaded (d : FreeLists) (m : Memory) (c : SizeClass) :
    (x : Option Nat) → (l : List Nat) → Decidable (d.Threaded m c x l)
  | x, [] => inferInstanceAs (Decidable (d.follower m c x = none))
  | x, q :: l =>
    have := decidableThreaded d m c (some q) l
    inferInstanceAs (Decidable (d.follower m c x = some q ∧ d.prev m q = x ∧
      d.Threaded m c (some q) l))

theorem threaded_append {x : Option Nat} {l₁ l₂ : List Nat} :
    d.Threaded m c x (l₁ ++ l₂) ↔ d.Path m c x l₁ ∧ d.Threaded m c (lastFrom x l₁) l₂ := by
  induction l₁ generalizing x with
  | nil => simp [Path]
  | cons q l₁ ih => simp [Path, Threaded, ih, and_assoc]

/-- What follows a place is the first block of the rest of its list. -/
theorem Threaded.follower_eq {x : Option Nat} {l : List Nat} (h : d.Threaded m c x l) :
    d.follower m c x = l.head? := by
  cases l with
  | nil => exact h
  | cons q l => exact h.1

/-- **A place determines the rest of its list.** -/
theorem Threaded.unique {x : Option Nat} {l l' : List Nat} (h : d.Threaded m c x l)
    (h' : d.Threaded m c x l') : l = l' := by
  induction l generalizing x l' with
  | nil =>
    have hhead := h'.follower_eq
    rw [show d.follower m c x = none from h] at hhead
    exact (List.head?_eq_none_iff.1 hhead.symm).symm
  | cons q l ih =>
    obtain ⟨hx, -, hl⟩ := h
    cases l' with
    | nil =>
      rw [show d.follower m c x = none from h'] at hx
      cases hx
    | cons q' l' =>
      obtain rfl : q = q' := Option.some.inj (hx.symm.trans h'.1)
      rw [ih hl h'.2.2]

/-- **A list that ends has no block twice**: what is behind a block is
always the same, and never itself again. -/
theorem Threaded.nodup {x : Option Nat} {l : List Nat} (h : d.Threaded m c x l) : l.Nodup := by
  induction l generalizing x with
  | nil => exact List.nodup_nil
  | cons q l ih =>
    obtain ⟨-, -, hl⟩ := h
    refine List.nodup_cons.2 ⟨fun hq => ?_, ih hl⟩
    obtain ⟨l₁, l₂, rfl⟩ := List.append_of_mem hq
    have hrest := congrArg List.length (hl.unique (threaded_append.1 hl).2.2.2)
    simp only [List.length_append, List.length_cons] at hrest
    omega

/-- **A run survives a write elsewhere**, and also one of the link after
its last block: that is not a link of the run. -/
theorem Path.congr {x : Option Nat} {l : List Nat} (h : d.Path m c x l)
    (hnd : (x :: l.map some).Nodup)
    (hnext : ∀ y ∈ x :: l.map some, y ≠ lastFrom x l → d.follower m' c y = d.follower m c y)
    (hprev : ∀ q ∈ l, d.prev m' q = d.prev m q) : d.Path m' c x l := by
  induction l generalizing x with
  | nil => trivial
  | cons q l ih =>
    obtain ⟨hx, hq, hl⟩ := h
    rw [List.nodup_cons] at hnd
    have hne : x ≠ lastFrom x (q :: l) := by
      rintro heq
      rcases lastFrom_mem (some q) l with ⟨h, -⟩ | ⟨r, hr, h⟩
      · exact hnd.1 (by rw [heq, lastFrom_cons, h]; exact List.mem_cons_self)
      · refine hnd.1 ?_
        rw [heq, lastFrom_cons, h]
        exact List.mem_map_of_mem (List.mem_cons_of_mem _ hr)
    refine ⟨(hnext x List.mem_cons_self hne).trans hx,
      (hprev q List.mem_cons_self).trans hq, ih hl hnd.2 ?_ ?_⟩
    · intro y hy
      exact hnext y (List.mem_cons_of_mem _ hy)
    · intro r hr
      exact hprev r (List.mem_cons_of_mem _ hr)

/-- **The rest of a list survives a write elsewhere.** -/
theorem Threaded.congr {x : Option Nat} {l : List Nat} (h : d.Threaded m c x l)
    (hnext : ∀ y ∈ x :: l.map some, d.follower m' c y = d.follower m c y)
    (hprev : ∀ q ∈ l, d.prev m' q = d.prev m q) : d.Threaded m' c x l := by
  induction l generalizing x with
  | nil => exact (hnext x List.mem_cons_self).trans h
  | cons q l ih =>
    obtain ⟨hx, hq, hl⟩ := h
    refine ⟨(hnext x List.mem_cons_self).trans hx, (hprev q List.mem_cons_self).trans hq,
      ih hl ?_ ?_⟩
    · intro y hy
      exact hnext y (List.mem_cons_of_mem _ hy)
    · intro r hr
      exact hprev r (List.mem_cons_of_mem _ hr)

/-- A previous link tells where in its list a block is. -/
theorem Threaded.prev_eq {x : Option Nat} {l₁ l₂ : List Nat} {p : Nat}
    (h : d.Threaded m c x (l₁ ++ p :: l₂)) : d.prev m p = lastFrom x l₁ :=
  (threaded_append.1 h).2.2.1

/-- A next link leads to the block that comes after. -/
theorem Threaded.next_eq {x : Option Nat} {l₁ l₂ : List Nat} {p : Nat}
    (h : d.Threaded m c x (l₁ ++ p :: l₂)) : d.next m p = l₂.head? :=
  ((threaded_append.1 h).2.2.2).follower_eq

end FreeLists

end SegFit
