import SegFit.Proofs.Client.Audited
import SegFit.Proofs.Client.Stages
import SegFit.Proofs.Client.WellFormed
/-!
# The life of a heap

Whatever its store refuses, and whenever, a heap goes from untouched to bare
to stocked and never back. It asks for its layout until that is granted,
which is once, before anything else is granted, and from then on for chunks
only. `lifecycle_of_run` says so of every run, and what the next call does that
finds the heap untouched or bare.
-/

namespace SegFit

/-- The form of a call that stops for the cause of a failure. -/
def Call.strict : Call → Call
  | .malloc n => .tryMalloc n
  | .calloc count size => .tryCalloc count size
  | .realloc p n => .tryRealloc p n
  | c => c

namespace Heap

variable {σ : Type} [Store σ]

/-- A lenient call leaves the heap that the strict one does, but for the
journal. -/
theorem ends_of_strict {h : Heap σ} {c : Call} {P : Heap σ → Prop}
    (hjournal : ∀ h' j, P h' → P { h' with journal := j })
    (hx : Ends c.strict.perform h fun _ h' => P h') : Ends c.perform h fun _ h' => P h' := by
  have hlenient : ∀ {x : Operation σ (Option Nat)} {f : Failure → Record},
      (Ends x h fun _ h' => P h') → Ends (orNull x f) h fun _ h' => P h' := fun hx => by
    rw [ends_orNull]
    refine hx.mono fun r h' hP => ?_
    match r with
    | .ok q => exact hP
    | .error e => exact hjournal h' _ hP
  cases c with
  | malloc n => exact hlenient hx
  | calloc count size => exact hlenient hx
  | realloc p n => exact hlenient hx
  | _ => exact hx

variable [Store.Truthful σ] {h h' : Heap (Ledger σ)} {χ : Chart}

/-- **What is so of a heap in each stage**, and what its store has granted:
the layout, once and first, and then chunks or more. -/
def InStage (h : Heap (Ledger σ)) : Stage → Prop
  | .untouched => h.size = 0 ∧ granted h.store.account = []
  | .bare => h.size = Layout.bytes ∧ h.violations = [] ∧ granted h.store.account = [Layout.bytes]
  | .stocked => ∃ gs, gs ≠ [] ∧ granted h.store.account = Layout.bytes :: gs ∧
      ∀ g ∈ gs, Layout.chunk ≤ g

/-- **A heap and the account of its store**, laid out or not. -/
inductive Booked (h : Heap (Ledger σ)) : Prop
  | untouched (hd : h.directory = none) (haccount : granted h.store.account = [])
  | laidOut {d : Directory} {gs : List Nat} (hd : h.directory = some d)
      (haccount : granted h.store.account = Layout.bytes :: gs)
      (hlarge : ∀ g ∈ gs, Layout.chunk ≤ g)

omit [Store.Truthful σ] in
theorem Booked.journal (hb : h.Booked) (j : Array Record) :
    ({ h with journal := j } : Heap (Ledger σ)).Booked := by
  cases hb with
  | untouched hd haccount => exact .untouched hd haccount
  | laidOut hd haccount hlarge => exact .laidOut hd haccount hlarge

/-- What is granted of requests for chunks. -/
theorem chunk_le_of_mem_granted {asked : List (Nat × Except Failure Nat)}
    (hlarge : ∀ r ∈ asked, Layout.chunk ≤ r.1) : ∀ g ∈ granted asked, Layout.chunk ≤ g := by
  intro g hg
  obtain ⟨p, hp⟩ := exists_of_mem_granted hg
  exact hlarge _ hp

omit [Store.Truthful σ] in
/-- A laid-out heap asks for chunks only. -/
theorem Booked.draws (hb : h.Booked) (hd : h.directory.isSome) (hdraws : Draws h h') :
    h'.Booked := by
  cases hb with
  | untouched hnone =>
    rw [hnone] at hd
    cases hd
  | @laidOut d gs hd haccount hlarge =>
    obtain ⟨asked, hasked, hlarge'⟩ := hdraws.account
    have haccount' : granted h'.store.account = Layout.bytes :: (gs ++ granted asked) := by
      rw [hasked, granted_append, haccount, List.cons_append]
    refine .laidOut (hdraws.directory.trans hd) haccount' ?_
    intro g hg
    exact (List.mem_append.1 hg).elim (hlarge g) (chunk_le_of_mem_granted hlarge' g)

/-- An untouched heap asks for its layout first. -/
theorem FirstUse.booked {c : Call} {r : Except Failure (Option Nat)} (huse : FirstUse h c r h')
    (hd : h.directory = none) (haccount : granted h.store.account = []) : h'.Booked := by
  have hlaidOut : h'.stage ≠ .untouched → ∃ d, h'.directory = some d := fun hne => by
    cases hd' : h'.directory with
    | none => exact absurd (stage_of_none hd') hne
    | some d => exact ⟨d, rfl⟩
  cases huse with
  | layoutRefused hasked hidle =>
    refine .untouched (hidle.directory.trans hd) ?_
    rw [hasked, granted_append, haccount]
    rfl
  | chunkRefused hasked hstage =>
    obtain ⟨d, hd'⟩ := hlaidOut (by rw [hstage]; decide)
    have haccount' : granted h'.store.account = [Layout.bytes] := by
      rw [hasked, granted_append, haccount]
      rfl
    exact .laidOut hd' haccount' fun g hg => absurd hg List.not_mem_nil
  | @opened _ _ _ _ asked hasked hlarge _ hstage =>
    obtain ⟨d, hd'⟩ := hlaidOut (by rw [hstage]; decide)
    have haccount' : granted h'.store.account =
        Layout.bytes :: Layout.chunk :: granted asked := by
      rw [hasked, granted_append, haccount]
      rfl
    refine .laidOut hd' haccount' ?_
    intro g hg
    rcases List.mem_cons.1 hg with rfl | hg
    · exact Nat.le_refl _
    · exact chunk_le_of_mem_granted hlarge g hg

/-- **The account tells the stage.** -/
theorem Booked.rank_stage (hb : h.Booked) (hs : h.Shows χ) :
    h.stage.rank = min (granted h.store.account).length 2 := by
  have hextent := extent_eq_sum h
  cases hb with
  | untouched hd haccount =>
    rw [stage_of_none hd, haccount]
    rfl
  | @laidOut d gs hd haccount hlarge =>
    rw [(hs.charted_of_some hd).stage_eq, haccount]
    cases gs with
    | nil =>
      rw [haccount] at hextent
      rw [if_pos (by simpa using hextent)]
      rfl
    | cons g gs =>
      have hg := hlarge g List.mem_cons_self
      rw [haccount, List.sum_cons, List.sum_cons] at hextent
      simp only [Layout.chunk] at hg
      rw [if_neg (by omega)]
      simp [Stage.rank]

end Heap

namespace Client

variable {σ : Type} [Store σ]

/-- What a call ends with is its answer and the client's heap. -/
theorem exists_answer {s : Client σ} {c : Call} {Q : Except Failure (Option Nat) → Heap σ → Prop}
    (hx : Heap.Ends c.perform s.heap Q) : ∃ r, s.Answers c r ∧ Q r (s.step c).heap := by
  unfold step
  rcases hx.cases with ⟨q, h', heq, hQ⟩ | ⟨e, h', heq, hQ⟩
  · rw [heq]
    exact ⟨.ok q, ⟨h', heq⟩, hQ⟩
  · rw [heq]
    exact ⟨.error e, ⟨h', heq⟩, hQ⟩

omit [Store σ] in
/-- A call that brings no payload is always allowed. -/
theorem allows_of_bytes {s : Client σ} {c : Call} (hcall : c = .init ∨ c.bytes.isSome) :
    s.Allows c := by
  cases c with
  | init => exact nofun
  | tryMalloc n => exact nofun
  | tryCalloc count size => exact nofun
  | tryRealloc p n => cases p <;> simp_all [Call.bytes, Allows, Call.subject]
  | free p => cases p <;> simp_all [Call.bytes, Allows, Call.subject]
  | _ => simp [Call.bytes] at hcall

omit [Store σ] in
/-- A client that owns nothing can only make calls that bring nothing. -/
theorem strict_cases {s : Client σ} {c : Call} (hc : s.Allows c)
    (hnone : ∀ p, (s.shadow p).isSome = false) :
    (c.strict = .init ∨ c.strict.bytes.isSome) ∨
      ∃ count size, ¬ count * size < Layout.sizeRange ∧ c.strict = .tryCalloc count size := by
  have hcalloc : ∀ count size, (Call.tryCalloc count size).bytes.isSome ∨
      ¬ count * size < Layout.sizeRange := fun count size => by
    by_cases hlt : count * size < Layout.sizeRange <;> simp [Call.bytes, hlt]
  have hsubject : ∀ p : Option Nat, (∀ q ∈ p, (s.shadow q).isSome) → p = none := fun p hp => by
    cases p with
    | none => rfl
    | some q => exact absurd (hp q rfl) (by rw [hnone q]; decide)
  cases c with
  | init => exact .inl (.inl rfl)
  | malloc n => exact .inl (.inr rfl)
  | tryMalloc n => exact .inl (.inr rfl)
  | calloc count size =>
    exact (hcalloc count size).imp .inr fun hlt => ⟨count, size, hlt, rfl⟩
  | tryCalloc count size =>
    exact (hcalloc count size).imp .inr fun hlt => ⟨count, size, hlt, rfl⟩
  | realloc p n =>
    obtain rfl := hsubject p hc
    exact .inl (.inr rfl)
  | tryRealloc p n =>
    obtain rfl := hsubject p hc
    exact .inl (.inr rfl)
  | free p =>
    obtain rfl := hsubject p hc
    exact .inl (.inr rfl)
  | write p i v => exact absurd hc.1 (by rw [hnone p]; decide)

variable [Store.Truthful σ] {s : Client (Ledger σ)} {c : Call} {cs : List Call}

/-- **What holds of a client after every call**, with the account of its
heap's store. The client would be one even if its heap audited itself. -/
structure Kept (s : Client (Ledger σ)) : Prop where
  reachable : Reachable s
  audited : Reachable (s.recast id true)
  booked : s.heap.Booked

/-- The next call of a client whose heap is untouched. -/
theorem Reachable.ends_firstUse (hs : Reachable s) (hd : s.heap.directory = none)
    (hcall : c = .init ∨ c.bytes.isSome) :
    Heap.Ends c.perform s.heap (s.heap.FirstUse c) := by
  obtain ⟨χ, ht⟩ := hs.sound
  refine Heap.ends_firstUse (ht.shows.blank_of_none hd) hcall ?_
  refine (ends_perform_after ht (allows_of_bytes hcall)).mono ?_
  rintro r h' ⟨⟨χ', hfollows⟩, -⟩
  exact ⟨χ', hfollows.tracks.shows⟩

/-- **The account is kept** by every call. -/
theorem Kept.booked_step (hk : Kept s) (hc : s.Allows c) : (s.step c).heap.Booked := by
  obtain ⟨χ, ht⟩ := hk.reachable.sound
  cases hk.booked with
  | laidOut hd haccount hlarge =>
    have hsome : s.heap.directory.isSome := by rw [hd]; rfl
    obtain ⟨r, -, -, hdraws⟩ :=
      exists_answer ((Heap.drawing_perform c).ends hsome (ends_perform_after ht hc))
    exact hk.booked.draws hsome hdraws
  | untouched hd haccount =>
    have hnone : ∀ p, (s.shadow p).isSome = false := fun p => by
      have hempty : χ = .empty := ht.shows.eq_empty (ht.shows.blank_of_none hd)
      have hiff := ht.owned_iff p
      rw [hempty] at hiff
      exact Bool.eq_false_iff.2 fun hp => by
        obtain ⟨b, hb, -⟩ := hiff.1 hp
        exact absurd hb List.not_mem_nil
    have hstrict : Heap.Ends c.strict.perform s.heap fun _ h' => h'.Booked := by
      rcases strict_cases hc hnone with hcall | ⟨count, size, hlt, heq⟩
      · exact (hk.reachable.ends_firstUse hd hcall).mono fun r h' huse => huse.booked hd haccount
      · rw [heq, Call.perform, Heap.ends_tryCalloc, if_neg hlt]
        exact hk.booked
    obtain ⟨r, -, hbooked⟩ :=
      exists_answer (Heap.ends_of_strict (fun h' j hb => hb.journal j) hstrict)
    exact hbooked

theorem Kept.step (hk : Kept s) (hc : s.Allows c) : Kept (s.step c) := by
  refine ⟨hk.reachable.step hc, ?_, hk.booked_step hc⟩
  rw [← (hk.reachable.recast_step .id hk.audited hc).2]
  exact hk.audited.step ((allows_recast s c).2 hc)

theorem Kept.run (hk : Kept s) (hcs : s.AllowsAll cs) : Kept (s.run cs) := by
  induction cs generalizing s with
  | nil => exact hk
  | cons c cs ih => exact ih (hk.step hcs.1) hcs.2

/-- A heap that is laid out begins at a multiple of eight, and nothing is
wrong with it. -/
theorem Kept.violations_eq_nil (hk : Kept s) {d : Directory} (hd : s.heap.directory = some d) :
    s.heap.violations = [] := by
  obtain ⟨χ, hc, -⟩ := hk.audited.sound.charted hd
  exact hc.violations_eq_nil rfl

theorem Kept.inStage (hk : Kept s) : s.heap.InStage s.heap.stage := by
  obtain ⟨χ, ht⟩ := hk.reachable.sound
  have hrank := hk.booked.rank_stage ht.shows
  have hsize : s.heap.size = (granted s.heap.store.account).sum :=
    (Store.Truthful.size_eq s.heap.store).trans (Heap.extent_eq_sum s.heap)
  cases hk.booked with
  | untouched hd haccount =>
    rw [Heap.stage_of_none hd]
    exact ⟨by rw [hsize, haccount]; rfl, haccount⟩
  | @laidOut d gs hd haccount hlarge =>
    have hok := hk.violations_eq_nil hd
    rw [haccount] at hrank
    cases gs with
    | nil =>
      have hstage : s.heap.stage = .bare := Heap.Stage.rank_inj hrank
      rw [hstage]
      exact ⟨by rw [hsize, haccount]; rfl, hok, haccount⟩
    | cons g gs =>
      have hlength : 2 ≤ (Layout.bytes :: g :: gs).length := by simp
      have hstage : s.heap.stage = .stocked :=
        Heap.Stage.rank_inj (hrank.trans (Nat.min_eq_right hlength))
      rw [hstage]
      exact ⟨g :: gs, List.cons_ne_nil g gs, haccount, hlarge⟩

/-- No call takes a heap back. -/
theorem Kept.rank_step_le (hk : Kept s) (hc : s.Allows c) :
    s.heap.stage.rank ≤ (s.step c).heap.stage.rank := by
  obtain ⟨χ, ht⟩ := hk.reachable.sound
  obtain ⟨χ', ht'⟩ := (hk.step hc).reachable.sound
  rw [hk.booked.rank_stage ht.shows, (hk.step hc).booked.rank_stage ht'.shows]
  cases hk.booked with
  | untouched hd haccount =>
    rw [haccount]
    exact Nat.zero_le _
  | laidOut hd =>
    obtain ⟨r, -, -, hdraws⟩ :=
      exists_answer ((Heap.drawing_perform c).ends (by rw [hd]; rfl) (ends_perform_after ht hc))
    obtain ⟨asked, hasked, -⟩ := hdraws.account
    rw [hasked, granted_append, List.length_append]
    omega

theorem Kept.rank_run_le (hk : Kept s) (hcs : s.AllowsAll cs) :
    s.heap.stage.rank ≤ (s.run cs).heap.stage.rank := by
  induction cs generalizing s with
  | nil => exact Nat.le_refl _
  | cons c cs ih => exact Nat.le_trans (hk.rank_step_le hcs.1) (ih (hk.step hcs.1) hcs.2)

/-- **What is so of a heap at every moment of its life.** -/
structure Lifecycle (s : Client (Ledger σ)) : Prop where
  inStage : s.heap.InStage s.heap.stage
  /-- No later call takes the heap back to an earlier stage. -/
  advances : ∀ cs, s.AllowsAll cs → s.heap.stage.rank ≤ (s.run cs).heap.stage.rank
  firstUse : s.heap.stage = .untouched → ∀ c : Call, c = .init ∨ c.bytes.isSome →
    ∃ r, s.Answers c r ∧ s.heap.FirstUse c r (s.step c).heap
  bareUse : s.heap.stage = .bare → ∀ c : Call, c = .init ∨ c.bytes.isSome →
    ∃ r, s.Answers c r ∧ s.heap.BareUse c r (s.step c).heap

theorem Kept.lifecycle (hk : Kept s) : Lifecycle s := by
  obtain ⟨χ, ht⟩ := hk.reachable.sound
  refine ⟨hk.inStage, fun cs hcs => hk.rank_run_le hcs, ?_, ?_⟩
  · intro hstage c hcall
    cases hd : s.heap.directory with
    | none => exact exists_answer (hk.reachable.ends_firstUse hd hcall)
    | some d =>
      rw [(ht.shows.charted_of_some hd).stage_eq] at hstage
      split at hstage <;> cases hstage
  · intro hstage c hcall
    have hallows := allows_of_bytes (s := s) hcall
    cases hd : s.heap.directory with
    | none =>
      rw [Heap.stage_of_none hd] at hstage
      cases hstage
    | some d =>
      have hc := ht.shows.charted_of_some hd
      obtain rfl := hc.eq_empty_of_bare hstage
      obtain ⟨χ', ht'⟩ := (hk.step hallows).reachable.sound
      obtain ⟨r, hanswers, huse⟩ := exists_answer (Heap.ends_bareUse hc hcall)
      exact ⟨r, hanswers, huse χ' ht'.shows⟩

/-! ## Every run -/

/-- A heap that keeps an account of what it asks for, from when its store has
given nothing. -/
def booked (h : Heap σ) (hextent : h.region.extent = 0) : Client (Ledger σ) :=
  ⟨⟨Ledger.opened h.store hextent, h.memory, h.directory, h.auditsItself, h.journal⟩,
    fun _ => none⟩

/-- **Every run of a heap is a life of it.** Whatever the calls, and whatever
the store refuses, keeping the account changes nothing, and what the account
says is the life of a heap. -/
theorem lifecycle_of_run {h : Heap σ} (hdirectory : h.directory = none)
    (hextent : h.region.extent = 0) (hstart : h.region.start % 8 = 0)
    (hcs : AllowsAll ⟨h, fun _ => none⟩ cs) :
    (run ⟨h, fun _ => none⟩ cs = ((booked h hextent).run cs).recast Ledger.store h.auditsItself ∧
        results ⟨h, fun _ => none⟩ cs =
          ((booked h hextent).results cs).map (Heap.recastResult Ledger.store h.auditsItself)) ∧
      (booked h hextent).AllowsAll cs ∧ Lifecycle ((booked h hextent).run cs) := by
  have hbooked : Reachable (booked h hextent) := .start ⟨hdirectory, hextent, fun _ => hstart⟩
  have haudited : Reachable ((booked h hextent).recast id true) :=
    .start ⟨hdirectory, hextent, fun _ => hstart⟩
  have hplain : Reachable ((booked h hextent).recast Ledger.store h.auditsItself) :=
    .start ⟨hdirectory, hextent, fun _ => hstart⟩
  have hcs' : (booked h hextent).AllowsAll cs :=
    (hbooked.allowsAll_recast Ledger.conforms_store hplain).1 hcs
  have hkept : Kept (booked h hextent) := ⟨hbooked, haudited, .untouched hdirectory rfl⟩
  exact ⟨hbooked.recast_run Ledger.conforms_store hplain hcs', hcs', (hkept.run hcs').lifecycle⟩

/-- An arena with room for a layout but for no chunk. -/
def crampedArena : Arena := { capacity := 2000, capacity_lt := by decide }

theorem cramped_lifecycle :
    (run ⟨{ store := crampedArena }, fun _ => none⟩ [.tryMalloc 0, .init, .malloc 24]).heap.stage =
        .bare ∧
      Lifecycle ((booked { store := crampedArena } rfl).run [.tryMalloc 0, .init, .malloc 24]) := by
  refine ⟨by decide +kernel, ?_⟩
  exact (lifecycle_of_run (h := { store := crampedArena }) rfl rfl (by decide)
    (by decide +kernel)).2.2

end Client

end SegFit
