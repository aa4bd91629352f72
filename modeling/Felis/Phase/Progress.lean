import Felis.Phase.Accounting

/-!
# The end of a phase

The results about whole runs of one phase on one node. `phase_ends_once` says that `comp_count` is
brought to 0 exactly once, when the phase is over, and that this point is reached by every run.
`Running.Obligated.move` is what the other modules use: as long as a core has not reported what it
has done, the phase goes on.
-/

namespace Felis.Phase

open Finset Runs Sums Function

variable {V C X I : Type}

section

variable {P : Plan V C X I} {s t : State V C X I} {ev : Event V C I}

/-! ## What a core has to report -/

theorem Running.Obligated.setStage [DecidableEq C] {c d : C} {st : Stage}
    (h : Running.Obligated s c) (hle : (s.stage d).left ≤ st.left) :
    Running.Obligated (Plan.setStage s d st) c := by
  refine h.imp_right (Or.imp_right fun hl => ?_)
  by_cases hdc : c = d
  · subst hdc
    simpa [Plan.setStage] using hl.trans_le hle
  · simpa [Plan.setStage, update_of_ne hdc] using hl

theorem Running.Obligated.setStatus [DecidableEq I] {c : C} {i : I} (st : Status C)
    (h : Running.Obligated s c) (hne : s.status i ≠ .running c) :
    Running.Obligated (Plan.setStatus s i st) c := by
  refine h.imp_left fun ⟨j, hj⟩ => ⟨j, ?_⟩
  have hji : j ≠ i := by
    rintro rfl
    exact hne hj
  simpa [Plan.setStatus, update_of_ne hji] using hj

theorem Running.Obligated.finishOn [DecidableEq C] [DecidableEq I] {c d : C} {i : I}
    (h : Running.Obligated s c) (hd : s.status i = .running c → d = c) :
    Running.Obligated (Plan.finishOn s i d) c := by
  by_cases hdc : c = d
  · subst hdc
    exact .inr (.inl (by simp [Plan.finishOn]))
  · have hne : s.status i ≠ .running c := fun hi => hdc (hd hi).symm
    refine (h.setStatus .completed hne).imp_right (Or.imp_left fun hc => ?_)
    simpa [Plan.finishOn, Plan.setStatus, update_of_ne hdc] using hc

/-! ## Progress -/

/-- The node is between two phases, and nothing of the next one has happened on it. -/
structure Idle (P : Plan V C X I) (s : State V C X I) : Prop where
  comp : s.comp = 0
  counters : ∀ c, s.counter c = 0
  waiting : ∀ i ∈ P.items, s.status i = .waiting
  running : ∀ i c, s.status i ≠ .running c

theorem idle_init : Idle P State.init :=
  ⟨rfl, fun _ => rfl, fun _ _ => rfl, fun _ _ => by simp [State.init]⟩

/-- The steps a worker has still to make, with `n` counters to flush. -/
def Stage.work (n : ℕ) : Stage → ℕ
  | .planning pos => n - pos + 3
  | .issued _ => 2
  | .extra => 1
  | .done => 0

/-- The steps until an item is reported, the last of which is left to the counter of a core. -/
def Status.work : Status C → ℕ
  | .waiting => 3
  | .running _ => 2
  | .completed => 0

variable [Fintype C]

/-- A bound on the steps that are left in a phase. -/
def Plan.work (P : Plan V C X I) (s : State V C X I) : ℕ :=
  (!s.begun).toNat + ∑ c, (s.stage c).work P.indices.length +
    ∑ v ∈ P.remotes, (!s.applied v).toNat + ∑ i ∈ P.items, (s.status i).work + ∑ c, s.counter c

theorem Plan.work_setStage [DecidableEq C] (P : Plan V C X I) (s : State V C X I) {c : C}
    (st : Stage) (hlt : st.work P.indices.length < (s.stage c).work P.indices.length) :
    P.work (Plan.setStage s c st) < P.work s := by
  have := sum_update_add univ (fun _ => Stage.work P.indices.length) s.stage (mem_univ c) st
  simp only [Plan.work, Plan.setStage]
  omega

theorem Plan.work_setStatus [DecidableEq I] (P : Plan V C X I) (s : State V C X I) {i : I}
    (st : Status C) (hi : i ∈ P.items) : P.work (Plan.setStatus s i st) + (s.status i).work =
    P.work s + st.work := by
  have := sum_update_add P.items (fun _ => Status.work) s.status hi st
  simp only [Plan.work, Plan.setStatus]
  omega

theorem Plan.work_finishOn [DecidableEq C] [DecidableEq I] (P : Plan V C X I) (s : State V C X I)
    {i : I} (c : C) (hi : i ∈ P.items) :
    P.work (Plan.finishOn s i c) + (s.status i).work = P.work s + 1 := by
  have hstatus := P.work_setStatus s .completed hi
  have hcount := sum_update_add univ (fun _ n => n) s.counter (mem_univ c) (s.counter c + 1)
  simp only [Plan.work, Plan.setStatus, Plan.finishOn, Status.work] at hstatus ⊢
  omega

variable [DecidableEq V] [DecidableEq C] [DecidableEq X]

theorem Idle.callTxns [Nonempty C] (h : Idle P s) : Running P (P.callTxns s) := by
  have hT : 0 < Fintype.card C := Fintype.card_pos
  refine ⟨rfl, ?_, ?_, fun i hi hne => absurd (h.waiting i hi) hne,
    fun i c hi => absurd hi (h.running i c), ?_, ?_, ?_⟩
  · simp [Plan.callTxns, Plan.quota, Plan.added, h.comp]
    ring
  · have hzero : ∑ i ∈ P.items, (s.status i).isCompleted.toNat = 0 :=
      sum_eq_zero fun i hi => by rw [h.waiting i hi]; rfl
    simp [Plan.callTxns, hzero, h.counters]
  · simp [Plan.callTxns]
  · simp [Plan.callTxns, hT.ne']
  · have hne : s.comp + (#P.remotes * kMaxPiecesPerPhase + 1 + Fintype.card C : ℕ) ≠ 0 := by
      have := h.comp
      omega
    exact (if_neg hne).symm

theorem Running.zeros_eq_one_iff (h : Running P s) : s.zeros = 1 ↔ s.comp = 0 := by
  rw [h.zeros]
  split_ifs with hc <;> simp [hc]

variable [DecidableEq I]

/-- While the phase is not over, some step is possible. -/
theorem Running.over_of_stuck [Nonempty C] (h : Running P s) (hstuck : ∀ ev, P.step s ev = none) :
    Over P s := by
  have hnone : ∀ ev, P.stepBegun s ev = none := fun ev => by
    rw [← P.step_of_begun h.begun]
    exact hstuck ev
  have hworkers : ∀ c, s.stage c = .done := fun c => by
    have hindex := hnone (.flushIndex c)
    have hend := hnone (.flushEnd c)
    have hworker := hnone (.workerComplete c)
    have hextra := hnone (.extraComplete c)
    cases hst : s.stage c with
    | planning pos =>
      simp only [Plan.stepBegun, hst, Option.map_eq_none_iff, List.getElem?_eq_none_iff]
        at hindex hend
      simp [hindex] at hend
    | issued last => simp [Plan.stepBegun, hst] at hworker
    | extra => simp [Plan.stepBegun, hst] at hextra
    | done => rfl
  refine ⟨hworkers, fun v hv => ?_, fun i hi => ?_, fun c => ?_⟩
  · by_contra hne
    have := hnone (.counterMessage v (Classical.choice ‹Nonempty C›))
    simp [Plan.stepBegun, hv, hne] at this
  · cases hst : s.status i with
    | waiting =>
      have := hnone (.start i (Classical.choice ‹Nonempty C›))
      simp [Plan.stepBegun, Plan.issuable, hi, hst, hworkers] at this
    | running c =>
      have := hnone (.finish i)
      simp [Plan.stepBegun, hst] at this
    | completed => rfl
  · by_contra hne
    have := hnone (.peek c)
    simp [Plan.stepBegun, Nat.pos_of_ne_zero hne] at this

theorem Running.work_lt (h : Running P s) (ht : P.Move s ev t) : P.work t < P.work s := by
  cases ht with
  | @flushIndex c pos x hst hx =>
    obtain ⟨hlt, -⟩ := List.getElem?_eq_some_iff.1 hx
    exact P.work_setStage s (.planning (pos + 1)) (by simp only [hst, Stage.work]; omega)
  | flushEnd hst hpos =>
    exact P.work_setStage s (.issued _) (by simp only [hst, Stage.work]; omega)
  | @workerComplete c last hst =>
    refine P.work_setStage (s.complete 1) _ ?_
    cases last <;> simp [State.complete, hst, Stage.work]
  | extraComplete hst =>
    exact P.work_setStage (s.complete 1) .done (by simp [State.complete, hst, Stage.work])
  | counterMessage hv happ =>
    have := sum_update_add P.remotes (fun _ b => (!b).toNat) s.applied hv true
    simp only [Plan.work, State.complete, happ, Bool.not_true, Bool.not_false, Bool.toNat_true,
      Bool.toNat_false] at this ⊢
    omega
  | @start i c hi =>
    have := P.work_setStatus s (.running c) hi.1
    rw [hi.2.1] at this
    simp only [Status.work] at this
    omega
  | @finish i c hst =>
    have := P.work_finishOn s c (h.items i c hst)
    rw [hst] at this
    simp only [Status.work] at this
    omega
  | @receive i c hi =>
    have := P.work_finishOn s c hi.1
    rw [hi.2.1] at this
    simp only [Status.work] at this
    omega
  | @peek c hc =>
    have := sum_update_add univ (fun _ n => n) s.counter (mem_univ c) 0
    simp only [Plan.work, State.complete]
    omega

/-- The only step before the phase has begun is `CallTxns`. -/
theorem move_or_callTxns (hs : s = State.init ∨ Running P s) (ht : P.step s ev = some t) :
    (s = State.init ∧ ev = .callTxns ∧ t = P.callTxns State.init) ∨
      (Running P s ∧ P.Move s ev t) := by
  rcases hs with rfl | hs
  · cases ev with
    | callTxns =>
      cases ht
      exact .inl ⟨rfl, rfl, rfl⟩
    | flushIndex | flushEnd | workerComplete | extraComplete | counterMessage | start | finish
    | receive | peek => cases ht
  · rw [P.step_of_begun hs.begun] at ht
    exact .inr ⟨hs, Plan.move_of_stepBegun ht⟩

section

variable (hK : ∀ v ∈ P.remotes, P.planned (.inl v) < kMaxPiecesPerPhase)

include hK

theorem running_step [Nonempty C] (hs : s = State.init ∨ Running P s) (ht : P.step s ev = some t) :
    Running P t ∧ P.work t < P.work s := by
  rcases move_or_callTxns hs ht with ⟨rfl, -, rfl⟩ | ⟨hs, hmove⟩
  · refine ⟨idle_init.callTxns, ?_⟩
    simp only [Plan.work, Plan.callTxns, State.init, Bool.not_true, Bool.not_false,
      Bool.toNat_true, Bool.toNat_false]
    omega
  · exact ⟨hs.move hK hmove, hs.work_lt hmove⟩

theorem init_or_running [Nonempty C] {evs : List (Event V C I)}
    (hrun : run P.step State.init evs = some s) : s = State.init ∨ Running P s :=
  run_induction (I := fun s => s = State.init ∨ Running P s)
    (fun _ _ _ hs ht => .inr (running_step hK hs ht).1) (.inl rfl) hrun

theorem length_le_work [Nonempty C] {evs : List (Event V C I)}
    (hrun : run P.step State.init evs = some s) : evs.length ≤ P.work State.init :=
  (Nat.le_add_right _ (P.work s)).trans (run_length_le (I := fun s => s = State.init ∨ Running P s)
    (fun _ _ _ hs ht => (running_step hK hs ht).imp_left .inr) (.inl rfl) hrun)

end

/-- **A phase ends exactly when it is over.** The count never gets negative and `Complete` brings it
to 0 at most once. When it has done so, every worker has completed, every counter message has been
applied and every item planned for the node is completed. No run goes on for ever, and one that
cannot go on has brought the count to 0. -/
theorem phase_ends_once [Nonempty C] (P : Plan V C X I)
    (hK : ∀ v ∈ P.remotes, P.planned (.inl v) < kMaxPiecesPerPhase) (evs : List (Event V C I))
    (s : State V C X I) (hrun : run P.step State.init evs = some s) :
    0 ≤ s.comp ∧ s.zeros ≤ 1 ∧
    (s.zeros = 1 → s.comp = 0 ∧ (∀ c, s.stage c = .done) ∧
      (∀ v ∈ P.remotes, s.applied v = true) ∧ ∀ i ∈ P.items, s.status i = .completed) ∧
    evs.length ≤ P.work State.init ∧ ((∀ ev, P.step s ev = none) → s.zeros = 1) := by
  rcases init_or_running hK hrun with rfl | h
  · refine ⟨le_rfl, Nat.zero_le 1, fun hz => absurd hz Nat.zero_ne_one, length_le_work hK hrun,
      fun hstuck => ?_⟩
    cases hstuck .callTxns
  · refine ⟨h.comp_nonneg hK, ?_, fun hone => ?_, length_le_work hK hrun, fun hstuck => ?_⟩
    · rw [h.zeros]
      split_ifs
      all_goals omega
    · have hzero := h.zeros_eq_one_iff.1 hone
      have hover := h.over_of_comp_eq_zero hK hzero
      exact ⟨hzero, hover.workers, hover.applied, hover.items⟩
    · exact h.zeros_eq_one_iff.2 (h.comp_eq_zero_of_over hK (h.over_of_stuck hstuck))

/-- Two cores and one remote node: the core `true` plans the item `true`, the remote node the item
`false`. -/
def twoCores : Plan Unit Bool Unit Bool where
  remotes := {()}
  items := {false, true}
  origin i := if i then .inr true else .inl ()
  index _ := ()
  indices := [()]
  indices_nodup := List.nodup_singleton ()
  index_mem := by decide
  origin_mem := by decide

/-- The item of the remote node arrives before its counter message, and the one planned here is the
last thing to be reported. -/
def twoCoresRun : List (Event Unit Bool Bool) :=
  [.callTxns, .flushIndex false, .flushEnd false, .start false false, .finish false,
    .flushIndex true, .peek false, .flushEnd true, .start true true, .workerComplete false,
    .workerComplete true, .counterMessage () false, .extraComplete true, .finish true, .peek true]

theorem phase_ends_once_twoCores :
    ∃ s, run twoCores.step State.init twoCoresRun = some s ∧ s.zeros = 1 ∧
      ∀ i, s.status i = .completed := by
  obtain ⟨s, hs, hone⟩ : ∃ s, run twoCores.step State.init twoCoresRun = some s ∧ s.zeros = 1 := by
    decide +kernel
  have hend := phase_ends_once twoCores (by decide) twoCoresRun s hs
  exact ⟨s, hs, hone, fun i => (hend.2.2.1 hone).2.2.2 i (by cases i <;> decide)⟩

/-- A core keeps what it has to report until its worker completes or `Peek` reports it. -/
theorem Running.Obligated.move {c : C} (h : Running.Obligated s c) (ht : P.Move s ev t)
    (hworker : ev ≠ .workerComplete c) (hpeek : ev ≠ .peek c) : Running.Obligated t c := by
  cases ht with
  | flushIndex hst hx => exact h.setStage (by simp [hst])
  | flushEnd hst hpos => exact h.setStage (by simp [hst])
  | @workerComplete d last hst =>
    have hdc : c ≠ d := fun hdc => hworker (by rw [hdc])
    exact h.imp_right (Or.imp_right fun hl => by
      simpa [Plan.setStage, State.complete, update_of_ne hdc] using hl)
  | extraComplete hst => exact h.setStage (by simp [hst])
  | counterMessage hv happ => exact h
  | start hi => exact h.setStatus _ (by rw [hi.2.1]; simp)
  | @finish i d hst => exact h.finishOn fun hc => by rw [hst] at hc; cases hc; rfl
  | receive hi => exact h.finishOn fun hc => by rw [hi.2.1] at hc; cases hc
  | @peek d hd =>
    have hdc : c ≠ d := fun hdc => hpeek (by rw [hdc])
    exact h.imp_right (Or.imp_left fun hc => by
      simpa [State.complete, update_of_ne hdc] using hc)

theorem Running.Obligated.step {c : C} (h : Running.Obligated s c)
    (hs : s = State.init ∨ Running P s) (ht : P.step s ev = some t)
    (hworker : ev ≠ .workerComplete c) (hpeek : ev ≠ .peek c) : Running.Obligated t c := by
  rcases move_or_callTxns hs ht with ⟨-, -, rfl⟩ | ⟨-, hmove⟩
  · exact .inr (.inr Nat.one_pos)
  · exact h.move hmove hworker hpeek

/-- When the phase is over, no step is possible. -/
theorem Running.Over.not_move (h : Running P s) (hover : Running.Over P s) : ¬ P.Move s ev t := by
  intro ht
  cases ht with
  | @flushIndex c pos x hst hx => rw [hover.workers c] at hst; cases hst
  | @flushEnd c pos hst hpos => rw [hover.workers c] at hst; cases hst
  | @workerComplete c last hst => rw [hover.workers c] at hst; cases hst
  | @extraComplete c hst => rw [hover.workers c] at hst; cases hst
  | @counterMessage v c hv happ => rw [hover.applied v hv] at happ; cases happ
  | @start i c hi =>
    have := hi.2.1
    rw [hover.items i hi.1] at this
    cases this
  | @finish i c hst => exact Over.not_obligated h hover c (.inl ⟨i, hst⟩)
  | @receive i c hi =>
    have := hi.2.1
    rw [hover.items i hi.1] at this
    cases this
  | @peek c hc => exact hc.ne' (hover.counters c)

end

end Felis.Phase
