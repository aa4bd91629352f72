import Felis.Foundations.Collections
import Felis.Phase.Node

/-!
# The completion count of a phase

`Running` is the invariant of a phase that has begun: `comp_count` and what has been reported
together are the bounds of the nodes that have not sent their counters, the counters of those that
have, what the cores have added, one for every worker that has not completed and one for the extra
`Complete`. It follows that the count is the sum of what is outstanding (`Running.comp_eq`), so that
it is never negative and is 0 exactly when the phase is over. `Running.move` says that every step
keeps the invariant.
-/

namespace Felis.Phase

open Finset Runs Sums Function

variable {V C X I : Type} {c : C}

/-! ## What the count is made of -/

/-- The worker of a core has still to complete. -/
def Stage.left : Stage → ℕ
  | .planning _ => 1
  | .issued _ => 1
  | _ => 0

/-- The worker was the last one to flush its plan, and has still to complete for that. -/
def Stage.last : Stage → ℕ
  | .issued last => last.toNat
  | .extra => 1
  | _ => 0

def Status.isCompleted : Status C → Bool
  | .completed => true
  | _ => false

namespace Stage

variable (pos : ℕ) (b : Bool)

@[simp] theorem flushed_planning : (planning pos).flushed = false := rfl

@[simp] theorem flushed_issued : (issued b).flushed = true := rfl

@[simp] theorem flushed_extra : extra.flushed = true := rfl

@[simp] theorem flushed_done : done.flushed = true := rfl

@[simp] theorem left_planning : (planning pos).left = 1 := rfl

@[simp] theorem left_issued : (issued b).left = 1 := rfl

@[simp] theorem left_extra : extra.left = 0 := rfl

@[simp] theorem left_done : done.left = 0 := rfl

@[simp] theorem last_planning : (planning pos).last = 0 := rfl

@[simp] theorem last_issued : (issued b).last = b.toNat := rfl

@[simp] theorem last_extra : extra.last = 1 := rfl

@[simp] theorem last_done : done.last = 0 := rfl

end Stage

@[simp] theorem Status.isCompleted_iff {st : Status C} :
    st.isCompleted = true ↔ st = .completed := by
  cases st <;> simp [Status.isCompleted]

variable [DecidableEq V] [DecidableEq C] {P : Plan V C X I} {s : State V C X I}

variable (P) in
/-- What the count holds for the items of a remote node: the bound, until its message arrives. -/
def Plan.quota (v : V) (applied : Bool) : ℕ :=
  if applied then P.planned (.inl v) else kMaxPiecesPerPhase

variable (P s) in
/-- The items of the node or core `o` that are completed. -/
def Plan.completedOf (o : V ⊕ C) : ℕ := #{i ∈ P.items | P.origin i = o ∧ s.status i = .completed}

theorem Plan.completedOf_le (o : V ⊕ C) : P.completedOf s o ≤ P.planned o :=
  card_le_card fun i hi => by
    simp only [mem_filter] at hi ⊢
    exact ⟨hi.1, hi.2.1⟩

theorem Running.completed_of_card {o : V ⊕ C} (h : P.planned o ≤ P.completedOf s o) {i : I}
    (hi : i ∈ P.items) (ho : P.origin i = o) : s.status i = .completed := by
  have hsub : ({i ∈ P.items | P.origin i = o ∧ s.status i = .completed} : Finset I) ⊆
      {i ∈ P.items | P.origin i = o} := fun j hj => by
    simp only [mem_filter] at hj ⊢
    exact ⟨hj.1, hj.2.1⟩
  have hmem : i ∈ ({i ∈ P.items | P.origin i = o ∧ s.status i = .completed} : Finset I) := by
    rw [eq_of_subset_of_card_le hsub h]
    exact mem_filter.2 ⟨hi, ho⟩
  exact (mem_filter.1 hmem).2.2

/-- The completed items, by who planned them. -/
theorem Running.sum_completed [Fintype C] (s : State V C X I) :
    ∑ i ∈ P.items, (s.status i).isCompleted.toNat =
      ∑ v ∈ P.remotes, P.completedOf s (.inl v) + ∑ c, P.completedOf s (.inr c) := by
  have hof : ∀ o, ∑ i ∈ P.items with P.origin i = o, (s.status i).isCompleted.toNat =
      P.completedOf s o := fun o => by
    simp only [Plan.completedOf, card_filter, sum_filter, ite_and, ← Status.isCompleted_iff,
      Bool.toNat, Bool.cond_eq_ite]
  rw [sum_fiberwise_sumType P.items P.remotes univ P.origin P.origin_mem fun _ _ _ _ => mem_univ _]
  simp only [hof]

theorem Running.completedOf_le_quota
    (hK : ∀ v ∈ P.remotes, P.planned (.inl v) < kMaxPiecesPerPhase) {v : V}
    (hv : v ∈ P.remotes) (applied : Bool) :
    P.completedOf s (.inl v) ≤ P.quota v applied := by
  have hle := P.completedOf_le (s := s) (.inl v)
  have hlt := hK v hv
  cases applied with
  | true => simpa [Plan.quota] using hle
  | false =>
    simp only [Plan.quota, Bool.false_eq_true, if_false]
    omega

variable [DecidableEq X]

namespace Plan

variable (P) in
/-- What a core has added to the count. -/
def added (c : C) : Stage → ℕ
  | .planning pos => ((P.indices.take pos).map (P.count (.inr c))).sum
  | _ => P.planned (.inr c)

/-- The counters of a core add up to what it has planned. -/
theorem sum_count (o : V ⊕ C) : (P.indices.map (P.count o)).sum = P.planned o := by
  have hmaps : ∀ i ∈ ({i ∈ P.items | P.origin i = o} : Finset I), P.index i ∈ P.indices.toFinset :=
    fun i hi => List.mem_toFinset.2 (P.index_mem i (mem_filter.1 hi).1)
  rw [planned, card_eq_sum_card_fiberwise hmaps, List.sum_toFinset _ P.indices_nodup]
  congr 2
  funext x
  rw [count, filter_filter]

theorem added_of_flushed {st : Stage} (h : st.flushed = true) :
    P.added c st = P.planned (.inr c) := by
  cases st with
  | planning pos => cases h
  | issued _ => rfl
  | extra => rfl
  | done => rfl

end Plan

variable [Fintype C]

/-- **The accounting invariant** of a phase that has begun. -/
structure Running (P : Plan V C X I) (s : State V C X I) : Prop where
  begun : s.begun = true
  /-- What has been reported and what is still counted. -/
  balance : s.comp + s.reported = (∑ v ∈ P.remotes, P.quota v (s.applied v) +
    ∑ c, P.added c (s.stage c) + ∑ c, (s.stage c).left + (!s.extraDone).toNat : ℕ)
  /-- A completed item is in a core's counter, or reported. -/
  completed : ∑ i ∈ P.items, (s.status i).isCompleted.toNat = ∑ c, s.counter c + s.reported
  /-- A core has added all its items to the count before they are issued. -/
  issued : ∀ i ∈ P.items, s.status i ≠ .waiting → ∀ c, P.origin i = .inr c →
    (s.stage c).flushed = true
  items : ∀ i c, s.status i = .running c → i ∈ P.items
  batch : s.batchCompleted = ∑ c, (s.stage c).flushed.toNat
  last : ∑ c, (s.stage c).last + s.extraDone.toNat =
    if Fintype.card C ≤ s.batchCompleted then 1 else 0
  zeros : s.zeros = if s.comp = 0 then 1 else 0

namespace Running

theorem completedOf_le_added (h : Running P s) (c : C) :
    P.completedOf s (.inr c) ≤ P.added c (s.stage c) := by
  cases hst : (s.stage c).flushed with
  | true =>
    rw [Plan.added_of_flushed hst]
    exact Plan.completedOf_le _
  | false =>
    -- nothing of a core that has not flushed its plan is issued
    have hzero : P.completedOf s (.inr c) = 0 := by
      rw [Plan.completedOf, card_eq_zero, filter_eq_empty_iff]
      rintro i hi ⟨ho, hdone⟩
      have := h.issued i hi (by rw [hdone]; simp) c ho
      rw [hst] at this
      cases this
    omega

/-- The count is the sum of what is outstanding. -/
theorem comp_eq (h : Running P s)
    (hK : ∀ v ∈ P.remotes, P.planned (.inl v) < kMaxPiecesPerPhase) :
    s.comp = (∑ v ∈ P.remotes, (P.quota v (s.applied v) - P.completedOf s (.inl v)) +
      ∑ c, (P.added c (s.stage c) - P.completedOf s (.inr c)) + ∑ c, s.counter c +
      ∑ c, (s.stage c).left + (!s.extraDone).toNat : ℕ) := by
  have hremote : ∑ v ∈ P.remotes, P.quota v (s.applied v) =
      ∑ v ∈ P.remotes, (P.quota v (s.applied v) - P.completedOf s (.inl v)) +
        ∑ v ∈ P.remotes, P.completedOf s (.inl v) := by
    rw [← sum_add_distrib]
    exact sum_congr rfl fun v hv => (Nat.sub_add_cancel (completedOf_le_quota hK hv _)).symm
  have hlocal : ∑ c, P.added c (s.stage c) =
      ∑ c, (P.added c (s.stage c) - P.completedOf s (.inr c)) + ∑ c, P.completedOf s (.inr c) := by
    rw [← sum_add_distrib]
    exact sum_congr rfl fun c _ => (Nat.sub_add_cancel (h.completedOf_le_added c)).symm
  have hbalance := h.balance
  have hcompleted := h.completed
  rw [sum_completed] at hcompleted
  rw [hremote, hlocal] at hbalance
  omega

theorem comp_nonneg (h : Running P s)
    (hK : ∀ v ∈ P.remotes, P.planned (.inl v) < kMaxPiecesPerPhase) : 0 ≤ s.comp := by
  rw [h.comp_eq hK]
  exact Int.natCast_nonneg _

/-- What is over when the count is 0. -/
structure Over (P : Plan V C X I) (s : State V C X I) : Prop where
  workers : ∀ c, s.stage c = .done
  applied : ∀ v ∈ P.remotes, s.applied v = true
  items : ∀ i ∈ P.items, s.status i = .completed
  counters : ∀ c, s.counter c = 0

/-- A core with something of its own that it has not reported: it runs an item, it has counted one,
or its worker has not completed. -/
def Obligated (s : State V C X I) (c : C) : Prop :=
  (∃ i, s.status i = .running c) ∨ 0 < s.counter c ∨ 0 < (s.stage c).left

section

variable (h : Running P s)

include h

theorem over_of_comp_eq_zero (hK : ∀ v ∈ P.remotes, P.planned (.inl v) < kMaxPiecesPerPhase)
    (hzero : s.comp = 0) : Over P s := by
  have hsum := h.comp_eq hK
  rw [hzero, eq_comm, Nat.cast_eq_zero] at hsum
  simp only [add_eq_zero, sum_eq_zero_iff, mem_univ, true_implies] at hsum
  obtain ⟨⟨⟨⟨hremote, hlocal⟩, hcounter⟩, hleft⟩, hextra⟩ := hsum
  have hdone : s.extraDone = true := by simpa using hextra
  have hlast : ∑ c, (s.stage c).last = 0 := by
    have := h.last
    rw [hdone, Bool.toNat_true] at this
    split_ifs at this
    omega
  rw [sum_eq_zero_iff] at hlast
  have hworkers : ∀ c, s.stage c = .done := fun c => by
    have hl := hleft c
    have hx := hlast c (mem_univ c)
    cases hst : s.stage c with
    | planning pos => simp [hst] at hl
    | issued last => simp [hst] at hl
    | extra => simp [hst] at hx
    | done => rfl
  have happlied : ∀ v ∈ P.remotes, s.applied v = true := fun v hv => by
    by_contra hne
    have hq := hremote v hv
    have hlt := hK v hv
    have hle := P.completedOf_le (s := s) (.inl v)
    simp only [Plan.quota, hne, if_false] at hq
    omega
  refine ⟨hworkers, happlied, fun i hi => ?_, hcounter⟩
  cases ho : P.origin i with
  | inl v =>
    have hq := hremote v (P.origin_mem i hi v ho)
    rw [Plan.quota, if_pos (happlied v (P.origin_mem i hi v ho))] at hq
    exact completed_of_card (by omega) hi ho
  | inr c =>
    have hq := hlocal c
    rw [hworkers c] at hq
    exact completed_of_card (Nat.sub_eq_zero_iff_le.1 hq) hi ho

theorem comp_eq_zero_of_over (hK : ∀ v ∈ P.remotes, P.planned (.inl v) < kMaxPiecesPerPhase)
    (hover : Over P s) : s.comp = 0 := by
  have hbatch : s.batchCompleted = Fintype.card C := by
    simp [h.batch, hover.workers]
  have hdone : s.extraDone = true := by
    have := h.last
    rw [hbatch, if_pos le_rfl] at this
    simpa [hover.workers] using this
  have hall : ∀ o, P.completedOf s o = P.planned o := fun o => by
    rw [Plan.completedOf, Plan.planned]
    congr 1
    ext i
    simp only [mem_filter]
    exact ⟨fun hi => ⟨hi.1, hi.2.1⟩, fun hi => ⟨hi.1, hi.2, hover.items i hi.1⟩⟩
  rw [h.comp_eq hK, Nat.cast_eq_zero]
  simp only [add_eq_zero, sum_eq_zero_iff, mem_univ, true_implies]
  refine ⟨⟨⟨⟨fun v hv => ?_, fun c => ?_⟩, hover.counters⟩, fun c => ?_⟩, by simp [hdone]⟩
  · rw [Plan.quota, if_pos (hover.applied v hv), hall, Nat.sub_self]
  · rw [hover.workers c, hall]
    exact Nat.sub_self _
  · rw [hover.workers c]
    rfl

theorem Over.not_obligated (hover : Over P s) (c : C) : ¬ Obligated s c := by
  rintro (⟨i, hi⟩ | hc | hc)
  · have := hover.items i (h.items i c hi)
    rw [hi] at this
    cases this
  · exact hc.ne' (hover.counters c)
  · rw [hover.workers c] at hc
    exact absurd hc (Nat.lt_irrefl 0)

/-- While a core has something to report, the count is positive. -/
theorem comp_pos_of_obligated (hK : ∀ v ∈ P.remotes, P.planned (.inl v) < kMaxPiecesPerPhase)
    (hc : Obligated s c) : 0 < s.comp := by
  refine lt_of_le_of_ne (h.comp_nonneg hK) fun hzero => ?_
  exact Over.not_obligated h (h.over_of_comp_eq_zero hK hzero.symm) c hc

theorem comp_pos_of_unapplied (hK : ∀ v ∈ P.remotes, P.planned (.inl v) < kMaxPiecesPerPhase)
    {v : V} (hv : v ∈ P.remotes) (happ : s.applied v = false) : 0 < s.comp := by
  refine lt_of_le_of_ne (h.comp_nonneg hK) fun hzero => ?_
  have := (h.over_of_comp_eq_zero hK hzero.symm).applied v hv
  rw [happ] at this
  cases this

theorem comp_pos_of_extra (hK : ∀ v ∈ P.remotes, P.planned (.inl v) < kMaxPiecesPerPhase)
    (hc : s.stage c = .extra) : 0 < s.comp := by
  refine lt_of_le_of_ne (h.comp_nonneg hK) fun hzero => ?_
  have := (h.over_of_comp_eq_zero hK hzero.symm).workers c
  rw [hc] at this
  cases this

end

/-! ## Steps -/

/-- What a sum over the cores is after one of them has moved to another stage. -/
theorem sums_setStage (P : Plan V C X I) (stage : C → Stage) (c : C) (st : Stage) :
    (∑ d, P.added d (update stage c st d) + P.added c (stage c) =
      ∑ d, P.added d (stage d) + P.added c st) ∧
    (∑ d, (update stage c st d).left + (stage c).left =
      ∑ d, (stage d).left + st.left) ∧
    (∑ d, (update stage c st d).last + (stage c).last =
      ∑ d, (stage d).last + st.last) ∧
    (∑ d, (update stage c st d).flushed.toNat + (stage c).flushed.toNat =
      ∑ d, (stage d).flushed.toNat + st.flushed.toNat) :=
  ⟨sum_update_add univ P.added stage (mem_univ c) st,
    sum_update_add univ (fun _ => Stage.left) stage (mem_univ c) st,
    sum_update_add univ (fun _ => Stage.last) stage (mem_univ c) st,
    sum_update_add univ (fun _ st => (Stage.flushed st).toNat) stage (mem_univ c) st⟩

theorem issued_setStage (h : Running P s) (c : C) (st : Stage)
    (hst : (s.stage c).flushed = true → st.flushed = true) :
    ∀ i ∈ P.items, s.status i ≠ .waiting → ∀ d, P.origin i = .inr d →
      ((Plan.setStage s c st).stage d).flushed = true :=
  fun i hi hne d hd => Plan.flushed_setStage hst (h.issued i hi hne d hd)

section

variable (h : Running P s) (hK : ∀ v ∈ P.remotes, P.planned (.inl v) < kMaxPiecesPerPhase)
include h hK

omit hK in
theorem zeros_of_pos (hpos : 0 < s.comp) : s.zeros = 0 := by
  rw [h.zeros, if_neg hpos.ne']

theorem flushIndex {pos : ℕ} {x : X} (hst : s.stage c = .planning pos)
    (hx : P.indices[pos]? = some x) :
    Running P { Plan.setStage s c (.planning (pos + 1)) with
      total := update s.total x (s.total x + P.count (.inr c) x)
      comp := s.comp + P.count (.inr c) x } := by
  have hpos := h.comp_pos_of_obligated hK (c := c) (.inr (.inr (by rw [hst]; exact Nat.one_pos)))
  have hadd : P.added c (.planning (pos + 1)) =
      P.added c (.planning pos) + P.count (.inr c) x := by
    rw [Plan.added, Plan.added, List.take_add_one, hx]
    simp
  obtain ⟨hadded, hleft, hlast, hflushed⟩ := sums_setStage P s.stage c (.planning (pos + 1))
  rw [hst] at hadded hleft hlast hflushed
  simp only [Stage.left_planning, Stage.last_planning, Stage.flushed_planning, Bool.toNat_false]
    at hleft hlast hflushed
  have hbalance := h.balance
  have hbatch := h.batch
  have hissued := h.issued_setStage c (.planning (pos + 1)) (by rw [hst]; exact id)
  refine ⟨h.begun, ?_, h.completed, hissued, h.items, ?_, ?_, ?_⟩
  · simp only [Plan.setStage]
    omega
  · simp only [Plan.setStage]
    omega
  · simp only [Plan.setStage, Nat.add_right_cancel hlast]
    exact h.last
  · have hne : s.comp + (P.count (.inr c) x : ℤ) ≠ 0 := by omega
    simp only [Plan.setStage, if_neg hne, h.zeros_of_pos hpos]

omit hK in
theorem flushEnd {pos : ℕ} (hst : s.stage c = .planning pos) (hpos : P.indices.length ≤ pos) :
    Running P { Plan.setStage s c (.issued (decide (Fintype.card C ≤ s.batchCompleted + 1))) with
      batchCompleted := s.batchCompleted + 1 } := by
  obtain ⟨hadded, hleft, hlast, hflushed⟩ := sums_setStage P s.stage c
    (.issued (decide (Fintype.card C ≤ s.batchCompleted + 1)))
  rw [hst] at hadded hleft hlast hflushed
  simp only [Stage.left_planning, Stage.last_planning, Stage.flushed_planning, Stage.left_issued,
    Stage.last_issued, Stage.flushed_issued, Bool.toNat_false, Bool.toNat_true]
    at hleft hlast hflushed
  have hall : P.added c (.planning pos) = P.planned (.inr c) := by
    rw [Plan.added, List.take_of_length_le hpos, Plan.sum_count]
  rw [hall, Plan.added_of_flushed (Stage.flushed_issued _)] at hadded
  have hbalance := h.balance
  have hbatch := h.batch
  have hold := h.last
  have hissued := h.issued_setStage c
    (.issued (decide (Fintype.card C ≤ s.batchCompleted + 1))) fun _ => rfl
  -- not every core had flushed its plan before
  have hlt : s.batchCompleted < Fintype.card C := by
    have hle : ∑ d, (update s.stage c (.issued (decide
        (Fintype.card C ≤ s.batchCompleted + 1))) d).flushed.toNat ≤ ∑ _d : C, 1 :=
      sum_le_sum fun d _ => Bool.toNat_le _
    rw [sum_const, card_univ, smul_eq_mul, mul_one] at hle
    omega
  refine ⟨h.begun, ?_, h.completed, hissued, h.items, ?_, ?_, h.zeros⟩
  · simp only [Plan.setStage]
    omega
  · simp only [Plan.setStage]
    omega
  · simp only [Plan.setStage]
    rw [if_neg (by omega)] at hold
    by_cases hT : Fintype.card C ≤ s.batchCompleted + 1
    · rw [if_pos hT]
      simp only [hT, decide_true, Bool.toNat_true] at hlast ⊢
      omega
    · rw [if_neg hT]
      simp only [hT, decide_false, Bool.toNat_false] at hlast ⊢
      omega

theorem workerComplete {last : Bool} (hst : s.stage c = .issued last) :
    Running P (Plan.setStage (s.complete 1) c (if last then .extra else .done)) := by
  have hpos := h.comp_pos_of_obligated hK (c := c) (.inr (.inr (by rw [hst]; exact Nat.one_pos)))
  obtain ⟨hadded, hleft, hlast, hflushed⟩ := sums_setStage P s.stage c
    (if last then .extra else .done)
  have hflush : (if last then Stage.extra else .done).flushed = true := by cases last <;> rfl
  have hleft' : (if last then Stage.extra else .done).left = 0 := by cases last <;> rfl
  have hlast' : (if last then Stage.extra else .done).last = last.toNat := by cases last <;> rfl
  rw [hst] at hadded hleft hlast hflushed
  rw [hflush, Stage.flushed_issued] at hflushed
  rw [Plan.added_of_flushed hflush, Plan.added_of_flushed (Stage.flushed_issued _)] at hadded
  rw [hleft', Stage.left_issued] at hleft
  rw [hlast', Stage.last_issued] at hlast
  have hbalance := h.balance
  have hissued := h.issued_setStage c (if last then .extra else .done) fun _ => hflush
  refine ⟨h.begun, ?_, h.completed, hissued, h.items, ?_, ?_, ?_⟩
  · simp only [Plan.setStage, State.complete]
    omega
  · simp only [Plan.setStage, State.complete, h.batch]
    omega
  · simp only [Plan.setStage, State.complete, Nat.add_right_cancel hlast]
    exact h.last
  · simp [Plan.setStage, State.complete, h.zeros_of_pos hpos]

theorem extraComplete (hst : s.stage c = .extra) :
    Running P { Plan.setStage (s.complete 1) c .done with extraDone := true } := by
  have hpos := h.comp_pos_of_extra hK hst
  obtain ⟨hadded, hleft, hlast, hflushed⟩ := sums_setStage P s.stage c .done
  rw [hst] at hadded hleft hlast hflushed
  rw [Plan.added_of_flushed Stage.flushed_extra, Plan.added_of_flushed Stage.flushed_done] at hadded
  simp only [Stage.left_extra, Stage.left_done, Stage.last_extra, Stage.last_done,
    Stage.flushed_extra, Stage.flushed_done] at hleft hlast hflushed
  have hbalance := h.balance
  have hold := h.last
  have hissued := h.issued_setStage c .done fun _ => rfl
  have hdone : s.extraDone = false := by
    cases hx : s.extraDone with
    | false => rfl
    | true =>
      rw [hx, Bool.toNat_true] at hold
      split_ifs at hold
      all_goals omega
  rw [hdone] at hbalance hold
  refine ⟨h.begun, ?_, h.completed, hissued, h.items, ?_, ?_, ?_⟩
  · simp only [Plan.setStage, State.complete]
    simp only [Bool.not_false, Bool.not_true, Bool.toNat_true, Bool.toNat_false] at hbalance ⊢
    omega
  · simp only [Plan.setStage, State.complete, h.batch]
    omega
  · change _ = if Fintype.card C ≤ s.batchCompleted then 1 else 0
    simp only [Plan.setStage, State.complete, ← hold, Bool.toNat_true, Bool.toNat_false]
    omega
  · simp [Plan.setStage, State.complete, h.zeros_of_pos hpos]

theorem counterMessage {v : V} (hv : v ∈ P.remotes) (happ : s.applied v = false) :
    Running P { s.complete (kMaxPiecesPerPhase - P.planned (.inl v)) with
      total := fun x => s.total x + P.count (.inl v) x
      applied := update s.applied v true } := by
  have hpos := h.comp_pos_of_unapplied hK hv happ
  have hquota := sum_update_add P.remotes P.quota s.applied hv true
  simp only [Plan.quota, happ, Bool.false_eq_true, if_false, if_true] at hquota
  have hbalance := h.balance
  refine ⟨h.begun, ?_, h.completed, h.issued, h.items, h.batch, h.last, ?_⟩
  · simp only [State.complete, Plan.quota] at hbalance ⊢
    omega
  · simp [State.complete, h.zeros_of_pos hpos]

theorem peek (hc : 0 < s.counter c) :
    Running P { s.complete (s.counter c) with
      counter := update s.counter c 0
      reported := s.reported + s.counter c } := by
  have hpos := h.comp_pos_of_obligated hK (c := c) (.inr (.inl hc))
  have hcount := sum_update_add univ (fun _ n => n) s.counter (mem_univ c) 0
  have hbalance := h.balance
  have hcompleted := h.completed
  refine ⟨h.begun, ?_, ?_, h.issued, h.items, h.batch, h.last, ?_⟩
  · simp only [State.complete]
    push_cast at hbalance ⊢
    omega
  · simp only [State.complete]
    omega
  · simp [State.complete, h.zeros_of_pos hpos]

variable [DecidableEq I]

omit hK in
theorem start {i : I} (hi : P.issuable s i) : Running P (Plan.setStatus s i (.running c)) := by
  obtain ⟨hmem, hwait, horigin⟩ := hi
  have hsum := sum_update_add P.items (fun _ st => (Status.isCompleted st).toNat) s.status hmem
    (.running c)
  rw [hwait] at hsum
  refine ⟨h.begun, h.balance, ?_, fun j hj hne d hd => ?_, fun j d hj => ?_, h.batch, h.last,
    h.zeros⟩
  · exact (Nat.add_right_cancel hsum).trans h.completed
  · by_cases hji : j = i
    · subst hji
      exact horigin d hd
    · exact h.issued j hj (by simpa [Plan.setStatus, hji] using hne) d hd
  · by_cases hji : j = i
    · rw [hji]
      exact hmem
    · exact h.items j d (by simpa [Plan.setStatus, hji] using hj)

omit hK in
theorem finishOn {i : I} (hmem : i ∈ P.items) (hne : s.status i ≠ .completed)
    (horigin : ∀ d, P.origin i = .inr d → (s.stage d).flushed = true) :
    Running P (Plan.finishOn s i c) := by
  have hsum := sum_update_add P.items (fun _ st => (Status.isCompleted st).toNat) s.status hmem
    .completed
  have hcount := sum_update_add univ (fun _ n => n) s.counter (mem_univ c) (s.counter c + 1)
  have hzero : (s.status i).isCompleted = false := by
    rw [Bool.eq_false_iff, ne_eq, Status.isCompleted_iff]
    exact hne
  rw [hzero] at hsum
  have hcompleted := h.completed
  refine ⟨h.begun, h.balance, ?_, fun j hj hw d hd => ?_, fun j d hj => ?_, h.batch, h.last,
    h.zeros⟩
  · rw [show (Status.completed : Status C).isCompleted = true from rfl, Bool.toNat_true,
      Bool.toNat_false] at hsum
    simp only [Plan.finishOn, Plan.setStatus]
    omega
  · by_cases hji : j = i
    · subst hji
      exact horigin d hd
    · exact h.issued j hj (by simpa [Plan.finishOn, Plan.setStatus, hji] using hw) d hd
  · by_cases hji : j = i
    · rw [hji]
      exact hmem
    · exact h.items j d (by simpa [Plan.finishOn, Plan.setStatus, hji] using hj)

/-- **Every step keeps the accounts.** -/
theorem move {ev : Event V C I} {t : State V C X I} (ht : P.Move s ev t) : Running P t := by
  cases ht with
  | flushIndex hst hx => exact h.flushIndex hK hst hx
  | flushEnd hst hpos => exact h.flushEnd hst hpos
  | workerComplete hst => exact h.workerComplete hK hst
  | extraComplete hst => exact h.extraComplete hK hst
  | counterMessage hv happ => exact h.counterMessage hK hv happ
  | start hi => exact h.start hi
  | @finish i c hst =>
    have hmem := h.items i c hst
    exact h.finishOn hmem (by rw [hst]; simp) (h.issued i hmem (by rw [hst]; simp))
  | receive hi => exact h.finishOn hi.1 (by rw [hi.2.1]; simp) hi.2.2
  | peek hc => exact h.peek hK hc

end

end Running

end Felis.Phase
