import Mathlib.Data.Fintype.Card
import Felis.Foundations.Runs

/-!
# One phase on one node

`EpochClient::CallTxns` starts a phase. Every core then plans the pieces and futures of its
transactions, adds its counters to those of the node (`FlushBufferPlan`), issues the pieces and
completes; the other nodes announce in one counter message each what they have planned for this
node. The phase is over when `comp_count` of the `CompletionObject` is 0. It starts from a bound on
what the other nodes may announce, is raised by the counters of the cores, corrected by the messages
and lowered by the completions.

The model has one node and one phase. `Plan` is what all nodes have planned for this node: the items
(pieces and futures) with the one who planned each, a remote node or a core of this node, and the
counter that counts it. Every atomic operation on the shared counters is one step. The last three
fields of `State` are no part of the program.
-/

namespace Felis.Phase

open Finset Function

/-- `EpochClient::kMaxPiecesPerPhase`. -/
def kMaxPiecesPerPhase : ℕ := 12800000

/-- What is planned for one node in one phase, by the remote nodes `V` and the cores `C`. The
counters `X` are those of `total_batch_counters` with this node as the destination, in the order in
which `FlushBufferPlan` visits them. -/
structure Plan (V C X I : Type) where
  remotes : Finset V
  items : Finset I
  origin : I → V ⊕ C
  index : I → X
  indices : List X
  indices_nodup : indices.Nodup
  index_mem : ∀ i ∈ items, index i ∈ indices
  origin_mem : ∀ i ∈ items, ∀ v, origin i = .inl v → v ∈ remotes

/-- How far the worker of a core is. -/
inductive Stage
  /-- In front of the loop of `FlushBufferPlan`, or in it, at the given counter. -/
  | planning (pos : ℕ)
  /-- `FlushBufferPlan` has returned `last`; the worker issues its pieces. -/
  | issued (last : Bool)
  /-- The worker has completed, and completes once more because it was the last one. -/
  | extra
  | done
  deriving DecidableEq

inductive Status (C : Type)
  | waiting
  | running (c : C)
  | completed
  deriving DecidableEq

structure State (V C X I : Type) where
  comp : ℤ
  begun : Bool
  total : X → ℕ
  stage : C → Stage
  batchCompleted : ℕ
  applied : V → Bool
  status : I → Status C
  /-- `complete_counter.completed` of each core. -/
  counter : C → ℕ
  /-- How often `Complete` has brought `comp_count` to 0. -/
  zeros : ℕ
  /-- How many items `Peek` has reported. -/
  reported : ℕ
  extraDone : Bool

inductive Event (V C I : Type)
  | callTxns
  /-- One counter in the loop of `FlushBufferPlan`. -/
  | flushIndex (c : C)
  | flushEnd (c : C)
  /-- `completion.Complete()` at the end of the worker. -/
  | workerComplete (c : C)
  /-- The second one, `if (node_finished)`. -/
  | extraComplete (c : C)
  /-- `UpdateBatchCountersFromReceiver` for the message of `v`, on the core `c`. -/
  | counterMessage (v : V) (c : C)
  | start (i : I) (c : C)
  | finish (i : I)
  /-- The core receives a future, and counts it. -/
  | receive (i : I) (c : C)
  /-- `Peek` finds the queue of the core empty and reports what the core has counted. -/
  | peek (c : C)
  deriving DecidableEq

section

variable {V C X I : Type}

def State.init : State V C X I where
  comp := 0
  begun := false
  total := fun _ => 0
  stage := fun _ => .planning 0
  batchCompleted := 0
  applied := fun _ => false
  status := fun _ => .waiting
  counter := fun _ => 0
  zeros := 0
  reported := 0
  extraDone := false

/-- `FlushBufferPlan` has returned on this core. -/
def Stage.flushed : Stage → Bool
  | .planning _ => false
  | _ => true

/-- The worker of the core has flushed its plan, and has not completed. -/
def Stage.isIssued : Stage → Bool
  | .issued _ => true
  | _ => false

/-- The core that makes a step, when it is one of a core. -/
def State.actor (s : State V C X I) : Event V C I → Option C
  | .callTxns => none
  | .flushIndex c => some c
  | .flushEnd c => some c
  | .workerComplete c => some c
  | .extraComplete c => some c
  | .counterMessage _ c => some c
  | .start _ c => some c
  | .finish i =>
    match s.status i with
    | .running c => some c
    | _ => none
  | .receive _ c => some c
  | .peek c => some c

/-- `CompletionObject::Complete(dec)`. The code aborts when the count gets negative. -/
def State.complete (s : State V C X I) (dec : ℤ) : State V C X I :=
  { s with
    comp := s.comp - dec
    zeros := s.zeros + if s.comp - dec = 0 then 1 else 0 }

variable [DecidableEq C]

def Plan.setStage (s : State V C X I) (c : C) (st : Stage) : State V C X I :=
  { s with stage := update s.stage c st }

theorem Plan.flushed_setStage {s : State V C X I} {c d : C} {st : Stage}
    (hst : (s.stage d).flushed = true → st.flushed = true)
    (hc : (s.stage c).flushed = true) : ((setStage s d st).stage c).flushed = true := by
  by_cases hcd : c = d
  · subst hcd
    simpa [setStage] using hst hc
  · simpa [setStage, update_of_ne hcd] using hc

theorem Plan.isIssued_setStage {s : State V C X I} {c d : C} {st : Stage}
    (hst : c = d → (s.stage d).isIssued = true → st.isIssued = true)
    (hc : (s.stage c).isIssued = true) : ((setStage s d st).stage c).isIssued = true := by
  by_cases hcd : c = d
  · subst hcd
    simpa [setStage] using hst rfl hc
  · simpa [setStage, update_of_ne hcd] using hc

variable [DecidableEq V] [DecidableEq X] [DecidableEq I] [Fintype C]

namespace Plan

variable (P : Plan V C X I)

/-- What the node or core `o` has planned for this node under the counter `x`. -/
def count (o : V ⊕ C) (x : X) : ℕ := #{i ∈ P.items | P.origin i = o ∧ P.index i = x}

/-- All it has planned for this node. -/
def planned (o : V ⊕ C) : ℕ := #{i ∈ P.items | P.origin i = o}

/-- An item planned on this node is issued after `FlushBufferPlan` has returned on its core. -/
def issuable (s : State V C X I) (i : I) : Prop :=
  i ∈ P.items ∧ s.status i = .waiting ∧ ∀ c, P.origin i = .inr c → (s.stage c).flushed = true

instance (s : State V C X I) (i : I) : Decidable (P.issuable s i) := by
  unfold issuable
  infer_instance

def setStatus (s : State V C X I) (i : I) (st : Status C) : State V C X I :=
  { s with status := update s.status i st }

/-- `svc.Complete(core)`: the item is done, and its core counts it. -/
def finishOn (s : State V C X I) (i : I) (c : C) : State V C X I :=
  { setStatus s i .completed with counter := update s.counter c (s.counter c + 1) }

/-- The steps of a phase that has begun. -/
def stepBegun (s : State V C X I) : Event V C I → Option (State V C X I)
  | .callTxns => none
  | .flushIndex c =>
    match s.stage c with
    | .planning pos =>
      (P.indices[pos]?).map fun x =>
        let counter := P.count (.inr c) x
        { setStage s c (.planning (pos + 1)) with
          total := update s.total x (s.total x + counter)
          comp := s.comp + counter }
    | _ => none
  | .flushEnd c =>
    match s.stage c with
    | .planning pos =>
      if P.indices.length ≤ pos then
        some { setStage s c (.issued (decide (Fintype.card C ≤ s.batchCompleted + 1))) with
          batchCompleted := s.batchCompleted + 1 }
      else none
    | _ => none
  | .workerComplete c =>
    match s.stage c with
    | .issued last => some (setStage (s.complete 1) c (if last then .extra else .done))
    | _ => none
  | .extraComplete c =>
    if s.stage c = .extra then some { setStage (s.complete 1) c .done with extraDone := true }
    else none
  | .counterMessage v _ =>
    if v ∈ P.remotes ∧ s.applied v = false then
      some { s.complete (kMaxPiecesPerPhase - P.planned (.inl v)) with
        total := fun x => s.total x + P.count (.inl v) x
        applied := update s.applied v true }
    else none
  | .start i c => if P.issuable s i then some (setStatus s i (.running c)) else none
  | .finish i =>
    match s.status i with
    | .running c => some (finishOn s i c)
    | _ => none
  | .receive i c => if P.issuable s i then some (finishOn s i c) else none
  | .peek c =>
    if 0 < s.counter c then
      some { s.complete (s.counter c) with
        counter := update s.counter c 0
        reported := s.reported + s.counter c }
    else none

/-- What the steps of a phase do, with their conditions. -/
inductive Move (s : State V C X I) : Event V C I → State V C X I → Prop
  | flushIndex {c : C} {pos : ℕ} {x : X} (hst : s.stage c = .planning pos)
      (hx : P.indices[pos]? = some x) : Move s (.flushIndex c)
      { setStage s c (.planning (pos + 1)) with
        total := update s.total x (s.total x + P.count (.inr c) x)
        comp := s.comp + P.count (.inr c) x }
  | flushEnd {c : C} {pos : ℕ} (hst : s.stage c = .planning pos) (hpos : P.indices.length ≤ pos) :
      Move s (.flushEnd c)
      { setStage s c (.issued (decide (Fintype.card C ≤ s.batchCompleted + 1))) with
        batchCompleted := s.batchCompleted + 1 }
  | workerComplete {c : C} {last : Bool} (hst : s.stage c = .issued last) :
      Move s (.workerComplete c) (setStage (s.complete 1) c (if last then .extra else .done))
  | extraComplete {c : C} (hst : s.stage c = .extra) :
      Move s (.extraComplete c) { setStage (s.complete 1) c .done with extraDone := true }
  | counterMessage {v : V} {c : C} (hv : v ∈ P.remotes) (happ : s.applied v = false) :
      Move s (.counterMessage v c)
      { s.complete (kMaxPiecesPerPhase - P.planned (.inl v)) with
        total := fun x => s.total x + P.count (.inl v) x
        applied := update s.applied v true }
  | start {i : I} {c : C} (hi : P.issuable s i) : Move s (.start i c) (setStatus s i (.running c))
  | finish {i : I} {c : C} (hst : s.status i = .running c) : Move s (.finish i) (finishOn s i c)
  | receive {i : I} {c : C} (hi : P.issuable s i) : Move s (.receive i c) (finishOn s i c)
  | peek {c : C} (hc : 0 < s.counter c) : Move s (.peek c)
      { s.complete (s.counter c) with
        counter := update s.counter c 0
        reported := s.reported + s.counter c }

variable {P} in
theorem move_of_stepBegun {s t : State V C X I} {ev : Event V C I}
    (ht : P.stepBegun s ev = some t) : P.Move s ev t := by
  cases ev with
  | callTxns => cases ht
  | flushIndex c =>
    simp only [stepBegun] at ht
    split at ht
    next pos hst =>
      obtain ⟨x, hx, rfl⟩ := Option.map_eq_some_iff.1 ht
      exact .flushIndex hst hx
    next => cases ht
  | flushEnd c =>
    simp only [stepBegun] at ht
    split at ht
    next pos hst =>
      split_ifs at ht with hpos
      cases ht
      exact .flushEnd hst hpos
    next => cases ht
  | workerComplete c =>
    simp only [stepBegun] at ht
    split at ht
    next last hst =>
      cases ht
      exact .workerComplete hst
    next => cases ht
  | extraComplete c =>
    simp only [stepBegun] at ht
    split_ifs at ht with hst
    cases ht
    exact .extraComplete hst
  | counterMessage v c =>
    simp only [stepBegun] at ht
    split_ifs at ht with hv
    cases ht
    exact .counterMessage hv.1 hv.2
  | start i c =>
    simp only [stepBegun] at ht
    split_ifs at ht with hi
    cases ht
    exact .start hi
  | finish i =>
    simp only [stepBegun] at ht
    split at ht
    next c hst =>
      cases ht
      exact .finish hst
    next => cases ht
  | receive i c =>
    simp only [stepBegun] at ht
    split_ifs at ht with hi
    cases ht
    exact .receive hi
  | peek c =>
    simp only [stepBegun] at ht
    split_ifs at ht with hc
    cases ht
    exact .peek hc

variable {P} {s t : State V C X I} {ev : Event V C I}

theorem Move.begun_eq (h : P.Move s ev t) : t.begun = s.begun := by
  cases h <;> rfl

theorem Move.applied_eq (h : P.Move s ev t) (hev : ∀ v c, ev ≠ .counterMessage v c) :
    t.applied = s.applied := by
  cases h with
  | @counterMessage v c hv happ => exact absurd rfl (hev v c)
  | _ => rfl

/-- A core that has flushed its plan does not go back. -/
theorem Move.flushed (h : P.Move s ev t) {c : C} (hc : (s.stage c).flushed = true) :
    (t.stage c).flushed = true := by
  cases h with
  | flushIndex hst hx => exact flushed_setStage (by rw [hst]; exact id) hc
  | flushEnd hst hpos => exact flushed_setStage (fun _ => rfl) hc
  | @workerComplete d last hst =>
    exact flushed_setStage (s := s.complete 1) (fun _ => by cases last <;> rfl) hc
  | extraComplete hst => exact flushed_setStage (s := s.complete 1) (fun _ => rfl) hc
  | counterMessage hv happ => exact hc
  | start hi => exact hc
  | finish hst => exact hc
  | receive hi => exact hc
  | peek hd => exact hc

theorem Move.isIssued (h : P.Move s ev t) {c : C} (hev : ev ≠ .workerComplete c)
    (hc : (s.stage c).isIssued = true) : (t.stage c).isIssued = true := by
  cases h with
  | flushIndex hst hx => exact isIssued_setStage (fun _ h => by rw [hst] at h; cases h) hc
  | flushEnd hst hpos => exact isIssued_setStage (fun _ _ => rfl) hc
  | @workerComplete d last hst =>
    exact isIssued_setStage (s := s.complete 1) (fun hcd => absurd (by rw [hcd]) hev) hc
  | extraComplete hst =>
    exact isIssued_setStage (s := s.complete 1) (fun _ h => by
      change (s.stage _).isIssued = true at h
      rw [hst] at h
      cases h) hc
  | counterMessage hv happ => exact hc
  | start hi => exact hc
  | finish hst => exact hc
  | receive hi => exact hc
  | peek hd => exact hc

theorem Move.completed (h : P.Move s ev t) {i : I} (hi : s.status i = .completed) :
    t.status i = .completed := by
  have hne : ∀ {j : I} {st : Status C}, s.status j ≠ .completed →
      update s.status j st i = .completed := fun {j st} hj => by
    have hij : i ≠ j := by
      rintro rfl
      exact hj hi
    rw [update_of_ne hij, hi]
  cases h with
  | start hj => exact hne (by rw [hj.2.1]; simp)
  | finish hst => exact hne (by rw [hst]; simp)
  | receive hj => exact hne (by rw [hj.2.1]; simp)
  | flushIndex hst hx => exact hi
  | flushEnd hst hpos => exact hi
  | workerComplete hst => exact hi
  | extraComplete hst => exact hi
  | counterMessage hv happ => exact hi
  | peek hc => exact hi

theorem Move.waiting (h : P.Move s ev t) {i : I} (hi : s.status i = .waiting)
    (hstart : ∀ c, ev ≠ .start i c) (hreceive : ∀ c, ev ≠ .receive i c) :
    t.status i = .waiting := by
  have hne : ∀ {j : I} {st : Status C}, i ≠ j → update s.status j st i = .waiting :=
    fun hij => (update_of_ne hij _ _).trans hi
  cases h with
  | start hj => exact hne (by rintro rfl; exact hstart _ rfl)
  | finish hst =>
    refine hne fun hij => ?_
    rw [← hij, hi] at hst
    cases hst
  | receive hj => exact hne (by rintro rfl; exact hreceive _ rfl)
  | flushIndex hst hx => exact hi
  | flushEnd hst hpos => exact hi
  | workerComplete hst => exact hi
  | extraComplete hst => exact hi
  | counterMessage hv happ => exact hi
  | peek hc => exact hi

variable (P)

/-- `CallTxns`: `ResetBufferPlan`, `Increment`, and the reset of the workers. -/
def callTxns (s : State V C X I) : State V C X I :=
  { s with
    comp := s.comp + (#P.remotes * kMaxPiecesPerPhase + 1 + Fintype.card C : ℕ)
    begun := true
    total := fun _ => 0
    stage := fun _ => .planning 0
    batchCompleted := 0
    applied := fun _ => false
    zeros := 0
    reported := 0
    extraDone := false }

/-- One step. Nothing happens on the node before `CallTxns` has raised the count: it wakes up the
workers and lets in the network afterwards. -/
def step (s : State V C X I) (ev : Event V C I) : Option (State V C X I) :=
  if s.begun then P.stepBegun s ev
  else
    match ev with
    | .callTxns => some (P.callTxns s)
    | _ => none

theorem step_of_begun (h : s.begun = true) (ev : Event V C I) : P.step s ev = P.stepBegun s ev :=
  if_pos h

end Plan

end

end Felis.Phase
