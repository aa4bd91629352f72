import Felis.Phase.ClusterInvariant

/-!
# Phase isolation

The nodes of a cluster do not wait for each other between two phases. `phase_isolation` says that it
looks to every node as if they did: what is executed on a node in a phase finds everything of the
earlier phases that is planned for the node, by whichever node, completed. So the pieces of the
`Execute` phase of an epoch run after all versions of the `Insert` and `Initialize` phases have been
appended. Nor does a node ever go ahead by more than one phase, or lose a message.
-/

namespace Felis.Phase.Cluster

open Finset Runs

variable {V C X I : Type} [DecidableEq V] [DecidableEq C] [DecidableEq X] [DecidableEq I]
  [Fintype V] [Fintype C] {K : Workload V C X I}

section

variable [Nonempty C]
  (hK : ∀ k d, ∀ v ∈ others d, (K.plan k d).planned (.inl v) < kMaxPiecesPerPhase)
  {evs : List (V × Event V C I)} {s : State V C X I}
include hK

theorem inv_of_run (hrun : run K.step State.init evs = some s) : K.Inv s :=
  run_induction (fun _ _ _ h ht => h.step hK ht) K.inv_init hrun

/-- **Lock-step.** No node is ever more than one phase ahead of another. -/
theorem phase_le_succ (hrun : run K.step State.init evs = some s) (v w : V) :
    s.phase v ≤ s.phase w + 1 := by
  by_contra! hlt
  have hne : w ≠ v := by
    rintro rfl
    omega
  -- `v` has left a phase for which `w` has not yet sent its counters
  have hbalance := (inv_of_run hK hrun).counters.balance w v (s.phase w + 1) hne (by omega)
  simp [Workload.unsent, Workload.awaiting, hlt.not_gt, hlt.ne'] at hbalance

/-- **A message is taken for what it is.** What a node reads next from a stream is of the phase in
which it is, although no message says so: counters that it has not applied, or a frame for it that
it has not executed. -/
theorem message_in_phase (hrun : run K.step State.init evs = some s) (src d : V) :
    (∀ k rest, s.stream src d = .counter k :: rest →
      k = s.phase d ∧ (s.node d).applied src = false) ∧
    ∀ i rest, s.stream src d = .frame i :: rest →
      K.dst i = d ∧ K.phase i = s.phase d ∧ (s.node d).status i = .waiting := by
  have hinv := inv_of_run hK hrun
  refine ⟨fun k rest h => (hinv.phase_of_counter h).2, fun i rest h => ?_⟩
  obtain ⟨-, rfl, hplace, hle⟩ := hinv.readFrame_pre h
  have hwaiting := hinv.nodes.arrived i (by simp [hplace])
  exact ⟨rfl, Workload.phase_of_waiting hinv.nodes hle (by simp [hwaiting]), hwaiting⟩

/-- **No item is lost or duplicated.** There is one copy of it while it is on its way, from its
source to its destination, and otherwise none; when the destination starts a later phase, it has
arrived and is completed. -/
theorem item_conserved (hrun : run K.step State.init evs = some s) (i : I) :
    (∀ src d, (.frame i ∈ s.stream src d ∨ ∃ c, i ∈ s.buffer src c d) →
      K.source i = src ∧ K.dst i = d) ∧
    (s.stream (K.source i) (K.dst i)).count (.frame i) +
      ∑ c, (s.buffer (K.source i) c (K.dst i)).count i = (if s.place i = .sent then 1 else 0) ∧
    (K.phase i < s.phase (K.dst i) →
      s.place i = .queued ∧ (s.node (K.dst i)).status i = .completed) := by
  have hinv := inv_of_run hK hrun
  refine ⟨?_, ?_, fun hphase => ?_⟩
  · rintro src d (h | ⟨c, h⟩)
    · exact hinv.streams.frames src d i h
    · obtain ⟨hsource, hdst, -⟩ := hinv.streams.buffered src c d i h
      exact ⟨hsource, hdst⟩
  · rw [hinv.streams.once i]
    split_ifs with h <;> simp [h]
  · have hcompleted := hinv.nodes.past i hphase
    refine ⟨by_contra fun h => ?_, hcompleted⟩
    simp [hinv.nodes.arrived i h] at hcompleted

end

/-- **Phase isolation.** In every run, when the execution of an item has begun on its node, all
items of the earlier phases for this node are completed. -/
theorem phase_isolation [Nonempty C] (K : Workload V C X I)
    (hK : ∀ k d, ∀ v ∈ others d, (K.plan k d).planned (.inl v) < kMaxPiecesPerPhase)
    (evs : List (V × Event V C I)) (s : State V C X I) (hrun : run K.step State.init evs = some s)
    (i j : I) (hdst : K.dst j = K.dst i) (hphase : K.phase j < K.phase i)
    (hi : (s.node (K.dst i)).status i ≠ .waiting) :
    (s.node (K.dst i)).status j = .completed := by
  have hinv := inv_of_run hK hrun
  have hstarted : K.phase i ≤ s.phase (K.dst i) := Workload.started_le hinv.nodes hi
  have hpast := hinv.nodes.past j
  rw [hdst] at hpast
  exact hpast (hphase.trans_le hstarted)

/-- Two nodes with one core each. The first sends a piece to the second in phase 1; the second has a
piece of its own in phase 2. -/
def twoNodes : Workload Bool Unit Unit Bool where
  items k d := {i | i.toNat + 1 = k ∧ d = true}
  phase i := i.toNat + 1
  dst _ := true
  source i := i
  planner i := (i, ())
  parent _ := none
  future _ := false
  index _ := ()
  indices := [()]
  mem_items i k d := by simp [eq_comm]
  phase_pos i := Nat.le_add_left 1 _
  source_root _ _ := rfl
  parent_eq _ _ h := by cases h
  source_future _ h := by cases h
  indices_nodup := List.nodup_singleton ()
  index_mem _ := List.mem_singleton.2 rfl

theorem twoNodes_planned (k : ℕ) (d v : Bool) :
    (twoNodes.plan k d).planned (.inl v) < kMaxPiecesPerPhase :=
  calc
    _ ≤ #(twoNodes.items k d) := card_filter_le _ _
    _ ≤ Fintype.card Bool := card_le_univ _
    _ < kMaxPiecesPerPhase := by decide

/-- `CallTxns` of a node. -/
def callTxnsOn (d : Bool) : List (Bool × Event Bool Unit Bool) :=
  [(d, .callTxns), (d, .sendStartPhase !d), (d, .increment), (d, .continueInbound !d),
    (d, .wakeWorkers)]

def planOn (d : Bool) : List (Bool × Event Bool Unit Bool) :=
  [(d, .onNode (.flushIndex ())), (d, .onNode (.flushEnd ())), (d, .sendCounters !d)]

def completeOn (d : Bool) : List (Bool × Event Bool Unit Bool) :=
  [(d, .onNode (.workerComplete ())), (d, .onNode (.extraComplete ()))]

/-- The second node goes through phase 1 and executes its piece in phase 2, while the first is in
phase 1. -/
def twoNodesRun : List (Bool × Event Bool Unit Bool) :=
  callTxnsOn false ++ callTxnsOn true ++ planOn false ++
    [(false, .issue () false), (false, .flush () true 1)] ++ completeOn false ++
    [(true, .readStartPhase false), (true, .readCounters false ()), (true, .readFrame false ()),
      (true, .endOfPhase false)] ++ planOn true ++ completeOn true ++
    [(true, .start false ()), (true, .finish false), (true, .onNode (.peek ()))] ++
    callTxnsOn true ++ planOn true ++ [(true, .issue () true), (true, .start true ())]

theorem phase_isolation_twoNodes :
    ∃ s, run twoNodes.step State.init twoNodesRun = some s ∧
      (s.node true).status true = .running () ∧ (s.node true).status false = .completed := by
  obtain ⟨s, hs, hst⟩ : ∃ s, run twoNodes.step State.init twoNodesRun = some s ∧ (s.node
      true).status true = .running () := by decide +kernel
  refine ⟨s, hs, hst, ?_⟩
  exact phase_isolation twoNodes (fun k d v _ => twoNodes_planned k d v) twoNodesRun s hs true false
    rfl (by decide) (by rw [show twoNodes.dst true = true from rfl, hst]; simp)

/-- The second node has read the counters of the first, and not yet the frame. -/
def frameLeft : State Bool Unit Unit Bool :=
  (run twoNodes.step State.init (twoNodesRun.take 19)).get (by decide +kernel)

theorem run_frameLeft : run twoNodes.step State.init (twoNodesRun.take 19) = some frameLeft :=
  (Option.some_get _).symm

theorem phase_le_succ_frameLeft : frameLeft.phase true ≤ frameLeft.phase false + 1 :=
  phase_le_succ (fun k d v _ => twoNodes_planned k d v) run_frameLeft true false

theorem message_in_phase_frameLeft : twoNodes.phase false = frameLeft.phase true :=
  ((message_in_phase (fun k d v _ => twoNodes_planned k d v) run_frameLeft false true).2 false []
    (by decide +kernel)).2.1

theorem item_conserved_frameLeft : (frameLeft.stream false true).count (.frame false) +
    ∑ c, (frameLeft.buffer false c true).count false =
      if frameLeft.place false = .sent then 1 else 0 :=
  (item_conserved (fun k d v _ => twoNodes_planned k d v) run_frameLeft false).2.1

end Felis.Phase.Cluster
