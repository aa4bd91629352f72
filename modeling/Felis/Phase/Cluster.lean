import Felis.Phase.Inbound

/-!
# Phases on a cluster

Every node of the cluster goes through the same sequence of phases, without a global barrier: a node
starts its next phase when its own `comp_count` is 0, whatever the others do. The nodes are
connected by FIFO streams. `CallTxns` writes a `StartPhase` message to every stream before anything
else of the phase happens, and the reader of a stream does not go past it before its own `CallTxns`
has told the channel to continue.

The model has any number of nodes and phases; each node has the state of the model of one phase. An
item is a piece or a future with the node that sends it, the node that it is for, the core that has
planned it, and the piece that issues it while it is executed, if it is not at the root of its
transaction. Nothing in a message says which phase it belongs to: a node takes what it reads for
something of its current phase. When a channel ends its phase is left open, so what is proved does
not depend on `nr_left`. A core may also be in `PollRoutines` while the state of the channel
changes, hence frames can be read in every state.
-/

namespace Felis.Phase.Cluster

open Finset Function

/-- The items of all phases. Every item is in the plan of its phase. -/
structure Workload (V C X I : Type) where
  /-- What is planned for a node in a phase. -/
  items : ℕ → V → Finset I
  phase : I → ℕ
  dst : I → V
  source : I → V
  planner : I → V × C
  /-- The piece that issues the item; none if the worker of the planner does. -/
  parent : I → Option I
  future : I → Bool
  index : I → X
  indices : List X
  mem_items : ∀ i k d, i ∈ items k d ↔ phase i = k ∧ dst i = d
  phase_pos : ∀ i, 1 ≤ phase i
  source_root : ∀ i, parent i = none → source i = (planner i).1
  parent_eq : ∀ i j, parent i = some j →
    dst j = source i ∧ planner j = planner i ∧ phase j = phase i
  source_future : ∀ i, future i = true → source i ≠ dst i
  indices_nodup : indices.Nodup
  index_mem : ∀ i, index i ∈ indices

/-- What `CallTxns` of a node is doing. -/
inductive Control (V : Type)
  | returned
  /-- In `SendStartPhase`, with the nodes still to be told. -/
  | sending (todo : Finset V)
  /-- In `ContinueInboundPhase`, with the channels still to be continued. -/
  | continuing (todo : Finset V)
  deriving DecidableEq

inductive Message (I : Type)
  | startPhase
  /-- The counters that the sender has flushed in its phase `k`. -/
  | counter (k : ℕ)
  | frame (i : I)
  deriving DecidableEq

inductive Place
  | unissued
  /-- In a buffer of the sender, or in the stream. -/
  | sent
  /-- In a queue of the destination, or received there. -/
  | queued
  deriving DecidableEq

structure State (V C X I : Type) where
  /-- How many phases a node has started. -/
  phase : V → ℕ
  control : V → Control V
  node : V → Phase.State V C X I
  /-- The channel of the first node for the stream from the second. -/
  channel : V → V → Inbound.Status
  seen : V → V → ℕ
  /-- The nodes that have not been sent the counters of the phase. -/
  announcing : V → Finset V
  /-- What the cores of a node have not yet written to a stream. -/
  buffer : V → C → V → List I
  stream : V → V → List (Message I)
  place : I → Place

inductive Event (V C I : Type)
  | callTxns
  | sendStartPhase (dest : V)
  /-- `Increment`, and the reset of the plan and of the workers. -/
  | increment
  | continueInbound (src : V)
  | wakeWorkers
  /-- A step of a worker, or `Peek`. -/
  | onNode (ev : Phase.Event V C I)
  | sendCounters (dest : V)
  /-- A core issues an item: it puts it into a queue of its own node, or a frame into its buffer. -/
  | issue (c : C) (i : I)
  /-- A core writes the first frames of a buffer, which it has taken out before. -/
  | flush (c : C) (dest : V) (n : ℕ)
  | readStartPhase (src : V)
  | readCounters (src : V) (c : C)
  | readFrame (src : V) (c : C)
  | endOfPhase (src : V)
  /-- A core takes a piece from its queue and executes it. -/
  | start (i : I) (c : C)
  | finish (i : I)
  deriving DecidableEq

section

variable {V C X I : Type}

def State.init : State V C X I where
  phase _ := 0
  control _ := .returned
  node _ := .init
  channel _ _ := .endOfPhase
  seen _ _ := 0
  announcing _ := ∅
  buffer _ _ _ := []
  stream _ _ := []
  place _ := .unissued

variable [DecidableEq V] [DecidableEq C] [DecidableEq X] [DecidableEq I] [Fintype V] [Fintype C]

def others (d : V) : Finset V := univ.erase d

def set₂ {A B D : Type} [DecidableEq A] [DecidableEq B] (f : A → B → D) (a : A) (b : B) (x : D) :
    A → B → D :=
  update f a (update (f a) b x)

namespace Workload

variable (K : Workload V C X I)

/-- The plan of a phase, as one node sees it. -/
def plan (k : ℕ) (d : V) : Plan V C X I where
  remotes := others d
  items := K.items k d
  origin i := if (K.planner i).1 = d then .inr (K.planner i).2 else .inl (K.planner i).1
  index := K.index
  indices := K.indices
  indices_nodup := K.indices_nodup
  index_mem i _ := K.index_mem i
  origin_mem i _ v hv := by
    split_ifs at hv with hd
    cases hv
    exact mem_erase.2 ⟨hd, mem_univ _⟩

def current (s : State V C X I) (d : V) : Plan V C X I := K.plan (s.phase d) d

/-- The steps that a node makes on its own. The last worker to flush its plan completes after it has
sent the counters. -/
def isOnNode (s : State V C X I) (d : V) : Phase.Event V C I → Bool
  | .flushIndex _ => s.control d = .returned
  | .flushEnd _ => s.control d = .returned
  | .workerComplete c =>
    s.control d = .returned && ((s.node d).stage c = .issued false || s.announcing d = ∅)
  | .extraComplete _ => s.control d = .returned
  | .peek _ => true
  | _ => false

/-- The core is executing the parent of the item, or its worker issues the item. -/
def issues (s : State V C X I) (d : V) (c : C) (i : I) : Prop :=
  match K.parent i with
  | none => K.planner i = (d, c) ∧ ((s.node d).stage c).isIssued = true ∧ K.phase i = s.phase d
  | some j => K.dst j = d ∧ (s.node d).status j = .running c

instance (s : State V C X I) (d : V) (c : C) (i : I) : Decidable (K.issues s d c i) := by
  unfold issues
  split <;> infer_instance

def setNode (s : State V C X I) (d : V) (n : Phase.State V C X I) : State V C X I :=
  { s with node := update s.node d n }

def step (s : State V C X I) : V × Event V C I → Option (State V C X I)
  | (d, .callTxns) =>
    if s.control d = .returned ∧ (s.node d).comp = 0 then
      some { s with control := update s.control d (.sending (others d)) }
    else none
  | (d, .sendStartPhase dest) =>
    match s.control d with
    | .sending todo =>
      if dest ∈ todo then
        some { s with
          control := update s.control d (.sending (todo.erase dest))
          stream := set₂ s.stream d dest (s.stream d dest ++ [.startPhase]) }
      else none
    | _ => none
  | (d, .increment) =>
    if s.control d = .sending ∅ then
      some { s with
        control := update s.control d (.continuing (others d))
        phase := update s.phase d (s.phase d + 1)
        node := update s.node d ((K.plan (s.phase d + 1) d).callTxns (s.node d))
        announcing := update s.announcing d (others d) }
    else none
  | (d, .continueInbound src) =>
    match s.control d with
    | .continuing todo =>
      -- the code aborts when the channel has not ended its phase
      if src ∈ todo ∧ s.channel d src = .endOfPhase then
        some { s with
          control := update s.control d (.continuing (todo.erase src))
          channel := set₂ s.channel d src (s.channel d src).advance }
      else none
    | _ => none
  | (d, .wakeWorkers) =>
    if s.control d = .continuing ∅ then
      some { s with control := update s.control d .returned }
    else none
  | (d, .onNode ev) =>
    if isOnNode s d ev then ((K.current s d).step (s.node d) ev).map (setNode s d) else none
  | (d, .sendCounters dest) =>
    if (∃ c, (s.node d).stage c = .issued true) ∧ dest ∈ s.announcing d then
      some { s with
        announcing := update s.announcing d ((s.announcing d).erase dest)
        stream := set₂ s.stream d dest (s.stream d dest ++ [.counter (s.phase d)]) }
    else none
  | (d, .issue c i) =>
    if K.issues s d c i ∧ s.place i = .unissued then
      if K.dst i = d then some { s with place := update s.place i .queued }
      else
        some { s with
          place := update s.place i .sent
          buffer := update s.buffer d
            (set₂ (s.buffer d) c (K.dst i) (s.buffer d c (K.dst i) ++ [i])) }
    else none
  | (d, .flush c dest n) =>
    some { s with
      buffer := update s.buffer d (set₂ (s.buffer d) c dest ((s.buffer d c dest).drop n))
      stream := set₂ s.stream d dest (s.stream d dest ++ ((s.buffer d c dest).take n).map .frame) }
  | (d, .readStartPhase src) =>
    match s.stream src d with
    | .startPhase :: rest =>
      if s.channel d src = .pollMappingTable then
        some { s with
          stream := set₂ s.stream src d rest
          seen := set₂ s.seen d src (s.seen d src + 1)
          channel := set₂ s.channel d src (s.channel d src).advance }
      else none
    | _ => none
  | (d, .readCounters src _) =>
    match s.stream src d with
    | .counter k :: rest =>
      let n := s.node d
      some { s with
        stream := set₂ s.stream src d rest
        node := update s.node d
          { n.complete (kMaxPiecesPerPhase - (K.plan k d).planned (.inl src)) with
            total := fun x => n.total x + (K.plan k d).count (.inl src) x
            applied := update n.applied src true } }
    | _ => none
  | (d, .readFrame src c) =>
    match s.stream src d with
    | .frame i :: rest =>
      some { s with
        stream := set₂ s.stream src d rest
        place := update s.place i .queued
        node := if K.future i then update s.node d (Plan.finishOn (s.node d) i c)
          else s.node }
    | _ => none
  | (d, .endOfPhase src) =>
    if s.channel d src = .pollRoutines then
      some { s with channel := set₂ s.channel d src (s.channel d src).advance }
    else none
  | (d, .start i c) =>
    if K.dst i = d ∧ K.future i = false ∧ s.place i = .queued ∧ (s.node d).status i = .waiting then
      some (setNode s d (Plan.setStatus (s.node d) i (.running c)))
    else none
  | (d, .finish i) =>
    match (s.node d).status i with
    | .running c => some (setNode s d (Plan.finishOn (s.node d) i c))
    | _ => none

end Workload

end

end Felis.Phase.Cluster
