import Felis.Phase.Node

/-!
# The incoming channels of a node

A `ReceiverChannel` reads the stream from one other node. In a phase it goes through three states:
it waits for the `StartPhase` message (`PollMappingTable`), it reads frames (`PollRoutines`), and it
does not read at all until the node starts its next phase (`EndOfPhase`). `nr_left` says how many
frames are still to come. It starts from `kMaxPiecesPerPhase`, and when the last counter message of
the phase has been applied, `OnCounterReceived` corrects it on all channels.

The model extends that of a phase on one node by its channels. An item has a source: the node that
sends its frame, which need not be the one that planned it. The loop of `OnCounterReceived` reads
the counters one by one, while the cores of the node may still be adding to them.
-/

namespace Felis.Phase.Inbound

open Finset

/-- `PromiseRoutineTransportService::kPromiseMaxLevels`. -/
def kPromiseMaxLevels : ℕ := 16

/-- What is planned for a node, with the sources of the items: a counter belongs to a level and to a
source, which is `none` for the node itself. -/
structure Traffic (V C I : Type) extends Plan V C (ℕ × Option V) I where
  connections : List V
  connections_nodup : connections.Nodup
  mem_connections : ∀ v, v ∈ connections ↔ v ∈ remotes
  level_lt : ∀ x ∈ indices, x.1 < kPromiseMaxLevels
  /-- The items that are futures; the others are pieces. -/
  future : I → Bool

/-- `IncomingTraffic::Status`. -/
inductive Status
  | pollMappingTable
  | pollRoutines
  | endOfPhase
  deriving DecidableEq

/-- `AdvanceStatus`. -/
def Status.advance : Status → Status
  | .pollMappingTable => .pollRoutines
  | .pollRoutines => .endOfPhase
  | .endOfPhase => .pollMappingTable

/-- Where the core that polls a channel is in `PollRoutines`. -/
inductive Poll
  /-- At the head of the loop over the frames. -/
  | parsing
  /-- `UpdateBatchCountersFromReceiver` has returned. -/
  | counted
  /-- In the loop of `OnCounterReceived`. -/
  | adjusting
  deriving DecidableEq

structure Channel (C : Type) where
  status : Status
  nrLeft : ℤ
  /-- The core that holds the lock of the channel. -/
  poll : Option (C × Poll)
  /-- `i + future_processed` of `PollRoutines`. -/
  parsed : ℕ

/-- The loop of `OnCounterReceived`: the channel whose reader runs it, the channels to be corrected,
and the sum of the levels read so far for the first of them. -/
inductive Loop (V : Type)
  | before
  | running (owner : V) (todo : List V) (level sum : ℕ)
  | after
  deriving DecidableEq

inductive Frame
  | unread
  | parsed
  /-- The piece is in the queue of a core. -/
  | queued
  deriving DecidableEq

structure State (V C I : Type) where
  node : Phase.State V C (ℕ × Option V) I
  channel : V → Channel C
  counters : ℕ
  loop : Loop V
  frame : I → Frame

inductive Event (V C I : Type)
  | callTxns
  | node (ev : Phase.Event V C I)
  | pollMappingTable (v : V)
  | poll (v : V) (c : C)
  | frame (v : V) (i : I)
  /-- A counter frame: `UpdateBatchCountersFromReceiver`. -/
  | counter (v : V)
  /-- `counters.fetch_add(1)`. -/
  | onCounterReceived (v : V)
  /-- One level in `CalculateIncomingFromNode`. -/
  | load
  /-- `r->Complete(kMaxPiecesPerPhase - s)`. -/
  | adjust
  | loopEnd
  /-- The end of `PollRoutines`. -/
  | pollEnd (v : V)
  deriving DecidableEq

section

variable {V C I : Type}

/-- `ReceiverChannel::Complete`. The code aborts when `nr_left` gets negative. -/
def Channel.complete (ch : Channel C) (n : ℤ) : Channel C :=
  if n = 0 then ch
  else
    { ch with
      nrLeft := ch.nrLeft - n
      status := if ch.nrLeft - n = 0 then ch.status.advance else ch.status }

/-- Between two phases. -/
def State.init : State V C I where
  node := .init
  channel _ := { status := .endOfPhase, nrLeft := 0, poll := none, parsed := 0 }
  counters := 0
  loop := .before
  frame _ := .unread

variable [DecidableEq V] [DecidableEq C] [DecidableEq I] [Fintype C]

def State.setChannel (s : State V C I) (v : V) (ch : Channel C) : State V C I :=
  { s with channel := Function.update s.channel v ch }

namespace Traffic

variable (P : Traffic V C I)

/-- The node that sends the frame of an item. -/
def source (i : I) : Option V := (P.index i).2

/-- What all nodes together have planned to be sent from `v` to this node. -/
def incoming (v : V) : ℕ := #{i ∈ P.items | P.source i = some v}

/-- The frames that have been received from `v`. -/
def received (s : State V C I) (v : V) : ℕ :=
  #{i ∈ P.items | P.source i = some v ∧ s.frame i ≠ .unread}

/-- The steps that the cores make on their own. A piece from another node runs after it has been put
into a queue. -/
def onCores (s : State V C I) : Phase.Event V C I → Bool
  | .callTxns => false
  | .counterMessage _ _ => false
  | .start i _ => P.source i = none || s.frame i = .queued
  | .receive i _ => P.source i = none
  | _ => true

def step (s : State V C I) : Event V C I → Option (State V C I)
  | .callTxns =>
    if s.node.begun = false ∧ ∀ v ∈ P.remotes, (s.channel v).status = .endOfPhase then
      some { s with
        node := P.callTxns s.node
        channel := fun v => { s.channel v with status := (s.channel v).status.advance } }
    else none
  | .node ev =>
    if P.onCores s ev then (P.toPlan.step s.node ev).map fun n => { s with node := n } else none
  | .pollMappingTable v =>
    let ch := s.channel v
    if v ∈ P.remotes ∧ ch.status = .pollMappingTable ∧ ch.poll = none ∧ ch.nrLeft = 0 then
      some (s.setChannel v { ch with nrLeft := kMaxPiecesPerPhase, status := ch.status.advance })
    else none
  | .poll v c =>
    let ch := s.channel v
    if v ∈ P.remotes ∧ ch.status = .pollRoutines ∧ ch.poll = none then
      some (s.setChannel v { ch with poll := some (c, .parsing), parsed := 0 })
    else none
  | .frame v i =>
    let ch := s.channel v
    match ch.poll with
    | some (c, .parsing) =>
      -- the core that planned the item has executed `FlushBufferPlan`
      if P.issuable s.node i ∧ P.source i = some v ∧ s.frame i = .unread then
        let s := { s.setChannel v { ch with parsed := ch.parsed + 1 } with
          frame := Function.update s.frame i .parsed }
        if P.future i then
          (P.stepBegun s.node (.receive i c)).map fun n => { s with node := n }
        else some s
      else none
    | _ => none
  | .counter v =>
    let ch := s.channel v
    match ch.poll with
    | some (c, .parsing) =>
      (P.stepBegun s.node (.counterMessage v c)).map fun n =>
        { s.setChannel v { ch with poll := some (c, .counted) } with node := n }
    | _ => none
  | .onCounterReceived v =>
    let ch := s.channel v
    match ch.poll with
    | some (c, .counted) =>
      if s.counters + 2 = #P.remotes + 1 then
        some { s.setChannel v { ch with poll := some (c, .adjusting) } with
          counters := s.counters + 1
          loop := .running v P.connections 0 0 }
      else
        some { s.setChannel v { ch with poll := some (c, .parsing) } with
          counters := s.counters + 1 }
    | _ => none
  | .load =>
    match s.loop with
    | .running owner (v :: todo) level sum =>
      if level < kPromiseMaxLevels then
        some { s with
          loop := .running owner (v :: todo) (level + 1) (sum + s.node.total (level, some v)) }
      else none
    | _ => none
  | .adjust =>
    match s.loop with
    | .running owner (v :: todo) level sum =>
      if level < kPromiseMaxLevels then none
      else
        some { s.setChannel v ((s.channel v).complete (kMaxPiecesPerPhase - sum)) with
          loop := .running owner todo 0 0 }
    | _ => none
  | .loopEnd =>
    match s.loop with
    | .running owner [] _ _ =>
      let ch := s.channel owner
      match ch.poll with
      | some (c, .adjusting) =>
        some { s.setChannel owner { ch with poll := some (c, .parsing) } with
          counters := 0
          loop := .after }
      | _ => none
    | _ => none
  | .pollEnd v =>
    let ch := s.channel v
    match ch.poll with
    | some (_, .parsing) =>
      some { s.setChannel v { ch.complete ch.parsed with poll := none, parsed := 0 } with
        frame := fun i =>
          if P.source i = some v ∧ s.frame i = .parsed then .queued else s.frame i }
    | _ => none

/-- When the last counter message is counted, every core that has planned an item that another node
sends to this one has executed `FlushBufferPlan`. -/
def PlansFlushed (s : State V C I) : Event V C I → Prop
  | .onCounterReceived _ => s.counters + 2 = #P.remotes + 1 →
      ∀ i ∈ P.items, (P.source i).isSome → ∀ c, P.origin i = .inr c →
        (s.node.stage c).flushed = true
  | _ => True

instance (s : State V C I) (ev : Event V C I) : Decidable (P.PlansFlushed s ev) := by
  cases ev <;> unfold PlansFlushed <;> infer_instance

end Traffic

end

end Felis.Phase.Inbound
