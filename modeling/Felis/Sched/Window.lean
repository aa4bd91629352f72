import Felis.Sched.DispatchOrder
import Felis.Sched.PriorityOrder

/-!
# The out-of-order window

The execution routines of a core take pieces with `Peek` and run them. A routine that has to wait
calls `Preempt`: unless there is nothing else to run, it becomes one of the waiting routines of the
core, and a later `Peek` lets it go on. The waiting routines are a heap, ordered by their keys with
a backoff; there is room for `kOutOfOrderWindow` of them.

`Peek` asks a listener before it hands anything out. In `Run`, the listener takes every piece and no
waiting routine; in `Preempt`, it takes only the routine itself. Here it can be any function. A
routine that is asleep in `Preempt` takes no piece, which is what its listener says.

A step of `Add` is a step of the model, `Peek` and `Preempt` are one step each. `running`,
`suspended` and `pending` are no part of the program: the routine whose piece has been handed out
last, until it is preempted; the routines whose `Preempt` has returned true and that have not been
popped since; and the values in the priority queue.
-/

namespace Felis.Sched

open BinaryHeap Cells

def kOutOfOrderWindow : ℕ := 25

def keyThreshold : ℕ := 17000

def maxBackoff : ℕ := 40

/-! ## The queues -/

/-- The zero queue, the ring and the priority queue of a core. -/
structure Queues where
  dispatch : Dispatch.State
  pq : PriorityQueue
  pending : List PriorityQueueValue

namespace Queues

/-- `AddToPriorityQueue` for each of the routines. -/
def addAll (limit : ℕ) (s : Queues) : List RoutineRef → Option Queues
  | [] => some s
  | rt :: rts =>
    (s.pq.addToPriorityQueue limit rt).bind fun pq =>
      addAll limit { s with pq := pq, pending := s.pending ++ [⟨s.pq.brk, rt⟩] } rts

/-- The state of the ring after `ProcessPending`. -/
def drain (maxItem : ℕ) (d : Dispatch.State) : Dispatch.State :=
  let plen := sub64 d.pending.stop d.pending.start
  { d with
    pending := { d.pending with start := (d.pending.start + plen) % 2 ^ 32 }
    handed := d.handed ++ ringSeg maxItem d.pending.q d.pending.start plen }

/-- `ProcessPending`, from its beginning to its end. -/
def processPending (maxItem limit : ℕ) (s : Queues) : Option Queues :=
  let p := s.dispatch.pending
  (s.addAll limit (ringSeg maxItem p.q p.start (sub64 p.stop p.start))).map fun s =>
    { s with dispatch := drain maxItem s.dispatch }

end Queues

/-! ## `Peek` and `Preempt` -/

structure WaitState (E : Type) where
  state : E
  schedKey : ℕ
  preemptKey : ℕ
  preemptTimes : ℕ
  deriving DecidableEq

/-- The order of the waiting routines, by the key with the backoff and then by the key. -/
def WaitState.greater {E : Type} (a b : WaitState E) : Bool :=
  if b.preemptKey < a.preemptKey then true
  else if a.preemptKey < b.preemptKey then false
  else b.schedKey < a.schedKey

structure Waiting (E : Type) where
  states : ℕ → WaitState E
  len : ℕ

/-- What a `Peek` that returns true hands out. -/
inductive Outcome (E : Type)
  | zero (r : RoutineRef)
  | waiting (ws : WaitState E)
  | piece (v : PriorityQueueValue)

def Outcome.isPiece {E : Type} : Outcome E → Bool
  | .zero _ => true
  | .waiting _ => false
  | .piece _ => true

namespace Window

structure State (E : Type) where
  queues : Queues
  waiting : Waiting E
  currentSchedKey : ℕ
  /-- The code has aborted: "out-of-order scheduling window is full". -/
  aborted : Bool
  running : Option E
  suspended : List E

inductive Event (E : Type)
  | add (batch : List RoutineRef)
  | adder
  /-- `Peek`, with the result of `IsReady` and the listener. -/
  | peek (caller : E) (ready : Bool) (shouldPop : Option RoutineRef → Option E → Bool)
  | preempt (caller : E)

section

variable {E : Type}

/-- The listener of `Run`. -/
def runListener (_ : Option RoutineRef) (state : Option E) : Bool := state.isNone

/-- The listener of `Preempt` in the routine `me`. -/
def preemptListener [DecidableEq E] (me : E) (_ : Option RoutineRef) (state : Option E) : Bool :=
  state = some me

namespace State

def init (dispatch : ℕ → RoutineRef) (ring : ℕ → RoutineRef) (q : ℕ → PriorityQueueHeapEntry)
    (ent : ℕ → PriorityQueueHashEntry) (states : ℕ → WaitState E) : State E where
  queues := ⟨.init dispatch ring, .empty q ent, []⟩
  waiting := ⟨states, 0⟩
  currentSchedKey := 0
  aborted := false
  running := none
  suspended := []

/-- `ConservativePriorityScheduler::ShouldPickWaiting`. -/
def shouldPickWaiting (s : State E) (ws : WaitState E) : Bool :=
  s.queues.pq.len = 0 ∨ ws.preemptKey < (s.queues.pq.q 0).key

/-- The first part of `Peek`: a piece of the zero queue. -/
def popZero (s : State E) (caller : E) : State E :=
  let zq := s.queues.dispatch.zq
  { s with
    queues := { s.queues with
      dispatch := { s.queues.dispatch with zq := { zq with start := zq.start + 1 } } }
    currentSchedKey := (zq.q zq.start).schedKey
    running := some caller }

/-- `Peek` picks the waiting routine in front. -/
def picksWaiting (s : State E) : Prop :=
  0 < s.waiting.len ∧
    (s.waiting.len = kOutOfOrderWindow ∨ s.shouldPickWaiting (s.waiting.states 0))

instance (s : State E) : Decidable s.picksWaiting := inferInstanceAs (Decidable (_ ∧ _))

variable [DecidableEq E]

def popWaiting (s : State E) : State E :=
  let ws := s.waiting.states 0
  { s with
    waiting :=
      { states := popHeap WaitState.greater s.waiting.states s.waiting.len
        len := s.waiting.len - 1 }
    currentSchedKey := ws.schedKey
    running := some ws.state
    suspended := s.suspended.filter (· ≠ ws.state) }

def popPiece (s : State E) (caller : E) (v : PriorityQueueValue) : Option (State E) :=
  (s.queues.pq.consume v).map fun pq =>
    { s with
      queues := { s.queues with pq := pq, pending := s.queues.pending.filter (· ≠ v) }
      currentSchedKey := v.key
      running := some caller }

/-- `Peek` after `ProcessPending`. -/
def peekQueue (s : State E) (caller : E) (shouldPop : Option RoutineRef → Option E → Bool) :
    Option (State E × Option (Outcome E)) :=
  let ws := s.waiting.states 0
  if s.picksWaiting then
    if shouldPop none (some ws.state) then some (s.popWaiting, some (.waiting ws))
    else some (s, none)
  else if s.queues.pq.len ≠ 0 then
    s.queues.pq.pick.bind fun v =>
      if shouldPop (some v.routine) none then
        (s.popPiece caller v).map fun t => (t, some (.piece v))
      else some (s, none)
  else some (s, none)

variable (maxItem limit : ℕ)

def processPending (s : State E) : Option (State E) :=
  (s.queues.processPending maxItem limit).map fun queues => { s with queues := queues }

def peek (s : State E) (caller : E) (ready : Bool)
    (shouldPop : Option RoutineRef → Option E → Bool) : Option (State E × Option (Outcome E)) :=
  let zq := s.queues.dispatch.zq
  if ready = false then some (s, none)
  else if zq.start < zq.stop then
    if shouldPop (some (zq.q zq.start)) none then
      some (s.popZero caller, some (.zero (zq.q zq.start)))
    else some (s, none)
  else (s.processPending maxItem limit).bind fun s => s.peekQueue caller shouldPop

/-- What `Preempt` writes into the next slot, which may hold an earlier state of the routine. -/
def waitState (s : State E) (caller : E) : WaitState E :=
  let old := s.waiting.states s.waiting.len
  let times := if old.schedKey = s.currentSchedKey then (old.preemptTimes + 1) % 2 ^ 64 else 1
  { state := caller
    schedKey := s.currentSchedKey
    preemptKey := (s.currentSchedKey + keyThreshold * min times maxBackoff) % 2 ^ 64
    preemptTimes := times }

/-- `Preempt` after `ProcessPending`. -/
def preemptQueue (s : State E) (caller : E) : State E × Bool :=
  if s.currentSchedKey = 0 then (s, false)
  else if s.waiting.len = kOutOfOrderWindow then ({ s with aborted := true }, false)
  else
    let ws := s.waitState caller
    let states := Function.update s.waiting.states s.waiting.len ws
    if s.waiting.len = 0 ∧ s.shouldPickWaiting ws then
      ({ s with waiting := { s.waiting with states := states } }, false)
    else
      ({ s with
        waiting :=
          { states := pushHeap WaitState.greater states (s.waiting.len + 1)
            len := s.waiting.len + 1 }
        running := none
        suspended := s.suspended ++ [caller] }, true)

def preempt (s : State E) (caller : E) : Option (State E × Bool) :=
  (s.processPending maxItem limit).map fun s => s.preemptQueue caller

def setDispatch (s : State E) (d : Dispatch.State) : State E :=
  { s with queues := { s.queues with dispatch := d } }

def step (s : State E) : Event E → Option (State E)
  | .add batch => (s.queues.dispatch.step maxItem (.add batch)).map s.setDispatch
  | .adder => (s.queues.dispatch.step maxItem .adder).map s.setDispatch
  | .peek caller ready shouldPop =>
    (s.peek maxItem limit caller ready shouldPop).bind fun (t, o) =>
      -- the listener of a routine that is asleep takes no piece
      if caller ∈ s.suspended ∧ o.any Outcome.isPiece then none else some t
  | .preempt caller =>
    if s.running = some caller then (s.preempt maxItem limit caller).map (·.1) else none

end State

end

end Window

end Felis.Sched
