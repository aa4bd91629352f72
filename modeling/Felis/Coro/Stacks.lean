import Felis.Sched.Window

/-!
# The coroutines of a core

A core runs its pieces on coroutines, each with a stack of its own. A coroutine that has nothing to
do takes a piece with `GetNewPiece`. One that waits for a version calls `WaitForVHandleVal`: it puts
itself into the out-of-order buffer and lets another one run, a new coroutine or one that has waited
long enough. One that waits for a future detaches itself until `SetReady` puts it into the ready
queue. A stack that is not used is in the free list.

The parts of `GetNewPiece` and `WaitForVHandleVal` between two calls of the transport are one step
each, and so are `WaitForFutureValue` and `SetReady`, whose single accesses are the subject of
`Coro.Future`; whether the future is ready is left open. Between the steps, other cores may call
`SetReady` and `Add`. When an assertion of the code fails or the code aborts, there is no next
state.

`suspendedIn` and `switched` are no part of the program: the piece that a stack was running when it
was suspended, and the target of the switch to another stack in the last step, if there was one.
-/

namespace Felis.Coro.Stacks

open BinaryHeap Cells Sched Function

def kPreemptKeyThreshold : ℕ := 17000

def kMaxBackoff : ℕ := 40

structure CoroStack where
  schedKey : ℕ
  preemptKey : ℕ
  preemptTimes : ℕ
  runningPiece : RoutineRef

inductive Pc (K : Type)
  /-- The main coroutine runs, outside of `StartCoroExec`. -/
  | main
  /-- At `retry_after_periodicIO` in `GetNewPiece`. -/
  | getNewPiece
  /-- At `waiting_for_detached`. -/
  | picking
  /-- After the last `PeriodicIO` of `GetNewPiece`. -/
  | finishing
  /-- In the callback of its piece. -/
  | piece
  /-- In `WaitForVHandleVal`, after `PeriodicIO`. -/
  | preempting
  /-- In `WaitForVHandleVal`, switched back from the ready candidate. -/
  | resolving (candidate : K)
  /-- It has switched to `nullptr`. -/
  | crashed
  deriving DecidableEq

structure Config (K : Type) where
  oooBufferSize : ℕ
  useSignalFuture : Bool
  maxNrCoroutine : ℕ
  fvSignals : RoutineRef → ℕ
  less : K → K → Bool
  /-- The sizes of the ring and of the memory of the priority queue. -/
  maxItem : ℕ
  limit : ℕ

structure State (K F : Type) where
  queues : Queues
  coro : K → CoroStack
  free : List K
  oooBuffer : ℕ → K
  oooBufferLen : ℕ
  paused : Option K
  ready : List K
  numDetached : ℕ
  /-- The futures with a waiter. -/
  attached : List (F × K)
  /-- The running coroutine; none for the main coroutine. -/
  current : Option K
  pc : Pc K
  resume : K → Pc K
  suspendedIn : K → Option RoutineRef
  switched : Option (Option K)

inductive Event (F : Type)
  | startCoroExec
  /-- With the result of `IsReady`. -/
  | getNewPiece (isReady : Bool)
  | pick
  | finish (shouldRetry : Bool)
  | complete
  | waitForVHandleVal
  | preempt
  | resolve
  | waitForFutureValue (f : F) (ready : Bool)
  | setReady (f : F)
  | add (batch : List RoutineRef)
  | adder

section

variable {K F : Type}

def State.init (queues : Queues) (coro : K → CoroStack) (all : List K) (oooBuffer : ℕ → K)
    (resume : K → Pc K) : State K F where
  queues := queues
  coro := coro
  free := all
  oooBuffer := oooBuffer
  oooBufferLen := 0
  paused := none
  ready := []
  numDetached := 0
  attached := []
  current := none
  pc := .main
  resume := resume
  suspendedIn _ := none
  switched := none

variable [DecidableEq K] [DecidableEq F]

namespace State

/-! ## Switching -/

/-- The context of the coroutine is saved. -/
def suspend (s : State K F) (me : K) (pc : Pc K) : State K F :=
  { s with
    resume := update s.resume me pc
    suspendedIn := update s.suspendedIn me (some (s.coro me).runningPiece) }

def yieldTo (s : State K F) : Option K → State K F
  | none => { s with current := none, pc := .crashed, switched := some none }
  | some k =>
    { s with
      current := some k
      pc := s.resume k
      suspendedIn := update s.suspendedIn k none
      switched := some (some k) }

def returnCoroStack (s : State K F) (k : K) : State K F := { s with free := k :: s.free }

def shutdownAndSwitchTo (s : State K F) (me : K) (coro : Option K) : State K F :=
  (s.returnCoroStack me).yieldTo coro

/-- The code aborts when there is no free stack. A coroutine that gets its own stack goes on. -/
def startNewCoroutine (s : State K F) : Option (State K F) :=
  match s.free with
  | [] => none
  | k :: free =>
    some { s with
      free := free
      current := some k
      pc := if s.current = some k then .piece else .getNewPiece
      suspendedIn := update s.suspendedIn k none }

/-- `ExitExecutionRoutine`, and `Reset` in the main coroutine. -/
def exitExecutionRoutine (s : State K F) (me : K) : Option (State K F) :=
  if s.paused = none ∧ s.ready = [] then
    some { s.returnCoroStack me with current := none, pc := .main }
  else none

/-- `ready_queue.Pop()` has returned a coroutine. -/
def popReady (s : State K F) (ready : List K) : State K F :=
  { s with ready := ready, numDetached := sub64 s.numDetached 1 }

end State

namespace Config

open State

variable (P : Config K)

/-! ## The out-of-order buffer -/

/-- `CoroStack::MinHeapCompare`. -/
def minHeapCompare (coro : K → CoroStack) (a b : K) : Bool :=
  if (coro b).preemptKey < (coro a).preemptKey then true
  else if (coro a).preemptKey < (coro b).preemptKey then false
  else if (coro b).schedKey < (coro a).schedKey then true
  else if (coro a).schedKey < (coro b).schedKey then false
  else 0 < P.fvSignals (coro a).runningPiece

/-- The keys of a coroutine that preempts itself once more. -/
def backoff (c : CoroStack) : CoroStack :=
  let times := (c.preemptTimes + 1) % 2 ^ 64
  { c with
    preemptTimes := times
    preemptKey := (c.schedKey + kPreemptKeyThreshold * min times kMaxBackoff) % 2 ^ 64 }

def pushSelf (s : State K F) (me : K) : State K F :=
  let coro := update s.coro me (backoff (s.coro me))
  { s with
    coro := coro
    oooBuffer := pushHeap (P.minHeapCompare coro) (update s.oooBuffer s.oooBufferLen me)
      (s.oooBufferLen + 1)
    oooBufferLen := s.oooBufferLen + 1 }

def popOoo (s : State K F) : State K F :=
  { s with
    oooBuffer := popHeap (P.minHeapCompare s.coro) s.oooBuffer s.oooBufferLen
    oooBufferLen := s.oooBufferLen - 1 }

/-- Whether to go on with the candidate, which is in front of the buffer. -/
def switches (s : State K F) (candidate : K) : Prop :=
  0 < s.oooBufferLen ∧ (s.oooBufferLen = P.oooBufferSize ∨
    (s.queues.pq.len = 0 ∨ (s.coro candidate).preemptKey < (s.queues.pq.q 0).key))

instance (s : State K F) (candidate : K) : Decidable (P.switches s candidate) :=
  inferInstanceAs (Decidable (_ ∧ _))

/-! ## `GetNewPiece` -/

def assign (s : State K F) (me : K) (c : CoroStack) (r : RoutineRef) : State K F :=
  { s with
    coro := update s.coro me { c with schedKey := r.schedKey, runningPiece := r }
    pc := .piece }

def runZero (s : State K F) (me : K) : State K F :=
  let zq := s.queues.dispatch.zq
  assign { s with
    queues := { s.queues with
      dispatch := { s.queues.dispatch with zq := { zq with start := zq.start + 1 } } } }
    me (s.coro me) (zq.q zq.start)

/-- The coroutine that has paused itself runs again. -/
def runPaused (s : State K F) (me : K) : State K F :=
  let s := { s with paused := none }
  s.shutdownAndSwitchTo me s.paused

def getNewPiece (s : State K F) (me : K) (isReady : Bool) : Option (State K F) :=
  if s.queues.dispatch.zq.start < s.queues.dispatch.zq.stop then some (runZero s me)
  else if isReady = false then s.exitExecutionRoutine me
  else if s.paused ≠ none then some (runPaused s me)
  else
    (s.queues.processPending P.maxItem P.limit).map fun queues =>
      { s with queues := queues, pc := .picking }

/-- `Pick` and `Consume`. -/
def runPiece (s : State K F) (me : K) : Option (State K F) :=
  s.queues.pq.pick.bind fun v =>
    (s.queues.pq.consume v).map fun pq =>
      assign { s with
        queues := { s.queues with pq := pq, pending := s.queues.pending.filter (· ≠ v) } }
        me { s.coro me with preemptTimes := 0 } v.routine

def pick (s : State K F) (me : K) : Option (State K F) :=
  match s.ready with
  | k :: ready => some ((s.popReady ready).shutdownAndSwitchTo me (some k))
  | [] =>
    let waiting := s.oooBuffer 0
    if P.switches s waiting then some ((P.popOoo s).shutdownAndSwitchTo me (some waiting))
    else if s.queues.pq.len ≠ 0 then runPiece s me
    else some { s with pc := .finishing }

def finish (s : State K F) (me : K) (shouldRetry : Bool) : Option (State K F) :=
  if shouldRetry then some { s with pc := .getNewPiece }
  else if 0 < s.numDetached then some { s with pc := .picking }
  else if s.free.length = P.maxNrCoroutine - 1 then s.exitExecutionRoutine me
  else none

/-! ## `WaitForVHandleVal` -/

/-- The candidate has waited for too long, while the priority queue has an earlier piece. -/
def deadlocked (s : State K F) (candidate : K) : Prop :=
  s.oooBufferLen = P.oooBufferSize ∧ kMaxBackoff < (s.coro candidate).preemptTimes ∧
    ((s.queues.pq.q 0).key < (s.coro candidate).schedKey ∨
      ((s.coro candidate).schedKey = (s.queues.pq.q 0).key ∧
        0 < P.fvSignals (s.coro candidate).runningPiece))

instance (s : State K F) (candidate : K) : Decidable (P.deadlocked s candidate) :=
  inferInstanceAs (Decidable (_ ∧ _))

/-- The loop over the buffer, with the coroutines that stay. -/
def requeueLoop (s : State K F) : List K → Option (State K F × List K)
  | [] => some (s, [])
  | k :: ks =>
    if (s.queues.pq.q 0).key ≤ (s.coro k).schedKey then
      (s.queues.addAll P.limit [(s.coro k).runningPiece]).bind fun queues =>
        requeueLoop (({ s with queues := queues } : State K F).returnCoroStack k) ks
    else (requeueLoop s ks).map fun (s, kept) => (s, k :: kept)

def requeue (s : State K F) : Option (State K F) :=
  (P.requeueLoop s (seg s.oooBuffer 0 s.oooBufferLen)).map fun (s, kept) =>
    { s with
      oooBuffer := makeHeap P.less (fun i => kept.getD i (s.oooBuffer i)) kept.length
      oooBufferLen := kept.length }

/-- From the resolution of deadlocks on. -/
def resolve (s : State K F) (me candidate : K) : Option (State K F) :=
  (if P.deadlocked s candidate then P.requeue s else some s).bind fun s =>
    if P.switches s candidate then
      let s := P.popOoo s
      if candidate = me then some { s with pc := .piece }
      else some ((s.suspend me .piece).yieldTo (some candidate))
    else if s.queues.pq.len ≠ 0 then (s.suspend me .piece).startNewCoroutine
    -- the code aborts
    else none

/-- After the coroutine has put itself into the buffer. -/
def findNext (s : State K F) (me : K) : Option (State K F) :=
  let candidate := s.oooBuffer 0
  let zq := s.queues.dispatch.zq
  if s.oooBufferLen = 0 ∧
      (s.queues.pq.len = 0 ∨ (s.coro candidate).preemptKey < (s.queues.pq.q 0).key) ∧
      zq.stop ≤ zq.start ∧ s.ready = [] then
    some { s with pc := .piece }
  else if zq.start < zq.stop then (s.suspend me .piece).startNewCoroutine
  else
    match s.ready with
    | k :: ready =>
      if s.oooBufferLen < P.oooBufferSize then
        some (((s.popReady ready).suspend me .piece).yieldTo (some k))
      else if s.paused = none then
        some ((({ s.popReady ready with paused := some me } : State K F).suspend me
          (.resolving candidate)).yieldTo (some k))
      else none
    | [] => P.resolve s me candidate

def preempt (s : State K F) (me : K) : Option (State K F) :=
  if (s.coro me).schedKey = 0 then some { s with pc := .piece }
  -- "OOO Window is full"
  else if s.oooBufferLen = P.oooBufferSize then none
  else P.findNext (P.pushSelf s me) me

def waitForVHandleVal (s : State K F) : Option (State K F) :=
  if s.paused = none then
    (s.queues.processPending P.maxItem P.limit).map fun queues =>
      { s with queues := queues, pc := .preempting }
  else none

/-! ## Futures -/

def waitForFutureValue (s : State K F) (me : K) (f : F) (ready : Bool) : Option (State K F) :=
  if P.useSignalFuture = false then P.waitForVHandleVal s
  else if f ∈ s.attached.map Prod.fst then none
  else if ready then some s
  else
    (({ s with
      attached := (f, me) :: s.attached
      numDetached := (s.numDetached + 1) % 2 ^ 64 } : State K F).suspend me
        .piece).startNewCoroutine

def setReady (s : State K F) (f : F) : State K F :=
  match s.attached.find? (·.1 = f) with
  | none => s
  | some a => { s with attached := s.attached.erase a, ready := a.2 :: s.ready }

def setDispatch (s : State K F) (d : Dispatch.State) : State K F :=
  { s with queues := { s.queues with dispatch := d } }

/-! ## Steps -/

def advance (s : State K F) (me : K) : Pc K → Event F → Option (State K F)
  | .getNewPiece, .getNewPiece isReady => P.getNewPiece s me isReady
  | .picking, .pick => P.pick s me
  | .finishing, .finish shouldRetry => P.finish s me shouldRetry
  | .piece, .complete => some { s with pc := .getNewPiece }
  | .piece, .waitForVHandleVal => P.waitForVHandleVal s
  | .preempting, .preempt => P.preempt s me
  | .resolving candidate, .resolve => P.resolve s me candidate
  | .piece, .waitForFutureValue f ready => P.waitForFutureValue s me f ready
  | _, _ => none

def step (s : State K F) (e : Event F) : Option (State K F) :=
  let s := { s with switched := none }
  match e with
  | .startCoroExec => if s.pc = .main then s.startNewCoroutine else none
  | .setReady f => some (setReady s f)
  | .add batch => (s.queues.dispatch.step P.maxItem (.add batch)).map (setDispatch s)
  | .adder => (s.queues.dispatch.step P.maxItem .adder).map (setDispatch s)
  | e => s.current.bind fun me => P.advance s me s.pc e

end Config

end

end Felis.Coro.Stacks
