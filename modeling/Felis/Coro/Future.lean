import Felis.Foundations.LinkedStack
import Felis.Foundations.Runs

/-!
# Waiting for a future

A coroutine that waits for a future attaches itself to the future and then looks once more whether
it has become ready. `SetReady` makes the future ready and then looks for a waiter. Whoever takes
the waiter out of the future decides: the coroutine goes on, or `SetReady` puts it into the ready
queue of its core, from where the core takes it when it has nothing else to run.

Every access to `ready`, to `waiter` and to the head of a ready queue is a step of the model. There
are any number of futures, each with the coroutine that waits for it, any number of calls of
`SetReady` for each, and any number of cores. A core waits and pops one after the other; the calls
of `SetReady` may be made anywhere. The nodes of a ready queue are allocated and never given back; a
node is written by the thread that has allocated it only.

`status`, `place`, `pushed` and `popped` are no part of the program: how far the wait for a future
is, where its coroutine is, and how often it has been put into and taken out of the queue of a core.
-/

namespace Felis.Coro.Future

/-- The size of the memory of a ready queue, and of a node. -/
def kListNodeBrkSize : ℕ := 16 * 1024 * 1024

def listNodeSize : ℕ := 16

/-- The futures, with the cores of the coroutines that wait for them, and the calls of
`SetReady`. -/
structure Futures (C F S : Type) where
  core : F → C
  target : S → F

/-- Where the wait for a future is. -/
inductive Wait
  /-- At the first look at `ready`. -/
  | check
  | attach
  /-- At the second look at `ready`. -/
  | recheck
  /-- At the exchange of `waiter` for `nullptr`. -/
  | cancel
  | detach
  deriving DecidableEq

inductive CoreAct (F : Type)
  | idle
  | wait (f : F) (pc : Wait)
  /-- `ReadyQueue::Pop`, at the load of `list_head`. -/
  | popHead
  | popNext (old : ℕ)
  | popTake (old : ℕ) (new : Option ℕ)
  deriving DecidableEq

/-- Where a call of `SetReady` is. -/
inductive Signal
  | idle
  | readWaiter
  /-- At the exchange of `waiter` for `nullptr`. -/
  | takeWaiter
  /-- In `ReadyQueue::Add`. -/
  | alloc
  | loadHead (node : ℕ)
  /-- At the exchange of `list_head`. -/
  | pushHead (node : ℕ) (old : Option ℕ)
  | done
  deriving DecidableEq

inductive Status
  | notCalled
  | waiting
  | returned
  | detached
  deriving DecidableEq

/-- Where the coroutine of a future is to be found. -/
inductive Place (S : Type)
  | nowhere
  | waiter
  /-- Taken by a call of `SetReady`, and not yet in the queue. -/
  | signal (σ : S)
  | queued
  | popped
  deriving DecidableEq

structure State (C F S : Type) where
  ready : F → Bool
  /-- Whether the coroutine of the future is its waiter. -/
  waiter : F → Bool
  queue : C → LinkedStack F
  core : C → CoreAct F
  signal : S → Signal
  status : F → Status
  place : F → Place S
  pushed : C → F → ℕ
  popped : C → F → ℕ

inductive Event (C F S : Type)
  /-- The core of the coroutine calls `WaitForFutureValue`. -/
  | wait (f : F)
  | pop (c : C)
  | core (c : C)
  | call (σ : S)
  | signal (σ : S)
  deriving DecidableEq

variable {C F S : Type}

def State.init (node : C → ℕ → LinkedStack.Node F) : State C F S where
  ready _ := false
  waiter _ := false
  queue c := ⟨none, node c, 0⟩
  core _ := .idle
  signal _ := .idle
  status _ := .notCalled
  place _ := .nowhere
  pushed _ _ := 0
  popped _ _ := 0

variable [DecidableEq C] [DecidableEq F] [DecidableEq S]

namespace State

def setCore (s : State C F S) (c : C) (a : CoreAct F) : State C F S :=
  { s with core := Function.update s.core c a }

def setSignal (s : State C F S) (σ : S) (a : Signal) : State C F S :=
  { s with signal := Function.update s.signal σ a }

def setQueue (s : State C F S) (c : C) (q : LinkedStack F) : State C F S :=
  { s with queue := Function.update s.queue c q }

def setStatus (s : State C F S) (f : F) (a : Status) : State C F S :=
  { s with status := Function.update s.status f a }

def setPlace (s : State C F S) (f : F) (p : Place S) : State C F S :=
  { s with place := Function.update s.place f p }

def setWaiter (s : State C F S) (f : F) (b : Bool) : State C F S :=
  { s with waiter := Function.update s.waiter f b }

def count (g : C → F → ℕ) (c : C) (f : F) : C → F → ℕ :=
  Function.update g c (Function.update (g c) f (g c f + 1))

/-- `WaitForFutureValue` goes on. -/
def waitStep (s : State C F S) (c : C) (f : F) : Wait → State C F S
  | .check =>
    if s.ready f then (s.setStatus f .returned).setCore c .idle else s.setCore c (.wait f .attach)
  | .attach => ((s.setWaiter f true).setPlace f .waiter).setCore c (.wait f .recheck)
  | .recheck => s.setCore c (.wait f (if s.ready f then .cancel else .detach))
  | .cancel =>
    if s.waiter f then
      (((s.setWaiter f false).setPlace f .nowhere).setStatus f .returned).setCore c .idle
    else s.setCore c (.wait f .detach)
  | .detach => (s.setStatus f .detached).setCore c .idle

def coreStep (s : State C F S) (c : C) : CoreAct F → Option (State C F S)
  | .idle => none
  | .wait f pc => some (s.waitStep c f pc)
  | .popHead =>
    match (s.queue c).head with
    | none => some (s.setCore c .idle)
    | some old => some (s.setCore c (.popNext old))
  | .popNext old => some (s.setCore c (.popTake old ((s.queue c).node old).next))
  | .popTake old new =>
    if (s.queue c).head = some old then
      let f := ((s.queue c).node old).val
      some { ((s.setQueue c ((s.queue c).setHead new)).setPlace f .popped).setCore c .idle with
        popped := count s.popped c f }
    else some (s.setCore c .popHead)

/-- `SetReady` goes on, for the future `f` with a coroutine of the core `c`. -/
def signalStep (s : State C F S) (σ : S) (f : F) (c : C) : Signal → Option (State C F S)
  | .idle => none
  | .readWaiter => some (s.setSignal σ (if s.waiter f then .takeWaiter else .done))
  | .takeWaiter =>
    if s.waiter f then
      some (((s.setWaiter f false).setPlace f (.signal σ)).setSignal σ .alloc)
    else some (s.setSignal σ .done)
  | .alloc =>
    -- the code aborts: "ListNode brk grew out of bound"
    if kListNodeBrkSize ≤ ((s.queue c).brk + 1) * listNodeSize then none
    else some ((s.setQueue c ((s.queue c).alloc f)).setSignal σ (.loadHead (s.queue c).brk))
  | .loadHead node => some (s.setSignal σ (.pushHead node (s.queue c).head))
  | .pushHead node old =>
    let q := (s.queue c).link node old
    if q.head = old then
      some { ((s.setQueue c (q.setHead (some node))).setPlace f .queued).setSignal σ .done with
        pushed := count s.pushed c f }
    else some ((s.setQueue c q).setSignal σ (.pushHead node q.head))
  | .done => none

end State

namespace Futures

variable (P : Futures C F S)

def step (s : State C F S) : Event C F S → Option (State C F S)
  | .wait f =>
    if s.core (P.core f) = .idle ∧ s.status f = .notCalled then
      some ((s.setStatus f .waiting).setCore (P.core f) (.wait f .check))
    else none
  | .pop c => if s.core c = .idle then some (s.setCore c .popHead) else none
  | .core c => s.coreStep c (s.core c)
  | .call σ =>
    if s.signal σ = .idle then
      some { s.setSignal σ .readWaiter with ready := Function.update s.ready (P.target σ) true }
    else none
  | .signal σ => s.signalStep σ (P.target σ) (P.core (P.target σ)) (s.signal σ)

end Futures

end Felis.Coro.Future
