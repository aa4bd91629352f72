import Felis.Foundations.Cells
import Felis.Foundations.Runs

/-!
# The queues of a core

A core has a zero queue for the pieces without a scheduling key and a ring for the others. `Add`
puts a batch into the two under the lock of the core: it writes the slots first and publishes the
new ends when the batch is through. When the ring is full it goes back to `again`. `ProcessPending`
is called by the core itself, without the lock: it hands what is in the ring to `AddToPriorityQueue`
and then moves the beginning of the ring. Of the priority queue the model has its memory, which is
given back at a `Reset` only, and the keys that have an entry in its hash table.

The accesses to the shared counters and slots are the steps of the model. All of `Add` is under the
lock, so at most one `Add` is between `Lock` and `Unlock`; of what it reads at `again`, only the
beginning of the ring is changed by anyone else. The counters of the ring have 32 bits and are
subtracted as numbers of 64 bits.

`added`, `zeros` and `handed` are no part of the program: the routines of all batches; those of
them, since the last `Reset`, that are for the zero queue; and what `AddToPriorityQueue` has been
called with.
-/

namespace Felis.Sched

open Cells

/-- The pointer to a `PieceRoutine`, with its key. -/
structure RoutineRef where
  id : ℕ
  schedKey : ℕ
  deriving DecidableEq

/-- The routine is for the zero queue. -/
def RoutineRef.isZero (r : RoutineRef) : Bool := r.schedKey = 0

/-- The difference of two numbers of 64 bits. -/
def sub64 (a b : ℕ) : ℕ := (a + (2 ^ 64 - b % 2 ^ 64)) % 2 ^ 64

theorem sub64_eq {a b : ℕ} (h : b ≤ a) : sub64 a b = (a - b) % 2 ^ 64 := by
  unfold sub64
  omega

namespace Dispatch

/-- A buffer that does not wrap around. -/
structure ZeroQueue where
  q : ℕ → RoutineRef
  start : ℕ
  stop : ℕ

/-- The ring of the pieces that are not yet in the priority queue. -/
structure Pending where
  q : ℕ → RoutineRef
  start : ℕ
  stop : ℕ

/-- Where the `Add` is that holds the lock. -/
inductive Adding
  /-- At `again`, with the rest of the batch. -/
  | again (todo : List RoutineRef)
  | loop (todo : List RoutineRef) (zend zdelta pend pdelta plimit : ℕ)
  | publishZero (zdelta pdelta : ℕ)
  | publishPending (pdelta : ℕ)
  | unlock
  deriving DecidableEq

/-- Where the core is in `ProcessPending`. -/
inductive Processing
  | idle
  | readEnd (pstart : ℕ)
  | loop (pstart i plen : ℕ)
  | publish (plen : ℕ)
  deriving DecidableEq

structure State where
  zq : ZeroQueue
  pending : Pending
  /-- How much of the memory of the priority queue is used. -/
  brk : ℕ
  /-- The keys in the hash table. -/
  entries : List ℕ
  adding : Option Adding
  processing : Processing
  added : List RoutineRef
  zeros : List RoutineRef
  handed : List RoutineRef

inductive Event
  | add (batch : List RoutineRef)
  | adder
  | processor
  /-- The core consumes the last piece with the key. -/
  | consume (key : ℕ)
  | reset
  deriving DecidableEq

namespace State

def init (zq pending : ℕ → RoutineRef) : State where
  zq := ⟨zq, 0, 0⟩
  pending := ⟨pending, 0, 0⟩
  brk := 0
  entries := []
  adding := none
  processing := .idle
  added := []
  zeros := []
  handed := []

variable (maxItem : ℕ)

/-- The `Add` with the lock goes on. -/
def addStep (s : State) : Adding → Option State
  | .again todo =>
    let pend := s.pending.stop
    let plimit := sub64 maxItem (sub64 pend s.pending.start)
    some { s with adding := some (.loop todo s.zq.stop 0 pend 0 plimit) }
  | .loop [] _ zdelta _ pdelta _ => some { s with adding := some (.publishZero zdelta pdelta) }
  | .loop (r :: todo) zend zdelta pend pdelta plimit =>
    if r.isZero then
      -- the code aborts: "Preallocation of DispatchService is too small."
      if maxItem ≤ zend + zdelta then none
      else
        some { s with
          zq := { s.zq with q := Function.update s.zq.q (zend + zdelta) r }
          adding := some (.loop todo zend (zdelta + 1) pend pdelta plimit) }
    else if plimit ≤ pdelta then some { s with adding := some (.again (r :: todo)) }
    else
      some { s with
        pending := { s.pending with
          q := Function.update s.pending.q ((pend + pdelta) % maxItem) r }
        adding := some (.loop todo zend zdelta pend (pdelta + 1) plimit) }
  | .publishZero zdelta pdelta =>
    some { s with
      zq := { s.zq with stop := s.zq.stop + zdelta }
      adding := some (.publishPending pdelta) }
  | .publishPending pdelta =>
    some { s with
      pending := { s.pending with stop := (s.pending.stop + pdelta) % 2 ^ 32 }
      adding := some .unlock }
  | .unlock => some { s with adding := none }

/-- The memory that `AddToPriorityQueue` takes: 64 bytes for the piece and 64 for a new entry. -/
def cost (entries : List ℕ) (r : RoutineRef) : ℕ := if r.schedKey ∈ entries then 64 else 128

/-- The memory of the priority queue. -/
def brkLimit : ℕ := 64 * maxItem % 2 ^ 64

/-- `AddToPriorityQueue`. The code aborts when the memory is used up. -/
def addToPriorityQueue (s : State) (r : RoutineRef) : Option State :=
  if brkLimit maxItem < s.brk + cost s.entries r then none
  else
    some { s with
      brk := s.brk + cost s.entries r
      entries := s.entries.insert r.schedKey
      handed := s.handed ++ [r] }

def processStep (s : State) : Processing → Option State
  | .idle => some { s with processing := .readEnd s.pending.start }
  | .readEnd pstart => some { s with processing := .loop pstart 0 (sub64 s.pending.stop pstart) }
  | .loop pstart i plen =>
    if i < plen then
      (s.addToPriorityQueue maxItem (s.pending.q ((pstart + i) % maxItem))).map fun s =>
        { s with processing := .loop pstart (i + 1) plen }
    else some { s with processing := .publish plen }
  | .publish plen =>
    some { s with
      pending := { s.pending with start := (s.pending.start + plen) % 2 ^ 32 }
      processing := .idle }

def step (s : State) : Event → Option State
  | .add batch =>
    if s.adding = none then
      some { s with
        adding := some (.again batch)
        added := s.added ++ batch
        zeros := s.zeros ++ batch.filter (·.isZero) }
    else none
  | .adder => s.adding.bind (s.addStep maxItem)
  | .processor => s.processStep maxItem s.processing
  | .consume key =>
    if s.processing = .idle ∧ key ∈ s.entries then some { s with entries := s.entries.erase key }
    else none
  | .reset =>
    if s.adding = none then
      some { s with zq := { s.zq with start := 0, stop := 0 }, brk := 0, zeros := [] }
    else none

end State

end Dispatch

end Felis.Sched
