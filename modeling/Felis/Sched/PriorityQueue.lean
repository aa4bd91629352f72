import Felis.Foundations.BinaryHeap
import Felis.Sched.DispatchQueue

/-!
# The priority queue of a core

Many pieces have the same key, so the priority queue has one heap entry for a key and a list of the
pieces with this key. The list belongs to a hash entry, which is found through a chained hash table.
`AddToPriorityQueue` finds or makes the hash entry and puts the piece at the end of its list; when
the list was empty, `IngestPending` pushes a heap entry for it. `Pick` takes the first piece of the
entry in front of the heap. `Consume` removes it, and with the last piece the heap entry and the
hash entry.

Hash entries and list nodes are 64 bytes each, from memory that is never given back before the end
of an epoch; they are named by their offsets. Their links are the lists `ht` and `values`:
`InsertAfter` of the last node appends to a list, and `Remove` takes a node out of the list it is
in.
-/

namespace Felis.Sched

open BinaryHeap Function

def kHashTableSize : ℕ := 100001

/-- `unsigned int Hash(uint64_t key)`. -/
def hash (key : ℕ) : ℕ := (key >>> 8) % 2 ^ 32

def bucket (key : ℕ) : ℕ := hash key % kHashTableSize

/-- A node of the list of a hash entry. -/
structure PriorityQueueValue where
  addr : ℕ
  routine : RoutineRef
  deriving DecidableEq

def PriorityQueueValue.key (v : PriorityQueueValue) : ℕ := v.routine.schedKey

structure PriorityQueueHashEntry where
  key : ℕ
  values : List PriorityQueueValue

structure PriorityQueueHeapEntry where
  key : ℕ
  ent : Option ℕ
  deriving DecidableEq

def PriorityQueueHeapEntry.greater (a b : PriorityQueueHeapEntry) : Bool := b.key < a.key

structure PriorityQueue where
  q : ℕ → PriorityQueueHeapEntry
  len : ℕ
  /-- The entries in the chain of a bucket. -/
  ht : ℕ → List ℕ
  ent : ℕ → PriorityQueueHashEntry
  /-- The offset of the memory that has not been allocated. -/
  brk : ℕ

namespace PriorityQueue

open PriorityQueueHeapEntry (greater)

def empty (q : ℕ → PriorityQueueHeapEntry) (ent : ℕ → PriorityQueueHashEntry) : PriorityQueue where
  q := q
  len := 0
  ht _ := []
  ent := ent
  brk := 0

/-- `brk.Alloc(64)`. The code aborts when the memory is used up. -/
def alloc (limit : ℕ) (s : PriorityQueue) : Option (ℕ × PriorityQueue) :=
  if limit < s.brk + 64 then none else some (s.brk, { s with brk := s.brk + 64 })

def setValues (s : PriorityQueue) (e : ℕ) (values : List PriorityQueueValue) : PriorityQueue :=
  { s with ent := update s.ent e ⟨(s.ent e).key, values⟩ }

@[simp] theorem key_setValues (s : PriorityQueue) (e e' : ℕ) (values : List PriorityQueueValue) :
    ((s.setValues e values).ent e').key = (s.ent e').key := by
  by_cases he : e' = e
  · simp [he, setValues]
  · simp only [setValues, update_of_ne he]

@[simp] theorem values_setValues (s : PriorityQueue) (e : ℕ) (values : List PriorityQueueValue) :
    ((s.setValues e values).ent e).values = values := by
  simp [setValues]

theorem values_setValues_of_ne (s : PriorityQueue) {e e' : ℕ} (he : e' ≠ e)
    (values : List PriorityQueueValue) :
    ((s.setValues e values).ent e').values = (s.ent e').values := by
  simp only [setValues, update_of_ne he]

/-- `ConservativePriorityScheduler::IngestPending`. -/
def ingestPending (s : PriorityQueue) (hent : ℕ) (value : PriorityQueueValue) : PriorityQueue :=
  let s :=
    if (s.ent hent).values = [] then
      { s with
        q := pushHeap greater (update s.q s.len ⟨(s.ent hent).key, some hent⟩) (s.len + 1)
        len := s.len + 1 }
    else s
  s.setValues hent ((s.ent hent).values ++ [value])

/-- The search in the chain of the key; a new entry is put at its end. -/
def findEntry (limit : ℕ) (s : PriorityQueue) (key : ℕ) : Option (ℕ × PriorityQueue) :=
  match (s.ht (bucket key)).find? fun e => (s.ent e).key = key with
  | some e => some (e, s)
  | none =>
    (s.alloc limit).map fun (e, s) =>
      (e, { s with
        ent := update s.ent e ⟨key, []⟩
        ht := update s.ht (bucket key) (s.ht (bucket key) ++ [e]) })

def addToPriorityQueue (limit : ℕ) (s : PriorityQueue) (rt : RoutineRef) :
    Option PriorityQueue := do
  let (node, s) ← s.alloc limit
  let (ent, s) ← s.findEntry limit rt.schedKey
  return s.ingestPending ent ⟨node, rt⟩

/-- `ConservativePriorityScheduler::Pick`. -/
def pick (s : PriorityQueue) : Option PriorityQueueValue :=
  (s.q 0).ent.bind fun e => (s.ent e).values.head?

/-- `node->Remove()`. -/
def removeValue (s : PriorityQueue) (node : PriorityQueueValue) : PriorityQueue :=
  { s with ent := fun e => { s.ent e with values := (s.ent e).values.filter (· ≠ node) } }

/-- `ConservativePriorityScheduler::Consume`. -/
def consume (s : PriorityQueue) (node : PriorityQueueValue) : Option PriorityQueue :=
  let s := s.removeValue node
  (s.q 0).ent.map fun top =>
    if (s.ent top).values = [] then
      let q := popHeap greater s.q s.len
      { s with
        q := update q (s.len - 1) { q (s.len - 1) with ent := none }
        len := s.len - 1
        ht := fun b => (s.ht b).filter (· ≠ top) }
    else s

end PriorityQueue

end Felis.Sched
