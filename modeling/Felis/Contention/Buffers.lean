import Felis.Foundations.Runs
import Felis.Row.Spec

/-!
# Batch append

With batch append a contended row gets a buffer position, and every core then collects the versions
it appends in its own `VersionBuffer` at that position. The buffers are merged into the row under
the row lock: when a buffer is full, opportunistically when it is more than half full, and by
`FinalizeFlush` at the end.

The model has one row and any number of cores. A step is one critical section under the row lock,
one update of a core's own buffer, or the installation of the buffer position. The state also
remembers what was appended and how many versions the collector has dropped.
-/

namespace Felis.Contention

open Cells Row Runs Function

/-- `VersionBuffer::kMaxBatch`. -/
def kMaxBatch : ℕ := 255

/-- The buffer of one core at the row's position, with its bit in the bitmap. `buf_cnt` is the
number of versions. -/
structure VersionBuffer where
  versions : List ℕ
  ondspltCnt : ℕ
  bit : Bool
  deriving DecidableEq

/-- The buffer after a flush. -/
def VersionBuffer.empty : VersionBuffer := ⟨[], 0, false⟩

/-- The row, the buffers of all cores, and what has happened so far. -/
structure State (C : Type) where
  row : VHandle
  bufs : C → VersionBuffer
  /-- All versions that `AppendNewVersion` has been called with. -/
  appended : List ℕ
  /-- The core has run `FinalizeFlush` since its last append. -/
  settled : C → Bool
  /-- How many versions the collector dropped at the first append to the row. -/
  firstDrop : Option ℕ
  /-- How many it dropped at later appends. -/
  laterDrops : ℕ
  /-- Some later append did not fit into an array of at least 512K slots. -/
  outgrew : Bool

inductive Event (C : Type)
  /-- `AppendNewVersionNoLock` under the row lock: the direct path and the slow path. -/
  | locked (c : C) (svc : Services) (sid : ℕ) (weight : ℤ)
  /-- The compare-and-swap on `buf_pos` with the backref and `IncrementPos`. -/
  | install (c : C) (pos : ℕ)
  /-- `VersionBufferHandle::Append` on a buffer that is not full. -/
  | push (c : C) (sid : ℕ) (ondemandSplit : Bool)
  /-- `VersionBufferHandle::Append` on a full buffer; the two services are those of the two calls
  of `IncreaseSize`. -/
  | fullFlush (c : C) (svc svc' : Services) (sid : ℕ) (ondemandSplit : Bool)
  /-- The flush that `VersionBufferHandle::Append` makes when it gets the lock. -/
  | halfFlush (c : C) (svc : Services)
  | finalizeFlush (c : C) (svc : Services)

/-- The versions of an `AppendNewVersion` call. -/
def Event.sids {C : Type} : Event C → List ℕ
  | .locked _ _ sid _ => [sid]
  | .push _ sid _ => [sid]
  | .fullFlush _ _ _ sid _ => [sid]
  | _ => []

variable {C : Type}

namespace State

/-- All buffers are empty when the epoch starts. -/
def start (row : VHandle) : State C where
  row := row
  bufs := fun _ => .empty
  appended := []
  settled := fun _ => true
  firstDrop := none
  laterDrops := 0
  outgrew := false

/-- The state after a critical section that merged `sids` into the row. -/
def commit (s : State C) (sids : List ℕ) (row' : VHandle) : State C :=
  let dropped := s.row.size + sids.length - row'.size
  match s.firstDrop with
  | none => { s with row := row', firstDrop := some dropped }
  | some _ =>
    { s with
      row := row'
      laterDrops := s.laterDrops + dropped
      outgrew := s.outgrew ||
        (decide (s.row.size + sids.length > s.row.capacity) &&
          decide (s.row.capacity ≥ 512 * 1024)) }

@[simp] theorem commit_bufs (s : State C) (sids : List ℕ) (row' : VHandle) :
    (s.commit sids row').bufs = s.bufs := by
  rw [State.commit]
  cases s.firstDrop <;> rfl

@[simp] theorem commit_row (s : State C) (sids : List ℕ) (row' : VHandle) :
    (s.commit sids row').row = row' := by
  rw [State.commit]
  cases s.firstDrop <;> rfl

@[simp] theorem commit_settled (s : State C) (sids : List ℕ) (row' : VHandle) :
    (s.commit sids row').settled = s.settled := by
  rw [State.commit]
  cases s.firstDrop <;> rfl

@[simp] theorem commit_appended (s : State C) (sids : List ℕ) (row' : VHandle) :
    (s.commit sids row').appended = s.appended := by
  rw [State.commit]
  cases s.firstDrop <;> rfl

variable [DecidableEq C]

/-- The state after a call of `AppendNewVersion(sid)` on the core `c`. -/
def called (s : State C) (c : C) (sid : ℕ) : State C :=
  { s with appended := sid :: s.appended, settled := update s.settled c false }

def setBuf (s : State C) (c : C) (buf : VersionBuffer) : State C :=
  { s with bufs := update s.bufs c buf }

/-- `IncreaseSize` and `FlushIntoNoLock` for the buffer of the core `c`. -/
def flush (epochNr : ℕ) (s : State C) (c : C) (svc : Services) : Option (State C) :=
  (appendBatch svc s.row (s.bufs c).versions epochNr).toOption.map fun row =>
    (s.commit (s.bufs c).versions (addOndsplt row (s.bufs c).ondspltCnt)).setBuf c .empty

/-- `AppendNewVersionNoLock`, with `extra` more for the splitting counter. -/
def appendLocked (epochNr : ℕ) (s : State C) (svc : Services) (sid : ℕ) (weight extra : ℤ) :
    Option (State C) :=
  (appendNewVersionNoLock svc s.row sid epochNr weight).toOption.map fun row =>
    s.commit [sid] (addOndsplt row extra)

/-- One step. -/
def step (epochNr : ℕ) (s : State C) : Event C → Option (State C)
  | .locked c svc sid weight => (s.appendLocked epochNr svc sid weight 0).map (called · c sid)
  | .install _ pos =>
    if s.row.bufPos = -1 then some { s with row := { s.row with bufPos := pos } } else none
  | .push c sid ondemandSplit =>
    if s.row.bufPos ≠ -1 ∧ (s.bufs c).versions.length ≠ kMaxBatch then
      some ((s.setBuf c ⟨(s.bufs c).versions ++ [sid], (s.bufs c).ondspltCnt + ondemandSplit.toNat,
          (s.bufs c).bit || (s.bufs c).versions.isEmpty⟩).called c sid)
    else none
  | .fullFlush c svc svc' sid ondemandSplit =>
    if s.row.bufPos ≠ -1 ∧ (s.bufs c).versions.length = kMaxBatch then
      (s.appendLocked epochNr svc sid ondemandSplit.toNat ondemandSplit.toNat).bind fun s =>
        (s.flush epochNr c svc').map (called · c sid)
    else none
  | .halfFlush c svc =>
    if s.row.bufPos ≠ -1 ∧ (s.bufs c).versions.length > kMaxBatch / 2 then s.flush epochNr c svc
    else none
  | .finalizeFlush c svc =>
    if s.row.bufPos ≠ -1 ∧ (s.bufs c).bit then
      (s.flush epochNr c svc).map fun s => { s with settled := update s.settled c true }
    else some { s with settled := update s.settled c true }

/-- How many versions the collector has dropped in all. -/
def dropped (s : State C) : ℕ := s.firstDrop.getD 0 + s.laterDrops

end State

end Felis.Contention
