import Felis.Row.Basic
import Felis.Foundations.MachineInts

/-!
# Collecting old versions and appending new ones

`GC::Collect` drops the oldest versions of a row, as long as the version after a dropped one is
still older than the current epoch. `IncreaseSize` books room for new versions at the end of the
arrays: it grows the block when it is full, fills the new object slots with the pending value,
and on the first call of an epoch moves `cur_start` behind the written versions and collects.
`AbsorbNewVersionNoLock` then sorts one booked version into place, and `FlushIntoNoLock` a whole
sorted buffer from its largest version down, opening a gap as wide as the rest of the buffer.
-/

namespace Felis.Row

open Cells Util Function MachineInts

/-! ## `GC::Collect` -/

/-- The counting loop of `Collect`. `size - 1` is an unsigned difference in the source: the
collector only ever sees rows that hold a version. -/
def collectCount (row : VHandle) (curEpochNr limit : ℕ) : ℕ :=
  scanWhile (fun i => decide (i + 1 < row.size) && decide (i < limit) &&
    decide (row.versions (i + 1) >>> 32 < curEpochNr)) row.size 0

/-- The loop over `FreeIfGarbage`: the objects that are passed to `delete`. The length of an object
is read first, which a pending value does not have. -/
def freeGarbage (row : VHandle) : List ℕ → Except Fault (List ℕ)
  | [] => .ok []
  | p :: ps => do
    let garbage ← isDataGarbage row p
    if garbage && isPendingVal p then throw (.pendingPointer p)
    let rest ← freeGarbage row ps
    return if garbage then p :: rest else rest

/-- Both halves of the block moved down by `i` slots. `cur_start` is unsigned and can still be that
of an earlier epoch, so the difference may wrap. -/
def shiftDown (row : VHandle) (i : ℕ) : VHandle where
  addr := row.addr
  inlineUsed := row.inlineUsed
  capacity := row.capacity
  size := row.size - i
  curStart := if i ≤ row.curStart then row.curStart - i else row.curStart + 2 ^ 32 - i
  latestVersion := row.latestVersion - i
  nrOndsplt := row.nrOndsplt
  contAffinity := row.contAffinity
  allocByRegionid := row.allocByRegionid
  versions := moveCells
    (moveCells row.versions (row.capacity + i) row.capacity (row.size - i)) i 0 (row.size - i)
  bufPos := row.bufPos
  gcHandle := row.gcHandle

/-- What `Collect` leaves: the row, the number of dropped versions, the deleted objects. -/
structure Collected where
  row : VHandle
  nr : ℕ
  freed : List ℕ

/-- `GC::Collect`. -/
def collect (row : VHandle) (curEpochNr limit : ℕ) : Except Fault Collected := do
  let i := collectCount row curEpochNr limit
  if i = 0 then return ⟨row, 0, []⟩
  let freed ← freeGarbage row (seg row.versions row.capacity i)
  return ⟨shiftDown row i, i, freed⟩

/-! ## `IncreaseSize` -/

/-- `EnlargePair64Array`: both halves copied to a new block, whose other cells keep what the
allocator left in them. -/
def enlargePair64Array (old : ℕ → ℕ) (oldCap newCap : ℕ) (fresh : ℕ → ℕ) : ℕ → ℕ :=
  fun k =>
    if k < oldCap then old k
    else if newCap ≤ k ∧ k < newCap + oldCap then old (oldCap + (k - newCap))
    else fresh k

/-- `max(8, 1 << (32 - clz(size)))`. -/
def newCapacity (size : ℕ) : ℕ := max 8 (2 ^ (highestBit size + 1))

/-- The reallocation in `IncreaseSize`, with the size already raised. -/
def enlarge (svc : Services) (row : VHandle) : Except Fault VHandle :=
  if row.size > row.capacity then
    match svc.alloc (2 * newCapacity row.size) with
    | none => .error (.memoryAllocationFailure (row.versions 1 >>> 32))
    | some fresh => .ok { row with
        versions := enlargePair64Array row.versions row.capacity (newCapacity row.size) fresh
        capacity := newCapacity row.size
        allocByRegionid := svc.affinity }
  else .ok row

/-- The collection that `IncreaseSize` tries before it grows a large array. -/
def collectBeforeGrowth (row : VHandle) (delta epochNr : ℕ) : Except Fault VHandle :=
  if row.size + delta > row.capacity ∧ row.capacity ≥ 512 * 1024 then
    (collect row epochNr (16 * 1024)).map Collected.row
  else .ok row

/-- The last `delta` object slots of the row become pending. -/
def fillPending (row : VHandle) (delta : ℕ) : VHandle :=
  { row with versions :=
      fillCells row.versions (row.capacity + (row.size - delta)) delta kPendingValue }

/-- The collection at the first append of an epoch, for a row with the garbage handle `handle`;
the row is taken off the garbage list. -/
def collectRegistered (row : VHandle) (handle : ℕ) (latest : ℤ) (epochNr : ℕ) :
    Except Fault VHandle :=
  if handle = 0 then .ok row
  else if latest > 0 then
    (collect row epochNr (min (16 * 1024) latest.toNat)).map fun c => { c.row with gcHandle := 0 }
  else .ok { row with gcHandle := 0 }

/-- The check of the latest written object for garbage, made when none is known yet. -/
def findGarbage (row : VHandle) (garbageLeft : Bool) : Except Fault Bool :=
  if garbageLeft = false ∧ row.latestVersion ≥ 0 then
    isDataGarbage row (row.objects row.latestVersion.toNat)
  else .ok garbageLeft

/-- The row is put back on the garbage list when garbage is left. -/
def registerGarbage (svc : Services) (row : VHandle) (garbageLeft : Bool) (epochNr : ℕ) :
    Except Fault VHandle :=
  if garbageLeft then
    if epochNr = 0 then .error .garbageDuringLoader else .ok { row with gcHandle := svc.addRow }
  else .ok row

/-- The end of `IncreaseSize`: on the first append of an epoch `cur_start` is moved. -/
def startEpoch (svc : Services) (row : VHandle) (handle : ℕ) (latest : ℤ) (epochNr : ℕ) :
    Except Fault VHandle :=
  if (row.curStart : ℤ) ≠ latest + 1 then do
    let row ← collectRegistered { row with curStart := (latest + 1).toNat } handle latest epochNr
    let garbageLeft ← findGarbage row (decide (latest ≥ 16 * 1024))
    registerGarbage svc row garbageLeft epochNr
  else .ok row

def increaseSize (svc : Services) (row : VHandle) (delta epochNr : ℕ) : Except Fault VHandle := do
  let handle := row.gcHandle
  let row ← collectBeforeGrowth row delta epochNr
  let latest := row.latestVersion
  let row ← enlarge svc { row with size := row.size + delta }
  startEpoch svc (fillPending row delta) handle latest epochNr

/-! ## Sorting new versions in -/

def bookNewVersionNoLock (row : VHandle) (sid pos : ℕ) : VHandle :=
  { row with versions := update row.versions pos sid }

/-- The place where `AbsorbNewVersionNoLock` puts `last`: searched in the last window of 1024
versions first, and in everything before it when the window is all greater. -/
def absorbSlot (versions : ℕ → ℕ) (stop last : ℕ) : ℕ :=
  let mark := (stop - 1) / 1024 * 1024
  let i := fastLowerBound versions mark stop last
  if i = mark then lowerBound versions 0 mark last else i

/-- `AbsorbNewVersionNoLock`: sort the version booked at `stop` into the versions before it, with
`extraShift` free slots left in front of it. -/
def absorbNewVersionNoLock (row : VHandle) (stop extraShift : ℕ) : VHandle × ℕ :=
  if stop = 0 then
    ({ row with versions := update row.versions extraShift (row.versions 0) }, 0)
  else
    let last := row.versions stop
    let i := absorbSlot row.versions stop last
    let moved := moveCells row.versions i (i + 1 + extraShift) (stop - i)
    ({ row with versions := update moved (i + extraShift) last }, i)

/-- `n`, if it is not zero, is added to the `int` that counts on-demand splits. -/
def addOndsplt (row : VHandle) (n : ℤ) : VHandle :=
  { row with nrOndsplt := if n ≠ 0 then signed 32 (row.nrOndsplt + n) else row.nrOndsplt }

def appendNewVersionNoLock (svc : Services) (row : VHandle) (sid epochNr : ℕ) (weight : ℤ) :
    Except Fault VHandle := do
  let row ← increaseSize svc (addOndsplt row weight) 1 epochNr
  return (absorbNewVersionNoLock (bookNewVersionNoLock row sid (row.size - 1)) (row.size - 1) 0).1

/-- The loop of `FlushIntoNoLock` over a buffer in descending order: the head is the version with
as many versions still to come as the tail has. -/
def flushLoop : List ℕ → VHandle → ℕ → VHandle
  | [], row, _ => row
  | sid :: rest, row, stop =>
    let (row, stop) := absorbNewVersionNoLock (bookNewVersionNoLock row sid stop) stop rest.length
    flushLoop rest row stop

/-- `IncreaseSize(n)` followed by the sorted absorb of the `n` versions of a buffer, as
`VersionBufferHandle::Append` and `ScanAndFinalize` do it under the row lock. -/
def appendBatch (svc : Services) (row : VHandle) (sids : List ℕ) (epochNr : ℕ) :
    Except Fault VHandle := do
  let row ← increaseSize svc row sids.length epochNr
  return flushLoop (sids.mergeSort (· ≤ ·)).reverse row (row.size - sids.length)

end Felis.Row
