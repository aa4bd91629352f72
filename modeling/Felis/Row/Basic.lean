import Felis.Util.LowerBound

/-!
# Versioned rows

The row of `vhandle.h`, a `SortedArrayVHandle`: one block of `2 * capacity` words whose first
half holds the version numbers and whose second half holds the object pointers, slot by slot. The
model keeps the block as one array, so that an access past the versions reads the words that
really stand there: the unused part of the array, or the first object when the array is full.

This module has the row itself and the operations of the execution phase:

* `withVersion` searches the slot that a serial id reads (`SortedArrayVHandle::WithVersion`);
* `readWithVersion` looks at that slot once (`ReadWithVersion`, with `WaitForData` left to the
  caller);
* `writeSlot`, `offerData`, `publish` and `finishWrite` are the stages of `WriteWithVersion`, and
  `writeWithVersion` is the whole function run alone.

Serial ids, object pointers and cells are 64-bit words and are kept as natural numbers; the
program only compares them and takes the epoch number from the upper half.
-/

namespace Felis.Row

open Cells Util

/-- `kPendingValue`, the content of an object slot that nobody has written. -/
def kPendingValue : ℕ := 0xFE1FE190FFFFFFFF

/-- `SpinnerSlot::IsPendingVal`: a waiting core clears its bit in the lower half of the word. -/
def isPendingVal (val : ℕ) : Bool := val >>> 32 == kPendingValue >>> 32

/-- `EpochClient::GenerateSerialId`, on the node `nodeId`. -/
def generateSerialId (nodeId epochNr sequence : ℕ) : ℕ :=
  epochNr <<< 32 ||| sequence <<< 8 ||| (nodeId &&& 0x00FF)

def epochOf (sid : ℕ) : ℕ := sid >>> 32

/-- Where a modelled function can stop the process, or leave its array. -/
inductive Fault
  /-- A read outside of the row's block. -/
  | outOfBounds (idx : ℤ)
  /-- "Memory allocation failure, second ver epoch {}" -/
  | memoryAllocationFailure (secondVerEpoch : ℕ)
  /-- "Diverging outcomes on {}! sid {} pos {}/{}" -/
  | divergingOutcomes (sid pos size : ℕ)
  /-- "??? row {} p {}" -/
  | pointerIntoRow (row p : ℕ)
  /-- A pending value is used as a pointer. -/
  | pendingPointer (p : ℕ)
  /-- "Should not even detect garbage during loader" -/
  | garbageDuringLoader
  deriving DecidableEq

/-- `SortedArrayVHandle`. -/
structure VHandle where
  addr : ℕ
  inlineUsed : ℕ
  capacity : ℕ
  size : ℕ
  curStart : ℕ
  /-- The latest written version's offset in `versions`. -/
  latestVersion : ℤ
  nrOndsplt : ℤ
  contAffinity : ℤ
  allocByRegionid : ℕ
  /-- The block: `[0, capacity)` are version numbers, `[capacity, 2 * capacity)` objects. -/
  versions : ℕ → ℕ
  bufPos : ℤ
  gcHandle : ℕ

namespace VHandle

def isInlined (row : VHandle) : Bool := row.inlineUsed != 0xFF

/-- `objects[i]`, where `objects = versions + capacity`. -/
def objects (row : VHandle) (i : ℕ) : ℕ := row.versions (row.capacity + i)

def versionList (row : VHandle) : List ℕ := seg row.versions 0 row.size

def objectList (row : VHandle) : List ℕ := seg row.versions row.capacity row.size

def entries (row : VHandle) : List (ℕ × ℕ) :=
  seg (fun i => (row.versions i, row.objects i)) 0 row.size

end VHandle

/-- A freshly constructed row at `addr`; the embedded array is what the memory held. -/
def newRow (addr affinity : ℕ) (mem : ℕ → ℕ) : VHandle where
  addr := addr
  inlineUsed := 0xFF
  capacity := 4
  size := 0
  curStart := 0
  latestVersion := -1
  nrOndsplt := 0
  contAffinity := -1
  allocByRegionid := affinity
  versions := mem
  bufPos := -1
  gcHandle := 0

/-- What differs between rows when they are created. The embedded array has room for 4 versions, and
in the hash index for one; `NewInline` clears `inline_used`. -/
structure Creation where
  addr : ℕ
  affinity : ℕ
  mem : ℕ → ℕ
  capacity : ℕ
  inlineUsed : ℕ

def Creation.row (c : Creation) : VHandle :=
  { newRow c.addr c.affinity c.mem with capacity := c.capacity, inlineUsed := c.inlineUsed }

/-! ## Reading -/

/-- The `std::lower_bound` at the end of `WithVersion`, with the check for a search that ends at
the first version. -/
def searchFrom (row : VHandle) (sid start stop : ℕ) : Option ℕ :=
  let p := lowerBound row.versions start stop sid
  if p = 0 then none else some (p - 1)

/-- `WithVersion`: the position of the slot that `sid` reads, `none` for a null pointer. The
shortcuts look at the neighbourhood of `latest_version` first; the second one reads the cell
before `latest_version`, which is outside of the block when that is `0`. -/
def withVersion (row : VHandle) (sid : ℕ) : Except Fault (Option ℕ) :=
  let latest := row.latestVersion
  if 0 ≤ latest ∧ sid > row.versions latest.toNat then
    let start := latest.toNat + 1
    if start ≥ row.size ∨ sid ≤ row.versions start then .ok (some (start - 1))
    else .ok (searchFrom row sid start row.size)
  else if 0 ≤ latest then
    let stop := latest.toNat
    if stop = 0 then .error (.outOfBounds (-1))
    else if row.versions (stop - 1) < sid then .ok (some (stop - 1))
    else .ok (searchFrom row sid row.curStart stop)
  else .ok (searchFrom row sid row.curStart row.size)

/-- What one look of `ReadWithVersion` finds. -/
inductive ReadResult
  | null
  /-- The slot at `pos` is pending: `WaitForData` keeps the reader there. -/
  | pending (pos : ℕ)
  | object (pos obj : ℕ)
  deriving DecidableEq

/-- `ReadWithVersion`, up to the waiting. -/
def readWithVersion (row : VHandle) (sid : ℕ) : Except Fault ReadResult := do
  match ← withVersion row sid with
  | none => return .null
  | some pos =>
    if isPendingVal (row.objects pos) then return .pending pos
    else return .object pos (row.objects pos)

/-- The word that `WaitForData` of a core installs before it spins: the core's bit is cleared. -/
def clearBit (val core : ℕ) : ℕ := val - (val &&& 2 ^ core)

/-- `WaitForData`'s compare-and-swap on the slot at `pos`. -/
def waitForData (row : VHandle) (pos core : ℕ) : VHandle :=
  if isPendingVal (row.objects pos) then
    { row with versions :=
        Function.update row.versions (row.capacity + pos) (clearBit (row.objects pos) core) }
  else row

/-! ## Writing -/

/-- `GC::IsDataGarbage`: null is not garbage, nor is data inside of the row, which only an inlined
row has. -/
def isDataGarbage (row : VHandle) (p : ℕ) : Except Fault Bool :=
  if p = 0 then .ok false
  else if row.addr < p ∧ p < row.addr + 256 then
    if row.isInlined then .ok false else .error (.pointerIntoRow row.addr p)
  else .ok true

/-- What the services around a row give back during one call: the contents of an array of the
given number of words from the data region (or null), the handle of `GC::AddRow`, and the core's
allocation affinity. -/
structure Services where
  alloc : ℕ → Option (ℕ → ℕ)
  addRow : ℕ
  affinity : ℕ

/-- Services whose new arrays are cleared. -/
def clearedMemory : Services where
  alloc := fun _ => some fun _ => 0
  addRow := 4096
  affinity := 0

/-- The first part of `WriteWithVersion`: the place of `sid`, tried first right after the latest
written version. That cell is one past the versions when the last version is written. -/
def writeSlot (row : VHandle) (sid : ℕ) : Except Fault ℕ :=
  let it := (row.latestVersion + 1).toNat
  if row.versions it = sid then .ok it
  else
    let it := lowerBound row.versions row.curStart row.size sid
    if it = row.size ∨ row.versions it ≠ sid then .error (.divergingOutcomes sid it row.size)
    else .ok it

/-- `OfferData` on the slot at `it`. -/
def offerData (row : VHandle) (it obj : ℕ) : VHandle :=
  { row with versions := Function.update row.versions (row.capacity + it) obj }

/-- One compare-and-swap that moves `latest_version` from `pos` to `it`. -/
def casLatest (row : VHandle) (pos : ℤ) (it : ℕ) : Option VHandle :=
  if row.latestVersion = pos then some { row with latestVersion := it } else none

/-- The loop that publishes `latest_version`, run alone: `pos` is the value read at the start. -/
def publish (row : VHandle) (pos : ℤ) (it : ℕ) : VHandle :=
  if pos < it then (casLatest row pos it).getD row else row

/-- The write of the last version of a row ends the splitting of the row. -/
def endSplitting (row : VHandle) (it : ℕ) : VHandle :=
  if it + 1 = row.size then { row with nrOndsplt := 0, contAffinity := -1 } else row

/-- Whether the write of a version that is not the last one goes on to register the row, which
`AddRow` refuses in the loader's epoch. -/
def leavesGarbage (row : VHandle) (it obj epochNr : ℕ) : Except Fault Bool :=
  if it + 1 = row.size then .ok false
  else do
    let garbage ← isDataGarbage row obj
    if garbage && row.gcHandle == 0 then
      if epochNr = 0 then .error .garbageDuringLoader else .ok true
    else .ok false

/-- The compare-and-swap on `gc_handle`. When another write was first, the new handle `gchdl` is
given back to the collector. -/
def registerRow (row : VHandle) (gchdl : ℕ) : VHandle :=
  if row.gcHandle = 0 then { row with gcHandle := gchdl } else row

/-- The end of `WriteWithVersion`, after `latest_version` is published. -/
def finishWrite (svc : Services) (row : VHandle) (it obj epochNr : ℕ) : Except Fault VHandle := do
  let garbage ← leavesGarbage row it obj epochNr
  let row := endSplitting row it
  return if garbage then registerRow row svc.addRow else row

def writeWithVersion (svc : Services) (row : VHandle) (sid obj epochNr : ℕ) :
    Except Fault VHandle := do
  let pos := row.latestVersion
  let it ← writeSlot row sid
  finishWrite svc (publish (offerData row it obj) pos it) it obj epochNr

end Felis.Row
