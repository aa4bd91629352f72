import Felis.Contention.Merge
import Felis.Foundations.MachineInts
import Felis.Mem.Layout

/-!
# The heads of the version buffers

A contended row gets a position in the version buffers of all cores. Each core hands out positions
from its `VersionBufferHead`, 8192 of them; when they are used up it takes another head from the
pool of its NUMA zone. `AppendNewVersion` puts a version into the row under the lock, or into the
core's buffer at the position of the row.

The heads of a core are a list, the current one first, and the pool of a zone is the number of heads
that are left in it. A call of `AppendNewVersion` is a step; what it does to the row and to its
buffers is `Contention.State.step`. The constructor is here as well; it ends with `Reset`, which
then finds no rows.
-/

namespace Felis.Contention

open MachineInts Row Runs Function

/-- `VersionBufferHead::kMaxPos`. -/
def kMaxPos : ℕ := 8192

structure Config where
  nrThreads : ℕ
  preallocCount : ℕ
  splittingThreshold : ℤ
  lockElision : Bool
  batchAppend : Bool
  onDemandSplitting : Bool
  binpackSplitting : Bool

/-- The positions of a head that are in use are those of `backrefs`. -/
structure VersionBufferHead (R : Type) where
  basePos : ℕ
  ownerCore : ℕ
  backrefs : List R
  deriving DecidableEq

def VersionBufferHead.pos {R : Type} (head : VersionBufferHead R) : ℕ := head.backrefs.length

structure VersionBufferHeadAllocation where
  basePos : ℕ
  pos : ℕ
  /-- The number of heads in the pool. -/
  free : ℕ

structure Manager (R : Type) where
  alloc : ℕ → VersionBufferHeadAllocation
  bufferHeads : ℕ → List (VersionBufferHead R)

/-- Where a call of `AppendNewVersion` stops the process. -/
inductive HeadFault
  /-- Memory is accessed through a null head. -/
  | nullHead
  /-- One of the functions of the row does. -/
  | row
  deriving DecidableEq

namespace Manager

variable {R : Type}

/-- The NUMA zone of a core. -/
def zone (core : ℕ) : ℕ := core / Mem.kNrCorePerNode

def setAlloc (m : Manager R) (i : ℕ) (al : VersionBufferHeadAllocation) : Manager R :=
  { m with alloc := update m.alloc i al }

def setHeads (m : Manager R) (core : ℕ) (heads : List (VersionBufferHead R)) : Manager R :=
  { m with bufferHeads := update m.bufferHeads core heads }

/-! ## Heads -/

/-- `AllocHead` writes to the head before anyone has looked whether the pool had one. -/
def allocHead (m : Manager R) (core : ℕ) : Except HeadFault (Manager R × VersionBufferHead R) :=
  let al := m.alloc (zone core)
  if al.free = 0 then .error .nullHead
  else
    .ok (m.setAlloc (zone core) { al with pos := al.pos + kMaxPos, free := al.free - 1 },
      { basePos := al.basePos + al.pos, ownerCore := core, backrefs := [] })

/-- The next position of the head in front goes to the row. -/
def installAt (m : Manager R) (core : ℕ) (head : VersionBufferHead R)
    (next : List (VersionBufferHead R)) (r : R) : Manager R × ℤ :=
  (m.setHeads core ({ head with backrefs := head.backrefs ++ [r] } :: next),
    head.basePos + head.pos)

/-- `GetOrInstallBufferPos` of the core's head, for a row with the given `buf_pos`. -/
def getOrInstallBufferPos (m : Manager R) (core : ℕ) (r : R) (bufPos : ℤ) :
    Except HeadFault (Manager R × ℤ) :=
  match m.bufferHeads core with
  | [] => .error .nullHead
  | head :: next =>
    if bufPos ≠ -1 then .ok (m, bufPos)
    else if kMaxPos ≤ head.pos then
      -- `new_buf_head == nullptr` is only asked when `AllocHead` has returned
      (m.allocHead core).map fun (m, fresh) => m.installAt core fresh (head :: next) r
    else .ok (m.installAt core head next r)

/-- `GetOrInstall`, with the position in the core's buffers; none for a null `prealloc_ptr`. -/
def getOrInstall (m : Manager R) (core : ℕ) (r : R) (bufPos : ℤ) :
    Except HeadFault (Manager R × Option ℤ) :=
  (m.getOrInstallBufferPos core r bufPos).map fun (m, p) => (m, if p = -1 then none else some p)

/-! ## `Reset` and the constructor -/

/-- The heads of the cores go back to the pools of their zones. -/
def freeHeads (m : Manager R) : List ℕ → Manager R
  | [] => m
  | core :: cores =>
    let al := m.alloc (zone core)
    freeHeads (m.setAlloc (zone core)
      { al with free := al.free + (m.bufferHeads core).length }) cores

/-- The last loop of `Reset`: every core gets a head. -/
def allocHeads (m : Manager R) : List ℕ → Except HeadFault (Manager R)
  | [] => .ok m
  | core :: cores => do
    let (m, head) ← m.allocHead core
    allocHeads (m.setHeads core [head]) cores

/-- `Reset` lets the zones hand out their positions from the beginning. -/
def zeroPos (cfg : Config) (m : Manager R) : Manager R :=
  { m with
    alloc := fun n =>
      if n < cfg.nrThreads / Mem.kNrCorePerNode then { m.alloc n with pos := 0 } else m.alloc n }

@[simp] theorem free_zeroPos (cfg : Config) (m : Manager R) (z : ℕ) :
    ((zeroPos cfg m).alloc z).free = (m.alloc z).free := by
  rw [zeroPos]
  dsimp only
  split_ifs <;> rfl

/-- What `Reset` does to the heads. -/
def resetHeads (cfg : Config) (m : Manager R) : Except HeadFault (Manager R) :=
  (zeroPos cfg (m.freeHeads (List.range cfg.nrThreads))).allocHeads (List.range cfg.nrThreads)

/-- How many heads the pool of a zone has. -/
def headCapacity (cfg : Config) : ℕ :=
  cfg.preallocCount / (cfg.nrThreads / Mem.kNrCorePerNode) / kMaxPos

/-- The pools of the constructor, before it calls `Reset`. -/
def unused (cfg : Config) : Manager R where
  alloc i :=
    if i < cfg.nrThreads / Mem.kNrCorePerNode then
      ⟨cfg.preallocCount / (cfg.nrThreads / Mem.kNrCorePerNode) * i, 0, headCapacity cfg⟩
    else ⟨0, 0, 0⟩
  bufferHeads _ := []

/-- The constructor of `ContentionManager`. -/
def new (cfg : Config) : Except HeadFault (Manager R) := resetHeads cfg (unused cfg)

end Manager

/-! ## `AppendNewVersion` -/

/-- A call of `AppendNewVersion`, with what the row gets from outside and whether the locks that it
tries to take are free. -/
structure AppendCall (R : Type) (n : ℕ) where
  core : Fin n
  row : R
  sid : ℕ
  weight : ℤ
  svc : Services
  svc' : Services
  tryLock : Bool
  tryFlush : Bool

/-- The manager, and all rows with their buffers. -/
structure Store (R : Type) (n : ℕ) where
  manager : Manager R
  rows : R → State (Fin n)

namespace Store

variable {R : Type} [DecidableEq R] {n : ℕ}

def pendingVersions (row : VHandle) : ℕ := unsigned 32 ((row.size : ℤ) - row.curStart)

def stepRow (epochNr : ℕ) (s : Store R n) (r : R) (ev : Event (Fin n)) :
    Except HeadFault (Store R n) :=
  match (s.rows r).step epochNr ev with
  | none => .error .row
  | some t => .ok { s with rows := update s.rows r t }

/-- The slow path and the direct path. -/
def appendLocked (epochNr : ℕ) (s : Store R n) (c : AppendCall R n) :
    Except HeadFault (Store R n) :=
  s.stepRow epochNr c.row (.locked c.core c.svc c.sid c.weight)

/-- `VersionBufferHandle::Append`, which takes the weight as a `bool`. -/
def appendBuffered (epochNr : ℕ) (s : Store R n) (c : AppendCall R n) :
    Except HeadFault (Store R n) :=
  let cnt := ((s.rows c.row).bufs c.core).versions.length
  if cnt = kMaxBatch then
    s.stepRow epochNr c.row (.fullFlush c.core c.svc c.svc' c.sid (c.weight != 0))
  else do
    let s ← s.stepRow epochNr c.row (.push c.core c.sid (c.weight != 0))
    if kMaxBatch / 2 < cnt + 1 ∧ c.tryFlush then s.stepRow epochNr c.row (.halfFlush c.core c.svc)
    else .ok s

/-- `GetOrInstall` for the row, which gets its position when it has none. -/
def getOrInstall (epochNr : ℕ) (s : Store R n) (c : AppendCall R n) :
    Except HeadFault (Store R n × Option ℤ) := do
  let bufPos := (s.rows c.row).row.bufPos
  let (m, handle) ← s.manager.getOrInstall c.core c.row bufPos
  if bufPos = -1 then
    match handle with
    | none => .ok ({ s with manager := m }, none)
    | some pos =>
      let s ← ({ s with manager := m } : Store R n).stepRow epochNr c.row
        (.install c.core pos.toNat)
      .ok (s, some pos)
  else .ok ({ s with manager := m }, handle)

/-- The first part of `AppendNewVersion` appends directly: the row has few new versions, and its
lock is free. -/
def appendsDirectly (cfg : Config) (s : Store R n) (c : AppendCall R n) : Prop :=
  (s.rows c.row).row.bufPos = -1 ∧
    (pendingVersions (s.rows c.row).row : ℤ) < cfg.splittingThreshold ∧ c.tryLock

/-- Without batch append, a contended row still gets a position. -/
def marks (cfg : Config) (s : Store R n) (c : AppendCall R n) : Prop :=
  cfg.onDemandSplitting ∧ (s.rows c.row).row.bufPos = -1 ∧
    cfg.splittingThreshold ≤ pendingVersions (s.rows c.row).row

instance (cfg : Config) (s : Store R n) (c : AppendCall R n) :
    Decidable (s.appendsDirectly cfg c) := inferInstanceAs (Decidable (_ ∧ _))

instance (cfg : Config) (s : Store R n) (c : AppendCall R n) : Decidable (s.marks cfg c) :=
  inferInstanceAs (Decidable (_ ∧ _))

def appendNewVersion (cfg : Config) (epochNr : ℕ) (s : Store R n) (c : AppendCall R n) :
    Except HeadFault (Store R n) :=
  if cfg.lockElision ∨ c.sid = 0 then s.appendLocked epochNr c
  else if cfg.batchAppend then
    if s.appendsDirectly cfg c then s.appendLocked epochNr c
    else do
      let (s, handle) ← s.getOrInstall epochNr c
      if handle.isSome then s.appendBuffered epochNr c else s.appendLocked epochNr c
  else if s.marks cfg c then do
    let (s, _) ← s.getOrInstall epochNr c
    s.appendLocked epochNr c
  else s.appendLocked epochNr c

def start (m : Manager R) (rows : R → VHandle) : Store R n := ⟨m, fun r => .start (rows r)⟩

def step (cfg : Config) (epochNr : ℕ) (s : Store R n) (c : AppendCall R n) :
    Option (Store R n) := (s.appendNewVersion cfg epochNr c).toOption

end Store

end Felis.Contention
