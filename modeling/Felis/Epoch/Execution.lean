import Felis.Epoch.Prepare
import Felis.Foundations.Serial

/-!
# Executing the transactions of an epoch

The transactions run concurrently. A transaction is a program over `ReadWithVersion` and
`WriteWithVersion`, and its steps are the accesses to shared words that these functions make:

* a read loads `latest_version` and locates its slot, then waits while the slot is pending, then
  loads the object;
* a write loads `latest_version` and locates its slot, stores the object, tries to move
  `latest_version` by compare-and-swap until it succeeds or is overtaken, and finally registers
  the row for garbage collection if it has to.

`execSerial` runs the same functions one transaction after another.
-/

namespace Felis.Epoch

open Cells Row Runs Serial Function

/-- The transactions of an epoch: each has a serial id, a program that writes every row of its
write set once, and a core to run on. -/
structure Txns (R : Type) [DecidableEq R] where
  epochNr : ℕ
  sids : List ℕ
  prog : ℕ → Prog R ℕ
  writeSet : ℕ → List R
  core : ℕ → ℕ
  nodup : sids.Nodup
  epochOf_sid : ∀ sid ∈ sids, epochOf sid = epochNr
  writes_once : ∀ sid ∈ sids, (prog sid).WritesOnce (writeSet sid)
  writeSet_nodup : ∀ sid ∈ sids, (writeSet sid).Nodup
  core_lt : ∀ sid ∈ sids, core sid < 32

/-- An object that may be written to a row: not a pending value, and inside of the row only if the
row is inlined. -/
def ValidObject (row : VHandle) (obj : ℕ) : Prop :=
  isPendingVal obj = false ∧ (row.addr < obj → obj < row.addr + 256 → row.isInlined = true)

/-- Where a transaction is inside of a read or a write. -/
inductive Phase
  | ready
  /-- In `WaitForData` on the slot at `pos`. -/
  | waiting (pos : ℕ)
  /-- Before `OfferData` on the slot `it`; `latest_version` was `pos`. -/
  | offering (it : ℕ) (pos : ℤ)
  /-- In the loop that moves `latest_version` to `it`. -/
  | publishing (it : ℕ) (pos : ℤ)
  | finishing (it : ℕ)
  /-- Before the compare-and-swap on `gc_handle`. -/
  | registering (gchdl : ℕ)

/-- A running transaction: the rest of its program and the reads so far. -/
structure Thread (R : Type) where
  prog : Prog R ℕ
  phase : Phase
  reads : List (R × ℕ)

/-- The shared rows and the transactions, by serial id. -/
structure State (R : Type) where
  rows : R → VHandle
  thread : ℕ → Thread R

/-- What a transaction can find when it is scheduled. -/
inductive Outcome (α : Type)
  | blocked
  | fault (f : Fault)
  | next (a : α)

variable {R : Type} [DecidableEq R]

/-- One access of `ReadWithVersion(sid)`. -/
def stepRead (sid : ℕ) (row : VHandle) (r : R) (k : ℕ → Prog R ℕ) (th : Thread R) :
    Outcome (Thread R) :=
  match th.phase with
  | .waiting pos =>
    if isPendingVal (row.objects pos) then .blocked
    else .next ⟨k (row.objects pos), .ready, th.reads ++ [(r, row.objects pos)]⟩
  | _ =>
    match withVersion row sid with
    | .error f => .fault f
    | .ok none => .next ⟨k 0, .ready, th.reads ++ [(r, 0)]⟩
    | .ok (some pos) => .next { th with phase := .waiting pos }

/-- One access of `WriteWithVersion(sid, obj, epochNr)`; `AddRow` returns `gchdl` if it is
called. -/
def stepWrite (epochNr sid gchdl : ℕ) (row : VHandle) (obj : ℕ) (next : Prog R ℕ)
    (th : Thread R) : Outcome (VHandle × Thread R) :=
  match th.phase with
  | .offering it pos => .next (offerData row it obj, { th with phase := .publishing it pos })
  | .publishing it pos =>
    if pos < it then
      match casLatest row pos it with
      | some row' => .next (row', { th with phase := .finishing it })
      | none => .next (row, { th with phase := .publishing it row.latestVersion })
    else .next (row, { th with phase := .finishing it })
  | .finishing it =>
    match leavesGarbage row it obj epochNr with
    | .error f => .fault f
    | .ok true => .next (endSplitting row it, { th with phase := .registering gchdl })
    | .ok false => .next (endSplitting row it, ⟨next, .ready, th.reads⟩)
  | .registering gchdl => .next (registerRow row gchdl, ⟨next, .ready, th.reads⟩)
  | _ =>
    match writeSlot row sid with
    | .error f => .fault f
    | .ok it => .next (row, { th with phase := .offering it row.latestVersion })

/-- The state after the transaction `sid` has accessed the row `r`. -/
def State.set (s : State R) (r : R) (row : VHandle) (sid : ℕ) (th : Thread R) : State R :=
  ⟨update s.rows r row, update s.thread sid th⟩

def advance (epochNr : ℕ) (s : State R) (sid gchdl : ℕ) : Outcome (State R) :=
  match (s.thread sid).prog with
  | .done => .blocked
  | .read r k =>
    match stepRead sid (s.rows r) r k (s.thread sid) with
    | .blocked => .blocked
    | .fault f => .fault f
    | .next th => .next (s.set r (s.rows r) sid th)
  | .write r obj next =>
    match stepWrite epochNr sid gchdl (s.rows r) obj next (s.thread sid) with
    | .blocked => .blocked
    | .fault f => .fault f
    | .next (row, th) => .next (s.set r row sid th)

/-- A scheduled transaction makes its next access, or leaves its mark on the pending slot it
waits for. -/
inductive Event
  | advance (sid gchdl : ℕ)
  | wait (sid : ℕ)

namespace Txns

variable (tx : Txns R)

def start (rows : R → VHandle) : State R where
  rows := rows
  thread := fun sid => ⟨tx.prog sid, .ready, []⟩

def step (s : State R) : Event → Option (State R)
  | .advance sid gchdl =>
    if sid ∈ tx.sids then
      match Epoch.advance tx.epochNr s sid gchdl with
      | .next s' => some s'
      | _ => none
    else none
  | .wait sid =>
    if sid ∈ tx.sids then
      match (s.thread sid).prog, (s.thread sid).phase with
      | .read r _, .waiting pos =>
        some (s.set r (waitForData (s.rows r) pos (tx.core sid)) sid (s.thread sid))
      | _, _ => none
    else none

def Finished (s : State R) (sid : ℕ) : Prop := (s.thread sid).prog = .done

instance (s : State R) (sid : ℕ) : Decidable (Finished s sid) :=
  match h : (s.thread sid).prog with
  | .done => isTrue h
  | .read .. => isFalse fun hdone => nomatch h.symm.trans hdone
  | .write .. => isFalse fun hdone => nomatch h.symm.trans hdone

end Txns

/-! ## One after another -/

/-- One transaction run alone, with `ReadWithVersion` and `WriteWithVersion` as whole functions.
`none` if it aborts or waits for ever. -/
def execAlone (epochNr : ℕ) (svc : Services) (sid : ℕ) :
    Prog R ℕ → (R → VHandle) → Option ((R → VHandle) × List (R × ℕ))
  | .done, rows => some (rows, [])
  | .read r k, rows =>
    match readWithVersion (rows r) sid with
    | .ok (.object _ obj) =>
      (execAlone epochNr svc sid (k obj) rows).map fun (rows, reads) => (rows, (r, obj) :: reads)
    | .ok .null =>
      (execAlone epochNr svc sid (k 0) rows).map fun (rows, reads) => (rows, (r, 0) :: reads)
    | _ => none
  | .write r obj next, rows =>
    match writeWithVersion svc (rows r) sid obj epochNr with
    | .ok row => execAlone epochNr svc sid next (update rows r row)
    | .error _ => none

/-- The transactions `sids` run one after another: the rows at the end, and the reads of each. -/
def execSerial (tx : Txns R) (svc : Services) :
    List ℕ → (R → VHandle) → Option ((R → VHandle) × List (ℕ × List (R × ℕ)))
  | [], rows => some (rows, [])
  | sid :: sids, rows =>
    (execAlone tx.epochNr svc sid (tx.prog sid) rows).bind fun (rows, reads) =>
      (execSerial tx svc sids rows).map fun (rows, out) => (rows, (sid, reads) :: out)

end Felis.Epoch
