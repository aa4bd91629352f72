import Mathlib.Tactic

/-!
# The sessions of the live migration

`g_scanning_session` holds the timestamp of the migration session and, in the two lowest bits, its
status. A session starts from `Converged`. `ScannerBegin` makes it `Active`, with a new timestamp,
`ScannerEnd` makes it `Inactive`, `MigrationApproachingEnd` makes it `Converging` and `MigrationEnd`
makes it `Converged` again. All of them are increments that abort when the status before was another
one. `RowScannerRoutine::Run` is a whole session: it scans the slices and then sends what is in the
queues of the shipments, one shipment after the other.

The word has 64 bits in the code, which is enough for all the sessions there can be; it is a natural
number here.
-/

namespace Felis.Shipping

open List

def kScanningSessionStatusBits : ℕ := 2
def kScanningSessionMask : ℕ := 2 ^ kScanningSessionStatusBits - 1

def kScanningSessionConverged : ℕ := 0x03
def kScanningSessionActive : ℕ := 0x00
def kScanningSessionInactive : ℕ := 0x01
def kScanningSessionConverging : ℕ := 0x02

/-- The last two bits. -/
def status (session : ℕ) : ℕ := session &&& kScanningSessionMask

/-- The other bits. -/
def timestamp (session : ℕ) : ℕ := session >>> kScanningSessionStatusBits

theorem status_eq (session : ℕ) : status session = session % 4 :=
  Nat.and_two_pow_sub_one_eq_mod session 2

theorem timestamp_eq (session : ℕ) : timestamp session = session / 4 :=
  Nat.shiftRight_eq_div_pow session 2

/-! ## The handle of an object -/

structure ShippingHandle where
  born : ℕ
  generation : ℕ
  sentGeneration : ℕ
  deriving DecidableEq

namespace ShippingHandle

/-- `ShippingHandle::ShippingHandle`. -/
def new (session : ℕ) : ShippingHandle := ⟨timestamp session, 0, 0⟩

/-- `generation == sent_generation` -/
def isClean (h : ShippingHandle) : Bool := h.generation = h.sentGeneration

/-- What `MarkDirty` does with a clean handle, with the answer whether to put the object into the
queue. -/
def mark (h : ShippingHandle) (session : ℕ) : Bool × ShippingHandle :=
  let h' := { h with generation := h.generation + 1 }
  if status session = kScanningSessionActive then (decide (timestamp session ≤ h.born), h')
  else if status session = kScanningSessionConverged then (false, h')
  else (true, h')

def markDirty (h : ShippingHandle) (session : ℕ) : Bool × ShippingHandle :=
  if h.isClean then h.mark session else (false, h)

def prepareSend (h : ShippingHandle) : ShippingHandle :=
  { h with sentGeneration := h.sentGeneration + 1 }

def checkSession (h : ShippingHandle) (session : ℕ) : Bool := h.born < timestamp session

end ShippingHandle

/-! ## The transitions -/

/-- The `abort_if`s of the transitions, with the session in their messages. -/
inductive Abort
  /-- "Cannot begin scanner because last session ({}) has not converged" -/
  | scannerBegin (session : ℕ)
  /-- "Cannot end scanner because last session ({}) is not active" -/
  | scannerEnd (session : ℕ)
  /-- "Cannot set converging because scanner isn't inactive {}" -/
  | migrationApproachingEnd (session : ℕ)
  /-- "Cannot end migration because scanner isn't converging or isn't active {}" -/
  | migrationEnd (session : ℕ)
  deriving DecidableEq

structure Migration where
  session : ℕ
  /-- `g_objects_shipped + g_objects_skipped` -/
  objects : ℕ
  /-- How many shipments have been found with an empty queue. -/
  foundEmpty : ℕ
  /-- The values that `g_scanning_session` has got, in order, each with `foundEmpty` at the time. -/
  log : List (ℕ × ℕ)

/-- `IOV_MAX` -/
def iovMax : ℕ := 1024

namespace Migration

/-- `g_scanning_session.fetch_add(1)` -/
def fetchAdd (m : Migration) : Migration :=
  { m with session := m.session + 1, log := m.log ++ [(m.session + 1, m.foundEmpty)] }

/-- `SliceScanner::ScannerBegin`. -/
def scannerBegin (m : Migration) : Except Abort Migration :=
  if status m.session ≠ kScanningSessionConverged then .error (.scannerBegin m.session)
  else .ok m.fetchAdd

/-- `SliceScanner::ScannerEnd`. -/
def scannerEnd (m : Migration) : Except Abort Migration :=
  if status m.session ≠ kScanningSessionActive then .error (.scannerEnd m.session)
  else .ok m.fetchAdd

/-- `SliceScanner::MigrationApproachingEnd`. -/
def migrationApproachingEnd (m : Migration) : Except Abort Migration :=
  if status m.session ≠ kScanningSessionInactive then .error (.migrationApproachingEnd m.session)
  else .ok m.fetchAdd

/-- `SliceScanner::MigrationEnd`, which goes from `Inactive` straight to `Converged`. -/
def migrationEnd (m : Migration) : Except Abort Migration :=
  let status := status m.session
  if status ≠ kScanningSessionConverging ∧ status ≠ kScanningSessionInactive then
    .error (.migrationEnd m.session)
  else if status = kScanningSessionInactive then .ok m.fetchAdd.fetchAdd
  else .ok m.fetchAdd

/-! ## A session -/

def kSendBatch : ℕ := 32 * iovMax

theorem sub_kSendBatch_lt {queue : ℕ} (hq : queue ≠ 0) :
    queue - min kSendBatch queue < queue := by
  unfold kSendBatch iovMax
  omega

/-- `Shipment::RunSend` of a shipment with so many objects in its queue: a batch of them is shipped
or skipped. The answer is whether the shipment has finished. -/
def runSend (m : Migration) (queue : ℕ) : Except Abort (Bool × Migration × ℕ) :=
  let nrObj := min kSendBatch queue
  if nrObj = 0 then
    (migrationEnd { m with foundEmpty := m.foundEmpty + 1 }).map fun m => (true, m, queue)
  else .ok (false, { m with objects := m.objects + nrObj }, queue - nrObj)

theorem runSend_zero (m : Migration) :
    m.runSend 0 = (migrationEnd { m with foundEmpty := m.foundEmpty + 1 }).map (true, ·, 0) := by
  simp [runSend]

theorem runSend_pos (m : Migration) {queue : ℕ} (hq : queue ≠ 0) :
    m.runSend queue = .ok (false, { m with objects := m.objects + min kSendBatch queue },
      queue - min kSendBatch queue) := by
  rw [runSend, if_neg (by unfold kSendBatch iovMax; omega)]

/-- A call that does not finish has sent something. -/
theorem lt_of_runSend {m m' : Migration} {queue rest : ℕ}
    (h : m.runSend queue = .ok (false, m', rest)) : rest < queue := by
  have hq : queue ≠ 0 := by
    rintro rfl
    rw [runSend_zero] at h
    cases hend : migrationEnd { m with foundEmpty := m.foundEmpty + 1 } <;>
      simp [hend, Except.map] at h
  rw [runSend_pos m hq] at h
  simp only [Except.ok.injEq, Prod.mk.injEq] at h
  exact h.2.2 ▸ sub_kSendBatch_lt hq

/-- The body of the loop `while (!shipment->RunSend())`. -/
def afterBatch (m : Migration) (approachingEndSet : Bool) : Except Abort (Migration × Bool) :=
  if 650000 < m.objects ∧ approachingEndSet = false then
    m.migrationApproachingEnd.map (·, true)
  else .ok (m, approachingEndSet)

/-- The loop `while (!shipment->RunSend())` of `RowScannerRoutine::Run`. -/
def ship (m : Migration) (approachingEndSet : Bool) (queue : ℕ) :
    Except Abort (Migration × Bool) :=
  match _hsend : m.runSend queue with
  | .error a => .error a
  | .ok (true, m', _) => .ok (m', approachingEndSet)
  | .ok (false, m', rest) =>
    match m'.afterBatch approachingEndSet with
    | .error a => .error a
    | .ok (m'', approachingEndSet') => ship m'' approachingEndSet' rest
termination_by queue
decreasing_by exact lt_of_runSend _hsend

theorem ship_zero (m : Migration) (approachingEndSet : Bool) :
    m.ship approachingEndSet 0 =
      (migrationEnd { m with foundEmpty := m.foundEmpty + 1 }).map (·, approachingEndSet) := by
  rw [ship]
  split <;> next h => (rw [runSend_zero] at h; revert h; cases migrationEnd _ <;>
    simp_all [Except.map])

theorem ship_pos (m : Migration) (approachingEndSet : Bool) {queue : ℕ} (hq : queue ≠ 0) :
    m.ship approachingEndSet queue =
      (afterBatch { m with objects := m.objects + min kSendBatch queue } approachingEndSet).bind
        fun p => p.1.ship p.2 (queue - min kSendBatch queue) := by
  rw [ship]
  split
  next h => simp [runSend_pos m hq] at h
  next h => simp [runSend_pos m hq] at h
  next m' rest h =>
    rw [runSend_pos m hq, Except.ok.injEq, Prod.mk.injEq, Prod.mk.injEq] at h
    obtain ⟨-, rfl, rfl⟩ := h
    cases afterBatch _ _ <;> rfl

/-- `RowScannerRoutine::Run`, with the numbers of objects in the queues of the shipments. -/
def rowScannerRoutine (queues : List ℕ) (m : Migration) : Except Abort Migration := do
  let m ← m.scannerBegin
  let m ← m.scannerEnd
  if queues = [] then
    let m ← m.migrationApproachingEnd
    m.migrationEnd
  else
    let (m, _) ← queues.foldlM (fun (m, approachingEndSet) queue => ship m approachingEndSet queue)
      (m, false)
    return m

/-! ## One shipment -/

variable {m : Migration}

theorem status_fetchAdd (h : status m.session ≠ kScanningSessionConverged) :
    status m.fetchAdd.session = status m.session + 1 := by
  simp only [fetchAdd, status_eq, kScanningSessionConverged] at h ⊢
  omega

theorem migrationEnd_of_inactive (h : status m.session = kScanningSessionInactive) :
    m.migrationEnd = .ok m.fetchAdd.fetchAdd := by
  simp [migrationEnd, h]

theorem migrationEnd_of_converging (h : status m.session = kScanningSessionConverging) :
    m.migrationEnd = .ok m.fetchAdd := by
  simp [migrationEnd, h, kScanningSessionConverging, kScanningSessionInactive]

theorem migrationApproachingEnd_of_inactive (h : status m.session = kScanningSessionInactive) :
    m.migrationApproachingEnd = .ok m.fetchAdd := by
  simp [migrationApproachingEnd, h]

/-- Once the end is approaching, the rest of the queue is sent and the session converges. -/
theorem ship_of_converging (queue : ℕ) (m : Migration)
    (h : status m.session = kScanningSessionConverging) :
    ∃ t b, m.ship true queue = .ok (t, b) ∧ t.session = m.session + 1 ∧
      t.log = m.log ++ [(m.session + 1, m.foundEmpty + 1)] := by
  induction queue using Nat.strong_induction_on generalizing m with
  | _ queue ih =>
    by_cases hq : queue = 0
    · subst hq
      have hend := migrationEnd_of_converging (m := { m with foundEmpty := m.foundEmpty + 1 }) h
      rw [ship_zero, hend]
      exact ⟨_, _, rfl, rfl, rfl⟩
    · have hlt := sub_kSendBatch_lt hq
      rw [ship_pos m true hq, afterBatch, if_neg (by simp)]
      exact ih _ hlt { m with objects := m.objects + min kSendBatch queue } h

/-- From `Inactive`, the queue is sent and the session converges, through `Converging` either
way. -/
theorem ship_of_inactive (queue : ℕ) (m : Migration)
    (h : status m.session = kScanningSessionInactive) :
    ∃ t b e, m.ship false queue = .ok (t, b) ∧ t.session = m.session + 2 ∧
      t.log = m.log ++ [(m.session + 1, e), (m.session + 2, m.foundEmpty + 1)] := by
  induction queue using Nat.strong_induction_on generalizing m with
  | _ queue ih =>
    by_cases hq : queue = 0
    · subst hq
      have hend := migrationEnd_of_inactive (m := { m with foundEmpty := m.foundEmpty + 1 }) h
      rw [ship_zero, hend]
      exact ⟨_, _, m.foundEmpty + 1, rfl, rfl, by simp [fetchAdd]⟩
    · have hlt := sub_kSendBatch_lt hq
      rw [ship_pos m false hq, afterBatch]
      split_ifs with hcross
      · have hend := migrationApproachingEnd_of_inactive
          (m := { m with objects := m.objects + min kSendBatch queue }) h
        rw [hend]
        have hconv : status (m.session + 1) = kScanningSessionConverging := by
          have := status_fetchAdd (m := m) (by rw [h]; decide)
          rwa [h] at this
        obtain ⟨t, b, hship, hsession, hlog⟩ := ship_of_converging (queue - min kSendBatch queue)
          (fetchAdd { m with objects := m.objects + min kSendBatch queue }) hconv
        exact ⟨t, b, m.foundEmpty, hship, hsession, by simp [hlog, fetchAdd]⟩
      · exact ih _ hlt { m with objects := m.objects + min kSendBatch queue } h

/-- From `Converged`, there is no way to finish with a shipment. -/
theorem ship_of_converged (queue : ℕ) (m : Migration) (approachingEndSet : Bool)
    (h : status m.session = kScanningSessionConverged) :
    ∃ a, m.ship approachingEndSet queue = .error a := by
  induction queue using Nat.strong_induction_on generalizing m with
  | _ queue ih =>
    by_cases hq : queue = 0
    · subst hq
      rw [ship_zero, migrationEnd, if_pos (by rw [h]; decide)]
      exact ⟨_, rfl⟩
    · have hlt := sub_kSendBatch_lt hq
      rw [ship_pos m _ hq, afterBatch]
      split_ifs
      · rw [migrationApproachingEnd, if_pos (by rw [h]; decide)]
        exact ⟨_, rfl⟩
      · exact ih _ hlt { m with objects := m.objects + min kSendBatch queue } h

/-- After the scan of a session that starts from `Converged`, the status is `Inactive`. -/
theorem rowScannerRoutine_of_converged (queues : List ℕ)
    (h : status m.session = kScanningSessionConverged) : (rowScannerRoutine queues m =
      if queues = [] then m.fetchAdd.fetchAdd.migrationApproachingEnd.bind migrationEnd
      else (queues.foldlM (fun (p : Migration × Bool) queue => ship p.1 p.2 queue)
        (m.fetchAdd.fetchAdd, false)).bind fun p => .ok p.1) ∧
    status m.fetchAdd.fetchAdd.session = kScanningSessionInactive := by
  have hactive : status m.fetchAdd.session = kScanningSessionActive := by
    simp only [fetchAdd, status_eq, kScanningSessionConverged, kScanningSessionActive] at h ⊢
    omega
  have hbegin : m.scannerBegin = .ok m.fetchAdd := by simp [scannerBegin, h]
  have hend : m.fetchAdd.scannerEnd = .ok m.fetchAdd.fetchAdd := by simp [scannerEnd, hactive]
  refine ⟨?_, ?_⟩
  · simp only [rowScannerRoutine, hbegin, bind, Except.bind, hend]
    rfl
  · rw [status_fetchAdd (by rw [hactive]; decide), hactive]
    rfl

/-- The migration before a session. -/
def start (session objects : ℕ) : Migration := ⟨session, objects, 0, []⟩

/-- Whatever is in the queue of the only shipment, the session gets the next four values. -/
theorem rowScannerRoutine_eq (queues : List ℕ) (session objects : ℕ)
    (hstatus : status session = kScanningSessionConverged) (hone : queues.length ≤ 1) :
    ∃ t e, rowScannerRoutine queues (start session objects) = .ok t ∧ t.session = session + 4 ∧
      t.log = [(session + 1, 0), (session + 2, 0), (session + 3, e),
        (session + 4, queues.length)] := by
  obtain ⟨hrun, hinactive⟩ :=
    rowScannerRoutine_of_converged queues (m := start session objects) hstatus
  generalize hm : (start session objects).fetchAdd.fetchAdd = m at hrun hinactive
  have hlog : m.log = [(session + 1, 0), (session + 2, 0)] := by simp [← hm, fetchAdd, start]
  have hsession : m.session = session + 2 := by simp [← hm, fetchAdd, start]
  have hempty : m.foundEmpty = 0 := by simp [← hm, fetchAdd, start]
  match queues, hone with
  | [], _ =>
    have hconv : status m.fetchAdd.session = kScanningSessionConverging := by
      rw [status_fetchAdd (by rw [hinactive]; decide), hinactive]
      rfl
    refine ⟨m.fetchAdd.fetchAdd, 0, ?_, by simp [fetchAdd, hsession], ?_⟩
    · rw [hrun, if_pos rfl, migrationApproachingEnd_of_inactive hinactive]
      exact migrationEnd_of_converging hconv
    · simp [fetchAdd, hlog, hsession, hempty]
  | [queue], _ =>
    obtain ⟨t, b, e, hship, hts, htl⟩ := ship_of_inactive queue m hinactive
    refine ⟨t, e, ?_, by rw [hts, hsession], ?_⟩
    · rw [hrun, if_neg (by simp), foldlM_cons, hship]
      rfl
    · simp [htl, hlog, hsession, hempty]

/-- The first of two shipments ends the session, and the second one aborts. -/
theorem rowScannerRoutine_aborts (queue queue' : ℕ) (queues : List ℕ)
    (h : status m.session = kScanningSessionConverged) :
    ∃ a, rowScannerRoutine (queue :: queue' :: queues) m = .error a := by
  obtain ⟨hrun, hinactive⟩ := rowScannerRoutine_of_converged (queue :: queue' :: queues) h
  obtain ⟨t, b, e, hship, hsession, -⟩ := ship_of_inactive queue _ hinactive
  have hconv : status t.session = kScanningSessionConverged := by
    rw [hsession]
    simp only [status_eq, kScanningSessionInactive, kScanningSessionConverged] at hinactive ⊢
    omega
  obtain ⟨a, ha⟩ := ship_of_converged queue' t b hconv
  refine ⟨a, ?_⟩
  rw [hrun, if_neg (by simp)]
  simp only [foldlM_cons, hship, bind, Except.bind, ha]

/-- **A session converges once**, if and only if there is at most one shipment, whatever is in its
queue: a run of `RowScannerRoutine` from `Converged` does not abort, takes the session through
`Active`, `Inactive` and `Converging` to `Converged`, all with the next timestamp, and `Converged`
is reached when the queue of the shipment, if there is one, has been found empty. -/
theorem session_converges (queues : List ℕ) (session objects : ℕ)
    (hstatus : status session = kScanningSessionConverged) :
    (∃ t, rowScannerRoutine queues (start session objects) = .ok t ∧
      t.log.map (fun e => status e.1) = [kScanningSessionActive, kScanningSessionInactive,
        kScanningSessionConverging, kScanningSessionConverged] ∧
      (∀ e ∈ t.log, timestamp e.1 = timestamp session + 1) ∧
      t.log.getLast? = some (t.session, queues.length)) ↔ queues.length ≤ 1 := by
  refine ⟨fun ⟨t, hrun, _⟩ => ?_, fun hone => ?_⟩
  · match queues with
    | [] | [_] => simp
    | queue :: queue' :: queues =>
      obtain ⟨a, ha⟩ := rowScannerRoutine_aborts queue queue' queues
        (m := start session objects) hstatus
      cases ha.symm.trans hrun
  obtain ⟨t, e, hrun, hsession, hlog⟩ := rowScannerRoutine_eq queues session objects hstatus hone
  refine ⟨t, hrun, ?_, ?_, by simp [hlog, hsession]⟩ <;>
    simp only [status_eq, kScanningSessionConverged] at hstatus
  · simp only [hlog, map_cons, map_nil, status_eq, kScanningSessionActive,
      kScanningSessionInactive, kScanningSessionConverging, kScanningSessionConverged,
      List.cons.injEq, and_true]
    omega
  · intro e he
    simp only [hlog, mem_cons, not_mem_nil, or_false] at he
    simp only [timestamp_eq]
    rcases he with rfl | rfl | rfl | rfl <;> dsimp only <;> omega

theorem session_converges_oneShipment :
    ∃ t, rowScannerRoutine [700000] (start 3 0) = .ok t ∧
      t.log.getLast? = some (t.session, 1) := by
  obtain ⟨t, hrun, -, -, hlast⟩ := session_converges [700000] 3 0 (by decide)
    |>.2 (by decide)
  exact ⟨t, hrun, hlast⟩

/-- With two shipments the first one ends the session, with the second one not yet looked at, and
the second one ends it again. -/
theorem aborts_twoShipments :
    rowScannerRoutine [0, 0] (start 3 0) = .error (.migrationEnd 7) := by
  obtain ⟨hrun, hinactive⟩ :=
    rowScannerRoutine_of_converged [0, 0] (m := start 3 0) (by decide)
  obtain ⟨t, b, e, hship, hsession, -⟩ := ship_of_inactive 0 _ hinactive
  have hsession : t.session = 7 := hsession
  have hend : migrationEnd { t with foundEmpty := t.foundEmpty + 1 } =
      .error (.migrationEnd 7) := by
    simp only [migrationEnd, hsession]
    exact if_pos (by decide)
  rw [hrun, if_neg (by decide)]
  simp only [foldlM_cons, hship, bind, Except.bind, ship_zero, hend, Except.map]

end Migration

end Felis.Shipping
