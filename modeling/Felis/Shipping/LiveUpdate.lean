import Felis.Foundations.Runs
import Felis.Shipping.Session

/-!
# Updates during a migration

The rows of a slice are updated while its shipment is sent. An update stores the value, marks the
handle of the row dirty, and puts the row into the queue of the shipment when `MarkDirty` says so.
`RunSend` takes a batch of rows off the queue, and for every row it asks `ShouldSkip`, reads the
latest value, increments `sent_generation` and goes on to the next row; the values are written out
together when the vector is full or the batch is done.

The updates of one row are made one after the other, as the code demands. The values of a row are
numbered; a row without a value, or with a pending one, has none. The loads of `MarkDirty` are one
step, since only the thread that updates the row writes its `generation`.
-/

namespace Felis.Shipping.LiveUpdate

open Runs List Function

variable {R : Type} [DecidableEq R]

/-- How far the update of a row is. -/
inductive Update
  | idle
  | stored
  | clean
  | dirty
  deriving DecidableEq

/-- The update after the comparison in `MarkDirty`. -/
def Update.afterCheck : Bool → Update
  | true => .clean
  | false => .idle

/-- How far `RunSend` is with the first row of the batch. -/
inductive Encode
  | start
  | checked
  | encoded (value : ℕ)
  deriving DecidableEq

def Encode.isEncoded : Encode → Bool
  | .encoded _ => true
  | _ => false

structure State (R : Type) where
  session : ℕ
  rows : R → Bool
  handle : R → ShippingHandle
  /-- The latest value, unless it is missing or pending. -/
  latest : R → Option ℕ
  update : R → Update
  /-- The queue of the shipment; rows are added at the front and taken off at the back. -/
  queue : List R
  running : Bool
  batch : List R
  encode : Encode
  /-- The rows in the vector, with the values that they point to. -/
  vec : List (R × ℕ)
  /-- The value that was sent last. -/
  sent : R → Option ℕ

inductive Event (R : Type)
  | newRow (r : R) (value : Option ℕ)
  | store (r : R) (value : ℕ)
  | markDirty (r : R)
  | mark (r : R)
  | addObject (r : R)
  | approachingEnd
  | dequeue
  | shouldSkip
  | read
  | prepareSend
  | sendVec
  | finish

/-- `EncodeIOVec` finds enough entries in the vector; a row takes five of them, and one for its
length. -/
def State.hasRoom (s : State R) : Bool :=
  6 * s.vec.length ≠ iovMax ∧ 4 ≤ iovMax - 6 * s.vec.length - 1

/-- What has been sent once the vector is written out. -/
def sendAll (sent : R → Option ℕ) (vec : List (R × ℕ)) : R → Option ℕ :=
  vec.foldl (fun sent p => update sent p.1 (some p.2)) sent

def step (s : State R) : Event R → Option (State R)
  | .newRow r value =>
    if s.rows r then none
    else some { s with
      rows := update s.rows r true
      handle := update s.handle r (.new s.session)
      latest := update s.latest r value
      update := update s.update r .stored }
  | .store r value =>
    -- A value is newer than all the values before it.
    if s.rows r = true ∧ s.update r = .idle ∧ ∀ v ∈ s.latest r, v < value then
      some { s with
        latest := update s.latest r (some value)
        update := update s.update r .stored }
    else none
  | .markDirty r =>
    if s.update r = .stored then
      some { s with update := update s.update r (.afterCheck (s.handle r).isClean) }
    else none
  | .mark r =>
    if s.update r = .clean then
      some { s with
        handle := update s.handle r ((s.handle r).mark s.session).2
        update := update s.update r
          (if ((s.handle r).mark s.session).1 then .dirty else .idle) }
    else none
  | .addObject r =>
    if s.update r = .dirty then
      some { s with
        queue := r :: s.queue
        update := update s.update r .idle }
    else none
  | .approachingEnd =>
    if status s.session = kScanningSessionInactive ∧ s.running = false then
      some { s with session := s.session + 1 }
    else none
  | .dequeue =>
    -- With an empty queue `RunSend` ends the session.
    if s.running = true ∨ s.queue = [] then none
    else some { s with
      running := true
      batch := s.queue.reverse.take Migration.kSendBatch
      queue := (s.queue.reverse.drop Migration.kSendBatch).reverse }
  | .shouldSkip =>
    match s.batch, s.encode with
    | r :: batch, .start =>
      if s.latest r = none then some { s with batch := batch }
      else some { s with encode := .checked }
    | _, _ => none
  | .read =>
    match s.batch, s.encode with
    | r :: _, .checked =>
      if s.hasRoom then (s.latest r).map fun v => { s with encode := .encoded v }
      else none
    | _, _ => none
  | .prepareSend =>
    match s.batch, s.encode with
    | r :: batch, .encoded v =>
      some { s with
        handle := update s.handle r (s.handle r).prepareSend
        vec := s.vec ++ [(r, v)]
        batch := batch
        encode := .start }
    | _, _ => none
  | .sendVec =>
    -- The vector is full; the row is tried again.
    if s.encode = .checked ∧ s.hasRoom = false then
      some { s with sent := sendAll s.sent s.vec, vec := [], encode := .start }
    else none
  | .finish =>
    if s.running = true ∧ s.batch = [] then
      some { s with sent := sendAll s.sent s.vec, vec := [], running := false }
    else none

/-! ## One row -/

/-- What the state says about one row. -/
structure RowView where
  present : Bool
  handle : ShippingHandle
  latest : Option ℕ
  /-- The value in the vector or, if there is none, the one sent last. -/
  out : Option ℕ
  update : Update
  /-- How often the row is in the queue or in the batch. -/
  queued : ℕ

/-- How often the row is between `MarkDirty` and `PrepareSend`. -/
def RowView.inFlight (v : RowView) : ℕ := v.queued + if v.update = .dirty then 1 else 0

/-- `generation` is ahead of `sent_generation` exactly when the row is in flight, and a row that is
not in flight and not being updated is in the vector or sent with its latest value. -/
structure RowView.Counted (v : RowView) : Prop where
  generation : v.present = true → v.handle.generation = v.handle.sentGeneration + v.inFlight
  once : v.inFlight ≤ 1
  clean : v.update = .clean → v.inFlight = 0
  fresh : v.present = true → v.inFlight = 0 → v.update = .idle → v.latest = v.out
  outside : v.present = false → v.inFlight = 0 ∧ v.update = .idle

namespace RowView.Counted

variable {v : RowView}

variable (h : v.Counted)

include h

theorem create (hp : v.present = false) (session : ℕ) (value : Option ℕ) :
    Counted { v with
      present := true, handle := .new session, latest := value, update := .stored } := by
  obtain ⟨hflight, hidle⟩ := h.outside hp
  constructor <;> simp_all [inFlight, ShippingHandle.new]

theorem store (hp : v.present = true) (hidle : v.update = .idle) (value : ℕ) :
    Counted { v with latest := some value, update := .stored } := by
  obtain ⟨hgen, honce, -, -, -⟩ := h
  constructor <;> simp_all [inFlight]

theorem present_of_update (hu : v.update ≠ .idle) : v.present = true := by
  by_contra hp
  exact hu (h.outside (by simpa using hp)).2

theorem markDirty (hu : v.update = .stored) :
    Counted { v with update := .afterCheck v.handle.isClean } := by
  have hp := h.present_of_update (by simp [hu])
  obtain ⟨hgen, honce, -, -, -⟩ := h
  have hgen := hgen hp
  by_cases hclean : v.handle.isClean = true
  · have : v.handle.generation = v.handle.sentGeneration := by
      simpa [ShippingHandle.isClean] using hclean
    constructor <;> simp_all [inFlight, Update.afterCheck]
  · -- The row is in flight already.
    have : v.handle.generation ≠ v.handle.sentGeneration := by
      simpa [ShippingHandle.isClean] using hclean
    constructor <;> simp_all [inFlight, Update.afterCheck]

theorem mark (hu : v.update = .clean) :
    Counted { v with
      handle := { v.handle with generation := v.handle.generation + 1 }
      update := .dirty } := by
  have hp := h.present_of_update (by simp [hu])
  obtain ⟨hgen, -, hclean, -, -⟩ := h
  constructor <;> simp_all [inFlight]

theorem addObject (hu : v.update = .dirty) :
    Counted { v with update := .idle, queued := v.queued + 1 } := by
  have hp := h.present_of_update (by simp [hu])
  obtain ⟨hgen, honce, -, -, -⟩ := h
  constructor <;> simp_all [inFlight]

theorem prepareSend (hq : v.queued ≠ 0) {value : ℕ} (hl : v.latest = some value) :
    Counted { v with
      handle := v.handle.prepareSend
      out := some value
      queued := v.queued - 1 } := by
  have hone : v.queued = 1 ∧ v.update ≠ .dirty := by
    have honce := h.once
    unfold inFlight at honce
    split_ifs at honce with hd
    · omega
    · exact ⟨by omega, hd⟩
  have hp : v.present = true := by
    by_contra hp
    have := (h.outside (by simpa using hp)).1
    unfold inFlight at this
    omega
  obtain ⟨hgen, -, -, -, -⟩ := h
  have hgen := hgen hp
  constructor <;> simp_all [inFlight, ShippingHandle.prepareSend]

end RowView.Counted

/-! ## The invariant -/

@[simp] theorem sendAll_nil (sent : R → Option ℕ) : sendAll sent [] = sent := rfl

theorem sendAll_append (sent : R → Option ℕ) (vec : List (R × ℕ)) (r : R) (v : ℕ) :
    sendAll sent (vec ++ [(r, v)]) = update (sendAll sent vec) r (some v) := by
  simp [sendAll]

def State.view (s : State R) (r : R) : RowView where
  present := s.rows r
  handle := s.handle r
  latest := s.latest r
  out := sendAll s.sent s.vec r
  update := s.update r
  queued := s.queue.count r + s.batch.count r

structure Inv (s : State R) : Prop where
  status : status s.session = kScanningSessionInactive ∨
    status s.session = kScanningSessionConverging
  rows : ∀ r, (s.view r).Counted
  encoded : ∀ v, s.encode = .encoded v → ∀ r ∈ s.batch.head?, s.latest r = some v
  start : s.batch = [] → s.encode = .start
  stopped : s.running = false → s.batch = [] ∧ s.vec = []

/-- The condition on a step: `ShouldSkip` answers no, and no value is stored between the moment when
`EncodeIOVec` reads the value of the row and `PrepareSend`. -/
def InStep (s : State R) : Event R → Prop
  | .store r _ => ¬ (s.encode.isEncoded = true ∧ s.batch.head? = some r)
  | .shouldSkip => ∀ r ∈ s.batch.head?, s.latest r ≠ none
  | _ => True

instance (s : State R) (e : Event R) : Decidable (InStep s e) := by
  cases e <;> unfold InStep <;> infer_instance

/-- During the migration a clean handle is marked and the row goes into the queue. -/
theorem mark_of_status {h : ShippingHandle} {session : ℕ}
    (hs : status session = kScanningSessionInactive ∨ status session = kScanningSessionConverging) :
    h.mark session = (true, { h with generation := h.generation + 1 }) := by
  rcases hs with hs | hs <;>
    simp [ShippingHandle.mark, hs, kScanningSessionInactive, kScanningSessionConverging,
      kScanningSessionActive, kScanningSessionConverged]

namespace Inv

variable {s t : State R}

variable (h : Inv s)

include h

/-- A step that changes one row: the others look as before. -/
theorem rows_of_view (r : R) (hr : (t.view r).Counted)
    (hne : ∀ r', r' ≠ r → t.view r' = s.view r') : ∀ r', (t.view r').Counted := by
  intro r'
  by_cases hrr : r' = r
  · exact hrr ▸ hr
  · exact hne r' hrr ▸ h.rows r'

theorem newRow {r : R} {value : Option ℕ} (ht : step s (.newRow r value) = some t) : Inv t := by
  rw [step] at ht
  split_ifs at ht with hp
  cases ht
  have hp : (s.view r).present = false := by simpa [State.view] using hp
  refine ⟨h.status, h.rows_of_view r ?_ ?_, ?_, h.start, h.stopped⟩
  · simpa [State.view] using (h.rows r).create hp s.session value
  · intro r' hne
    simp [State.view, hne]
  · intro v hv r' hr'
    have hne : r' ≠ r := by
      rintro rfl
      have hq := ((h.rows r').outside hp).1
      have : 0 < s.batch.count r' := count_pos_iff.2 (mem_of_head? hr')
      simp only [RowView.inFlight, State.view] at hq
      omega
    simpa [hne] using h.encoded v hv r' hr'

theorem store {r : R} {value : ℕ} (hok : InStep s (.store r value))
    (ht : step s (.store r value) = some t) : Inv t := by
  rw [step] at ht
  split_ifs at ht with hcond
  cases ht
  refine ⟨h.status, h.rows_of_view r ?_ ?_, ?_, h.start, h.stopped⟩
  · simpa [State.view] using (h.rows r).store hcond.1 hcond.2.1 value
  · intro r' hne
    simp [State.view, hne]
  · intro v hv r' hr'
    have hne : r' ≠ r := by
      rintro rfl
      have hv : s.encode = .encoded v := hv
      exact hok ⟨by rw [hv, Encode.isEncoded], hr'⟩
    simpa [hne] using h.encoded v hv r' hr'

theorem markDirty {r : R} (ht : step s (.markDirty r) = some t) : Inv t := by
  rw [step] at ht
  split at ht
  next hu =>
    cases ht
    refine ⟨h.status, h.rows_of_view r ?_ ?_, h.encoded, h.start, h.stopped⟩
    · simpa [State.view] using (h.rows r).markDirty hu
    · intro r' hne
      simp [State.view, hne]
  · cases ht

theorem mark {r : R} (ht : step s (.mark r) = some t) : Inv t := by
  rw [step, mark_of_status h.status] at ht
  split at ht
  next hu =>
    cases ht
    refine ⟨h.status, h.rows_of_view r ?_ ?_, h.encoded, h.start, h.stopped⟩
    · simpa [State.view] using (h.rows r).mark hu
    · intro r' hne
      simp [State.view, hne]
  · cases ht

theorem addObject {r : R} (ht : step s (.addObject r) = some t) : Inv t := by
  rw [step] at ht
  split_ifs at ht with hu
  cases ht
  refine ⟨h.status, h.rows_of_view r ?_ ?_, h.encoded, h.start, h.stopped⟩
  · simpa [State.view, add_right_comm] using (h.rows r).addObject hu
  · intro r' hne
    simp [State.view, hne, count_cons_of_ne hne.symm]

theorem dequeue (ht : step s .dequeue = some t) : Inv t := by
  rw [step] at ht
  split_ifs at ht with hcond
  cases ht
  rw [not_or, Bool.not_eq_true] at hcond
  obtain ⟨hbatch, hvec⟩ := h.stopped hcond.1
  have hstart := h.start hbatch
  have hcount : ∀ r, (s.queue.reverse.drop Migration.kSendBatch).count r +
      (s.queue.reverse.take Migration.kSendBatch).count r = s.queue.count r := by
    intro r
    rw [add_comm, ← count_append, take_append_drop, count_reverse]
  refine ⟨h.status, fun r => ?_, by simp [hstart], fun _ => hstart, by simp⟩
  simpa [State.view, hbatch, hcount] using h.rows r

theorem shouldSkip (hok : InStep s .shouldSkip) (ht : step s .shouldSkip = some t) : Inv t := by
  rw [step] at ht
  split at ht
  next r batch hb henc =>
    have hlatest := hok r (by simp [hb])
    rw [if_neg hlatest] at ht
    cases ht
    exact ⟨h.status, h.rows, by simp, by simp [hb], h.stopped⟩
  · cases ht

theorem read (ht : step s .read = some t) : Inv t := by
  rw [step] at ht
  split at ht
  next r batch hb henc =>
    split_ifs at ht
    obtain ⟨v, hv, rfl⟩ := Option.map_eq_some_iff.1 ht
    refine ⟨h.status, h.rows, ?_, by simp [hb], h.stopped⟩
    rintro _ ⟨⟩ r' hr'
    obtain rfl : r = r' := by simpa [hb] using hr'
    exact hv
  · cases ht

theorem prepareSend (ht : step s .prepareSend = some t) : Inv t := by
  rw [step] at ht
  split at ht
  next r batch v hb henc =>
    cases ht
    have hv := h.encoded v henc r (by simp [hb])
    refine ⟨h.status, h.rows_of_view r ?_ ?_, by simp, by simp, ?_⟩
    · have := (h.rows r).prepareSend (by simp [State.view, hb]) hv
      simpa [State.view, hb, sendAll_append, ← add_assoc] using this
    · intro r' hne
      simp [State.view, hb, hne, sendAll_append, count_cons_of_ne hne.symm]
    · intro hrun
      exact absurd (h.stopped hrun).1 (by simp [hb])
  · cases ht

/-- Writing out the vector does not change what is out. -/
theorem send {running : Bool} {encode : Encode} (henc : encode = .start)
    (hbatch : running = false → s.batch = []) :
    Inv { s with sent := sendAll s.sent s.vec, vec := [], running := running, encode := encode } :=
  ⟨h.status, fun r => by simpa [State.view] using h.rows r, by simp [henc], fun _ => henc,
    fun hr => ⟨hbatch hr, rfl⟩⟩

end Inv

theorem inv_step (s : State R) (e : Event R) (t : State R) (h : Inv s) (hok : InStep s e)
    (ht : step s e = some t) : Inv t := by
  cases e with
  | newRow r value => exact h.newRow ht
  | store r value => exact h.store hok ht
  | markDirty r => exact h.markDirty ht
  | mark r => exact h.mark ht
  | addObject r => exact h.addObject ht
  | approachingEnd =>
    rw [step] at ht
    split_ifs at ht with hcond
    cases ht
    have hconv : status (s.session + 1) = kScanningSessionConverging := by
      have := hcond.1
      simp only [status_eq, kScanningSessionInactive, kScanningSessionConverging] at this ⊢
      omega
    exact ⟨.inr hconv, h.rows, h.encoded, h.start, h.stopped⟩
  | dequeue => exact h.dequeue ht
  | shouldSkip => exact h.shouldSkip hok ht
  | read => exact h.read ht
  | prepareSend => exact h.prepareSend ht
  | sendVec =>
    rw [step] at ht
    split_ifs at ht with hcond
    cases ht
    exact h.send rfl fun hr => (h.stopped hr).1
  | finish =>
    rw [step] at ht
    split_ifs at ht with hcond
    cases ht
    exact h.send (h.start hcond.2) fun _ => hcond.2

/-! ## Runs -/

/-- A state after the scan of a session: nothing is going on, and every row is in the queue or has
been shipped with its latest value. -/
structure AfterScan (s : State R) : Prop where
  status : status s.session = kScanningSessionInactive ∨
    status s.session = kScanningSessionConverging
  idle : ∀ r, s.update r = .idle
  stopped : s.running = false ∧ s.batch = [] ∧ s.encode = .start ∧ s.vec = []
  queue : ∀ r ∈ s.queue, s.rows r = true
  shipped : ∀ r, s.rows r = true → r ∈ s.queue ∨ s.latest r = s.sent r

/-- The counters tell which rows are in the queue: `generation` is one ahead of `sent_generation`
for a row in the queue, which is there once, and equal to it for the others. -/
def CountersAgree (s : State R) : Prop :=
  ∀ r, s.rows r = true → s.queue.count r ≤ 1 ∧
    (s.handle r).generation = (s.handle r).sentGeneration + s.queue.count r

instance [Fintype R] (s : State R) : Decidable (CountersAgree s) := by
  unfold CountersAgree
  infer_instance

theorem AfterScan.inv {s : State R} (h : AfterScan s) (hc : CountersAgree s) : Inv s := by
  obtain ⟨hrun, hbatch, henc, hvec⟩ := h.stopped
  refine ⟨h.status, fun r => ?_, by simp [henc], fun _ => henc, fun _ => ⟨hbatch, hvec⟩⟩
  have hnot : s.rows r = false → s.queue.count r = 0 := by
    intro hr
    rw [List.count_eq_zero]
    intro hmem
    simp [h.queue r hmem] at hr
  have honce : s.queue.count r ≤ 1 := by
    by_cases hr : s.rows r = true
    · exact (hc r hr).1
    · simp [hnot (by simpa using hr)]
  constructor <;> simp only [State.view, RowView.inFlight, h.idle r, hbatch, hvec, sendAll_nil,
    count_nil, add_zero, reduceCtorEq, ↓reduceIte]
  · exact fun hr => (hc r hr).2
  · exact honce
  · exact fun hclean => hclean.elim
  · intro hr hzero _
    exact (h.shipped r hr).resolve_left (List.count_eq_zero.1 hzero)
  · exact fun hr => ⟨hnot hr, trivial⟩

/-- **No update is dropped.** From a state after the scan in which the counters tell which rows are
in the queue, in every run in which no row is skipped and no value is stored between the read of the
value and `PrepareSend`: when no update and no send is going on, a row whose latest value has not
been sent is in the queue. -/
theorem unsent_in_queue (s₀ s : State R) (es : List (Event R)) (h₀ : AfterScan s₀)
    (hc : CountersAgree s₀) (hok : Along step InStep s₀ es) (hrun : run step s₀ es = some s)
    (hidle : ∀ r, s.update r = .idle) (hstop : s.running = false) :
    ∀ r, s.rows r = true → ∀ v ∈ s.latest r, s.sent r ≠ some v → r ∈ s.queue := by
  have h : Inv s := run_invariant inv_step es s₀ s (h₀.inv hc) hok hrun
  obtain ⟨hbatch, hvec⟩ := h.stopped hstop
  intro r hr v hv hsent
  by_contra hq
  have hflight : (s.view r).inFlight = 0 := by
    simp [State.view, RowView.inFlight, hidle r, hbatch, List.count_eq_zero.2 hq]
  have hfresh := (h.rows r).fresh hr hflight (hidle r)
  simp only [State.view, hvec, sendAll_nil] at hfresh
  exact hsent (hfresh ▸ hv)

/-- A row that was created before the first session, with the value `0`, and put into the queue by
the scanner. -/
def scanned : State Unit where
  session := 5
  rows := fun _ => true
  handle := fun _ => ((ShippingHandle.new 3).markDirty 3).2
  latest := fun _ => some 0
  update := fun _ => .idle
  queue := [()]
  running := false
  batch := []
  encode := .start
  vec := []
  sent := fun _ => none

theorem scanned_afterScan : AfterScan scanned where
  status := .inl (by decide)
  idle := by decide
  stopped := by decide
  queue := by decide
  shipped := by decide

def afterRun : List (Event Unit) :=
  [.dequeue, .shouldSkip, .read, .prepareSend, .store () 1, .markDirty (), .mark (), .addObject (),
    .finish]

/-- The update comes between the read of the value and `PrepareSend`. -/
def betweenRun : List (Event Unit) :=
  [.dequeue, .shouldSkip, .read, .store () 1, .markDirty (), .prepareSend, .finish]

theorem unsent_in_queue_afterRun : ∃ s, run step scanned afterRun = some s ∧
    s.latest () = some 1 ∧ s.sent () = some 0 ∧ () ∈ s.queue := by
  obtain ⟨s, hs, hlatest, hsent, hidle, hstop, hrow⟩ : ∃ s, run step scanned afterRun = some s ∧
      s.latest () = some 1 ∧ s.sent () = some 0 ∧ s.update () = .idle ∧ s.running = false ∧ s.rows
      () = true := by decide +kernel
  refine ⟨s, hs, hlatest, hsent, ?_⟩
  exact unsent_in_queue scanned s afterRun scanned_afterScan (by decide) (by decide +kernel) hs
    (fun _ => hidle) hstop () hrow 1 hlatest (by simp [hsent])

/-- `MarkDirty` takes the row for queued while its old value is on the way, and the new value is
neither sent nor in the queue. -/
theorem dropped_betweenRun : AfterScan scanned ∧ ∃ s, run step scanned betweenRun = some s ∧
    s.update () = .idle ∧ s.running = false ∧ s.rows () = true ∧ s.latest () = some 1 ∧
    s.sent () = some 0 ∧ s.queue = [] :=
  ⟨scanned_afterScan, by decide +kernel⟩

end Felis.Shipping.LiveUpdate
