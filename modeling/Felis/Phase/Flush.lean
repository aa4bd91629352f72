import Felis.Contention.Merge
import Felis.Phase.Progress

/-!
# The version buffers at the end of a phase

In the Insert and Initialize phases a core may have versions in its own `VersionBuffer`s. They are
flushed by `PreComplete`, which every call of `Complete` makes first: `FinalizeFlush` goes through
the buffer heads of all cores and flushes the buffers that the calling core has at their positions.
A row gets its position in two steps. The compare-and-swap publishes `buf_pos`, and other cores
buffer into that position from then on; `IncrementPos` lets `FinalizeFlush` see it.

The model extends that of a phase on one node by the contended rows, each with the model of batch
append. `no_version_left` proves that all buffers are empty at the end of the phase, in the runs in
which a core starts `FinalizeFlush` only when the positions it has buffered into are visible;
`version_left` is a run in which they are not.
-/

namespace Felis.Phase.Flush

open Finset Runs Row Function Option
open Contention (NewVersion)

/-- What a core is doing with the buffer heads. -/
inductive Activity (C R : Type)
  | idle
  /-- Between the compare-and-swap and `IncrementPos`. -/
  | installing (r : R)
  /-- In `FinalizeFlush`: the heads it has still to visit, and the rows of the current one. -/
  | scanning (heads : Finset C) (rows : List R)
  deriving DecidableEq

structure State (V C X I R : Type) where
  node : Phase.State V C X I
  rows : R → Contention.State C
  /-- The rows at the positions of the buffer heads of each core, up to `pos`. -/
  backrefs : C → List R
  activity : C → Activity C R

inductive Event (V C I R : Type)
  | node (ev : Phase.Event V C I)
  /-- An append to a row, directly or through the buffer of the core. -/
  | append (r : R) (ev : Contention.Event C)
  /-- The compare-and-swap on `buf_pos`. -/
  | install (c : C) (r : R) (pos : ℕ)
  | incrementPos (c : C)
  | finalizeFlush (c : C)
  /-- `FinalizeFlush` reads `pos` of the buffer heads of the core `i`. -/
  | loadPos (c i : C)
  /-- `ScanAndFinalize` for one position. -/
  | flushRow (c : C) (r : R) (svc : Services)

def core {C : Type} : Contention.Event C → C
  | .locked c _ _ _ => c
  | .install c _ => c
  | .push c _ _ => c
  | .fullFlush c _ _ _ _ => c
  | .halfFlush c _ => c
  | .finalizeFlush c _ => c

def isAppend {C : Type} : Contention.Event C → Bool
  | .install _ _ => false
  | .finalizeFlush _ _ => false
  | _ => true

def callsComplete {V C I : Type} : Phase.Event V C I → Bool
  | .workerComplete _ => true
  | .extraComplete _ => true
  | .counterMessage _ _ => true
  | .peek _ => true
  | _ => false

def Event.sids {V C I R : Type} : Event V C I R → List (R × ℕ)
  | .append r ev => ev.sids.map fun sid => (r, sid)
  | _ => []

section

variable {V C X I R : Type}

/-- At the start of the phase all buffers are empty. Rows may have positions from an earlier one. -/
def State.start (row : R → VHandle) (backrefs : C → List R) : State V C X I R where
  node := .init
  rows r := .start (row r)
  backrefs := backrefs
  activity _ := .idle

variable [DecidableEq V] [DecidableEq C] [DecidableEq X] [DecidableEq I] [Fintype C]
  [DecidableEq R]

/-- A core appends versions in its worker and in the pieces that it executes. -/
def Active (P : Plan V C X I) (s : State V C X I R) (c : C) : Prop :=
  s.activity c = .idle ∧ s.node.begun = true ∧
    (0 < (s.node.stage c).left ∨ ∃ i ∈ P.items, s.node.status i = .running c)

instance (P : Plan V C X I) (s : State V C X I R) (c : C) : Decidable (Active P s c) := by
  unfold Active
  infer_instance

def State.setActivity (s : State V C X I R) (c : C) (a : Activity C R) : State V C X I R :=
  { s with activity := update s.activity c a }

def State.setRow (s : State V C X I R) (r : R) (t : Contention.State C) : State V C X I R :=
  { s with rows := update s.rows r t }

/-- A step of a core. `Complete` is preceded by `FinalizeFlush` on the same core. -/
def stepNode (P : Plan V C X I) (s : State V C X I R) (ev : Phase.Event V C I) :
    Option (State V C X I R) :=
  match s.node.actor ev with
  | none => (P.step s.node ev).map fun n => { s with node := n }
  | some c =>
    if s.activity c = if callsComplete ev then .scanning ∅ [] else .idle then
      (P.step s.node ev).map fun n => { s.setActivity c .idle with node := n }
    else none

def step (epochNr : ℕ) (P : Plan V C X I) (s : State V C X I R) :
    Event V C I R → Option (State V C X I R)
  | .node ev => stepNode P s ev
  | .append r ev =>
    if isAppend ev ∧ Active P s (core ev) then
      ((s.rows r).step epochNr ev).map fun t => s.setRow r t
    else none
  | .install c r pos =>
    if Active P s c then
      ((s.rows r).step epochNr (.install c pos)).map fun t =>
        (s.setRow r t).setActivity c (.installing r)
    else none
  | .incrementPos c =>
    match s.activity c with
    | .installing r =>
      some { s.setActivity c .idle with
        backrefs := update s.backrefs c (s.backrefs c ++ [r]) }
    | _ => none
  | .finalizeFlush c =>
    if s.activity c = .idle then some (s.setActivity c (.scanning univ [])) else none
  | .loadPos c i =>
    match s.activity c with
    | .scanning heads [] =>
      if i ∈ heads then some (s.setActivity c (.scanning (heads.erase i) (s.backrefs i))) else none
    | _ => none
  | .flushRow c r svc =>
    match s.activity c with
    | .scanning heads rows =>
      if r ∈ rows then
        ((s.rows r).step epochNr (.finalizeFlush c svc)).map fun t =>
          (s.setRow r t).setActivity c (.scanning heads (rows.erase r))
      else none
    | _ => none

/-- When a core starts `FinalizeFlush`, the positions into which it has buffered versions are
visible. -/
def PositionsVisible (s : State V C X I R) : Event V C I R → Prop
  | .finalizeFlush c => ∀ r, ((s.rows r).bufs c).versions ≠ [] → ∃ i, r ∈ s.backrefs i
  | _ => True

instance [Fintype R] (s : State V C X I R) (ev : Event V C I R) :
    Decidable (PositionsVisible s ev) := by
  cases ev <;> unfold PositionsVisible <;> infer_instance

end

/-! ## Steps on a row -/

section

variable {C : Type} {epochNr : ℕ} {s t : Contention.State C} {ev : Contention.Event C}

theorem bufs_appendLocked {svc : Services} {sid : ℕ} {weight extra : ℤ}
    (h : s.appendLocked epochNr svc sid weight extra = some t) : t.bufs = s.bufs := by
  obtain ⟨row, -, rfl⟩ := map_eq_some_iff.1 h
  simp

variable [DecidableEq C]

theorem bufs_flush {c d : C} {svc : Services} (h : s.flush epochNr d svc = some t) (hc : c ≠ d) :
    t.bufs c = s.bufs c := by
  obtain ⟨row, -, rfl⟩ := map_eq_some_iff.1 h
  simp [Contention.State.setBuf, update_of_ne hc]

/-- A core changes its own buffer only. -/
theorem bufs_step {c : C} (h : s.step epochNr ev = some t) (hc : c ≠ core ev) :
    t.bufs c = s.bufs c := by
  cases ev with
  | locked d svc sid weight =>
    obtain ⟨u, hu, rfl⟩ := map_eq_some_iff.1 h
    exact congrFun (bufs_appendLocked hu) c
  | install d pos =>
    simp only [Contention.State.step, ite_none_right_eq_some, some_inj] at h
    obtain ⟨-, rfl⟩ := h
    rfl
  | push d sid ondemandSplit =>
    simp only [Contention.State.step, ite_none_right_eq_some, some_inj] at h
    obtain ⟨-, rfl⟩ := h
    exact update_of_ne hc _ _
  | fullFlush d svc svc' sid ondemandSplit =>
    simp only [Contention.State.step, ite_none_right_eq_some, bind_eq_some_iff,
      map_eq_some_iff] at h
    obtain ⟨-, u, hu, w, hw, rfl⟩ := h
    exact (bufs_flush hw hc).trans (congrFun (bufs_appendLocked hu) c)
  | halfFlush d svc =>
    simp only [Contention.State.step, ite_none_right_eq_some] at h
    exact bufs_flush h.2 hc
  | finalizeFlush d svc =>
    simp only [Contention.State.step] at h
    split_ifs at h
    · obtain ⟨u, hu, rfl⟩ := map_eq_some_iff.1 h
      have hbufs := bufs_flush hu hc
      exact hbufs
    · cases h
      rfl

theorem settled_finalizeFlush {c : C} {svc : Services}
    (h : s.step epochNr (.finalizeFlush c svc) = some t) : t.settled c = true := by
  simp only [Contention.State.step] at h
  split_ifs at h
  · obtain ⟨u, -, rfl⟩ := map_eq_some_iff.1 h
    simp
  · cases h
    simp

end

/-! ## The invariant -/

section

variable {V C X I R : Type} {epochNr : ℕ} {P : Plan V C X I} {row : R → VHandle}
  {s t : State V C X I R}

theorem Active.obligated {c : C} (h : Active P s c) : Running.Obligated s.node c := by
  rcases h.2.2 with hleft | ⟨i, -, hi⟩
  · exact .inr (.inr hleft)
  · exact .inl ⟨i, hi⟩

variable [DecidableEq V] [DecidableEq C] [DecidableEq X] [Fintype C]

/-- A core with a version in one of its buffers has something to report; and while it is in
`FinalizeFlush`, the position is still to be visited. -/
structure Inv (epochNr : ℕ) (P : Plan V C X I) (row : R → VHandle) (s : State V C X I R) :
    Prop where
  running : s.node = .init ∨ Running P s.node
  rows : ∀ r, ∃ flushed, Contention.Inv epochNr (row r) (s.rows r) flushed (s.rows r).appended
  buffered : ∀ r c, ((s.rows r).bufs c).versions ≠ [] → Running.Obligated s.node c
  scanned : ∀ r c heads todo, ((s.rows r).bufs c).versions ≠ [] →
    s.activity c = .scanning heads todo → r ∈ todo ∨ ∃ i ∈ heads, r ∈ s.backrefs i

/-- A core that is not in `FinalizeFlush` has nothing to visit. -/
theorem Inv.setActivity (h : Inv epochNr P row s) {c : C} {a : Activity C R}
    (ha : ∀ r heads todo, ((s.rows r).bufs c).versions ≠ [] → a = .scanning heads todo →
      r ∈ todo ∨ ∃ i ∈ heads, r ∈ s.backrefs i) : Inv epochNr P row (s.setActivity c a) := by
  refine ⟨h.running, h.rows, h.buffered, fun r d heads todo hne hd => ?_⟩
  by_cases hdc : d = c
  · subst hdc
    exact ha r heads todo hne (by simpa [State.setActivity] using hd)
  · exact h.scanned r d heads todo hne
      (by simpa [State.setActivity, update_of_ne hdc] using hd)

/-- The buffers of a core are empty at the end of `FinalizeFlush`. -/
theorem Inv.empty_of_scanned (h : Inv epochNr P row s) {c : C} (hc : s.activity c = .scanning ∅ [])
    (r : R) : ((s.rows r).bufs c).versions = [] := by
  by_contra hne
  rcases h.scanned r c ∅ [] hne hc with hr | ⟨i, hi, -⟩
  · cases hr
  · exact absurd hi (notMem_empty i)

theorem inv_start (hcap : ∀ r, (row r).size ≤ (row r).capacity)
    (hlatest : ∀ r, (row r).latestVersion < (row r).size)
    (hsorted : ∀ r, (row r).versionList.Pairwise (· ≤ ·)) (backrefs : C → List R) :
    Inv epochNr P row (State.start row backrefs) := by
  refine ⟨.inl rfl, fun r => ⟨[], Contention.inv_start (hcap r) (hlatest r) (hsorted r)⟩,
    fun r c hne => absurd rfl hne, fun r c heads todo hne => absurd rfl hne⟩

variable [DecidableEq R]

theorem Inv.setRow (h : Inv epochNr P row s) {r : R} {ev : Contention.Event C}
    {u : Contention.State C} (hstep : (s.rows r).step epochNr ev = some u)
    (hnew : ∀ sid ∈ ev.sids, NewVersion epochNr (row r) sid)
    (hobligated : (u.bufs (core ev)).versions ≠ [] → Running.Obligated s.node (core ev))
    (hscan : ∀ heads todo, (u.bufs (core ev)).versions ≠ [] →
      s.activity (core ev) = .scanning heads todo → r ∈ todo ∨ ∃ i ∈ heads, r ∈ s.backrefs i) :
    Inv epochNr P row (s.setRow r u) := by
  have hrow : ∀ q, (s.setRow r u).rows q = if q = r then u else s.rows q := fun q => by
    simp only [State.setRow, update_apply]
  refine ⟨h.running, fun q => ?_, fun q c hne => ?_, fun q c heads todo hne hc => ?_⟩
  · rw [hrow]
    split_ifs with hq
    · obtain ⟨flushed, hinv⟩ := h.rows r
      subst hq
      exact hinv.step hnew hstep
    · exact h.rows q
  · rw [hrow] at hne
    split_ifs at hne with hq
    · by_cases hc : c = core ev
      · subst hc
        exact hobligated hne
      · rw [bufs_step hstep hc] at hne
        exact h.buffered r c hne
    · exact h.buffered q c hne
  · rw [hrow] at hne
    split_ifs at hne with hq
    · subst hq
      by_cases hcc : c = core ev
      · subst hcc
        exact hscan heads todo hne hc
      · rw [bufs_step hstep hcc] at hne
        exact h.scanned q c heads todo hne hc
    · exact h.scanned q c heads todo hne hc

variable [DecidableEq I]

theorem Inv.node [Nonempty C] (hK : ∀ v ∈ P.remotes, P.planned (.inl v) < kMaxPiecesPerPhase)
    (h : Inv epochNr P row s) {ev : Phase.Event V C I} (ht : stepNode P s ev = some t) :
    Inv epochNr P row t := by
  simp only [stepNode] at ht
  split at ht
  next hactor =>
    obtain ⟨n, hn, rfl⟩ := map_eq_some_iff.1 ht
    refine ⟨.inr (running_step hK h.running hn).1, h.rows, fun r c hne => ?_, h.scanned⟩
    refine (h.buffered r c hne).step h.running hn ?_ ?_
    · rintro rfl
      cases hactor
    · rintro rfl
      cases hactor
  next c hactor =>
    split_ifs at ht with hcalls hact hact
    · obtain ⟨n, hn, rfl⟩ := map_eq_some_iff.1 ht
      have hidle := h.setActivity (c := c) (a := .idle) (by simp)
      refine ⟨.inr (running_step hK h.running hn).1, h.rows, fun r d hne => ?_, hidle.scanned⟩
      have hdc : d ≠ c := by
        rintro rfl
        exact hne (h.empty_of_scanned hact r)
      refine (h.buffered r d hne).step h.running hn ?_ ?_
      · rintro rfl
        exact hdc (some.inj hactor)
      · rintro rfl
        exact hdc (some.inj hactor)
    · obtain ⟨n, hn, rfl⟩ := map_eq_some_iff.1 ht
      have hidle := h.setActivity (c := c) (a := .idle) (by simp)
      refine ⟨.inr (running_step hK h.running hn).1, h.rows, fun r d hne => ?_, hidle.scanned⟩
      refine (h.buffered r d hne).step h.running hn ?_ ?_
      · rintro rfl
        exact hcalls rfl
      · rintro rfl
        exact hcalls rfl

theorem Inv.step [Nonempty C] (hK : ∀ v ∈ P.remotes, P.planned (.inl v) < kMaxPiecesPerPhase)
    (h : Inv epochNr P row s) {ev : Event V C I R} (hvisible : PositionsVisible s ev)
    (hnew : ∀ p ∈ ev.sids, NewVersion epochNr (row p.1) p.2)
    (ht : Flush.step epochNr P s ev = some t) : Inv epochNr P row t := by
  cases ev with
  | node ev => exact h.node hK ht
  | append r ev =>
    simp only [Flush.step] at ht
    split_ifs at ht with hactive
    obtain ⟨u, hu, rfl⟩ := map_eq_some_iff.1 ht
    refine h.setRow hu (fun sid hsid => ?_)
      (fun _ => hactive.2.obligated) fun heads todo _ hact => ?_
    · exact hnew (r, sid) (List.mem_map.2 ⟨sid, hsid, rfl⟩)
    · rw [hactive.2.1] at hact
      cases hact
  | install c r pos =>
    simp only [Flush.step] at ht
    split_ifs at ht with hactive
    obtain ⟨u, hu, rfl⟩ := map_eq_some_iff.1 ht
    refine (h.setRow hu (by simp [Contention.Event.sids]) (fun _ => hactive.obligated)
      fun heads todo _ hact => ?_).setActivity (by simp)
    rw [show s.activity (core (.install c pos)) = .idle from hactive.1] at hact
    cases hact
  | incrementPos c =>
    simp only [Flush.step] at ht
    split at ht
    next r hact =>
      cases ht
      have hidle := h.setActivity (c := c) (a := .idle) (by simp)
      refine ⟨h.running, h.rows, h.buffered, fun q d heads todo hne hd => ?_⟩
      refine (hidle.scanned q d heads todo hne hd).imp_right (Exists.imp fun i => And.imp_right ?_)
      intro hq
      by_cases hic : i = c
      · subst hic
        simp only [update_self]
        exact List.mem_append_left _ hq
      · simp only [update_of_ne hic]
        exact hq
    next => cases ht
  | finalizeFlush c =>
    simp only [Flush.step] at ht
    split_ifs at ht with hact
    cases ht
    refine h.setActivity fun r heads todo hne ha => .inr ?_
    cases ha
    obtain ⟨i, hi⟩ := hvisible r hne
    exact ⟨i, mem_univ i, hi⟩
  | loadPos c i =>
    simp only [Flush.step] at ht
    split at ht
    next heads hact =>
      split_ifs at ht with hi
      cases ht
      refine h.setActivity fun r heads' todo hne ha => ?_
      cases ha
      rcases h.scanned r c heads [] hne hact with hr | ⟨j, hj, hr⟩
      · cases hr
      · by_cases hji : j = i
        · subst hji
          exact .inl hr
        · exact .inr ⟨j, mem_erase.2 ⟨hji, hj⟩, hr⟩
    next => cases ht
  | flushRow c r svc =>
    simp only [Flush.step] at ht
    split at ht
    next heads rows hact =>
      split_ifs at ht with hr
      obtain ⟨u, hu, rfl⟩ := map_eq_some_iff.1 ht
      -- the buffer of this row is empty now
      have hempty : (u.bufs c).versions = [] := by
        obtain ⟨flushed, hinv⟩ := h.rows r
        have hsids : ∀ sid ∈ (Contention.Event.finalizeFlush c svc : Contention.Event C).sids,
            NewVersion epochNr (row r) sid := by simp [Contention.Event.sids]
        obtain ⟨flushed', hinv'⟩ := hinv.step hsids hu
        exact hinv'.bufs.settled c (settled_finalizeFlush hu)
      refine (h.setRow hu (by simp [Contention.Event.sids]) (fun hne => absurd hempty hne)
        fun heads todo hne => absurd hempty hne).setActivity fun q heads' todo hne ha => ?_
      cases ha
      have hqr : q ≠ r := by
        rintro rfl
        simp [State.setRow, hempty] at hne
      have hne' : ((s.rows q).bufs c).versions ≠ [] := by
        simpa [State.setRow, update_of_ne hqr] using hne
      refine (h.scanned q c heads rows hne' hact).imp_left fun hq => ?_
      exact (List.mem_erase_of_ne hqr).2 hq
    next => cases ht

/-- **No version is left behind when the positions are visible in time.** In a run in which a core
starts `FinalizeFlush` only when the positions it has buffered into are visible, all buffers of all
cores are empty when `comp_count` is 0, and every version that was appended is in its row. -/
theorem no_version_left [Nonempty C] (P : Plan V C X I)
    (hK : ∀ v ∈ P.remotes, P.planned (.inl v) < kMaxPiecesPerPhase) (epochNr : ℕ)
    (row : R → VHandle) (hcap : ∀ r, (row r).size ≤ (row r).capacity)
    (hlatest : ∀ r, (row r).latestVersion < (row r).size)
    (hsorted : ∀ r, (row r).versionList.Pairwise (· ≤ ·)) (backrefs : C → List R)
    (evs : List (Event V C I R))
    (hnew : ∀ ev ∈ evs, ∀ p ∈ ev.sids, NewVersion epochNr (row p.1) p.2) (s : State V C X I R)
    (hvisible : Along (step epochNr P) PositionsVisible (State.start row backrefs) evs)
    (hrun : run (step epochNr P) (State.start row backrefs) evs = some s)
    (hbegun : s.node.begun = true) (hzero : s.node.comp = 0) (r : R) :
    (∀ c, ((s.rows r).bufs c).versions = [] ∧ ((s.rows r).bufs c).bit = false) ∧
      ∀ sid ∈ (s.rows r).appended, sid ∈ (s.rows r).row.versionList := by
  have h : Inv epochNr P row s := run_invariant (fun _ _ _ h hok ht => h.step hK hok.1 hok.2 ht) evs
    _ s (inv_start hcap hlatest hsorted backrefs) (hvisible.and hnew) hrun
  have hrunning : Running P s.node := by
    rcases h.running with hinit | hrunning
    · rw [hinit] at hbegun
      cases hbegun
    · exact hrunning
  have hover := hrunning.over_of_comp_eq_zero hK hzero
  have hempty : ∀ c, ((s.rows r).bufs c).versions = [] := fun c =>
    by_contra fun hne => Running.Over.not_obligated hrunning hover c (h.buffered r c hne)
  obtain ⟨flushed, hinv⟩ := h.rows r
  refine ⟨fun c => ⟨hempty c, ?_⟩, fun sid hsid => ?_⟩
  · rw [hinv.bufs.bit c, hempty c]
    rfl
  · have hbalance := hinv.bufs.balance
    rw [show Contention.inBuffers (s.rows r).bufs = 0 from
      sum_eq_zero fun c _ => by rw [hempty c]; rfl, add_zero, Multiset.coe_eq_coe] at hbalance
    refine hinv.row.merging.perm.mem_iff.2 (List.mem_append_right _ ?_)
    exact hbalance.mem_iff.2 hsid

end

/-! Two cores and no other node. The core `true` gives a new row its position, and the core `false`
buffers a version at that position and completes. -/

def workersOnly : Plan Unit Bool Unit Unit where
  remotes := ∅
  items := ∅
  origin _ := .inr true
  index _ := ()
  indices := []
  indices_nodup := by decide
  index_mem := by decide
  origin_mem := by decide

def freshRow : Unit → VHandle := fun _ => newRow 0x8000 0 fun _ => 0

/-- `FinalizeFlush` on a core, with the rows that it sees. -/
def flushAll (c : Bool) (rows : List Unit) : List (Event Unit Bool Unit Unit) :=
  [.finalizeFlush c, .loadPos c false, .loadPos c true] ++
    rows.map fun r => .flushRow c r clearedMemory

/-- The core `false` completes before the core `true` has executed `IncrementPos`. -/
def lateIncrement : List (Event Unit Bool Unit Unit) :=
  [.node .callTxns, .install true () 3, .append () (.push false (generateSerialId 1 1 1) false),
    .node (.flushEnd false)] ++
  flushAll false [] ++
  [.node (.workerComplete false), .incrementPos true, .node (.flushEnd true)] ++
  flushAll true [()] ++ [.node (.workerComplete true)] ++
  flushAll true [()] ++ [.node (.extraComplete true)]

/-- The phase is over, and the version is still in the buffer of the core `false`. -/
theorem version_left :
    ∃ s, run (step 1 workersOnly) (State.start freshRow fun _ => []) lateIncrement = some s ∧
      s.node.begun = true ∧ s.node.comp = 0 ∧
      ((s.rows ()).bufs false).versions = [generateSerialId 1 1 1] ∧
      ((s.rows ()).bufs false).bit = true := by decide +kernel

def earlyIncrement : List (Event Unit Bool Unit Unit) :=
  [.node .callTxns, .install true () 3, .append () (.push false (generateSerialId 1 1 1) false),
    .incrementPos true, .node (.flushEnd false)] ++
  flushAll false [()] ++ [.node (.workerComplete false), .node (.flushEnd true)] ++
  flushAll true [()] ++ [.node (.workerComplete true)] ++
  flushAll true [()] ++ [.node (.extraComplete true)]

theorem no_version_left_workersOnly :
    ∃ s, run (step 1 workersOnly) (State.start freshRow fun _ => []) earlyIncrement = some s ∧
      ∀ sid ∈ (s.rows ()).appended, sid ∈ (s.rows ()).row.versionList := by
  obtain ⟨s, hs, hend⟩ : ∃ s, run (step 1 workersOnly) (State.start freshRow fun _ => [])
      earlyIncrement = some s ∧ s.node.begun = true ∧ s.node.comp = 0 := by decide +kernel
  have hleft := no_version_left workersOnly (by decide) 1 freshRow (by decide) (by decide)
    (by decide) (fun _ => []) earlyIncrement (by decide +kernel) s
    (by decide +kernel) hs hend.1 hend.2 ()
  exact ⟨s, hs, hleft.2⟩

end Felis.Phase.Flush
