import Felis.Row.History

/-!
# What the predecessor search reads

`withVersion` gives the result of `WithVersion`; here every read of the version array is a call of
a reader, so that the search can be run with a reader that refuses indices outside of the versions
in use (`VHandle.versionAt`), or with one that answers with the memory around the array.

* `withVersionVia_versionAt`: on a row of the execution phase the checked search does what
  `withVersion` says; its only refused read is the one in front of the array.
* `predecessor_total`: in every run that keeps `latest_version` below `size`, the checked search
  succeeds and finds the predecessor, unless the row's first version is the latest one and is not
  before the reader.
* `predecessor_front`: in that case the search reads the word in front of the array, and takes the
  slot in front of the objects for the answer.
-/

namespace Felis.Row

open Cells Runs Option

/-! ## The search over a reader -/

/-- The halving loop of `std::lower_bound`, each cell read by `read`. -/
def lowerBoundVia (read : ℤ → Except Fault ℕ) (sid : ℕ) : ℕ → ℕ → ℕ → Except Fault ℕ
  | 0, first, _ => .ok first
  | fuel + 1, first, len =>
    if len = 0 then .ok first
    else do
      let mid ← read ↑(first + len / 2)
      if mid < sid then lowerBoundVia read sid fuel (first + len / 2 + 1) (len - len / 2 - 1)
      else lowerBoundVia read sid fuel first (len / 2)

/-- The search at the end of `WithVersion`. When it ends at the first version, the message that is
logged prints `*start` and `*versions`. -/
def searchVia (read : ℤ → Except Fault ℕ) (sid start stop : ℕ) : Except Fault (Option ℤ) := do
  let p ← lowerBoundVia read sid (stop - start) start (stop - start)
  if p = 0 then
    let _ ← read start
    let _ ← read 0
    return none
  else return some (p - 1 : ℕ)

/-- `WithVersion`, each cell of the version array read by `read`: the index of the object slot, or
`none` for a null pointer. -/
def withVersionVia (read : ℤ → Except Fault ℕ) (row : VHandle) (sid : ℕ) :
    Except Fault (Option ℤ) :=
  let latest := row.latestVersion
  if latest < 0 then searchVia read sid row.curStart row.size
  else do
    let version ← read latest
    if sid > version then
      let start := latest.toNat + 1
      if start ≥ row.size then return some latest
      else
        let following ← read start
        if sid ≤ following then return some latest
        else searchVia read sid start row.size
    else
      let before ← read (latest - 1)
      if before < sid then return some (latest - 1)
      else searchVia read sid row.curStart latest.toNat

/-- A read of the versions in use. -/
def VHandle.versionAt (row : VHandle) (i : ℤ) : Except Fault ℕ :=
  if 0 ≤ i ∧ i < row.size then .ok (row.versions i.toNat) else .error (.outOfBounds i)

/-- A read of the memory of a row whose array is embedded: the word in front of the array is the
last field of the row, `gc_handle`. -/
def VHandle.wordAt (row : VHandle) (i : ℤ) : Except Fault ℕ :=
  if i = -1 then .ok row.gcHandle
  else if 0 ≤ i ∧ i < 2 * row.capacity then .ok (row.versions i.toNat)
  else .error (.outOfBounds i)

theorem versionAt_natCast {row : VHandle} {i : ℕ} (hi : i < row.size) :
    row.versionAt (i : ℕ) = .ok (row.versions i) := by
  rw [VHandle.versionAt, if_pos (by omega), Int.toNat_natCast]

/-! ## The checked search -/

theorem lowerBoundVia_eq {read : ℤ → Except Fault ℕ} {f : ℕ → ℕ} {n : ℕ}
    (hread : ∀ i < n, read (i : ℕ) = .ok (f i)) (sid : ℕ) :
    ∀ fuel first len, first + len ≤ n →
      lowerBoundVia read sid fuel first len = .ok (lowerBoundLoop f sid fuel first len) := by
  intro fuel
  induction fuel with
  | zero =>
    intro first len _
    rfl
  | succ fuel ih =>
    intro first len hle
    rw [lowerBoundVia, lowerBoundLoop]
    by_cases h0 : len = 0
    · rw [if_pos h0, if_pos h0]
    · rw [if_neg h0, if_neg h0, hread _ (by omega)]
      change ite _ _ _ = _
      by_cases hlt : f (first + len / 2) < sid
      · rw [if_pos hlt, if_pos hlt]
        exact ih _ _ (by omega)
      · rw [if_neg hlt, if_neg hlt]
        exact ih _ _ (by omega)

namespace Executing

variable {row : VHandle} {nrOld sid : ℕ}

variable (h : Executing row nrOld)

include h

theorem searchVia_versionAt (hsize : row.size ≠ 0) {lo hi : ℕ} (hle : lo ≤ hi)
    (hhi : hi ≤ row.size) :
    searchVia row.versionAt sid lo hi = .ok ((searchFrom row sid lo hi).map Int.ofNat) := by
  have hp := h.lowerBound_splits sid lo hi hle hhi
  rw [searchVia, lowerBoundVia_eq (fun i => versionAt_natCast) sid _ _ _ (by omega), searchFrom]
  rw [lowerBound] at hp ⊢
  generalize lowerBoundLoop row.versions sid (hi - lo) lo (hi - lo) = p at hp ⊢
  change ite _ _ _ = _
  by_cases h0 : p = 0
  · -- the search ended at the first version, so it started there
    have hlo : lo = 0 := by have := hp.lo_le; omega
    rw [if_pos h0, if_pos h0, hlo, versionAt_natCast (by omega)]
    change VHandle.versionAt row ((0 : ℕ) : ℤ) >>= _ = _
    rw [versionAt_natCast (by omega)]
    rfl
  · rw [if_neg h0, if_neg h0]
    rfl

/-- The versions of the epoch start at `cur_start`, so a search that begins there stays below a
latest version that is not before a reader of the epoch. -/
theorem curStart_le_latest (hold : ∀ i < nrOld, row.versions i < sid)
    (hlatest : 0 ≤ row.latestVersion) (hsid : ¬ row.versions row.latestVersion.toNat < sid) :
    row.curStart ≤ row.latestVersion.toNat := by
  have hlt := h.latest_lt
  have hnew : nrOld ≤ row.latestVersion.toNat := not_lt.1 fun hc => hsid (hold _ hc)
  rw [h.curStart (by omega)]
  exact hnew

/-- **The checked search is the search.** The only cell that it is refused is the one in front of
the array. -/
theorem withVersionVia_versionAt (hsize : row.size ≠ 0) (hold : ∀ i < nrOld, row.versions i < sid) :
    withVersionVia row.versionAt row sid = (withVersion row sid).map (Option.map Int.ofNat) := by
  have hge := h.latest_ge
  have hlt := h.latest_lt
  rw [withVersionVia, withVersion]
  simp only
  by_cases hlatest : row.latestVersion < 0
  · -- nothing is written: the whole row is searched
    have hstart : row.curStart = 0 := by rw [h.curStart (by omega)]; omega
    rw [if_pos hlatest, if_neg (by omega), if_neg (by omega), hstart,
      h.searchVia_versionAt hsize (Nat.zero_le _) le_rfl]
    rfl
  · obtain ⟨latest, hl⟩ := Int.eq_ofNat_of_zero_le (not_lt.1 hlatest)
    have hcur := h.curStart_le_latest hold (by omega)
    simp only [hl, Int.toNat_natCast, Int.natCast_nonneg, true_and, if_true] at hlt hcur ⊢
    rw [if_neg (by omega), versionAt_natCast (by omega)]
    change ite _ _ _ = _
    by_cases hsid : sid > row.versions latest
    · rw [if_pos hsid, if_pos hsid]
      by_cases hend : latest + 1 ≥ row.size
      · rw [if_pos hend, if_pos (.inl hend)]
        rfl
      · rw [if_neg hend, versionAt_natCast (by omega)]
        change ite _ _ _ = _
        by_cases hnext : sid ≤ row.versions (latest + 1)
        · rw [if_pos hnext, if_pos (.inr hnext)]
          rfl
        · rw [if_neg hnext, if_neg (not_or.2 ⟨hend, hnext⟩),
            h.searchVia_versionAt hsize (by omega) le_rfl]
          rfl
    · rw [if_neg hsid, if_neg hsid]
      rcases latest with _ | latest
      · rfl
      · rw [if_neg (by omega), show ((latest + 1 : ℕ) : ℤ) - 1 = (latest : ℕ) by omega,
          versionAt_natCast (by omega), Nat.add_sub_cancel]
        change ite _ _ _ = _
        by_cases hbefore : row.versions latest < sid
        · rw [if_pos hbefore, if_pos hbefore]
          rfl
        · rw [if_neg hbefore, if_neg hbefore, h.searchVia_versionAt hsize (hcur hsid) (by omega)]
          rfl

/-- A reader that no version precedes gets a null pointer, when the first version is not the latest
one. -/
theorem withVersion_null (hsize : row.size ≠ 0) (hold : ∀ i < nrOld, row.versions i < sid)
    (hnull : sid ≤ row.versions 0) (hlatest : row.latestVersion ≠ 0) :
    withVersion row sid = .ok none := by
  have hlt := h.latest_lt
  have hge := h.latest_ge
  have hnone : ∀ i < row.size, ¬ row.versions i < sid := fun i hi =>
    not_lt.2 (hnull.trans (h.sorted_le (Nat.zero_le i) hi))
  have hnew : nrOld = 0 := by
    by_contra hc
    exact hnone 0 (by omega) (hold 0 (by omega))
  have hstart : row.curStart = 0 := by rw [h.curStart (by omega), hnew]
  have hsearch : ∀ hi ≤ row.size, searchFrom row sid 0 hi = none := fun hi hle => by
    have hp := h.lowerBound_splits sid 0 hi (Nat.zero_le _) hle
    rw [searchFrom]
    refine if_pos (Nat.eq_zero_of_not_pos fun hpos => ?_)
    exact hnone 0 (by omega) (hp.below 0 le_rfl hpos)
  rw [withVersion]
  simp only
  by_cases hneg : 0 ≤ row.latestVersion
  · rw [if_neg fun hc => hnone _ (by omega) hc.2, if_pos hneg, if_neg (by omega),
      if_neg (hnone _ (by omega)), hstart, hsearch _ (by omega)]
  · rw [if_neg fun hc => hneg hc.1, if_neg hneg, hstart, hsearch _ le_rfl]

end Executing

theorem withVersion_front {row : VHandle} {sid : ℕ} (hlatest : row.latestVersion = 0)
    (hsid : sid ≤ row.versions 0) : withVersion row sid = .error (.outOfBounds (-1)) := by
  simp [withVersion, hlatest, not_lt.2 hsid]

/-- The search for `sid` reads versions in use only, and answers with a null pointer when no version
precedes `sid`, and else with the slot of the last one that does. -/
structure FindsPredecessor (row : VHandle) (sid : ℕ) : Prop where
  null : sid ≤ row.versions 0 → withVersionVia row.versionAt row sid = .ok none
  slot : row.versions 0 < sid → ∃ pos : ℕ,
    withVersionVia row.versionAt row sid = .ok (some (pos : ℤ)) ∧ ReadSlot row sid pos

theorem Executing.findsPredecessor {row : VHandle} {nrOld sid : ℕ} (h : Executing row nrOld)
    (hsize : row.size ≠ 0) (hold : ∀ i < nrOld, row.versions i < sid)
    (hfront : ¬ (row.latestVersion = 0 ∧ sid ≤ row.versions 0)) : FindsPredecessor row sid where
  null hnull := by
    rw [h.withVersionVia_versionAt hsize hold,
      h.withVersion_null hsize hold hnull fun hc => hfront ⟨hc, hnull⟩]
    rfl
  slot hlow := by
    obtain ⟨pos, hpos, hslot⟩ := h.withVersion_spec ⟨0, by omega, hlow⟩ hold
    rw [h.withVersionVia_versionAt hsize hold, hpos]
    exact ⟨pos, rfl, hslot⟩

/-! ## Runs of a row -/

namespace History

/-- The event leaves `latest_version` below `size`. -/
def LatestInRange (h : History) (ev : Event) : Prop :=
  ∀ h' ∈ h.step ev, h'.row.latestVersion < h'.row.size

instance (h : History) (ev : Event) : Decidable (h.LatestInRange ev) :=
  match hs : h.step ev with
  | none => isTrue fun h' hm => by simp [hs] at hm
  | some t =>
    decidable_of_iff (t.row.latestVersion < t.row.size)
      ⟨fun ht h' hm => by simp only [hs, mem_some_iff] at hm; exact hm ▸ ht,
        fun ht => ht t (by simp [hs])⟩

/-- A write that is misled by the cell past the versions moves `latest_version` there. -/
theorem LatestInRange.pastCellClear {h h' : History} {ev : Event} (hrange : h.LatestInRange ev)
    (hstep : h.step ev = some h') : h.PastCellClear ev := by
  have hlt := hrange h' hstep
  cases ev with
  | beginEpoch | append | batch | collect | read => trivial
  | write svc sid obj =>
    intro hlatest hcell
    simp only [History.step, ite_none_right_eq_some, toOption_map_eq_some] at hstep
    obtain ⟨-, row', hrow, rfl⟩ := hstep
    have hit : writeSlot h.row sid = .ok h.row.size := by
      simp only [writeSlot, hlatest, Int.toNat_natCast, hcell, if_true]
    have hwrote := writeWithVersion_spec hit hrow
    have hle := le_max_right h.row.latestVersion (h.row.size : ℤ)
    rw [← hwrote.latest, ← hwrote.size] at hle
    exact absurd hlt (not_lt.2 hle)

/-- **The predecessor search is total and in range** in every state of a run that keeps
`latest_version` below `size`, if and only if it is not the case that the row's first version is
the latest one and is not before the reader. -/
theorem predecessor_total (c : Creation) (evs : List Event) (h : History)
    (hrange : Along step LatestInRange (start c) evs) (hrun : run step (start c) evs = some h)
    (hsize : h.row.size ≠ 0) (sid : ℕ) (hsid : epochOf sid = h.epoch) :
    FindsPredecessor h.row sid ↔ ¬ (h.row.latestVersion = 0 ∧ sid ≤ h.row.versions 0) := by
  obtain ⟨nrOld, hi⟩ := run_invariant (I := fun h => ∃ nrOld, h.Inv nrOld)
    (fun s e t ⟨nrOld, hi⟩ hok hstep => hi.step (LatestInRange.pastCellClear hok hstep) hstep)
    evs _ h ⟨0, inv_start c⟩ hrange hrun
  have hold : ∀ i < nrOld, h.row.versions i < sid := fun i hi' =>
    lt_of_epochOf_lt ((hi.old_epoch i hi').trans_eq hsid.symm)
  refine ⟨fun hfinds hfront => ?_, hi.exec.findsPredecessor hsize hold⟩
  have hnull := hfinds.null hfront.2
  rw [hi.exec.withVersionVia_versionAt hsize hold, withVersion_front hfront.1 hfront.2] at hnull
  cases hnull

def laterWritten : List Event :=
  [.beginEpoch 1, .append clearedMemory (sidOf 1 2) 0, .append clearedMemory (sidOf 1 3) 0,
    .write clearedMemory (sidOf 1 3) 0x2000]

theorem predecessor_total_laterWritten :
    ∃ h, run step (start plainRow) laterWritten = some h ∧
      FindsPredecessor h.row (sidOf 1 1) ∧ FindsPredecessor h.row (sidOf 1 3) := by
  obtain ⟨h, hrun, hsize, hepoch, hlatest⟩ : ∃ h,
      run step (start plainRow) laterWritten = some h ∧
      h.row.size ≠ 0 ∧ h.epoch = 1 ∧ h.row.latestVersion ≠ 0 := by decide +kernel
  have hfinds : ∀ sid, epochOf sid = 1 → FindsPredecessor h.row sid := fun sid hsid =>
    (predecessor_total _ laterWritten h (by decide +kernel) hrun hsize sid
      (hsid.trans hepoch.symm)).2 fun hc => hlatest hc.1
  exact ⟨h, hrun, hfinds _ (by decide), hfinds _ (by decide)⟩

def onlyWritten : List Event :=
  [.beginEpoch 1, .append clearedMemory (sidOf 1 2) 0, .write clearedMemory (sidOf 1 2) 0x2000]

/-- **The search reads in front of the array.** The only version of the row is written and is not
before the reader. The read in front of the versions is out of range; the word there is `gc_handle`
of the row, which is `0` and before the reader, so that the answer is not a null pointer but the
slot in front of the first object. -/
theorem predecessor_front : ∃ h, run step (start plainRow) onlyWritten = some h ∧
    Along step LatestInRange (start plainRow) onlyWritten ∧
    epochOf (sidOf 1 1) = h.epoch ∧ sidOf 1 1 ≤ h.row.versions 0 ∧
    withVersionVia h.row.versionAt h.row (sidOf 1 1) = .error (.outOfBounds (-1)) ∧
    withVersionVia h.row.wordAt h.row (sidOf 1 1) = .ok (some (-1)) := by decide +kernel

end History

end Felis.Row
