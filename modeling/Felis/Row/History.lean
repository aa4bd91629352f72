import Felis.Foundations.Runs
import Felis.Row.Spec

/-!
# A row through its epochs

The life of one row: an epoch begins when everything appended before has been written, then its
versions are appended in any order, one by one or in batches, with collections in between, and
then they are written in any order, interleaved with reads. The state keeps next to the row what
was appended and written so far, so that a read can be compared with the serial history.

* `History.Inv` ties the arrays, `cur_start` and `latest_version` to the history, and every step
  preserves it (`Inv.step`) unless a write is misled by the cell past the versions;
* `read_serial` is the result for whole runs: a read selects the slot of the largest version
  before it and returns what was written for it;
* `read_stale_cell` is a run in which a collection leaves a serial id in the cell past the
  versions: the write with that serial id lands there.
-/

namespace Felis.Row

open Cells Runs List Option

structure History where
  row : VHandle
  epoch : ℕ
  appended : List ℕ
  written : List (ℕ × ℕ)
  /-- The first access of the execution stage of the epoch has happened. -/
  executing : Bool

inductive Event
  | beginEpoch (epochNr : ℕ)
  | append (svc : Services) (sid : ℕ) (weight : ℤ)
  | batch (svc : Services) (sids : List ℕ)
  | collect (limit : ℕ)
  | write (svc : Services) (sid obj : ℕ)
  | read (sid core : ℕ)

namespace History

/-- A newly created row, in the epoch of the loader. -/
def start (c : Creation) : History where
  row := c.row
  epoch := 0
  appended := []
  written := []
  executing := false

/-- Versions that may be appended now: distinct new versions of the epoch. The loader appends the
single version `0`. -/
def Appendable (h : History) (sids : List ℕ) : Prop :=
  h.executing = false ∧ sids.Nodup ∧ (∀ s ∈ sids, epochOf s = h.epoch ∧ s ∉ h.appended) ∧
    (h.epoch = 0 → h.appended = [] ∧ sids = [0])

instance (h : History) (sids : List ℕ) : Decidable (h.Appendable sids) :=
  inferInstanceAs (Decidable (_ ∧ _))

/-- A version that may be written now, with an object that is not a pending value. -/
def Writable (h : History) (sid obj : ℕ) : Prop :=
  sid ∈ h.appended ∧ epochOf sid = h.epoch ∧ sid ∉ h.written.map Prod.fst ∧
    isPendingVal obj = false

instance (h : History) (sid obj : ℕ) : Decidable (h.Writable sid obj) :=
  inferInstanceAs (Decidable (_ ∧ _))

/-- A serial id that may read now. -/
def Readable (h : History) (sid : ℕ) : Prop := epochOf sid = h.epoch ∧ ∃ v ∈ h.appended, v < sid

instance (h : History) (sid : ℕ) : Decidable (h.Readable sid) :=
  inferInstanceAs (Decidable (_ ∧ _))

/-- One event. A read that finds its slot pending leaves the mark of the waiting core there. The
collector is only called for rows that hold a version. -/
def step (h : History) : Event → Option History
  | .beginEpoch e =>
    if h.epoch < e ∧ ∀ v ∈ h.appended, v ∈ h.written.map Prod.fst then
      some { h with epoch := e, executing := false }
    else none
  | .append svc sid weight =>
    if h.Appendable [sid] then
      (appendNewVersionNoLock svc h.row sid h.epoch weight).toOption.map fun row =>
        { h with row := row, appended := [sid] ++ h.appended }
    else none
  | .batch svc sids =>
    if h.Appendable sids then
      (appendBatch svc h.row sids h.epoch).toOption.map fun row =>
        { h with row := row, appended := sids ++ h.appended }
    else none
  | .collect limit =>
    if h.executing = false ∧ h.row.size ≠ 0 then
      (Row.collect h.row h.epoch limit).toOption.map fun c => { h with row := c.row }
    else none
  | .write svc sid obj =>
    if h.Writable sid obj then
      (writeWithVersion svc h.row sid obj h.epoch).toOption.map fun row =>
        { h with row := row, written := (sid, obj) :: h.written, executing := true }
    else none
  | .read sid core =>
    if h.Readable sid ∧ core < 32 then
      match readWithVersion h.row sid with
      | .ok (.pending pos) => some { h with row := waitForData h.row pos core, executing := true }
      | .ok _ => some { h with executing := true }
      | .error _ => none
    else none

/-- When everything is written, the cell past the versions does not hold the serial id of a
write. -/
def PastCellClear (h : History) : Event → Prop
  | .write _ sid _ =>
    h.row.latestVersion + 1 = h.row.size → h.row.versions h.row.size ≠ sid
  | _ => True

instance (h : History) (ev : Event) : Decidable (h.PastCellClear ev) :=
  match ev with
  | .write _ sid _ =>
    inferInstanceAs (Decidable (h.row.latestVersion + 1 = h.row.size →
      h.row.versions h.row.size ≠ sid))
  | .beginEpoch _ | .append .. | .batch .. | .collect _ | .read .. =>
    inferInstanceAs (Decidable True)

/-! ## The invariant -/

/-- A slot is pending and its version, of this epoch, unwritten, or it holds what was written. -/
def Slot (h : History) (nrOld i : ℕ) : Prop :=
  (nrOld ≤ i ∧ h.row.versions i ∉ h.written.map Prod.fst ∧
    isPendingVal (h.row.objects i) = true) ∨
  ((h.row.versions i, h.row.objects i) ∈ h.written ∧ isPendingVal (h.row.objects i) = false)

/-- The row agrees with its history; `nrOld` of its versions are of earlier epochs. -/
structure Inv (h : History) (nrOld : ℕ) : Prop where
  exec : Executing h.row nrOld
  mem_appended : ∀ i < h.row.size, h.row.versions i ∈ h.appended
  /-- A version is only ever dropped when a newer one of an earlier epoch stays. -/
  kept : ∀ v ∈ h.appended, (∃ i < h.row.size, h.row.versions i = v) ∨
    ∃ i < nrOld, v < h.row.versions i
  epoch_le : ∀ v ∈ h.appended, epochOf v ≤ h.epoch
  old_epoch : ∀ i < nrOld, epochOf (h.row.versions i) < h.epoch
  new_epoch : ∀ i, nrOld ≤ i → i < h.row.size → epochOf (h.row.versions i) = h.epoch
  slots : ∀ i < h.row.size, h.Slot nrOld i
  written_le : ∀ i < h.row.size, h.row.versions i ∈ h.written.map Prod.fst →
    (i : ℤ) ≤ h.row.latestVersion
  written_mem : ∀ p ∈ h.written, p.1 ∈ h.appended
  appending : h.executing = false → h.row.latestVersion = nrOld - 1

theorem inv_start (c : Creation) : (start c).Inv 0 := by
  refine ⟨⟨?_, ?_, ?_, ?_, ?_, ?_⟩, ?_, ?_, ?_, ?_, ?_, ?_, ?_, ?_, ?_⟩ <;>
    simp [start, Creation.row, newRow]

namespace Inv

variable {h : History} {nrOld : ℕ} {row' : VHandle}

variable (hi : h.Inv nrOld)

include hi

/-- Only versions of earlier epochs can be dropped, and never the last of them. -/
theorem old_of_droppable {i : ℕ} (hdrop : Droppable h.row h.epoch i) : i + 1 < nrOld :=
  not_le.1 fun hc => absurd (hi.new_epoch (i + 1) hc hdrop.1) hdrop.2.ne

theorem lt_of_droppable {k : ℕ} (hk : ∀ i < k, Droppable h.row h.epoch i) (h0 : k ≠ 0) :
    k < nrOld := by
  have := hi.old_of_droppable (hk (k - 1) (by omega))
  omega

/-- Before the first write of the epoch its versions are unwritten. -/
theorem unwritten (hexec : h.executing = false) {i : ℕ} (hge : nrOld ≤ i) (hsize : i < h.row.size) :
    h.row.versions i ∉ h.written.map Prod.fst := fun hw => by
  have := hi.written_le i hsize hw
  have := hi.appending hexec
  omega

theorem pending_of_appending (hexec : h.executing = false) {i : ℕ} (hge : nrOld ≤ i)
    (hsize : i < h.row.size) : isPendingVal (h.row.objects i) = true := by
  rcases hi.slots i hsize with ⟨-, -, hp⟩ | ⟨hw, -⟩
  · exact hp
  · exact absurd (mem_map_of_mem hw) (hi.unwritten hexec hge hsize)

theorem written_of_old {i : ℕ} (hlt : i < nrOld) :
    (h.row.versions i, h.row.objects i) ∈ h.written ∧
      isPendingVal (h.row.objects i) = false := by
  rcases hi.slots i (by have := hi.exec.nrOld_le; omega) with ⟨hge, -⟩ | hw
  · omega
  · exact hw

theorem pairwise_versionList : h.row.versionList.Pairwise (· < ·) :=
  pairwise_seg.2 fun i j hij hj => by
    rw [Nat.zero_add, Nat.zero_add]
    exact hi.exec.sorted i j hij hj

/-- A version in the remaining part of the row after the `k` oldest are gone. -/
theorem kept_drop {k : ℕ} (hk : k ≠ 0 → k < nrOld) {v : ℕ} (hv : v ∈ h.appended) :
    (∃ i, k ≤ i ∧ i < h.row.size ∧ h.row.versions i = v) ∨
      ∃ i, k ≤ i ∧ i < nrOld ∧ v < h.row.versions i := by
  have hold := hi.exec.nrOld_le
  rcases hi.kept v hv with ⟨i, hi', rfl⟩ | ⟨i, hi', hlt⟩
  · by_cases hik : k ≤ i
    · exact .inl ⟨i, hik, hi', rfl⟩
    · have := hk (by omega)
      exact .inr ⟨k, le_rfl, this, hi.exec.sorted i k (by omega) (by omega)⟩
  · by_cases hik : k ≤ i
    · exact .inr ⟨i, hik, hi', hlt⟩
    · have := hk (by omega)
      exact .inr ⟨k, le_rfl, this, hlt.trans (hi.exec.sorted i k (by omega) (by omega))⟩

/-! ## Every step keeps it -/

theorem beginEpoch {e : ℕ} (he : h.epoch < e)
    (hall : ∀ v ∈ h.appended, v ∈ h.written.map Prod.fst) :
    ({ h with epoch := e, executing := false } : History).Inv h.row.size := by
  have hge := hi.exec.latest_ge
  have hlt := hi.exec.latest_lt
  have hold := hi.exec.nrOld_le
  have hlatest : (h.row.size : ℤ) - 1 ≤ h.row.latestVersion := by
    rcases Nat.eq_zero_or_pos h.row.size with h0 | hpos
    · omega
    · have := hi.written_le (h.row.size - 1) (by omega) (hall _ (hi.mem_appended _ (by omega)))
      omega
  refine ⟨⟨hi.exec.size_le, hi.exec.sorted, le_rfl, by simp, hlatest, hlt⟩, hi.mem_appended,
    fun v hv => ?_, fun v hv => (hi.epoch_le v hv).trans he.le, fun i hi' => ?_,
    fun i hge hi' => ?_, fun i hi' => ?_, hi.written_le, hi.written_mem, fun _ => ?_⟩
  · rcases hi.kept v hv with hm | ⟨i, hi', hlt⟩
    · exact .inl hm
    · exact .inr ⟨i, by omega, hlt⟩
  · exact (hi.epoch_le _ (hi.mem_appended i hi')).trans_lt he
  · exact absurd hi' (not_lt.2 hge)
  · rcases hi.slots i hi' with ⟨-, hw, -⟩ | hw
    · exact absurd (hall _ (hi.mem_appended i hi')) hw
    · exact .inr hw
  · simp only
    omega

theorem append {svc : Services} {sids : List ℕ} {k : ℕ} (happ : h.Appendable sids)
    (hspec : AppendSpec svc h.row row' sids h.epoch k) :
    ({ h with row := row', appended := sids ++ h.appended } : History).Inv (nrOld - k) := by
  obtain ⟨hexec, hnodup, hfresh, -⟩ := happ
  have hold := hi.exec.nrOld_le
  have hk := hi.lt_of_droppable hspec.droppable
  have hsize := hspec.size
  have hlatest := hi.appending hexec
  have hlatest' := hspec.latest
  have hknr : k ≤ nrOld := by
    by_cases h0 : k = 0
    · omega
    · exact (hk h0).le
  have hpw := hi.pairwise_versionList
  obtain ⟨hlow, hhigh⟩ := hspec.split (hpw.imp fun h => h.le) hknr hold
    fun i hlt s hs => (lt_of_epochOf_lt ((hi.old_epoch i hlt).trans_eq (hfresh s hs).1.symm)).le
  -- where a version of the new row comes from
  have hnew : ∀ i, nrOld - k ≤ i → i < row'.size →
      (∃ j, nrOld ≤ j ∧ j < h.row.size ∧ h.row.versions j = row'.versions i) ∨
        row'.versions i ∈ sids := fun i hge hlt => by
    have hmem : row'.versions i ∈ seg row'.versions (nrOld - k) (row'.size - (nrOld - k)) :=
      mem_seg.2 ⟨i - (nrOld - k), by omega, by congr 1; omega⟩
    rcases mem_append.1 (hhigh.mem_iff.1 hmem) with hm | hm
    · obtain ⟨j, hj, heq⟩ := mem_seg.1 hm
      exact .inl ⟨nrOld + j, by omega, by omega, heq⟩
    · exact .inr hm
  have hunwritten : ∀ i, nrOld - k ≤ i → i < row'.size →
      row'.versions i ∉ h.written.map Prod.fst := fun i hge hlt => by
    rcases hnew i hge hlt with ⟨j, hj, hjs, heq⟩ | hm
    · rw [← heq]
      exact hi.unwritten hexec hj hjs
    · intro hw
      obtain ⟨p, hp, heq⟩ := mem_map.1 hw
      exact (hfresh _ hm).2 (heq ▸ hi.written_mem p hp)
  have hmem : ∀ v, v ∈ row'.versionList ↔ ∃ i < row'.size, row'.versions i = v := fun v => by
    rw [VHandle.versionList, mem_seg]
    simp
  refine ⟨⟨hspec.size_le, ?_, by simp only; omega, fun _ => ?_, by simp only; omega,
    by simp only; omega⟩, fun i hlt => ?_, fun v hv => ?_, fun v hv => ?_, fun i hlt => ?_,
    fun i hge hlt => ?_, fun i hlt => ?_, fun i hlt hw => ?_, fun p hp => ?_, fun _ => ?_⟩
  · -- sorted, and without duplicates since the new versions are new
    have hnd : row'.versionList.Nodup := hspec.perm.nodup_iff.2 <| nodup_append.2
      ⟨(hpw.imp fun h => h.ne).sublist (drop_sublist _ _), hnodup, fun a ha b hb hab => by
        obtain ⟨i, hi', rfl⟩ := mem_seg.1 (mem_of_mem_drop ha)
        rw [Nat.zero_add] at hab
        exact (hfresh b hb).2 (hab ▸ hi.mem_appended i hi')⟩
    have hlt := (hspec.sorted.and hnd).imp fun h => lt_of_le_of_ne h.1 h.2
    intro i j hij hj
    simpa using pairwise_seg.1 hlt i j hij hj
  · have := hspec.curStart (by omega)
    simp only
    omega
  · have : row'.versions i ∈ row'.versionList := (hmem _).2 ⟨i, hlt, rfl⟩
    rcases mem_append.1 (hspec.perm.mem_iff.1 this) with hm | hm
    · obtain ⟨j, hj, heq⟩ := mem_seg.1 (mem_of_mem_drop hm)
      exact mem_append_right _ (heq ▸ hi.mem_appended _ (by omega))
    · exact mem_append_left _ hm
  · rcases mem_append.1 hv with hv | hv
    · exact .inl ((hmem v).1 (hspec.perm.mem_iff.2 (mem_append_right _ hv)))
    · rcases hi.kept_drop hk hv with ⟨i, hki, hlt, rfl⟩ | ⟨i, hki, hlt, hv⟩
      · refine .inl ((hmem _).1 (hspec.perm.mem_iff.2 (mem_append_left _ ?_)))
        rw [VHandle.versionList, drop_seg _ _ (by omega)]
        exact mem_seg.2 ⟨i - k, by omega, by congr 1; omega⟩
      · refine .inr ⟨i - k, by omega, ?_⟩
        simp only
        rwa [hlow _ (by omega), show k + (i - k) = i by omega]
  · rcases mem_append.1 hv with hv | hv
    · exact (hfresh v hv).1.le
    · exact hi.epoch_le v hv
  · simp only
    rw [hlow i (by omega)]
    exact hi.old_epoch _ (by omega)
  · rcases hnew i hge hlt with ⟨j, hj, hjs, heq⟩ | hm
    · simp only
      rw [← heq]
      exact hi.new_epoch j hj hjs
    · exact (hfresh _ hm).1
  · have hobj := objects_append hspec (by omega) hlt
    simp only [Slot]
    by_cases hio : i < nrOld - k
    · right
      rw [hobj, if_pos (by omega), hlow i (by omega)]
      exact hi.written_of_old (by omega)
    · refine .inl ⟨by omega, hunwritten i (by omega) hlt, ?_⟩
      rw [hobj]
      split_ifs with hik
      · exact hi.pending_of_appending hexec (by omega) (by omega)
      · rfl
  · have hio : i < nrOld - k := not_le.1 fun hc => hunwritten i hc hlt hw
    simp only
    omega
  · exact mem_append_right _ (hi.written_mem p hp)
  · simp only
    omega

theorem collect {limit k : ℕ} (hexec : h.executing = false)
    (hspec : CollectSpec h.row row' h.epoch limit k) :
    ({ h with row := row' } : History).Inv (nrOld - k) := by
  have hold := hi.exec.nrOld_le
  have hk := hi.lt_of_droppable hspec.droppable
  have hd := hspec.dropped
  have hsize := hd.size
  have hlatest := hi.appending hexec
  have hlatest' := hd.latest
  have hcap := hi.exec.size_le
  have hknr : k ≤ nrOld := by
    by_cases h0 : k = 0
    · omega
    · exact (hk h0).le
  refine ⟨⟨by simp only [hd.capacity]; omega, fun i j hij hj => ?_, by simp only; omega,
    fun hlt => ?_, by simp only; omega, by simp only; omega⟩, fun i hlt => ?_, fun v hv => ?_,
    hi.epoch_le, fun i hlt => ?_, fun i hge hlt => ?_, fun i hlt => ?_, fun i hlt hw => ?_,
    hi.written_mem, fun _ => ?_⟩
  · simp only at hj ⊢
    rw [hd.versions i (by omega), hd.versions j hj]
    exact hi.exec.sorted _ _ (by omega) (by omega)
  · simp only at hlt ⊢
    have := hi.exec.curStart (by omega)
    have := hspec.curStart (by omega)
    omega
  · simp only at hlt ⊢
    rw [hd.versions i hlt]
    exact hi.mem_appended _ (by omega)
  · rcases hi.kept_drop hk hv with ⟨i, hki, hlt, rfl⟩ | ⟨i, hki, hlt, hv⟩
    · refine .inl ⟨i - k, by simp only; omega, ?_⟩
      simp only
      rw [hd.versions _ (by omega), show k + (i - k) = i by omega]
    · refine .inr ⟨i - k, by omega, ?_⟩
      simp only
      rwa [hd.versions _ (by omega), show k + (i - k) = i by omega]
  · simp only
    rw [hd.versions i (by omega)]
    exact hi.old_epoch _ (by omega)
  · simp only at hlt ⊢
    rw [hd.versions i hlt]
    exact hi.new_epoch _ (by omega) (by omega)
  · simp only at hlt
    rcases hi.slots (k + i) (by omega) with ⟨hge, hrest⟩ | hrest
    · refine .inl ⟨by omega, ?_⟩
      simp only
      rwa [hd.versions i hlt, hd.objects i hlt]
    · right
      simp only
      rwa [hd.versions i hlt, hd.objects i hlt]
  · simp only at hlt hw ⊢
    rw [hd.versions i hlt] at hw
    have := hi.written_le (k + i) (by omega) hw
    omega
  · simp only
    omega

/-- During execution the versions stay: what changes are the objects, the writes and
`latest_version`, which only grows. -/
theorem execute {written' : List (ℕ × ℕ)} (hsize : row'.size = h.row.size)
    (hcap : row'.capacity = h.row.capacity) (hstart : row'.curStart = h.row.curStart)
    (hv : ∀ i < h.row.size, row'.versions i = h.row.versions i)
    (hlatest : h.row.latestVersion ≤ row'.latestVersion) (hlt : row'.latestVersion < h.row.size)
    (hslots : ∀ i < h.row.size,
      ({ h with row := row', written := written', executing := true } : History).Slot nrOld i)
    (hle : ∀ i < h.row.size, h.row.versions i ∈ written'.map Prod.fst →
      (i : ℤ) ≤ row'.latestVersion) (hmem : ∀ p ∈ written', p.1 ∈ h.appended) :
    ({ h with row := row', written := written', executing := true } : History).Inv nrOld := by
  have hold := hi.exec.nrOld_le
  refine ⟨⟨?_, fun i j hij hj => ?_, ?_, fun hlt => ?_, hi.exec.latest_ge.trans hlatest, ?_⟩,
    fun i hi' => ?_, fun v hv' => ?_, hi.epoch_le, fun i hi' => ?_, fun i hge hi' => ?_,
    fun i hi' => hslots i (hsize ▸ hi'), fun i hi' hw => ?_, hmem, by simp⟩
  · simp only [hsize, hcap]
    exact hi.exec.size_le
  · simp only [hsize] at hj ⊢
    rw [hv i (by omega), hv j hj]
    exact hi.exec.sorted i j hij hj
  · simp only [hsize]
    exact hold
  · simp only [hsize, hstart] at hlt ⊢
    exact hi.exec.curStart hlt
  · simp only [hsize]
    exact hlt
  · simp only [hsize] at hi' ⊢
    rw [hv i hi']
    exact hi.mem_appended i hi'
  · rcases hi.kept v hv' with ⟨i, hi', heq⟩ | ⟨i, hi', hlt⟩
    · exact .inl ⟨i, by simp only [hsize]; exact hi', by simp only; rw [hv i hi', heq]⟩
    · exact .inr ⟨i, hi', by simp only; rwa [hv i (by omega)]⟩
  · simp only
    rw [hv i (by omega)]
    exact hi.old_epoch i hi'
  · simp only [hsize] at hi' ⊢
    rw [hv i hi']
    exact hi.new_epoch i hge hi'
  · simp only [hsize] at hi' hw ⊢
    rw [hv i hi'] at hw
    exact hle i hi' hw

theorem write {sid obj it : ℕ} (hw : h.Writable sid obj) (hge : nrOld ≤ it) (hlt : it < h.row.size)
    (hit : h.row.versions it = sid) (hspec : Wrote h.row row' it obj) :
    ({ h with row := row', written := (sid, obj) :: h.written, executing := true } : History).Inv
      nrOld := by
  obtain ⟨hmem, -, hnot, hobj⟩ := hw
  have hv : ∀ i < h.row.size, row'.versions i = h.row.versions i := fun i hlt => by
    rw [hspec.versions, versions_update _ hi.exec.size_le it obj hlt]
  have hlatest := hspec.latest
  have hlt' := hi.exec.latest_lt
  refine hi.execute hspec.size hspec.capacity hspec.curStart hv (by omega) (by omega)
    (fun i hi' => ?_) (fun i hi' hw => ?_) (fun p hp => ?_)
  · simp only [Slot, hv i hi', VHandle.objects, hspec.versions, hspec.capacity,
      objects_update]
    split_ifs with heq
    · subst heq
      rw [hit]
      exact .inr ⟨mem_cons_self, hobj⟩
    · rcases hi.slots i hi' with ⟨hge, hnw, hp⟩ | ⟨hw, hp⟩
      · refine .inl ⟨hge, ?_, hp⟩
        simp only [map_cons, mem_cons, not_or]
        exact ⟨fun hc => heq (hi.exec.eq_of_versions_eq hi' hlt (hc.trans hit.symm)), hnw⟩
      · exact .inr ⟨mem_cons_of_mem _ hw, hp⟩
  · rcases mem_cons.1 hw with heq | hw
    · have := hi.exec.eq_of_versions_eq hi' hlt (heq.trans hit.symm)
      omega
    · have := hi.written_le i hi' hw
      omega
  · rcases mem_cons.1 hp with rfl | hp
    · exact hmem
    · exact hi.written_mem p hp

theorem look : ({ h with executing := true } : History).Inv nrOld :=
  hi.execute rfl rfl rfl (fun _ _ => rfl) le_rfl hi.exec.latest_lt hi.slots hi.written_le
    hi.written_mem

theorem wait (pos : ℕ) {core : ℕ} (hcore : core < 32) :
    ({ h with row := waitForData h.row pos core, executing := true } : History).Inv nrOld := by
  rw [waitForData]
  split_ifs with hpend
  · refine hi.execute rfl rfl rfl (fun i hi' => versions_update _ hi.exec.size_le pos _ hi')
      le_rfl hi.exec.latest_lt (fun i hi' => ?_) hi.written_le hi.written_mem
    simp only [Slot, VHandle.objects, objects_update,
      versions_update _ hi.exec.size_le pos _ hi']
    split_ifs with heq
    · -- the slot was pending, and still is
      subst heq
      rcases hi.slots i hi' with ⟨hge, hnw, -⟩ | ⟨-, hp⟩
      · refine .inl ⟨hge, hnw, ?_⟩
        rw [isPendingVal_clearBit _ hcore]
        exact hpend
      · rw [hpend] at hp
        cases hp
    · exact hi.slots i hi'
  · exact hi.look

/-- A version of the epoch is in the row, among the new ones. -/
theorem exists_slot {sid : ℕ} (hmem : sid ∈ h.appended) (hepoch : epochOf sid = h.epoch) :
    ∃ it, nrOld ≤ it ∧ it < h.row.size ∧ h.row.versions it = sid := by
  rcases hi.kept sid hmem with ⟨i, hlt, heq⟩ | ⟨i, hlt, hsid⟩
  · refine ⟨i, not_lt.1 fun hc => ?_, hlt, heq⟩
    have := hi.old_epoch i hc
    rw [heq, hepoch] at this
    exact lt_irrefl _ this
  · have := (epochOf_mono hsid.le).trans_lt (hi.old_epoch i hlt)
    rw [hepoch] at this
    exact absurd this (lt_irrefl _)

/-- **One step keeps the invariant.** -/
theorem step {ev : Event} {h' : History} (hclear : h.PastCellClear ev)
    (hstep : h.step ev = some h') : ∃ nrOld', h'.Inv nrOld' := by
  have hcap := hi.exec.size_le
  have hlatest := hi.exec.latest_lt
  have hsorted := hi.pairwise_versionList.imp fun h => h.le
  cases ev with
  | beginEpoch e =>
    simp only [History.step, ite_none_right_eq_some, some_inj] at hstep
    obtain ⟨⟨he, hall⟩, rfl⟩ := hstep
    exact ⟨_, hi.beginEpoch he hall⟩
  | append svc sid weight =>
    simp only [History.step, ite_none_right_eq_some, toOption_map_eq_some] at hstep
    obtain ⟨happ, row', hrow, rfl⟩ := hstep
    obtain ⟨k, hspec⟩ := appendNewVersionNoLock_spec hcap hlatest hsorted hrow
    exact ⟨_, hi.append happ hspec⟩
  | batch svc sids =>
    simp only [History.step, ite_none_right_eq_some, toOption_map_eq_some] at hstep
    obtain ⟨happ, row', hrow, rfl⟩ := hstep
    obtain ⟨k, hspec⟩ := appendBatch_spec hcap hlatest hsorted hrow
    exact ⟨_, hi.append happ hspec⟩
  | collect limit =>
    simp only [History.step, ite_none_right_eq_some, toOption_map_eq_some] at hstep
    obtain ⟨⟨hexec, -⟩, c, hc, rfl⟩ := hstep
    exact ⟨_, hi.collect hexec (collect_spec hcap hc).1⟩
  | write svc sid obj =>
    simp only [History.step, ite_none_right_eq_some, toOption_map_eq_some] at hstep
    obtain ⟨hw, row', hrow, rfl⟩ := hstep
    obtain ⟨it, hge, hlt, rfl⟩ := hi.exists_slot hw.1 hw.2.1
    have hit := hi.exec.writeSlot_spec hge hlt hclear
    exact ⟨_, hi.write hw hge hlt rfl (writeWithVersion_spec hit hrow)⟩
  | read sid core =>
    simp only [History.step, ite_none_right_eq_some] at hstep
    obtain ⟨⟨-, hcore⟩, hstep⟩ := hstep
    split at hstep
    · cases hstep
      exact ⟨_, hi.wait _ hcore⟩
    · cases hstep
      exact ⟨_, hi.look⟩
    · cases hstep

end Inv

/-! ## Reads -/

/-- `v` is the largest version ever appended before `sid`. -/
def IsLatestBefore (h : History) (sid v : ℕ) : Prop :=
  v ∈ h.appended ∧ v < sid ∧ ∀ w ∈ h.appended, w < sid → w ≤ v

/-- A read of `sid` selects the slot of the largest version before it. Either the slot is pending,
and its version is of the epoch and not yet written, or the read returns what was written. -/
def ReadsSerially (h : History) (sid : ℕ) : Prop :=
  ∃ pos, withVersion h.row sid = .ok (some pos) ∧ h.IsLatestBefore sid (h.row.versions pos) ∧
    ((readWithVersion h.row sid = .ok (.pending pos) ∧
        epochOf (h.row.versions pos) = h.epoch ∧
        h.row.versions pos ∉ h.written.map Prod.fst) ∨
      ∃ obj, readWithVersion h.row sid = .ok (.object pos obj) ∧
        (h.row.versions pos, obj) ∈ h.written)

/-- The slot that `ReadSlot` describes belongs to the largest version before the reader, also when
versions have been dropped. -/
theorem Inv.isLatestBefore {h : History} {nrOld sid pos : ℕ} (hi : h.Inv nrOld)
    (hold : ∀ i < nrOld, h.row.versions i < sid) (hpos : ReadSlot h.row sid pos) :
    h.IsLatestBefore sid (h.row.versions pos) := by
  refine ⟨hi.mem_appended pos hpos.lt_size, hpos.version_lt, fun w hw hlt => ?_⟩
  rcases hi.kept w hw with ⟨i, hlt', rfl⟩ | ⟨i, hi', hwi⟩
  · refine hi.exec.sorted_le (not_lt.1 fun hc => ?_) hpos.lt_size
    exact absurd (hpos.last i hc hlt') (not_le.2 hlt)
  · refine hwi.le.trans (hi.exec.sorted_le (not_lt.1 fun hc => ?_) hpos.lt_size)
    have := hi.exec.nrOld_le
    exact absurd (hpos.last i hc (by omega)) (not_le.2 (hold i hi'))

theorem Inv.readsSerially {h : History} {nrOld sid : ℕ} (hi : h.Inv nrOld)
    (hread : h.Readable sid) : h.ReadsSerially sid := by
  obtain ⟨hepoch, v, hv, hlt⟩ := hread
  have hold : ∀ i < nrOld, h.row.versions i < sid := fun i hi' =>
    lt_of_epochOf_lt ((hi.old_epoch i hi').trans_eq hepoch.symm)
  have hlow : ∃ i < h.row.size, h.row.versions i < sid := by
    have := hi.exec.nrOld_le
    rcases hi.kept v hv with ⟨i, hi', rfl⟩ | ⟨i, hi', -⟩
    · exact ⟨i, hi', hlt⟩
    · exact ⟨i, by omega, hold i hi'⟩
  obtain ⟨pos, hpos, hslot⟩ := hi.exec.withVersion_spec hlow hold
  have hread : readWithVersion h.row sid =
      if isPendingVal (h.row.objects pos) then .ok (.pending pos)
      else .ok (.object pos (h.row.objects pos)) := by
    simp only [readWithVersion, hpos]
    rfl
  refine ⟨pos, hpos, hi.isLatestBefore hold hslot, ?_⟩
  rcases hi.slots pos hslot.lt_size with ⟨hge, hnw, hp⟩ | ⟨hw, hp⟩
  · refine .inl ⟨?_, hi.new_epoch pos hge hslot.lt_size, hnw⟩
    rw [hread, if_pos hp]
  · refine .inr ⟨h.row.objects pos, ?_, hw⟩
    rw [hread, if_neg (by simp [hp])]

/-- **Serial equivalence of a versioned row.** In every run in which no write meets its own serial
id in the cell past the versions, every read of the current epoch is serial. -/
theorem read_serial (c : Creation) (evs : List Event) (h : History)
    (hclear : Along step PastCellClear (start c) evs) (hrun : run step (start c) evs = some h)
    (sid : ℕ) (hread : h.Readable sid) : h.ReadsSerially sid := by
  obtain ⟨nrOld, hi⟩ := run_invariant (I := fun h => ∃ nrOld, h.Inv nrOld)
    (fun s e t ⟨nrOld, hi⟩ hok hstep => hi.step hok hstep) evs _ h ⟨0, inv_start c⟩ hclear hrun
  exact hi.readsSerially hread

/-- A row in cleared memory. -/
def plainRow : Creation := ⟨0x8000, 0, fun _ => 0, 4, 0xFF⟩

/-- A row of the hash index. -/
def indexRow : Creation := { plainRow with capacity := 1 }

/-- A serial id of node 1. -/
def sidOf (epochNr sequence : ℕ) : ℕ := generateSerialId 1 epochNr sequence

/-- The loader's version, then two epochs with a collection; the writes come out of order. -/
def twoEpochs : List Event :=
  [.append clearedMemory 0 0, .write clearedMemory 0 0x1000,
    .beginEpoch 1, .append clearedMemory (sidOf 1 2) 0, .append clearedMemory (sidOf 1 1) 0,
    .write clearedMemory (sidOf 1 2) 0x2000, .read (sidOf 1 2) 3,
    .write clearedMemory (sidOf 1 1) 0x3000,
    .beginEpoch 2, .append clearedMemory (sidOf 2 1) 0, .collect 1, .read (sidOf 2 1) 5]

theorem read_serial_twoEpochs : ∃ h, run step (start indexRow) twoEpochs = some h ∧
    h.ReadsSerially (sidOf 2 2) := by
  obtain ⟨h, hrun, hread⟩ : ∃ h, run step (start indexRow) twoEpochs = some h ∧
      h.Readable (sidOf 2 2) := by decide +kernel
  exact ⟨h, hrun, read_serial _ twoEpochs h (by decide +kernel) hrun _ hread⟩

/-- Epoch 2 appends two versions and collects two of the three versions of epoch 1. The cell past
the versions then still holds the first version of epoch 2. -/
def staleCell : List Event :=
  [.beginEpoch 1, .append clearedMemory (sidOf 1 1) 0, .append clearedMemory (sidOf 1 2) 0,
    .append clearedMemory (sidOf 1 3) 0, .write clearedMemory (sidOf 1 1) 0,
    .write clearedMemory (sidOf 1 2) 0, .write clearedMemory (sidOf 1 3) 0,
    .beginEpoch 2, .append clearedMemory (sidOf 2 1) 0, .append clearedMemory (sidOf 2 2) 0,
    .collect 16384, .write clearedMemory (sidOf 2 2) 0x2000, .write clearedMemory
    (sidOf 2 1) 0x3000]

/-- **The write lands past the versions.** After the last version is written, the write of the
first one finds its serial id in the stale cell; `latest_version` then points past the versions,
and a later reader gets the object of the first version instead of that of the second. -/
theorem read_stale_cell : ∃ h, run step (start plainRow) staleCell = some h ∧
    h.Readable (sidOf 2 3) ∧ ¬ h.ReadsSerially (sidOf 2 3) := by
  obtain ⟨h, hrun, hread, hpos, hmem, hlt⟩ : ∃ h,
      run step (start plainRow) staleCell = some h ∧
      h.Readable (sidOf 2 3) ∧ withVersion h.row (sidOf 2 3) = .ok (some 3) ∧
        sidOf 2 2 ∈ h.appended ∧ h.row.versions 3 < sidOf 2 2 := by decide +kernel
  refine ⟨h, hrun, hread, ?_⟩
  rintro ⟨pos, hpos', ⟨-, -, hlast⟩, -⟩
  obtain rfl : pos = 3 := by simpa [hpos] using hpos'.symm
  exact absurd (hlast _ hmem (by decide)) (not_le.2 hlt)

end History

end Felis.Row
