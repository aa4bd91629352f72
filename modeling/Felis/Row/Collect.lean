import Mathlib.Data.List.TakeWhile
import Felis.Row.History

/-!
# What a collection drops, and what readers see of it

`GC::Collect` may drop a version when the next one is older than the epoch. On sorted versions that
is all but the last of the leading versions of earlier epochs, up to the limit (`collectCount_eq`).

* `withVersion_drop`: a search in the shorter row finds the same slot, `k` further down;
* `collect_invisible`: what one call returns, deletes and keeps, and that no reader of the epoch or
  of a later one sees a difference; repeated, it leaves at most one version of earlier epochs.

The search of a reader may start at `cur_start`, which is unsigned and is lowered by `k` as well. It
does not wrap when the row has a version of the epoch, for `cur_start` was then moved behind the
versions of earlier epochs; in other rows no search starts there.
-/

namespace Felis.Row

open Cells List Runs

/-! ## The leading versions of earlier epochs -/

/-- The number of leading versions of epochs before `epochNr`. -/
def VHandle.nrBefore (row : VHandle) (epochNr : ℕ) : ℕ :=
  (row.versionList.takeWhile fun v => decide (epochOf v < epochNr)).length

/-- Versions in non-decreasing order, as `sorted` of a row. -/
def VHandle.Sorted (row : VHandle) : Prop :=
  ∀ i j, i ≤ j → j < row.size → row.versions i ≤ row.versions j

section

variable {row row' : VHandle} {epochNr limit k : ℕ}

theorem nrBefore_le (row : VHandle) (epochNr : ℕ) : row.nrBefore epochNr ≤ row.size := by
  have := ( takeWhile_prefix (l := row.versionList) fun v => decide (epochOf v < epochNr)).length_le
  simpa [VHandle.nrBefore, VHandle.versionList] using this

theorem epoch_of_lt_nrBefore {i : ℕ} (hi : i < row.nrBefore epochNr) :
    epochOf (row.versions i) < epochNr := by
  have hhead := takeWhile_prefix (l := row.versionList) fun v => decide (epochOf v < epochNr)
  have hmem := getElem_mem hi
  rw [hhead.getElem hi] at hmem
  simpa [VHandle.versionList] using mem_takeWhile_imp hmem

theorem not_epoch_nrBefore (h : row.nrBefore epochNr < row.size) :
    ¬ epochOf (row.versions (row.nrBefore epochNr)) < epochNr := by
  have hlist := takeWhile_append_dropWhile (p := fun v => decide (epochOf v < epochNr))
    (l := row.versionList)
  cases hdrop : row.versionList.dropWhile fun v => decide (epochOf v < epochNr) with
  | nil =>
    rw [hdrop, append_nil] at hlist
    rw [VHandle.nrBefore, hlist, VHandle.versionList, length_seg] at h
    exact absurd h (lt_irrefl _)
  | cons v rest =>
    have hv : row.versionList[row.nrBefore epochNr]? = some v := by
      rw [← hlist, hdrop, VHandle.nrBefore, List.getElem?_append_right le_rfl, Nat.sub_self]
      rfl
    rw [VHandle.versionList, getElem?_seg _ _ _ h, Nat.zero_add, Option.some_inj] at hv
    have hnot := dropWhile_get_zero_not (fun v => decide (epochOf v < epochNr)) row.versionList
      (by rw [hdrop]; exact Nat.succ_pos _)
    rw [hv]
    simpa [hdrop] using hnot

theorem lt_nrBefore_iff (hs : row.Sorted) {i : ℕ} :
    i < row.nrBefore epochNr ↔ i < row.size ∧ epochOf (row.versions i) < epochNr := by
  have hle := nrBefore_le row epochNr
  constructor
  · exact fun hi => ⟨by omega, epoch_of_lt_nrBefore hi⟩
  · rintro ⟨hi, hepoch⟩
    by_contra hc
    have hmono := epochOf_mono (hs (row.nrBefore epochNr) i (by omega) hi)
    exact not_epoch_nrBefore (by omega) (hmono.trans_lt hepoch)

/-- **How many versions `Collect` drops.** -/
theorem collectCount_eq (hs : row.Sorted) (hsize : 0 < row.size) :
    collectCount row epochNr limit = min limit (row.nrBefore epochNr - 1) := by
  obtain ⟨hlimit, hdrop⟩ := collectCount_spec row epochNr limit
  generalize hk : collectCount row epochNr limit = k at hlimit hdrop ⊢
  have hbefore : k ≤ row.nrBefore epochNr - 1 := by
    rcases Nat.eq_zero_or_pos k with rfl | hpos
    · exact Nat.zero_le _
    · have hlast := hdrop (k - 1) (by omega)
      rw [Droppable, show k - 1 + 1 = k by omega] at hlast
      have := (lt_nrBefore_iff hs).2 hlast
      omega
  have hle := nrBefore_le row epochNr
  -- the loop stops at the limit, at the last version, or before a version of the epoch
  have hstop := not_scanWhile _ row.size 0 (by rw [collectCount] at hk; rw [hk]; omega)
  rw [← collectCount, hk] at hstop
  simp only [Bool.and_eq_false_iff, decide_eq_false_iff_not] at hstop
  rcases hstop with (hend | hlim) | hepoch
  · omega
  · omega
  · have : ¬ k + 1 < row.nrBefore epochNr := fun hc => hepoch (epoch_of_lt_nrBefore hc)
    omega

/-! ## The searches of readers -/

/-- A search that starts behind the first version of the shorter row. -/
theorem searchFrom_drop (hd : Dropped row row' k) {sid lo hi : ℕ} (hlo : lo ≠ 0)
    (hhi : hi ≤ row'.size) :
    searchFrom row sid (k + lo) (k + hi) = (searchFrom row' sid lo hi).map (k + ·) := by
  have hshift := lowerBound_shift sid (fun i _ hlt => hd.versions i (by omega) :
    ∀ i, lo ≤ i → i < hi → row'.versions i = row.versions (k + i))
  have hle := le_lowerBound row'.versions lo hi sid
  rw [searchFrom, searchFrom, hshift, if_neg (by omega), if_neg (by omega), Option.map_some,
    Nat.add_sub_assoc (by omega)]

/-- The `k` oldest of `n` versions before the reader are dropped: the search finds the same slot. -/
theorem withVersion_drop (hd : Dropped row row' k) {sid n : ℕ} (hk : k < n) (hn : n ≤ row.size)
    (hold : ∀ i < n, row.versions i < sid) (hwritten : (n : ℤ) - 1 ≤ row.latestVersion)
    (hlatest : row.latestVersion < row.size) (hcur : n < row.size → n ≤ row.curStart)
    (hcur' : k ≤ row.curStart → row'.curStart + k = row.curStart) :
    withVersion row sid = (withVersion row' sid).map (Option.map (k + ·)) := by
  have hsize := hd.size
  obtain ⟨latest, hl'⟩ : ∃ latest : ℕ, row'.latestVersion = latest :=
    ⟨_, (Int.toNat_of_nonneg (by rw [hd.latest]; omega)).symm⟩
  have hl : row.latestVersion = (k + latest : ℕ) := by
    have := hd.latest
    omega
  have hv : ∀ i < row'.size, row.versions (k + i) = row'.versions i := fun i hi =>
    (hd.versions i hi).symm
  rw [withVersion, withVersion]
  simp only [hl, hl', Int.natCast_nonneg, true_and, if_true, Int.toNat_natCast]
  rw [hv latest (by omega)]
  by_cases hsid : sid > row'.versions latest
  · rw [if_pos hsid, if_pos hsid]
    by_cases hend : latest + 1 ≥ row'.size
    · rw [if_pos (.inl (by omega)), if_pos (.inl hend)]
      rfl
    · rw [show k + latest + 1 = k + (latest + 1) by omega, hv (latest + 1) (by omega)]
      by_cases hnext : sid ≤ row'.versions (latest + 1)
      · rw [if_pos (.inr hnext), if_pos (.inr hnext)]
        rfl
      · rw [if_neg (not_or.2 ⟨by omega, hnext⟩), if_neg (not_or.2 ⟨hend, hnext⟩),
          show row.size = k + row'.size by omega, searchFrom_drop hd (by omega) le_rfl]
        rfl
  · -- the latest version is of the epoch of the reader, so it is behind the `n` versions
    have hnew : n ≤ k + latest := not_lt.1 fun hc => hsid (hv latest (by omega) ▸ hold _ hc)
    have hstart := hcur (by omega)
    have hstart' := hcur' (by omega)
    rw [if_neg hsid, if_neg hsid, if_neg (show ¬ k + latest = 0 by omega),
      if_neg (show ¬ latest = 0 by omega), show k + latest - 1 = k + (latest - 1) by omega,
      hv (latest - 1) (by omega)]
    by_cases hbefore : row'.versions (latest - 1) < sid
    · rw [if_pos hbefore, if_pos hbefore]
      rfl
    · rw [if_neg hbefore, if_neg hbefore, show row.curStart = k + row'.curStart by omega,
        searchFrom_drop hd (by omega) (by omega)]
      rfl

/-- The result of a read, with the slot counted from `k` slots further down. -/
def ReadResult.shift (k : ℕ) : ReadResult → ReadResult
  | .null => .null
  | .pending pos => .pending (k + pos)
  | .object pos obj => .object (k + pos) obj

theorem searchFrom_lt {sid lo hi pos : ℕ} (h : searchFrom row sid lo hi = some pos) :
    pos < max lo hi := by
  have hle := lowerBound_le row.versions lo hi sid
  rw [searchFrom] at h
  split_ifs at h with h0
  cases h
  omega

/-- A search that may start at `cur_start` stays in the row when `cur_start` is not further than the
slot after the latest version. -/
theorem withVersion_lt_size {sid pos : ℕ} (hlatest : row.latestVersion < row.size)
    (hcur : sid ≤ row.versions row.latestVersion.toNat ∨ row.latestVersion < 0 →
      (row.curStart : ℤ) ≤ row.latestVersion + 1)
    (h : withVersion row sid = .ok (some pos)) : pos < row.size := by
  rw [withVersion] at h
  simp only at h
  split_ifs at h with h1 h2 h3 h4 h5
  · cases h
    omega
  · have := searchFrom_lt (Except.ok.inj h)
    omega
  · cases h
    omega
  · have hsid : ¬ sid > row.versions row.latestVersion.toNat := fun hc => h1 ⟨h3, hc⟩
    have := hcur (.inl (not_lt.1 hsid))
    have := searchFrom_lt (Except.ok.inj h)
    omega
  · have := hcur (.inr (not_le.1 h3))
    have := searchFrom_lt (Except.ok.inj h)
    omega

/-- A read of the shorter row gives what a read of the row gives. -/
theorem readWithVersion_drop (hd : Dropped row row' k) {sid n : ℕ} (hk : k < n) (hn : n ≤ row.size)
    (hold : ∀ i < n, row.versions i < sid) (hwritten : (n : ℤ) - 1 ≤ row.latestVersion)
    (hlatest : row.latestVersion < row.size)
    (hcur : n < row.size → n ≤ row.curStart ∧ (row.curStart : ℤ) ≤ row.latestVersion + 1)
    (hcur' : k ≤ row.curStart → row'.curStart + k = row.curStart) :
    readWithVersion row sid = (readWithVersion row' sid).map (ReadResult.shift k) := by
  have hsize := hd.size
  have hl := hd.latest
  have hsearch := withVersion_drop hd hk hn hold hwritten hlatest (fun h => (hcur h).1) hcur'
  rw [readWithVersion, readWithVersion, hsearch]
  cases hfound : withVersion row' sid with
  | error f => rfl
  | ok found =>
    cases found with
    | none => rfl
    | some pos =>
      have hpos : pos < row'.size := by
        refine withVersion_lt_size (by omega) (fun h => ?_) hfound
        -- the latest version is of the epoch of the reader
        have hnew : n ≤ row.latestVersion.toNat := by
          rcases h with hsid | hneg
          · rw [hd.versions _ (by omega),
              show k + row'.latestVersion.toNat = row.latestVersion.toNat by omega] at hsid
            exact not_lt.1 fun hc => absurd (hold _ hc) (not_lt.2 hsid)
          · omega
        have := hcur (by omega)
        have := hcur' (by omega)
        omega
      have hobj := hd.objects pos hpos
      change (if isPendingVal (row.objects (k + pos)) then _ else _) =
        Except.map _ (if isPendingVal (row'.objects pos) then _ else _)
      rw [hobj]
      split_ifs
      · rfl
      · rfl

/-! ## One collection -/

/-- A row that can be collected for the epoch: sorted versions, at least one, whose objects from
earlier epochs are written and can be looked at without an abort, and no more than an `int` can
count. -/
structure Collectable (row : VHandle) (epochNr : ℕ) : Prop where
  size_pos : 0 < row.size
  size_le : row.size ≤ row.capacity
  size_lt : row.size < 2 ^ 31
  sorted : row.Sorted
  freeable : ∀ i < row.nrBefore epochNr, Freeable row (row.objects i)
  written : ∀ i < row.nrBefore epochNr, isPendingVal (row.objects i) = false

/-- All versions of epochs before `epochNr` are written, and when there are others, `cur_start` is
behind the former and not further than the slot after the latest version. -/
structure Written (row : VHandle) (epochNr : ℕ) : Prop where
  latest_ge : (row.nrBefore epochNr : ℤ) - 1 ≤ row.latestVersion
  latest_lt : row.latestVersion < row.size
  curStart : row.nrBefore epochNr < row.size →
    row.nrBefore epochNr ≤ row.curStart ∧ (row.curStart : ℤ) ≤ row.latestVersion + 1

/-- What one call of `Collect` does: it drops the oldest versions, all of earlier epochs but the
last of these, up to the limit; it deletes their objects, keeps the other entries, and no reader of
the epoch or a later one sees a difference. -/
structure CollectsOldest (row : VHandle) (epochNr limit : ℕ) (c : Collected) : Prop where
  nr : c.nr = min limit (row.nrBefore epochNr - 1)
  freed : c.freed = (row.objectList.take c.nr).filter row.isGarbage
  entries : c.row.entries = row.entries.drop c.nr
  size : c.row.size + c.nr = row.size
  latest : c.row.latestVersion = row.latestVersion - c.nr
  curStart : c.row.curStart + c.nr ≡ row.curStart [MOD 2 ^ 32]
  reads : ∀ sid, epochNr ≤ epochOf sid →
    (readWithVersion c.row sid).map (ReadResult.shift c.nr) = readWithVersion row sid

theorem Collectable.collect (h : Collectable row epochNr) (limit : ℕ) :
    ∃ c, collect row epochNr limit = .ok c ∧ c.nr = min limit (row.nrBefore epochNr - 1) ∧
      (c.nr = 0 → c.row = row) ∧ c.freed = (row.objectList.take c.nr).filter row.isGarbage ∧
      c.row.curStart + c.nr ≡ row.curStart [MOD 2 ^ 32] := by
  have hcount : collectCount row epochNr limit = min limit (row.nrBefore epochNr - 1) :=
    collectCount_eq h.sorted h.size_pos
  have hle := nrBefore_le row epochNr
  have hlt := h.size_lt
  refine ⟨_, collect_eq fun i hi => ⟨h.freeable i (by omega), h.written i (by omega)⟩, ?_⟩
  rw [hcount]
  generalize hk : min limit (row.nrBefore epochNr - 1) = k
  split_ifs with h0
  · exact ⟨h0.symm, fun _ => rfl, by simp, rfl⟩
  · refine ⟨rfl, fun hc => absurd hc h0, ?_, ?_⟩
    · simp only [VHandle.objectList, take_seg _ _ (show k ≤ row.size by omega)]
    · simp only [shiftDown]
      split_ifs with hc
      · rw [Nat.sub_add_cancel hc]
      · rw [Nat.sub_add_cancel (by omega)]
        exact Nat.add_modEq_right

theorem Dropped.entries (hd : Dropped row row' k) : row'.entries = row.entries.drop k := by
  have hsize := hd.size
  rw [VHandle.entries, VHandle.entries, drop_seg _ _ (by omega),
    show row.size - k = row'.size by omega]
  refine seg_congr fun i hi => ?_
  rw [Nat.zero_add, Nat.zero_add, hd.versions i hi, hd.objects i hi]

theorem map_shift_zero (r : Except Fault ReadResult) : r.map (ReadResult.shift 0) = r := by
  cases r with
  | error f => rfl
  | ok r => cases r <;> simp [Except.map, ReadResult.shift]

theorem collectsOldest (h : Collectable row epochNr) (hw : Written row epochNr) (limit : ℕ) :
    ∃ c, collect row epochNr limit = .ok c ∧ CollectsOldest row epochNr limit c := by
  obtain ⟨c, hc, hnr, hsame, hfreed, hcur⟩ := h.collect limit
  obtain ⟨hspec, -⟩ := collect_spec h.size_le hc
  have hd := hspec.dropped
  refine ⟨c, hc, hnr, hfreed, hd.entries, hd.size, hd.latest, hcur, fun sid hsid => ?_⟩
  by_cases h0 : c.nr = 0
  · rw [h0, hsame h0, map_shift_zero]
  · symm
    exact readWithVersion_drop hd (by omega) (nrBefore_le row epochNr)
      (fun i hi => lt_of_epochOf_lt ((epoch_of_lt_nrBefore hi).trans_le hsid)) hw.latest_ge
      hw.latest_lt hw.curStart hspec.curStart

/-! ## Repeated collection -/

/-- `Collect` repeated until it returns less than the limit, at most `fuel` times. -/
def collectUntil (epochNr limit : ℕ) : ℕ → VHandle → Except Fault (Option VHandle)
  | 0, _ => .ok none
  | fuel + 1, row => do
    let c ← collect row epochNr limit
    if c.nr < limit then return some c.row else collectUntil epochNr limit fuel c.row

/-- A row that was collected can be collected again. -/
theorem Collectable.drop (h : Collectable row epochNr) (hd : Dropped row row' k)
    (hk : k ≤ row.nrBefore epochNr - 1) :
    Collectable row' epochNr ∧ row'.nrBefore epochNr = row.nrBefore epochNr - k := by
  have hsize := hd.size
  have hpos := h.size_pos
  have hle := nrBefore_le row epochNr
  have hs : row'.Sorted := fun i j hij hj => by
    rw [hd.versions i (by omega), hd.versions j hj]
    exact h.sorted (k + i) (k + j) (by omega) (by omega)
  have hnr : row'.nrBefore epochNr = row.nrBefore epochNr - k := by
    refine eq_of_forall_lt_iff fun i => ?_
    rw [lt_nrBefore_iff hs, Nat.lt_sub_iff_add_lt', lt_nrBefore_iff h.sorted]
    constructor
    · rintro ⟨hi, hepoch⟩
      exact ⟨by omega, hd.versions i hi ▸ hepoch⟩
    · rintro ⟨hi, hepoch⟩
      exact ⟨by omega, (hd.versions i (by omega)).symm ▸ hepoch⟩
  refine ⟨⟨by omega, ?_, ?_, hs, fun i hi => ?_, fun i hi => ?_⟩, hnr⟩
  · rw [hd.capacity]
    exact le_trans (by omega) h.size_le
  · exact lt_of_le_of_lt (by omega) h.size_lt
  · have hi' := nrBefore_le row' epochNr
    rw [hd.objects i (by omega)]
    exact (h.freeable (k + i) (by omega)).congr hd.addr hd.inlineUsed
  · have hi' := nrBefore_le row' epochNr
    rw [hd.objects i (by omega)]
    exact h.written (k + i) (by omega)

theorem collectUntil_spec (hlimit : 1 ≤ limit) : ∀ fuel {row : VHandle}, Collectable row epochNr →
    row.size ≤ fuel → ∃ last, collectUntil epochNr limit fuel row = .ok (some last) ∧
      last.nrBefore epochNr ≤ 1 := by
  intro fuel
  induction fuel with
  | zero =>
    intro row h hfuel
    have := h.size_pos
    omega
  | succ fuel ih =>
    intro row h hfuel
    obtain ⟨c, hc, hnr, -⟩ := h.collect limit
    have hd := (collect_spec h.size_le hc).1.dropped
    have hsize := hd.size
    obtain ⟨h', hnr'⟩ := h.drop hd (by omega)
    rw [collectUntil, hc]
    by_cases hlt : c.nr < limit
    · exact ⟨c.row, if_pos hlt, by omega⟩
    · obtain ⟨last, hlast, hone⟩ := ih h' (by omega)
      exact ⟨last, (if_neg hlt).trans hlast, hone⟩

/-- **Garbage collection is invisible to readers and frees exactly the garbage**; repeated until it
drops less than the limit, it leaves at most one version of earlier epochs. -/
theorem collect_invisible (row : VHandle) (epochNr limit : ℕ) (hlimit : 1 ≤ limit)
    (h : Collectable row epochNr) (hw : Written row epochNr) :
    (∃ c, collect row epochNr limit = .ok c ∧ CollectsOldest row epochNr limit c) ∧
      ∀ fuel, row.size ≤ fuel → ∃ last, collectUntil epochNr limit fuel row = .ok (some last) ∧
        last.nrBefore epochNr ≤ 1 :=
  ⟨collectsOldest h hw limit, fun fuel => collectUntil_spec hlimit fuel h⟩

/-- Three versions of epoch 1, the second one without an object, and one of epoch 2 that is not
written. -/
def fourVersions : VHandle :=
  { newRow 0x8000 0 fun i => [History.sidOf 1 1, History.sidOf 1 2, History.sidOf 1 3,
      History.sidOf 2 1, 0x10000, 0, 0x20000, kPendingValue].getD i 0 with
    size := 4
    curStart := 3
    latestVersion := 2 }

theorem collectable_fourVersions : Collectable fourVersions 2 where
  size_pos := by decide
  size_le := by decide
  size_lt := by decide
  sorted := by
    have hsorted : ∀ j < 4, ∀ i ≤ j, fourVersions.versions i ≤ fourVersions.versions j := by decide
    exact fun i j hij hj => hsorted j hj i hij
  freeable i hi := by
    have hbefore : fourVersions.nrBefore 2 = 3 := by decide
    rw [hbefore] at hi
    interval_cases i
    · exact ⟨true, rfl⟩
    · exact ⟨false, rfl⟩
    · exact ⟨true, rfl⟩
  written := by decide

theorem collect_invisible_fourVersions :
    (∃ c, collect fourVersions 2 1 = .ok c ∧ CollectsOldest fourVersions 2 1 c) ∧
      ∀ fuel, fourVersions.size ≤ fuel → ∃ last,
        collectUntil 2 1 fuel fourVersions = .ok (some last) ∧ last.nrBefore 2 ≤ 1 :=
  collect_invisible fourVersions 2 1 le_rfl collectable_fourVersions
    ⟨by decide, by decide, fun _ => by decide⟩

end

/-! ## The rows of runs -/

namespace History

variable {h : History} {nrOld : ℕ}

theorem Inv.sorted_row (hi : h.Inv nrOld) : h.row.Sorted := fun _ _ => hi.exec.sorted_le

theorem Inv.nrBefore_eq (hi : h.Inv nrOld) : h.row.nrBefore h.epoch = nrOld := by
  have hle := hi.exec.nrOld_le
  refine eq_of_forall_lt_iff fun i => ?_
  rw [lt_nrBefore_iff hi.sorted_row]
  constructor
  · rintro ⟨hlt, hepoch⟩
    exact not_le.1 fun hge => absurd (hi.new_epoch i hge hlt) hepoch.ne
  · exact fun hlt => ⟨by omega, hi.old_epoch i hlt⟩

/-- In every state of a run the collector finds what it relies on. -/
theorem Inv.written (hi : h.Inv nrOld) : Written h.row h.epoch := by
  refine ⟨?_, hi.exec.latest_lt, fun hlt => ?_⟩
  · rw [hi.nrBefore_eq]
    exact hi.exec.latest_ge
  · have hge := hi.exec.latest_ge
    rw [hi.nrBefore_eq] at hlt ⊢
    rw [hi.exec.curStart hlt]
    omega

/-- The state of a run in which no write meets its own serial id in the cell past the versions. -/
def Reachable (h : History) : Prop :=
  ∃ c evs, Along step PastCellClear (start c) evs ∧ run step (start c) evs = some h

theorem Reachable.inv (hr : h.Reachable) : ∃ nrOld, h.Inv nrOld := by
  obtain ⟨c, evs, hclear, hrun⟩ := hr
  exact run_invariant (I := fun h => ∃ nrOld, h.Inv nrOld)
    (fun _ _ _ ⟨_, hi⟩ hok hstep => hi.step hok hstep) evs _ h
    ⟨0, inv_start c⟩ hclear hrun

/-- **A collection is invisible at any time.** In every state of a run, also while versions of the
epoch are pending, `Collect` drops only old versions and changes no read from the epoch on. -/
theorem collect_in_run (hr : h.Reachable) (hpos : 0 < h.row.size) (hlt : h.row.size < 2 ^ 31)
    (hfree : ∀ p ∈ h.written, Freeable h.row p.2) (limit : ℕ) :
    ∃ c, collect h.row h.epoch limit = .ok c ∧ CollectsOldest h.row h.epoch limit c := by
  obtain ⟨nrOld, hi⟩ := hr.inv
  refine collectsOldest ⟨hpos, hi.exec.size_le, hlt, hi.sorted_row, fun i hk => ?_, fun i hk => ?_⟩
    hi.written limit
  · exact hfree _ (hi.written_of_old (hi.nrBefore_eq ▸ hk)).1
  · exact (hi.written_of_old (hi.nrBefore_eq ▸ hk)).2

/-- **No version is lost.** In every state of a run, a version that was ever appended is in the row,
pending as long as it is not written and then with what was written for it, or the row has a newer
one that was written in an earlier epoch. -/
theorem version_kept (hr : h.Reachable) {v : ℕ} (hv : v ∈ h.appended) :
    (∃ i < h.row.size, h.row.versions i = v ∧
      (v ∉ h.written.map Prod.fst ∧ isPendingVal (h.row.objects i) = true ∨
        (v, h.row.objects i) ∈ h.written)) ∨
    ∃ i < h.row.size, v < h.row.versions i ∧ epochOf (h.row.versions i) < h.epoch ∧
      (h.row.versions i, h.row.objects i) ∈ h.written := by
  obtain ⟨nrOld, hi⟩ := hr.inv
  rcases hi.kept v hv with ⟨i, hlt, rfl⟩ | ⟨i, hlt, hnewer⟩
  · exact .inl ⟨i, hlt, rfl, (hi.slots i hlt).imp And.right And.left⟩
  · exact .inr ⟨i, hlt.trans_le hi.exec.nrOld_le, hnewer, hi.old_epoch i hlt,
      (hi.written_of_old hlt).1⟩

/-- The version of the loader has been collected, and that of the second epoch is pending. -/
def secondEpoch : History :=
  (run step (start indexRow) twoEpochs).get (by decide +kernel)

theorem reachable_secondEpoch : secondEpoch.Reachable :=
  ⟨_, twoEpochs, by decide +kernel, (Option.some_get _).symm⟩

theorem collect_in_run_secondEpoch : ∃ c, collect secondEpoch.row secondEpoch.epoch 1 = .ok c ∧
    CollectsOldest secondEpoch.row secondEpoch.epoch 1 c := by
  have hfree : ∀ p ∈ secondEpoch.written, ∃ b, isDataGarbage secondEpoch.row p.2 = .ok b := by
    decide +kernel
  exact collect_in_run reachable_secondEpoch (by decide +kernel) (by decide +kernel) hfree 1

theorem version_kept_secondEpoch : ∃ i < secondEpoch.row.size, 0 < secondEpoch.row.versions i ∧
    epochOf (secondEpoch.row.versions i) < secondEpoch.epoch ∧
      (secondEpoch.row.versions i, secondEpoch.row.objects i) ∈ secondEpoch.written :=
  (version_kept reachable_secondEpoch (v := 0) (by decide +kernel)).resolve_left (by decide +kernel)

end History

end Felis.Row
