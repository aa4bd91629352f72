import Mathlib.Data.Nat.Bitwise
import Felis.Row.Absorb
import Felis.Row.Increase

/-!
# What appends, reads and writes do to a row

`appendBatch_spec` puts the booking and the sorted absorb together: the versions are the sorted
merge, the old objects stay with their versions and the new slots are pending. For the execution
phase `Executing row nrOld` collects what the shortcuts of `WithVersion` and `WriteWithVersion`
rely on; from it `withVersion_spec` and `writeSlot_spec` give the slots these functions find.
-/

namespace Felis.Row

open Cells Util Function List Option

theorem epochOf_mono {v w : ℕ} (h : v ≤ w) : epochOf v ≤ epochOf w := by
  simp only [epochOf, Nat.shiftRight_eq_div_pow]
  exact Nat.div_le_div_right h

theorem lt_of_epochOf_lt {v w : ℕ} (h : epochOf v < epochOf w) : v < w :=
  not_le.1 fun hle => absurd (epochOf_mono hle) (not_le.2 h)

/-! ## Appending -/

/-- What an append of `sids` leaves behind. -/
structure AppendSpec (svc : Services) (row row' : VHandle) (sids : List ℕ) (epochNr k : ℕ) : Prop
    extends Resized svc row row' sids.length epochNr k where
  sorted : row'.versionList.Pairwise (· ≤ ·)
  perm : row'.versionList ~ row.versionList.drop k ++ sids
  objects : row'.objectList = row.objectList.drop k ++ List.replicate sids.length kPendingValue

variable {row row' : VHandle} {svc : Services}

theorem Grown.le_size {delta epochNr k : ℕ} (h : Grown svc row row' delta epochNr k) :
    k ≤ row.size := by
  rcases Nat.eq_zero_or_pos k with rfl | hk
  · exact Nat.zero_le _
  · have := (h.droppable (k - 1) (by omega)).1
    omega

/-- **A batch append is a sorted merge** of the versions that `IncreaseSize` kept with the batch. -/
theorem appendBatch_spec {sids : List ℕ} {epochNr : ℕ} (hcap : row.size ≤ row.capacity)
    (hlatest : row.latestVersion < row.size) (hs : row.versionList.Pairwise (· ≤ ·))
    (h : appendBatch svc row sids epochNr = .ok row') :
    ∃ k, AppendSpec svc row row' sids epochNr k := by
  obtain ⟨mid, hmid, h⟩ := bind_ok h
  cases h
  obtain ⟨k, hg⟩ := increaseSize_spec hcap hlatest hmid
  have hk := hg.le_size
  have hsize := hg.size
  have hkept : seg mid.versions 0 (mid.size - sids.length) = row.versionList.drop k := by
    rw [VHandle.versionList, drop_seg _ _ hk, show mid.size - sids.length = row.size - k by omega]
    exact seg_congr fun i hi => by rw [Nat.zero_add, Nat.zero_add, hg.versions i (by omega)]
  obtain ⟨l, hperm, hl⟩ := flushLoop_merge mid (mid.size - sids.length) sids
    (by rw [hkept]; exact hs.sublist (drop_sublist _ _))
  obtain ⟨f, hf⟩ := flushLoop_frame (sids.mergeSort (· ≤ ·)).reverse mid (mid.size - sids.length)
  rw [hf] at hl ⊢
  rw [show mid.size - sids.length + sids.length = mid.size by omega] at hl
  have hbeyond := hl.beyond
  simp only at hbeyond
  refine ⟨k, { hg with unused := fun h0 i hi hlt => ?_, sorted := ?_, perm := ?_, objects := ?_ }⟩
  · simp only at hi hlt ⊢
    rw [hbeyond i hi]
    exact hg.unused h0 i hi hlt
  · rw [VHandle.versionList, hl.holds]
    exact hl.sorted
  · rw [VHandle.versionList, hl.holds, ← hkept]
    exact hperm
  · -- the merge does not touch the objects
    have hobj : seg f mid.capacity mid.size = seg mid.versions mid.capacity mid.size :=
      seg_congr fun i hi => hbeyond _ (by have := hg.size_le; omega)
    simp only [VHandle.objectList]
    rw [hobj, drop_seg _ _ hk, show mid.size = (row.size - k) + sids.length by omega, seg_add]
    congr 1
    · exact seg_congr fun i hi => by
        rw [Nat.add_assoc]
        exact hg.objects i (by omega)
    · refine eq_replicate_iff.2 ⟨by simp, fun x hx => ?_⟩
      obtain ⟨i, hi, rfl⟩ := mem_seg.1 hx
      rw [Nat.add_assoc]
      exact hg.pending _ (by omega) (by omega)

theorem appendBatch_isOk {row : VHandle} (sids : List ℕ) {epochNr : ℕ}
    (hcap : row.size ≤ row.capacity) (hlatest : row.latestVersion < row.size)
    (hobj : ∀ i < row.size, Freeable row (row.objects i))
    (hwritten : ∀ i, Droppable row epochNr i → isPendingVal (row.objects i) = false)
    (halloc : ∀ n, ∃ mem, svc.alloc n = some mem) (hepoch : epochNr ≠ 0) :
    ∃ row', appendBatch svc row sids epochNr = .ok row' := by
  obtain ⟨mid, hmid⟩ := increaseSize_isOk sids.length hcap hlatest hobj hwritten
    (fun _ _ => halloc _) hepoch
  rw [appendBatch, hmid]
  exact ⟨_, rfl⟩

/-- A single append is a batch of one version. -/
theorem appendNewVersionNoLock_eq (svc : Services) (row : VHandle) (sid epochNr : ℕ) (weight : ℤ) :
    appendNewVersionNoLock svc row sid epochNr weight =
      appendBatch svc (addOndsplt row weight) [sid] epochNr := by
  simp only [appendNewVersionNoLock, appendBatch, mergeSort_singleton, reverse_singleton,
    length_singleton]
  rfl

theorem appendNewVersionNoLock_spec {sid epochNr : ℕ} {weight : ℤ} (hcap : row.size ≤ row.capacity)
    (hlatest : row.latestVersion < row.size) (hs : row.versionList.Pairwise (· ≤ ·))
    (h : appendNewVersionNoLock svc row sid epochNr weight = .ok row') :
    ∃ k, AppendSpec svc row row' [sid] epochNr k := by
  rw [appendNewVersionNoLock_eq] at h
  obtain ⟨k, hspec⟩ := appendBatch_spec (by exact hcap) (by exact hlatest) (by exact hs) h
  obtain ⟨⟨⟩⟩ := hspec
  exact ⟨k, by constructor <;> assumption, ‹_›, ‹_›, ‹_›⟩

/-- A sorted list that is a permutation of a sorted list followed by greater elements starts with
that list. -/
theorem eq_append_of_sorted {l a b : List ℕ} (hl : l.Pairwise (· ≤ ·)) (hp : l ~ a ++ b)
    (ha : a.Pairwise (· ≤ ·)) (hab : ∀ x ∈ a, ∀ y ∈ b, x ≤ y) : ∃ b', l = a ++ b' ∧ b' ~ b := by
  refine ⟨b.mergeSort (· ≤ ·), ?_, mergeSort_perm _ _⟩
  refine List.Perm.eq_of_pairwise (fun x y _ _ => Nat.le_antisymm) hl ?_
    (hp.trans ((mergeSort_perm b _).symm.append_left a))
  refine pairwise_append.2 ⟨ha, pairwise_mergeSort' _ _, fun x hx y hy => ?_⟩
  exact hab x hx y ((mergeSort_perm b _).mem_iff.1 hy)

/-- The versions of earlier epochs keep their slots below the new ones. -/
theorem AppendSpec.split {sids : List ℕ} {epochNr k nrOld : ℕ}
    (h : AppendSpec svc row row' sids epochNr k) (hs : row.versionList.Pairwise (· ≤ ·))
    (hk : k ≤ nrOld) (hold : nrOld ≤ row.size) (hlt : ∀ i < nrOld, ∀ s ∈ sids, row.versions i ≤ s) :
    (∀ i, i + k < nrOld → row'.versions i = row.versions (k + i)) ∧
      seg row'.versions (nrOld - k) (row'.size - (nrOld - k)) ~
        seg row.versions nrOld (row.size - nrOld) ++ sids := by
  have hsize := h.size
  have hdrop : row.versionList.drop k =
      seg row.versions k (nrOld - k) ++ seg row.versions nrOld (row.size - nrOld) := by
    rw [VHandle.versionList, drop_seg _ _ (by omega), Nat.zero_add,
      show row.size - k = (nrOld - k) + (row.size - nrOld) by omega, seg_add,
      show k + (nrOld - k) = nrOld by omega]
  have hsorted : (seg row.versions k (nrOld - k) ++
      seg row.versions nrOld (row.size - nrOld)).Pairwise (· ≤ ·) :=
    hdrop ▸ hs.sublist (drop_sublist _ _)
  have hperm := h.perm
  rw [hdrop, append_assoc] at hperm
  obtain ⟨b, hb, hbp⟩ := eq_append_of_sorted h.sorted hperm (pairwise_append.1 hsorted).1
    fun x hx y hy => by
      rcases mem_append.1 hy with hy | hy
      · exact (pairwise_append.1 hsorted).2.2 x hx y hy
      · obtain ⟨i, hi, rfl⟩ := mem_seg.1 hx
        exact hlt _ (by omega) y hy
  rw [VHandle.versionList, show row'.size = (nrOld - k) + (row'.size - (nrOld - k)) by omega,
    seg_add, Nat.zero_add] at hb
  obtain ⟨ha, hb⟩ := append_inj hb (by simp)
  refine ⟨fun i hi => ?_, hb ▸ hbp⟩
  have := congrArg (fun l : List ℕ => l[i]?) ha
  rwa [getElem?_seg _ _ _ (by omega), getElem?_seg _ _ _ (by omega), Nat.zero_add,
    some_inj] at this

/-- The objects after an append: the kept ones, then pending slots. -/
theorem objects_append {sids : List ℕ} {e k : ℕ} (hspec : AppendSpec svc row row' sids e k)
    (hk : k ≤ row.size) {i : ℕ} (hi : i < row'.size) :
    row'.objects i = if i + k < row.size then row.objects (k + i) else kPendingValue := by
  have hsize := hspec.size
  have hobj := congrArg (fun l : List ℕ => l[i]?) hspec.objects
  simp only [VHandle.objectList, List.getElem?_append, length_drop, length_seg,
    List.getElem?_drop, List.getElem?_replicate] at hobj
  rw [getElem?_seg _ _ _ hi] at hobj
  by_cases hik : i + k < row.size
  · rw [if_pos (by omega), getElem?_seg _ _ _ (by omega)] at hobj
    rw [if_pos hik]
    exact some_inj.1 hobj
  · rw [if_neg (by omega), if_pos (by omega)] at hobj
    rw [if_neg hik]
    exact some_inj.1 hobj

/-! ## The slots of the execution phase -/

/-- A row whose versions are complete for the epoch that executes: the first `nrOld` versions are
of earlier epochs and written, and `latest_version` is somewhere from the last of them on. -/
structure Executing (row : VHandle) (nrOld : ℕ) : Prop where
  size_le : row.size ≤ row.capacity
  sorted : ∀ i j, i < j → j < row.size → row.versions i < row.versions j
  nrOld_le : nrOld ≤ row.size
  curStart : nrOld < row.size → row.curStart = nrOld
  latest_ge : (nrOld : ℤ) - 1 ≤ row.latestVersion
  latest_lt : row.latestVersion < row.size

/-- The slot that `sid` reads: the last version before it. -/
structure ReadSlot (row : VHandle) (sid pos : ℕ) : Prop where
  lt_size : pos < row.size
  version_lt : row.versions pos < sid
  last : ∀ i, pos < i → i < row.size → sid ≤ row.versions i

namespace Executing

variable {row : VHandle} {nrOld : ℕ}

variable (h : Executing row nrOld)

include h

theorem sorted_le {i j : ℕ} (hij : i ≤ j) (hj : j < row.size) :
    row.versions i ≤ row.versions j := by
  rcases Nat.eq_or_lt_of_le hij with rfl | hlt
  · exact le_rfl
  · exact (h.sorted i j hlt hj).le

theorem eq_of_versions_eq {i j : ℕ} (hi : i < row.size) (hj : j < row.size)
    (heq : row.versions i = row.versions j) : i = j := by
  rcases lt_trichotomy i j with hlt | heq' | hlt
  · exact absurd heq (h.sorted i j hlt hj).ne
  · exact heq'
  · exact absurd heq (h.sorted j i hlt hi).ne'

theorem lowerBound_splits (sid lo hi : ℕ) (hle : lo ≤ hi) (hhi : hi ≤ row.size) :
    Splits (fun i => row.versions i < sid) lo (hi - lo) (lowerBound row.versions lo hi sid) :=
  lowerBound_spec sid fun i j _ hij hj => h.sorted_le hij (by omega)

/-- The search on `[lo, hi)` is right when everything below is smaller and everything from `hi` on
is not. -/
theorem searchFrom_spec {sid : ℕ} (lo hi : ℕ) (hle : lo ≤ hi) (hhi : hi ≤ row.size)
    (hlow : ∃ i < row.size, row.versions i < sid) (hbelow : ∀ i < lo, row.versions i < sid)
    (habove : ∀ i, hi ≤ i → i < row.size → sid ≤ row.versions i) :
    ∃ pos, searchFrom row sid lo hi = some pos ∧ ReadSlot row sid pos := by
  have hp := h.lowerBound_splits sid lo hi hle hhi
  have hall : ∀ i, lowerBound row.versions lo hi sid ≤ i → i < row.size → sid ≤ row.versions i :=
    fun i hi' hlt => by
      by_cases hih : i < hi
      · exact not_lt.1 (hp.above i hi' (by omega))
      · exact habove i (by omega) hlt
  rw [searchFrom]
  generalize lowerBound row.versions lo hi sid = p at *
  have hp_le := hp.le_hi
  have hp0 : p ≠ 0 := by
    rintro rfl
    obtain ⟨i, hi', hlt⟩ := hlow
    exact absurd (hall i (Nat.zero_le _) hi') (not_le.2 hlt)
  refine ⟨p - 1, if_neg hp0, by omega, ?_, fun i hi' => hall i (by omega)⟩
  by_cases hlo : lo ≤ p - 1
  · exact hp.below (p - 1) hlo (by omega)
  · exact hbelow (p - 1) (by omega)

/-- **`WithVersion` finds the slot of the last version before the reader**, whichever shortcut it
takes. -/
theorem withVersion_spec {sid : ℕ} (hlow : ∃ i < row.size, row.versions i < sid)
    (hold : ∀ i < nrOld, row.versions i < sid) :
    ∃ pos, withVersion row sid = .ok (some pos) ∧ ReadSlot row sid pos := by
  have hge := h.latest_ge
  have hlt := h.latest_lt
  rw [withVersion]
  simp only
  split_ifs with h1 h2 h3 h4 h5
  · -- the version after the latest one is not before the reader
    refine ⟨_, rfl, by omega, by simpa using h1.2, fun i hi hsize => ?_⟩
    rcases h2 with h2 | h2
    · omega
    · exact h2.trans (h.sorted_le (by omega) hsize)
  · obtain ⟨pos, heq, hpos⟩ := h.searchFrom_spec (row.latestVersion.toNat + 1) row.size
      (by omega) le_rfl hlow
      (fun i hi => (h.sorted_le (by omega) (by omega)).trans_lt h1.2) (fun i hi hi' => by omega)
    exact ⟨pos, by rw [heq], hpos⟩
  · -- a reader before the first version
    obtain ⟨i, hi, hisid⟩ := hlow
    have : ¬ sid > row.versions row.latestVersion.toNat := fun hc => h1 ⟨h3, hc⟩
    rw [h4] at this
    exact absurd ((h.sorted_le (Nat.zero_le i) hi).trans_lt hisid) this
  · have hsid : ¬ sid > row.versions row.latestVersion.toNat := fun hc => h1 ⟨h3, hc⟩
    exact ⟨_, rfl, by omega, h5, fun i hi hsize =>
      (not_lt.1 hsid).trans (h.sorted_le (by omega) hsize)⟩
  · -- the reader is further back, among the versions of the epoch
    have hsid : ¬ sid > row.versions row.latestVersion.toNat := fun hc => h1 ⟨h3, hc⟩
    have hnew : nrOld ≤ row.latestVersion.toNat - 1 :=
      not_lt.1 fun hc => h5 (hold _ hc)
    have hstart := h.curStart (by omega)
    obtain ⟨pos, heq, hpos⟩ := h.searchFrom_spec row.curStart row.latestVersion.toNat
      (by omega) (by omega) hlow (by rw [hstart]; exact hold)
      (fun i hi hsize => (not_lt.1 hsid).trans (h.sorted_le hi hsize))
    exact ⟨pos, by rw [heq], hpos⟩
  · obtain ⟨i, hi, -⟩ := id hlow
    have hstart := h.curStart (by omega)
    obtain ⟨pos, heq, hpos⟩ := h.searchFrom_spec row.curStart row.size
      (by omega) le_rfl hlow (by rw [hstart]; exact hold)
      (fun i hi hi' => by omega)
    exact ⟨pos, by rw [heq], hpos⟩

/-- **`WriteWithVersion` finds the slot of its version**, unless the cell past the versions, which
it compares when everything is written, happens to hold the serial id. -/
theorem writeSlot_spec {i : ℕ} (hi : nrOld ≤ i) (hsize : i < row.size)
    (hpast : row.latestVersion + 1 = row.size → row.versions row.size ≠ row.versions i) :
    writeSlot row (row.versions i) = .ok i := by
  have hge := h.latest_ge
  have hlt := h.latest_lt
  rw [writeSlot]
  simp only
  split_ifs with h1 h2
  · have hne : (row.latestVersion + 1).toNat ≠ row.size := fun hc => by
      rw [hc] at h1
      exact hpast (by omega) h1
    rw [h.eq_of_versions_eq (by omega) hsize h1]
  all_goals
    have hstart := h.curStart (by omega)
    have hp := h.lowerBound_splits (row.versions i) row.curStart row.size
      (by omega) le_rfl
    -- the first version that is not below that of slot `i` is that of slot `i`
    have hpi : lowerBound row.versions row.curStart row.size (row.versions i) = i := by
      have hp_le := hp.le_hi
      apply le_antisymm
      · exact not_lt.1 fun hc => absurd (hp.below i (by omega) hc) (lt_irrefl _)
      · refine not_lt.1 fun hc => ?_
        exact hp.above _ le_rfl (by omega) (h.sorted _ _ hc hsize)
  · rw [hpi] at h2
    rcases h2 with h2 | h2
    · omega
    · exact absurd rfl h2
  · rw [hpi]

end Executing

/-! ## Writing and waiting -/

/-- What a write of `obj` to slot `it` leaves behind. -/
structure Wrote (row row' : VHandle) (it obj : ℕ) : Prop where
  versions : row'.versions = update row.versions (row.capacity + it) obj
  size : row'.size = row.size
  capacity : row'.capacity = row.capacity
  curStart : row'.curStart = row.curStart
  latest : row'.latestVersion = max row.latestVersion it
  addr : row'.addr = row.addr
  inlineUsed : row'.inlineUsed = row.inlineUsed
  bufPos : row'.bufPos = row.bufPos

theorem endSplitting_eq (row : VHandle) (it : ℕ) :
    ∃ n a, endSplitting row it = { row with nrOndsplt := n, contAffinity := a } := by
  rw [endSplitting]
  split_ifs
  · exact ⟨_, _, rfl⟩
  · exact ⟨_, _, rfl⟩

theorem registerRow_eq (row : VHandle) (gchdl : ℕ) :
    ∃ g, registerRow row gchdl = { row with gcHandle := g } := by
  rw [registerRow]
  split_ifs
  · exact ⟨_, rfl⟩
  · exact ⟨_, rfl⟩

theorem finishWrite_eq {it obj epochNr : ℕ} (h : finishWrite svc row it obj epochNr = .ok row') :
    ∃ n a g, row' = { row with nrOndsplt := n, contAffinity := a, gcHandle := g } := by
  obtain ⟨garbage, -, h⟩ := bind_ok h
  cases h
  obtain ⟨n, a, hend⟩ := endSplitting_eq row it
  rw [hend]
  split_ifs
  · obtain ⟨g, hg⟩ := registerRow_eq { row with nrOndsplt := n, contAffinity := a } svc.addRow
    exact ⟨n, a, g, hg⟩
  · exact ⟨n, a, row.gcHandle, rfl⟩

theorem publish_offerData_eq (row : VHandle) (it obj : ℕ) :
    publish (offerData row it obj) row.latestVersion it = { row with
        versions := update row.versions (row.capacity + it) obj
        latestVersion := max row.latestVersion it } := by
  rw [publish]
  split_ifs with h
  · simp only [casLatest, offerData, if_true, getD_some, max_eq_right h.le]
  · simp only [offerData, max_eq_left (not_lt.1 h)]

theorem writeWithVersion_spec {sid obj epochNr it : ℕ} (hit : writeSlot row sid = .ok it)
    (h : writeWithVersion svc row sid obj epochNr = .ok row') : Wrote row row' it obj := by
  obtain ⟨it', hit', h⟩ := bind_ok h
  obtain rfl : it' = it := by simpa [hit] using hit'.symm
  rw [publish_offerData_eq] at h
  obtain ⟨n, a, g, rfl⟩ := finishWrite_eq h
  exact ⟨rfl, rfl, rfl, rfl, rfl, rfl, rfl, rfl⟩

/-- A new word in the object slot `it` leaves the versions alone. -/
theorem versions_update (row : VHandle) (hcap : row.size ≤ row.capacity) (it obj : ℕ) {i : ℕ}
    (hi : i < row.size) : update row.versions (row.capacity + it) obj i = row.versions i :=
  update_of_ne (by omega) _ _

theorem objects_update (f : ℕ → ℕ) (cap it obj i : ℕ) :
    update f (cap + it) obj (cap + i) = if i = it then obj else f (cap + i) := by
  split_ifs with heq
  · rw [heq, update_self]
  · exact update_of_ne (by omega) _ _

/-- A waiting core only touches the lower half of a pending word. -/
theorem isPendingVal_clearBit (val : ℕ) {core : ℕ} (hcore : core < 32) :
    isPendingVal (clearBit val core) = isPendingVal val := by
  have hhigh : clearBit val core >>> 32 = val >>> 32 := by
    rw [clearBit, Nat.and_two_pow]
    cases hbit : val.testBit core with
    | false => simp
    | true =>
      have hlow : (val % 2 ^ 32).testBit core = true := by
        rw [Nat.testBit_mod_two_pow, decide_eq_true hcore, hbit]
        rfl
      have hle : 2 ^ core ≤ val % 2 ^ 32 := Nat.ge_two_pow_of_testBit hlow
      rw [Bool.toNat_true, one_mul, Nat.shiftRight_eq_div_pow, Nat.shiftRight_eq_div_pow]
      generalize 2 ^ core = bit at hle
      omega
  rw [isPendingVal, isPendingVal, hhigh]

end Felis.Row
