import Felis.Row.Append

/-!
# What collecting and booking do to a row

`Dropped row row' k` says that `row'` is `row` without its `k` oldest versions. `collect_spec` gives
it for `GC::Collect`, with the reason why each version could go: the one after it is older than
the epoch. `increaseSize_spec` is the specification of `IncreaseSize`: some oldest versions are
dropped, the block has room, the booked slots are pending and `cur_start` stands right after
`latest_version`.
-/

namespace Felis.Row

open Cells Util

theorem bind_ok {ε α β : Type} {x : Except ε α} {f : α → Except ε β} {b : β}
    (h : x >>= f = .ok b) : ∃ a, x = .ok a ∧ f a = .ok b := by
  cases x with
  | error e => cases h
  | ok a => exact ⟨a, rfl, h⟩

theorem map_ok {ε α β : Type} {x : Except ε α} {f : α → β} {b : β} (h : x.map f = .ok b) :
    ∃ a, x = .ok a ∧ f a = b := by
  cases x with
  | error e => cases h
  | ok a => exact ⟨a, rfl, by simpa [Except.map] using h⟩

theorem toOption_map_eq_some {α β : Type} {x : Except Fault α} {f : α → β} {b : β} :
    x.toOption.map f = some b ↔ ∃ a, x = .ok a ∧ f a = b := by
  cases x with
  | error e => simp [Except.toOption]
  | ok a => simp [Except.toOption]

/-! ## Dropping the oldest versions -/

/-- `row'` holds the slots of `row` from `k` on. The garbage handle and `cur_start` are not
covered: the callers treat them differently. -/
structure Dropped (row row' : VHandle) (k : ℕ) : Prop where
  size : row'.size + k = row.size
  capacity : row'.capacity = row.capacity
  versions : ∀ i < row'.size, row'.versions i = row.versions (k + i)
  objects : ∀ i < row'.size, row'.objects i = row.objects (k + i)
  block : k = 0 → row'.versions = row.versions
  latest : row'.latestVersion = row.latestVersion - k
  addr : row'.addr = row.addr
  inlineUsed : row'.inlineUsed = row.inlineUsed
  bufPos : row'.bufPos = row.bufPos
  nrOndsplt : row'.nrOndsplt = row.nrOndsplt
  contAffinity : row'.contAffinity = row.contAffinity

theorem Dropped.refl (row : VHandle) : Dropped row row 0 := by
  constructor <;> simp

theorem dropped_shiftDown (row : VHandle) {i : ℕ} (hi : 0 < i) (hsize : i ≤ row.size)
    (hcap : row.size ≤ row.capacity) : Dropped row (shiftDown row i) i where
  size := by
    simp only [shiftDown]
    omega
  capacity := rfl
  versions := fun k hk => by
    simp only [shiftDown] at hk ⊢
    -- the cells of the versions are below those the objects moved to
    have := moveCells_of_mem (moveCells row.versions (row.capacity + i) row.capacity
      (row.size - i)) i 0 (row.size - i) hk
    rw [Nat.zero_add] at this
    rw [this, moveCells_of_lt _ _ _ (by omega)]
  objects := fun k hk => by
    simp only [shiftDown, VHandle.objects] at hk ⊢
    rw [moveCells_of_ge _ _ (by omega), moveCells_of_mem _ _ _ _ hk, Nat.add_assoc]
  block := by omega
  latest := rfl
  addr := rfl
  inlineUsed := rfl
  bufPos := rfl
  nrOndsplt := rfl
  contAffinity := rfl

/-- A version may be dropped when the version after it is older than the epoch. -/
def Droppable (row : VHandle) (epochNr i : ℕ) : Prop :=
  i + 1 < row.size ∧ epochOf (row.versions (i + 1)) < epochNr

theorem collectCount_spec (row : VHandle) (epochNr limit : ℕ) :
    collectCount row epochNr limit ≤ limit ∧
      ∀ i < collectCount row epochNr limit, Droppable row epochNr i := by
  have hlt : ∀ i < collectCount row epochNr limit,
      Droppable row epochNr i ∧ i < limit := fun i hi => by
    have := of_lt_scanWhile _ _ _ _ (Nat.zero_le i) hi
    simp only [Bool.and_eq_true, decide_eq_true_eq] at this
    exact ⟨⟨this.1.1, this.2⟩, this.1.2⟩
  refine ⟨not_lt.1 fun h => ?_, fun i hi => (hlt i hi).1⟩
  exact absurd (hlt limit h).2 (lt_irrefl _)

variable {row : VHandle}

theorem collectCount_ne_zero {epochNr limit : ℕ} (hlimit : limit ≠ 0)
    (h : Droppable row epochNr 0) : collectCount row epochNr limit ≠ 0 := by
  obtain ⟨hsize, hepoch⟩ := h
  intro h0
  have := not_scanWhile _ row.size 0 (by rw [collectCount] at h0; rw [h0]; omega)
  rw [← collectCount, h0] at this
  simp only [Bool.and_eq_false_iff, decide_eq_false_iff_not] at this
  rcases this with (h1 | h2) | h3
  · exact h1 hsize
  · omega
  · exact h3 hepoch

structure CollectSpec (row row' : VHandle) (epochNr limit k : ℕ) : Prop where
  dropped : Dropped row row' k
  le_limit : k ≤ limit
  droppable : ∀ i < k, Droppable row epochNr i
  curStart : k ≤ row.curStart → row'.curStart + k = row.curStart
  gcHandle : row'.gcHandle = row.gcHandle

theorem collect_spec {epochNr limit : ℕ} {c : Collected} (hcap : row.size ≤ row.capacity)
    (h : collect row epochNr limit = .ok c) :
    CollectSpec row c.row epochNr limit c.nr ∧ c.nr = collectCount row epochNr limit := by
  obtain ⟨hle, hdrop⟩ := collectCount_spec row epochNr limit
  rw [collect] at h
  by_cases h0 : collectCount row epochNr limit = 0
  · simp only [h0, if_true] at h
    cases h
    exact ⟨⟨Dropped.refl row, Nat.zero_le _, fun i hi => absurd hi (Nat.not_lt_zero i),
      fun _ => rfl, rfl⟩, h0.symm⟩
  · simp only [if_neg h0] at h
    obtain ⟨freed, -, h⟩ := bind_ok h
    cases h
    have hlast := (hdrop (collectCount row epochNr limit - 1) (by omega)).1
    refine ⟨⟨dropped_shiftDown row (by omega) (by omega) hcap, hle, hdrop, fun hc => ?_, rfl⟩, rfl⟩
    simp only [shiftDown, if_pos hc]
    exact Nat.sub_add_cancel hc

/-! ## Growing -/

theorem lt_newCapacity (size : ℕ) : size < newCapacity size :=
  lt_max_of_lt_right (Nat.lt_pow_succ_log_self (by norm_num) size)

/-- What the reallocation leaves: room for all slots, and every cell of the old block in its
place. A version cell that was not in the old block is one of a new block. -/
structure Enlarged (svc : Services) (row row' : VHandle) : Prop where
  size_le : row'.size ≤ row'.capacity
  keeps : row.size ≤ row.capacity → row'.capacity = row.capacity
  le_capacity : row.capacity ≤ row'.capacity
  versions : ∀ i < row.capacity, row'.versions i = row.versions i
  objects : ∀ i < row.capacity, row'.objects i = row.objects i
  fresh : ∀ i, row.capacity ≤ i → i < row'.capacity →
    ∃ mem, svc.alloc (2 * row'.capacity) = some mem ∧ row'.versions i = mem i
  eq : ∃ f cap aff,
    row' = { row with versions := f, capacity := cap, allocByRegionid := aff }

variable {row' : VHandle} {svc : Services}

theorem enlarge_spec (h : enlarge svc row = .ok row') : Enlarged svc row row' := by
  rw [enlarge] at h
  split_ifs at h with hsize
  · have hcap := lt_newCapacity row.size
    cases halloc : svc.alloc (2 * newCapacity row.size) with
    | none => rw [halloc] at h; cases h
    | some mem =>
      rw [halloc] at h
      cases h
      refine ⟨hcap.le, fun hc => by omega, by simp only; omega, fun i hi => ?_, fun i hi => ?_,
        fun i hi hlt => ⟨mem, halloc, ?_⟩, _, _, _, rfl⟩
      · simp only [enlargePair64Array, if_pos hi]
      · simp only [VHandle.objects, enlargePair64Array]
        rw [if_neg (by omega), if_pos (by omega), Nat.add_sub_cancel_left]
      · simp only at hlt
        simp only [enlargePair64Array]
        rw [if_neg (by omega), if_neg (by omega)]
  · cases h
    exact ⟨by omega, fun _ => rfl, le_rfl, fun _ _ => rfl, fun _ _ => rfl, fun i hi hlt => by omega,
      _, _, _, rfl⟩

/-! ## The first append of an epoch -/

/-- What the end of `IncreaseSize` leaves: some oldest versions are dropped, no more than
`latest` and only from a registered row at the first append of the epoch, and `cur_start` stands
right after `latest_version`. -/
structure Started (row row' : VHandle) (handle : ℕ) (latest : ℤ) (epochNr k : ℕ) : Prop where
  dropped : Dropped row row' k
  le_latest : k ≠ 0 → (k : ℤ) ≤ latest
  first : k ≠ 0 → (row.curStart : ℤ) ≠ latest + 1 ∧ handle ≠ 0
  droppable : ∀ i < k, Droppable row epochNr i
  curStart : -1 ≤ latest → (row'.curStart : ℤ) + k = latest + 1

theorem collectRegistered_spec {handle epochNr : ℕ} {latest : ℤ} (hcap : row.size ≤ row.capacity)
    (hstart : row.curStart = (latest + 1).toNat)
    (h : collectRegistered row handle latest epochNr = .ok row') :
    ∃ k, Dropped row row' k ∧ (k ≠ 0 → (k : ℤ) ≤ latest ∧ handle ≠ 0) ∧
      (∀ i < k, Droppable row epochNr i) ∧ row'.curStart + k = row.curStart := by
  rw [collectRegistered] at h
  split_ifs at h with h0 hlatest
  · cases h
    exact ⟨0, Dropped.refl row, by simp, fun i hi => by omega, rfl⟩
  · obtain ⟨c, hc, rfl⟩ := map_ok h
    obtain ⟨hspec, -⟩ := collect_spec hcap hc
    have hle := hspec.le_limit
    refine ⟨c.nr, ?_, fun _ => ⟨by omega, h0⟩, hspec.droppable, hspec.curStart (by omega)⟩
    obtain ⟨⟩ := hspec.dropped
    constructor <;> assumption
  · cases h
    refine ⟨0, ?_, by simp, fun i hi => by omega, rfl⟩
    constructor <;> simp [VHandle.objects]

theorem registerGarbage_eq {garbageLeft : Bool} {epochNr : ℕ}
    (h : registerGarbage svc row garbageLeft epochNr = .ok row') :
    ∃ g, row' = { row with gcHandle := g } := by
  rw [registerGarbage] at h
  split_ifs at h
  · cases h
    exact ⟨_, rfl⟩
  · cases h
    exact ⟨row.gcHandle, rfl⟩

theorem startEpoch_spec {handle epochNr : ℕ} {latest : ℤ} (hcap : row.size ≤ row.capacity)
    (h : startEpoch svc row handle latest epochNr = .ok row') :
    ∃ k, Started row row' handle latest epochNr k := by
  rw [startEpoch] at h
  split_ifs at h with hstart
  · obtain ⟨row₁, h₁, h⟩ := bind_ok h
    obtain ⟨garbage, -, h⟩ := bind_ok h
    obtain ⟨g, rfl⟩ := registerGarbage_eq h
    obtain ⟨k, hdropped, hle, hdrop, hcur⟩ := collectRegistered_spec (by exact hcap) (by rfl) h₁
    refine ⟨k, ?_, fun hk => (hle hk).1, fun hk => ⟨hstart, (hle hk).2⟩, hdrop, fun hl => ?_⟩
    · obtain ⟨⟩ := hdropped
      constructor <;> assumption
    · simp only at hcur ⊢
      omega
  · cases h
    exact ⟨0, Dropped.refl row, by simp, by simp, fun i hi => by omega, fun _ => by
      simp; omega⟩

/-! ## `IncreaseSize` -/

/-- `delta` slots are booked, with `k` oldest versions dropped on the way. -/
structure Resized (svc : Services) (row row' : VHandle) (delta epochNr k : ℕ) : Prop where
  size : row'.size + k = row.size + delta
  size_le : row'.size ≤ row'.capacity
  keeps : row.size + delta ≤ row.capacity → row'.capacity = row.capacity
  droppable : ∀ i < k, Droppable row epochNr i
  /-- Versions are dropped at the first append of an epoch, or before a large array grows. -/
  why : k ≠ 0 → ((row.curStart : ℤ) ≠ row.latestVersion + 1 ∧ 0 < row.latestVersion ∧
    row.gcHandle ≠ 0) ∨ (row.size + delta > row.capacity ∧ row.capacity ≥ 512 * 1024)
  grows : row.size + delta > row.capacity → row.capacity ≥ 512 * 1024 →
    Droppable row epochNr 0 → k ≠ 0
  unused : k = 0 → ∀ i, row'.size ≤ i → i < row'.capacity →
    (i < row.capacity ∧ row'.versions i = row.versions i) ∨
      ∃ mem, svc.alloc (2 * row'.capacity) = some mem ∧ row'.versions i = mem i
  latest : row'.latestVersion = row.latestVersion - k
  curStart : -1 ≤ row'.latestVersion → (row'.curStart : ℤ) = row'.latestVersion + 1
  addr : row'.addr = row.addr
  inlineUsed : row'.inlineUsed = row.inlineUsed
  bufPos : row'.bufPos = row.bufPos
  contAffinity : row'.contAffinity = row.contAffinity

/-- What `IncreaseSize` leaves behind: the new slots are pending. -/
structure Grown (svc : Services) (row row' : VHandle) (delta epochNr k : ℕ) : Prop
    extends Resized svc row row' delta epochNr k where
  versions : ∀ i, i + k < row.size → row'.versions i = row.versions (k + i)
  objects : ∀ i, i + k < row.size → row'.objects i = row.objects (k + i)
  pending : ∀ i, row.size ≤ i + k → i < row'.size → row'.objects i = kPendingValue
  nrOndsplt : row'.nrOndsplt = row.nrOndsplt

theorem collectBeforeGrowth_spec {delta epochNr : ℕ} (hcap : row.size ≤ row.capacity)
    (h : collectBeforeGrowth row delta epochNr = .ok row') :
    ∃ k, CollectSpec row row' epochNr (16 * 1024) k ∧
      (k ≠ 0 → row.size + delta > row.capacity ∧ row.capacity ≥ 512 * 1024) ∧
      (row.size + delta > row.capacity → row.capacity ≥ 512 * 1024 →
        Droppable row epochNr 0 → k ≠ 0) := by
  rw [collectBeforeGrowth] at h
  split_ifs at h with hgrow
  · obtain ⟨c, hc, rfl⟩ := map_ok h
    obtain ⟨hspec, hnr⟩ := collect_spec hcap hc
    refine ⟨c.nr, hspec, fun _ => hgrow, fun _ _ hd => ?_⟩
    rw [hnr]
    exact collectCount_ne_zero (by norm_num) hd
  · cases h
    exact ⟨0, ⟨Dropped.refl row, Nat.zero_le _, fun i hi => by omega, fun _ => rfl, rfl⟩, by simp,
      fun h1 h2 => absurd ⟨h1, h2⟩ hgrow⟩

/-- The row after the first two parts of `IncreaseSize`: booked and pending, nothing dropped. -/
structure Booked (svc : Services) (row row' : VHandle) (delta : ℕ) : Prop where
  size : row'.size = row.size + delta
  size_le : row'.size ≤ row'.capacity
  keeps : row.size + delta ≤ row.capacity → row'.capacity = row.capacity
  le_capacity : row.capacity ≤ row'.capacity
  versions : ∀ i < row.capacity, row'.versions i = row.versions i
  objects : ∀ i < row.size, row'.objects i = row.objects i
  pending : ∀ i, row.size ≤ i → i < row'.size → row'.objects i = kPendingValue
  fresh : ∀ i, row.capacity ≤ i → i < row'.capacity →
    ∃ mem, svc.alloc (2 * row'.capacity) = some mem ∧ row'.versions i = mem i
  eq : ∃ f cap size aff,
    row' = { row with versions := f, capacity := cap, size := size, allocByRegionid := aff }

theorem booked_fillPending {delta : ℕ} (hcap : row.size ≤ row.capacity)
    (h : enlarge svc { row with size := row.size + delta } = .ok row') :
    Booked svc row (fillPending row' delta) delta := by
  obtain ⟨hsize, hkeeps, hle, hv, ho, hfresh, f, cap, aff, rfl⟩ := enlarge_spec h
  simp only [VHandle.objects] at *
  refine ⟨rfl, hsize, hkeeps, hle, fun i hi => ?_, fun i hi => ?_, fun i hi hlt => ?_,
    fun i hi hlt => ?_, ⟨_, _, _, _, rfl⟩⟩
  · refine Eq.trans ?_ (hv i hi)
    exact fillCells_of_lt _ _ _ (by simp only; omega)
  · refine Eq.trans ?_ (ho i (by omega))
    exact fillCells_of_lt _ _ _ (by simp only [fillPending]; omega)
  · simp only [fillPending, VHandle.objects] at hlt ⊢
    have := fillCells_of_mem f (cap + (row.size + delta - delta)) delta kPendingValue
      (i := i - row.size) (by omega)
    rwa [show cap + (row.size + delta - delta) + (i - row.size) = cap + i by omega] at this
  · obtain ⟨mem, hmem, heq⟩ := hfresh i hi hlt
    refine ⟨mem, hmem, ?_⟩
    refine Eq.trans ?_ heq
    exact fillCells_of_lt _ _ _ (by simp only [fillPending] at hlt ⊢; omega)

/-- **The specification of `IncreaseSize`.** -/
theorem increaseSize_spec {delta epochNr : ℕ} (hcap : row.size ≤ row.capacity)
    (hlatest : row.latestVersion < row.size) (h : increaseSize svc row delta epochNr = .ok row') :
    ∃ k, Grown svc row row' delta epochNr k := by
  rw [increaseSize] at h
  obtain ⟨row₁, h₁, h⟩ := bind_ok h
  obtain ⟨row₂, h₂, h⟩ := bind_ok h
  obtain ⟨k₁, ⟨hd₁, -, hdrop₁, hcur₁, -⟩, hwhy₁, hgrows₁⟩ := collectBeforeGrowth_spec hcap h₁
  have hsize₁ := hd₁.size
  have hb := booked_fillPending (by rw [hd₁.capacity]; omega) h₂
  have hb_size := hb.size
  obtain ⟨k₂, hs⟩ := startEpoch_spec hb.size_le h
  have hd₂ := hs.dropped
  have hsize₂ := hd₂.size
  have hlatest₁ := hd₁.latest
  have hk₂ : k₂ ≠ 0 → k₂ < row₁.size := fun hk => by
    have := hs.le_latest hk
    omega
  have hcap₁ : row₁.size ≤ row₁.capacity := by rw [hd₁.capacity]; omega
  have hver : ∀ i, i < row₁.size → (fillPending row₂ delta).versions i = row.versions (k₁ + i) :=
    fun i hi => by rw [hb.versions i (by omega), hd₁.versions i hi]
  have hobj : ∀ i, i < row₁.size → (fillPending row₂ delta).objects i = row.objects (k₁ + i) :=
    fun i hi => by rw [hb.objects i hi, hd₁.objects i hi]
  have hcur₃ : (fillPending row₂ delta).curStart = row₁.curStart ∧
      (fillPending row₂ delta).latestVersion = row₁.latestVersion := by
    obtain ⟨f, cap, size, aff, heq⟩ := hb.eq
    rw [heq]
    exact ⟨rfl, rfl⟩
  refine ⟨k₁ + k₂, ⟨?_, ?_, fun hfit => ?_, fun i hi => ?_, fun hk => ?_, fun h1 h2 hd => ?_,
    fun hk i hi hlt => ?_, ?_, fun hl => ?_, ?_, ?_, ?_, ?_⟩, fun i hi => ?_, fun i hi => ?_,
    fun i hi hlt => ?_, ?_⟩
  · omega
  · rw [hd₂.capacity]
    have := hb.size_le
    omega
  · rw [hd₂.capacity, hb.keeps (by rw [hd₁.capacity]; omega), hd₁.capacity]
  · by_cases hi₁ : i < k₁
    · exact hdrop₁ i hi₁
    · -- dropped at the start of the epoch, seen through the first collection
      obtain ⟨-, hlt⟩ := hs.droppable (i - k₁) (by omega)
      have := hk₂ (by omega)
      rw [hver _ (by omega), show k₁ + (i - k₁ + 1) = i + 1 by omega] at hlt
      exact ⟨by omega, hlt⟩
  · by_cases hk₁ : k₁ = 0
    · subst hk₁
      obtain ⟨hne, hh⟩ := hs.first (by omega)
      rw [hcur₃.1] at hne
      have hcur := hcur₁ (Nat.zero_le _)
      have hle := hs.le_latest (by omega)
      push_cast at hlatest₁
      exact .inl ⟨by omega, by omega, hh⟩
    · exact .inr (hwhy₁ hk₁)
  · have := hgrows₁ h1 h2 hd
    omega
  · obtain ⟨rfl, rfl⟩ : k₁ = 0 ∧ k₂ = 0 := by omega
    rw [hd₂.block rfl]
    rw [hd₂.capacity] at hlt ⊢
    by_cases hic : i < row₁.capacity
    · refine .inl ⟨by rw [← hd₁.capacity]; exact hic, ?_⟩
      rw [hb.versions i hic, hd₁.block rfl]
    · exact .inr (hb.fresh i (by omega) hlt)
  · rw [hd₂.latest, hcur₃.2, hd₁.latest]
    push_cast
    ring
  · rw [hd₂.latest, hcur₃.2] at hl ⊢
    have := hs.curStart (by omega)
    omega
  all_goals
    obtain ⟨f, cap, size, aff, heq⟩ := hb.eq
  · rw [hd₂.addr, heq, ← hd₁.addr]
  · rw [hd₂.inlineUsed, heq, ← hd₁.inlineUsed]
  · rw [hd₂.bufPos, heq, ← hd₁.bufPos]
  · rw [hd₂.contAffinity, heq, ← hd₁.contAffinity]
  · rw [hd₂.versions i (by omega), hver _ (by omega), Nat.add_assoc]
  · rw [hd₂.objects i (by omega), hobj _ (by omega), Nat.add_assoc]
  · rw [hd₂.objects i hlt, hb.pending _ (by omega) (by omega)]
  · rw [hd₂.nrOndsplt, heq, ← hd₁.nrOndsplt]

/-! ## Appends that do not abort -/

/-- `IsDataGarbage` does not abort on this object. -/
def Freeable (row : VHandle) (p : ℕ) : Prop := ∃ b, isDataGarbage row p = .ok b

theorem Freeable.congr {p : ℕ} (h : Freeable row p) (haddr : row'.addr = row.addr)
    (hinl : row'.inlineUsed = row.inlineUsed) : Freeable row' p := by
  rw [Freeable, isDataGarbage, VHandle.isInlined, haddr, hinl]
  exact h

/-- An object that is passed to `delete`: not null, and not inside of the row. -/
def VHandle.isGarbage (row : VHandle) (p : ℕ) : Bool :=
  decide (p ≠ 0 ∧ ¬ (row.addr < p ∧ p < row.addr + 256))

theorem isDataGarbage_eq {p : ℕ} (h : Freeable row p) :
    isDataGarbage row p = .ok (row.isGarbage p) := by
  obtain ⟨b, hb⟩ := h
  rw [isDataGarbage] at hb ⊢
  split_ifs at hb ⊢ with h0 hin hinl
  · simp [VHandle.isGarbage, h0]
  · simp [VHandle.isGarbage, hin]
  · simp [VHandle.isGarbage, h0, hin]

theorem freeGarbage_eq : ∀ {ps : List ℕ},
    (∀ p ∈ ps, Freeable row p ∧ isPendingVal p = false) →
    freeGarbage row ps = .ok (ps.filter row.isGarbage) := by
  intro ps
  induction ps with
  | nil => exact fun _ => rfl
  | cons p ps ih =>
    intro h
    obtain ⟨hfree, hp⟩ := h p (by simp)
    rw [freeGarbage, isDataGarbage_eq hfree, ih fun q hq => h q (by simp [hq])]
    cases hg : row.isGarbage p with
    | false => simp [hg]; rfl
    | true => simp [hg, hp]; rfl

/-- **What `Collect` returns** when the objects it drops are written and can be told from data of
the row. -/
theorem collect_eq {epochNr limit : ℕ} (h : ∀ i < collectCount row epochNr limit,
    Freeable row (row.objects i) ∧ isPendingVal (row.objects i) = false) :
    collect row epochNr limit = .ok (if collectCount row epochNr limit = 0 then ⟨row, 0, []⟩ else
      ⟨shiftDown row (collectCount row epochNr limit), collectCount row epochNr limit,
        (seg row.versions row.capacity (collectCount row epochNr limit)).filter
          row.isGarbage⟩) := by
  rw [collect]
  split_ifs
  · rfl
  · rw [freeGarbage_eq fun p hp => by obtain ⟨i, hi, rfl⟩ := mem_seg.1 hp; exact h i hi]
    rfl

theorem collectRegistered_isOk (handle epochNr : ℕ) {latest : ℤ}
    (hobj : ∀ i : ℕ, (i : ℤ) ≤ latest → Freeable row (row.objects i))
    (hwritten : ∀ i : ℕ, (i : ℤ) < latest → Droppable row epochNr i →
      isPendingVal (row.objects i) = false) :
    ∃ row', collectRegistered row handle latest epochNr = .ok row' := by
  rw [collectRegistered]
  split_ifs with h0 hlatest
  · exact ⟨_, rfl⟩
  · obtain ⟨hle, hdrop⟩ := collectCount_spec row epochNr (min (16 * 1024) latest.toNat)
    rw [collect_eq fun i hi => ⟨hobj i (by omega), hwritten i (by omega) (hdrop i hi)⟩]
    exact ⟨_, rfl⟩
  · exact ⟨_, rfl⟩

theorem startEpoch_isOk (svc : Services) (row : VHandle) (handle : ℕ) {epochNr : ℕ}
    (hcap : row.size ≤ row.capacity) (hlatest : row.latestVersion < row.size)
    (hobj : ∀ i : ℕ, (i : ℤ) ≤ row.latestVersion → Freeable row (row.objects i))
    (hwritten : ∀ i : ℕ, (i : ℤ) < row.latestVersion → Droppable row epochNr i →
      isPendingVal (row.objects i) = false) (hepoch : epochNr ≠ 0) :
    ∃ row', startEpoch svc row handle row.latestVersion epochNr = .ok row' := by
  rw [startEpoch]
  split_ifs with hstart
  · set begun := { row with curStart := (row.latestVersion + 1).toNat } with hbegun
    have hobj' : ∀ i : ℕ, (i : ℤ) ≤ row.latestVersion → Freeable begun (begun.objects i) :=
      fun i hi => (hobj i hi).congr rfl rfl
    obtain ⟨row₁, h₁⟩ := collectRegistered_isOk handle epochNr hobj' hwritten
    obtain ⟨k, hd, -⟩ := collectRegistered_spec (by exact hcap) (by rfl) h₁
    have hsize : row₁.size + k = row.size := hd.size
    have hlatest₁ : row₁.latestVersion = row.latestVersion - k := hd.latest
    -- the latest written object is one of those that the row held before
    have hgarbage : ∃ b, findGarbage row₁ (decide (row.latestVersion ≥ 16 * 1024)) = .ok b := by
      rw [findGarbage]
      split_ifs with hg
      · have hfree := hobj' (k + row₁.latestVersion.toNat) (by push_cast; omega)
        rw [← hd.objects _ (by omega)] at hfree
        exact hfree.congr hd.addr hd.inlineUsed
      · exact ⟨_, rfl⟩
    obtain ⟨b, hb⟩ := hgarbage
    obtain ⟨row', hreg⟩ : ∃ row', registerGarbage svc row₁ b epochNr = .ok row' := by
      rw [registerGarbage, if_neg hepoch]
      split_ifs
      · exact ⟨_, rfl⟩
      · exact ⟨_, rfl⟩
    refine ⟨row', ?_⟩
    rw [h₁]
    change (findGarbage row₁ (decide (row.latestVersion ≥ 16 * 1024)) >>= fun garbageLeft =>
      registerGarbage svc row₁ garbageLeft epochNr) = .ok row'
    rw [hb]
    exact hreg
  · exact ⟨_, rfl⟩

/-- **`IncreaseSize` aborts only when the allocator has no memory**, when it finds a pointer into a
row that is not inlined or an old version that is pending, or in the loader's epoch. -/
theorem increaseSize_isOk (delta : ℕ) {epochNr : ℕ} (hcap : row.size ≤ row.capacity)
    (hlatest : row.latestVersion < row.size) (hobj : ∀ i < row.size, Freeable row (row.objects i))
    (hwritten : ∀ i, Droppable row epochNr i → isPendingVal (row.objects i) = false)
    (halloc : ∀ m ≤ row.size + delta, ∃ mem, svc.alloc (2 * newCapacity m) = some mem)
    (hepoch : epochNr ≠ 0) : ∃ row', increaseSize svc row delta epochNr = .ok row' := by
  obtain ⟨row₁, h₁⟩ : ∃ row₁, collectBeforeGrowth row delta epochNr = .ok row₁ := by
    rw [collectBeforeGrowth]
    split_ifs with hgrow
    · have hdrop := (collectCount_spec row epochNr (16 * 1024)).2
      rw [collect_eq fun i hi => ⟨hobj i (Nat.lt_of_succ_lt (hdrop i hi).1),
        hwritten i (hdrop i hi)⟩]
      exact ⟨_, rfl⟩
    · exact ⟨_, rfl⟩
  obtain ⟨k, hspec, -⟩ := collectBeforeGrowth_spec hcap h₁
  have hd := hspec.dropped
  have hsize := hd.size
  have hlatest₁ := hd.latest
  obtain ⟨row₂, h₂⟩ : ∃ row₂, enlarge svc { row₁ with size := row₁.size + delta } = .ok row₂ := by
    rw [enlarge]
    split_ifs with hgrow
    · obtain ⟨mem, hmem⟩ := halloc (row₁.size + delta) (by omega)
      simp only [hmem]
      exact ⟨_, rfl⟩
    · exact ⟨_, rfl⟩
  have hb := booked_fillPending (by rw [hd.capacity]; omega) h₂
  have hb_size := hb.size
  obtain ⟨f, cap, size, aff, heq⟩ := hb.eq
  obtain ⟨row', h'⟩ := startEpoch_isOk svc (fillPending row₂ delta) row.gcHandle
    hb.size_le (by rw [hb_size, heq]; simp only; omega)
    (fun i hi => by
      rw [heq] at hi
      simp only at hi
      rw [hb.objects i (by omega), hd.objects i (by omega)]
      refine (hobj (k + i) (by omega)).congr ?_ ?_
      · rw [heq, ← hd.addr]
      · rw [heq, ← hd.inlineUsed])
    (fun i hi hdrop => by
      rw [heq] at hi
      simp only at hi
      -- the slot after a dropped one was there before
      obtain ⟨-, hepoch⟩ := hdrop
      rw [hb.versions (i + 1) (by rw [hd.capacity]; omega),
        hd.versions (i + 1) (by omega)] at hepoch
      rw [hb.objects i (by omega), hd.objects i (by omega)]
      exact hwritten (k + i) ⟨by omega, hepoch⟩) hepoch
  refine ⟨row', ?_⟩
  rw [increaseSize, h₁]
  change (enlarge svc { row₁ with size := row₁.size + delta } >>= fun row₂ =>
    startEpoch svc (fillPending row₂ delta) row.gcHandle row₁.latestVersion epochNr) = .ok row'
  rw [h₂]
  change startEpoch svc (fillPending row₂ delta) row.gcHandle row₁.latestVersion epochNr = .ok row'
  rw [← h', heq]

end Felis.Row
