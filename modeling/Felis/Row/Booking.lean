import Felis.Row.Collect
import Felis.Row.Recycle

/-!
# Booking room in a row

`IncreaseSize` grows the arrays, collects at two places and moves `cur_start`. Here it is looked at
together with the array it gives back: `EnlargePair64Array` frees the old array unless it is the one
at offset 64 of the row, with the core in `alloc_by_regionid` and the size class of the capacity.

* `Placed` is a row with the address of its array and the arrays that the region has handed out;
* `booking_consistent`: in the append phase of every run in which no write is misled, the call keeps
  what is not collected, books pending slots, puts `cur_start` behind the versions of earlier
  epochs, and frees the array that was handed out;
* `booking_misplaced`: after a misled write, a booked slot is taken for an old version.
-/

namespace Felis.Row

open Cells Util Runs List Option

/-! ## What is booked -/

/-- What `IncreaseSize` is for: of the pairs the oldest `k` are collected, the others keep their
order, and the booked slots are pending. All versions of earlier epochs are before `cur_start`. -/
structure BooksRoom (row row' : VHandle) (delta epochNr k : ℕ) : Prop where
  kept : row'.entries.take (row'.size - delta) = row.entries.drop k
  collected : ∀ i < k, Droppable row epochNr i
  size : row'.size + k = row.size + delta
  size_le : row'.size ≤ row'.capacity
  pending : ∀ i, row'.size - delta ≤ i → i < row'.size → row'.objects i = kPendingValue
  latest : (row'.curStart : ℤ) = row'.latestVersion + 1
  curStart : row'.curStart + k = row.nrBefore epochNr

variable {delta : ℕ}

theorem History.Inv.booksRoom {h : History} {nrOld : ℕ} (hi : h.Inv nrOld)
    (hexec : h.executing = false) {svc : Services} {row' : VHandle}
    (hrow : increaseSize svc h.row delta h.epoch = .ok row') :
    ∃ k, BooksRoom h.row row' delta h.epoch k := by
  obtain ⟨k, hg⟩ := increaseSize_spec hi.exec.size_le hi.exec.latest_lt hrow
  have hk := hi.lt_of_droppable hg.droppable
  have hold := hi.exec.nrOld_le
  have hsize := hg.size
  have hlatest := hi.appending hexec
  have hlatest' := hg.latest
  have hcur := hg.curStart (by omega)
  refine ⟨k, ?_, hg.droppable, hsize, hg.size_le, fun i hi' => hg.pending i (by omega), hcur, ?_⟩
  · rw [VHandle.entries, VHandle.entries, drop_seg _ _ (by omega), take_seg _ _ (by omega),
      show row'.size - delta = h.row.size - k by omega]
    refine seg_congr fun i hlt => ?_
    rw [Nat.zero_add, Nat.zero_add, hg.versions i (by omega), hg.objects i (by omega)]
  · rw [hi.nrBefore_eq]
    omega

/-! ## What the second collection inspects -/

/-- The row and the limit that the second collection of `IncreaseSize` gets, when it is made. -/
def secondCollect (svc : Services) (row : VHandle) (delta epochNr : ℕ) : Option (VHandle × ℕ) := do
  let row₁ ← (collectBeforeGrowth row delta epochNr).toOption
  let row₂ ← (enlarge svc { row₁ with size := row₁.size + delta }).toOption
  if (row₂.curStart : ℤ) ≠ row₁.latestVersion + 1 ∧ row.gcHandle ≠ 0 ∧ row₁.latestVersion > 0 then
    some ({ fillPending row₂ delta with curStart := (row₁.latestVersion + 1).toNat },
      min (16 * 1024) row₁.latestVersion.toNat)
  else none

/-- `Collect` looks at the version word `j`. -/
def Inspects (row : VHandle) (epochNr limit j : ℕ) : Prop :=
  ∃ i, j = i + 1 ∧ i ≤ collectCount row epochNr limit ∧ i + 1 < row.size ∧ i < limit

theorem inspects_lt {svc : Services} {row r : VHandle} {delta epochNr limit j : ℕ}
    (hcap : row.size ≤ row.capacity) (hlatest : row.latestVersion < row.size)
    (h : secondCollect svc row delta epochNr = some (r, limit)) (hj : Inspects r epochNr limit j) :
    j + delta < r.size := by
  simp only [secondCollect, Option.bind_eq_bind, Option.bind_eq_some_iff] at h
  obtain ⟨row₁, h₁, row₂, h₂, h⟩ := h
  split_ifs at h with hcond
  cases h
  cases hb : collectBeforeGrowth row delta epochNr with
  | error e => rw [hb] at h₁; cases h₁
  | ok row₁' =>
    rw [hb] at h₁
    cases h₁
    obtain ⟨k, hspec, -⟩ := collectBeforeGrowth_spec hcap hb
    cases he : enlarge svc { row₁ with size := row₁.size + delta } with
    | error e => rw [he] at h₂; cases h₂
    | ok row₂' =>
      rw [he] at h₂
      cases h₂
      obtain ⟨f, cap, aff, rfl⟩ := (enlarge_spec he).eq
      obtain ⟨i, rfl, -, -, hlim⟩ := hj
      have hsize := hspec.dropped.size
      have hl := hspec.dropped.latest
      simp only [fillPending]
      omega

/-! ## The arrays of the region -/

/-- `SizeToClass`, `none` for `-1`. -/
def sizeToClass (sz : ℕ) : Option ℕ :=
  let idx := highestBit (sz - 1) + 1 - 5
  if idx ≥ 20 then none else some idx

/-- `EnlargePair64Array` asks for a class that exists. -/
theorem sizeToClass_newCapacity {size : ℕ} (h : size < 2 ^ 20) :
    (sizeToClass (8 * (2 * newCapacity size))).isSome := by
  have hle : newCapacity size ≤ 2 ^ 20 := by
    refine max_le (by norm_num) (Nat.pow_le_pow_right (by norm_num) ?_)
    exact Nat.log_lt_of_lt_pow' (by norm_num) h
  have hbit : highestBit (8 * (2 * newCapacity size) - 1) < 24 :=
    Nat.log_lt_of_lt_pow' (by norm_num) (by omega)
  rw [sizeToClass, if_neg (by omega)]
  rfl

/-- An array of the data region, with the core and the class it is allocated with. -/
structure Array64 where
  ptr : ℕ
  core : ℕ
  cls : Option ℕ
  deriving DecidableEq

/-- What `EnlargePair64Array` passes to `Free`. -/
def freeOld (row : VHandle) (ptr : ℕ) : Option Array64 :=
  if (ptr : ℤ) - row.addr ≠ 64 then
    some ⟨ptr, row.allocByRegionid, sizeToClass (2 * (8 * row.capacity))⟩
  else none

/-- What decides about the array that is given back. -/
def VHandle.home (row : VHandle) : ℕ × ℕ × ℕ := (row.addr, row.capacity, row.allocByRegionid)

theorem freeOld_congr {row row' : VHandle} (h : row'.home = row.home) (ptr : ℕ) :
    freeOld row' ptr = freeOld row ptr := by
  obtain ⟨haddr, hcap, haff⟩ : _ ∧ _ ∧ _ := by simpa [VHandle.home] using h
  rw [freeOld, freeOld, haddr, hcap, haff]

section

variable {svc : Services} {row row' : VHandle} {epochNr : ℕ}

theorem home_collect {limit : ℕ} {c : Collected} (h : collect row epochNr limit = .ok c) :
    c.row.home = row.home := by
  rw [collect] at h
  by_cases h0 : collectCount row epochNr limit = 0
  · rw [if_pos h0] at h
    cases h
    rfl
  · rw [if_neg h0] at h
    obtain ⟨freed, -, h⟩ := bind_ok h
    cases h
    rfl

theorem home_collectBeforeGrowth (h : collectBeforeGrowth row delta epochNr = .ok row') :
    row'.home = row.home := by
  rw [collectBeforeGrowth] at h
  split_ifs at h
  · obtain ⟨c, hc, rfl⟩ := map_ok h
    exact home_collect hc
  · cases h
    rfl

theorem home_startEpoch {handle : ℕ} {latest : ℤ}
    (h : startEpoch svc row handle latest epochNr = .ok row') : row'.home = row.home := by
  rw [startEpoch] at h
  split_ifs at h
  · obtain ⟨row₁, h₁, h⟩ := bind_ok h
    obtain ⟨garbage, -, h⟩ := bind_ok h
    obtain ⟨g, rfl⟩ := registerGarbage_eq h
    change row₁.home = row.home
    rw [collectRegistered] at h₁
    split_ifs at h₁
    · cases h₁
      rfl
    · obtain ⟨c, hc, rfl⟩ := map_ok h₁
      exact (home_collect hc).trans rfl
    · cases h₁
      rfl
  · cases h
    rfl

/-- The row whose array `IncreaseSize` replaces, and the capacity and core of the new array. -/
def replaces (svc : Services) (row : VHandle) (delta epochNr : ℕ) : Option (VHandle × ℕ × ℕ) :=
  match collectBeforeGrowth row delta epochNr with
  | .ok row =>
    if row.size + delta > row.capacity then
      some (row, newCapacity (row.size + delta), svc.affinity)
    else none
  | .error _ => none

theorem home_of_replaces {r : VHandle × ℕ × ℕ} (h : replaces svc row delta epochNr = some r) :
    r.1.home = row.home := by
  rw [replaces] at h
  split at h
  · rename_i row₁ h₁
    split_ifs at h
    cases h
    exact home_collectBeforeGrowth h₁
  · cases h

/-- **Where the array of a row is after `IncreaseSize`.** -/
theorem home_increaseSize (h : increaseSize svc row delta epochNr = .ok row') :
    row'.home = (replaces svc row delta epochNr).elim row.home fun r => (row.addr, r.2) := by
  obtain ⟨row₁, h₁, h⟩ := bind_ok h
  obtain ⟨row₂, h₂, h⟩ := bind_ok h
  have hhome := home_collectBeforeGrowth h₁
  rw [home_startEpoch h, replaces, h₁]
  change row₂.home = _
  rw [enlarge] at h₂
  simp only at h₂ ⊢
  split_ifs at h₂ ⊢ with hsize
  · cases halloc : svc.alloc (2 * newCapacity (row₁.size + delta)) with
    | none => rw [halloc] at h₂; cases h₂
    | some mem =>
      rw [halloc] at h₂
      cases h₂
      exact congrArg (·, _, _) (congrArg Prod.fst hhome)
  · cases h₂
    exact hhome

theorem home_appendBatch {sids : List ℕ} (h : appendBatch svc row sids epochNr = .ok row') :
    row'.home = (replaces svc row sids.length epochNr).elim row.home fun r => (row.addr, r.2) := by
  obtain ⟨mid, hmid, h⟩ := bind_ok h
  cases h
  obtain ⟨f, hf⟩ := flushLoop_frame (sids.mergeSort (· ≤ ·)).reverse mid (mid.size - sids.length)
  rw [hf]
  exact (home_increaseSize hmid : mid.home = _)

theorem home_writeWithVersion {sid obj : ℕ}
    (h : writeWithVersion svc row sid obj epochNr = .ok row') : row'.home = row.home := by
  obtain ⟨it, -, h⟩ := bind_ok h
  rw [publish_offerData_eq] at h
  obtain ⟨n, a, g, rfl⟩ := finishWrite_eq h
  rfl

end

/-! ## Runs -/

/-- What an event replaces. -/
def Event.replaces (h : History) : Event → Option (VHandle × ℕ × ℕ)
  | .append svc _ weight =>
    Row.replaces svc (addOndsplt h.row weight) 1 h.epoch
  | .batch svc sids => Row.replaces svc h.row sids.length h.epoch
  | _ => none

theorem Event.home_of_replaces {h : History} {ev : Event} {r : VHandle × ℕ × ℕ}
    (hr : ev.replaces h = some r) : r.1.home = h.row.home := by
  cases ev with
  | append svc sid weight => exact (Row.home_of_replaces hr).trans rfl
  | batch svc sids => exact Row.home_of_replaces hr
  | beginEpoch | collect | write | read => cases hr

/-- An event leaves the array in its place, or takes another one. -/
theorem home_step {h h' : History} {ev : Event} (hstep : h.step ev = some h') :
    h'.row.home = (ev.replaces h).elim h.row.home fun r => (h.row.addr, r.2) := by
  cases ev with
  | beginEpoch e =>
    simp only [History.step, ite_none_right_eq_some, some_inj] at hstep
    obtain ⟨-, rfl⟩ := hstep
    rfl
  | append svc sid weight =>
    simp only [History.step, ite_none_right_eq_some, toOption_map_eq_some] at hstep
    obtain ⟨-, row', hrow, rfl⟩ := hstep
    rw [appendNewVersionNoLock_eq] at hrow
    exact home_appendBatch hrow
  | batch svc sids =>
    simp only [History.step, ite_none_right_eq_some, toOption_map_eq_some] at hstep
    obtain ⟨-, row', hrow, rfl⟩ := hstep
    exact home_appendBatch hrow
  | collect limit =>
    simp only [History.step, ite_none_right_eq_some, toOption_map_eq_some] at hstep
    obtain ⟨-, c, hc, rfl⟩ := hstep
    exact home_collect hc
  | write svc sid obj =>
    simp only [History.step, ite_none_right_eq_some, toOption_map_eq_some] at hstep
    obtain ⟨-, row', hrow, rfl⟩ := hstep
    exact home_writeWithVersion hrow
  | read sid core =>
    simp only [History.step, ite_none_right_eq_some] at hstep
    obtain ⟨-, hstep⟩ := hstep
    split at hstep
    · cases hstep
      change (waitForData _ _ _).home = _
      rw [waitForData]
      split_ifs <;> rfl
    · cases hstep
      rfl
    · cases hstep

/-- A row, where its array is, and the arrays of the region that it holds. -/
structure Placed where
  hist : History
  ptr : ℕ
  held : List Array64

namespace Placed

/-- A newly created row with its embedded array. -/
def start (c : Creation) : Placed := ⟨.start c, c.addr + 64, []⟩

/-- An event of the row, with the address and the contents of the array that it may need. -/
structure Event where
  ev : Row.Event
  ptr : ℕ
  mem : ℕ → ℕ

/-- The region has no arrays of other classes. -/
def Event.alloc (e : Event) (words : ℕ) : Option (ℕ → ℕ) :=
  if (sizeToClass (8 * words)).isSome then some e.mem else none

/-- The event of the row, with arrays from the region. -/
def Event.row (e : Event) : Row.Event := e.ev.withAlloc e.alloc

def step (s : Placed) (e : Event) : Option Placed :=
  (s.hist.step e.row).map fun hist =>
    match e.row.replaces s.hist with
    | some (row, cap, core) =>
      ⟨hist, e.ptr, ⟨e.ptr, core, sizeToClass (2 * (8 * cap))⟩ ::
        s.held.filter fun a => freeOld row s.ptr ≠ some a⟩
    | none => ⟨hist, s.ptr, s.held⟩

/-- No write is misled, and the region hands out memory outside of the row. -/
def Fair (s : Placed) (e : Event) : Prop :=
  s.hist.PastCellClear e.row ∧ e.ptr ≠ s.hist.row.addr + 64

instance (s : Placed) (e : Event) : Decidable (s.Fair e) := inferInstanceAs (Decidable (_ ∧ _))

/-- The row agrees with its history, and it holds the array that `Free` would get. -/
structure Inv (s : Placed) : Prop where
  hist : ∃ nrOld, s.hist.Inv nrOld
  held : s.held = (freeOld s.hist.row s.ptr).toList

theorem inv_start (c : Creation) : (start c).Inv := by
  refine ⟨⟨0, History.inv_start c⟩, ?_⟩
  have hembedded : ((c.addr + 64 : ℕ) : ℤ) - c.addr = 64 := by omega
  have hfree : freeOld c.row (c.addr + 64) = none := if_neg (not_not.2 hembedded)
  exact (congrArg toList hfree).symm

theorem Inv.step {s t : Placed} {e : Event} (hi : s.Inv) (hfair : s.Fair e)
    (hstep : s.step e = some t) : t.Inv := by
  obtain ⟨nrOld, hrow⟩ := hi.hist
  obtain ⟨hist, hhist, rfl⟩ := map_eq_some_iff.1 hstep
  have hinv := hrow.step hfair.1 hhist
  have hhome := home_step hhist
  split
  · rename_i row cap core hr
    refine ⟨hinv, ?_⟩
    -- what was held is freed, and the new array is recorded as it was asked for
    have hfreed : s.held.filter (fun a => freeOld row s.ptr ≠ some a) = [] := by
      rw [hi.held, ← freeOld_congr (Event.home_of_replaces hr)]
      cases freeOld row s.ptr <;> simp
    rw [hr] at hhome
    obtain ⟨haddr, hcap, hcore⟩ : hist.row.addr = s.hist.row.addr ∧ hist.row.capacity = cap ∧
        hist.row.allocByRegionid = core := by simpa [VHandle.home] using hhome
    have hout := hfair.2
    simp only [hfreed]
    rw [freeOld, if_pos (by omega), hcap, hcore]
    rfl
  · rename_i hr
    refine ⟨hinv, ?_⟩
    rw [hr] at hhome
    exact hi.held.trans (congrArg toList (freeOld_congr hhome s.ptr).symm)

/-! ## The result -/

/-- What a call of `IncreaseSize` does to the row. -/
structure Books (s : Placed) (svc : Services) (delta : ℕ) : Prop where
  room : ∀ row', increaseSize svc s.hist.row delta s.hist.epoch = .ok row' →
    ∃ k, BooksRoom s.hist.row row' delta s.hist.epoch k
  /-- It returns when the region has memory in its classes, and the collector can tell garbage. -/
  returns : s.hist.epoch ≠ 0 → (∀ i < s.hist.row.size, Freeable s.hist.row (s.hist.row.objects i)) →
    (∀ n, (sizeToClass (8 * n)).isSome → ∃ mem, svc.alloc n = some mem) →
    s.hist.row.size + delta < 2 ^ 20 →
    ∃ row', increaseSize svc s.hist.row delta s.hist.epoch = .ok row'
  /-- The words that the second collection inspects are before the booked slots. -/
  booked : ∀ r limit, secondCollect svc s.hist.row delta s.hist.epoch = some (r, limit) →
    ∀ j, Inspects r s.hist.epoch limit j → j + delta < r.size
  /-- What it frees is what the region has handed out. -/
  frees : ∀ r, replaces svc s.hist.row delta s.hist.epoch = some r →
    (freeOld r.1 s.ptr).toList = s.held

/-- **Booking keeps the row consistent.** -/
theorem booking_consistent (c : Creation) (es : List Event) (s : Placed)
    (hfair : Along step Fair (start c) es) (hrun : run step (start c) es = some s)
    (hphase : s.hist.executing = false) (svc : Services) (delta : ℕ) : s.Books svc delta := by
  have hi : s.Inv := run_invariant (fun s e t hi hok hstep => Inv.step hi hok hstep) es _ s
    (inv_start c) hfair hrun
  obtain ⟨nrOld, hrow⟩ := hi.hist
  refine ⟨fun row' => hrow.booksRoom hphase, fun hepoch hobj halloc hsize => ?_,
    fun r limit h j => inspects_lt hrow.exec.size_le hrow.exec.latest_lt h, fun r hr => ?_⟩
  · refine increaseSize_isOk delta hrow.exec.size_le hrow.exec.latest_lt hobj (fun i hi => ?_)
      (fun m hm => halloc _ (sizeToClass_newCapacity (by omega))) hepoch
    exact (hrow.written_of_old (Nat.lt_of_succ_lt (hrow.old_of_droppable hi))).2
  · rw [freeOld_congr (home_of_replaces hr), hi.held]

/-- The events of a row, with arrays that are cleared. -/
def inOrder (evs : List Row.Event) : List Event := evs.map fun ev => ⟨ev, 0x10000, fun _ => 0⟩

open History (sidOf plainRow indexRow)

/-- Six versions of the first epoch, so that the row has an array of the region, and two of the
second. -/
def sixVersions : List Event :=
  inOrder <| .beginEpoch 1 :: ((List.range 6).map fun k => .append clearedMemory (sidOf 1 k) 0) ++
    ((List.range 6).map fun k => .write clearedMemory (sidOf 1 k) 0x2000) ++
    [.beginEpoch 2, .append clearedMemory (sidOf 2 1) 0]

theorem booking_consistent_sixVersions : ∃ s, run step (start indexRow) sixVersions = some s ∧
    s.held = [⟨0x10000, 0, some 2⟩] ∧ s.Books clearedMemory 12 := by
  obtain ⟨s, hrun, hphase, hheld⟩ : ∃ s, run step (start indexRow) sixVersions = some s ∧
      s.hist.executing = false ∧ s.held = [⟨0x10000, 0, some 2⟩] := by decide +kernel
  exact ⟨s, hrun, hheld, booking_consistent _ sixVersions s (by decide +kernel) hrun hphase _ _⟩

/-- **A misled write has a booked slot inspected.** The write past the versions left
`latest_version` equal to the size, so the collection of the next epoch takes the slot that is being
booked for a version of an earlier epoch. It would drop all three versions of the row, and fails at
the object of the second one, which has stayed pending. -/
theorem booking_misplaced : ∃ s,
    run step (start plainRow) (inOrder (History.staleCell ++ [.beginEpoch 3])) = some s ∧
      s.hist.executing = false ∧ ¬ s.Books clearedMemory 1 ∧
      (increaseSize clearedMemory s.hist.row 1 s.hist.epoch).toOption.isNone := by
  obtain ⟨s, hrun, hphase, ⟨⟨r, limit⟩, hsecond, hcount, hsize, hlimit⟩, hfails⟩ : ∃ s,
      run step (start plainRow) (inOrder (History.staleCell ++ [.beginEpoch 3])) = some s ∧
        s.hist.executing = false ∧
        (∃ r, secondCollect clearedMemory s.hist.row 1 s.hist.epoch = some r ∧
          collectCount r.1 s.hist.epoch r.2 = 3 ∧ r.1.size = 4 ∧ r.2 = 3) ∧
        (increaseSize clearedMemory s.hist.row 1 s.hist.epoch).toOption.isNone := by
    decide +kernel
  simp only at hcount hsize hlimit
  refine ⟨s, hrun, hphase, fun hbooks => ?_, hfails⟩
  have := hbooks.booked r limit hsecond 3 ⟨2, rfl, by omega, by omega, by omega⟩
  omega

end Placed

end Felis.Row
