import Felis.Row.Search

/-!
# Writes to rows that share recycled arrays

Several rows take their arrays from one data region. A row that outgrows its array gives it back,
and the array goes to another row as it is, but for the word that links the free list. The rows go
through their epochs as in `History`; what the allocator hands out is now an array that some row
gave back, or memory that was never used before.

* `Rows.step` is an event on one row, with the arrays it takes and gives back;
* `write_own_slot`: in every run, a write finds the slot of its version with reads inside of the
  row's block, and changes only that slot, when the cell past the versions does not hold the
  version at the time that everything is written;
* `write_recycled_cell`: the array of one row, recycled in the same epoch, misleads a write of
  another row.
-/

namespace Felis.Row

open Cells Runs Function Option

/-! ## The reads of a write -/

/-- The first part of `WriteWithVersion`, each word of the block read by `read`. -/
def writeSlotVia (read : ℤ → Except Fault ℕ) (row : VHandle) (sid : ℕ) : Except Fault ℕ := do
  let next ← read (row.latestVersion + 1)
  if next = sid then return (row.latestVersion + 1).toNat
  else
    let it ← lowerBoundVia read sid (row.size - row.curStart) row.curStart (row.size - row.curStart)
    if it = row.size then .error (.divergingOutcomes sid it row.size)
    else
      let found ← read it
      if found ≠ sid then .error (.divergingOutcomes sid it row.size) else return it

/-- All reads of `WriteWithVersion`: `OfferData` looks at the old word of the slot. -/
def offerVia (read : ℤ → Except Fault ℕ) (row : VHandle) (sid : ℕ) : Except Fault ℕ := do
  let it ← writeSlotVia read row sid
  let _ ← read ↑(row.capacity + it)
  return it

/-- A read of the block of the row. -/
def VHandle.blockAt (row : VHandle) (i : ℤ) : Except Fault ℕ :=
  if 0 ≤ i ∧ i < 2 * row.capacity then .ok (row.versions i.toNat) else .error (.outOfBounds i)

theorem blockAt_natCast {row : VHandle} {i : ℕ} (hi : i < 2 * row.capacity) :
    row.blockAt (i : ℕ) = .ok (row.versions i) := by
  rw [VHandle.blockAt, if_pos (by omega), Int.toNat_natCast]

namespace Executing

variable {row : VHandle} {nrOld : ℕ}

theorem writeSlotVia_blockAt (h : Executing row nrOld) (hnew : nrOld < row.size) (sid : ℕ) :
    writeSlotVia row.blockAt row sid = writeSlot row sid := by
  have hcap := h.size_le
  have hge := h.latest_ge
  have hlt := h.latest_lt
  have hstart := h.curStart hnew
  obtain ⟨next, hnext⟩ : ∃ next : ℕ, row.latestVersion + 1 = next :=
    ⟨_, (Int.toNat_of_nonneg (by omega)).symm⟩
  have hread : ∀ i < row.size, row.blockAt (i : ℕ) = .ok (row.versions i) := fun i hi =>
    blockAt_natCast (by omega)
  have hbound := (h.lowerBound_splits sid row.curStart row.size (by omega) le_rfl).le_hi
  rw [writeSlotVia, writeSlot, hnext, blockAt_natCast (by omega), Int.toNat_natCast,
    lowerBoundVia_eq hread _ _ _ _ (by omega)]
  rw [lowerBound] at hbound ⊢
  generalize lowerBoundLoop row.versions sid (row.size - row.curStart) row.curStart
    (row.size - row.curStart) = it at hbound ⊢
  change ite _ _ (ite _ _ _) = _
  simp only
  by_cases heq : row.versions next = sid
  · rw [if_pos heq, if_pos heq]
    rfl
  · rw [if_neg heq, if_neg heq]
    by_cases hend : it = row.size
    · rw [if_pos hend, if_pos (.inl hend)]
    · rw [if_neg hend, hread it (by omega)]
      change ite _ _ _ = _
      by_cases hfound : row.versions it ≠ sid
      · rw [if_pos hfound, if_pos (.inr hfound)]
      · rw [if_neg hfound, if_neg (not_or.2 ⟨hend, hfound⟩)]
        rfl

/-- Every read of a write of a version of the epoch is inside of the block. -/
theorem offerVia_blockAt (h : Executing row nrOld) {i : ℕ} (hi : nrOld ≤ i) (hsize : i < row.size)
    (hpast : row.latestVersion + 1 = row.size → row.versions row.size ≠ row.versions i) :
    offerVia row.blockAt row (row.versions i) = .ok i := by
  have hcap := h.size_le
  rw [offerVia, h.writeSlotVia_blockAt (by omega), h.writeSlot_spec hi hsize hpast]
  change VHandle.blockAt row _ >>= _ = _
  rw [blockAt_natCast (by omega)]
  rfl

end Executing

theorem leavesGarbage_isOk {row : VHandle} {obj epochNr : ℕ} (it : ℕ) (hobj : Freeable row obj)
    (hepoch : epochNr ≠ 0) : ∃ b, leavesGarbage row it obj epochNr = .ok b := by
  obtain ⟨b, hb⟩ := hobj
  rw [leavesGarbage]
  by_cases hlast : it + 1 = row.size
  · exact ⟨false, if_pos hlast⟩
  · rw [if_neg hlast, hb]
    change ∃ b', ite _ _ _ = _
    rw [if_neg hepoch]
    split_ifs
    · exact ⟨true, rfl⟩
    · exact ⟨false, rfl⟩

/-- A write whose registration with the collector is not refused returns. -/
theorem writeWithVersion_isOk {svc : Services} {row : VHandle} {sid obj epochNr it : ℕ}
    (hit : writeSlot row sid = .ok it) (hobj : Freeable row obj) (hepoch : epochNr ≠ 0) :
    ∃ row', writeWithVersion svc row sid obj epochNr = .ok row' := by
  rw [writeWithVersion, hit]
  change ∃ row', finishWrite svc (publish (offerData row it obj) row.latestVersion it) it obj
    epochNr = .ok row'
  have hfree : Freeable (publish (offerData row it obj) row.latestVersion it) obj := by
    rw [publish_offerData_eq]
    exact hobj.congr rfl rfl
  obtain ⟨b, hb⟩ := leavesGarbage_isOk it hfree hepoch
  exact ⟨_, by rw [finishWrite, hb]; rfl⟩

/-- A write of `sid` reads inside of the block only, finds the slot of `sid` and changes no other;
it returns when the collector does not refuse the object. -/
structure WritesOwnSlot (row : VHandle) (sid p : ℕ) : Prop where
  lt_size : p < row.size
  version : row.versions p = sid
  reads : offerVia row.blockAt row sid = .ok p
  slot : writeSlot row sid = .ok p
  returns : ∀ svc obj epochNr, Freeable row obj → epochNr ≠ 0 →
    ∃ row', writeWithVersion svc row sid obj epochNr = .ok row'
  wrote : ∀ svc obj epochNr row', writeWithVersion svc row sid obj epochNr = .ok row' →
    Wrote row row' p obj ∧ row'.latestVersion < row'.size

theorem Executing.writesOwnSlot {row : VHandle} {nrOld p : ℕ} (h : Executing row nrOld)
    (hp : nrOld ≤ p) (hsize : p < row.size)
    (hpast : row.latestVersion + 1 = row.size → row.versions row.size ≠ row.versions p) :
    WritesOwnSlot row (row.versions p) p := by
  have hslot := h.writeSlot_spec hp hsize hpast
  refine ⟨hsize, rfl, h.offerVia_blockAt hp hsize hpast, hslot,
    fun svc obj epochNr => writeWithVersion_isOk hslot, fun svc obj epochNr row' hrow => ?_⟩
  have hwrote := writeWithVersion_spec hslot hrow
  have hlt := h.latest_lt
  refine ⟨hwrote, ?_⟩
  rw [hwrote.latest, hwrote.size]
  omega

/-! ## Rows with a common data region -/

/-- An array in the data region. -/
structure Block where
  words : ℕ
  mem : ℕ → ℕ

/-- Where the data region takes an array from: memory never used before, or the `k`-th array that
was given back, whose first word links the free list. -/
inductive Origin
  | fresh (mem : ℕ → ℕ)
  | recycled (k link : ℕ)

/-- The contents of an array of `words` words from the data region. -/
def Origin.alloc (freed : List Block) (words : ℕ) : Origin → Option (ℕ → ℕ)
  | .fresh mem => some mem
  | .recycled k link =>
    match freed[k]? with
    | some block => if block.words = words then some (update block.mem 0 link) else none
    | none => none

/-- The arrays that are still free after one was taken. -/
def Origin.rest (freed : List Block) : Origin → List Block
  | .fresh _ => freed
  | .recycled k _ => freed.eraseIdx k

namespace Event

/-- The event with arrays from the given allocator. -/
def withAlloc (alloc : ℕ → Option (ℕ → ℕ)) : Event → Event
  | .append svc sid weight => .append { svc with alloc := alloc } sid weight
  | .batch svc sids => .batch { svc with alloc := alloc } sids
  | ev => ev

/-- By how much the event asks `IncreaseSize` to grow the row. -/
def delta : Event → ℕ
  | .append .. => 1
  | .batch _ sids => sids.length
  | _ => 0

end Event

/-- Whether the event makes `IncreaseSize` take a new array, and the row it copies from. -/
def outgrown (h : History) (ev : Event) : Option VHandle :=
  match collectBeforeGrowth h.row ev.delta h.epoch with
  | .ok row => if row.size + ev.delta > row.capacity then some row else none
  | .error _ => none

/-- The array of a row, unless it is the one embedded in the row. The latter has room for 4 versions
or for one, and `newCapacity` is at least 8. -/
def VHandle.heapBlock (row : VHandle) : List Block :=
  if row.capacity < 8 then [] else [⟨2 * row.capacity, row.versions⟩]

/-- Rows through their epochs, and the arrays they gave back. -/
structure Rows (n : ℕ) where
  rows : Fin n → History
  freed : List Block

namespace Rows

open History (sidOf)

variable {n : ℕ}

/-- An epoch begins for all rows, or something happens to one row, with the origin of the array
that it may need. -/
inductive Event (n : ℕ)
  | beginEpoch (epochNr : ℕ)
  | row (i : Fin n) (origin : Origin) (ev : Row.Event)

def start (c : Fin n → Creation) : Rows n where
  rows i := .start (c i)
  freed := []

/-- The arrays that are free after an event on a row in state `h`. -/
def freedAfter (freed : List Block) (h : History) (origin : Origin) (ev : Row.Event) :
    List Block :=
  match outgrown h ev with
  | some row => row.heapBlock ++ origin.rest freed
  | none => freed

/-- One event. Only the event for all rows begins an epoch. -/
def step (s : Rows n) : Event n → Option (Rows n)
  | .beginEpoch e =>
    if h : ∀ i, ((s.rows i).step (.beginEpoch e)).isSome then
      some { s with rows := fun i => ((s.rows i).step (.beginEpoch e)).get (h i) }
    else none
  | .row _ _ (.beginEpoch _) => none
  | .row i origin ev =>
    ((s.rows i).step (ev.withAlloc fun words => origin.alloc s.freed words)).map fun h' =>
      { rows := update s.rows i h'
        freed := freedAfter s.freed (s.rows i) origin ev }

/-- A write to a row whose versions are all written does not find its serial id in the cell past
the versions. -/
def PastCellClear (s : Rows n) : Event n → Prop
  | .beginEpoch _ => True
  | .row i _ ev => (s.rows i).PastCellClear ev

instance (s : Rows n) (ev : Event n) : Decidable (s.PastCellClear ev) :=
  match ev with
  | .beginEpoch _ => inferInstanceAs (Decidable True)
  | .row i _ ev => inferInstanceAs (Decidable ((s.rows i).PastCellClear ev))

def Inv (s : Rows n) : Prop := ∀ i, ∃ nrOld, (s.rows i).Inv nrOld

theorem inv_start (c : Fin n → Creation) : (start c).Inv := fun _ => ⟨0, History.inv_start _⟩

theorem pastCellClear_withAlloc {h : History} {alloc : ℕ → Option (ℕ → ℕ)} {ev : Row.Event}
    (hclear : h.PastCellClear ev) : h.PastCellClear (ev.withAlloc alloc) := by
  cases ev with
  | write svc sid obj => exact hclear
  | beginEpoch | append | batch | collect | read => trivial

/-- An event on one row, whatever the arrays hold. -/
theorem Inv.row {s s' : Rows n} {i : Fin n} {origin : Origin} {ev : Row.Event} (hi : s.Inv)
    (hclear : s.PastCellClear (.row i origin ev)) (hstep : s.step (.row i origin ev) = some s') :
    s'.Inv := by
  obtain ⟨h', hrow, rfl⟩ : ∃ h',
      (s.rows i).step (ev.withAlloc fun words => origin.alloc s.freed words) = some h' ∧
        { rows := update s.rows i h'
          freed := freedAfter s.freed (s.rows i) origin ev } = s' := by
    cases ev with
    | beginEpoch e => cases hstep
    | append | batch | collect | write | read => exact map_eq_some_iff.1 hstep
  intro j
  by_cases hji : j = i
  · subst hji
    obtain ⟨nrOld, hrows⟩ := hi j
    simp only [update_self]
    exact hrows.step (pastCellClear_withAlloc hclear) hrow
  · simp only [update_of_ne hji]
    exact hi j

theorem Inv.step {s s' : Rows n} {ev : Event n} (hi : s.Inv) (hclear : s.PastCellClear ev)
    (hstep : s.step ev = some s') : s'.Inv := by
  cases ev with
  | beginEpoch e =>
    simp only [Rows.step, dite_none_right_eq_some, some_inj] at hstep
    obtain ⟨hall, rfl⟩ := hstep
    intro i
    obtain ⟨nrOld, hrows⟩ := hi i
    have hclear : (s.rows i).PastCellClear (.beginEpoch e) := trivial
    exact hrows.step hclear (some_get (hall i)).symm
  | row i origin ev => exact hi.row hclear hstep

/-- **A write touches only its own slot.** In every run in which no write finds its serial id in the
cell past the versions of a row that is all written, and for every next write that does not either,
whatever recycled arrays hold. -/
theorem write_own_slot (c : Fin n → Creation) (evs : List (Event n)) (s : Rows n)
    (hclear : Along step PastCellClear (start c) evs) (hrun : run step (start c) evs = some s)
    (i : Fin n) (sid : ℕ) (hmem : sid ∈ (s.rows i).appended)
    (hepoch : epochOf sid = (s.rows i).epoch)
    (hpast : (s.rows i).row.latestVersion + 1 = (s.rows i).row.size →
      (s.rows i).row.versions (s.rows i).row.size ≠ sid) :
    ∃ p, WritesOwnSlot (s.rows i).row sid p := by
  have hi : s.Inv := run_invariant (fun s e t hi hok hstep => Inv.step hi hok hstep) evs _ s
    (inv_start c) hclear hrun
  obtain ⟨nrOld, hrow⟩ := hi i
  obtain ⟨p, hge, hlt, rfl⟩ := hrow.exists_slot hmem hepoch
  exact ⟨p, hrow.exec.writesOwnSlot hge hlt hpast⟩

/-- The appends of the first row: nine versions of epoch 1, so that its array for 8 versions is
given back. -/
def nineAppends : List (Event 2) :=
  ((List.range 9).map (· + 1)).map fun k =>
    .row 0 (.fresh fun _ => 0) (.append clearedMemory (sidOf 1 k) 0)

/-- The second row gets five versions of epoch 1; the array for the last one is the one that the
first row gave back. -/
def fiveAppends : List (Event 2) :=
  ((List.range 5).map (· + 6)).map fun k =>
    .row 1 (.recycled 0 0) (.append clearedMemory (sidOf 1 k) 0)

/-- Both rows get their versions, and the last version of the second row is written first. -/
def recycledRun : List (Event 2) :=
  .beginEpoch 1 :: nineAppends ++ fiveAppends ++
    [.row 1 (.fresh fun _ => 0) (.write clearedMemory (sidOf 1 10) 0x2000)]

/-- A plain row, and one of the hash index. -/
def twoRows : Rows 2 :=
  start fun i => ⟨0x8000 + 256 * i, 0, fun _ => 0, if i = 0 then 4 else 1, 0xFF⟩

theorem write_own_slot_recycledRun : ∃ s, run step twoRows recycledRun = some s ∧
    ∃ p, WritesOwnSlot (s.rows 1).row (sidOf 1 7) p := by
  obtain ⟨s, hrun, hmem, hepoch, hpast⟩ : ∃ s, run step twoRows recycledRun = some s ∧
      sidOf 1 7 ∈ (s.rows 1).appended ∧ (s.rows 1).epoch = 1 ∧
        (s.rows 1).row.versions (s.rows 1).row.size ≠ sidOf 1 7 := by decide +kernel
  exact ⟨s, hrun, write_own_slot _ recycledRun s (by decide +kernel) hrun 1 _ hmem
    (by rw [hepoch]; decide) fun _ => hpast⟩

/-- **A recycled array misleads a write.** The sixth cell of the recycled array still holds the
sixth version of the first row, which is also the first version of the second row. When the last
version of the second row is written, the write of the first one takes that cell for its slot,
and moves `latest_version` past the versions. -/
theorem write_recycled_cell : ∃ s, run step twoRows recycledRun = some s ∧
    Along step PastCellClear twoRows recycledRun ∧
    sidOf 1 6 ∈ (s.rows 1).appended ∧ epochOf (sidOf 1 6) = (s.rows 1).epoch ∧
    (¬ ∃ p, WritesOwnSlot (s.rows 1).row (sidOf 1 6) p) ∧
    ∃ s', step s (.row 1 (.fresh fun _ => 0) (.write clearedMemory (sidOf 1 6) 0x3000)) = some s' ∧
      (s'.rows 1).row.latestVersion = (s'.rows 1).row.size := by
  obtain ⟨s, hrun, hmem, hepoch, hslot, hnext⟩ : ∃ s, run step twoRows recycledRun = some s ∧
      sidOf 1 6 ∈ (s.rows 1).appended ∧ epochOf (sidOf 1 6) = (s.rows 1).epoch ∧
        writeSlot (s.rows 1).row (sidOf 1 6) = .ok (s.rows 1).row.size ∧
        ∃ s', step s (.row 1 (.fresh fun _ => 0) (.write clearedMemory (sidOf 1 6) 0x3000)) =
          some s' ∧ (s'.rows 1).row.latestVersion = (s'.rows 1).row.size := by decide +kernel
  refine ⟨s, hrun, by decide +kernel, hmem, hepoch, ?_, hnext⟩
  rintro ⟨p, hp⟩
  have hsize := hp.lt_size
  rw [hp.slot] at hslot
  cases hslot
  exact lt_irrefl _ hsize

end Rows

end Felis.Row
