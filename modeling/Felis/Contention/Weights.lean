import Felis.Contention.Buffers
import Felis.Foundations.Collections

/-!
# The weights of on-demand splitting

`AppendNewVersion` has an `int` weight for on-demand splitting. Under the row lock the weight is
added to `nr_ondsplt`. A buffered append takes it as a `bool` and counts it in the buffer; when the
buffer is full it is passed on as a `bool`, and counted once more after that.

* `Call.counted` is what each path adds, and `counted_run` says that the row and the buffers
  together always have the sum of it;
* `weights_conserved`: nothing is lost or counted twice when the weights of the buffered appends are
  at most one, those of the appends that find a full buffer are zero or two, and the sum is an
  `int`;
* `weight_lost`: a buffered append with weight two, as `Delivery` makes it, adds one.
-/

namespace Felis.Contention

open Row Runs Function Option

/-! ## What the row functions leave alone -/

/-- The fields that growing and collecting do not touch. -/
structure SameCounters (row row' : VHandle) : Prop where
  nrOndsplt : row'.nrOndsplt = row.nrOndsplt
  bufPos : row'.bufPos = row.bufPos

section

variable {svc : Services} {row row' row'' : VHandle} {epochNr limit delta handle : ℕ}

theorem SameCounters.trans (h : SameCounters row row') (h' : SameCounters row' row'') :
    SameCounters row row'' :=
  ⟨h'.nrOndsplt.trans h.nrOndsplt, h'.bufPos.trans h.bufPos⟩

theorem sameCounters_collect {c : Collected} (h : collect row epochNr limit = .ok c) :
    SameCounters row c.row := by
  rw [collect] at h
  split_ifs at h
  · cases h
    exact ⟨rfl, rfl⟩
  · obtain ⟨freed, -, h⟩ := bind_ok h
    cases h
    exact ⟨rfl, rfl⟩

theorem sameCounters_collectBeforeGrowth (h : collectBeforeGrowth row delta epochNr = .ok row') :
    SameCounters row row' := by
  rw [collectBeforeGrowth] at h
  split_ifs at h
  · obtain ⟨c, hc, rfl⟩ := map_ok h
    exact sameCounters_collect hc
  · cases h
    exact ⟨rfl, rfl⟩

theorem sameCounters_enlarge (h : enlarge svc row = .ok row') : SameCounters row row' := by
  rw [enlarge] at h
  split_ifs at h
  · cases halloc : svc.alloc (2 * newCapacity row.size) with
    | none => simp [halloc] at h
    | some fresh =>
      simp only [halloc] at h
      cases h
      exact ⟨rfl, rfl⟩
  · cases h
    exact ⟨rfl, rfl⟩

theorem sameCounters_collectRegistered {latest : ℤ}
    (h : collectRegistered row handle latest epochNr = .ok row') : SameCounters row row' := by
  rw [collectRegistered] at h
  split_ifs at h
  · cases h
    exact ⟨rfl, rfl⟩
  · obtain ⟨c, hc, rfl⟩ := map_ok h
    exact (sameCounters_collect hc).trans ⟨rfl, rfl⟩
  · cases h
    exact ⟨rfl, rfl⟩

theorem sameCounters_startEpoch {latest : ℤ}
    (h : startEpoch svc row handle latest epochNr = .ok row') : SameCounters row row' := by
  rw [startEpoch] at h
  split_ifs at h
  · obtain ⟨row₁, h₁, h⟩ := bind_ok h
    obtain ⟨garbage, -, h⟩ := bind_ok h
    obtain ⟨g, rfl⟩ := registerGarbage_eq h
    obtain ⟨hnr, hpos⟩ := sameCounters_collectRegistered h₁
    exact ⟨hnr, hpos⟩
  · cases h
    exact ⟨rfl, rfl⟩

theorem sameCounters_increaseSize (h : increaseSize svc row delta epochNr = .ok row') :
    SameCounters row row' := by
  obtain ⟨row₁, h₁, h⟩ := bind_ok h
  obtain ⟨row₂, h₂, h⟩ := bind_ok h
  obtain ⟨hnr₂, hpos₂⟩ := sameCounters_enlarge h₂
  obtain ⟨hnr, hpos⟩ := sameCounters_startEpoch h
  have hgrown : SameCounters row₁ row' := ⟨hnr.trans hnr₂, hpos.trans hpos₂⟩
  exact (sameCounters_collectBeforeGrowth h₁).trans hgrown

theorem sameCounters_appendBatch {sids : List ℕ} (h : appendBatch svc row sids epochNr = .ok row') :
    SameCounters row row' := by
  obtain ⟨mid, hmid, h⟩ := bind_ok h
  cases h
  obtain ⟨f, hf⟩ := flushLoop_frame (sids.mergeSort (· ≤ ·)).reverse mid (mid.size - sids.length)
  rw [hf]
  exact (sameCounters_increaseSize hmid).trans ⟨rfl, rfl⟩

/-- The counter is an `int`, and does not wrap below its bound. -/
theorem nrOndsplt_addOndsplt (row : VHandle) (n : ℤ) (h0 : 0 ≤ row.nrOndsplt + n)
    (hlt : row.nrOndsplt + n < 2 ^ 31) : (addOndsplt row n).nrOndsplt = row.nrOndsplt + n := by
  simp only [addOndsplt]
  split_ifs with hn
  · exact MachineInts.signed_eq (by omega) (by omega)
  · rw [not_not.1 hn, add_zero]

end

/-! ## Calls with weights -/

/-- A call of `AppendNewVersion` with its weight, by the path it takes, or another step. -/
inductive Call (C : Type)
  | locked (c : C) (svc : Services) (sid weight : ℕ)
  | push (c : C) (sid weight : ℕ)
  | fullFlush (c : C) (svc svc' : Services) (sid weight : ℕ)
  | install (c : C) (pos : ℕ)
  | halfFlush (c : C) (svc : Services)
  | finalizeFlush (c : C) (svc : Services)

namespace Call

variable {C : Type}

/-- The step of a call: `VersionBufferHandle::Append` takes the weight as a `bool`. -/
def event : Call C → Event C
  | .locked c svc sid weight => .locked c svc sid weight
  | .push c sid weight => .push c sid (weight != 0)
  | .fullFlush c svc svc' sid weight => .fullFlush c svc svc' sid (weight != 0)
  | .install c pos => .install c pos
  | .halfFlush c svc => .halfFlush c svc
  | .finalizeFlush c svc => .finalizeFlush c svc

def weight : Call C → ℕ
  | .locked _ _ _ weight | .push _ _ weight | .fullFlush _ _ _ _ weight => weight
  | .install .. | .halfFlush .. | .finalizeFlush .. => 0

/-- What the path of a call adds to the row and the buffers. -/
def counted : Call C → ℕ
  | .locked _ _ _ weight => weight
  | .push _ _ weight => (weight != 0).toNat
  | .fullFlush _ _ _ _ weight => (weight != 0).toNat + (weight != 0).toNat
  | .install .. | .halfFlush .. | .finalizeFlush .. => 0

/-- Buffered appends have weight zero or one, those that find a full buffer zero or two. -/
def Countable : Call C → Prop
  | .push _ _ weight => weight ≤ 1
  | .fullFlush _ _ _ _ weight => weight = 0 ∨ weight = 2
  | .locked .. | .install .. | .halfFlush .. | .finalizeFlush .. => True

theorem counted_eq_weight {call : Call C} (h : call.Countable) : call.counted = call.weight := by
  cases call with
  | locked | install | halfFlush | finalizeFlush => rfl
  | push c sid weight =>
    obtain rfl | rfl : weight = 0 ∨ weight = 1 := by
      change weight ≤ 1 at h
      omega
    · rfl
    · rfl
  | fullFlush c svc svc' sid weight =>
    obtain rfl | rfl := h
    · rfl
    · rfl

end Call

/-! ## The books -/

variable {C : Type} [DecidableEq C]

def callStep (epochNr : ℕ) (s : State C) (call : Call C) : Option (State C) :=
  s.step epochNr call.event

variable [Fintype C]

def inCounters (bufs : C → VersionBuffer) : ℕ := ∑ c, (bufs c).ondspltCnt

theorem inCounters_update (bufs : C → VersionBuffer) (c : C) (buf : VersionBuffer) :
    inCounters (update bufs c buf) + (bufs c).ondspltCnt = inCounters bufs + buf.ondspltCnt :=
  Sums.sum_update_add Finset.univ (fun _ b => VersionBuffer.ondspltCnt b) bufs (Finset.mem_univ c)
    buf

/-- The row and the buffers together have counted `total`; what is not marked in the bitmap, or
belongs to a core that has run `FinalizeFlush`, is empty. -/
structure Books (s : State C) (total : ℤ) : Prop where
  sum : s.row.nrOndsplt + inCounters s.bufs = total
  nonneg : 0 ≤ s.row.nrOndsplt
  bit : ∀ c, (s.bufs c).bit = false → s.bufs c = .empty
  installed : s.row.bufPos = -1 → ∀ c, s.bufs c = .empty
  settled : ∀ c, s.settled c = true → s.bufs c = .empty

namespace Books

variable {epochNr : ℕ} {s s' : State C} {total : ℤ}

omit [DecidableEq C] in
theorem start {row : VHandle} (h0 : 0 ≤ row.nrOndsplt) :
    Books (State.start row : State C) row.nrOndsplt where
  sum := by simp [State.start, inCounters, VersionBuffer.empty]
  nonneg := h0
  bit _ _ := rfl
  installed _ _ := rfl
  settled _ _ := rfl

omit [DecidableEq C] in
/-- An append under the row lock adds its weight, and `extra`. -/
theorem appendLocked (h : Books s total) {svc : Services} {sid weight : ℕ} (extra : ℕ)
    (hlt : total + weight + extra < 2 ^ 31)
    (hstep : s.appendLocked epochNr svc sid weight extra = some s') :
    Books s' (total + weight + extra) ∧ s'.bufs = s.bufs ∧ s'.settled = s.settled := by
  obtain ⟨row', hrow, rfl⟩ := toOption_map_eq_some.1 hstep
  rw [appendNewVersionNoLock_eq] at hrow
  obtain ⟨hnr, hpos⟩ := sameCounters_appendBatch hrow
  have hsum := h.sum
  have h0 := h.nonneg
  rw [nrOndsplt_addOndsplt _ _ (by omega) (by omega)] at hnr
  have hadd := nrOndsplt_addOndsplt row' extra (by omega) (by omega)
  refine ⟨⟨?_, ?_, ?_, ?_, ?_⟩, State.commit_bufs .., State.commit_settled ..⟩
  · rw [State.commit_row, State.commit_bufs]
    omega
  · rw [State.commit_row]
    omega
  · simpa using h.bit
  · simpa [addOndsplt, hpos] using h.installed
  · simpa using h.settled

omit [Fintype C] in
/-- A buffer stays empty when one buffer is replaced by the empty one. -/
theorem update_empty {c c' : C} {bufs : C → VersionBuffer} (h : bufs c' = .empty) :
    update bufs c .empty c' = .empty := by
  by_cases hc : c' = c
  · rw [hc, update_self]
  · rw [update_of_ne hc, h]

variable (h : Books s total)

include h

/-- A flush moves the count of a buffer to the row. -/
theorem flush {svc : Services} {c : C} (hlt : total < 2 ^ 31)
    (hstep : s.flush epochNr c svc = some s') : Books s' total ∧ s'.bufs c = .empty := by
  obtain ⟨row', hrow, rfl⟩ := toOption_map_eq_some.1 hstep
  obtain ⟨hnr, hpos⟩ := sameCounters_appendBatch hrow
  have hcount : _ + _ = _ + 0 := inCounters_update s.bufs c .empty
  have hsum := h.sum
  have h0 := h.nonneg
  have hadd := nrOndsplt_addOndsplt row' (s.bufs c).ondspltCnt (by omega) (by omega)
  refine ⟨⟨?_, ?_, fun c' hbit => ?_, fun hp c' => ?_, fun c' hset => ?_⟩, ?_⟩
  · simp only [State.setBuf, State.commit_row, State.commit_bufs]
    omega
  · simp only [State.setBuf, State.commit_row]
    omega
  · simp only [State.setBuf, State.commit_bufs] at hbit ⊢
    by_cases hc : c' = c
    · rw [hc, update_self]
    · rw [update_of_ne hc] at hbit ⊢
      exact h.bit c' hbit
  · simp only [State.setBuf, State.commit_bufs, State.commit_row, addOndsplt] at hp ⊢
    exact update_empty (h.installed (hpos ▸ hp) c')
  · simp only [State.setBuf, State.commit_bufs, State.commit_settled] at hset ⊢
    exact update_empty (h.settled c' hset)
  · simp [State.setBuf]

/-- Only the core that called is no longer settled. -/
theorem called (c : C) (sid : ℕ) : Books (s.called c sid) total := { h with
  settled c' hset := by
    simp only [State.called] at hset ⊢
    by_cases hc : c' = c
    · rw [hc, update_self] at hset
      cases hset
    · rw [update_of_ne hc] at hset
      exact h.settled c' hset }

/-- A buffered append counts one, or nothing. -/
theorem push {c : C} {sid : ℕ} (n : ℕ) (hpos : s.row.bufPos ≠ -1) :
    Books ((s.setBuf c ⟨(s.bufs c).versions ++ [sid], (s.bufs c).ondspltCnt + n,
      (s.bufs c).bit || (s.bufs c).versions.isEmpty⟩).called c sid) (total + n) := by
  have hcount := inCounters_update s.bufs c ⟨(s.bufs c).versions ++ [sid],
    (s.bufs c).ondspltCnt + n, (s.bufs c).bit || (s.bufs c).versions.isEmpty⟩
  refine ⟨?_, h.nonneg, fun c' hbit => ?_, fun hp => absurd hp hpos, fun c' hset => ?_⟩
  · simp only [State.called, State.setBuf]
    have := h.sum
    simp only at hcount
    omega
  · simp only [State.called, State.setBuf] at hbit ⊢
    by_cases hc : c' = c
    · -- the bit is set by the first version
      rw [hc, update_self, Bool.or_eq_false_iff] at hbit
      rw [h.bit c hbit.1] at hbit
      cases hbit.2
    · rw [update_of_ne hc] at hbit ⊢
      exact h.bit c' hbit
  · simp only [State.called, State.setBuf] at hset ⊢
    by_cases hc : c' = c
    · rw [hc, update_self] at hset
      cases hset
    · rw [update_of_ne hc] at hset ⊢
      exact h.settled c' hset

theorem finalized {c : C} (hc : s.bufs c = .empty) :
    Books { s with settled := update s.settled c true } total := { h with
  settled c' hset := by
    simp only at hset ⊢
    by_cases hcc : c' = c
    · rw [hcc, hc]
    · rw [update_of_ne hcc] at hset
      exact h.settled c' hset }

/-- **One step counts what its path counts**, as long as the counter does not overflow. -/
theorem step {call : Call C} (hlt : total + call.counted < 2 ^ 31)
    (hstep : callStep epochNr s call = some s') : Books s' (total + call.counted) := by
  cases call with
  | locked c svc sid weight =>
    obtain ⟨t, ht, rfl⟩ := map_eq_some_iff.1 hstep
    rw [Call.counted] at hlt ⊢
    have hb := ((h.appendLocked 0 (by simpa using hlt) ht).1).called c sid
    rwa [Nat.cast_zero, add_zero] at hb
  | install c pos =>
    simp only [callStep, Call.event, State.step, ite_none_right_eq_some, some_inj] at hstep
    obtain ⟨-, rfl⟩ := hstep
    rw [Call.counted, Nat.cast_zero, add_zero]
    exact ⟨h.sum, h.nonneg, h.bit, fun hp => absurd hp (by simp only; omega), h.settled⟩
  | push c sid weight =>
    simp only [callStep, Call.event, State.step, ite_none_right_eq_some, some_inj] at hstep
    obtain ⟨⟨hpos, -⟩, rfl⟩ := hstep
    exact h.push _ hpos
  | fullFlush c svc svc' sid weight =>
    simp only [callStep, Call.event, State.step, ite_none_right_eq_some,
      bind_eq_some_iff, map_eq_some_iff] at hstep
    obtain ⟨-, t, ht, u, hu, rfl⟩ := hstep
    rw [Call.counted, Nat.cast_add, ← add_assoc] at hlt ⊢
    exact (((h.appendLocked _ hlt ht).1).flush hlt hu).1.called c sid
  | halfFlush c svc =>
    simp only [callStep, Call.event, State.step, ite_none_right_eq_some] at hstep
    rw [Call.counted, Nat.cast_zero, add_zero] at hlt ⊢
    exact (h.flush hlt hstep.2).1
  | finalizeFlush c svc =>
    rw [Call.counted, Nat.cast_zero, add_zero] at hlt ⊢
    simp only [callStep, Call.event, State.step] at hstep
    split_ifs at hstep with hbit
    · obtain ⟨t, ht, rfl⟩ := map_eq_some_iff.1 hstep
      obtain ⟨hb, hempty⟩ := h.flush hlt ht
      exact hb.finalized hempty
    · cases hstep
      -- the bit is clear, or the row has no position and no core has buffered anything
      refine h.finalized ?_
      by_cases hpos : s.row.bufPos = -1
      · exact h.installed hpos c
      · exact h.bit c (Bool.eq_false_iff.2 fun hb => hbit ⟨hpos, hb⟩)

end Books

theorem counted_run {epochNr : ℕ} : ∀ (calls : List (Call C)) {s s' : State C} {total : ℤ},
    Books s total → total + (calls.map Call.counted).sum < 2 ^ 31 →
      run (callStep epochNr) s calls = some s' →
      Books s' (total + (calls.map Call.counted).sum) := by
  intro calls
  induction calls with
  | nil =>
    intro s s' total h _ hrun
    cases hrun
    simpa using h
  | cons call calls ih =>
    intro s s' total h hlt hrun
    obtain ⟨t, ht, hrun⟩ := (run_cons _).1 hrun
    rw [List.map_cons, List.sum_cons, Nat.cast_add, ← add_assoc] at hlt ⊢
    exact ih (h.step (by omega) ht) hlt hrun

/-- **On-demand split weights are conserved**, whichever paths the calls take, when every call on a
buffer has a weight that its path counts, zero or one, and zero or two when the buffer is full, and
the sum does not overflow the counter. -/
theorem weights_conserved (epochNr : ℕ) (row : VHandle) (calls : List (Call C))
    (h0 : 0 ≤ row.nrOndsplt) (hlt : row.nrOndsplt + (calls.map Call.weight).sum < 2 ^ 31)
    (hcount : ∀ call ∈ calls, call.Countable) (s : State C)
    (hrun : run (callStep epochNr) (State.start row) calls = some s)
    (hsettled : ∀ c, s.settled c = true) :
    s.row.nrOndsplt = row.nrOndsplt + (calls.map Call.weight).sum := by
  have hweights : calls.map Call.counted = calls.map Call.weight :=
    List.map_congr_left fun call hcall => Call.counted_eq_weight (hcount call hcall)
  have hb := counted_run calls (Books.start h0) (by rw [hweights]; exact hlt) hrun
  have hzero : inCounters s.bufs = 0 := Finset.sum_eq_zero fun c _ => by
    rw [hb.settled c (hsettled c)]
    rfl
  have hsum := hb.sum
  rw [hzero, Nat.cast_zero, add_zero, hweights] at hsum
  exact hsum

/-- A new row gets a version with weight three under its lock, and one with weight one in the buffer
of a core. -/
def lightCalls : List (Call Bool) :=
  [.locked true clearedMemory (generateSerialId 1 1 2) 3, .install false 3,
    .push false (generateSerialId 1 1 1) 1, .finalizeFlush true clearedMemory,
    .finalizeFlush false clearedMemory]

theorem weights_conserved_lightCalls : ∃ s : State Bool,
    run (callStep 1) (State.start (newRow 0x8000 0 fun _ => 0)) lightCalls = some s ∧
      s.row.nrOndsplt = (newRow 0x8000 0 fun _ => 0).nrOndsplt +
        (lightCalls.map Call.weight).sum := by
  obtain ⟨s, hrun, hset⟩ : ∃ s : State Bool,
      run (callStep 1) (State.start (newRow 0x8000 0 fun _ => 0)) lightCalls = some s ∧
        ∀ c, s.settled c = true := by decide +kernel
  exact ⟨s, hrun, weights_conserved 1 _ lightCalls (by decide) (by decide)
    (by simp [lightCalls, Call.Countable]) s hrun hset⟩

def heavyCalls : List (Call Bool) :=
  [.install false 3, .push false (generateSerialId 1 1 1) 2, .finalizeFlush true clearedMemory,
    .finalizeFlush false clearedMemory]

/-- **A buffered weight is lost.** All buffers are flushed, and the row has grown by one instead of
two. -/
theorem weight_lost : ∃ s : State Bool,
    run (callStep 1) (State.start (newRow 0x8000 0 fun _ => 0)) heavyCalls = some s ∧
      (∀ c, s.settled c = true) ∧ (heavyCalls.map Call.weight).sum = 2 ∧
      s.row.nrOndsplt = (newRow 0x8000 0 fun _ => 0).nrOndsplt + 1 := by decide +kernel

end Felis.Contention
