import Felis.Foundations.Cells

/-!
# The branch-free search of `util/lowerbound.h`

`util::FastLowerBound` narrows a power-of-two window over the segment. It compares with `<=`, so
on a sorted segment it returns the place after the last cell that is at most `value`
(`fastLowerBound_spec`): an upper bound. The loop takes steps up to `2 ^ 11`, which is enough for
segments shorter than `2 ^ 13`; the callers' segments have at most 1024 cells.
-/

namespace Felis.Util

open Cells

/-- `31 - __builtin_clz(len)`, the position of the highest set bit. -/
def highestBit (len : ℕ) : ℕ := Nat.log 2 len

/-- The stepping loop, for `x` from the given bound minus one down to `0`. -/
def fastLoop (a : ℕ → ℕ) (start value maxstep : ℕ) : ℕ → ℕ → ℕ
  | 0, ret => ret
  | x + 1, ret =>
    fastLoop a start value maxstep x
      (if 2 ^ x < maxstep then ret + (if a (start + (ret + 2 ^ x)) ≤ value then 2 ^ x else 0)
        else ret)

/-- `util::FastLowerBound(a + start, a + stop, value) - a`. -/
def fastLowerBound (a : ℕ → ℕ) (start stop value : ℕ) : ℕ :=
  let len := stop - start
  if len = 0 then start
  else
    let maxstep := 2 ^ highestBit len
    let ret := if maxstep < len ∧ a (start + maxstep) ≤ value then len - maxstep else 0
    let ret := fastLoop a start value maxstep 12 ret
    if a (start + ret) ≤ value then start + ret + 1 else start + ret

/-- The window invariant: the split point of the segment lies between `ret` and `ret + w`, and the
window is inside the segment. -/
structure Window (q len ret w : ℕ) : Prop where
  le_split : ret ≤ q
  split_le : q ≤ ret + w
  inside : ret + w ≤ len

section Window

variable {a : ℕ → ℕ} {start value q len k : ℕ}

/-- One round of the loop halves a window that is still wide, on the side that the compared cell
decides. -/
theorem Window.step (hq : Splits (fun i => a (start + i) ≤ value) 0 len q) {x ret : ℕ}
    (h : Window q len ret (2 ^ min (x + 1) k)) :
    Window q len (if 2 ^ x < 2 ^ k
      then ret + (if a (start + (ret + 2 ^ x)) ≤ value then 2 ^ x else 0) else ret)
      (2 ^ min x k) := by
  by_cases hx : x < k
  · rw [if_pos (Nat.pow_lt_pow_right (by norm_num) hx), Nat.min_eq_left hx.le]
    rw [Nat.min_eq_left (by omega), pow_succ] at h
    have hpos : 0 < 2 ^ x := by positivity
    obtain ⟨h1, h2, h3⟩ := h
    split_ifs with hc
    · have : ret + 2 ^ x < q := by
        by_contra hlt
        exact hq.above _ (by omega) (by omega) hc
      exact ⟨by omega, by omega, by omega⟩
    · have : q ≤ ret + 2 ^ x := by
        by_contra hlt
        exact hc (hq.below _ (by omega) (by omega))
      exact ⟨by omega, by omega, by omega⟩
  · rw [if_neg (by simpa using Nat.pow_le_pow_right (by norm_num) (not_lt.1 hx)),
      Nat.min_eq_right (by omega)]
    rwa [Nat.min_eq_right (by omega)] at h

/-- The cell that a round compares with is inside of the window. -/
theorem Window.read_lt {x ret : ℕ} (h : Window q len ret (2 ^ min (x + 1) k))
    (hx : 2 ^ x < 2 ^ k) : ret + 2 ^ x < len := by
  have hk : x < k := (Nat.pow_lt_pow_iff_right (by norm_num)).1 hx
  have h3 := h.inside
  rw [Nat.min_eq_left (by omega), pow_succ] at h3
  have hpos : 0 < 2 ^ x := by positivity
  omega

theorem fastLoop_spec (hq : Splits (fun i => a (start + i) ≤ value) 0 len q) :
    ∀ x ret, Window q len ret (2 ^ min x k) →
      Window q len (fastLoop a start value (2 ^ k) x ret) 1 := by
  intro x
  induction x with
  | zero =>
    intro ret h
    simpa [fastLoop] using h
  | succ x ih =>
    intro ret h
    rw [fastLoop]
    exact ih _ (h.step hq)

end Window

variable {a : ℕ → ℕ}

/-- The first comparison leaves a window as wide as the largest power of two in the length. -/
theorem firstWindow_spec {start value q len : ℕ} (h0 : len ≠ 0)
    (hq : Splits (fun i => a (start + i) ≤ value) 0 len q) :
    Window q len (if 2 ^ highestBit len < len ∧ a (start + 2 ^ highestBit len) ≤ value
      then len - 2 ^ highestBit len else 0) (2 ^ highestBit len) := by
  have hqle := hq.le_hi
  have hlo : 2 ^ highestBit len ≤ len := Nat.pow_log_le_self 2 h0
  have hhi : len < 2 ^ highestBit len * 2 := by
    have := Nat.lt_pow_succ_log_self (b := 2) (by norm_num) len
    rwa [pow_succ] at this
  split_ifs with hc
  · have : 2 ^ highestBit len < q := by
      by_contra hlt
      exact hq.above _ (by omega) (by omega) hc.2
    exact ⟨by omega, by omega, by omega⟩
  · have : q ≤ 2 ^ highestBit len := by
      by_contra hlt
      exact hc ⟨by omega, hq.below _ (by omega) (by omega)⟩
    exact ⟨by omega, by omega, by omega⟩

/-- A sorted segment splits somewhere. -/
theorem exists_splits {start len : ℕ} (value : ℕ) (hs : SortedOn a start len) :
    ∃ q, Splits (fun i => a (start + i) ≤ value) 0 len q := by
  refine ⟨scanWhile (fun i => decide (a (start + i) ≤ value)) len 0,
    Nat.zero_le _, scanWhile_le _ _ _, fun i _ hi => ?_, fun i hi hn hle => ?_⟩
  · simpa using of_lt_scanWhile _ _ 0 i (Nat.zero_le _) hi
  · have hstop := not_scanWhile (fun i => decide (a (start + i) ≤ value)) len 0 (by omega)
    simp only [decide_eq_false_iff_not] at hstop
    exact hstop ((hs _ (start + i) (by omega) (by omega) (by omega)).trans hle)

theorem highestBit_le {len : ℕ} (h0 : len ≠ 0) (hlen : len < 2 ^ 13) : highestBit len ≤ 12 := by
  have := Nat.pow_log_le_self 2 h0
  by_contra h
  have : 2 ^ 13 ≤ 2 ^ highestBit len := Nat.pow_le_pow_right (by norm_num) (by omega)
  simp only [highestBit] at this
  omega

/-- The search returns the split point, counted from the start of the segment. -/
theorem fastLowerBound_eq {start stop value q : ℕ} (hlen : stop - start < 2 ^ 13)
    (hq : Splits (fun i => a (start + i) ≤ value) 0 (stop - start) q) :
    fastLowerBound a start stop value = start + q := by
  have hqle := hq.le_hi
  rw [fastLowerBound]
  simp only
  generalize stop - start = len at *
  by_cases h0 : len = 0
  · rw [if_pos h0]
    omega
  rw [if_neg h0]
  have hwin := firstWindow_spec h0 hq
  generalize (if 2 ^ highestBit len < len ∧ a (start + 2 ^ highestBit len) ≤ value
    then len - 2 ^ highestBit len else 0) = first at hwin ⊢
  obtain ⟨h1, h2, h3⟩ :=
    fastLoop_spec hq 12 first (by rwa [Nat.min_eq_right (highestBit_le h0 hlen)])
  generalize fastLoop a start value (2 ^ highestBit len) 12 first = ret at *
  split_ifs with hlast
  · have : ret < q := by
      by_contra hlt
      exact hq.above ret (by omega) (by omega) hlast
    omega
  · have : q ≤ ret := by
      by_contra hlt
      exact hlast (hq.below ret (by omega) (by omega))
    omega

/-- **`FastLowerBound` is an upper bound.** On a sorted segment of fewer than `2 ^ 13` cells it
returns the place after the last cell that is at most `value`. -/
theorem fastLowerBound_spec {start stop : ℕ} (value : ℕ) (hlen : stop - start < 2 ^ 13)
    (hs : SortedOn a start (stop - start)) :
    Splits (fun i => a i ≤ value) start (stop - start) (fastLowerBound a start stop value) := by
  obtain ⟨q, hq⟩ := exists_splits value hs
  rw [fastLowerBound_eq hlen hq]
  have hqle := hq.le_hi
  refine ⟨by omega, by omega, fun i h1 h2 => ?_, fun i h1 h2 => ?_⟩
  · have := hq.below (i - start) (Nat.zero_le _) (by omega)
    rwa [show start + (i - start) = i by omega] at this
  · have := hq.above (i - start) (by omega) (by omega)
    rwa [show start + (i - start) = i by omega] at this

/-! ### The elements that are read

The same search with each access to an element made by a reader that may refuse it. Over the
reader of a segment it never is refused. -/

/-- The stepping loop over a reader. -/
def fastLoopVia (readAt : ℕ → Option ℕ) (start value maxstep : ℕ) : ℕ → ℕ → Option ℕ
  | 0, ret => some ret
  | x + 1, ret => do
    let ret ← if 2 ^ x < maxstep
      then (readAt (start + (ret + 2 ^ x))).map fun v => ret + (if v ≤ value then 2 ^ x else 0)
      else some ret
    fastLoopVia readAt start value maxstep x ret

/-- The first comparison over a reader; `&&` reads `start[maxstep]` only below the length. -/
def firstStepVia (readAt : ℕ → Option ℕ) (start value len maxstep : ℕ) : Option ℕ :=
  if maxstep < len
  then (readAt (start + maxstep)).map fun v => if v ≤ value then len - maxstep else 0
  else some 0

/-- `util::FastLowerBound` over a reader. -/
def fastLowerBoundVia (readAt : ℕ → Option ℕ) (start stop value : ℕ) : Option ℕ :=
  let len := stop - start
  if len = 0 then some start
  else do
    let maxstep := 2 ^ highestBit len
    let ret ← firstStepVia readAt start value len maxstep
    let ret ← fastLoopVia readAt start value maxstep 12 ret
    (readAt (start + ret)).map fun v => if v ≤ value then start + ret + 1 else start + ret

/-- The reader of the elements of `[start, stop)`. -/
def segmentReader (a : ℕ → ℕ) (start stop : ℕ) : ℕ → Option ℕ := fun i =>
  if start ≤ i ∧ i < stop then some (a i) else none

section Reads

variable {a : ℕ → ℕ} {start stop value q : ℕ}

theorem segmentReader_add {i : ℕ} (h : i < stop - start) :
    segmentReader a start stop (start + i) = some (a (start + i)) :=
  if_pos ⟨by omega, by omega⟩

theorem fastLoopVia_segment {k : ℕ}
    (hq : Splits (fun i => a (start + i) ≤ value) 0 (stop - start) q) :
    ∀ x ret, Window q (stop - start) ret (2 ^ min x k) →
      fastLoopVia (segmentReader a start stop) start value (2 ^ k) x ret =
        some (fastLoop a start value (2 ^ k) x ret) := by
  intro x
  induction x with
  | zero =>
    intro ret h
    rfl
  | succ x ih =>
    intro ret h
    have hstep := ih _ (h.step hq)
    rw [fastLoopVia, fastLoop, ← hstep]
    by_cases hx : 2 ^ x < 2 ^ k
    · simp [if_pos hx, segmentReader_add (h.read_lt hx)]
    · simp [if_neg hx]

theorem firstStepVia_segment (maxstep : ℕ) :
    firstStepVia (segmentReader a start stop) start value (stop - start) maxstep =
      some (if maxstep < stop - start ∧ a (start + maxstep) ≤ value
        then stop - start - maxstep else 0) := by
  rw [firstStepVia]
  by_cases hm : maxstep < stop - start
  · simp [segmentReader_add hm, hm]
  · simp [hm]

/-- No read is refused, so that the search over the reader is the search itself. -/
theorem fastLowerBoundVia_segment (hlen : stop - start < 2 ^ 13)
    (hq : Splits (fun i => a (start + i) ≤ value) 0 (stop - start) q) :
    fastLowerBoundVia (segmentReader a start stop) start stop value =
      some (fastLowerBound a start stop value) := by
  rw [fastLowerBoundVia, fastLowerBound]
  by_cases h0 : stop - start = 0
  · simp only [if_pos h0]
  have hwin := firstWindow_spec h0 hq
  simp only [if_neg h0, firstStepVia_segment, Option.bind_eq_bind, Option.bind_some]
  generalize (if 2 ^ highestBit (stop - start) < stop - start ∧
    a (start + 2 ^ highestBit (stop - start)) ≤ value
    then stop - start - 2 ^ highestBit (stop - start) else 0) = first at hwin ⊢
  have hwin' : Window q (stop - start) first (2 ^ min 12 (highestBit (stop - start))) := by
    rwa [Nat.min_eq_right (highestBit_le h0 hlen)]
  have hin := (fastLoop_spec hq 12 first hwin').inside
  rw [fastLoopVia_segment hq 12 first hwin', Option.bind_some, segmentReader_add (by omega)]
  rfl

/-- The split point of a segment is the number of its elements that are at most the value. -/
theorem countP_seg_of_splits {len : ℕ} (hq : Splits (fun i => a (start + i) ≤ value) 0 len q) :
    (seg a start len).countP (· ≤ value) = q := by
  have hle := hq.le_hi
  obtain ⟨m, rfl⟩ := Nat.exists_eq_add_of_le (show q ≤ len by omega)
  rw [seg_add, List.countP_append]
  have hbelow : (seg a start q).countP (· ≤ value) = q := by
    rw [List.countP_eq_length.2, length_seg]
    intro v hv
    obtain ⟨i, hi, rfl⟩ := mem_seg.1 hv
    simpa using hq.below i (Nat.zero_le _) hi
  have habove : (seg a (start + q) m).countP (· ≤ value) = 0 := by
    rw [List.countP_eq_zero]
    intro v hv
    obtain ⟨i, hi, rfl⟩ := mem_seg.1 hv
    simpa [Nat.add_assoc] using hq.above (q + i) (by omega) (by omega)
  rw [hbelow, habove, Nat.add_zero]

/-- **The search reads inside of its segment and counts.** On every sorted segment of at most 8191
elements, with duplicates or without, `FastLowerBound` reads only elements of the segment and
returns `start` plus the number of elements that are at most `value`. -/
theorem fastLowerBoundVia_eq_countP (a : ℕ → ℕ) (start stop value : ℕ)
    (hlen : stop - start ≤ 8191) (hs : SortedOn a start (stop - start)) :
    fastLowerBoundVia (segmentReader a start stop) start stop value =
      some (start + (seg a start (stop - start)).countP (· ≤ value)) := by
  obtain ⟨q, hq⟩ := exists_splits value hs
  rw [fastLowerBoundVia_segment (by omega) hq, fastLowerBound_eq (by omega) hq,
    countP_seg_of_splits hq]

/-- Eleven elements with duplicates, in the middle of a longer array. -/
theorem fastLowerBoundVia_eq_countP_halves :
    fastLowerBoundVia (segmentReader (· / 2) 5 16) 5 16 4 =
      some (5 + (seg (· / 2) 5 11).countP (· ≤ 4)) :=
  fastLowerBoundVia_eq_countP (· / 2) 5 16 4 (by decide)
    fun _ _ _ hij _ => Nat.div_le_div_right hij

end Reads

end Felis.Util
