import Mathlib.Tactic

/-!
# Word arrays

A block of memory is a function from cell indices to cell contents. This module has the
operations of the C++ standard library that work on index ranges of such a block, and the lists
that a range holds:

* `seg f lo n` is the list of the `n` cells from `lo`;
* `moveCells` is `std::move` of a range to another place of the same block (`memmove`), and
  `fillCells` is `std::fill`;
* `lowerBound` is the halving loop of `std::lower_bound`, and `lowerBound_spec` its specification
  on a sorted range;
* `scanWhile` is a loop that counts up while a test holds.
-/

namespace Felis.Cells

open Function List

variable {α : Type*}

/-! ## The list a range holds -/

/-- The contents of the `n` cells from `lo`. -/
def seg (f : ℕ → α) (lo n : ℕ) : List α := (List.range n).map fun i => f (lo + i)

@[simp] theorem seg_zero (f : ℕ → α) (lo : ℕ) : seg f lo 0 = [] := rfl

@[simp] theorem length_seg (f : ℕ → α) (lo n : ℕ) : (seg f lo n).length = n := by
  simp [seg]

@[simp] theorem getElem_seg (f : ℕ → α) (lo n : ℕ) {i : ℕ} (h : i < (seg f lo n).length) :
    (seg f lo n)[i] = f (lo + i) := by
  simp [seg]

theorem getElem?_seg (f : ℕ → α) (lo n : ℕ) {i : ℕ} (h : i < n) :
    (seg f lo n)[i]? = some (f (lo + i)) := by
  rw [List.getElem?_eq_getElem (by simpa using h), getElem_seg]

theorem mem_seg {f : ℕ → α} {lo n : ℕ} {x : α} : x ∈ seg f lo n ↔ ∃ i < n, f (lo + i) = x := by
  simp [seg]

theorem seg_congr {f g : ℕ → α} {lo lo' n : ℕ} (h : ∀ i < n, f (lo + i) = g (lo' + i)) :
    seg f lo n = seg g lo' n := by
  apply map_congr_left
  intro i hi
  exact h i (mem_range.1 hi)

theorem seg_add (f : ℕ → α) (lo m n : ℕ) :
    seg f lo (m + n) = seg f lo m ++ seg f (lo + m) n := by
  simp [seg, range_add, Nat.add_assoc]

theorem seg_succ (f : ℕ → α) (lo n : ℕ) : seg f lo (n + 1) = seg f lo n ++ [f (lo + n)] := by
  rw [seg_add]
  simp [seg]

theorem seg_cons (f : ℕ → α) (lo n : ℕ) : seg f lo (n + 1) = f lo :: seg f (lo + 1) n := by
  rw [Nat.add_comm, seg_add]
  simp [seg]

theorem seg_update (f : ℕ → α) (lo n : ℕ) (x : α) :
    seg (update f (lo + n) x) lo (n + 1) = seg f lo n ++ [x] := by
  rw [seg_succ, update_self]
  refine congrArg (· ++ [x]) (seg_congr fun i hi => ?_)
  rw [update_of_ne (by omega)]

theorem drop_seg (f : ℕ → α) (lo : ℕ) {k n : ℕ} (h : k ≤ n) :
    (seg f lo n).drop k = seg f (lo + k) (n - k) := by
  obtain ⟨m, rfl⟩ := Nat.exists_eq_add_of_le h
  rw [seg_add, drop_left' (length_seg f lo k), Nat.add_sub_cancel_left]

theorem take_seg (f : ℕ → α) (lo : ℕ) {k n : ℕ} (h : k ≤ n) :
    (seg f lo n).take k = seg f lo k := by
  obtain ⟨m, rfl⟩ := Nat.exists_eq_add_of_le h
  rw [seg_add, take_left' (length_seg f lo k)]

theorem pairwise_seg {r : α → α → Prop} {f : ℕ → α} {lo n : ℕ} :
    (seg f lo n).Pairwise r ↔ ∀ i j, i < j → j < n → r (f (lo + i)) (f (lo + j)) := by
  rw [pairwise_iff_getElem]
  constructor
  · intro h i j hij hj
    have hr := h i j (by simpa using hij.trans hj) (by simpa using hj) hij
    rwa [getElem_seg, getElem_seg] at hr
  · intro h i j hi hj hij
    simpa using h i j hij (by simpa using hj)

/-! ## Rings -/

theorem mod_ne_mod {m p w : ℕ} (hp : p < w) (hw : w < p + m) : p % m ≠ w % m := by
  intro h
  have hdvd : m ∣ w - p := Nat.dvd_of_mod_eq_zero (Nat.sub_mod_eq_zero_of_mod_eq h.symm)
  have := Nat.le_of_dvd (by omega) hdvd
  omega

/-- The contents of the `n` positions from `lo`, in a ring of `m` slots. -/
def ringSeg (m : ℕ) (f : ℕ → α) (lo n : ℕ) : List α := seg (fun p => f (p % m)) lo n

theorem ringSeg_cons (m : ℕ) (f : ℕ → α) (lo n : ℕ) :
    ringSeg m f lo (n + 1) = f (lo % m) :: ringSeg m f (lo + 1) n :=
  seg_cons _ lo n

/-- A write behind the last position, as long as the slots are not used up. -/
theorem ringSeg_update {m n : ℕ} (f : ℕ → α) (lo : ℕ) (x : α) (hn : n < m) :
    ringSeg m (update f ((lo + n) % m) x) lo (n + 1) = ringSeg m f lo n ++ [x] := by
  unfold ringSeg
  rw [seg_succ, update_self]
  congr 1
  apply seg_congr
  intro i hi
  rw [update_of_ne (mod_ne_mod (by omega) (by omega))]

/-! ## Moving and filling ranges -/

/-- `std::move(f + src, f + src + n, f + dst)`: the cells from `dst` take the old contents of the
cells from `src`, also when the two ranges overlap. -/
def moveCells (f : ℕ → α) (src dst n : ℕ) : ℕ → α :=
  fun k => if dst ≤ k ∧ k < dst + n then f (src + (k - dst)) else f k

theorem moveCells_of_mem (f : ℕ → α) (src dst n : ℕ) {i : ℕ} (h : i < n) :
    moveCells f src dst n (dst + i) = f (src + i) := by
  rw [moveCells, if_pos ⟨by omega, by omega⟩, Nat.add_sub_cancel_left]

theorem moveCells_of_lt (f : ℕ → α) (src n : ℕ) {dst k : ℕ} (h : k < dst) :
    moveCells f src dst n k = f k := by
  rw [moveCells, if_neg (by omega)]

theorem moveCells_of_ge (f : ℕ → α) (src : ℕ) {dst n k : ℕ} (h : dst + n ≤ k) :
    moveCells f src dst n k = f k := by
  rw [moveCells, if_neg (by omega)]

/-- `std::fill(f + lo, f + lo + n, v)`. -/
def fillCells (f : ℕ → α) (lo n : ℕ) (v : α) : ℕ → α :=
  fun k => if lo ≤ k ∧ k < lo + n then v else f k

theorem fillCells_of_mem (f : ℕ → α) (lo n : ℕ) (v : α) {i : ℕ} (h : i < n) :
    fillCells f lo n v (lo + i) = v := by
  rw [fillCells, if_pos ⟨by omega, by omega⟩]

theorem fillCells_of_lt (f : ℕ → α) (n : ℕ) (v : α) {lo k : ℕ} (h : k < lo) :
    fillCells f lo n v k = f k := by
  rw [fillCells, if_neg (by omega)]

/-! ## Binary search -/

section LowerBound

variable [LinearOrder α]

/-- The loop of `std::lower_bound` on the `len` cells from `first`. The fuel is the length, which
every round makes smaller. -/
def lowerBoundLoop (a : ℕ → α) (v : α) : ℕ → ℕ → ℕ → ℕ
  | 0, first, _ => first
  | fuel + 1, first, len =>
    if len = 0 then first
    else if a (first + len / 2) < v then
      lowerBoundLoop a v fuel (first + len / 2 + 1) (len - len / 2 - 1)
    else lowerBoundLoop a v fuel first (len / 2)

/-- `std::lower_bound(a + lo, a + hi, v) - a`. -/
def lowerBound (a : ℕ → α) (lo hi : ℕ) (v : α) : ℕ :=
  lowerBoundLoop a v (hi - lo) lo (hi - lo)

/-- The `n` cells from `lo` are in non-decreasing order. -/
def SortedOn (a : ℕ → α) (lo n : ℕ) : Prop := ∀ i j, lo ≤ i → i ≤ j → j < lo + n → a i ≤ a j

/-- `q` splits the `n` indices from `lo`: those below `q` satisfy `P`, the others do not. -/
structure Splits (P : ℕ → Prop) (lo n q : ℕ) : Prop where
  lo_le : lo ≤ q
  le_hi : q ≤ lo + n
  below : ∀ i, lo ≤ i → i < q → P i
  above : ∀ i, q ≤ i → i < lo + n → ¬ P i

theorem lowerBoundLoop_spec (a : ℕ → α) (v : α) :
    ∀ fuel first len, len ≤ fuel → SortedOn a first len →
      Splits (fun i => a i < v) first len (lowerBoundLoop a v fuel first len) := by
  intro fuel
  induction fuel with
  | zero =>
    intro first len hlen _
    obtain rfl : len = 0 := by omega
    exact ⟨le_rfl, le_rfl, fun i h1 h2 => absurd h2 (by simp [lowerBoundLoop]; omega),
      fun i h1 h2 => absurd h1 (by simp [lowerBoundLoop]; omega)⟩
  | succ fuel ih =>
    intro first len hlen hs
    rw [lowerBoundLoop]
    split_ifs with h0 hlt
    · subst h0
      exact ⟨le_rfl, le_rfl, fun i h1 h2 => by omega, fun i h1 h2 => by omega⟩
    · -- the middle cell is smaller: so is everything up to it
      have hrec := ih (first + len / 2 + 1) (len - len / 2 - 1) (by omega)
        fun i j hi hij hj => hs i j (by omega) hij (by omega)
      refine ⟨by have := hrec.lo_le; omega, by have := hrec.le_hi; omega, fun i h1 h2 => ?_,
        fun i h1 h2 => hrec.above i h1 (by omega)⟩
      by_cases hi : i ≤ first + len / 2
      · exact (hs i (first + len / 2) h1 hi (by omega)).trans_lt hlt
      · exact hrec.below i (by omega) h2
    · have hrec := ih first (len / 2) (by omega) fun i j hi hij hj => hs i j hi hij (by omega)
      refine ⟨hrec.lo_le, by have := hrec.le_hi; omega, hrec.below, fun i h1 h2 => ?_⟩
      by_cases hi : i < first + len / 2
      · exact hrec.above i h1 hi
      · exact not_lt.2 ((not_lt.1 hlt).trans (hs _ i (by omega) (by omega) h2))

/-- **Lower bound.** On a sorted range the search returns the first cell that is not smaller than
`v`, and the end of the range when there is none. -/
theorem lowerBound_spec {a : ℕ → α} {lo hi : ℕ} (v : α) (hs : SortedOn a lo (hi - lo)) :
    Splits (fun i => a i < v) lo (hi - lo) (lowerBound a lo hi v) :=
  lowerBoundLoop_spec a v (hi - lo) lo (hi - lo) le_rfl hs

theorem le_lowerBoundLoop (a : ℕ → α) (v : α) :
    ∀ fuel first len, first ≤ lowerBoundLoop a v fuel first len := by
  intro fuel
  induction fuel with
  | zero => exact fun first len => le_rfl
  | succ fuel ih =>
    intro first len
    rw [lowerBoundLoop]
    split_ifs
    · exact le_rfl
    · exact le_trans (by omega) (ih (first + len / 2 + 1) (len - len / 2 - 1))
    · exact ih first (len / 2)

theorem le_lowerBound (a : ℕ → α) (lo hi : ℕ) (v : α) : lo ≤ lowerBound a lo hi v :=
  le_lowerBoundLoop a v _ _ _

theorem lowerBoundLoop_le (a : ℕ → α) (v : α) :
    ∀ fuel first len, lowerBoundLoop a v fuel first len ≤ first + len := by
  intro fuel
  induction fuel with
  | zero => exact fun first len => Nat.le_add_right first len
  | succ fuel ih =>
    intro first len
    rw [lowerBoundLoop]
    split_ifs
    · exact Nat.le_add_right first len
    · exact (ih (first + len / 2 + 1) (len - len / 2 - 1)).trans (by omega)
    · exact (ih first (len / 2)).trans (by omega)

theorem lowerBound_le (a : ℕ → α) (lo hi : ℕ) (v : α) : lowerBound a lo hi v ≤ max lo hi :=
  (lowerBoundLoop_le a v _ _ _).trans (by omega)

/-- The search in a copy of the cells that is moved down by `k`. -/
theorem lowerBoundLoop_shift {a b : ℕ → α} {k : ℕ} (v : α) :
    ∀ fuel first len, (∀ i, first ≤ i → i < first + len → b i = a (k + i)) →
      lowerBoundLoop a v fuel (k + first) len = k + lowerBoundLoop b v fuel first len := by
  intro fuel
  induction fuel with
  | zero => exact fun first len _ => rfl
  | succ fuel ih =>
    intro first len hcopy
    rw [lowerBoundLoop, lowerBoundLoop]
    by_cases h0 : len = 0
    · rw [if_pos h0, if_pos h0]
    · rw [if_neg h0, if_neg h0, hcopy _ (Nat.le_add_right first (len / 2)) (by omega),
        Nat.add_assoc]
      by_cases hlt : a (k + (first + len / 2)) < v
      · rw [if_pos hlt, if_pos hlt]
        exact ih (first + len / 2 + 1) (len - len / 2 - 1) fun i hlo hhi =>
          hcopy i (by omega) (by omega)
      · rw [if_neg hlt, if_neg hlt]
        exact ih first (len / 2) fun i hlo hhi => hcopy i hlo (by omega)

theorem lowerBound_shift {a b : ℕ → α} {k lo hi : ℕ} (v : α)
    (hcopy : ∀ i, lo ≤ i → i < hi → b i = a (k + i)) :
    lowerBound a (k + lo) (k + hi) v = k + lowerBound b lo hi v := by
  rw [lowerBound, lowerBound, Nat.add_sub_add_left]
  exact lowerBoundLoop_shift v _ _ _ fun i hlo hhi => hcopy i hlo (by omega)

end LowerBound

/-! ## Counting up while a test holds -/

/-- `while (p(i)) i++`, at most `fuel` times. -/
def scanWhile (p : ℕ → Bool) : ℕ → ℕ → ℕ
  | 0, i => i
  | fuel + 1, i => if p i then scanWhile p fuel (i + 1) else i

theorem scanWhile_le (p : ℕ → Bool) : ∀ fuel i, scanWhile p fuel i ≤ i + fuel := by
  intro fuel
  induction fuel with
  | zero => exact fun i => le_rfl
  | succ fuel ih =>
    intro i
    rw [scanWhile]
    split
    · have := ih (i + 1)
      omega
    · omega

/-- Every index the loop passes satisfies the test. -/
theorem of_lt_scanWhile (p : ℕ → Bool) :
    ∀ fuel i j, i ≤ j → j < scanWhile p fuel i → p j = true := by
  intro fuel
  induction fuel with
  | zero =>
    intro i j h1 h2
    simp only [scanWhile] at h2
    omega
  | succ fuel ih =>
    intro i j h1 h2
    rw [scanWhile] at h2
    split at h2
    next hp =>
      rcases Nat.eq_or_lt_of_le h1 with rfl | h
      · exact hp
      · exact ih (i + 1) j h h2
    next => omega

/-- The loop stops at a failing test, unless the fuel ends it. -/
theorem not_scanWhile (p : ℕ → Bool) :
    ∀ fuel i, scanWhile p fuel i < i + fuel → p (scanWhile p fuel i) = false := by
  intro fuel
  induction fuel with
  | zero =>
    intro i h
    simp [scanWhile] at h
  | succ fuel ih =>
    intro i h
    rw [scanWhile] at h ⊢
    split
    next hp =>
      rw [if_pos hp] at h
      exact ih (i + 1) (by omega)
    next hp => simpa using hp

end Felis.Cells
