import Felis.Row.Append

/-!
# Absorbing new versions keeps the array sorted

`absorbNewVersionNoLock_spec` says what one call does to the cells: the versions before the found
slot stay, the others move up past the gap, and the booked version goes right below them. The loop
of `FlushIntoNoLock` works on an array with a hole: below it the versions that are still in place,
above it the part that is already merged. `flushLoop_spec` carries that picture through the loop;
at the end the hole is closed and the array is the sorted merge (`flushLoop_merge`).
-/

namespace Felis.Row

open Cells Util Function List

/-! ## The slot -/

/-- The slot of `last` among sorted versions: nothing greater below it, nothing smaller from it
on. Equal versions may stand on either side. -/
structure IsSlot (f : ℕ → ℕ) (stop last i : ℕ) : Prop where
  le_stop : i ≤ stop
  below : ∀ k < i, f k ≤ last
  above : ∀ k, i ≤ k → k < stop → last ≤ f k

theorem absorbSlot_spec {f : ℕ → ℕ} {stop : ℕ} (last : ℕ) (h0 : stop ≠ 0)
    (hs : SortedOn f 0 stop) : IsSlot f stop last (absorbSlot f stop last) := by
  have hmark : (stop - 1) / 1024 * 1024 < stop ∧ stop ≤ (stop - 1) / 1024 * 1024 + 1024 := by
    omega
  rw [absorbSlot]
  generalize (stop - 1) / 1024 * 1024 = mark at *
  have hfast := @fastLowerBound_spec f mark stop last (by omega)
    fun i j hi hij hj => hs i j (by omega) hij (by omega)
  split_ifs with hi
  · -- the whole window is greater
    have hlow := @lowerBound_spec ℕ _ f 0 mark last
      fun i j hi hij hj => hs i j hi hij (by omega)
    refine ⟨by have := hlow.le_hi; omega, fun k hk => (hlow.below k (by omega) hk).le,
      fun k hk hstop => ?_⟩
    by_cases hkm : k < mark
    · exact not_lt.1 (hlow.above k hk (by omega))
    · exact (not_le.1 (hfast.above k (by omega) (by omega))).le
  · have hlo := hfast.lo_le
    refine ⟨by have := hfast.le_hi; omega, fun k hk => ?_, fun k hk hstop => ?_⟩
    · by_cases hkm : mark ≤ k
      · exact hfast.below k hkm hk
      · exact (hs k mark (by omega) (by omega) (by omega)).trans
          (hfast.below mark le_rfl (by omega))
    · exact (not_le.1 (hfast.above k hk (by omega))).le

/-! ## One version -/

/-- The cells after a call with slot `i`: the versions below stay, `x` cells are free, then come
the absorbed version and the versions that were above it. -/
structure Absorbed (f g : ℕ → ℕ) (stop x i : ℕ) : Prop where
  slot : IsSlot f stop (f stop) i
  kept : ∀ k < i, g k = f k
  absorbed : g (i + x) = f stop
  moved : ∀ k, i ≤ k → k < stop → g (k + 1 + x) = f k
  beyond : ∀ k, stop + x < k → g k = f k

theorem absorbNewVersionNoLock_spec (row : VHandle) (stop x : ℕ)
    (hs : SortedOn row.versions 0 stop) :
    Absorbed row.versions (absorbNewVersionNoLock row stop x).1.versions stop x
      (absorbNewVersionNoLock row stop x).2 := by
  rw [absorbNewVersionNoLock]
  split_ifs with h0
  · subst h0
    refine ⟨⟨le_rfl, fun k hk => by omega, fun k _ hk => by omega⟩, fun k hk => by omega, ?_,
      fun k _ hk => by omega, fun k hk => ?_⟩
    · simp
    · simp only
      rw [update_of_ne (by omega)]
  · simp only
    have hslot := absorbSlot_spec (row.versions stop) h0 hs
    generalize absorbSlot row.versions stop (row.versions stop) = i at *
    have hi := hslot.le_stop
    refine ⟨hslot, fun k hk => ?_, ?_, fun k hk hstop => ?_, fun k hk => ?_⟩
    · rw [update_of_ne (by omega), moveCells_of_lt _ _ _ (by omega)]
    · rw [update_self]
    · rw [update_of_ne (by omega), show k + 1 + x = i + 1 + x + (k - i) by omega,
        moveCells_of_mem _ _ _ _ (by omega), show i + (k - i) = k by omega]
    · rw [update_of_ne (by omega), moveCells_of_ge _ _ (by omega)]

/-- Every other field of the row is left alone. -/
theorem absorbNewVersionNoLock_frame (row : VHandle) (stop x : ℕ) :
    ∃ f, (absorbNewVersionNoLock row stop x).1 = { row with versions := f } := by
  rw [absorbNewVersionNoLock]
  split_ifs
  · exact ⟨_, rfl⟩
  · exact ⟨_, rfl⟩

/-! ## A whole buffer -/

/-- The array in the middle of a flush: `xs` in place below `stop`, a hole of `n` cells, and above
it the merged part `ys`. -/
structure Holed (f : ℕ → ℕ) (stop n : ℕ) (xs ys : List ℕ) : Prop where
  low : seg f 0 stop = xs
  high : seg f (stop + n) ys.length = ys
  sorted_low : xs.Pairwise (· ≤ ·)
  sorted_high : ys.Pairwise (· ≤ ·)
  low_le_high : ∀ x ∈ xs, ∀ y ∈ ys, x ≤ y

theorem sortedOn_of_pairwise {f : ℕ → ℕ} {lo n : ℕ} (h : (seg f lo n).Pairwise (· ≤ ·)) :
    SortedOn f lo n := by
  intro i j hi hij hj
  rcases Nat.eq_or_lt_of_le hij with rfl | hlt
  · exact le_rfl
  · have := pairwise_seg.1 h (i - lo) (j - lo) (by omega) (by omega)
    rwa [show lo + (i - lo) = i by omega, show lo + (j - lo) = j by omega] at this

/-- One round of the loop: the largest version of the buffer moves to the bottom of the merged
part, together with the versions above its slot. -/
theorem Holed.absorb {row : VHandle} {stop n sid : ℕ} {xs ys : List ℕ}
    (h : Holed row.versions stop (n + 1) xs ys) (hsid : ∀ y ∈ ys, sid ≤ y) :
    ∃ i, (absorbNewVersionNoLock (bookNewVersionNoLock row sid stop) stop n).2 = i ∧
      Holed (absorbNewVersionNoLock (bookNewVersionNoLock row sid stop) stop n).1.versions i n
        (xs.take i) (sid :: (xs.drop i ++ ys)) ∧ (∀ x ∈ xs.take i, x ≤ sid) ∧
      ∀ k, stop + n + ys.length < k →
        (absorbNewVersionNoLock (bookNewVersionNoLock row sid stop) stop n).1.versions k =
          row.versions k := by
  set booked := bookNewVersionNoLock row sid stop with hbooked
  have hlen : xs.length = stop := by simpa using (congrArg List.length h.low).symm
  have hbk : ∀ k, k ≠ stop → booked.versions k = row.versions k := fun k hk => by
    simp [hbooked, bookNewVersionNoLock, hk]
  have hbs : booked.versions stop = sid := by simp [hbooked, bookNewVersionNoLock]
  have hlow : seg booked.versions 0 stop = xs := by
    rw [← h.low]
    exact seg_congr fun i hi => hbk _ (by omega)
  have hspec := absorbNewVersionNoLock_spec booked stop n
    (sortedOn_of_pairwise (by rw [hlow]; exact h.sorted_low))
  generalize absorbNewVersionNoLock booked stop n = res at *
  obtain ⟨⟨hi, hbelow, habove⟩, hkept, habs, hmoved, hbeyond⟩ := hspec
  rw [hbs] at hbelow habove habs
  have htake : xs.take res.2 = seg booked.versions 0 res.2 := by rw [← hlow, take_seg _ _ hi]
  have hdrop : xs.drop res.2 = seg booked.versions res.2 (stop - res.2) := by
    rw [← hlow, drop_seg _ _ hi, Nat.zero_add]
  have hxs : ∀ x ∈ xs, ∃ k < stop, booked.versions k = x := fun x hx => by
    rw [← hlow] at hx
    simpa using mem_seg.1 hx
  have hle : ∀ x ∈ xs.take res.2, x ≤ sid := fun x hx => by
    rw [htake] at hx
    obtain ⟨k, hk, rfl⟩ := mem_seg.1 hx
    exact hbelow _ (by omega)
  have hge : ∀ x ∈ xs.drop res.2, sid ≤ x := fun x hx => by
    rw [hdrop] at hx
    obtain ⟨k, hk, rfl⟩ := mem_seg.1 hx
    exact habove _ (by omega) (by omega)
  refine ⟨res.2, rfl, ⟨?_, ?_, h.sorted_low.sublist (take_sublist _ _), ?_, ?_⟩, hle,
    fun k hk => ?_⟩
  · rw [htake]
    exact seg_congr fun k hk => hkept _ (by omega)
  · -- the merged part: the absorbed version, the moved ones, then the old merged part
    rw [length_cons, length_append, length_drop, hlen, seg_cons, habs, hdrop, seg_add]
    congr 2
    · exact seg_congr fun k hk => by
        rw [show res.2 + n + 1 + k = res.2 + k + 1 + n by omega,
          hmoved _ (by omega) (by omega)]
    · rw [← h.high]
      simp only [length_seg]
      exact seg_congr fun k hk => by
        rw [show res.2 + n + 1 + (stop - res.2) + k = stop + (n + 1) + k by omega,
          hbeyond _ (by omega), hbk _ (by omega)]
  · refine pairwise_cons.2 ⟨fun y hy => ?_, pairwise_append.2
      ⟨h.sorted_low.sublist (drop_sublist _ _), h.sorted_high, fun x hx y hy =>
        h.low_le_high x (mem_of_mem_drop hx) y hy⟩⟩
    rcases mem_append.1 hy with hy | hy
    · exact hge y hy
    · exact hsid y hy
  · intro x hx y hy
    rcases mem_cons.1 hy with rfl | hy
    · exact hle x hx
    rcases mem_append.1 hy with hy | hy
    · exact (hle x hx).trans (hge y hy)
    · exact h.low_le_high x (mem_of_mem_take hx) y hy
  · rw [hbeyond _ (by omega), hbk _ (by omega)]

/-- The cells `[0, total)` hold the sorted list `l`, and the other cells are as in `f`. -/
structure Filled (f g : ℕ → ℕ) (total : ℕ) (l : List ℕ) : Prop where
  holds : seg g 0 total = l
  sorted : l.Pairwise (· ≤ ·)
  beyond : ∀ k, total ≤ k → g k = f k

/-- The loop closes the hole: the result is a sorted permutation of the three parts. -/
theorem flushLoop_spec :
    ∀ (ds : List ℕ) (row : VHandle) (stop : ℕ) (xs ys : List ℕ),
      Holed row.versions stop ds.length xs ys → ds.Pairwise (· ≥ ·) →
      (∀ d ∈ ds, ∀ y ∈ ys, d ≤ y) →
      ∃ l, l.Perm (xs ++ ds ++ ys) ∧
        Filled row.versions (flushLoop ds row stop).versions (stop + ds.length + ys.length) l := by
  intro ds
  induction ds with
  | nil =>
    intro row stop xs ys h _ _
    refine ⟨xs ++ ys, by simp, ?_, ?_, fun k _ => rfl⟩
    · rw [flushLoop, length_nil, Nat.add_zero, seg_add, h.low, Nat.zero_add]
      congr 1
      exact h.high
    · exact pairwise_append.2 ⟨h.sorted_low, h.sorted_high, h.low_le_high⟩
  | cons d rest ih =>
    intro row stop xs ys h hds hle
    obtain ⟨hd, hrest⟩ := pairwise_cons.1 hds
    obtain ⟨i, hi, hholed, hlt, hbeyond⟩ := Holed.absorb (n := rest.length) h (hle d (by simp))
    rw [flushLoop]
    simp only
    generalize absorbNewVersionNoLock (bookNewVersionNoLock row d stop) stop rest.length = res at *
    subst hi
    have hlen : xs.length = stop := by simpa using (congrArg List.length h.low).symm
    have hres : res.2 ≤ stop := by
      have := congrArg List.length hholed.low
      simp only [length_seg, length_take] at this
      omega
    obtain ⟨l, hperm, hfilled⟩ := ih res.1 res.2 _ _ hholed hrest fun d' hd' y hy => by
      rcases mem_cons.1 hy with rfl | hy
      · exact hd d' hd'
      rcases mem_append.1 hy with hy | hy
      · -- a version above the slot of `d` is at least `d`, which is at least `d'`
        have hge : d ≤ y := (pairwise_cons.1 hholed.sorted_high).1 y (by simp [hy])
        exact (hd d' hd').trans hge
      · exact hle d' (by simp [hd']) y hy
    have htotal : res.2 + rest.length + (d :: (xs.drop res.2 ++ ys)).length =
        stop + (d :: rest).length + ys.length := by
      simp only [length_cons, length_append, length_drop]
      omega
    rw [htotal] at hfilled
    refine ⟨l, hperm.trans ?_, hfilled.holds, hfilled.sorted, fun k hk => ?_⟩
    · calc xs.take res.2 ++ rest ++ d :: (xs.drop res.2 ++ ys)
          _ ~ d :: (xs.take res.2 ++ rest ++ (xs.drop res.2 ++ ys)) := perm_middle
          _ ~ d :: (xs.take res.2 ++ xs.drop res.2 ++ rest ++ ys) := by
            refine List.Perm.cons _ ?_
            simp only [append_assoc]
            refine List.Perm.append_left _ ?_
            rw [← append_assoc, ← append_assoc]
            exact perm_append_comm.append_right _
          _ = d :: (xs ++ (rest ++ ys)) := by rw [take_append_drop, append_assoc]
          _ ~ xs ++ d :: (rest ++ ys) := perm_middle.symm
          _ = xs ++ (d :: rest) ++ ys := by simp
    · rw [hfilled.beyond k hk, hbeyond k (by simp only [length_cons] at hk; omega)]

/-- Every other field of the row is left alone by the loop. -/
theorem flushLoop_frame : ∀ (ds : List ℕ) (row : VHandle) (stop : ℕ),
    ∃ f, flushLoop ds row stop = { row with versions := f } := by
  intro ds
  induction ds with
  | nil => exact fun row stop => ⟨row.versions, rfl⟩
  | cons d rest ih =>
    intro row stop
    rw [flushLoop]
    simp only
    obtain ⟨f, hf⟩ := absorbNewVersionNoLock_frame
      (bookNewVersionNoLock row d stop) stop rest.length
    obtain ⟨g, hg⟩ := ih (absorbNewVersionNoLock (bookNewVersionNoLock row d stop) stop
      rest.length).1 (absorbNewVersionNoLock (bookNewVersionNoLock row d stop) stop rest.length).2
    exact ⟨g, by rw [hg, hf]; rfl⟩

/-- **A flush is a sorted merge.** The versions before `stop` and the buffer end up sorted in the
cells `[0, stop + n)`, and no other cell changes. -/
theorem flushLoop_merge (row : VHandle) (stop : ℕ) (sids : List ℕ)
    (hs : (seg row.versions 0 stop).Pairwise (· ≤ ·)) :
    ∃ l, l.Perm (seg row.versions 0 stop ++ sids) ∧ Filled row.versions
      (flushLoop (sids.mergeSort (· ≤ ·)).reverse row stop).versions (stop + sids.length) l := by
  have hholed : Holed row.versions stop (sids.mergeSort (· ≤ ·)).reverse.length
      (seg row.versions 0 stop) [] :=
    ⟨rfl, by simp, hs, List.Pairwise.nil, fun x _ y hy => by simp at hy⟩
  have hsorted : (sids.mergeSort (· ≤ ·)).reverse.Pairwise (· ≥ ·) := by
    rw [pairwise_reverse]
    exact pairwise_mergeSort' _ _
  obtain ⟨l, hperm, hfilled⟩ := flushLoop_spec _ row stop _ _ hholed hsorted (by simp)
  simp only [length_reverse, length_mergeSort, length_nil, Nat.add_zero] at hfilled
  refine ⟨l, hperm.trans ?_, hfilled⟩
  rw [append_nil]
  exact List.Perm.append_left _ ((reverse_perm _).trans (mergeSort_perm _ _))

end Felis.Row
