import Mathlib.Tactic

/-!
# Subset sums

`best ws c` is the largest sum of a sublist of `ws` that does not exceed `c`, by the recursion that
takes or leaves the first element (`isGreatest_best`). `take` is the decision that a table of `best`
allows: the first element is taken when this is strictly better.
-/

namespace Felis.SubsetSum

variable {ws ws' t : List ℕ} {w c d : ℕ}

/-- The largest sum of a sublist that does not exceed the bound. -/
def best : List ℕ → ℕ → ℕ
  | [], _ => 0
  | w :: ws, c => if w ≤ c then max (best ws c) (w + best ws (c - w)) else best ws c

/-- The sums of sublists up to the bound. -/
def sums (ws : List ℕ) (c : ℕ) : Set ℕ := {x | ∃ t : List ℕ, t.Sublist ws ∧ t.sum = x ∧ x ≤ c}

theorem exists_sublist_best (ws : List ℕ) (c : ℕ) :
    ∃ t : List ℕ, t.Sublist ws ∧ t.sum = best ws c ∧ best ws c ≤ c := by
  induction ws generalizing c with
  | nil => exact ⟨[], .slnil, rfl, Nat.zero_le c⟩
  | cons w ws ih =>
    obtain ⟨t, ht, hsum, hle⟩ := ih c
    rw [best]
    split_ifs with hw
    · obtain ⟨t', ht', hsum', hle'⟩ := ih (c - w)
      rcases max_cases (best ws c) (w + best ws (c - w)) with ⟨hmax, -⟩ | ⟨hmax, -⟩
      · exact ⟨t, ht.cons w, hsum.trans hmax.symm, hmax.trans_le hle⟩
      · refine ⟨w :: t', ht'.cons_cons w, ?_, by omega⟩
        rw [List.sum_cons, hsum', hmax]
    · exact ⟨t, ht.cons w, hsum, hle⟩

theorem sum_le_best (ht : t.Sublist ws) (hc : t.sum ≤ c) : t.sum ≤ best ws c := by
  induction ht generalizing c with
  | slnil => exact Nat.zero_le _
  | cons w _ ih =>
    rw [best]
    split_ifs
    · exact (ih hc).trans (le_max_left _ _)
    · exact ih hc
  | cons_cons w _ ih =>
    rw [List.sum_cons] at hc ⊢
    rw [best, if_pos (by omega)]
    exact (Nat.add_le_add_left (ih (by omega)) w).trans (le_max_right _ _)

/-- **`best` is the best subset sum.** -/
theorem isGreatest_best (ws : List ℕ) (c : ℕ) : IsGreatest (sums ws c) (best ws c) := by
  constructor
  · exact exists_sublist_best ws c
  · rintro _ ⟨t, ht, rfl, hc⟩
    exact sum_le_best ht hc

/-- More elements and a larger bound do not make it smaller. -/
theorem best_mono (hws : ws.Sublist ws') (hcd : c ≤ d) : best ws c ≤ best ws' d := by
  obtain ⟨t, ht, hsum, hle⟩ := exists_sublist_best ws c
  rw [← hsum] at hle ⊢
  exact sum_le_best (ht.trans hws) (hle.trans hcd)

theorem sums_reverse (ws : List ℕ) (c : ℕ) : sums ws.reverse c = sums ws c := by
  have hsub : ∀ ws : List ℕ, sums ws c ⊆ sums ws.reverse c := by
    rintro ws _ ⟨t, ht, rfl, hc⟩
    exact ⟨t.reverse, List.reverse_sublist.2 ht, List.sum_reverse t, hc⟩
  apply subset_antisymm
  · simpa using hsub ws.reverse
  · exact hsub ws

theorem best_reverse (ws : List ℕ) (c : ℕ) : best ws.reverse c = best ws c :=
  (sums_reverse ws c ▸ isGreatest_best ws.reverse c).unique (isGreatest_best ws c)

/-! ## The decision for one element -/

/-- Taking the element is strictly better. -/
def take (ws : List ℕ) (w c : ℕ) : Prop := w ≤ c ∧ best ws c < w + best ws (c - w)

theorem best_cons_of_take (h : take ws w c) : best (w :: ws) c = w + best ws (c - w) := by
  rw [best, if_pos h.1, max_eq_right h.2.le]

theorem best_cons_of_not_take (h : ¬take ws w c) : best (w :: ws) c = best ws c := by
  rw [best]
  split_ifs with hw
  · have hle : w + best ws (c - w) ≤ best ws c := Nat.le_of_not_lt fun hlt => h ⟨hw, hlt⟩
    exact max_eq_left hle
  · rfl

end Felis.SubsetSum
