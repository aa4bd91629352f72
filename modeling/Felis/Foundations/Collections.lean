import Mathlib.Tactic

/-!
# Sums over the parts of a state, and scans of sorted lists

A state has one component per element of a finite index set, and a step changes one of them. The
first lemmas say how a sum over the components changes, without subtraction.

A scan stops at the first element that is too far. In a sorted list nothing behind that place is
wanted any more, so the scan finds what a filter finds.
-/

namespace Felis.Sums

open Finset Function

variable {ι A M : Type*} [DecidableEq ι] [AddCommMonoid M]

/-- Replacing one component replaces one summand. -/
theorem sum_update_add (s : Finset ι) (f : ι → A → M) (g : ι → A) {i : ι} (hi : i ∈ s) (a : A) :
    ∑ j ∈ s, f j (update g i a j) + f i (g i) = ∑ j ∈ s, f j (g j) + f i a := by
  have hcongr : ∑ j ∈ s.erase i, f j (update g i a j) = ∑ j ∈ s.erase i, f j (g j) :=
    sum_congr rfl fun j hj => by rw [update_of_ne (ne_of_mem_erase hj)]
  rw [← add_sum_erase s _ hi, ← add_sum_erase s (fun j => f j (g j)) hi, hcongr,
    update_self]
  abel

/-- A set that a map sends into a disjoint sum, counted by its fibres. -/
theorem sum_fiberwise_sumType {κ α β : Type*} [DecidableEq α] [DecidableEq β] (s : Finset κ)
    (t : Finset α) (u : Finset β) (o : κ → α ⊕ β) (ht : ∀ k ∈ s, ∀ a, o k = .inl a → a ∈ t)
    (hu : ∀ k ∈ s, ∀ b, o k = .inr b → b ∈ u) (f : κ → M) :
    ∑ k ∈ s, f k = ∑ a ∈ t, ∑ k ∈ s with o k = .inl a, f k +
      ∑ b ∈ u, ∑ k ∈ s with o k = .inr b, f k := by
  have hmaps : ∀ k ∈ s, o k ∈ t.disjSum u := fun k hk => by
    cases ho : o k with
    | inl a => exact inl_mem_disjSum.2 (ht k hk a ho)
    | inr b => exact inr_mem_disjSum.2 (hu k hk b ho)
  rw [← sum_fiberwise_of_maps_to hmaps, sum_disjSum]

end Felis.Sums

namespace Felis.Scans

open List

variable {α : Type*} {l : List α}

/-- When the wanted elements come first, none of them is behind the first other one. -/
theorem takeWhile_eq_filter {p : α → Bool}
    (hsorted : l.Pairwise fun x y => p y = true → p x = true) : l.takeWhile p = l.filter p := by
  induction l with
  | nil => rfl
  | cons x l ih =>
    obtain ⟨hx, hl⟩ := pairwise_cons.1 hsorted
    by_cases hp : p x = true
    · rw [takeWhile_cons_of_pos hp, filter_cons_of_pos hp, ih hl]
    · rw [takeWhile_cons_of_neg hp, filter_cons_of_neg hp]
      symm
      rw [filter_eq_nil_iff]
      exact fun y hy hy' => hp (hx y hy hy')

end Felis.Scans
