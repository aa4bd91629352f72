import Mathlib.Order.Basic
import Mathlib.Data.Nat.Find

/-!
# Chains of users

Numbered users share resources. Every resource orders its users by their numbers, and `IsPrev`
relates neighbours in this order. A user releases its resources one by one; it is free when its
neighbours before it have released what they share with it.

If only free users release anything, then all earlier users of its resources have released them when
a user is free (`Free.all_released`), and as long as not everything is released there is a free user
that has something to release (`exists_free`).
-/

namespace Felis.Chains

variable {R : Type*}

/-- `p` is the last user of `r` before the user `q`. -/
structure IsPrev (uses : ℕ → R → Prop) (p : ℕ) (r : R) (q : ℕ) : Prop where
  left : uses p r
  right : uses q r
  lt : p < q
  between : ∀ m, p < m → m < q → ¬uses m r

def Free (uses released : ℕ → R → Prop) (q : ℕ) : Prop :=
  ∀ r p, IsPrev uses p r q → released p r

variable {uses released : ℕ → R → Prop} {p p' q q' : ℕ} {r : R}

theorem IsPrev.left_unique (h : IsPrev uses p r q) (h' : IsPrev uses p' r q) : p = p' := by
  rcases lt_trichotomy p p' with hlt | heq | hlt
  · exact absurd h'.left (h.between p' hlt h'.lt)
  · exact heq
  · exact absurd h.left (h'.between p hlt h.lt)

theorem IsPrev.right_unique (h : IsPrev uses p r q) (h' : IsPrev uses p r q') : q = q' := by
  rcases lt_trichotomy q q' with hlt | heq | hlt
  · exact absurd h.right (h'.between q h.lt hlt)
  · exact heq
  · exact absurd h'.right (h.between q' h'.lt hlt)

/-- Behind an earlier user there is a last one. -/
theorem exists_isPrev (hp : uses p r) (hq : uses q r) (hlt : p < q) :
    ∃ p', IsPrev uses p' r q ∧ p ≤ p' := by
  classical
  -- the last user is the greatest number below `q` that uses `r`
  have hle : p ≤ q - 1 := Nat.le_sub_one_of_lt hlt
  refine ⟨Nat.findGreatest (uses · r) (q - 1),
    ⟨Nat.findGreatest_spec (P := (uses · r)) hle hp, hq, ?_, ?_⟩, Nat.le_findGreatest hle hp⟩
  · have := Nat.findGreatest_le (P := (uses · r)) (q - 1)
    omega
  · intro m hm hmq
    exact Nat.findGreatest_is_greatest hm (Nat.le_sub_one_of_lt hmq)

theorem Free.all_released (hq : Free uses released q)
    (hfree : ∀ p r, uses p r → released p r → Free uses released p) :
    ∀ p r, p < q → uses p r → uses q r → released p r := by
  induction q using Nat.strong_induction_on with
  | _ q ih =>
    intro p r hlt hp hr
    obtain ⟨p', hprev, hle⟩ := exists_isPrev hp hr hlt
    have hrel := hq r p' hprev
    rcases hle.eq_or_lt with rfl | hlt'
    · exact hrel
    · exact ih p' hprev.lt (hfree p' r hprev.left hrel) p r hlt' hp hprev.left

theorem exists_free (h : ∃ q r, uses q r ∧ ¬released q r) :
    ∃ q, Free uses released q ∧ ∃ r, uses q r ∧ ¬released q r := by
  classical
  refine ⟨Nat.find h, ?_, Nat.find_spec h⟩
  intro r p hprev
  by_contra hrel
  exact Nat.find_min h hprev.lt ⟨r, hprev.left, hrel⟩

end Felis.Chains
