import Mathlib.Tactic

/-!
# Distributing an amount

An amount is distributed in parts, each of which goes to a receiver. `fill` does this greedily: one
receiver after the other gets what it can take, until nothing is left. The parts are stored as
running totals (`totals`), of which they are the `increments`.
-/

namespace Felis.Distribution

open List

variable {C : Type*} {s : ℤ} {xs : List ℤ}

/-! ## Running totals -/

/-- The running totals of the amounts, from `s` on. -/
def totals (s : ℤ) : List ℤ → List ℤ
  | [] => []
  | x :: xs => (s + x) :: totals (s + x) xs

/-- The differences between the entries, from `s` on. -/
def increments (s : ℤ) : List ℤ → List ℤ
  | [] => []
  | d :: ds => (d - s) :: increments d ds

@[simp] theorem length_totals (s : ℤ) (xs : List ℤ) : (totals s xs).length = xs.length := by
  induction xs generalizing s with
  | nil => rfl
  | cons x xs ih => rw [totals, length_cons, ih, length_cons]

@[simp] theorem increments_totals (s : ℤ) (xs : List ℤ) : increments s (totals s xs) = xs := by
  induction xs generalizing s with
  | nil => rfl
  | cons x xs ih => rw [totals, increments, ih, add_sub_cancel_left]

/-- The last total is the whole amount. -/
theorem getLastD_totals (s : ℤ) (xs : List ℤ) : (totals s xs).getLastD s = s + xs.sum := by
  induction xs generalizing s with
  | nil => exact (add_zero s).symm
  | cons x xs ih => rw [totals, getLastD_cons, ih, sum_cons, add_assoc]

theorem lt_of_mem_totals (hpos : ∀ x ∈ xs, 0 < x) {d : ℤ} (hd : d ∈ totals s xs) : s < d := by
  induction xs generalizing s with
  | nil => cases hd
  | cons x xs ih =>
    have hx := hpos x (mem_cons_self ..)
    rcases mem_cons.1 hd with rfl | hd
    · omega
    · have := ih (fun y hy => hpos y (mem_cons_of_mem x hy)) hd
      omega

theorem pairwise_totals (hpos : ∀ x ∈ xs, 0 < x) : (totals s xs).Pairwise (· < ·) := by
  induction xs generalizing s with
  | nil => exact .nil
  | cons x xs ih =>
    have htail : ∀ y ∈ xs, 0 < y := fun y hy => hpos y (mem_cons_of_mem x hy)
    exact .cons (fun d hd => lt_of_mem_totals htail hd) (ih htail)

/-! ## What a receiver gets -/

/-- The amounts of the parts that go to `c`. -/
def given [DecidableEq C] (ps : List (C × ℤ)) (c : C) : ℤ :=
  (ps.map fun p => if p.1 = c then p.2 else 0).sum

section

variable [DecidableEq C] {ps : List (C × ℤ)} {c : C}

@[simp] theorem given_nil (c : C) : given [] c = 0 := rfl

@[simp] theorem given_cons (p : C × ℤ) (ps : List (C × ℤ)) (c : C) :
    given (p :: ps) c = (if p.1 = c then p.2 else 0) + given ps c := by
  rw [given, map_cons, sum_cons, given]

theorem given_of_not_mem (h : c ∉ ps.map Prod.fst) : given ps c = 0 := by
  induction ps with
  | nil => rfl
  | cons p ps ih =>
    rw [map_cons, mem_cons, not_or] at h
    rw [given_cons, if_neg (Ne.symm h.1), ih h.2, add_zero]

/-- With one part for each receiver, a receiver gets this part. -/
theorem given_of_mem (hnodup : (ps.map Prod.fst).Nodup) {x : ℤ} (h : (c, x) ∈ ps) :
    given ps c = x := by
  induction ps with
  | nil => cases h
  | cons p ps ih =>
    obtain ⟨hp, hnodup⟩ := nodup_cons.1 hnodup
    rcases mem_cons.1 h with rfl | h
    · rw [given_cons, if_pos rfl, given_of_not_mem hp, add_zero]
    · have hne : p.1 ≠ c := by
        rintro rfl
        exact hp (mem_map.2 ⟨_, h, rfl⟩)
      rw [given_cons, if_neg hne, ih hnodup h, zero_add]

/-- Nothing gets lost. -/
theorem sum_given [Fintype C] (ps : List (C × ℤ)) : ∑ c, given ps c = (ps.map Prod.snd).sum := by
  induction ps with
  | nil => exact Finset.sum_eq_zero fun c _ => given_nil c
  | cons p ps ih =>
    simp only [given_cons, Finset.sum_add_distrib, ih, Finset.sum_ite_eq, Finset.mem_univ, if_true,
      map_cons, sum_cons]

end

/-! ## Greedy filling -/

/-- The receivers get what they can take, in their order, until nothing is left. -/
def fill (cap : C → ℤ) : ℤ → List C → List (C × ℤ)
  | _, [] => []
  | left, c :: cs =>
    if 0 < left then (c, min left (cap c)) :: fill cap (left - min left (cap c)) cs else []

section

variable {cap : C → ℤ} {left : ℤ} {cs : List C}

theorem fill_of_nonpos (hleft : left ≤ 0) : fill cap left cs = [] := by
  cases cs with
  | nil => rfl
  | cons c cs => rw [fill, if_neg (by omega)]

theorem fill_sublist (cap : C → ℤ) (left : ℤ) (cs : List C) :
    ((fill cap left cs).map Prod.fst).Sublist cs := by
  induction cs generalizing left with
  | nil => exact .slnil
  | cons c cs ih =>
    rw [fill]
    split_ifs
    · exact (ih _).cons_cons c
    · exact nil_sublist _

theorem fill_congr {cap' : C → ℤ} (h : ∀ c ∈ cs, cap c = cap' c) :
    fill cap left cs = fill cap' left cs := by
  induction cs generalizing left with
  | nil => rfl
  | cons c cs ih =>
    have htail : ∀ c' ∈ cs, cap c' = cap' c' := fun c' hc' => h c' (mem_cons_of_mem c hc')
    rw [fill, fill, h c (mem_cons_self ..), ih htail]

/-- Every part is positive, and the receiver can take it. -/
theorem bounds_of_mem_fill (hcap : ∀ c ∈ cs, 0 < cap c) {p : C × ℤ} (hp : p ∈ fill cap left cs) :
    0 < p.2 ∧ p.2 ≤ cap p.1 := by
  induction cs generalizing left with
  | nil => cases hp
  | cons c cs ih =>
    rw [fill] at hp
    split_ifs at hp with hleft
    · rcases mem_cons.1 hp with rfl | hp
      · exact ⟨lt_min hleft (hcap c (mem_cons_self ..)), min_le_right _ _⟩
      · exact ih (fun c' hc' => hcap c' (mem_cons_of_mem c hc')) hp
    · cases hp

theorem sum_fill_le (hleft : 0 ≤ left) (cs : List C) :
    ((fill cap left cs).map Prod.snd).sum ≤ left := by
  induction cs generalizing left with
  | nil => exact hleft
  | cons c cs ih =>
    rw [fill]
    split_ifs
    · have := @ih (left - min left (cap c)) (by omega)
      rw [map_cons, sum_cons]
      omega
    · exact hleft

/-- When something is left in the end, all receivers are full. -/
theorem fill_eq_of_sum_lt (h : ((fill cap left cs).map Prod.snd).sum < left) :
    fill cap left cs = cs.map fun c => (c, cap c) := by
  induction cs generalizing left with
  | nil => rfl
  | cons c cs ih =>
    rw [fill] at h ⊢
    split_ifs at h ⊢ with hleft
    · rw [map_cons, sum_cons] at h
      have hpos : min left (cap c) < left := by
        by_contra hge
        rw [fill_of_nonpos (by omega)] at h
        simp only [map_nil, sum_nil] at h
        omega
      have hcap : min left (cap c) = cap c := by omega
      rw [hcap] at h ⊢
      rw [ih (by omega), map_cons]
    · exact absurd h hleft

end

end Felis.Distribution
