import Felis.Foundations.Cells

/-!
# Binary heaps

The heap operations of the C++ standard library, on the first `n` cells of a block. `comp` is the
comparison that they are given, with a largest element in front: `pushHeap` lets the last cell rise,
and `popHeap` exchanges the first cell with the last and lets the new first one sink.

Whatever the comparison is, the operations only exchange cells of the range. When it is a strict
weak order, they keep `IsHeap`, and no element of a heap is larger than the first one. The
operations compare elements of the range only, so it can be one there (`pushHeap_congr`,
`popHeap_congr`).
-/

namespace Felis.BinaryHeap

open Cells List

variable {α : Type*} {comp : α → α → Bool} {a b : ℕ → α} {n i j k : ℕ}

/-! ## The operations -/

def parent (i : ℕ) : ℕ := (i - 1) / 2

/-- The larger child of a cell. -/
def child (comp : α → α → Bool) (a : ℕ → α) (n i : ℕ) : ℕ :=
  if 2 * i + 2 < n ∧ comp (a (2 * i + 1)) (a (2 * i + 2)) then 2 * i + 2 else 2 * i + 1

def siftUp (comp : α → α → Bool) : ℕ → (ℕ → α) → ℕ → ℕ → α
  | 0, a, _ => a
  | fuel + 1, a, i =>
    if 0 < i ∧ comp (a (parent i)) (a i) then
      siftUp comp fuel (a ∘ Equiv.swap (parent i) i) (parent i)
    else a

def siftDown (comp : α → α → Bool) (n : ℕ) : ℕ → (ℕ → α) → ℕ → ℕ → α
  | 0, a, _ => a
  | fuel + 1, a, i =>
    if 2 * i + 1 < n ∧ comp (a (child comp a n i)) (a i) = false then
      siftDown comp n fuel (a ∘ Equiv.swap i (child comp a n i)) (child comp a n i)
    else a

/-- `std::push_heap(a, a + n, comp)`. -/
def pushHeap (comp : α → α → Bool) (a : ℕ → α) (n : ℕ) : ℕ → α := siftUp comp n a (n - 1)

/-- `std::pop_heap(a, a + n, comp)`. -/
def popHeap (comp : α → α → Bool) (a : ℕ → α) (n : ℕ) : ℕ → α :=
  siftDown comp (n - 1) n (a ∘ Equiv.swap 0 (n - 1)) 0

/-- `std::make_heap(a, a + n, comp)`. -/
def makeHeap (comp : α → α → Bool) (a : ℕ → α) (n : ℕ) : ℕ → α :=
  (List.range (n / 2)).foldr (fun i a => siftDown comp n n a i) a

theorem parent_lt (hi : 0 < i) : parent i < i := by
  unfold parent
  omega

theorem parent_eq_iff (hj : 0 < j) : parent j = i ↔ j = 2 * i + 1 ∨ j = 2 * i + 2 := by
  unfold parent
  omega

theorem child_lt (h : 2 * i + 1 < n) : child comp a n i < n := by
  unfold child
  split_ifs with hc
  · exact hc.1
  · exact h

theorem parent_child : parent (child comp a n i) = i := by
  unfold child parent
  split_ifs <;> omega

theorem lt_child : i < child comp a n i := by
  unfold child
  split_ifs <;> omega

/-! ## The operations exchange cells -/

theorem perm_seg_swap (hi : i < n) (hj : j < n) :
    (seg (a ∘ Equiv.swap i j) 0 n).Perm (seg a 0 n) := by
  have hrange : ((List.range n).map (Equiv.swap i j)).Perm (List.range n) := by
    refine (perm_ext_iff_of_nodup (nodup_range.map (Equiv.swap i j).injective)
      nodup_range).2 fun k => ?_
    simp only [mem_map, mem_range]
    constructor
    · rintro ⟨m, hm, rfl⟩
      rw [Equiv.swap_apply_def]
      split_ifs <;> assumption
    · intro hk
      refine ⟨Equiv.swap i j k, ?_, Equiv.swap_apply_self i j k⟩
      rw [Equiv.swap_apply_def]
      split_ifs <;> assumption
  have hmap := hrange.map a
  rw [map_map] at hmap
  simpa [seg, Function.comp_def] using hmap

/-- The two blocks differ by exchanges of the first `n` cells. -/
structure Rearranged (n : ℕ) (a b : ℕ → α) : Prop where
  perm : (seg b 0 n).Perm (seg a 0 n)
  outside : ∀ k, n ≤ k → b k = a k

theorem Rearranged.refl (n : ℕ) (a : ℕ → α) : Rearranged n a a := ⟨.refl _, fun _ _ => rfl⟩

theorem rearranged_swap (hi : i < n) (hj : j < n) : Rearranged n a (a ∘ Equiv.swap i j) where
  perm := perm_seg_swap hi hj
  outside k hk := by
    rw [Function.comp_apply, Equiv.swap_apply_of_ne_of_ne (by omega) (by omega)]

theorem Rearranged.trans {c : ℕ → α} (hab : Rearranged n a b) (hbc : Rearranged n b c) :
    Rearranged n a c where
  perm := hbc.perm.trans hab.perm
  outside k hk := (hbc.outside k hk).trans (hab.outside k hk)

theorem Rearranged.mono {m : ℕ} (h : Rearranged n a b) (hle : n ≤ m) : Rearranged m a b where
  perm := by
    obtain ⟨d, rfl⟩ := Nat.exists_eq_add_of_le hle
    rw [seg_add, seg_add]
    refine h.perm.append (.of_eq (seg_congr fun i _ => ?_))
    exact h.outside _ (by omega)
  outside k hk := h.outside k (hle.trans hk)

theorem rearranged_siftUp (fuel : ℕ) (a : ℕ → α) (hi : i < n) :
    Rearranged n a (siftUp comp fuel a i) := by
  induction fuel generalizing a i with
  | zero => exact .refl n a
  | succ fuel ih =>
    rw [siftUp]
    split_ifs with h
    · have hp := parent_lt h.1
      exact (rearranged_swap (by omega) hi).trans (ih _ (by omega))
    · exact .refl n a

theorem rearranged_siftDown (fuel : ℕ) (a : ℕ → α) (i : ℕ) :
    Rearranged n a (siftDown comp n fuel a i) := by
  induction fuel generalizing a i with
  | zero => exact .refl n a
  | succ fuel ih =>
    rw [siftDown]
    split_ifs with h
    · exact (rearranged_swap (by omega) (child_lt h.1)).trans (ih _ _)
    · exact .refl n a

theorem rearranged_pushHeap (hn : 0 < n) (a : ℕ → α) : Rearranged n a (pushHeap comp a n) :=
  rearranged_siftUp n a (by omega)

theorem rearranged_popHeap (hn : 0 < n) (a : ℕ → α) : Rearranged n a (popHeap comp a n) :=
  (rearranged_swap hn (by omega)).trans ((rearranged_siftDown n _ 0).mono (by omega))

theorem rearranged_makeHeap (n : ℕ) (a : ℕ → α) : Rearranged n a (makeHeap comp a n) := by
  unfold makeHeap
  induction List.range (n / 2) with
  | nil => exact .refl n a
  | cons i is ih => exact ih.trans (rearranged_siftDown n _ i)

/-- `popHeap` moves the first cell to the end. -/
theorem popHeap_last (a : ℕ → α) (n : ℕ) : popHeap comp a n (n - 1) = a 0 := by
  rw [popHeap, (rearranged_siftDown n _ 0).outside _ le_rfl, Function.comp_apply,
    Equiv.swap_apply_right]

/-- What `popHeap` leaves in front of the last cell. -/
theorem perm_popHeap (comp : α → α → Bool) (hn : 0 < n) (a : ℕ → α) :
    (a 0 :: seg (popHeap comp a n) 0 (n - 1)).Perm (seg a 0 n) := by
  obtain ⟨m, rfl⟩ : ∃ m, n = m + 1 := ⟨n - 1, by omega⟩
  have hperm : (seg (popHeap comp a (m + 1)) 0 (m + 1)).Perm (seg a 0 (m + 1)) :=
    (rearranged_popHeap hn a).perm
  have hlast : popHeap comp a (m + 1) m = a 0 := popHeap_last a (m + 1)
  rw [seg_succ, Nat.zero_add, hlast] at hperm
  exact (perm_append_singleton _ _).symm.trans hperm

/-! ## The order -/

/-- No element of the heap is larger than its parent. -/
def IsHeap (comp : α → α → Bool) (a : ℕ → α) (n : ℕ) : Prop :=
  ∀ k, 0 < k → k < n → comp (a (parent k)) (a k) = false

/-- What the C++ standard requires of a comparison. -/
structure StrictWeakOrder (comp : α → α → Bool) : Prop where
  asymm : ∀ x y, comp x y = true → comp y x = false
  not_trans : ∀ x y z, comp x y = false → comp y z = false → comp x z = false

theorem StrictWeakOrder.irrefl (h : StrictWeakOrder comp) (x : α) : comp x x = false := by
  cases hx : comp x x with
  | false => rfl
  | true => rw [← hx, h.asymm x x hx]

theorem IsHeap.congr (h : IsHeap comp a n) (heq : ∀ k < n, b k = a k) : IsHeap comp b n := by
  intro k hk hlt
  rw [heq k hlt, heq _ ((parent_lt hk).trans hlt)]
  exact h k hk hlt

/-- The first element is a largest one. -/
theorem IsHeap.root (hc : StrictWeakOrder comp) (h : IsHeap comp a n) :
    ∀ k < n, comp (a 0) (a k) = false := by
  intro k
  induction k using Nat.strong_induction_on with
  | h k ih =>
    intro hlt
    rcases Nat.eq_zero_or_pos k with rfl | hk
    · exact hc.irrefl _
    · have hp := parent_lt hk
      exact hc.not_trans _ _ _ (ih _ hp (hp.trans hlt)) (h k hk hlt)

/-- Only the cell `i` may be larger than its parent, and its parent is not smaller than its
children. -/
structure Rising (comp : α → α → Bool) (a : ℕ → α) (n i : ℕ) : Prop where
  except : ∀ k, 0 < k → k < n → k ≠ i → comp (a (parent k)) (a k) = false
  grand : 0 < i → ∀ k, 0 < k → k < n → parent k = i → comp (a (parent i)) (a k) = false

theorem Rising.isHeap (h : Rising comp a n i) (hi : 0 < i → comp (a (parent i)) (a i) = false) :
    IsHeap comp a n := by
  intro k hk hlt
  by_cases hki : k = i
  · subst hki
    exact hi hk
  · exact h.except k hk hlt hki

theorem Rising.swap (hc : StrictWeakOrder comp) (h : Rising comp a n i) (hi : 0 < i) (hin : i < n)
    (hlt : comp (a (parent i)) (a i) = true) :
    Rising comp (a ∘ Equiv.swap (parent i) i) n (parent i) := by
  have hp := parent_lt hi
  have hself : (a ∘ Equiv.swap (parent i) i) i = a (parent i) := by simp
  have hparent : (a ∘ Equiv.swap (parent i) i) (parent i) = a i := by simp
  have hother : ∀ k, k ≠ i → k ≠ parent i → (a ∘ Equiv.swap (parent i) i) k = a k := by
    intro k hk hk'
    rw [Function.comp_apply, Equiv.swap_apply_of_ne_of_ne hk' hk]
  constructor
  · intro k hk hkn hkp
    have hpk := parent_lt hk
    by_cases hki : k = i
    · subst hki
      rw [hself, hparent]
      exact hc.asymm _ _ hlt
    · rw [hother k hki hkp]
      by_cases hpi : parent k = i
      · rw [hpi, hself]
        exact h.grand hi k hk hkn hpi
      · by_cases hpp : parent k = parent i
        · rw [hpp, hparent]
          have hsib := h.except k hk hkn hki
          rw [hpp] at hsib
          exact hc.not_trans _ _ _ (hc.asymm _ _ hlt) hsib
        · rw [hother _ hpi hpp]
          exact h.except k hk hkn hki
  · intro hpos k hk hkn hkp
    have hpp := parent_lt hpos
    have hup := h.except (parent i) hpos (by omega) (by omega)
    rw [hother (parent (parent i)) (by omega) (by omega)]
    by_cases hki : k = i
    · rw [hki, hself]
      exact hup
    · have hkk := parent_lt hk
      rw [hother k hki (by omega)]
      have hsib := h.except k hk hkn hki
      rw [hkp] at hsib
      exact hc.not_trans _ _ _ hup hsib

theorem isHeap_siftUp (hc : StrictWeakOrder comp) {fuel : ℕ} (h : Rising comp a n i) (hin : i < n)
    (hfuel : i ≤ fuel) : IsHeap comp (siftUp comp fuel a i) n := by
  induction fuel generalizing a i with
  | zero => exact h.isHeap fun hi => by omega
  | succ fuel ih =>
    rw [siftUp]
    split_ifs with hlt
    · have hp := parent_lt hlt.1
      exact ih (h.swap hc hlt.1 hin hlt.2) (by omega) (by omega)
    · exact h.isHeap fun hi => by simpa [hi] using hlt

/-- `std::push_heap` makes a heap of a heap with one more element behind it. -/
theorem isHeap_pushHeap (hc : StrictWeakOrder comp) (hn : 0 < n) (h : IsHeap comp a (n - 1)) :
    IsHeap comp (pushHeap comp a n) n := by
  refine isHeap_siftUp hc ⟨fun k hk hkn hne => h k hk (by omega), ?_⟩ (by omega) (by omega)
  intro hi k hk hkn hp
  have := parent_lt hk
  omega

/-- Only the cell `i` may be smaller than its children, and its parent is not smaller than them. -/
structure Sinking (comp : α → α → Bool) (a : ℕ → α) (n i : ℕ) : Prop where
  except : ∀ k, 0 < k → k < n → parent k ≠ i → comp (a (parent k)) (a k) = false
  grand : 0 < i → ∀ k, 0 < k → k < n → parent k = i → comp (a (parent i)) (a k) = false

section

variable (hc : StrictWeakOrder comp)

include hc

/-- The larger child is not smaller than its sibling. -/
theorem child_largest (hk : 0 < k) (hkn : k < n) (hp : parent k = i) :
    comp (a (child comp a n i)) (a k) = false := by
  unfold child
  rcases (parent_eq_iff hk).1 hp with rfl | rfl
  · split_ifs with h
    · exact hc.asymm _ _ h.2
    · exact hc.irrefl _
  · split_ifs with h
    · exact hc.irrefl _
    · simpa [hkn] using h

theorem Sinking.isHeap (h : Sinking comp a n i)
    (hi : 2 * i + 1 < n → comp (a (child comp a n i)) (a i) = true) : IsHeap comp a n := by
  intro k hk hkn
  by_cases hp : parent k = i
  · have hin : 2 * i + 1 < n := by
      rcases (parent_eq_iff hk).1 hp with rfl | rfl <;> omega
    rw [hp]
    exact hc.not_trans _ _ _ (hc.asymm _ _ (hi hin)) (child_largest hc hk hkn hp)
  · exact h.except k hk hkn hp

theorem Sinking.swap (h : Sinking comp a n i) (hin : 2 * i + 1 < n)
    (hle : comp (a (child comp a n i)) (a i) = false) :
    Sinking comp (a ∘ Equiv.swap i (child comp a n i)) n (child comp a n i) := by
  have hlt : i < child comp a n i := lt_child
  have hcn : child comp a n i < n := child_lt hin
  have hpc : parent (child comp a n i) = i := parent_child
  have hlargest : ∀ k, 0 < k → k < n → parent k = i → comp (a (child comp a n i)) (a k) = false :=
    fun k hk hkn hp => child_largest hc hk hkn hp
  generalize child comp a n i = c at *
  have hself : (a ∘ Equiv.swap i c) i = a c := by simp
  have hchild : (a ∘ Equiv.swap i c) c = a i := by simp
  have hother : ∀ k, k ≠ i → k ≠ c → (a ∘ Equiv.swap i c) k = a k := by
    intro k hk hk'
    rw [Function.comp_apply, Equiv.swap_apply_of_ne_of_ne hk hk']
  constructor
  · intro k hk hkn hkp
    have hpk := parent_lt hk
    by_cases hki : k = i
    · subst hki
      rw [hself, hother _ (by omega) (by omega)]
      exact h.grand hk c (by omega) hcn hpc
    · by_cases hpi : parent k = i
      · rw [hpi, hself]
        by_cases hkc : k = c
        · rw [hkc, hchild]
          exact hle
        · rw [hother k hki hkc]
          exact hlargest k hk hkn hpi
      · have hkc : k ≠ c := by
          rintro rfl
          exact hpi hpc
        rw [hother _ hpi hkp, hother k hki hkc]
        exact h.except k hk hkn hpi
  · intro hpos k hk hkn hkp
    have hpk := parent_lt hk
    rw [hpc, hself, hother k (by omega) (by omega)]
    have hpair := h.except k hk hkn (by omega)
    rwa [hkp] at hpair

theorem isHeap_siftDown {fuel : ℕ} (h : Sinking comp a n i) (hfuel : n ≤ fuel + i) :
    IsHeap comp (siftDown comp n fuel a i) n := by
  induction fuel generalizing a i with
  | zero => exact h.isHeap hc fun hi => by omega
  | succ fuel ih =>
    rw [siftDown]
    split_ifs with hle
    · have hlt : i < child comp a n i := lt_child
      exact ih (h.swap hc hle.1 hle.2) (by omega)
    · exact h.isHeap hc fun hi => by simpa [hi] using hle

/-- `std::pop_heap` leaves a heap in front of the last cell. -/
theorem isHeap_popHeap (h : IsHeap comp a n) : IsHeap comp (popHeap comp a n) (n - 1) := by
  refine isHeap_siftDown hc ⟨fun k hk hkn hp => ?_, fun hi => absurd hi (lt_irrefl 0)⟩ (by omega)
  have hpk := parent_lt hk
  rw [Function.comp_apply, Function.comp_apply, Equiv.swap_apply_of_ne_of_ne hp (by omega),
    Equiv.swap_apply_of_ne_of_ne (by omega) (by omega)]
  exact h k hk (by omega)

end

/-! ## The comparison outside of the range -/

section

variable {comp' : α → α → Bool} {S : α → Prop}

theorem forall_swap (hS : ∀ k < n, S (a k)) (hi : i < n) (hj : j < n) :
    ∀ k < n, S ((a ∘ Equiv.swap i j) k) := by
  intro k hk
  rw [Function.comp_apply, Equiv.swap_apply_def]
  split_ifs
  · exact hS j hj
  · exact hS i hi
  · exact hS k hk

variable (hcomp : ∀ x y, S x → S y → comp x y = comp' x y)

include hcomp

theorem siftUp_congr (fuel : ℕ) (hS : ∀ k < n, S (a k)) (hi : i < n) :
    siftUp comp fuel a i = siftUp comp' fuel a i := by
  induction fuel generalizing a i with
  | zero => rfl
  | succ fuel ih =>
    have hp : parent i < n := by
      unfold parent
      omega
    rw [siftUp, siftUp, hcomp _ _ (hS _ hp) (hS i hi), ih (forall_swap hS hp hi) hp]

theorem child_congr (hS : ∀ k < n, S (a k)) : child comp a n i = child comp' a n i := by
  unfold child
  by_cases h : 2 * i + 2 < n
  · rw [hcomp _ _ (hS _ (by omega)) (hS _ h)]
  · rw [if_neg fun hc => h hc.1, if_neg fun hc => h hc.1]

theorem siftDown_congr (fuel : ℕ) (hS : ∀ k < n, S (a k)) :
    siftDown comp n fuel a i = siftDown comp' n fuel a i := by
  induction fuel generalizing a i with
  | zero => rfl
  | succ fuel ih =>
    rw [siftDown, siftDown, child_congr hcomp hS]
    by_cases h : 2 * i + 1 < n
    · have hc : child comp' a n i < n := child_lt h
      have hi : i < n := by omega
      rw [hcomp _ _ (hS _ hc) (hS i hi), ih (forall_swap hS hi hc)]
    · rw [if_neg fun hc => h hc.1, if_neg fun hc => h hc.1]

theorem pushHeap_congr (hn : 0 < n) (hS : ∀ k < n, S (a k)) :
    pushHeap comp a n = pushHeap comp' a n :=
  siftUp_congr hcomp n hS (by omega)

theorem popHeap_congr (hn : 0 < n) (hS : ∀ k < n, S (a k)) :
    popHeap comp a n = popHeap comp' a n := by
  refine siftDown_congr hcomp n fun k hk => ?_
  exact forall_swap hS hn (by omega) k (by omega)

theorem IsHeap.congr_comp (hS : ∀ k < n, S (a k)) (h : IsHeap comp a n) : IsHeap comp' a n := by
  intro k hk hkn
  rw [← hcomp _ _ (hS _ ((parent_lt hk).trans hkn)) (hS k hkn)]
  exact h k hk hkn

end

end Felis.BinaryHeap
