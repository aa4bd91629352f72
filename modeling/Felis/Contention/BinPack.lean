import Mathlib.Data.List.ReduceOption
import Felis.Foundations.MachineInts
import Felis.Foundations.SubsetSum
import Felis.Row.Basic

/-!
# Packing rows for a core

`BinPack` selects rows for one core: of the rows that have no core yet, a subset with the largest
sum of splitting weights below a limit. It fills the tables of the subset sums row by row, of which
it only keeps the last two, with a bitmap for each row that says where the row was taken. Then it
goes through the rows backwards, labels those that were taken on the way, and clears their entries.

The tables are arrays of `int`, while the limit is a `size_t`. `binPack_optimal` says that the
result is right exactly for inputs whose subset sums up to the limit fit into an `int`, and
`binPack_overflows` is one where they do not.
-/

namespace Felis.Contention

open MachineInts Row SubsetSum Function

variable {R : Type}

/-! ## `BinPack` -/

/-- `cont_affinity` is an `int8_t`. -/
def setAffinity [DecidableEq R] (rows : R → VHandle) (r : R) (label : ℤ) : R → VHandle :=
  update rows r { rows r with contAffinity := signed 8 label }

namespace BinPack

/-- `w >= wi && pf[w - wi] + wi > f[w]`, where `f[w]` is still `pf[w]`. -/
def improves (pf : ℕ → ℤ) (wi : ℤ) (w : ℕ) : Bool :=
  unsigned 64 wi ≤ w ∧ pf w < signed 32 (pf (w - unsigned 64 wi) + wi)

/-- The inner loop, which writes `f` and reads `pf`. -/
def nextTable (pf : ℕ → ℤ) (wi : ℤ) (w : ℕ) : ℤ :=
  if improves pf wi w then signed 32 (pf (w - unsigned 64 wi) + wi) else pf w

/-- The loop over the rows: the last table, and the bitmap of each row. -/
def fillTables (rows : R → VHandle) : (ℕ → ℤ) → List (Option R) → (ℕ → ℤ) × List (ℕ → Bool)
  | pf, [] => (pf, [])
  | pf, none :: ks => (fillTables rows pf ks).map id ((fun _ => false) :: ·)
  | pf, some r :: ks =>
    (fillTables rows (nextTable pf (rows r).nrOndsplt) ks).map id
      (improves pf (rows r).nrOndsplt :: ·)

/-- What the loop backwards leaves. `taken` is no part of the program: the rows that it labels. -/
structure Unpacked (R : Type) where
  w : ℕ
  knapsacks : List (Option R)
  rows : R → VHandle
  taken : List R

/-- The loop backwards; the entries behind come first. -/
def reconstruct [DecidableEq R] (rows : R → VHandle) (label : ℤ) (w : ℕ) :
    List (Option R) → List (ℕ → Bool) → Unpacked R
  | some r :: ks, bits :: trace =>
    let u := reconstruct rows label w ks trace
    if bits u.w then
      { w := u.w - unsigned 64 (u.rows r).nrOndsplt
        knapsacks := none :: u.knapsacks
        rows := setAffinity u.rows r label
        taken := r :: u.taken }
    else { u with knapsacks := some r :: u.knapsacks }
  | none :: ks, _ :: trace =>
    let u := reconstruct rows label w ks trace
    { u with knapsacks := none :: u.knapsacks }
  | ks, _ => ⟨w, ks, rows, []⟩

end BinPack

open BinPack

/-- What `BinPack` returns and leaves, with the rows that it labels. -/
structure Packed (R : Type) where
  cap : ℕ
  knapsacks : List (Option R)
  rows : R → VHandle
  taken : List R

def binPack [DecidableEq R] (rows : R → VHandle) (knapsacks : List (Option R)) (label : ℤ)
    (limit : ℕ) : Packed R :=
  if limit = 0 then ⟨0, knapsacks, rows, []⟩
  else
    let tables := fillTables rows (fun _ => 0) knapsacks
    let u := reconstruct rows label (limit - 1) knapsacks tables.2
    ⟨unsigned 64 (tables.1 (limit - 1)), u.knapsacks, u.rows, u.taken⟩

/-! ## The specification -/

/-- Some of the rows of the array are taken out of it, and their entries cleared. -/
inductive Takes : List (Option R) → List (Option R) → List R → Prop
  | nil : Takes [] [] []
  | keep {ks ks' : List (Option R)} {taken : List R} (o : Option R) (h : Takes ks ks' taken) :
      Takes (o :: ks) (o :: ks') taken
  | take {ks ks' : List (Option R)} {taken : List R} (r : R) (h : Takes ks ks' taken) :
      Takes (some r :: ks) (none :: ks') (r :: taken)

/-- The splitting weight of a row, when it is not negative. -/
def weight (rows : R → VHandle) (r : R) : ℕ := (rows r).nrOndsplt.toNat

/-- The rows that are still in the array, with their weights. -/
def weights (rows : R → VHandle) (ks : List (Option R)) : List ℕ :=
  ks.reduceOption.map (weight rows)

/-- The rows get the label, and nothing else changes. -/
def relabel [DecidableEq R] (label : ℤ) (taken : List R) (rows : R → VHandle) (r : R) : VHandle :=
  if r ∈ taken then { rows r with contAffinity := signed 8 label } else rows r

/-- The result is the largest subset sum below the limit, and the sum of the rows that are taken;
they are labelled, and all else is as before. -/
structure Optimal [DecidableEq R] (rows : R → VHandle) (ks : List (Option R)) (label : ℤ)
    (limit : ℕ) (p : Packed R) : Prop where
  greatest : IsGreatest (sums (weights rows ks) (limit - 1)) p.cap
  takes : Takes ks p.knapsacks p.taken
  sum_taken : (p.taken.map (weight rows)).sum = p.cap
  rows_eq : p.rows = relabel label p.taken rows

/-- The weights are `int`s that are not negative. -/
def Weighted (rows : R → VHandle) (ks : List (Option R)) : Prop :=
  ∀ r, some r ∈ ks → 0 ≤ (rows r).nrOndsplt ∧ (rows r).nrOndsplt < 2 ^ 31

/-! ## The tables -/

variable {rows : R → VHandle} {ks : List (Option R)} {pf : ℕ → ℤ} {acc : List ℕ} {limit wi : ℕ}

/-- The table has the best subset sums of the rows so far. -/
def IsTable (limit : ℕ) (acc : List ℕ) (pf : ℕ → ℤ) : Prop := ∀ w < limit, pf w = best acc w

theorem unsigned_int (hwi : wi < 2 ^ 31) : unsigned 64 (wi : ℤ) = wi := by
  rw [unsigned_natCast]
  exact Nat.mod_eq_of_lt (by omega)

theorem signed_table (h : IsTable limit acc pf) (hfit : best (wi :: acc) (limit - 1) < 2 ^ 31)
    {w : ℕ} (hw : w < limit) (hle : wi ≤ w) :
    signed 32 (pf (w - wi) + wi) = ((wi + best acc (w - wi) : ℕ) : ℤ) := by
  have hbest : wi + best acc (w - wi) ≤ best (wi :: acc) w := by
    rw [best, if_pos hle]
    exact le_max_right _ _
  have hmono : best (wi :: acc) w ≤ best (wi :: acc) (limit - 1) :=
    best_mono (List.Sublist.refl _) (by omega)
  rw [h (w - wi) (by omega), add_comm, ← Nat.cast_add]
  exact signed_natCast (by omega)

theorem improves_iff (h : IsTable limit acc pf) (hfit : best (wi :: acc) (limit - 1) < 2 ^ 31)
    (hwi : wi < 2 ^ 31) {w : ℕ} (hw : w < limit) : improves pf wi w = true ↔ take acc wi w := by
  rw [improves, decide_eq_true_iff, unsigned_int hwi, take]
  refine and_congr_right fun hle => ?_
  rw [signed_table h hfit hw hle, h w hw, Nat.cast_lt]

/-- One row of the table from the one before. -/
theorem isTable_nextTable (h : IsTable limit acc pf)
    (hfit : best (wi :: acc) (limit - 1) < 2 ^ 31) (hwi : wi < 2 ^ 31) :
    IsTable limit (wi :: acc) (nextTable pf wi) := by
  intro w hw
  have hiff := improves_iff h hfit hwi hw
  rw [nextTable]
  split_ifs with himp
  · have htake := hiff.1 himp
    rw [unsigned_int hwi, signed_table h hfit hw htake.1, best_cons_of_take htake]
  · rw [best_cons_of_not_take fun htake => himp (hiff.2 htake), h w hw]

theorem Weighted.tail {o : Option R} (h : Weighted rows (o :: ks)) : Weighted rows ks :=
  fun r hr => h r (List.mem_cons_of_mem o hr)

/-- The weight of a row in the array is its counter. -/
theorem Weighted.nrOndsplt {r : R} (h : Weighted rows ks) (hr : some r ∈ ks) :
    (rows r).nrOndsplt = weight rows r ∧ weight rows r < 2 ^ 31 := by
  obtain ⟨hnonneg, hlt⟩ := h r hr
  rw [weight]
  omega

theorem weights_cons_none : weights rows (none :: ks) = weights rows ks := by
  rw [weights, List.reduceOption_cons_of_none, weights]

theorem weights_cons_some (r : R) :
    weights rows (some r :: ks) = weight rows r :: weights rows ks := by
  rw [weights, List.reduceOption_cons_of_some, List.map_cons, weights]

theorem isTable_fillTables (hks : Weighted rows ks) (h : IsTable limit acc pf)
    (hfit : best ((weights rows ks).reverse ++ acc) (limit - 1) < 2 ^ 31) :
    IsTable limit ((weights rows ks).reverse ++ acc) (fillTables rows pf ks).1 := by
  induction ks generalizing pf acc with
  | nil => exact h
  | cons o ks ih =>
    cases o with
    | none =>
      rw [weights_cons_none] at hfit ⊢
      exact ih hks.tail h hfit
    | some r =>
      obtain ⟨hr, hlt⟩ := hks.nrOndsplt (List.mem_cons_self ..)
      rw [weights_cons_some, List.reverse_cons, List.append_assoc, List.singleton_append] at hfit ⊢
      rw [fillTables, hr]
      refine ih hks.tail (isTable_nextTable h ?_ hlt) hfit
      exact (best_mono (List.sublist_append_right _ _) le_rfl).trans_lt hfit

/-- Whatever the weights are, the tables only hold `int`s that are not negative. -/
theorem fillTables_int (rows : R → VHandle) (ks : List (Option R))
    (h : ∀ w, 0 ≤ pf w ∧ pf w < 2 ^ 31) (w : ℕ) :
    0 ≤ (fillTables rows pf ks).1 w ∧ (fillTables rows pf ks).1 w < 2 ^ 31 := by
  induction ks generalizing pf with
  | nil => exact h w
  | cons o ks ih =>
    cases o with
    | none => exact ih h
    | some r =>
      refine ih fun w => ?_
      rw [nextTable]
      split_ifs with himp
      · -- An entry is only replaced by a larger one.
        rw [improves, decide_eq_true_iff] at himp
        exact ⟨(h w).1.trans himp.2.le, Int.bmod_lt (by decide)⟩
      · exact h w

/-! ## The way back -/

section

variable [DecidableEq R] {label : ℤ}

@[simp] theorem nrOndsplt_relabel (label : ℤ) (taken : List R) (rows : R → VHandle) (r : R) :
    (relabel label taken rows r).nrOndsplt = (rows r).nrOndsplt := by
  rw [relabel]
  split_ifs <;> rfl

theorem setAffinity_relabel (label : ℤ) (taken : List R) (rows : R → VHandle) (r : R) :
    setAffinity (relabel label taken rows) r label = relabel label (r :: taken) rows := by
  funext r'
  rw [setAffinity]
  rcases eq_or_ne r' r with rfl | hne
  · rw [update_self, relabel, relabel, if_pos (List.mem_cons_self ..)]
    split_ifs <;> rfl
  · rw [update_of_ne hne, relabel, relabel]
    simp [hne]

/-- The loop backwards from the capacity `w`, over rows whose table starts from `acc`. -/
structure Reconstructed (rows : R → VHandle) (ks : List (Option R)) (label : ℤ) (w : ℕ)
    (acc : List ℕ) (u : Unpacked R) : Prop where
  takes : Takes ks u.knapsacks u.taken
  left : u.w + (u.taken.map (weight rows)).sum = w
  best_eq : best ((weights rows ks).reverse ++ acc) w =
    (u.taken.map (weight rows)).sum + best acc u.w
  rows_eq : u.rows = relabel label u.taken rows

theorem reconstruct_spec (hks : Weighted rows ks) (h : IsTable limit acc pf)
    (hfit : best ((weights rows ks).reverse ++ acc) (limit - 1) < 2 ^ 31) {w : ℕ} (hw : w < limit) :
    Reconstructed rows ks label w acc (reconstruct rows label w ks (fillTables rows pf ks).2) := by
  induction ks generalizing pf acc with
  | nil => exact ⟨.nil, rfl, (Nat.zero_add _).symm, rfl⟩
  | cons o ks ih =>
    cases o with
    | none =>
      rw [weights_cons_none] at hfit
      obtain ⟨htakes, hleft, hbest, hrows⟩ := ih hks.tail h hfit
      exact ⟨htakes.keep none, hleft, by rwa [weights_cons_none], hrows⟩
    | some r =>
      obtain ⟨hr, hlt⟩ := hks.nrOndsplt (List.mem_cons_self ..)
      have hlist : (weights rows (some r :: ks)).reverse ++ acc =
          (weights rows ks).reverse ++ weight rows r :: acc := by
        rw [weights_cons_some, List.reverse_cons, List.append_assoc, List.singleton_append]
      rw [hlist] at hfit
      have hfit' : best (weight rows r :: acc) (limit - 1) < 2 ^ 31 :=
        (best_mono (List.sublist_append_right _ _) le_rfl).trans_lt hfit
      obtain ⟨htakes, hleft, hbest, hrows⟩ := ih hks.tail (isTable_nextTable h hfit' hlt) hfit
      have hiff := improves_iff h hfit' hlt (w := (reconstruct rows label w ks
        (fillTables rows (nextTable pf (weight rows r)) ks).2).w) (by omega)
      rw [fillTables, hr, Prod.map_snd, reconstruct]
      generalize reconstruct rows label w ks
        (fillTables rows (nextTable pf (weight rows r)) ks).2 = u at *
      split_ifs with himp
      · have htake := hiff.1 himp
        have hcounter : (u.rows r).nrOndsplt = weight rows r := by
          rw [hrows, nrOndsplt_relabel, hr]
        refine ⟨htakes.take r, ?_, ?_, ?_⟩
        · dsimp only
          rw [hcounter, unsigned_int hlt, List.map_cons, List.sum_cons]
          have := htake.1
          omega
        · dsimp only
          rw [hlist, hbest, best_cons_of_take htake, hcounter, unsigned_int hlt, List.map_cons,
            List.sum_cons]
          omega
        · rw [hrows]
          exact setAffinity_relabel ..
      · refine ⟨htakes.keep _, hleft, ?_, hrows⟩
        rw [hlist, hbest, best_cons_of_not_take fun htake => himp (hiff.2 htake)]

/-- The result from the tables, when the largest sum below the limit fits into an `int`. -/
theorem optimal_of_best_lt (label : ℤ) (hlimit : 1 ≤ limit) (hks : Weighted rows ks)
    (hlt : best (weights rows ks) (limit - 1) < 2 ^ 31) :
    Optimal rows ks label limit (binPack rows ks label limit) := by
  have hfit : best ((weights rows ks).reverse ++ []) (limit - 1) < 2 ^ 31 := by
    rwa [List.append_nil, best_reverse]
  have hzero : IsTable limit [] fun _ => 0 := fun _ _ => rfl
  have htable := isTable_fillTables hks hzero hfit (limit - 1) (by omega)
  have hcap : (binPack rows ks label limit).cap = best (weights rows ks) (limit - 1) := by
    rw [binPack, if_neg (by omega)]
    dsimp only
    rw [htable, List.append_nil, best_reverse]
    exact unsigned_int hlt
  have hspec : Reconstructed rows ks label (limit - 1) [] _ :=
    reconstruct_spec hks hzero hfit (by omega)
  obtain ⟨htakes, -, hbest, hrows⟩ := hspec
  refine ⟨hcap ▸ isGreatest_best _ _, ?_, ?_, ?_⟩
  · rw [binPack, if_neg (by omega)]
    exact htakes
  · rw [hcap, ← best_reverse, ← List.append_nil (weights rows ks).reverse, hbest, binPack,
      if_neg (by omega)]
    rfl
  · rw [binPack, if_neg (by omega)]
    exact hrows

theorem cap_binPack_lt (rows : R → VHandle) (ks : List (Option R)) (label : ℤ)
    (hlimit : 1 ≤ limit) : (binPack rows ks label limit).cap < 2 ^ 31 := by
  have hzero : ∀ w : ℕ, 0 ≤ (fun _ => 0 : ℕ → ℤ) w ∧ (fun _ => 0 : ℕ → ℤ) w < 2 ^ 31 :=
    fun _ => ⟨le_rfl, by norm_num⟩
  obtain ⟨hnonneg, hlt⟩ := fillTables_int rows ks hzero (limit - 1)
  obtain ⟨cap, hcap⟩ := Int.eq_ofNat_of_zero_le hnonneg
  rw [binPack, if_neg (by omega)]
  dsimp only
  rw [hcap] at hlt ⊢
  rw [unsigned_int (by omega)]
  omega

/-- **`BinPack` is optimal** if and only if no subset of the rows has a sum below the limit that
does not fit into an `int`. It then returns the largest subset sum below the limit; the rows that it
labels and takes out of the array have that sum, and nothing else changes. -/
theorem binPack_optimal (rows : R → VHandle) (ks : List (Option R)) (label : ℤ) (limit : ℕ)
    (hlimit : 1 ≤ limit) (hks : Weighted rows ks) :
    Optimal rows ks label limit (binPack rows ks label limit) ↔
      ∀ x ∈ sums (weights rows ks) (limit - 1), x < 2 ^ 31 := by
  refine ⟨fun h x hx => (h.greatest.2 hx).trans_lt (cap_binPack_lt rows ks label hlimit),
    fun hfit => ?_⟩
  have hgreatest := isGreatest_best (weights rows ks) (limit - 1)
  exact optimal_of_best_lt label hlimit hks (hfit _ hgreatest.1)

end

/-- Rows with the given weights. -/
def weighing (ws : List ℤ) (i : ℕ) : VHandle :=
  { newRow (0x8000 + 256 * i) 0 (fun _ => 0) with nrOndsplt := ws.getD i 0 }

/-- Of three rows and a cleared entry, the first and the last are taken. -/
theorem binPack_optimal_threeRows :
    (binPack (weighing [3, 4, 2]) [some 0, none, some 1, some 2] 7 6).cap = 5 ∧
      (binPack (weighing [3, 4, 2]) [some 0, none, some 1, some 2] 7 6).knapsacks =
        [none, none, some 1, none] ∧
      Optimal (weighing [3, 4, 2]) [some 0, none, some 1, some 2] 7 6
        (binPack (weighing [3, 4, 2]) [some 0, none, some 1, some 2] 7 6) := by
  refine ⟨by decide, by decide, (binPack_optimal _ _ _ _ (by decide) ?_).2 ?_⟩
  · intro r hr
    simp only [List.mem_cons, Option.some.injEq, List.not_mem_nil, or_false, reduceCtorEq,
      false_or] at hr
    rcases hr with rfl | rfl | rfl <;> decide
  · rintro x ⟨-, -, -, hle⟩
    exact hle.trans_lt (by decide)

/-- Two rows with the largest weight there is fit below the limit together. Their sum does not fit
into the table, and only one of them is taken. -/
theorem binPack_overflows :
    (binPack (weighing [2 ^ 31 - 1, 2 ^ 31 - 1]) [some 0, some 1] 0 (2 ^ 32 - 1)).cap = 2 ^ 31 - 1 ∧
      2 ^ 32 - 2 ∈ sums (weights (weighing [2 ^ 31 - 1, 2 ^ 31 - 1]) [some 0, some 1])
        (2 ^ 32 - 1 - 1) ∧
      ¬Optimal (weighing [2 ^ 31 - 1, 2 ^ 31 - 1]) [some 0, some 1] 0 (2 ^ 32 - 1)
        (binPack (weighing [2 ^ 31 - 1, 2 ^ 31 - 1]) [some 0, some 1] 0 (2 ^ 32 - 1)) := by
  have hcap : (binPack (weighing [2 ^ 31 - 1, 2 ^ 31 - 1]) [some 0, some 1] 0 (2 ^ 32 - 1)).cap =
      2 ^ 31 - 1 := by decide
  have hmem : 2 ^ 32 - 2 ∈ sums (weights (weighing [2 ^ 31 - 1, 2 ^ 31 - 1]) [some 0, some 1])
      (2 ^ 32 - 1 - 1) := ⟨_, List.Sublist.refl _, by decide, by decide⟩
  refine ⟨hcap, hmem, fun h => ?_⟩
  have hle := h.greatest.2 hmem
  rw [hcap] at hle
  exact absurd hle (by decide)

end Felis.Contention
