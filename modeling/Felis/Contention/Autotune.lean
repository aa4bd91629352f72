import Mathlib.Tactic.NormNum

/-!
# The threshold of row splitting

After every epoch `OnExecuteComplete` asks the `ThresholdAutoTuneController` for the threshold of
the next one. A better threshold is doubled, with a cap, and a worse one is given up. When the
number of splits has not changed, however, the threshold is doubled without a cap, and when the best
threshold is no longer good it is halved, down to 0 (`autotune_leaves_range`). The threshold stays
in its range exactly when neither happens at the end of the range (`autotune_in_range`).
-/

namespace Felis.Contention

structure ThresholdAutoTuneController where
  thre : ℤ
  nrSplitted : ℕ
  execTime : ℕ
  deriving DecidableEq

namespace ThresholdAutoTuneController

def init : ThresholdAutoTuneController := ⟨0, 2 ^ 32 - 1, 2 ^ 32 - 1⟩

def fuzzyCompare (x y : ℕ) : ℤ :=
  if y = 0 then if 0 < x then 1 else 0
  else
    let r := 128 * x % 2 ^ 64 / y
    if r < 120 then -1 else if r < 136 then 0 else 1

/-- The threshold for the next epoch, and what the controller remembers. -/
def getNextThreshold (c : ThresholdAutoTuneController) (currentThre : ℤ)
    (currentNrSplitted currentExecTime : ℕ) : ThresholdAutoTuneController × ℤ :=
  let splCmp := fuzzyCompare c.nrSplitted currentNrSplitted
  if splCmp = 1 then
    if fuzzyCompare c.execTime currentExecTime ≠ -1 then
      (⟨currentThre, currentNrSplitted, currentExecTime⟩, min (currentThre * 2) (2 ^ 31 - 1))
    else (c, if c.thre ≠ currentThre then c.thre else c.thre.tdiv 2)
  else if splCmp = -1 then (c, c.thre)
  else (c, currentThre * 2)

/-- The controller and `g_splitting_threshold` after `k` epochs with the measurements `m`. -/
def tune (thre : ℤ) (m : ℕ → ℕ × ℕ) : ℕ → ThresholdAutoTuneController × ℤ
  | 0 => (init, thre)
  | k + 1 => (tune thre m k).1.getNextThreshold (tune thre m k).2 (m k).1 (m k).2

def InRange (thre : ℤ) : Prop := 1 ≤ thre ∧ thre ≤ 2 ^ 31 - 1

/-- The threshold is not doubled past the range, and not halved below it. -/
def Tame (c : ThresholdAutoTuneController) (currentThre : ℤ) (m : ℕ × ℕ) : Prop :=
  (fuzzyCompare c.nrSplitted m.1 = 0 → currentThre * 2 ≤ 2 ^ 31 - 1) ∧
    (fuzzyCompare c.nrSplitted m.1 = 1 → fuzzyCompare c.execTime m.2 = -1 → c.thre = currentThre →
      currentThre ≠ 1)

/-- The controller remembers no threshold yet, or one in the range. -/
def Settled (c : ThresholdAutoTuneController) : Prop := c = init ∨ InRange c.thre

theorem fuzzyCompare_cases (x y : ℕ) :
    fuzzyCompare x y = -1 ∨ fuzzyCompare x y = 0 ∨ fuzzyCompare x y = 1 := by
  unfold fuzzyCompare
  dsimp only
  split_ifs <;> simp

/-- No measurement is clearly larger than the initial values. -/
theorem fuzzyCompare_init {y : ℕ} (hy : y < 2 ^ 32) : fuzzyCompare (2 ^ 32 - 1) y ≠ -1 := by
  unfold fuzzyCompare
  by_cases h0 : y = 0
  · simp [h0]
  · have hr : 128 ≤ 128 * (2 ^ 32 - 1) % 2 ^ 64 / y := by
      rw [Nat.le_div_iff_mul_le (Nat.pos_of_ne_zero h0), Nat.mod_eq_of_lt (by norm_num)]
      omega
    dsimp only
    split_ifs <;> omega

variable {c : ThresholdAutoTuneController} {thre : ℤ} {m : ℕ × ℕ}

/-- From a state in the range, one epoch leads to a threshold in the range exactly when it is
tame. -/
theorem inRange_getNextThreshold (hc : Settled c) (hthre : InRange thre)
    (hm : m.1 < 2 ^ 32 ∧ m.2 < 2 ^ 32) :
    InRange (c.getNextThreshold thre m.1 m.2).2 ↔ Tame c thre m := by
  obtain ⟨hlow, hhigh⟩ := hthre
  have hremembered : fuzzyCompare c.nrSplitted m.1 = -1 ∨ fuzzyCompare c.execTime m.2 = -1 →
      InRange c.thre := by
    rcases hc with rfl | hc
    · rintro (h | h)
      · exact absurd h (fuzzyCompare_init hm.1)
      · exact absurd h (fuzzyCompare_init hm.2)
    · exact fun _ => hc
  unfold getNextThreshold Tame
  rcases fuzzyCompare_cases c.nrSplitted m.1 with h | h | h
  · simpa [h] using hremembered (.inl h)
  · simp [h, InRange]
    omega
  · by_cases he : fuzzyCompare c.execTime m.2 = -1
    · obtain ⟨hlow', hhigh'⟩ := hremembered (.inr he)
      by_cases heq : c.thre = thre
      · have hhalf : thre.tdiv 2 = thre / 2 := Int.tdiv_eq_ediv_of_nonneg (by omega)
        simp [h, he, heq, InRange, hhalf]
        omega
      · simp [h, he, heq, InRange]
        omega
    · simp [h, he, InRange]
      omega

theorem settled_getNextThreshold (hc : Settled c) (hthre : InRange thre) :
    Settled (c.getNextThreshold thre m.1 m.2).1 := by
  unfold getNextThreshold
  dsimp only
  split_ifs
  · exact .inr hthre
  all_goals exact hc

/-- **The auto-tuned threshold.** Every threshold that the controller returns is in its range,
exactly when no epoch doubles or halves it past the range. -/
theorem autotune_in_range (thre : ℤ) (hthre : InRange thre) (m : ℕ → ℕ × ℕ)
    (hm : ∀ k, (m k).1 < 2 ^ 32 ∧ (m k).2 < 2 ^ 32) :
    (∀ k, InRange (tune thre m (k + 1)).2) ↔
      ∀ k, Tame (tune thre m k).1 (tune thre m k).2 (m k) := by
  have hstep : ∀ k, Settled (tune thre m k).1 → InRange (tune thre m k).2 →
      (InRange (tune thre m (k + 1)).2 ↔ Tame (tune thre m k).1 (tune thre m k).2 (m k)) :=
    fun k hc ht => inRange_getNextThreshold hc ht (hm k)
  have hsettled : ∀ k, (∀ j < k, InRange (tune thre m (j + 1)).2) →
      Settled (tune thre m k).1 ∧ InRange (tune thre m k).2 := by
    intro k
    induction k with
    | zero => exact fun _ => ⟨.inl rfl, hthre⟩
    | succ k ih =>
      intro hall
      obtain ⟨hc, ht⟩ := ih fun j hj => hall j (by omega)
      exact ⟨settled_getNextThreshold hc ht, hall k (by omega)⟩
  constructor
  · intro hall k
    obtain ⟨hc, ht⟩ := hsettled k fun j _ => hall j
    exact (hstep k hc ht).1 (hall k)
  · intro htame k
    induction k using Nat.strong_induction_on with
    | _ k ih =>
      obtain ⟨hc, ht⟩ := hsettled k ih
      exact (hstep k hc ht).2 (htame k)

/-- One epoch that is better, and then epochs with more splits. -/
def oneRise (k : ℕ) : ℕ × ℕ := if k = 0 then (1, 1) else (1000, 1)

theorem tune_oneRise (k : ℕ) : tune 4 oneRise (k + 2) = (⟨4, 1, 1⟩, 4) := by
  induction k with
  | zero => decide
  | succ k ih =>
    rw [tune, ih]
    change getNextThreshold ⟨4, 1, 1⟩ 4 1000 1 = _
    decide

theorem autotune_in_range_oneRise :
    (tune 4 oneRise 1).2 = 8 ∧ ∀ k, InRange (tune 4 oneRise (k + 1)).2 := by
  refine ⟨by decide,
    (autotune_in_range 4 (by unfold InRange; decide) oneRise fun k => ?_).2 fun k => ?_⟩
  · unfold oneRise
    split_ifs <;> decide
  · match k with
    | 0 | 1 => unfold Tame; decide
    | k + 2 =>
      rw [tune_oneRise]
      change Tame ⟨4, 1, 1⟩ 4 (1000, 1)
      unfold Tame
      decide

/-- The number of splits does not change, and the largest threshold is doubled; a threshold of 1 is
halved when it turns out to be worse than before. -/
theorem autotune_leaves_range :
    (tune (2 ^ 31 - 1) (fun _ => (2 ^ 32 - 1, 0)) 1).2 = 2 ^ 32 - 2 ∧
      (tune 1 (fun k => if k = 0 then (8, 8) else (1, 100)) 3).2 = 0 := by decide

end ThresholdAutoTuneController

end Felis.Contention
