import Mathlib.Tactic

/-!
# Fair infinite runs

A `Trace` is an infinite run of a system of threads. It is fair to a thread when the thread makes a
step again and again if it is able to again and again, so a thread that tries to take a lock which
is free again and again gets it. `Trace.eventually` is the rule of liveness proofs: the steps of the
thread lower a rank, the steps of the others keep it, and the thread does not stay disabled for
ever.
-/

namespace Felis.Fairness

variable {σ τ ε : Type*} {step : σ → τ × ε → Option σ}

structure Trace (step : σ → τ × ε → Option σ) where
  state : ℕ → σ
  event : ℕ → τ × ε
  steps : ∀ n, step (state n) (event n) = some (state (n + 1))

namespace Trace

variable (r : Trace step)

def FairTo (t : τ) (enabled : σ → Prop) : Prop :=
  ∀ n, (∀ m, n ≤ m → ∃ k, m ≤ k ∧ enabled (r.state k)) → ∃ m, n ≤ m ∧ (r.event m).1 = t

variable {r}

theorem invariant {I : σ → Prop} (hstep : ∀ s e s', I s → step s e = some s' → I s')
    (h : I (r.state 0)) (n : ℕ) : I (r.state n) := by
  induction n with
  | zero => exact h
  | succ n ih => exact hstep _ _ _ ih (r.steps n)

/-- What the steps of the others keep stays until the thread makes a step. -/
theorem stays {t : τ} {P : σ → Prop}
    (hother : ∀ n, (r.event n).1 ≠ t → P (r.state n) → P (r.state (n + 1))) {n m : ℕ} (hnm : n ≤ m)
    (hquiet : ∀ k, n ≤ k → k < m → (r.event k).1 ≠ t) (h : P (r.state n)) : P (r.state m) := by
  induction m, hnm using Nat.le_induction with
  | base => exact h
  | succ m hnm ih =>
    refine hother m (hquiet m hnm m.lt_succ_self) (ih fun k hk hkm => ?_)
    exact hquiet k hk (hkm.trans m.lt_succ_self)

/-- **The rule of liveness.** -/
theorem eventually {t : τ} {enabled : σ → Prop} (hfair : r.FairTo t enabled) {P : ℕ → σ → Prop}
    {G : σ → Prop} (hother : ∀ i n, (r.event n).1 ≠ t → P i (r.state n) → P i (r.state (n + 1)))
    (hown : ∀ i n, (r.event n).1 = t → P i (r.state n) →
      G (r.state (n + 1)) ∨ ∃ j, j < i ∧ P j (r.state (n + 1)))
    (henabled : ∀ i n, (∀ m, n ≤ m → P i (r.state m)) → ∃ m, n ≤ m ∧ enabled (r.state m)) {i n : ℕ}
    (h : P i (r.state n)) : ∃ m, n ≤ m ∧ G (r.state m) := by
  induction i using Nat.strong_induction_on generalizing n with
  | _ i ih =>
    -- the thread makes a step: otherwise it stays at its rank, and is enabled again and again
    have hmove : ∃ m, n ≤ m ∧ (r.event m).1 = t := by
      by_contra hnone
      have hquiet : ∀ m, n ≤ m → (r.event m).1 ≠ t := fun m hm ht => hnone ⟨m, hm, ht⟩
      refine hnone (hfair n fun m hm => henabled i m fun k hk => ?_)
      exact stays (hother i) (hm.trans hk) (fun l hl _ => hquiet l hl) h
    classical
    obtain ⟨hle, ht⟩ := Nat.find_spec hmove
    have hstay : P i (r.state (Nat.find hmove)) :=
      stays (hother i) hle (fun k hk hlt ht => Nat.find_min hmove hlt ⟨hk, ht⟩) h
    rcases hown i _ ht hstay with hgoal | ⟨j, hji, hj⟩
    · exact ⟨_, hle.trans (Nat.le_succ _), hgoal⟩
    · obtain ⟨m, hm, hgoal⟩ := ih j hji hj
      exact ⟨m, (hle.trans (Nat.le_succ _)).trans hm, hgoal⟩

end Trace

end Felis.Fairness
