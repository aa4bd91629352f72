import Mathlib.Tactic.Common

/-!
# Spin locks

Every lock of a family is a flag that a thread sets to take the lock and clears to give it back.
`crit t a` is the lock that the thread `t` holds while it is at the point `a` of its program.
`Exclusive` says that the flag of a lock is set exactly when a thread holds it, and that no two
threads do. It is kept when a thread takes a lock that is free, gives back the one it holds, or goes
on without either.
-/

namespace Felis.Locks

open Function

variable {ι τ A : Type*} {crit : τ → A → Option ι} {act : τ → A} {lock lock' : ι → Bool} {t : τ}
  {a : A} {i : ι}

structure Exclusive (crit : τ → A → Option ι) (act : τ → A) (lock : ι → Bool) : Prop where
  held : ∀ i, lock i = true ↔ ∃ t, crit t (act t) = some i
  unique : ∀ t t' i, crit t (act t) = some i → crit t' (act t') = some i → t = t'

theorem Exclusive.not_held (h : Exclusive crit act lock) (hfree : lock i = false) (u : τ) :
    crit u (act u) ≠ some i := fun hu => by
  rw [(h.held i).2 ⟨u, hu⟩] at hfree
  cases hfree

variable [DecidableEq τ]

theorem Exclusive.acquire (h : Exclusive crit act lock) (hfree : lock i = false)
    (hold : crit t (act t) = none) (hnew : crit t a = some i) (hi : lock' i = true)
    (hne : ∀ j, j ≠ i → lock' j = lock j) : Exclusive crit (update act t a) lock' := by
  constructor
  · intro j
    by_cases hj : j = i
    · subst hj
      exact iff_of_true hi ⟨t, by rw [update_self, hnew]⟩
    · rw [hne j hj, h.held j]
      refine exists_congr fun u => ?_
      by_cases hu : u = t
      · subst hu
        rw [update_self, hnew, hold]
        simp [Ne.symm hj]
      · rw [update_of_ne hu]
  · intro u u' j hu hu'
    by_cases hut : u = t
    · by_cases hut' : u' = t
      · rw [hut, hut']
      · rw [hut, update_self, hnew] at hu
        rw [update_of_ne hut', ← hu] at hu'
        exact absurd hu' (h.not_held hfree u')
    · rw [update_of_ne hut] at hu
      by_cases hut' : u' = t
      · rw [hut', update_self, hnew] at hu'
        rw [← hu'] at hu
        exact absurd hu (h.not_held hfree u)
      · rw [update_of_ne hut'] at hu'
        exact h.unique u u' j hu hu'

theorem Exclusive.release (h : Exclusive crit act lock) (hold : crit t (act t) = some i)
    (hnew : crit t a = none) (hi : lock' i = false) (hne : ∀ j, j ≠ i → lock' j = lock j) :
    Exclusive crit (update act t a) lock' := by
  constructor
  · intro j
    by_cases hj : j = i
    · subst hj
      refine iff_of_false (by simp [hi]) ?_
      rintro ⟨u, hu⟩
      by_cases hut : u = t
      · rw [hut, update_self, hnew] at hu
        cases hu
      · rw [update_of_ne hut] at hu
        exact hut (h.unique u t j hu hold)
    · rw [hne j hj, h.held j]
      refine exists_congr fun u => ?_
      by_cases hu : u = t
      · subst hu
        rw [update_self, hnew, hold]
        simp [Ne.symm hj]
      · rw [update_of_ne hu]
  · intro u u' j hu hu'
    have hne : ∀ v, crit v (update act t a v) = some j → v ≠ t := by
      rintro v hv rfl
      rw [update_self, hnew] at hv
      cases hv
    have hut := hne u hu
    have hut' := hne u' hu'
    rw [update_of_ne hut] at hu
    rw [update_of_ne hut'] at hu'
    exact h.unique u u' j hu hu'

/-- A thread goes on with the lock that it holds, or with none. -/
theorem Exclusive.keep (h : Exclusive crit act lock) (hsame : crit t a = crit t (act t))
    (hlock : ∀ j, lock' j = lock j) : Exclusive crit (update act t a) lock' := by
  have hcrit : ∀ u, crit u (update act t a u) = crit u (act u) := fun u => by
    by_cases hu : u = t
    · subst hu
      rw [update_self, hsame]
    · rw [update_of_ne hu]
  constructor
  · intro j
    rw [hlock j, h.held j]
    simp only [hcrit]
  · intro u u' j hu hu'
    rw [hcrit] at hu hu'
    exact h.unique u u' j hu hu'

end Felis.Locks
