import Mathlib.Tactic.Common

/-!
# Runs of a step function

A system is given by a step function `step : σ → ε → Option σ`: `none` means that the event is not
possible in the state. `run` executes a list of events, `Along` says that every step of a run meets
a condition, and `run_invariant` is the induction that all results about runs go through.
-/

namespace Felis.Runs

/-- What a computation ends in can be decided by running it. -/
instance decidableEndsIn {α : Type*} (o : Option α) (p : α → Prop) [DecidablePred p] :
    Decidable (∃ a, o = some a ∧ p a) :=
  inferInstanceAs (Decidable (∃ a ∈ o, p a))

variable {σ ε : Type*} (step : σ → ε → Option σ) {es : List ε} {ok : σ → ε → Prop}

/-- The state after a list of events, when all of them are possible. -/
def run : σ → List ε → Option σ
  | s, [] => some s
  | s, e :: es => (step s e).bind fun t => run t es

/-- Every step of the run from `s` meets the condition `ok`, in the state before the step. -/
def Along (ok : σ → ε → Prop) : σ → List ε → Prop
  | _, [] => True
  | s, e :: es => ok s e ∧ ∀ t ∈ step s e, Along ok t es

instance decidableAlong (ok : σ → ε → Prop) [∀ s e, Decidable (ok s e)] :
    ∀ s es, Decidable (Along step ok s es)
  | _, [] => inferInstanceAs (Decidable True)
  | s, e :: es =>
    have : DecidablePred fun t => Along step ok t es := fun t => decidableAlong ok t es
    inferInstanceAs (Decidable (ok s e ∧ ∀ t ∈ step s e, Along step ok t es))

theorem run_cons {s u : σ} {e : ε} :
    run step s (e :: es) = some u ↔ ∃ t, step s e = some t ∧ run step t es = some u := by
  rw [run, Option.bind_eq_some_iff]

theorem run_append {s u : σ} {es es' : List ε} :
    run step s (es ++ es') = some u ↔ ∃ t, run step s es = some t ∧ run step t es' = some u := by
  induction es generalizing s with
  | nil => simp [run]
  | cons e es ih =>
    rw [List.cons_append, run_cons]
    simp only [ih, run_cons]
    exact ⟨fun ⟨t, ht, v, hv, hu⟩ => ⟨v, ⟨t, ht, hv⟩, hu⟩,
      fun ⟨v, ⟨t, ht, hv⟩, hu⟩ => ⟨t, ht, v, hv, hu⟩⟩

theorem along_true (s : σ) (es : List ε) : Along step (fun _ _ => True) s es := by
  induction es generalizing s with
  | nil => trivial
  | cons e es ih => exact ⟨trivial, fun t _ => ih t⟩

theorem along_of_all (s : σ) (h : ∀ e ∈ es, ∀ s, ok s e) : Along step ok s es := by
  induction es generalizing s with
  | nil => trivial
  | cons e es ih => exact ⟨h e (by simp) s, fun t _ => ih t fun e' he' => h e' (by simp [he'])⟩

theorem along_of_forall {ok : ε → Prop} (s : σ) (h : ∀ e ∈ es, ok e) :
    Along step (fun _ e => ok e) s es := along_of_all step s fun e he _ => h e he

theorem along_append {s : σ} {es es' : List ε} : Along step ok s (es ++ es') ↔
      Along step ok s es ∧ ∀ t, run step s es = some t → Along step ok t es' := by
  induction es generalizing s with
  | nil => exact ⟨fun h => ⟨trivial, fun t ht => Option.some.inj ht ▸ h⟩, fun h => h.2 s rfl⟩
  | cons e es ih =>
    rw [List.cons_append, Along, Along]
    constructor
    · rintro ⟨hok, h⟩
      refine ⟨⟨hok, fun t ht => (ih.1 (h t ht)).1⟩, fun u hu => ?_⟩
      obtain ⟨t, ht, hu⟩ := (run_cons step).1 hu
      exact (ih.1 (h t ht)).2 u hu
    · rintro ⟨⟨hok, h⟩, h'⟩
      exact ⟨hok, fun t ht => ih.2 ⟨h t ht, fun u hu => h' u ((run_cons step).2 ⟨t, ht, hu⟩)⟩⟩

variable {step} in
theorem Along.and {ok' : ε → Prop} {s : σ} (h : Along step ok s es) (h' : ∀ e ∈ es, ok' e) :
    Along step (fun s e => ok s e ∧ ok' e) s es := by
  induction es generalizing s with
  | nil => trivial
  | cons e es ih =>
    exact ⟨⟨h.1, h' e (by simp)⟩, fun t ht => ih (h.2 t ht) fun e' he' => h' e' (by simp [he'])⟩

variable {step}

/-- **The invariant rule.** What every step that meets the condition preserves holds at the end of
every run whose steps all meet it. -/
theorem run_invariant {I : σ → Prop} (hstep : ∀ s e t, I s → ok s e → step s e = some t → I t) :
    ∀ (es : List ε) (s t : σ), I s → Along step ok s es → run step s es = some t → I t := by
  intro es
  induction es with
  | nil =>
    intro s t hs _ hrun
    cases hrun
    exact hs
  | cons e es ih =>
    intro s u hs hok hrun
    obtain ⟨t, ht, hrun⟩ := (run_cons step).1 hrun
    exact ih t u (hstep s e t hs hok.1 ht) (hok.2 t ht) hrun

/-- The rule for steps without a condition. -/
theorem run_induction {I : σ → Prop} (hstep : ∀ s e t, I s → step s e = some t → I t) {s t : σ}
    (hs : I s) (hrun : run step s es = some t) : I t :=
  run_invariant (fun s e t h _ => hstep s e t h) es s t hs (along_true step s es) hrun

/-- A measure that every step lowers bounds the length of the runs. -/
theorem run_length_le {I : σ → Prop} {m : σ → ℕ}
    (hstep : ∀ s e t, I s → step s e = some t → I t ∧ m t < m s) {s t : σ} (hs : I s)
    (hrun : run step s es = some t) : es.length + m t ≤ m s := by
  induction es generalizing s with
  | nil =>
    cases hrun
    simp
  | cons e es ih =>
    obtain ⟨u, hu, hrun⟩ := (run_cons step).1 hrun
    obtain ⟨hI, hlt⟩ := hstep s e u hs hu
    have := ih hI hrun
    rw [List.length_cons]
    omega

end Felis.Runs
