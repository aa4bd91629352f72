import Felis.Transport.SendSafety

/-!
# What a flush sends

Every range that is copied out of a buffer is written to the network once: the copies are what has
been written, and what the threads still hold (`copied_eq`). A `Flush` takes from every buffer at
least what was finished there when it began (`flush_copied`), although the owners of the buffers
append to them, and rewind them, all the time. `send_buffers` puts this together with the invariant
of the buffers.
-/

namespace Felis.Transport.Send

open Cells FlushBuffer Runs Option

variable {T : Type}

/-- The buffers that will have been flushed when the loop goes on. -/
def Return.flushed : Return T → Finset T
  | .flush flushed => flushed
  | _ => ∅

/-- Where a thread is in `Flush`. -/
def Act.loop : Act T → Loop T
  | .flushing flushed => ⟨flushed, none⟩
  | .readStart i k => ⟨k.flushed, some (i, none)⟩
  | .readEnd i _ k => ⟨k.flushed, some (i, none)⟩
  | .update i start stop k => ⟨k.flushed, some (i, some (stop - start))⟩
  | .copy i start stop k => ⟨k.flushed, some (i, some (stop - start))⟩
  | .unlock _ _ k => ⟨k.flushed, none⟩
  | .write _ k => ⟨k.flushed, none⟩
  | _ => ⟨∅, none⟩

theorem Return.loop_act (k : Return T) : k.act.loop = ⟨k.flushed, none⟩ := by
  cases k <;> rfl

/-- The number of bytes that have been copied out of the buffers. -/
def State.done (s : State T) (i : T) : ℕ := (s.channel i).copied.length

def State.total (s : State T) (i : T) : ℕ := (s.channel i).items.length

section

variable [DecidableEq T] {s s' : State T} {t : T} {goal : T → ℕ}

theorem covers_tryFlush {i : T} {k : Return T} (h : (s.act t).loop.Covers goal s.done)
    (hk : ∀ j ∈ k.flushed, j ≠ i → goal j ≤ s.done j) :
    ((s.tryFlush t i k).act t).loop.Covers goal (s.tryFlush t i k).done := by
  unfold State.tryFlush
  split
  · exact h
  · rw [act_setAct]
    intro j hj hji
    simpa [State.done, State.setAct, State.setChannel, hji] using hk j hj hji

variable [Fintype T] {e : T × Event T} {evs : List (T × Event T)} {mem : T → ℕ → UInt8}

theorem done_mono (hs : s.step e = some s') (j : T) : s.done j ≤ s'.done j := by
  obtain ⟨l, hl⟩ := (effect_step hs).copies j
  simp [State.done, Buffer.copied, ← hl]

theorem total_mono (hs : s.step e = some s') (j : T) : s.total j ≤ s'.total j := by
  obtain ⟨l, hl⟩ := (effect_step hs).frames j
  simp [State.total, Buffer.items, ← hl]

theorem covers_advance (h : (s.act t).loop.Covers goal s.done) (hinv : Inv s)
    (hgoal : ∀ j, goal j ≤ s.total j) (hs : s.advance t = some s') :
    (s'.act t).loop.Covers goal s'.done := by
  have hdone : ∀ j, s.done j ≤ s'.done j := done_mono (e := (t, .advance)) hs
  have h' := h.mono hdone
  unfold State.advance at hs
  split at hs <;> rename_i hact <;> try rw [hact] at h h'
  case h_1 =>
    dsimp only at hs
    split at hs <;> cases hs <;> rw [act_setAct] <;> exact covers_empty
  case h_2 =>
    split at hs <;> cases hs
    rw [act_setAct]
    exact covers_empty
  case h_3 | h_4 | h_5 =>
    cases hs
    rw [act_setAct]
    exact covers_empty
  case h_6 | h_8 =>
    cases hs
    rw [act_setAct]
    exact h'
  case h_7 i start k =>
    cases hs
    rw [act_setAct]
    have hc := hinv.held t i (.start start) (by rw [hact]; rfl)
    exact h.take (hc.length_items ▸ hgoal i)
  case h_9 i start stop k =>
    split at hs <;> rename_i hlt <;> cases hs <;> rw [act_setAct]
    · refine (h.pass hdone (m := 0) ?_).leave
      simp [State.done, State.setAct, State.setChannel, Buffer.copied]
    · exact (h.pass hdone (m := 0) (by change s.done i + _ ≤ s.done i + 0; omega)).leave
  case h_10 i buf k =>
    cases hs
    rw [act_setAct]
    split
    · rw [k.loop_act]
      exact h'
    · exact h'
  case h_11 buf k =>
    cases hs
    change ((s.setAct t k.act).act t).loop.Covers goal s.done
    rw [act_setAct, k.loop_act]
    exact h
  case h_12 => cases hs

theorem covers_step {f : T} (hinv : Inv s) (hgoal : ∀ j, goal j ≤ s.total j)
    (h : (s.act f).loop.Covers goal s.done) (hs : s.step e = some s') :
    (s'.act f).loop.Covers goal s'.done := by
  obtain ⟨t, e⟩ := e
  have h' := h.mono (done_mono hs)
  by_cases hft : f = t
  swap
  · rwa [(effect_step hs).act f hft]
  subst hft
  cases e with
  | alloc sz =>
    simp only [State.step, ite_none_right_eq_some, Option.some.injEq] at hs
    obtain ⟨-, rfl⟩ := hs
    rw [act_setAct]
    exact covers_empty
  | fill off b =>
    simp only [State.step] at hs
    split at hs
    case h_2 => cases hs
    simp only [ite_none_right_eq_some, Option.some.injEq] at hs
    obtain ⟨-, rfl⟩ := hs
    exact h'
  | finish =>
    simp only [State.step] at hs
    split at hs
    case h_2 => cases hs
    cases hs
    rw [act_setAct]
    exact covers_empty
  | tryFlush i =>
    simp only [State.step] at hs
    split at hs <;> rename_i hact
    · cases hs
      refine covers_tryFlush h fun j hj => ?_
      cases hj
    · simp only [ite_none_left_eq_some, Option.some.injEq] at hs
      obtain ⟨-, rfl⟩ := hs
      refine covers_tryFlush h fun j hj hji => ?_
      rw [hact] at h
      exact h j (Finset.mem_of_mem_insert_of_ne hj hji)
    · cases hs
  | flush =>
    simp only [State.step, ite_none_right_eq_some, Option.some.injEq] at hs
    obtain ⟨-, rfl⟩ := hs
    rw [act_setAct]
    exact covers_empty
  | flushReturn =>
    simp only [State.step, ite_none_right_eq_some, Option.some.injEq] at hs
    obtain ⟨-, rfl⟩ := hs
    rw [act_setAct]
    exact covers_empty
  | advance => exact covers_advance h hinv hgoal hs

/-- A `Flush` that has returned has copied everything that was finished when it began. -/
theorem flush_copied {f : T} (hinv : Inv s) (hrun : run State.step s ((f, .flush) :: evs) = some s')
    (hreturn : (f, .flushReturn) ∈ evs) (j : T) : s.total j ≤ s'.done j := by
  refine flush_covers (I := Inv) (L := fun u => (u.act f).loop) (fun u e u' hu he => hu.step he)
    (fun u e u' j _ he => total_mono he j) (fun u e u' j _ he => done_mono he j)
    (fun goal u e u' hu hle hcover he => covers_step hu hle hcover he) (fun u u' he => ?_)
    (fun u u' he => ?_) hinv hrun hreturn j
  · simp only [State.step, ite_none_right_eq_some] at he
    rw [he.1]
    rfl
  · simp only [State.step, ite_none_right_eq_some] at he
    rw [he.1]
    rfl

/-- What has been copied has been written, or a thread still holds it. -/
theorem copied_eq (hrun : run State.step (State.init mem) evs = some s) :
    s.copied = s.writes + s.pending := by
  refine run_induction (I := fun s : State T => s.copied = s.writes + s.pending) ?_ ?_ hrun
  · rintro s ⟨t, e⟩ s' hs hstep
    have hbal := (effect_step hstep).balance
    rw [hs, add_comm] at hbal
    exact add_left_cancel hbal
  · simp [State.copied, State.pending, State.init, Act.pending]

theorem frames_eq_of_no_finish (hevs : ∀ e ∈ evs, e.2 ≠ .finish)
    (hrun : run State.step s evs = some s') (j : T) :
    (s'.channel j).frames = (s.channel j).frames := by
  refine run_invariant (I := fun u : State T => (u.channel j).frames =
    (s.channel j).frames) ?_ evs s
    s' rfl (along_of_forall State.step s hevs) hrun
  rintro u ⟨t, e⟩ u' hu he hs
  exact ((effect_step hs).kept he j).trans hu

/-- The frames lie inside the buffers. -/
def State.Inside (s : State T) : Prop :=
  ∀ i, ∀ f ∈ (s.channel i).frames, f.off + f.items.length < kPerThreadBuffer

theorem inside_step (hinv : Inv s) (h : s.Inside) (hs : s.step e = some s') : s'.Inside := by
  obtain ⟨t, e⟩ := e
  by_cases hfinish : e = .finish
  swap
  · intro i
    rw [(effect_step hs).kept hfinish i]
    exact h i
  subst hfinish
  simp only [State.step] at hs
  split at hs
  case h_2 => cases hs
  rename_i ptr sz hact
  cases hs
  have hown := hinv.own t
  rw [hact] at hown
  intro i f hf
  by_cases hit : i = t
  swap
  · exact h i f (by simpa [State.setAct, State.setChannel, hit] using hf)
  subst hit
  simp only [State.setAct, State.setChannel, Function.update_self] at hf
  rcases List.mem_append.1 hf with hf | hf
  · exact h i f hf
  · obtain rfl := List.mem_singleton.1 hf
    simpa using hown.2

theorem inside_of_run (hrun : run State.step (State.init mem) evs = some s) : s.Inside := by
  refine (run_induction (I := fun s : State T => Inv s ∧ s.Inside) ?_ ⟨inv_init mem, ?_⟩ hrun).2
  · exact fun u e u' hu he => ⟨hu.1.step he, inside_step hu.1 hu.2 he⟩
  · intro i f hf
    cases hf

theorem inv_of_run (hrun : run State.step (State.init mem) evs = some s) : Inv s :=
  run_induction (fun _ _ _ h hs => h.step hs) (inv_init mem) hrun

end

/-- **Send buffers.** In every run, the copies out of a buffer are whole frames of its owner, in
order and without a gap; the frames that have not been copied are intact in the buffer, and all
frames lie inside of it. What is written to the network is such a copy. When a `Flush` that began
after the last `Finish` has returned, every frame has been copied. -/
theorem send_buffers [Fintype T] [DecidableEq T] (mem : T → ℕ → UInt8) (evs : List (T × Event T))
    (s : State T) (hrun : run State.step (State.init mem) evs = some s) :
    (∀ i, ∃ (segs : List (List Frame)) (left : List Frame),
      (s.channel i).frames = segs.flatten ++ left ∧
      (s.channel i).copies = segs.map (fun l => l.flatMap Frame.items) ∧
      (∀ f ∈ left, seg (s.channel i).mem f.off f.items.length = f.items) ∧
      ∀ f ∈ (s.channel i).frames, f.off + f.items.length < kPerThreadBuffer) ∧
    s.copied = s.writes + s.pending ∧
    ∀ f evs₁ evs₂, evs = evs₁ ++ (f, .flush) :: evs₂ → (f, .flushReturn) ∈ evs₂ →
      (∀ e ∈ evs₂, e.2 ≠ .finish) →
      ∀ i, (s.channel i).copies.flatten = (s.channel i).frames.flatMap Frame.items := by
  refine ⟨fun i => ?_, copied_eq hrun, ?_⟩
  · have hinv := inv_of_run hrun
    obtain ⟨v, segs, left, hframes, hcopies, hleft⟩ := hinv.exists_view i
    exact ⟨segs, left, hframes, hcopies, fun f hf => hleft.intact hf, inside_of_run hrun i⟩
  · rintro f evs₁ evs₂ rfl hreturn hfinish i
    obtain ⟨s₁, hrun₁, hrun₂⟩ := (run_append State.step).1 hrun
    have hcopied := flush_copied (inv_of_run hrun₁) hrun₂ hreturn i
    have hframes : (s.channel i).frames = (s₁.channel i).frames :=
      frames_eq_of_no_finish (by simpa using hfinish) hrun₂ i
    obtain ⟨v, hv⟩ := (inv_of_run hrun).exists_view i
    refine hv.copied_prefix.eq_of_length_le ?_
    rw [Buffer.items, hframes]
    exact hcopied

def advances (n : ℕ) (t : T) : List (T × Event T) := List.replicate n (t, .advance)

def sendRun : List (Bool × Event Bool) :=
  [(false, .alloc 2), (false, .advance), (false, .fill 0 7), (false, .fill 1 8), (false, .finish)]

def flushRun : List (Bool × Event Bool) :=
  (true, .tryFlush false) :: advances 6 true ++ (true, .tryFlush true) :: advances 5 true ++
    [(true, .flushReturn)]

theorem send_buffers_flushRun :
    ∃ s, run State.step (State.init fun _ _ => 0) (sendRun ++ (true, .flush) :: flushRun) = some s ∧
      (s.channel false).frames = [⟨0, [7, 8]⟩] ∧ (s.channel false).copies.flatten = [7, 8] := by
  obtain ⟨s, hs, hframes⟩ : ∃ s, run State.step (State.init fun _ _ => 0) (sendRun ++ (true, .flush)
      :: flushRun) = some s ∧ (s.channel false).frames = [⟨0, [7, 8]⟩] := by decide +kernel
  refine ⟨s, hs, hframes, ?_⟩
  have hcopied := (send_buffers _ _ s hs).2.2 true sendRun flushRun rfl (by decide)
    (by decide) false
  rw [hcopied, hframes]
  rfl

end Felis.Transport.Send
