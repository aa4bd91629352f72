import Felis.Foundations.Fairness
import Felis.Piece.Codec
import Felis.Transport.SendFlush

/-!
# `Alloc` returns

`Alloc(sz)` goes back to `retry` after it has flushed the buffer, without a look at `sz`. If the
frame fits into an empty buffer, the second try succeeds: the steps of the thread lower a rank, and
the thread waits only for the lock of its own buffer, which some flusher holds (`InAlloc`).

If the frame does not fit, `Alloc` never returns, and nobody checks the size of a piece: a capture
of 16 KiB is enough (`bigPiece`). `alloc_returns` has both directions, for every fair run in which
the flushers give the lock back.
-/

namespace Felis.Transport.Send

open Fairness Piece Runs Function Option

variable {T : Type}

/-- The size for which the thread is in `Alloc`. -/
def Act.allocSize : Act T → Option ℕ
  | .alloc sz => some sz
  | .spin sz _ => some sz
  | .locked sz _ => some sz
  | .rewindFlusher sz _ _ => some sz
  | .rewindAppend sz _ _ => some sz
  | .copy _ _ _ (.alloc sz) => some sz
  | .unlock _ _ (.alloc sz) => some sz
  | .write _ (.alloc sz) => some sz
  | _ => none

/-- The thread is in `Alloc(sz)`, and has at most so many steps to go before the one that
returns. -/
def Act.InAlloc (sz appendStart : ℕ) (n : ℕ) : Act T → Prop
  | .alloc z => z = sz ∧ (kPerThreadBuffer ≤ appendStart + sz → n = 8)
  | .spin z _ => z = sz ∧ n = 7
  | .locked z _ => z = sz ∧ n = 6
  | .rewindFlusher z _ _ => z = sz ∧ n = 5
  | .rewindAppend z _ _ => z = sz ∧ n = 4
  -- from here on, the buffer is empty
  | .copy _ _ _ (.alloc z) => z = sz ∧ appendStart = 0 ∧ n = 3
  | .unlock _ _ (.alloc z) => z = sz ∧ appendStart = 0 ∧ n = 2
  | .write _ (.alloc z) => z = sz ∧ appendStart = 0 ∧ n = 1
  | _ => False

variable {s s' : State T} {t : T} {sz n : ℕ}

theorem Act.InAlloc.allocSize_eq {a : Act T} {p : ℕ} (h : a.InAlloc sz p n) :
    a.allocSize = some sz := by
  cases a with
  | alloc z => exact congrArg some h.1
  | spin z stop => exact congrArg some h.1
  | locked z stop => exact congrArg some h.1
  | rewindFlusher z start stop => exact congrArg some h.1
  | rewindAppend z start stop => exact congrArg some h.1
  | copy i start stop k =>
    cases k with
    | alloc z => exact congrArg some h.1
    | _ => exact h.elim
  | unlock i buf k =>
    cases k with
    | alloc z => exact congrArg some h.1
    | _ => exact h.elim
  | write buf k =>
    cases k with
    | alloc z => exact congrArg some h.1
    | _ => exact h.elim
  | _ => exact h.elim

variable [DecidableEq T]

theorem appendStart_setChannel {i : T} {c : Channel}
    (hc : c.appendStart = (s.channel i).appendStart) (j : T) :
    ((s.setChannel i c).channel j).appendStart = (s.channel j).appendStart := by
  by_cases hji : j = i
  · subst hji
    simpa [State.setChannel] using hc
  · simp [State.setChannel, hji]

/-- The step of a thread in `Alloc(sz)`. -/
theorem Act.InAlloc.advance (hsz : sz < kPerThreadBuffer) (h : Inv s)
    (ha : (s.act t).InAlloc sz (s.channel t).appendStart n) (hs : s.advance t = some s') :
    (∃ ptr, s'.act t = .fill ptr sz) ∨
      ∃ m, m < n ∧ (s'.act t).InAlloc sz (s'.channel t).appendStart m := by
  have hown := h.own t
  unfold State.advance at hs
  split at hs <;> rename_i hact <;> try rw [hact] at ha hown
  case h_1 z =>
    obtain ⟨rfl, hfull⟩ := ha
    dsimp only at hs
    split at hs <;> rename_i hlt <;> cases hs
    · exact .inr ⟨7, by have := hfull hlt; omega, by simp [State.setAct, Act.InAlloc]⟩
    · exact .inl ⟨(s.channel t).appendStart, by simp [State.setAct]⟩
  case h_2 z stop =>
    obtain ⟨rfl, rfl⟩ := ha
    split at hs <;> cases hs
    exact .inr ⟨6, by omega, by simp [State.setAct, Act.InAlloc]⟩
  case h_3 z stop =>
    obtain ⟨rfl, rfl⟩ := ha
    cases hs
    exact .inr ⟨5, by omega, by simp [State.setAct, Act.InAlloc]⟩
  case h_4 z start stop =>
    obtain ⟨rfl, rfl⟩ := ha
    cases hs
    exact .inr ⟨4, by omega, by simp [State.setAct, Act.InAlloc]⟩
  case h_5 z start stop =>
    obtain ⟨rfl, rfl⟩ := ha
    cases hs
    exact .inr ⟨3, by omega, by simp [State.setAct, State.setChannel, Act.InAlloc]⟩
  case h_9 i start stop k =>
    cases k with
    | alloc z =>
      obtain ⟨rfl, happ, rfl⟩ := ha
      obtain rfl : i = t := hown
      split at hs <;> cases hs <;>
        exact .inr ⟨2, by omega, by simp [State.setAct, State.setChannel, Act.InAlloc, happ]⟩
    | _ => exact ha.elim
  case h_10 i buf k =>
    cases k with
    | alloc z =>
      obtain ⟨rfl, happ, rfl⟩ := ha
      cases hs
      by_cases hbuf : buf = []
      · refine .inr ⟨0, by omega, ?_⟩
        simp only [hbuf, if_true, State.setAct, update_self, Return.act, Act.InAlloc, true_and]
        rw [appendStart_setChannel (by rfl)]
        omega
      · refine .inr ⟨1, by omega, ?_⟩
        simp only [hbuf, if_false, State.setAct, update_self, Act.InAlloc, true_and, and_true]
        rw [appendStart_setChannel (by rfl), happ]
    | _ => exact ha.elim
  case h_11 buf k =>
    cases k with
    | alloc z =>
      obtain ⟨rfl, happ, rfl⟩ := ha
      cases hs
      refine .inr ⟨0, by omega, ?_⟩
      simp only [State.setAct, update_self, Return.act, Act.InAlloc, true_and]
      omega
    | _ => exact ha.elim
  case h_12 => cases hs
  all_goals exact ha.elim

/-- A thread in `Alloc` goes on, or it waits for the lock of its buffer. -/
theorem enabled_of_allocSize (ha : (s.act t).allocSize = some sz) :
    (s.advance t).isSome ∨ (s.channel t).lock = true ∧ (s.act t).crit t = none := by
  unfold State.advance
  revert ha
  cases s.act t with
  | alloc z =>
    intro _
    left
    dsimp only
    split <;> rfl
  | spin z stop =>
    intro _
    cases (s.channel t).lock with
    | false => exact .inl rfl
    | true => exact .inr ⟨rfl, rfl⟩
  | copy i start stop k =>
    intro _
    left
    dsimp only
    split <;> rfl
  | idle | fill | flushing => exact fun ha => by cases ha
  | _ => exact fun _ => .inl rfl

/-- A frame that does not fit into the buffer keeps its thread in `Alloc`. -/
theorem allocSize_advance (hsz : kPerThreadBuffer ≤ sz) (ha : (s.act t).allocSize = some sz)
    (hs : s.advance t = some s') : (s'.act t).allocSize = some sz := by
  unfold State.advance at hs
  split at hs <;> rename_i hact <;> try rw [hact] at ha
  case h_1 z =>
    obtain rfl : z = sz := some.inj ha
    rw [if_pos (hsz.trans (Nat.le_add_left _ _))] at hs
    cases hs
    rw [act_setAct]
    rfl
  case h_2 =>
    split at hs <;> cases hs
    rw [act_setAct]
    exact ha
  case h_9 i start stop k =>
    split at hs <;> cases hs <;> rw [act_setAct] <;> cases k <;> exact ha
  case h_10 i buf k =>
    cases hs
    rw [act_setAct]
    split <;> cases k <;> exact ha
  case h_11 buf k =>
    cases hs
    change ((s.setAct t k.act).act t).allocSize = _
    rw [act_setAct]
    cases k <;> exact ha
  case h_6 | h_7 | h_8 => cases ha
  case h_12 => cases hs
  all_goals
    cases hs
    rw [act_setAct]
    exact ha

variable [Fintype T]

/-- In `Alloc` a thread does nothing else. -/
theorem advance_of_allocSize {e : Event T} (ha : (s.act t).allocSize = some sz)
    (hs : s.step (t, e) = some s') : s.advance t = some s' := by
  cases e with
  | advance => exact hs
  | alloc z | flush | flushReturn =>
    simp only [State.step, ite_none_right_eq_some] at hs
    rw [hs.1] at ha
    cases ha
  | fill off b | finish | tryFlush i =>
    simp only [State.step] at hs
    split at hs <;> rename_i hact <;> first
      | (rw [hact] at ha; cases ha)
      | cases hs

/-- A lock whose holder has gone on without it is free. -/
theorem lock_free {e : T × Event T} {v w : T} (h : Inv s) (hs : s.step e = some s')
    (hv : (s.act v).crit v = some w) (hv' : (s'.act v).crit v ≠ some w) :
    (s'.channel w).lock = false := by
  have hstep : v = e.1 := by
    by_contra hne
    rw [(effect_step hs).act v hne] at hv'
    exact hv' hv
  refine Bool.eq_false_of_not_eq_true fun hlock => ?_
  obtain ⟨u, hu⟩ := ((h.step hs).locks.held w).1 hlock
  have huv : u ≠ v := by
    rintro rfl
    exact hv' hu
  rw [(effect_step hs).act u (hstep ▸ huv)] at hu
  exact huv (h.locks.unique u v w hu hv)

/-- The thread is in `Alloc(sz)` with the rank `n`. -/
def State.Allocating (s : State T) (t : T) (sz n : ℕ) : Prop :=
  Inv s ∧ (s.act t).InAlloc sz (s.channel t).appendStart n

section

variable {r : Trace (State.step (T := T))}

/-- A thread that stays in `Alloc` is able to go on again. -/
theorem enabled_of_allocating (hrelease : ∀ k u, u ≠ t → ((r.state k).act u).crit u = some t →
      ∃ m, k ≤ m ∧ ((r.state m).act u).crit u ≠ some t) {k : ℕ}
    (h : ∀ m, k ≤ m → (r.state m).Allocating t sz n) :
    ∃ m, k ≤ m ∧ ((r.state m).advance t).isSome := by
  rcases enabled_of_allocSize (h k le_rfl).2.allocSize_eq with hgo | ⟨hlock, hcrit⟩
  · exact ⟨k, le_rfl, hgo⟩
  obtain ⟨u, hu⟩ := ((h k le_rfl).1.locks.held t).1 hlock
  have hut : u ≠ t := by
    rintro rfl
    cases hcrit.symm.trans hu
  have hleave := hrelease k u hut hu
  classical
  obtain ⟨hle, hnot⟩ := Nat.find_spec hleave
  -- the step before is the one that gives the lock back
  obtain ⟨m, hm⟩ : ∃ m, Nat.find hleave = m + 1 := by
    refine Nat.exists_eq_succ_of_ne_zero fun hzero => ?_
    rw [hzero, Nat.le_zero] at hle
    rw [hzero] at hnot
    exact hnot (hle ▸ hu)
  rw [hm] at hle hnot
  have hkm : k ≤ m := by
    rcases Nat.lt_or_ge m k with hlt | hge
    · obtain rfl : k = m + 1 := by omega
      exact absurd hu hnot
    · exact hge
  have hholds : ((r.state m).act u).crit u = some t := by
    by_contra hne
    exact Nat.find_min hleave (by omega) ⟨hkm, hne⟩
  have hfree := lock_free (h m hkm).1 (r.steps m) hholds hnot
  refine ⟨m + 1, hle, ?_⟩
  rcases enabled_of_allocSize (h (m + 1) hle).2.allocSize_eq with hgo | ⟨hlock, -⟩
  · exact hgo
  · rw [hfree] at hlock
    cases hlock

theorem alloc_eventually (hsz : sz < kPerThreadBuffer) (h : Inv (r.state 0))
    (hfair : r.FairTo t fun s => (s.advance t).isSome)
    (hrelease : ∀ k u, u ≠ t → ((r.state k).act u).crit u = some t →
      ∃ m, k ≤ m ∧ ((r.state m).act u).crit u ≠ some t)
    (hact : (r.state 0).act t = .alloc sz) : ∃ k ptr, (r.state k).act t = .fill ptr sz := by
  have hinv : ∀ k, Inv (r.state k) := Trace.invariant (fun _ _ _ hI hs => hI.step hs) h
  have hstart : (r.state 0).Allocating t sz 8 := ⟨h, by rw [hact]; exact ⟨rfl, fun _ => rfl⟩⟩
  have hother : ∀ n k, (r.event k).1 ≠ t → (r.state k).Allocating t sz n →
      (r.state (k + 1)).Allocating t sz n := by
    rintro n k hne ⟨-, ha⟩
    have heffect := effect_step (r.steps k)
    refine ⟨hinv (k + 1), ?_⟩
    rw [heffect.act t (Ne.symm hne), heffect.appendStart t (Ne.symm hne)]
    exact ha
  have hown : ∀ n k, (r.event k).1 = t → (r.state k).Allocating t sz n →
      (∃ ptr, (r.state (k + 1)).act t = .fill ptr sz) ∨
        ∃ m, m < n ∧ (r.state (k + 1)).Allocating t sz m := by
    rintro n k heq ⟨hI, ha⟩
    have hs := r.steps k
    rw [← Prod.mk.eta (p := r.event k), heq] at hs
    rcases ha.advance hsz hI (advance_of_allocSize ha.allocSize_eq hs) with hret | ⟨m, hm, ha'⟩
    · exact .inl hret
    · exact .inr ⟨m, hm, hinv (k + 1), ha'⟩
  obtain ⟨k, -, ptr, hk⟩ := Trace.eventually (P := fun n s => s.Allocating t sz n)
    (G := fun s => ∃ ptr, s.act t = .fill ptr sz) hfair hother hown
    (fun n k hn => enabled_of_allocating hrelease hn) hstart
  exact ⟨k, ptr, hk⟩

/-- A frame that does not fit keeps its thread in `Alloc` whatever the other threads do. -/
theorem allocSize_trace (hsz : kPerThreadBuffer ≤ sz)
    (ha : ((r.state 0).act t).allocSize = some sz) (k : ℕ) :
    ((r.state k).act t).allocSize = some sz := by
  induction k with
  | zero => exact ha
  | succ k ih =>
    have hs := r.steps k
    by_cases heq : (r.event k).1 = t
    · rw [← Prod.mk.eta (p := r.event k), heq] at hs
      exact allocSize_advance hsz ih (advance_of_allocSize ih hs)
    · rwa [(effect_step hs).act t (Ne.symm heq)]

end

/-- **`Alloc` returns** a frame inside the buffer if and only if the piece fits into a buffer, in
every run that is fair to the thread and in which the other threads give the lock of its buffer
back. -/
theorem alloc_returns (piece : Tree) (r : Trace (State.step (T := T))) (mem : T → ℕ → UInt8)
    (evs : List (T × Event T)) (t : T)
    (hreach : run State.step (State.init mem) evs = some (r.state 0))
    (hfair : r.FairTo t fun s => (s.advance t).isSome)
    (hrelease : ∀ k u, u ≠ t → ((r.state k).act u).crit u = some t →
      ∃ m, k ≤ m ∧ ((r.state m).act u).crit u ≠ some t)
    (hact : (r.state 0).act t = .alloc (8 + piece.nodeSize)) :
    (∃ k ptr, (r.state k).act t = .fill ptr (8 + piece.nodeSize) ∧
      ptr + (8 + piece.nodeSize) ≤ kPerThreadBuffer) ↔
      8 + piece.nodeSize < kPerThreadBuffer := by
  refine ⟨fun ⟨k, ptr, hfill, _⟩ => lt_of_not_ge fun hsz => ?_, fun hsize => ?_⟩
  · have ha := allocSize_trace hsz (by rw [hact]; rfl) k
    rw [hfill] at ha
    cases ha
  have hinv := inv_of_run hreach
  obtain ⟨k, ptr, hk⟩ := alloc_eventually hsize hinv hfair hrelease hact
  have hown := (Trace.invariant (fun _ _ _ hI hs => Inv.step hI hs) hinv k : Inv (r.state k)).own t
  rw [hk] at hown
  exact ⟨k, ptr, hk, hown.2.le⟩

def fillTrace : Trace (State.step (T := Unit)) where
  state
    | 0 => (State.init fun _ _ => 0).setAct () (.alloc (8 + oneChild.nodeSize))
    | _ + 1 => (State.init fun _ _ => 0).setAct () (.fill 0 (8 + oneChild.nodeSize))
  event
    | 0 => ((), .advance)
    | _ + 1 => ((), .fill 0 0)
  steps
    | 0 => by
      have hroom : ¬ kPerThreadBuffer ≤ 8 + oneChild.nodeSize := by decide +kernel
      simp [State.step, State.advance, State.setAct, State.init, hroom]
    | n + 1 => by
      simp [State.step, State.setAct, State.setChannel, State.init]

theorem alloc_returns_oneChild : ∃ k ptr, (fillTrace.state k).act () =
    .fill ptr (8 + oneChild.nodeSize) ∧ ptr + (8 + oneChild.nodeSize) ≤ kPerThreadBuffer :=
  (alloc_returns oneChild fillTrace (fun _ _ => 0) [((), .alloc (8 + oneChild.nodeSize))] () rfl
    (fun n _ => ⟨n, le_rfl, rfl⟩) (fun _ _ hu => absurd rfl hu) rfl).2 (by decide +kernel)

/-! ## A piece that is never sent -/

def bigPiece : Tree :=
  .node ⟨1000, 16384, 0, 2, 0, 7, 1, 500, 0, 0, 0, 0⟩ (List.replicate 16384 0) []

theorem le_size_bigPiece : kPerThreadBuffer ≤ 8 + bigPiece.nodeSize := by decide +kernel

/-- Nobody else is there to hold the lock. -/
theorem enabled_unit {s : State Unit} (h : Inv s) (ha : (s.act ()).allocSize = some sz) :
    (s.advance ()).isSome := by
  refine (enabled_of_allocSize ha).resolve_right ?_
  rintro ⟨hlock, hcrit⟩
  obtain ⟨u, hu⟩ := (h.locks.held ()).1 hlock
  cases hcrit.symm.trans hu

def bigRun : ℕ → State Unit
  | 0 => (State.init fun _ _ => 0).setAct () (.alloc (8 + bigPiece.nodeSize))
  | n + 1 => ((bigRun n).advance ()).getD (bigRun n)

theorem bigRun_step (n : ℕ) : Inv (bigRun n) ∧
    ((bigRun n).act ()).allocSize = some (8 + bigPiece.nodeSize) ∧
    (bigRun n).advance () = some (bigRun (n + 1)) := by
  have hnext : ∀ n, Inv (bigRun n) →
      ((bigRun n).act ()).allocSize = some (8 + bigPiece.nodeSize) →
      (bigRun n).advance () = some (bigRun (n + 1)) := by
    intro n h ha
    obtain ⟨s', hs'⟩ := isSome_iff_exists.1 (enabled_unit h ha)
    rw [bigRun, hs', getD_some]
  induction n with
  | zero =>
    have h : Inv (bigRun 0) := by
      refine (inv_init fun _ _ => 0).quiet (t := ()) rfl rfl ?_
      trivial
    exact ⟨h, rfl, hnext 0 h rfl⟩
  | succ n ih =>
    obtain ⟨h, ha, hs⟩ := ih
    have h' := h.advance hs
    have ha' := allocSize_advance le_size_bigPiece ha hs
    exact ⟨h', ha', hnext (n + 1) h' ha'⟩

theorem alloc_bigPiece : bigPiece.Valid ∧ ∃ r : Trace (State.step (T := Unit)),
    run State.step (State.init fun _ _ => 0) [((), .alloc (8 + bigPiece.nodeSize))] =
      some (r.state 0) ∧
    r.FairTo () (fun s => (s.advance ()).isSome) ∧
    (∀ k u, u ≠ () → ((r.state k).act u).crit u = some () →
      ∃ m, k ≤ m ∧ ((r.state m).act u).crit u ≠ some ()) ∧
    (r.state 0).act () = .alloc (8 + bigPiece.nodeSize) ∧
    ∀ k ptr, (r.state k).act () ≠ .fill ptr (8 + bigPiece.nodeSize) := by
  refine ⟨⟨List.length_replicate, by decide, trivial⟩,
    ⟨bigRun, fun _ => ((), .advance), fun n => (bigRun_step n).2.2⟩, rfl,
    fun n _ => ⟨n, le_rfl, rfl⟩, fun _ _ hu => absurd rfl hu, rfl, ?_⟩
  intro k ptr hfill
  have ha := (bigRun_step k).2.1
  rw [show (bigRun k).act () = _ from hfill] at ha
  cases ha

end Felis.Transport.Send
