import Felis.Foundations.Collections
import Felis.Transport.SendChannel

/-!
# The invariant of the send buffers

`Inv` is the invariant of buffers that others flush, for the points of `Alloc`, `TryFlushForThread`
and `PushRelease` (`Act.view`, `Act.own`), and `Inv.step` says that every step of every thread keeps
it. `Effect` is what a step can do to the rest: other threads are not moved, frames and copies are
only added, and every copy is written to the network once, by the thread that has made it.
-/

namespace Felis.Transport.Send

open Cells FlushBuffer Runs Sums Function List Option

variable {T : Type}

/-! ## The invariant -/

/-- The buffer whose lock a thread holds, and what it knows about it. -/
def Act.view (t : T) : Act T → Option (T × View)
  | .locked _ _ => some (t, .plain)
  | .rewindFlusher _ start stop => some (t, .range start stop)
  | .rewindAppend _ start stop => some (t, .zeroed start stop)
  | .readStart i _ => some (i, .plain)
  | .readEnd i start _ => some (i, .start start)
  | .update i start stop _ => some (i, .range start stop)
  | .copy i start stop k =>
    match k with
    | .alloc _ => some (i, .rewound start stop)
    | _ => some (i, .taken start stop)
  | .unlock i _ _ => some (i, .plain)
  | _ => none

/-- What a thread knows about its own buffer, and which calls of `PushRelease` it can be in. -/
def Act.own (t : T) (appendStart : ℕ) : Act T → Prop
  | .spin _ stop => stop = appendStart
  | .locked _ stop => stop = appendStart
  | .rewindFlusher _ _ stop => stop = appendStart
  | .rewindAppend _ _ stop => stop = appendStart
  | .fill ptr sz => ptr = appendStart ∧ ptr + sz < kPerThreadBuffer
  | .readStart _ (.alloc _) => False
  | .readEnd _ _ (.alloc _) => False
  | .update _ _ _ (.alloc _) => False
  | .copy i _ _ (.alloc _) => i = t
  | _ => True

/-- The lock whose critical section a thread is in. -/
abbrev Act.crit : T → Act T → Option T := FlushBuffer.crit Act.view

abbrev Inv (s : State T) : Prop := FlushBuffer.Inv Act.view Act.own s.act s.channel

theorem inv_init (mem : T → ℕ → UInt8) : Inv (State.init mem) := by
  refine ⟨⟨fun i => ?_, ?_⟩, fun i _ => ⟨[], [], rfl, rfl, rfl⟩, ?_, fun t => trivial⟩
  · simp [State.init, FlushBuffer.crit, Act.view]
  · intro t t' i h
    cases h
  · intro t i v h
    cases h

section

variable {s : State T} {t i : T} {v : View} {a : Act T} {c : Channel}

/-- Only the owner rewinds a buffer. -/
theorem Inv.foreign (h : Inv s) {u : T} (hu : u ≠ i) (hv : (s.act u).view u = some (i, v)) :
    v.Foreign := by
  have hown := h.own u
  revert hv hown
  cases s.act u with
  | rewindAppend sz start stop =>
    rintro ⟨⟩
    exact absurd rfl hu
  | copy j start stop k =>
    cases k with
    | alloc sz =>
      rintro ⟨⟩ rfl
      exact absurd rfl hu
    | flush flushed =>
      rintro ⟨⟩ -
      trivial
    | done =>
      rintro ⟨⟩ -
      trivial
  | _ =>
    rintro ⟨⟩ -
    try trivial

theorem Return.own_act (k : Return T) (n : ℕ) : k.act.own t n := by
  cases k <;> trivial

theorem Return.view_act (k : Return T) : k.act.view t = none := by
  cases k <;> rfl

theorem Inv.copy_view (h : Inv s) {start stop : ℕ} {k : Return T}
    (hact : s.act t = .copy i start stop k) : ∃ v, (s.act t).view t = some (i, v) ∧
      ((s.channel i).Inv (.taken start stop) ∨ (s.channel i).Inv (.rewound start stop)) := by
  cases k with
  | alloc sz =>
    have hv : (s.act t).view t = some (i, .rewound start stop) := by rw [hact]; rfl
    exact ⟨_, hv, .inr (h.held t i _ hv)⟩
  | flush flushed =>
    have hv : (s.act t).view t = some (i, .taken start stop) := by rw [hact]; rfl
    exact ⟨_, hv, .inl (h.held t i _ hv)⟩
  | done =>
    have hv : (s.act t).view t = some (i, .taken start stop) := by rw [hact]; rfl
    exact ⟨_, hv, .inl (h.held t i _ hv)⟩

variable [DecidableEq T]

theorem Inv.advance {s' : State T} (h : Inv s) (hs : s.advance t = some s') : Inv s' := by
  unfold State.advance at hs
  have hown := h.own t
  split at hs <;> rename_i hact
  case h_1 sz =>
    have hv : (s.act t).view t = none := by rw [hact]; rfl
    dsimp only at hs
    split at hs <;> cases hs
    · exact h.quiet hv rfl rfl
    · exact h.quiet hv rfl ⟨rfl, by omega⟩
  case h_2 sz stop =>
    split at hs
    · cases hs
    · rename_i hlock
      cases hs
      rw [hact] at hown
      exact h.acquire (Bool.eq_false_of_not_eq_true hlock) (by rw [hact]; rfl) rfl hown
  case h_3 sz stop =>
    cases hs
    have hv : (s.act t).view t = some (t, .plain) := by rw [hact]; rfl
    rw [hact] at hown
    obtain rfl : stop = _ := hown
    exact h.inspect hv rfl (h.held t t _ hv).readStart.readEnd rfl
  case h_4 sz start stop =>
    cases hs
    have hv : (s.act t).view t = some (t, .range start stop) := by rw [hact]; rfl
    rw [hact] at hown
    refine h.critical hv rfl rfl ((h.held t t _ hv).rewindFlusher hown) (.inl rfl) ?_
    rwa [update_self]
  case h_5 sz start stop =>
    cases hs
    have hv : (s.act t).view t = some (t, .zeroed start stop) := by rw [hact]; rfl
    exact h.critical hv rfl rfl (h.held t t _ hv).rewindAppend (.inl rfl) rfl
  case h_6 j k =>
    cases hs
    have hv : (s.act t).view t = some (j, .plain) := by rw [hact]; rfl
    rw [hact] at hown
    refine h.inspect hv rfl (h.held t j _ hv).readStart ?_
    cases k <;> exact hown
  case h_7 j start k =>
    cases hs
    have hv : (s.act t).view t = some (j, .start start) := by rw [hact]; rfl
    rw [hact] at hown
    refine h.inspect hv rfl (h.held t j _ hv).readEnd ?_
    cases k <;> exact hown
  case h_8 j start stop k =>
    cases hs
    have hv : (s.act t).view t = some (j, .range start stop) := by rw [hact]; rfl
    rw [hact] at hown
    have hv' : (Act.copy j start stop k).view t = some (j, .taken start stop) := by
      cases k with
      | alloc sz => exact hown.elim
      | flush flushed => rfl
      | done => rfl
    refine h.critical hv hv' rfl (h.held t j _ hv).update (.inr rfl) ?_

    cases k with
    | alloc sz => exact hown.elim
    | flush flushed => trivial
    | done => trivial
  case h_9 j start stop k =>
    obtain ⟨v, hv, hc⟩ := h.copy_view hact
    split at hs <;> cases hs
    · exact h.modify hv rfl rfl (Buffer.Inv.copy hc) rfl trivial
    · exact h.inspect hv rfl (Buffer.Inv.skip hc ‹_›) trivial
  case h_10 j buf k =>
    cases hs
    have hv : (s.act t).view t = some (j, .plain) := by rw [hact]; rfl
    split
    · exact h.release hv k.view_act (k.own_act _)
    · exact h.release hv rfl trivial
  case h_11 buf k =>
    cases hs
    have hv : (s.act t).view t = none := by rw [hact]; rfl
    exact h.quiet hv k.view_act (k.own_act _)
  case h_12 => cases hs

theorem Inv.tryFlush {k : Return T} (h : Inv s) (hv : (s.act t).view t = none)
    (hk : ∀ sz, k ≠ .alloc sz) : Inv (s.tryFlush t i k) := by
  unfold State.tryFlush
  split
  · exact h
  · rename_i hlock
    refine h.acquire (Bool.eq_false_of_not_eq_true hlock) hv rfl ?_
    cases k with
    | alloc sz => exact absurd rfl (hk sz)
    | flush flushed => trivial
    | done => trivial

/-- **The invariant of the send buffers.** -/
theorem Inv.step [Fintype T] {s' : State T} {e : T × Event T} (h : Inv s)
    (hs : s.step e = some s') : Inv s' := by
  obtain ⟨t, e⟩ := e
  cases e with
  | alloc sz =>
    simp only [State.step, ite_none_right_eq_some, Option.some.injEq] at hs
    obtain ⟨hact, rfl⟩ := hs
    exact h.quiet (by rw [hact]; rfl) rfl trivial
  | fill off b =>
    simp only [State.step] at hs
    split at hs
    case h_2 => cases hs
    rename_i ptr sz hact
    simp only [ite_none_right_eq_some, Option.some.injEq] at hs
    obtain ⟨hoff, rfl⟩ := hs
    have hv : (s.act t).view t = none := by rw [hact]; rfl
    have hown := h.own t
    rw [hact] at hown
    obtain ⟨hptr, hsz⟩ := hown
    have hnext := h.append (t := t) (a := s.act t)
      (c := { s.channel t with mem := update (s.channel t).mem (ptr + off) b }) hv hv
      (fun u v hu hw => h.foreign hu hw) rfl
      (fun v hforeign hc => hc.write hforeign (by omega) b) (h.own t)
    rwa [update_eq_self] at hnext
  | finish =>
    simp only [State.step] at hs
    split at hs
    case h_2 => cases hs
    rename_i ptr sz hact
    cases hs
    have hown := h.own t
    rw [hact] at hown
    obtain ⟨rfl, hsz⟩ := hown
    exact h.append (by rw [hact]; rfl) rfl (fun u v hu hw => h.foreign hu hw) rfl
      (fun v hforeign hc => hc.append hforeign sz) trivial
  | tryFlush i =>
    simp only [State.step] at hs
    split at hs
    · rename_i hact
      cases hs
      exact h.tryFlush (by rw [hact]; rfl) fun sz hk => by cases hk
    · rename_i flushed hact
      simp only [ite_none_left_eq_some, Option.some.injEq] at hs
      obtain ⟨-, rfl⟩ := hs
      exact h.tryFlush (by rw [hact]; rfl) fun sz hk => by cases hk
    · cases hs
  | flush =>
    simp only [State.step, ite_none_right_eq_some, Option.some.injEq] at hs
    obtain ⟨hact, rfl⟩ := hs
    exact h.quiet (by rw [hact]; rfl) rfl trivial
  | flushReturn =>
    simp only [State.step, ite_none_right_eq_some, Option.some.injEq] at hs
    obtain ⟨hact, rfl⟩ := hs
    exact h.quiet (by rw [hact]; rfl) rfl trivial
  | advance => exact h.advance hs

end

/-! ## The effect of a step -/

section

variable [DecidableEq T]

theorem act_setAct (s : State T) (t : T) (a : Act T) : (s.setAct t a).act t = a :=
  update_self ..

theorem setAct_eq (s : State T) (t : T) (a : Act T) :
    s.setAct t a = (s.setChannel t (s.channel t)).setAct t a := by
  rw [State.setChannel, update_eq_self]

theorem setChannel_eq (s : State T) (t : T) (c : Channel) :
    s.setChannel t c = (s.setChannel t c).setAct t (s.act t) :=
  congrArg (fun act => { s.setChannel t c with act }) (update_eq_self t s.act).symm

end

/-- What a thread has copied and not yet written. -/
def Act.pending : Act T → Multiset (List UInt8)
  | .unlock _ buf _ => if buf = [] then 0 else {buf}
  | .write buf _ => {buf}
  | _ => 0

theorem Return.pending_act (k : Return T) : k.act.pending = 0 := by
  cases k <;> rfl

section

variable [Fintype T]

def State.copied (s : State T) : Multiset (List UInt8) := ∑ i, ((s.channel i).copies : Multiset _)

def State.pending (s : State T) : Multiset (List UInt8) := ∑ t, (s.act t).pending

/-- What a step of a thread can do to the other threads, to the frames and to the copies. -/
structure Effect (s : State T) (t : T) (e : Event T) (s' : State T) : Prop where
  act : ∀ u, u ≠ t → s'.act u = s.act u
  appendStart : ∀ u, u ≠ t → (s'.channel u).appendStart = (s.channel u).appendStart
  frames : ∀ j, (s.channel j).frames <+: (s'.channel j).frames
  kept : e ≠ .finish → ∀ j, (s'.channel j).frames = (s.channel j).frames
  copies : ∀ j, (s.channel j).copies <+: (s'.channel j).copies
  balance : s'.copied + (s.writes + s.pending) = s.copied + (s'.writes + s'.pending)

variable [DecidableEq T] {s s' : State T} {t i : T} {a : Act T} {c : Channel} {e : Event T}

theorem pending_setAct (s : State T) (t : T) (a : Act T) :
    (s.setAct t a).pending + (s.act t).pending = s.pending + a.pending :=
  sum_update_add Finset.univ (fun _ b => Act.pending b) s.act (Finset.mem_univ t) a

theorem copied_setChannel (s : State T) (i : T) (c : Channel) :
    (s.setChannel i c).copied + (s.channel i).copies = s.copied + c.copies :=
  sum_update_add Finset.univ (fun _ (d : Channel) => (d.copies : Multiset (List UInt8))) s.channel
    (Finset.mem_univ i) c

theorem effect_update (happ : i = t ∨ c.appendStart = (s.channel i).appendStart)
    (hframes : (s.channel i).frames <+: c.frames)
    (hkept : e ≠ .finish → c.frames = (s.channel i).frames)
    (hcopies : (s.channel i).copies <+: c.copies)
    (hbal : (c.copies : Multiset (List UInt8)) + (s.act t).pending =
      (s.channel i).copies + a.pending) :
    Effect s t e ((s.setChannel i c).setAct t a) := by
  have hchan : ∀ j, ((s.setChannel i c).setAct t a).channel j = update s.channel i c j :=
    fun _ => rfl
  constructor
  case act =>
    intro u hu
    exact update_of_ne hu _ _
  case appendStart =>
    intro u hu
    rw [hchan]
    by_cases hui : u = i
    · subst hui
      rw [update_self, happ.resolve_left hu]
    · rw [update_of_ne hui]
  case frames =>
    intro j
    rw [hchan]
    by_cases hji : j = i
    · subst hji
      rwa [update_self]
    · rw [update_of_ne hji]
  case kept =>
    intro he j
    rw [hchan]
    by_cases hji : j = i
    · subst hji
      rw [update_self, hkept he]
    · rw [update_of_ne hji]
  case copies =>
    intro j
    rw [hchan]
    by_cases hji : j = i
    · subst hji
      rwa [update_self]
    · rw [update_of_ne hji]
  case balance =>
    have hcopied := copied_setChannel s i c
    have hpending := pending_setAct (s.setChannel i c) t a
    ext w
    have h₁ := congrArg (Multiset.count w) hcopied
    have h₂ := congrArg (Multiset.count w) hpending
    have h₃ := congrArg (Multiset.count w) hbal
    simp only [Multiset.count_add] at h₁ h₂ h₃ ⊢
    change _ + Multiset.count w ((s.act t).pending) = Multiset.count w s.pending + _ at h₂
    change Multiset.count w (s.setChannel i c).copied + _ =
      _ + (Multiset.count w s.writes + _)
    omega

theorem effect_setAct (hpending : a.pending = (s.act t).pending) :
    Effect s t e (s.setAct t a) := by
  rw [setAct_eq]
  exact effect_update (.inl rfl) (prefix_refl _) (fun _ => rfl) (prefix_refl _)
    (by rw [hpending])

/-- The step changes neither the frames nor the copies of a buffer. -/
theorem effect_quiet (happ : i = t ∨ c.appendStart = (s.channel i).appendStart)
    (hframes : c.frames = (s.channel i).frames)
    (hcopies : c.copies = (s.channel i).copies) (hpending : a.pending = (s.act t).pending) :
    Effect s t e ((s.setChannel i c).setAct t a) := by
  refine effect_update happ ?_ (fun _ => hframes) ?_ ?_
  · rw [hframes]
  · rw [hcopies]
  · rw [hcopies, hpending]

theorem effect_advance (hs : s.advance t = some s') : Effect s t e s' := by
  unfold State.advance at hs
  split at hs <;> rename_i hact
  case h_1 =>
    dsimp only at hs
    split at hs <;> cases hs
    · exact effect_setAct (by rw [hact]; rfl)
    · exact effect_setAct (by rw [hact]; rfl)
  case h_2 =>
    split at hs <;> cases hs
    exact effect_quiet (.inl rfl) rfl rfl (by rw [hact]; rfl)
  case h_9 j start stop k =>
    split at hs <;> rename_i hlt <;> cases hs
    · have hne : seg (s.channel j).mem start (stop - start) ≠ [] := fun hnil => by
        have hlen := congrArg List.length hnil
        rw [length_seg, length_nil] at hlen
        omega
      refine effect_update (.inr rfl) (prefix_refl _) (fun _ => rfl)
        (prefix_append _ _) ?_
      rw [hact, ← Multiset.coe_add]
      simp [Act.pending, hne]
    · exact effect_setAct (by rw [hact]; rfl)
  case h_10 j buf k =>
    cases hs
    refine effect_quiet (.inr rfl) rfl rfl ?_
    rw [hact]
    by_cases hbuf : buf = []
    · rw [if_pos hbuf, k.pending_act]
      simp [Act.pending, hbuf]
    · simp [Act.pending, hbuf]
  case h_11 buf k =>
    cases hs
    have hpending := pending_setAct s t k.act
    rw [hact, k.pending_act, add_zero] at hpending
    refine ⟨fun u hu => update_of_ne hu _ _, fun _ _ => rfl, fun j => prefix_refl _,
      fun _ j => rfl, fun j => prefix_refl _, ?_⟩
    have hwrites : ((s.writes ++ [buf] : List (List UInt8)) : Multiset (List UInt8)) =
        s.writes + {buf} := by rw [← Multiset.coe_add, Multiset.coe_singleton]
    change s.copied + (↑s.writes + s.pending) =
      s.copied + (↑(s.writes ++ [buf]) + (s.setAct t k.act).pending)
    rw [hwrites, ← hpending]
    simp only [Act.pending]
    abel
  case h_12 => cases hs
  all_goals
    cases hs
    first
      | exact effect_setAct (by rw [hact]; rfl)
      | exact effect_quiet (.inl rfl) rfl rfl (by rw [hact]; rfl)
      | exact effect_quiet (.inr rfl) rfl rfl (by rw [hact]; rfl)

theorem effect_tryFlush {k : Return T} (hpending : (s.act t).pending = 0) :
    Effect s t e (s.tryFlush t i k) := by
  unfold State.tryFlush
  split
  · exact ⟨fun _ _ => rfl, fun _ _ => rfl, fun _ => prefix_refl _, fun _ _ => rfl,
      fun _ => prefix_refl _, rfl⟩
  · exact effect_quiet (.inr rfl) rfl rfl hpending.symm

theorem effect_step (hs : s.step (t, e) = some s') : Effect s t e s' := by
  cases e with
  | alloc sz =>
    simp only [State.step, ite_none_right_eq_some, Option.some.injEq] at hs
    obtain ⟨hact, rfl⟩ := hs
    exact effect_setAct (by rw [hact]; rfl)
  | fill off b =>
    simp only [State.step] at hs
    split at hs
    case h_2 => cases hs
    rename_i ptr sz hact
    simp only [ite_none_right_eq_some, Option.some.injEq] at hs
    obtain ⟨hoff, rfl⟩ := hs
    rw [setChannel_eq]
    exact effect_quiet (.inl rfl) rfl rfl rfl
  | finish =>
    simp only [State.step] at hs
    split at hs
    case h_2 => cases hs
    rename_i ptr sz hact
    cases hs
    refine effect_update (.inl rfl) (prefix_append _ _) (fun he => absurd rfl he)
      (prefix_refl _) ?_
    rw [hact]
    rfl
  | tryFlush i =>
    simp only [State.step] at hs
    split at hs <;> rename_i hact
    · cases hs
      exact effect_tryFlush (by rw [hact]; rfl)
    · simp only [ite_none_left_eq_some, Option.some.injEq] at hs
      obtain ⟨-, rfl⟩ := hs
      exact effect_tryFlush (by rw [hact]; rfl)
    · cases hs
  | flush =>
    simp only [State.step, ite_none_right_eq_some, Option.some.injEq] at hs
    obtain ⟨hact, rfl⟩ := hs
    exact effect_setAct (by rw [hact]; rfl)
  | flushReturn =>
    simp only [State.step, ite_none_right_eq_some, Option.some.injEq] at hs
    obtain ⟨hact, rfl⟩ := hs
    exact effect_setAct (by rw [hact]; rfl)
  | advance => exact effect_advance hs

end

end Felis.Transport.Send
