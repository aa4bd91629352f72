import Felis.Sched.Window

/-!
# The window never overflows

`Inv` is kept by every step. Its heart is `room`: while a piece with a key runs, there is a free
slot for its routine. `Peek` sees to it, since it hands out no new piece with a key when the window
is full, and a waiting routine leaves its slot when it is popped. The pieces of the zero queue have
no key, and their routines are not preempted.
-/

namespace Felis.Sched

open BinaryHeap Cells Function List Option

/-! ## The queues -/

namespace Dispatch

variable {maxItem : ℕ} {d d' : State}

/-- The zero queue holds routines without a key only. -/
structure ZeroKeys (d : State) : Prop where
  zend : ∀ todo zend zdelta pend pdelta plimit,
    d.adding = some (.loop todo zend zdelta pend pdelta plimit) → zend = d.zq.stop
  keys : ∀ i < d.zq.stop + d.zdelta, (d.zq.q i).isZero = true

theorem ZeroKeys.congr (h : ZeroKeys d) (hq : d'.zq.q = d.zq.q) (hstop : d'.zq.stop = d.zq.stop)
    (hadd : d'.adding = d.adding) : ZeroKeys d' := by
  constructor
  · rw [hadd, hstop]
    exact h.zend
  · rw [State.zdelta, hadd, hq, hstop]
    exact h.keys

/-- `Add` goes on to `a`, without a write to the zero queue. -/
theorem ZeroKeys.setAdding (h : ZeroKeys d) {a : Adding} (hzq : d'.zq = d.zq)
    (ha : d'.adding = some a) (hle : a.zdelta ≤ d.zdelta)
    (hloop : ∀ todo zend zdelta pend pdelta plimit,
      a = .loop todo zend zdelta pend pdelta plimit → zend = d.zq.stop) : ZeroKeys d' := by
  constructor
  · intro todo zend zdelta pend pdelta plimit hd
    rw [hzq]
    exact hloop todo zend zdelta pend pdelta plimit (some.inj (ha.symm.trans hd))
  · intro i hi
    rw [hzq] at hi ⊢
    rw [State.zdelta, ha, elim_some] at hi
    exact h.keys i (by omega)

theorem ZeroKeys.addStep (h : ZeroKeys d) {a : Adding} (ha : d.adding = some a)
    (hd : d.addStep maxItem a = some d') : ZeroKeys d' := by
  have hdelta : d.zdelta = a.zdelta := by rw [State.zdelta, ha, elim_some]
  cases a with
  | again todo =>
    cases hd
    refine h.setAdding rfl rfl (Nat.zero_le _) ?_
    rintro _ _ _ _ _ _ ⟨⟩
    rfl
  | loop todo zend zdelta pend pdelta plimit =>
    have hzend := h.zend _ _ _ _ _ _ ha
    cases todo with
    | nil =>
      cases hd
      refine h.setAdding rfl rfl hdelta.ge ?_
      rintro _ _ _ _ _ _ ⟨⟩
    | cons r todo =>
      rw [State.addStep] at hd
      split_ifs at hd with hr hfull hlimit <;> cases hd
      · constructor
        · rintro _ _ _ _ _ _ ⟨⟩
          exact hzend
        · intro i hi
          change i < d.zq.stop + (zdelta + 1) at hi
          by_cases hie : i = zend + zdelta
          · simpa [hie] using hr
          · simp only [update_of_ne hie]
            exact h.keys i (by rw [hdelta, Adding.zdelta]; omega)
      · refine h.setAdding rfl rfl (Nat.zero_le _) ?_
        rintro _ _ _ _ _ _ ⟨⟩
      · refine h.setAdding rfl rfl hdelta.ge ?_
        rintro _ _ _ _ _ _ ⟨⟩
        exact hzend
  | publishZero zdelta pdelta =>
    cases hd
    constructor
    · rintro _ _ _ _ _ _ ⟨⟩
    · intro i hi
      exact h.keys i (by rw [hdelta]; exact hi)
  | publishPending pdelta =>
    cases hd
    refine h.setAdding rfl rfl hdelta.ge ?_
    rintro _ _ _ _ _ _ ⟨⟩
  | unlock =>
    cases hd
    constructor
    · rintro _ _ _ _ _ _ ⟨⟩
    · intro i hi
      exact h.keys i (by rw [hdelta]; exact hi)

theorem ZeroKeys.add (h : ZeroKeys d) {batch : List RoutineRef}
    (hd : d.step maxItem (.add batch) = some d') : ZeroKeys d' := by
  rw [State.step] at hd
  split_ifs at hd with ha
  cases hd
  refine h.setAdding rfl rfl (Nat.zero_le _) ?_
  rintro _ _ _ _ _ _ ⟨⟩

theorem ZeroKeys.adder (h : ZeroKeys d) (hd : d.step maxItem .adder = some d') : ZeroKeys d' := by
  obtain ⟨a, ha, hd⟩ := bind_eq_some_iff.1 hd
  exact h.addStep ha hd

end Dispatch

namespace Queues

variable {maxItem limit : ℕ} {s t : Queues}

theorem addAll_spec {rts : List RoutineRef} (hrep : ∃ es, s.pq.Rep s.pending es)
    (h : s.addAll limit rts = some t) :
    t.dispatch = s.dispatch ∧ ∃ es, t.pq.Rep t.pending es := by
  induction rts generalizing s with
  | nil =>
    cases h
    exact ⟨rfl, hrep⟩
  | cons rt rts ih =>
    obtain ⟨pq, hadd, h⟩ := bind_eq_some_iff.1 h
    obtain ⟨es, hrep⟩ := hrep
    exact ih (s := ⟨s.dispatch, pq, s.pending ++ [⟨s.pq.brk, rt⟩]⟩) (hrep.add hadd).1 h

theorem processPending_spec (hrep : ∃ es, s.pq.Rep s.pending es)
    (h : s.processPending maxItem limit = some t) :
    t.dispatch = drain maxItem s.dispatch ∧ ∃ es, t.pq.Rep t.pending es := by
  obtain ⟨u, hu, rfl⟩ := map_eq_some_iff.1 h
  obtain ⟨hd, hrep⟩ := addAll_spec hrep hu
  exact ⟨congrArg (drain maxItem) hd, hrep⟩

end Queues

/-! ## The waiting routines -/

theorem WaitState.greater_iff {E : Type} {a b : WaitState E} :
    a.greater b = true ↔
      b.preemptKey < a.preemptKey ∨ b.preemptKey = a.preemptKey ∧ b.schedKey < a.schedKey := by
  unfold WaitState.greater
  split_ifs with h h'
  · simp [h]
  · simp only [false_iff]
    omega
  · rw [decide_eq_true_eq]
    omega

theorem WaitState.not_greater_iff {E : Type} {a b : WaitState E} :
    a.greater b = false ↔
      a.preemptKey < b.preemptKey ∨ a.preemptKey = b.preemptKey ∧ a.schedKey ≤ b.schedKey := by
  rw [← Bool.not_eq_true, WaitState.greater_iff]
  omega

theorem WaitState.strictWeakOrder_greater {E : Type} :
    StrictWeakOrder (@WaitState.greater E) where
  asymm a b h := by
    rw [greater_iff] at h
    rw [not_greater_iff]
    omega
  not_trans a b c hab hbc := by
    rw [not_greater_iff] at hab hbc ⊢
    omega

namespace Window

variable {E : Type} {maxItem limit : ℕ} {s t : State E} {e : E}

structure Inv (s : State E) : Prop where
  heap : IsHeap WaitState.greater s.waiting.states s.waiting.len
  len_le : s.waiting.len ≤ kOutOfOrderWindow
  perm : ((seg s.waiting.states 0 s.waiting.len).map (·.state)).Perm s.suspended
  nodup : s.suspended.Nodup
  running : ∀ e ∈ s.running, e ∉ s.suspended
  room : s.running.isSome → s.currentSchedKey ≠ 0 → s.waiting.len < kOutOfOrderWindow
  zero : Dispatch.ZeroKeys s.queues.dispatch
  rep : ∃ es, s.queues.pq.Rep s.queues.pending es
  aborted : s.aborted = false

theorem inv_init (dispatch ring : ℕ → RoutineRef) (q : ℕ → PriorityQueueHeapEntry)
    (ent : ℕ → PriorityQueueHashEntry) (states : ℕ → WaitState E) :
    Inv (State.init dispatch ring q ent states) where
  heap _ _ hlt := absurd hlt (Nat.not_lt_zero _)
  len_le := Nat.zero_le _
  perm := .refl _
  nodup := nodup_nil
  running _ he := by cases he
  room h := by cases h
  zero := ⟨fun _ _ _ _ _ _ h => (by cases h), fun _ hi => absurd hi (Nat.not_lt_zero _)⟩
  rep := ⟨[], PriorityQueue.rep_empty q ent⟩
  aborted := rfl

section

variable (h : Inv s)

include h

/-- The least waiting routine is in front. -/
theorem Inv.front_least {i : ℕ} (hi : i < s.waiting.len) :
    (s.waiting.states 0).preemptKey < (s.waiting.states i).preemptKey ∨
      (s.waiting.states 0).preemptKey = (s.waiting.states i).preemptKey ∧
        (s.waiting.states 0).schedKey ≤ (s.waiting.states i).schedKey :=
  WaitState.not_greater_iff.1 (h.heap.root WaitState.strictWeakOrder_greater i hi)

theorem Inv.setQueues {queues : Queues} (hzero : Dispatch.ZeroKeys queues.dispatch)
    (hrep : ∃ es, queues.pq.Rep queues.pending es) : Inv { s with queues := queues } :=
  ⟨h.heap, h.len_le, h.perm, h.nodup, h.running, h.room, hzero, hrep, h.aborted⟩

theorem Inv.processPending (ht : s.processPending maxItem limit = some t) :
    Inv t ∧ t.waiting = s.waiting := by
  obtain ⟨queues, hq, rfl⟩ := map_eq_some_iff.1 ht
  obtain ⟨hd, hrep⟩ := Queues.processPending_spec h.rep hq
  refine ⟨h.setQueues ?_ hrep, rfl⟩
  rw [hd]
  exact h.zero.congr rfl rfl rfl

theorem Inv.zero_key (hlt : s.queues.dispatch.zq.start < s.queues.dispatch.zq.stop) :
    (s.queues.dispatch.zq.q s.queues.dispatch.zq.start).schedKey = 0 :=
  of_decide_eq_true (h.zero.keys _ (by omega))

theorem Inv.popZero (hlt : s.queues.dispatch.zq.start < s.queues.dispatch.zq.stop)
    (he : e ∉ s.suspended) : Inv (s.popZero e) := { h with
  running e' he' := by
    cases he'
    exact he
  room _ hkey := absurd (h.zero_key hlt) hkey
  zero := h.zero.congr rfl rfl rfl }

theorem Inv.popPiece {v : PriorityQueueValue} (he : e ∉ s.suspended)
    (hlen : s.waiting.len < kOutOfOrderWindow) (hpq : 0 < s.queues.pq.len)
    (hpick : s.queues.pq.pick = some v) (ht : s.popPiece e v = some t) :
    Inv t ∧ PriorityQueue.First s.queues.pending v := by
  obtain ⟨es, hrep⟩ := h.rep
  obtain ⟨w, hw, hfirst, pq', hcons, hrep'⟩ := hrep.consume hpq
  obtain rfl : w = v := some.inj (hw.symm.trans hpick)
  obtain ⟨pq, hpq', rfl⟩ := map_eq_some_iff.1 ht
  obtain rfl : pq' = pq := some.inj (hcons.symm.trans hpq')
  refine ⟨⟨h.heap, h.len_le, h.perm, h.nodup, ?_, fun _ _ => hlen, h.zero, hrep', h.aborted⟩,
    hfirst⟩
  intro e' he'
  cases he'
  exact he

theorem key_of_pick {v : PriorityQueueValue} (hpq : 0 < s.queues.pq.len)
    (hpick : s.queues.pq.pick = some v) : (s.queues.pq.q 0).key = v.key := by
  obtain ⟨es, hrep⟩ := h.rep
  obtain ⟨ent, -, w, hq, hw, hkey, -⟩ := hrep.pick_spec hpq
  obtain rfl : w = v := some.inj (hw.symm.trans hpick)
  rw [hq, ← hkey, PriorityQueue.heapEntry]

/-! ## `Preempt` -/

theorem Inv.push (he : e ∉ s.suspended) (hlen : s.waiting.len < kOutOfOrderWindow)
    {ws : WaitState E} (hws : ws.state = e) :
    Inv { s with
      waiting :=
        { states := pushHeap WaitState.greater
            (update s.waiting.states s.waiting.len ws) (s.waiting.len + 1)
          len := s.waiting.len + 1 }
      running := none
      suspended := s.suspended ++ [e] } := by
  refine ⟨?_, hlen, ?_, ?_, fun e' he' => (by cases he'), fun hrun => (by cases hrun),
    h.zero, h.rep, h.aborted⟩
  · refine isHeap_pushHeap WaitState.strictWeakOrder_greater (Nat.succ_pos _)
      (h.heap.congr fun i hi => ?_)
    exact update_of_ne (Nat.ne_of_lt hi) ..
  · refine ((rearranged_pushHeap (Nat.succ_pos _) _).perm.map WaitState.state).trans ?_
    have hseg := seg_update s.waiting.states 0 s.waiting.len ws
    rw [Nat.zero_add] at hseg
    rw [hseg, map_append, map_singleton, hws]
    exact h.perm.append_right _
  · rw [nodup_append_comm, singleton_append]
    exact nodup_cons.2 ⟨he, h.nodup⟩

theorem Inv.preemptQueue (hrun : s.running = some e) {b : Bool} (ht : s.preemptQueue e = (t, b)) :
    Inv t := by
  have he : e ∉ s.suspended := h.running e hrun
  rw [State.preemptQueue] at ht
  dsimp only at ht
  split_ifs at ht with hkey hfull hnothing <;> cases ht
  · exact h
  · -- the routine is running a piece with a key
    have hroom := h.room (by rw [hrun]; rfl) hkey
    omega
  · refine ⟨h.heap.congr ?_, h.len_le, ?_, h.nodup, h.running, h.room, h.zero, h.rep, h.aborted⟩
    · intro i hi
      rw [hnothing.1] at hi
      exact absurd hi (Nat.not_lt_zero _)
    · have hperm := h.perm
      dsimp only
      rw [hnothing.1] at hperm ⊢
      exact hperm
  · exact h.push he (lt_of_le_of_ne h.len_le hfull) rfl

end

/-! ## `Peek` -/

/-- What is handed out in the state `u` after `ProcessPending`. A waiting routine is the least one.
A piece of the priority queue is the first of the least key; then the window has a free slot, and no
waiting routine has a smaller key. -/
def Chosen (u : State E) : Outcome E → Prop
  | .zero r => r.schedKey = 0
  | .waiting ws => 0 < u.waiting.len ∧ ws = u.waiting.states 0 ∧ ∀ i < u.waiting.len,
      ws.preemptKey < (u.waiting.states i).preemptKey ∨
        ws.preemptKey = (u.waiting.states i).preemptKey ∧
        ws.schedKey ≤ (u.waiting.states i).schedKey
  | .piece v => PriorityQueue.First u.queues.pending v ∧ u.waiting.len < kOutOfOrderWindow ∧
      ∀ i < u.waiting.len, v.key ≤ (u.waiting.states i).preemptKey

variable [DecidableEq E]

theorem Inv.popWaiting (h : Inv s) (hlen : 0 < s.waiting.len) : Inv s.popWaiting := by
  have hle := h.len_le
  have hperm : (s.waiting.states 0).state ∈ s.suspended ∧
      ((seg (popHeap WaitState.greater s.waiting.states s.waiting.len) 0 (s.waiting.len - 1)).map
        (·.state)).Perm (s.suspended.filter (· ≠ (s.waiting.states 0).state)) := by
    have hpop := ((perm_popHeap WaitState.greater hlen s.waiting.states).map (·.state)).trans h.perm
    rw [map_cons] at hpop
    have hmem := hpop.mem_iff.1 mem_cons_self
    exact ⟨hmem, (hpop.trans (PriorityQueue.perm_cons_filter_ne h.nodup hmem)).cons_inv⟩
  refine ⟨isHeap_popHeap WaitState.strictWeakOrder_greater h.heap, (Nat.sub_le _ _).trans hle,
    hperm.2, h.nodup.filter _, ?_, fun _ _ => ?_, h.zero, h.rep, h.aborted⟩
  · intro e he
    cases he
    simp [State.popWaiting]
  · change s.waiting.len - 1 < kOutOfOrderWindow
    omega

theorem Inv.peekQueue (h : Inv s) {o : Option (Outcome E)}
    {shouldPop : Option RoutineRef → Option E → Bool}
    (hallowed : o.any Outcome.isPiece → e ∉ s.suspended)
    (ht : s.peekQueue e shouldPop = some (t, o)) : Inv t ∧ ∀ x ∈ o, Chosen s x := by
  rw [State.peekQueue] at ht
  split_ifs at ht with hwait hpop hpq
  · cases ht
    refine ⟨h.popWaiting hwait.1, ?_⟩
    rintro _ ⟨⟩
    exact ⟨hwait.1, rfl, fun i hi => h.front_least hi⟩
  · cases ht
    exact ⟨h, fun x hx => by cases hx⟩
  · have hpos := Nat.pos_of_ne_zero hpq
    obtain ⟨v, hpick, ht⟩ := bind_eq_some_iff.1 ht
    split_ifs at ht with hpop
    · obtain ⟨t', ht', hto⟩ := map_eq_some_iff.1 ht
      cases hto
      -- the waiting routine in front has not been chosen, so the window is not full
      have hlen : s.waiting.len < kOutOfOrderWindow := by
        refine lt_of_le_of_ne h.len_le fun hfull => hwait ⟨?_, .inl hfull⟩
        rw [hfull]
        decide
      obtain ⟨hinv, hfirst⟩ := h.popPiece (hallowed rfl) hlen hpos hpick ht'
      refine ⟨hinv, ?_⟩
      rintro _ ⟨⟩
      refine ⟨hfirst, hlen, fun i hi => ?_⟩
      have hnot : ¬ s.shouldPickWaiting (s.waiting.states 0) = true :=
        fun hpick => hwait ⟨Nat.zero_lt_of_lt hi, .inr hpick⟩
      have hfront : v.key ≤ (s.waiting.states 0).preemptKey := by
        rw [← key_of_pick h hpos hpick]
        simpa [State.shouldPickWaiting, hpq] using hnot
      have hleast := h.front_least hi
      omega
    · cases ht
      exact ⟨h, fun x hx => by cases hx⟩
  · cases ht
    exact ⟨h, fun x hx => by cases hx⟩

def Handed (maxItem limit : ℕ) (s : State E) : Outcome E → Prop
  | .zero r => r.schedKey = 0
  | o => ∃ u ∈ s.processPending maxItem limit, u.waiting = s.waiting ∧ Chosen u o

theorem Inv.peek (h : Inv s) {o : Option (Outcome E)} {ready : Bool}
    {shouldPop : Option RoutineRef → Option E → Bool}
    (hallowed : o.any Outcome.isPiece → e ∉ s.suspended)
    (ht : s.peek maxItem limit e ready shouldPop = some (t, o)) :
    Inv t ∧ ∀ x ∈ o, Handed maxItem limit s x := by
  rw [State.peek] at ht
  split_ifs at ht with hready hzero hpop
  · cases ht
    exact ⟨h, fun x hx => by cases hx⟩
  · cases ht
    refine ⟨h.popZero hzero (hallowed rfl), ?_⟩
    rintro _ ⟨⟩
    exact h.zero_key hzero
  · cases ht
    exact ⟨h, fun x hx => by cases hx⟩
  · obtain ⟨u, hu, ht⟩ := bind_eq_some_iff.1 ht
    obtain ⟨hinv, hwait⟩ := h.processPending hu
    have hsusp : u.suspended = s.suspended := by
      obtain ⟨queues, -, rfl⟩ := map_eq_some_iff.1 hu
      rfl
    rw [← hsusp] at hallowed
    obtain ⟨hinv, hchosen⟩ := hinv.peekQueue hallowed ht
    refine ⟨hinv, fun x hx => ?_⟩
    have hx := hchosen x hx
    cases x with
    | zero r => exact hx
    | waiting ws => exact ⟨u, hu, hwait, hx⟩
    | piece v => exact ⟨u, hu, hwait, hx⟩

theorem Inv.step (h : Inv s) {ev : Event E} (ht : s.step maxItem limit ev = some t) : Inv t := by
  cases ev with
  | add batch =>
    obtain ⟨d, hd, rfl⟩ := map_eq_some_iff.1 ht
    exact h.setQueues (h.zero.add hd) h.rep
  | adder =>
    obtain ⟨d, hd, rfl⟩ := map_eq_some_iff.1 ht
    exact h.setQueues (h.zero.adder hd) h.rep
  | peek caller ready shouldPop =>
    obtain ⟨⟨t', o⟩, hpeek, ht⟩ := bind_eq_some_iff.1 ht
    dsimp only at ht
    split_ifs at ht with hallowed
    cases ht
    exact (h.peek (fun ho he => hallowed ⟨he, ho⟩) hpeek).1
  | preempt caller =>
    rw [State.step] at ht
    split_ifs at ht with hrun
    obtain ⟨⟨t', b⟩, hpre, rfl⟩ := map_eq_some_iff.1 ht
    obtain ⟨u, hu, hpre⟩ := map_eq_some_iff.1 hpre
    obtain ⟨queues, -, rfl⟩ := map_eq_some_iff.1 hu
    exact (h.processPending hu).1.preemptQueue hrun hpre

/-! ## Runs -/

/-- What holds in every state of the core. -/
structure Bounded (maxItem limit : ℕ) (s : State E) : Prop where
  not_aborted : s.aborted = false
  heap : IsHeap WaitState.greater s.waiting.states s.waiting.len
  len_le : s.waiting.len ≤ kOutOfOrderWindow
  /-- The window holds the routines that have been preempted and not popped, each once. -/
  waiting : ((seg s.waiting.states 0 s.waiting.len).map (·.state)).Perm s.suspended ∧
    s.suspended.Nodup
  /-- What a `Peek` hands out, as long as a sleeping routine takes no piece. -/
  handed : ∀ caller ready shouldPop t o, (o.isPiece → caller ∉ s.suspended) →
    s.peek maxItem limit caller ready shouldPop = some (t, some o) → Handed maxItem limit s o

/-- **The window is bounded.** In every run of a core in which `Preempt` is called by the routine
whose piece has been handed out last, the window never overflows, it is a heap of the preempted
routines, and `Peek` hands out the least waiting routine, a piece without a key, or a piece of the
least key. -/
theorem window_bounded (maxItem limit : ℕ) (dispatch ring : ℕ → RoutineRef)
    (q : ℕ → PriorityQueueHeapEntry) (ent : ℕ → PriorityQueueHashEntry) (states : ℕ → WaitState E)
    (evs : List (Event E)) (s : State E)
    (hrun : Runs.run (State.step maxItem limit)
      (State.init dispatch ring q ent states) evs = some s) :
    Bounded maxItem limit s := by
  have h : Inv s :=
    Runs.run_induction (fun _ _ _ h ht => h.step ht) (inv_init dispatch ring q ent states) hrun
  refine ⟨h.aborted, h.heap, h.len_le, ⟨h.perm, h.nodup⟩, ?_⟩
  intro caller ready shouldPop t o hallowed hpeek
  exact (h.peek (o := some o) hallowed hpeek).2 o rfl

/-- Two routines take a piece each and are preempted; then the first one goes on. -/
def preemptRun : List (Event ℕ) :=
  [.add [⟨0, 5⟩, ⟨1, 7⟩]] ++ List.replicate 7 .adder ++
    [.peek 0 true runListener, .preempt 0, .peek 1 true runListener, .preempt 1,
      .peek 0 true (preemptListener 0)]

theorem window_bounded_preemptRun :
    ∃ s : State ℕ, Runs.run (State.step 4 1024) (State.init (fun _ => ⟨0, 0⟩) (fun _ => ⟨0, 0⟩)
        (fun _ => ⟨0, none⟩) (fun _ => ⟨0, []⟩) fun _ => ⟨0, 0, 0, 0⟩) preemptRun = some s ∧
      s.running = some 0 ∧ s.currentSchedKey = 5 ∧ s.suspended = [1] ∧ s.waiting.len = 1 ∧
      Bounded 4 1024 s := by
  obtain ⟨s, hs, hrunning, hkey, hsusp, hlen⟩ : ∃ s, Runs.run (State.step 4 1024) (State.init (fun _
      => ⟨0, 0⟩) (fun _ => ⟨0, 0⟩) (fun _ => ⟨0, none⟩) (fun _ => ⟨0, []⟩) fun _ => ⟨0, 0, 0, 0⟩)
      preemptRun = some s ∧ s.running = some 0 ∧ s.currentSchedKey = 5 ∧ s.suspended = [1] ∧
      s.waiting.len = 1 := by decide +kernel
  exact ⟨s, hs, hrunning, hkey, hsusp, hlen, window_bounded 4 1024 _ _ _ _ _ preemptRun s hs⟩

end Window

end Felis.Sched
