import Felis.Sched.WindowSafety

/-!
# The backoff of a waiting routine

A routine that is preempted again and again waits longer each time. The number of times is kept in
the state of the routine in the window, and while the routine runs, in the slot behind the window,
where `pop_heap` has left it. `Preempt` takes the number from there when the key in the slot is the
key of the piece.

`Counted` is a core with the calls of `Preempt` that each routine has made for its piece. The slot
behind the window says how many they are (`CountInv.running`), as long as the first `Preempt` for a
piece finds another key there (`FreshSlot`). When it does not, as for two pieces of one transaction,
the backoff goes on where the other piece has left it (`backoff_inherited`).
-/

namespace Felis.Sched.Window

open BinaryHeap Cells Runs Function List Option

variable {E : Type}

/-- A core, and for each routine the calls of `Preempt` since its piece has been handed to it. -/
structure Counted (E : Type) where
  core : State E
  calls : E → ℕ

/-- The state of a routine that waits for the `k`-th time with a piece of the key. -/
def record (e : E) (key k : ℕ) : WaitState E where
  state := e
  schedKey := key
  preemptKey := key + keyThreshold * min k maxBackoff
  preemptTimes := k

/-- The first `Preempt` for a piece finds another key behind the window, and neither the number of
calls nor the key with the backoff wraps around. -/
def FreshSlot (c : Counted E) : Event E → Prop
  | .preempt caller => c.core.currentSchedKey ≠ 0 →
      (c.calls caller = 0 →
        (c.core.waiting.states c.core.waiting.len).schedKey ≠ c.core.currentSchedKey) ∧
      c.calls caller + 1 < 2 ^ 64 ∧
      c.core.currentSchedKey + keyThreshold * min (c.calls caller + 1) maxBackoff < 2 ^ 64
  | _ => True

instance (c : Counted E) (ev : Event E) : Decidable (FreshSlot c ev) := by
  unfold FreshSlot
  split <;> infer_instance

variable {maxItem limit : ℕ} {s t : State E} {c c' : Counted E} {e : E} {o : Option (Outcome E)}

namespace Counted

def init (s : State E) : Counted E := ⟨s, fun _ => 0⟩

/-- The calls after an event. A piece that is handed out starts the count of its routine. -/
def count [DecidableEq E] (maxItem limit : ℕ) (c : Counted E) : Event E → E → ℕ
  | .peek caller ready shouldPop =>
    if ((c.core.peek maxItem limit caller ready shouldPop).bind (·.2)).any Outcome.isPiece then
      update c.calls caller 0
    else c.calls
  | .preempt caller => update c.calls caller (c.calls caller + 1)
  | _ => c.calls

def step [DecidableEq E] (maxItem limit : ℕ) (c : Counted E) (ev : Event E) : Option (Counted E) :=
  (c.core.step maxItem limit ev).map fun t => ⟨t, c.count maxItem limit ev⟩

end Counted

/-! ## What a step does to the window -/

/-- The window, the key and the running routine are as before. -/
structure SameWindow (s t : State E) : Prop where
  waiting : t.waiting = s.waiting
  key : t.currentSchedKey = s.currentSchedKey
  running : t.running = s.running

theorem SameWindow.processPending (h : s.processPending maxItem limit = some t) :
    SameWindow s t := by
  obtain ⟨queues, -, rfl⟩ := map_eq_some_iff.1 h
  exact ⟨rfl, rfl, rfl⟩

/-- What a `Peek` with the outcome `o` does to the window. -/
def Peeked (caller : E) (s t : State E) : Option (Outcome E) → Prop
  | none => SameWindow s t
  | some (.waiting _) => 0 < s.waiting.len ∧
      t.waiting = ⟨popHeap WaitState.greater s.waiting.states s.waiting.len, s.waiting.len - 1⟩ ∧
      t.currentSchedKey = (s.waiting.states 0).schedKey ∧
      t.running = some (s.waiting.states 0).state
  | some _ => t.waiting = s.waiting ∧ t.running = some caller

theorem Peeked.of_same {u : State E} (hs : SameWindow s u) (h : Peeked e u t o) :
    Peeked e s t o := by
  match o, h with
  | none, h => exact ⟨h.waiting.trans hs.waiting, h.key.trans hs.key, h.running.trans hs.running⟩
  | some (.waiting _), h =>
    rw [Peeked, hs.waiting] at h
    exact h
  | some (.zero _), h => exact ⟨h.1.trans hs.waiting, h.2⟩
  | some (.piece _), h => exact ⟨h.1.trans hs.waiting, h.2⟩

/-! ## The invariant -/

structure CountInv (c : Counted E) : Prop where
  inv : Inv c.core
  /-- Each waiting routine has its number of calls. -/
  waiting : ∀ ws ∈ seg c.core.waiting.states 0 c.core.waiting.len,
    ws = record ws.state ws.schedKey (c.calls ws.state)
  /-- The slot behind the window has that of the running routine. -/
  running : ∀ e ∈ c.core.running, c.core.currentSchedKey ≠ 0 → 0 < c.calls e →
    c.core.waiting.states c.core.waiting.len = record e c.core.currentSchedKey (c.calls e)

theorem countInv_init (dispatch ring : ℕ → RoutineRef) (q : ℕ → PriorityQueueHeapEntry)
    (ent : ℕ → PriorityQueueHashEntry) (states : ℕ → WaitState E) :
    CountInv (Counted.init (State.init dispatch ring q ent states)) where
  inv := inv_init dispatch ring q ent states
  waiting _ h := by cases h
  running _ h := by cases h

/-- A step that leaves the window as it is. -/
theorem CountInv.same (h : CountInv c) (hinv : Inv t) (hs : SameWindow c.core t) :
    CountInv ⟨t, c.calls⟩ := by
  refine ⟨hinv, ?_, ?_⟩
  · rw [hs.waiting]
    exact h.waiting
  · rw [hs.waiting, hs.key, hs.running]
    exact h.running

theorem Inv.ne_of_waiting (h : Inv s) (he : e ∉ s.suspended) {ws : WaitState E}
    (hws : ws ∈ seg s.waiting.states 0 s.waiting.len) : ws.state ≠ e := by
  rintro rfl
  exact he (h.perm.mem_iff.1 (mem_map_of_mem hws))

/-! ## `Preempt` -/

theorem CountInv.waitState (h : CountInv c) (hrun : c.core.running = some e)
    (hok : FreshSlot c (.preempt e)) (hkey : c.core.currentSchedKey ≠ 0) :
    c.core.waitState e = record e c.core.currentSchedKey (c.calls e + 1) := by
  obtain ⟨hfresh, hcalls, hfits⟩ := hok hkey
  have htimes :
      (if (c.core.waiting.states c.core.waiting.len).schedKey = c.core.currentSchedKey then
        ((c.core.waiting.states c.core.waiting.len).preemptTimes + 1) % 2 ^ 64 else 1) =
      c.calls e + 1 := by
    rcases Nat.eq_zero_or_pos (c.calls e) with hzero | hpos
    · rw [if_neg (hfresh hzero), hzero]
    · rw [h.running e hrun hkey hpos, record, if_pos rfl, Nat.mod_eq_of_lt hcalls]
  simp only [State.waitState, htimes, record, Nat.mod_eq_of_lt hfits]

/-- The window after a `Preempt` for a piece with a key. -/
structure Stored (ws : WaitState E) (s t : State E) : Prop where
  key : t.currentSchedKey = s.currentSchedKey
  /-- The slot behind the window has been written. -/
  perm : (seg t.waiting.states 0 (s.waiting.len + 1)).Perm
    (seg s.waiting.states 0 s.waiting.len ++ [ws])
  /-- The routine goes on, with its state behind the window, or it waits. -/
  running : t.waiting.len = s.waiting.len ∧ t.waiting.states s.waiting.len = ws ∧
      t.running = s.running ∨
    t.waiting.len = s.waiting.len + 1 ∧ t.running = none

theorem Stored.of_same {u : State E} (hs : SameWindow s u) (h : Stored (u.waitState e) u t) :
    Stored (s.waitState e) s t := by
  have hws : u.waitState e = s.waitState e := by
    rw [State.waitState, State.waitState, hs.waiting, hs.key]
  obtain ⟨hkey, hperm, hrunning⟩ := h
  rw [hws, hs.waiting] at hperm
  rw [hws, hs.waiting, hs.running] at hrunning
  exact ⟨hkey.trans hs.key, hperm, hrunning⟩

theorem stored_preemptQueue {b : Bool} (hlen : s.waiting.len < kOutOfOrderWindow)
    (hkey : s.currentSchedKey ≠ 0) (h : s.preemptQueue e = (t, b)) :
    Stored (s.waitState e) s t := by
  have hseg := seg_update s.waiting.states 0 s.waiting.len (s.waitState e)
  rw [Nat.zero_add] at hseg
  rw [State.preemptQueue, if_neg hkey, if_neg hlen.ne] at h
  dsimp only at h
  split_ifs at h with hnothing <;> cases h
  · exact ⟨rfl, .of_eq hseg, .inl ⟨rfl, update_self .., rfl⟩⟩
  · refine ⟨rfl, ?_, .inr ⟨rfl, rfl⟩⟩
    exact (rearranged_pushHeap (Nat.succ_pos _) _).perm.trans (.of_eq hseg)

/-! ## The steps -/

variable [DecidableEq E]

theorem peeked_peekQueue {shouldPop : Option RoutineRef → Option E → Bool}
    (h : s.peekQueue e shouldPop = some (t, o)) : Peeked e s t o := by
  rw [State.peekQueue] at h
  split_ifs at h with hwait hpop hpq
  · cases h
    exact ⟨hwait.1, rfl, rfl, rfl⟩
  · cases h
    exact ⟨rfl, rfl, rfl⟩
  · obtain ⟨v, -, h⟩ := bind_eq_some_iff.1 h
    split_ifs at h with hpop
    · obtain ⟨t', ht', hto⟩ := map_eq_some_iff.1 h
      cases hto
      obtain ⟨pq, -, rfl⟩ := map_eq_some_iff.1 ht'
      exact ⟨rfl, rfl⟩
    · cases h
      exact ⟨rfl, rfl, rfl⟩
  · cases h
    exact ⟨rfl, rfl, rfl⟩

theorem peeked_peek {ready : Bool} {shouldPop : Option RoutineRef → Option E → Bool}
    (h : s.peek maxItem limit e ready shouldPop = some (t, o)) : Peeked e s t o := by
  rw [State.peek] at h
  split_ifs at h with hready hzero hpop
  · cases h
    exact ⟨rfl, rfl, rfl⟩
  · cases h
    exact ⟨rfl, rfl⟩
  · cases h
    exact ⟨rfl, rfl, rfl⟩
  · obtain ⟨u, hu, h⟩ := bind_eq_some_iff.1 h
    exact (peeked_peekQueue h).of_same (.processPending hu)

/-- The number of calls of a routine that does not wait can change. -/
theorem CountInv.waiting_update (h : CountInv c) (he : e ∉ c.core.suspended) (k : ℕ)
    {ws : WaitState E} (hws : ws ∈ seg c.core.waiting.states 0 c.core.waiting.len) :
    ws = record ws.state ws.schedKey (update c.calls e k ws.state) := by
  rw [update_of_ne (h.inv.ne_of_waiting he hws)]
  exact h.waiting ws hws

theorem CountInv.peek (h : CountInv c) (hinv : Inv t)
    (hallowed : o.any Outcome.isPiece → e ∉ c.core.suspended) (ht : Peeked e c.core t o) :
    CountInv ⟨t, if o.any Outcome.isPiece then update c.calls e 0 else c.calls⟩ := by
  -- a piece is handed out to a routine that does not wait
  have hpiece : t.waiting = c.core.waiting → t.running = some e → e ∉ c.core.suspended →
      CountInv ⟨t, update c.calls e 0⟩ := by
    intro hwait hrun he
    refine ⟨hinv, ?_, ?_⟩
    · rw [hwait]
      exact fun ws hws => h.waiting_update he 0 hws
    · intro e' he' _ hpos
      rw [hrun] at he'
      cases he'
      simp at hpos
  match o, ht with
  | none, ht => exact h.same hinv ht
  | some (.zero _), ht => exact hpiece ht.1 ht.2 (hallowed rfl)
  | some (.piece _), ht => exact hpiece ht.1 ht.2 (hallowed rfl)
  | some (.waiting _), ht =>
    obtain ⟨hlen, hwait, hkey, hrun⟩ := ht
    have hperm := perm_popHeap WaitState.greater hlen c.core.waiting.states
    refine ⟨hinv, ?_, ?_⟩
    · rw [hwait]
      exact fun ws hws => h.waiting ws (hperm.mem_iff.1 (mem_cons_of_mem _ hws))
    · -- `pop_heap` has moved the state of the routine behind the window
      intro e' he' _ _
      rw [hrun] at he'
      cases he'
      rw [hwait, hkey]
      refine (popHeap_last _ _).trans ?_
      exact h.waiting _ (hperm.mem_iff.1 mem_cons_self)

/-- `Preempt` for a piece with a key. -/
theorem Inv.stored (h : Inv s) (hkey : s.currentSchedKey ≠ 0)
    (ht : s.step maxItem limit (.preempt e) = some t) :
    s.running = some e ∧ Stored (s.waitState e) s t := by
  rw [State.step] at ht
  split_ifs at ht with hrun
  obtain ⟨⟨t', b⟩, hpre, rfl⟩ := map_eq_some_iff.1 ht
  obtain ⟨u, hu, hpre⟩ := map_eq_some_iff.1 hpre
  have hsame := SameWindow.processPending hu
  have hlen := h.room (by rw [hrun]; rfl) hkey
  rw [← hsame.waiting] at hlen
  rw [← hsame.key] at hkey
  exact ⟨hrun, (stored_preemptQueue hlen hkey hpre).of_same hsame⟩

theorem sameWindow_preempt (hkey : s.currentSchedKey = 0)
    (ht : s.step maxItem limit (.preempt e) = some t) : s.running = some e ∧ SameWindow s t := by
  rw [State.step] at ht
  split_ifs at ht with hrun
  obtain ⟨⟨t', b⟩, hpre, rfl⟩ := map_eq_some_iff.1 ht
  obtain ⟨u, hu, hpre⟩ := map_eq_some_iff.1 hpre
  have hsame := SameWindow.processPending hu
  rw [State.preemptQueue, if_pos (hsame.key.trans hkey)] at hpre
  cases hpre
  exact ⟨hrun, hsame⟩

theorem CountInv.preempt (h : CountInv c) (hinv : Inv t) (hok : FreshSlot c (.preempt e))
    (ht : c.core.step maxItem limit (.preempt e) = some t) :
    CountInv ⟨t, update c.calls e (c.calls e + 1)⟩ := by
  by_cases hkey : c.core.currentSchedKey = 0
  · obtain ⟨hrun, hsame⟩ := sameWindow_preempt hkey ht
    refine ⟨hinv, ?_, fun _ _ hkey' => absurd (hsame.key.trans hkey) hkey'⟩
    rw [hsame.waiting]
    exact fun ws hws => h.waiting_update (h.inv.running e hrun) _ hws
  · obtain ⟨hrun, hstored⟩ := h.inv.stored hkey ht
    have he := h.inv.running e hrun
    rw [h.waitState hrun hok hkey] at hstored
    have hperm := hstored.perm
    have hcalls : update c.calls e (c.calls e + 1) e = c.calls e + 1 :=
      update_self ..
    rcases hstored.running with ⟨hlen, hslot, hrunning⟩ | ⟨hlen, hrunning⟩
    · -- there is nothing else to run, and the state stays behind the window
      refine ⟨hinv, ?_, ?_⟩
      · rw [hlen]
        rw [seg_succ, Nat.zero_add, hslot, perm_append_right_iff] at hperm
        exact fun ws hws => h.waiting_update he _ (hperm.mem_iff.1 hws)
      · intro e' he' _ _
        rw [hrunning, hrun] at he'
        cases he'
        rw [hlen, hslot, hstored.key]
        exact congrArg (record e c.core.currentSchedKey) hcalls.symm
    · refine ⟨hinv, ?_, fun _ he' => by rw [hrunning] at he'; cases he'⟩
      rw [hlen]
      intro ws hws
      rcases mem_append.1 (hperm.mem_iff.1 hws) with hws | hws
      · exact h.waiting_update he _ hws
      · rw [mem_singleton.1 hws]
        exact congrArg (record e c.core.currentSchedKey) hcalls.symm

theorem CountInv.step (h : CountInv c) {ev : Event E} (hok : FreshSlot c ev)
    (hc : c.step maxItem limit ev = some c') : CountInv c' := by
  obtain ⟨t, ht, rfl⟩ := map_eq_some_iff.1 hc
  have hinv := h.inv.step ht
  cases ev with
  | add batch =>
    obtain ⟨d, -, rfl⟩ := map_eq_some_iff.1 ht
    exact h.same hinv ⟨rfl, rfl, rfl⟩
  | adder =>
    obtain ⟨d, -, rfl⟩ := map_eq_some_iff.1 ht
    exact h.same hinv ⟨rfl, rfl, rfl⟩
  | peek caller ready shouldPop =>
    obtain ⟨⟨t', o⟩, hpeek, ht⟩ := bind_eq_some_iff.1 ht
    dsimp only at ht
    split_ifs at ht with hallowed
    cases ht
    rw [Counted.count, hpeek, bind_some]
    exact h.peek hinv (fun ho he => hallowed ⟨he, ho⟩) (peeked_peek hpeek)
  | preempt caller => exact h.preempt hinv hok ht

/-! ## Runs -/

/-- The backoff is that of the calls. -/
structure Counts (maxItem limit : ℕ) (c : Counted E) : Prop where
  /-- Each waiting routine has its number of calls. -/
  waiting : ∀ ws ∈ seg c.core.waiting.states 0 c.core.waiting.len,
    ws = record ws.state ws.schedKey (c.calls ws.state)
  /-- A `Preempt` for a piece with a key writes the next number of calls. -/
  stored : ∀ caller t, FreshSlot c (.preempt caller) → c.core.currentSchedKey ≠ 0 →
    c.core.step maxItem limit (.preempt caller) = some t →
    (seg t.waiting.states 0 (c.core.waiting.len + 1)).Perm
      (seg c.core.waiting.states 0 c.core.waiting.len ++
        [record caller c.core.currentSchedKey (c.calls caller + 1)])

/-- **The backoff counts the preemptions of a routine.** In every run in which the first `Preempt`
for a piece finds another key behind the window and nothing wraps around, the `k`-th call of
`Preempt` that a routine makes for its piece writes its state with `k` preemptions and the key with
the backoff for `k`. -/
theorem backoff_counts (maxItem limit : ℕ) (dispatch ring : ℕ → RoutineRef)
    (q : ℕ → PriorityQueueHeapEntry) (ent : ℕ → PriorityQueueHashEntry) (states : ℕ → WaitState E)
    (evs : List (Event E)) (c : Counted E) (hok : Along (Counted.step maxItem limit) FreshSlot
      (Counted.init (State.init dispatch ring q ent states)) evs)
    (hrun : run (Counted.step maxItem limit)
      (Counted.init (State.init dispatch ring q ent states)) evs = some c) :
    Counts maxItem limit c := by
  have h : CountInv c := run_invariant (fun _ _ _ h hok ht => h.step hok ht) evs _ c
    (countInv_init dispatch ring q ent states) hok hrun
  refine ⟨h.waiting, fun caller t hfresh hkey ht => ?_⟩
  obtain ⟨hrun, hstored⟩ := h.inv.stored hkey ht
  rw [← h.waitState hrun hfresh hkey]
  exact hstored.perm

def idleCore : Counted ℕ :=
  .init (.init (fun _ => ⟨0, 0⟩) (fun _ => ⟨0, 0⟩) (fun _ => ⟨0, none⟩) (fun _ => ⟨0, []⟩)
    fun _ => ⟨0, 0, 0, 0⟩)

theorem backoff_counts_preemptRun :
    Along (Counted.step 4 1024) FreshSlot idleCore preemptRun ∧
      ∃ c, run (Counted.step 4 1024) idleCore preemptRun = some c ∧
        c.core.running = some 0 ∧ c.calls 0 = 1 ∧ FreshSlot c (.preempt 0) ∧ Counts 4 1024 c := by
  have hok : Along (Counted.step 4 1024) FreshSlot idleCore preemptRun := by decide +kernel
  obtain ⟨c, hc, hrunning, hcalls, hfresh⟩ : ∃ c, run (Counted.step 4 1024) idleCore preemptRun =
      some c ∧ c.core.running = some 0 ∧ c.calls 0 = 1 ∧ FreshSlot c (.preempt 0) := by
    decide +kernel
  exact ⟨hok, c, hc, hrunning, hcalls, hfresh, backoff_counts 4 1024 _ _ _ _ _ preemptRun c hok hc⟩

/-- A routine with a piece of the key 5 has nothing to switch to. It goes on to the end, takes
another piece of the key 5, and has to wait. -/
def samePieces : List (Event ℕ) :=
  [.add [⟨0, 5⟩]] ++ List.replicate 6 .adder ++ [.peek 0 true runListener, .preempt 0] ++
    [.add [⟨1, 5⟩]] ++ List.replicate 6 .adder ++ [.peek 0 true runListener, .preempt 0]

/-- The first call of `Preempt` for the second piece counts as the second one. -/
theorem backoff_inherited :
    ∃ c, run (Counted.step 4 1024) idleCore samePieces = some c ∧
      c.core.running = some 0 ∧ c.calls 0 = 1 ∧
      c.core.waiting.states 0 = record 0 5 2 ∧ record 0 5 2 ≠ record 0 5 1 := by decide +kernel

end Felis.Sched.Window
