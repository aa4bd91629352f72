import Felis.Coro.Stacks
import Felis.Sched.WindowSafety

/-!
# Who has a stack

In every state, every stack is in one place: it runs, or it is in the free list, in the out-of-order
buffer, paused, attached to a future or in the ready queue. Within a step, a stack may be between
two places; `Owned` says what holds then, with a list of the stacks that are in none.

The code keeps this up only as long as no coroutine pauses itself: then it is in the buffer already,
and `GetNewPiece` forgets it before it switches to it. And when the buffer is emptied to resolve a
deadlock, the candidate is given back; the code relies on its backoff to be not taken for one that
may go on.
-/

namespace Felis.Coro.Stacks

open BinaryHeap Cells Runs Sched Function List Option

variable {K F : Type}

/-! ## Places -/

namespace State

variable (s : State K F)

/-- The coroutines in the out-of-order buffer. -/
def waiting : List K := seg s.oooBuffer 0 s.oooBufferLen

/-- The coroutines that are detached, waiting for their futures or ready. -/
def detached : List K := s.attached.map Prod.snd ++ s.ready

/-- The stacks that do not run. -/
def pools : List K := s.free ++ s.waiting ++ s.paused.toList ++ s.detached

/-- All stacks, by their places. -/
def owners : List K := s.current.toList ++ s.pools

/-- The coroutine is suspended, and not attached to a future. -/
def Suspended (k : K) : Prop := k ∈ s.waiting ∨ s.paused = some k ∨ k ∈ s.ready

/-- It still has the piece that it was suspended in. -/
def Holds (k : K) : Prop := s.suspendedIn k = some (s.coro k).runningPiece

end State

/-- The switches in a step from `s` to `t` are to suspended coroutines with their pieces. -/
def SwitchOk (s t : State K F) : Prop :=
  ∀ o ∈ t.switched, ∃ k, o = some k ∧ s.Suspended k ∧ s.Holds k

/-! ## The condition -/

namespace Config

variable (P : Config K)

/-- `WaitForVHandleVal` would pause the coroutine: the zero queue is empty, there is a ready
coroutine, and there is no room in the buffer for more than the coroutine itself. -/
def Pauses (s : State K F) (me : K) : Prop :=
  (s.coro me).schedKey ≠ 0 ∧ ¬s.queues.dispatch.zq.start < s.queues.dispatch.zq.stop ∧
    s.ready ≠ [] ∧ P.oooBufferSize ≤ s.oooBufferLen + 1

/-- With the full backoff, the key would not fit in 64 bits. -/
def wraps (c : CoroStack) : Prop := 2 ^ 64 ≤ c.schedKey + kPreemptKeyThreshold * kMaxBackoff

/-- No coroutine pauses itself, and the keys in the buffer leave room for the backoff. -/
def Ok (s : State K F) : Event F → Prop
  | .preempt => ∀ me ∈ s.current, ¬P.Pauses s me ∧ ∀ k ∈ me :: s.waiting, ¬wraps (s.coro k)
  | _ => True

end Config

/-! ## The invariant -/

namespace State

/-- The keys of the coroutine are those of its piece. -/
def Keyed (s : State K F) (k : K) : Prop :=
  (s.coro k).schedKey = (s.coro k).runningPiece.schedKey

/-- What holds of a coroutine that is suspended. -/
structure Asleep (s : State K F) (k : K) : Prop where
  resume : s.resume k = .piece
  holds : s.Holds k
  keyed : s.Keyed k

/-- What holds of a coroutine in the buffer. -/
def BackedOff (s : State K F) (k : K) : Prop :=
  (s.coro k).preemptKey = ((s.coro k).schedKey +
    kPreemptKeyThreshold * min (s.coro k).preemptTimes kMaxBackoff) % 2 ^ 64

end State

/-- The stacks in `out` are in no place, all others of `all` are in one. -/
structure Owned (all : List K) (s : State K F) (out : List K) : Prop where
  perm : (out ++ s.pools).Perm all
  paused : s.paused = none
  asleep : ∀ k ∈ s.waiting ++ s.detached, s.Asleep k
  backedOff : ∀ k ∈ s.waiting, s.BackedOff k
  rep : ∃ es, s.queues.pq.Rep s.queues.pending es

/-- Where the running coroutine can be. -/
def Pc.Fits (s : State K F) : Pc K → Option K → Prop
  | .main, o => o = none
  | .getNewPiece, o => o ≠ none
  | .picking, o => o ≠ none
  | .finishing, o => o ≠ none
  | .piece, o => ∃ me, o = some me ∧ s.Keyed me
  | .preempting, o => ∃ me, o = some me ∧ s.Keyed me
  | .resolving _, _ => False
  | .crashed, _ => False

structure Inv (all : List K) (s : State K F) : Prop where
  owned : Owned all s s.current.toList
  fits : s.pc.Fits s s.current

variable {P : Config K} {all out : List K} {s t : State K F} {me k : K}

theorem inv_init (all : List K) (dispatch ring : ℕ → RoutineRef)
    (q : ℕ → PriorityQueueHeapEntry) (ent : ℕ → PriorityQueueHashEntry) (coro : K → CoroStack)
    (oooBuffer : ℕ → K) (resume : K → Pc K) :
    Inv (F := F) all (.init ⟨.init dispatch ring, .empty q ent, []⟩ coro all oooBuffer resume) where
  owned :=
    { perm := by simp [State.pools, State.init, State.waiting, State.detached]
      paused := rfl
      asleep := by simp [State.init, State.waiting, State.detached]
      backedOff := by simp [State.init, State.waiting]
      rep := ⟨[], PriorityQueue.rep_empty q ent⟩ }
  fits := rfl

/-! ## Moving a stack -/

namespace Owned

/-- A stack that is in no place is not suspended. -/
theorem notMem (h : Owned all s out) (hall : all.Nodup) (hk : k ∈ out) :
    k ∉ s.waiting ++ s.detached := by
  intro hmem
  refine (nodup_append.1 (h.perm.nodup_iff.2 hall)).2.2 k hk k ?_ rfl
  simp only [State.pools, mem_append] at hmem ⊢
  tauto

theorem Asleep.congr {s t : State K F} (h : s.Asleep k) (hcoro : t.coro k = s.coro k)
    (hresume : t.resume k = s.resume k) (hsuspended : t.suspendedIn k = s.suspendedIn k) :
    t.Asleep k where
  resume := hresume.trans h.resume
  holds := by
    unfold State.Holds
    rw [hsuspended, hcoro]
    exact h.holds
  keyed := by
    unfold State.Keyed
    rw [hcoro]
    exact h.keyed

/-- A step that does not suspend a stack, and does not touch those that are suspended. -/
theorem move (h : Owned all s out) {out' : List K} (hpaused : t.paused = s.paused)
    (hrep : ∃ es, t.queues.pq.Rep t.queues.pending es)
    (hperm : (out' ++ t.pools).Perm (out ++ s.pools))
    (hwaiting : t.waiting ⊆ s.waiting) (hdetached : t.detached ⊆ s.detached)
    (hsame : ∀ k ∈ s.waiting ++ s.detached, t.coro k = s.coro k ∧ t.resume k = s.resume k ∧
      t.suspendedIn k = s.suspendedIn k) : Owned all t out' := by
  refine ⟨hperm.trans h.perm, hpaused.trans h.paused, ?_, ?_, hrep⟩
  · intro k hk
    have hold := mem_append.2 ((mem_append.1 hk).imp (hwaiting ·) (hdetached ·))
    obtain ⟨hcoro, hresume, hsuspended⟩ := hsame k hold
    exact Asleep.congr (h.asleep k hold) hcoro hresume hsuspended
  · intro k hk
    rw [State.BackedOff, (hsame k (mem_append_left _ (hwaiting hk))).1]
    exact h.backedOff k (hwaiting hk)

theorem same (h : Owned all s out) (hfree : t.free = s.free) (hwaiting : t.waiting = s.waiting)
    (hpaused : t.paused = s.paused) (hattached : t.attached = s.attached)
    (hready : t.ready = s.ready) (hrep : ∃ es, t.queues.pq.Rep t.queues.pending es)
    (hsame : ∀ k ∈ s.waiting ++ s.detached, t.coro k = s.coro k ∧ t.resume k = s.resume k ∧
      t.suspendedIn k = s.suspendedIn k) : Owned all t out := by
  have hdetached : t.detached = s.detached := by
    rw [State.detached, hattached, hready, State.detached]
  refine h.move hpaused hrep ?_ ?_ ?_ hsame
  · rw [State.pools, hfree, hwaiting, hpaused, hdetached, State.pools]
  · rw [hwaiting]
    exact List.Subset.refl _
  · rw [hdetached]
    exact List.Subset.refl _

theorem returnCoroStack (h : Owned all s (k :: out)) : Owned all (s.returnCoroStack k) out :=
  h.move rfl h.rep perm_middle (List.Subset.refl _) (List.Subset.refl _)
    fun _ _ => ⟨rfl, rfl, rfl⟩

/-- A stack leaves the place where it was. -/
theorem perm_out (h : s.pools.Perm (k :: t.pools)) : (k :: out ++ t.pools).Perm (out ++ s.pools) :=
  perm_middle.symm.trans (h.symm.append_left out)

theorem popReady (h : Owned all s out) {ready : List K} (hready : s.ready = k :: ready) :
    Owned all (s.popReady ready) (k :: out) := by
  have hperm : s.detached.Perm (k :: (s.popReady ready).detached) := by
    rw [State.detached, hready]
    exact perm_middle
  exact h.move rfl h.rep (perm_out ((hperm.append_left _).trans perm_middle)) (List.Subset.refl _)
    (fun j hj => hperm.mem_iff.2 (mem_cons_of_mem _ hj)) fun _ _ => ⟨rfl, rfl, rfl⟩

theorem popOoo (h : Owned all s out) (hlen : 0 < s.oooBufferLen) :
    Owned all (P.popOoo s) (s.oooBuffer 0 :: out) := by
  have hperm : (s.oooBuffer 0 :: (P.popOoo s).waiting).Perm s.waiting :=
    perm_popHeap (P.minHeapCompare s.coro) hlen s.oooBuffer
  have hsub : (P.popOoo s).waiting ⊆ s.waiting := fun j hj =>
    hperm.mem_iff.1 (mem_cons_of_mem _ hj)
  refine h.move rfl h.rep (perm_out ?_) hsub (List.Subset.refl _) fun _ _ => ⟨rfl, rfl, rfl⟩
  exact (((hperm.symm.append_left s.free).trans perm_middle).append_right _).append_right _

end Owned

/-- A coroutine that has been taken from where it was suspended goes on. -/
theorem Owned.switchOk (h : Owned all s out) (hk : k ∈ s.waiting ∨ k ∈ s.ready)
    (ht : t.switched = some (some k)) : SwitchOk s t := by
  intro o ho
  rw [ht] at ho
  obtain rfl := some.inj ho
  refine ⟨k, rfl, ?_, (h.asleep k ?_).holds⟩
  · rcases hk with hk | hk
    · exact .inl hk
    · exact .inr (.inr hk)
  · rw [State.detached]
    simp only [mem_append]
    tauto

theorem switchOk_none (ht : t.switched = none) : SwitchOk s t := by
  intro o ho
  rw [ht] at ho
  cases ho

theorem perm_waiting_requeue (kept : List K) (buf : ℕ → K) :
    (seg (makeHeap P.less (fun i => kept.getD i (buf i)) kept.length) 0 kept.length).Perm kept := by
  refine (rearranged_makeHeap _ _).perm.trans (List.Perm.of_eq ?_)
  apply ext_getElem
  · rw [length_seg]
  · intro i hi hi'
    rw [getElem_seg, Nat.zero_add, getD_eq_getElem?_getD, List.getElem?_eq_getElem hi', getD_some]

/-! ## Steps that leave the stacks where they are -/

theorem Owned.exitExecutionRoutine (h : Owned all s [me])
    (ht : s.exitExecutionRoutine me = some t) : Inv all t ∧ t.switched = s.switched := by
  unfold State.exitExecutionRoutine at ht
  split_ifs at ht
  cases ht
  exact ⟨⟨h.returnCoroStack.same rfl rfl rfl rfl rfl h.rep fun _ _ => ⟨rfl, rfl, rfl⟩, rfl⟩, rfl⟩

/-- The running coroutine goes on, and the queues have changed. -/
theorem Owned.setQueues (h : Owned all s out) {queues : Queues}
    (hrep : ∃ es, queues.pq.Rep queues.pending es) :
    Owned all ({ s with queues := queues } : State K F) out :=
  h.same rfl rfl rfl rfl rfl hrep fun _ _ => ⟨rfl, rfl, rfl⟩

theorem Owned.setPc (h : Owned all s s.current.toList) {pc : Pc K} (hpc : pc.Fits s s.current) :
    Inv all ({ s with pc := pc } : State K F) where
  owned := h.same rfl rfl rfl rfl rfl h.rep fun _ _ => ⟨rfl, rfl, rfl⟩
  fits := by
    cases pc <;> exact hpc

/-- What a step of the running coroutine has to keep. -/
def Good (all : List K) (s t : State K F) : Prop := Inv all t ∧ SwitchOk s t

/-- The coroutine goes on, somewhere in the code. -/
theorem Owned.goOn (h : Owned all s [me]) (hme : s.current = some me) (hsw : s.switched = none)
    {pc : Pc K} (hpc : pc.Fits s (some me)) : Good all s { s with pc := pc } :=
  ⟨Owned.setPc (by rw [hme]; exact h) (hme.symm ▸ hpc), switchOk_none hsw⟩

theorem Owned.waitForVHandleVal (h : Owned all s [me]) (hme : s.current = some me)
    (hkeyed : s.Keyed me) (ht : P.waitForVHandleVal s = some t) :
    Inv all t ∧ t.switched = s.switched := by
  unfold Config.waitForVHandleVal at ht
  split_ifs at ht
  obtain ⟨queues, hqueues, rfl⟩ := map_eq_some_iff.1 ht
  obtain ⟨-, hrep⟩ := Queues.processPending_spec h.rep hqueues
  refine ⟨⟨?_, ⟨me, hme, hkeyed⟩⟩, rfl⟩
  change Owned all _ s.current.toList
  rw [hme]
  exact h.same rfl rfl rfl rfl rfl hrep fun _ _ => ⟨rfl, rfl, rfl⟩

/-- The switch of the step before is forgotten. -/
theorem Inv.clear (h : Inv all s) : Inv all ({ s with switched := none } : State K F) where
  owned := h.owned.same rfl rfl rfl rfl rfl h.owned.rep fun _ _ => ⟨rfl, rfl, rfl⟩
  fits := by
    have hfits := h.fits
    revert hfits
    cases s.pc <;> exact id

theorem Owned.finish (h : Owned all s [me]) (hme : s.current = some me) (hsw : s.switched = none)
    {shouldRetry : Bool} (ht : P.finish s me shouldRetry = some t) : Good all s t := by
  unfold Config.finish at ht
  split_ifs at ht
  · cases ht
    exact h.goOn hme hsw (some_ne_none me)
  · cases ht
    exact h.goOn hme hsw (some_ne_none me)
  · obtain ⟨hinv, hsame⟩ := h.exitExecutionRoutine ht
    exact ⟨hinv, switchOk_none (hsame.trans hsw)⟩

theorem Inv.setDispatch (h : Inv all s) (d : Dispatch.State) :
    Inv all (Config.setDispatch s d) where
  owned := h.owned.setQueues h.owned.rep
  fits := by
    have hfits := h.fits
    revert hfits
    change s.pc.Fits s s.current → s.pc.Fits _ s.current
    cases s.pc <;> exact id

/-! ## Suspending -/

variable [DecidableEq K]

namespace Owned

/-- A stack that is free or ready is not in the buffer. -/
theorem notMem_waiting (h : Owned all s out) (hall : all.Nodup) (hk : k ∈ s.free ∨ k ∈ s.ready) :
    k ∉ s.waiting := by
  intro hmem
  have hle := nodup_iff_count_le_one.1 (nodup_append.1 (h.perm.nodup_iff.2 hall)).2.1 k
  have hpos := count_pos_iff.2 hmem
  have hother := hk.imp count_pos_iff.2 count_pos_iff.2
  simp only [State.pools, State.detached, count_append] at hle
  omega

theorem of_suspend {pc : Pc K} (h : Owned all (s.suspend me pc) out) (hall : all.Nodup)
    (hme : me ∈ out) : Owned all s out := by
  refine h.same rfl rfl rfl rfl rfl h.rep fun k hk => ?_
  have hne : k ≠ me := ne_of_mem_of_not_mem hk (h.notMem hall hme)
  exact ⟨rfl, (update_of_ne hne ..).symm, (update_of_ne hne ..).symm⟩

/-- The coroutine in no place goes to one where it is suspended. -/
theorem fallAsleep (h : Owned all s [me]) (hpaused : t.paused = none)
    (hrep : ∃ es, t.queues.pq.Rep t.queues.pending es) (hfree : t.free = s.free)
    (hperm : (t.waiting ++ t.detached).Perm (me :: (s.waiting ++ s.detached)))
    (hme : t.Asleep me) (hbackedOff : me ∈ t.waiting → t.BackedOff me)
    (hsame : ∀ k, k ≠ me → t.coro k = s.coro k ∧ t.resume k = s.resume k ∧
      t.suspendedIn k = s.suspendedIn k)
    (hwaiting : ∀ k ∈ t.waiting, k ≠ me → k ∈ s.waiting) : Owned all t [] := by
  refine ⟨Perm.trans ?_ h.perm, hpaused, ?_, ?_, hrep⟩
  · have hmid := (hperm.append_left s.free).trans perm_middle
    simpa [State.pools, hfree, hpaused, h.paused] using hmid
  · intro k hk
    by_cases hne : k = me
    · rw [hne]
      exact hme
    · obtain ⟨hcoro, hresume, hsuspended⟩ := hsame k hne
      have hold := (mem_cons.1 (hperm.mem_iff.1 hk)).resolve_left hne
      exact Asleep.congr (h.asleep k hold) hcoro hresume hsuspended
  · intro k hk
    by_cases hne : k = me
    · rw [hne] at hk ⊢
      exact hbackedOff hk
    · rw [State.BackedOff, (hsame k hne).1]
      exact h.backedOff k (hwaiting k hk hne)

theorem attach (h : Owned all s [me]) (hkeyed : s.Keyed me) (f : F) (n : ℕ) :
    Owned all (({ s with attached := (f, me) :: s.attached, numDetached := n } : State K F).suspend
      me .piece) [] := by
  refine h.fallAsleep h.paused h.rep rfl perm_middle ⟨?_, ?_, hkeyed⟩
    (fun hme => h.backedOff me hme)
    (fun k hne => ⟨rfl, update_of_ne hne .., update_of_ne hne ..⟩)
    (fun k hk _ => hk)
  · exact update_self ..
  · exact update_self ..

theorem perm_pushSelf (P : Config K) (s : State K F) (me : K) :
    (P.pushSelf s me).waiting.Perm (me :: s.waiting) := by
  refine ((rearranged_pushHeap (Nat.succ_pos _) _).perm).trans ?_
  have := seg_update s.oooBuffer 0 s.oooBufferLen me
  rw [Nat.zero_add] at this
  rw [this]
  exact perm_append_singleton me s.waiting

theorem pushSelf (h : Owned all s [me]) (hkeyed : s.Keyed me) :
    Owned all ((P.pushSelf s me).suspend me .piece) [] := by
  have hperm := perm_pushSelf P s me
  have hcoro : (P.pushSelf s me).coro me = Config.backoff (s.coro me) := update_self ..
  refine h.fallAsleep h.paused h.rep rfl (hperm.append_right _) ⟨?_, ?_, ?_⟩ (fun _ => ?_)
    (fun k hne => ⟨update_of_ne hne .., update_of_ne hne .., update_of_ne hne ..⟩) ?_
  · exact update_self ..
  · exact update_self ..
  · change ((P.pushSelf s me).coro me).schedKey = ((P.pushSelf s me).coro me).runningPiece.schedKey
    rw [hcoro]
    exact hkeyed
  · change ((P.pushSelf s me).coro me).preemptKey = (((P.pushSelf s me).coro me).schedKey +
      kPreemptKeyThreshold * min ((P.pushSelf s me).coro me).preemptTimes kMaxBackoff) % 2 ^ 64
    rw [hcoro]
    rfl
  · intro k hk hne
    exact (mem_cons.1 (hperm.mem_iff.1 hk)).resolve_left hne

end Owned

/-! ## Switching -/

theorem Owned.yieldTo (h : Owned all s [k]) (hall : all.Nodup) (hk : s.Asleep k) :
    Inv all (s.yieldTo (some k)) where
  owned := by
    refine h.same rfl rfl rfl rfl rfl h.rep fun j hj => ?_
    have hne : j ≠ k := ne_of_mem_of_not_mem hj (h.notMem hall (mem_singleton_self k))
    exact ⟨rfl, rfl, update_of_ne hne ..⟩
  fits := by
    change (s.resume k).Fits _ (some k)
    rw [hk.resume]
    exact ⟨k, rfl, hk.keyed⟩

theorem Owned.startNewCoroutine (h : Owned all s []) (hall : all.Nodup)
    (hkeyed : ∀ me ∈ s.current, s.Keyed me) (ht : s.startNewCoroutine = some t) :
    Inv all t ∧ t.switched = s.switched := by
  unfold State.startNewCoroutine at ht
  split at ht
  · cases ht
  · rename_i k free hfree
    cases ht
    have hrun : Owned all ({ s with free := free } : State K F) [k] := by
      refine h.move rfl h.rep (Owned.perm_out ?_) (List.Subset.refl _) (List.Subset.refl _)
        fun _ _ => ⟨rfl, rfl, rfl⟩
      rw [State.pools, hfree]
      rfl
    refine ⟨⟨?_, ?_⟩, rfl⟩
    · refine hrun.same rfl rfl rfl rfl rfl h.rep fun j hj => ?_
      have hne : j ≠ k := ne_of_mem_of_not_mem hj (hrun.notMem hall (mem_singleton_self k))
      exact ⟨rfl, rfl, update_of_ne hne ..⟩
    · dsimp only
      split_ifs with hc
      · exact ⟨k, rfl, hkeyed k hc⟩
      · exact some_ne_none k

theorem Owned.shutdownAndSwitchTo (h : Owned all s [k, me]) (hall : all.Nodup) (hk : s.Asleep k) :
    Inv all (s.shutdownAndSwitchTo me (some k)) := by
  have hswap : Owned all s [me, k] :=
    ⟨((List.Perm.swap k me []).append_right _).trans h.perm, h.paused, h.asleep, h.backedOff, h.rep⟩
  exact hswap.returnCoroStack.yieldTo hall (Owned.Asleep.congr hk rfl rfl rfl)

/-! ## `GetNewPiece` -/

theorem Owned.assign (h : Owned all s [me]) (hall : all.Nodup) (hme : s.current = some me)
    (c : CoroStack) (r : RoutineRef) : Inv all (Config.assign s me c r) where
  owned := by
    change Owned all _ s.current.toList
    rw [hme]
    refine h.same rfl rfl rfl rfl rfl h.rep fun k hk => ?_
    have hne : k ≠ me := ne_of_mem_of_not_mem hk (h.notMem hall (mem_singleton_self me))
    exact ⟨update_of_ne hne .., rfl, rfl⟩
  fits := by
    refine ⟨me, hme, ?_⟩
    have hcoro : (Config.assign s me c r).coro me =
      { c with schedKey := r.schedKey, runningPiece := r } :=
      update_self ..
    rw [State.Keyed, hcoro]

theorem Owned.getNewPiece (h : Owned all s [me]) (hall : all.Nodup) (hme : s.current = some me)
    (hsw : s.switched = none) {isReady : Bool} (ht : P.getNewPiece s me isReady = some t) :
    Good all s t := by
  unfold Config.getNewPiece at ht
  split_ifs at ht with hzero hready hpaused
  · cases ht
    refine ⟨Owned.assign ?_ hall ?_ _ _, switchOk_none hsw⟩
    · exact h.setQueues h.rep
    · exact hme
  · obtain ⟨hinv, hsame⟩ := h.exitExecutionRoutine ht
    exact ⟨hinv, switchOk_none (hsame.trans hsw)⟩
  · exact absurd h.paused hpaused
  · obtain ⟨queues, hqueues, rfl⟩ := map_eq_some_iff.1 ht
    obtain ⟨-, hrep⟩ := Queues.processPending_spec h.rep hqueues
    refine ⟨⟨?_, ?_⟩, switchOk_none hsw⟩
    · change Owned all _ s.current.toList
      rw [hme]
      exact h.same rfl rfl rfl rfl rfl hrep fun _ _ => ⟨rfl, rfl, rfl⟩
    · change s.current ≠ none
      rw [hme]
      exact some_ne_none me

theorem Owned.runPiece (h : Owned all s [me]) (hall : all.Nodup) (hme : s.current = some me)
    (hlen : s.queues.pq.len ≠ 0) (ht : Config.runPiece s me = some t) :
    Inv all t ∧ t.switched = s.switched := by
  obtain ⟨es, hrep⟩ := h.rep
  obtain ⟨v, hpick, -, pq, hconsume, hrep'⟩ := hrep.consume (Nat.pos_of_ne_zero hlen)
  rw [Config.runPiece, hpick, bind_some, hconsume, map_some] at ht
  cases ht
  refine ⟨Owned.assign ?_ hall ?_ _ _, rfl⟩
  · exact h.setQueues hrep'
  · exact hme

theorem Owned.pick (h : Owned all s [me]) (hall : all.Nodup) (hme : s.current = some me)
    (hsw : s.switched = none) (ht : P.pick s me = some t) : Good all s t := by
  unfold Config.pick at ht
  split at ht
  · rename_i k ready hready
    cases ht
    have hmem : k ∈ s.ready := by
      rw [hready]
      exact mem_cons_self
    have hk : s.Asleep k := h.asleep k (by simp [State.detached, hmem])
    exact ⟨(h.popReady hready).shutdownAndSwitchTo hall (Owned.Asleep.congr hk rfl rfl rfl),
      h.switchOk (.inr hmem) rfl⟩
  · dsimp only at ht
    split_ifs at ht with hswitch hlen
    · cases ht
      have hmem : s.oooBuffer 0 ∈ s.waiting := mem_seg.2 ⟨0, hswitch.1, rfl⟩
      have hk := h.asleep _ (mem_append_left _ hmem)
      exact ⟨(h.popOoo hswitch.1).shutdownAndSwitchTo hall (Owned.Asleep.congr hk rfl rfl rfl),
        h.switchOk (.inl hmem) rfl⟩
    · obtain ⟨hinv, hsame⟩ := h.runPiece hall hme hlen ht
      exact ⟨hinv, switchOk_none (hsame.trans hsw)⟩
    · cases ht
      exact h.goOn hme hsw (some_ne_none me)

/-! ## `WaitForVHandleVal` -/

/-- What is added to the priority queue is in it. -/
theorem addAll_singleton {limit : ℕ} {q q' : Queues} {r : RoutineRef}
    (h : q.addAll limit [r] = some q') :
    q'.pending = q.pending ++ [⟨q.pq.brk, r⟩] := by
  obtain ⟨pq, -, h⟩ := bind_eq_some_iff.1 h
  cases h
  rfl

/-- What the loop over the buffer does: a coroutine stays, or its stack is given back and its piece
goes to the priority queue. -/
structure Requeued (s t : State K F) (ks kept : List K) : Prop where
  same : t = { s with queues := t.queues, free := t.free }
  count : ∀ k, kept.count k + t.free.count k = ks.count k + s.free.count k
  rep : ∃ es, t.queues.pq.Rep t.queues.pending es
  pending : s.queues.pending ⊆ t.queues.pending
  sublist : kept.Sublist ks

theorem requeueLoop_spec {ks kept : List K} (hrep : ∃ es, s.queues.pq.Rep s.queues.pending es)
    (ht : P.requeueLoop s ks = some (t, kept)) : Requeued s t ks kept := by
  induction ks generalizing s kept with
  | nil =>
    cases ht
    exact ⟨rfl, fun _ => rfl, hrep, List.Subset.refl _, List.Sublist.refl _⟩
  | cons k ks ih =>
    unfold Config.requeueLoop at ht
    split_ifs at ht with hkey
    · obtain ⟨queues, hqueues, ht⟩ := bind_eq_some_iff.1 ht
      have := ih (Queues.addAll_spec hrep hqueues).2 ht
      refine ⟨this.same, fun j => ?_, this.rep, fun v hv => ?_, this.sublist.cons k⟩
      · rw [this.count j]
        change ks.count j + (k :: s.free).count j = _
        rw [count_cons, count_cons]
        omega
      · apply this.pending
        change v ∈ queues.pending
        rw [addAll_singleton hqueues]
        exact mem_append_left _ hv
    · obtain ⟨⟨u, kept'⟩, hu, hk⟩ := map_eq_some_iff.1 ht
      cases hk
      have := ih hrep hu
      refine ⟨this.same, fun j => ?_, this.rep, this.pending, this.sublist.cons_cons k⟩
      have hj := this.count j
      rw [count_cons, count_cons]
      omega

/-- A coroutine that comes first and has to go: its piece is in the priority queue in the end. -/
theorem requeueLoop_cons {ks kept : List K} (hrep : ∃ es, s.queues.pq.Rep s.queues.pending es)
    (hkey : (s.queues.pq.q 0).key ≤ (s.coro k).schedKey)
    (ht : P.requeueLoop s (k :: ks) = some (t, kept)) :
    kept.length ≤ ks.length ∧ ∃ v ∈ t.queues.pending, v.routine = (s.coro k).runningPiece := by
  rw [Config.requeueLoop, if_pos hkey] at ht
  obtain ⟨queues, hqueues, ht⟩ := bind_eq_some_iff.1 ht
  have := requeueLoop_spec (Queues.addAll_spec hrep hqueues).2 ht
  refine ⟨this.sublist.length_le, ⟨s.queues.pq.brk, (s.coro k).runningPiece⟩, this.pending ?_, rfl⟩
  change _ ∈ queues.pending
  rw [addAll_singleton hqueues]
  exact mem_append_right _ (mem_singleton_self _)

/-- The coroutines that are not re-queued stay suspended, the running one included. -/
theorem Owned.requeue (h : Owned all (s.suspend me .piece) []) (ht : P.requeue s = some t) :
    Owned all (t.suspend me .piece) [] ∧ t.current = s.current ∧ t.switched = s.switched ∧
      t.coro = s.coro := by
  obtain ⟨⟨u, kept⟩, hu, rfl⟩ := map_eq_some_iff.1 ht
  have hspec := requeueLoop_spec (s := s) h.rep hu
  obtain ⟨queues, free, rfl⟩ : ∃ queues free, u = { s with queues := queues, free := free } :=
    ⟨_, _, hspec.same⟩
  refine ⟨?_, rfl, rfl, rfl⟩
  have hperm := perm_waiting_requeue (P := P) kept s.oooBuffer
  have hsub : ∀ k, k ∈ seg (makeHeap P.less (fun i => kept.getD i (s.oooBuffer i)) kept.length) 0
      kept.length → k ∈ s.waiting := fun k hk => hspec.sublist.subset (hperm.mem_iff.1 hk)
  have hcount : (free ++ kept).Perm (s.free ++ s.waiting) := by
    refine perm_iff_count.2 fun k => ?_
    have hk : kept.count k + free.count k = s.waiting.count k + s.free.count k := hspec.count k
    rw [count_append, count_append]
    omega
  refine h.move rfl hspec.rep ?_ hsub (List.Subset.refl _) fun _ _ => ⟨rfl, rfl, rfl⟩
  exact ((((hperm.append_left free).trans hcount).append_right _).append_right _).append_left []

/-- The first key of the priority queue is the least. -/
theorem front_le {q : Queues} (hrep : ∃ es, q.pq.Rep q.pending es) {v : PriorityQueueValue}
    (hv : v ∈ q.pending) : q.pq.len ≠ 0 ∧ (q.pq.q 0).key ≤ v.key := by
  obtain ⟨es, hrep⟩ := hrep
  have hne : q.pq.len ≠ 0 := by
    intro hz
    rw [hrep.len_eq_zero.1 hz] at hv
    cases hv
  obtain ⟨e, -, hq, hleast⟩ := hrep.front (Nat.pos_of_ne_zero hne)
  refine ⟨hne, ?_⟩
  rw [hq]
  exact hleast v hv

/-- After the buffer has been emptied, the candidate does not go on. -/
theorem Owned.not_switches (h : Owned all (s.suspend me .piece) []) (hlen : 0 < s.oooBufferLen)
    (hwraps : ¬Config.wraps (s.coro (s.oooBuffer 0))) (hdead : P.deadlocked s (s.oooBuffer 0))
    (ht : P.requeue s = some t) : t.queues.pq.len ≠ 0 ∧ ¬P.switches t (s.oooBuffer 0) := by
  obtain ⟨h', -, -, hcoro⟩ := h.requeue ht
  have hmem : s.oooBuffer 0 ∈ s.waiting := mem_seg.2 ⟨0, hlen, rfl⟩
  have hkeyed : s.Keyed (s.oooBuffer 0) := (h.asleep _ (mem_append_left _ hmem)).keyed
  have hback : s.BackedOff (s.oooBuffer 0) := h.backedOff _ hmem
  have hkey : (s.queues.pq.q 0).key ≤ (s.coro (s.oooBuffer 0)).schedKey := by
    rcases hdead.2.2 with hlt | ⟨heq, -⟩
    · exact hlt.le
    · exact heq.ge
  obtain ⟨⟨u, kept⟩, hu, rfl⟩ := map_eq_some_iff.1 ht
  obtain ⟨n, hn⟩ : ∃ n, s.oooBufferLen = n + 1 := ⟨s.oooBufferLen - 1, by omega⟩
  rw [hn, seg_cons] at hu
  obtain ⟨hkept, v, hv, hroutine⟩ := requeueLoop_cons (s := s) h.rep hkey hu
  rw [length_seg] at hkept
  obtain ⟨hne, hfirst⟩ := front_le (q := u.queues) h'.rep hv
  refine ⟨hne, ?_⟩
  rintro ⟨-, hfull | hempty | hlt⟩
  · have := hdead.1
    change kept.length = _ at hfull
    omega
  · exact hne hempty
  · -- its piece is in the priority queue, so the least key there is not above its own
    have hvkey : v.key = (s.coro (s.oooBuffer 0)).schedKey := by
      rw [hkeyed, ← hroutine]
      rfl
    rw [hcoro, hback, Nat.min_eq_right hdead.2.1.le] at hlt
    unfold Config.wraps at hwraps
    rw [Nat.mod_eq_of_lt (not_le.1 hwraps)] at hlt
    change _ < (u.queues.pq.q 0).key at hlt
    omega

theorem keyed_current (hme : s.current = some me) (hkeyed : s.Keyed me) :
    ∀ k ∈ (s.suspend me .piece).current, (s.suspend me .piece).Keyed k := by
  intro k hk
  obtain rfl : k = me := some.inj (hme.symm.trans hk).symm
  exact hkeyed

theorem Owned.resolve (h : Owned all (s.suspend me .piece) []) (hall : all.Nodup)
    (hme : s.current = some me) (hkeyed : s.Keyed me) (hlen : 0 < s.oooBufferLen)
    (hwraps : P.deadlocked s (s.oooBuffer 0) → ¬Config.wraps (s.coro (s.oooBuffer 0)))
    (ht : P.resolve s me (s.oooBuffer 0) = some t) :
    Inv all t ∧ (t.switched = s.switched ∨
      t.switched = some (some (s.oooBuffer 0)) ∧ s.oooBuffer 0 ≠ me) := by
  unfold Config.resolve at ht
  by_cases hdead : P.deadlocked s (s.oooBuffer 0)
  · rw [if_pos hdead] at ht
    obtain ⟨u, hu, ht⟩ := bind_eq_some_iff.1 ht
    obtain ⟨h', hcur, hsw, hcoro⟩ := h.requeue hu
    obtain ⟨hne, hnot⟩ := h.not_switches hlen (hwraps hdead) hdead hu
    rw [if_neg hnot, if_pos hne] at ht
    have hkeyed' : u.Keyed me := by
      rw [State.Keyed, hcoro]
      exact hkeyed
    obtain ⟨hinv, hsame⟩ := h'.startNewCoroutine hall (keyed_current (hcur.trans hme) hkeyed') ht
    exact ⟨hinv, .inl (hsame.trans hsw)⟩
  · rw [if_neg hdead, bind_some] at ht
    split_ifs at ht with hswitch hcand hpq
    · cases ht
      have hpop : Owned all ((P.popOoo s).suspend me .piece) [s.oooBuffer 0] := h.popOoo hlen
      rw [hcand] at hpop
      have hpop := hpop.of_suspend hall (mem_singleton_self me)
      refine ⟨Owned.setPc ?_ ⟨me, hme, hkeyed⟩, .inl rfl⟩
      change Owned all (P.popOoo s) s.current.toList
      rw [hme]
      exact hpop
    · cases ht
      have hpop : Owned all ((P.popOoo s).suspend me .piece) [s.oooBuffer 0] := h.popOoo hlen
      have hmem : s.oooBuffer 0 ∈ s.waiting := mem_seg.2 ⟨0, hlen, rfl⟩
      have hasleep := h.asleep _ (mem_append_left _ hmem)
      exact ⟨hpop.yieldTo hall (Owned.Asleep.congr hasleep rfl rfl rfl), .inr ⟨rfl, hcand⟩⟩
    · obtain ⟨hinv, hsame⟩ := h.startNewCoroutine hall (keyed_current hme hkeyed) ht
      exact ⟨hinv, .inl hsame⟩

/-- A switch after the running coroutine has put itself into the buffer. -/
theorem Owned.switchOk_pushSelf (h : Owned all s [me])
    (hmem : k ∈ (P.pushSelf s me).waiting ∨ k ∈ s.ready) (hne : k ≠ me)
    (ht : t.switched = some (some k)) : SwitchOk s t := by
  refine h.switchOk (hmem.imp_left fun hk => ?_) ht
  exact (mem_cons.1 ((Owned.perm_pushSelf P s me).mem_iff.1 hk)).resolve_left hne

theorem schedKey_pushSelf (P : Config K) (s : State K F) (me k : K) :
    ((P.pushSelf s me).coro k).schedKey = (s.coro k).schedKey := by
  change (update s.coro me (Config.backoff (s.coro me)) k).schedKey = _
  by_cases hk : k = me
  · rw [hk, update_self]
    rfl
  · rw [update_of_ne hk]

/-- What `WaitForVHandleVal` does in the coroutine `me`. -/
inductive Preempted (P : Config K) (s : State K F) (me : K) : State K F → Prop
  | zeroKey : (s.coro me).schedKey = 0 → Preempted P s me { s with pc := .piece }
  /-- There is a piece without a key. -/
  | zeroPiece {t : State K F} : (s.coro me).schedKey ≠ 0 →
      s.queues.dispatch.zq.start < s.queues.dispatch.zq.stop →
      ((P.pushSelf s me).suspend me .piece).startNewCoroutine = some t → Preempted P s me t
  | ready {k : K} {ready : List K} : (s.coro me).schedKey ≠ 0 → ¬P.Pauses s me →
      s.ready = k :: ready →
      Preempted P s me ((((P.pushSelf s me).popReady ready).suspend me .piece).yieldTo (some k))
  | pause {k : K} {ready : List K} : P.Pauses s me → s.ready = k :: ready →
      Preempted P s me ((({ (P.pushSelf s me).popReady ready with paused := some me } :
        State K F).suspend me (.resolving ((P.pushSelf s me).oooBuffer 0))).yieldTo (some k))
  | resolve {t : State K F} : (s.coro me).schedKey ≠ 0 → s.oooBufferLen ≠ P.oooBufferSize →
      ¬s.queues.dispatch.zq.start < s.queues.dispatch.zq.stop → s.ready = [] →
      P.resolve (P.pushSelf s me) me ((P.pushSelf s me).oooBuffer 0) = some t → Preempted P s me t

theorem preempted_preempt (ht : P.preempt s me = some t) : Preempted P s me t := by
  unfold Config.preempt at ht
  split_ifs at ht with hkey hfull
  · cases ht
    exact .zeroKey hkey
  have hlen : ¬(P.pushSelf s me).oooBufferLen = 0 := Nat.succ_ne_zero _
  unfold Config.findNext at ht
  dsimp only at ht
  rw [if_neg (fun hc => hlen hc.1)] at ht
  by_cases hzero : (P.pushSelf s me).queues.dispatch.zq.start <
    (P.pushSelf s me).queues.dispatch.zq.stop
  · rw [if_pos hzero] at ht
    exact .zeroPiece hkey hzero ht
  rw [if_neg hzero] at ht
  split at ht
  · rename_i k ready hready
    have hmem : s.ready ≠ [] := by
      rw [show s.ready = k :: ready from hready]
      exact cons_ne_nil k ready
    split_ifs at ht with hroom hpaused
    · cases ht
      refine .ready hkey (fun hpause => ?_) hready
      exact absurd hpause.2.2.2 (not_le.2 hroom)
    · cases ht
      exact .pause ⟨hkey, hzero, hmem, not_lt.1 hroom⟩ hready
  · rename_i hready
    exact .resolve hkey hfull hzero hready ht

theorem Owned.preempt (h : Owned all s [me]) (hall : all.Nodup) (hme : s.current = some me)
    (hkeyed : s.Keyed me) (hsw : s.switched = none) (hpause : ¬P.Pauses s me)
    (hwraps : (s.coro me).schedKey ≠ 0 →
      P.deadlocked (P.pushSelf s me) ((P.pushSelf s me).oooBuffer 0) →
        ¬Config.wraps ((P.pushSelf s me).coro ((P.pushSelf s me).oooBuffer 0)))
    (ht : Preempted P s me t) : Good all s t := by
  have hpush := h.pushSelf (P := P) hkeyed
  have hkeyed' : (P.pushSelf s me).Keyed me := (hpush.asleep me (mem_append_left _
    ((Owned.perm_pushSelf P s me).mem_iff.2 mem_cons_self))).keyed
  have hlen : 0 < (P.pushSelf s me).oooBufferLen := Nat.succ_pos _
  cases ht with
  | zeroKey => exact h.goOn hme hsw ⟨me, rfl, hkeyed⟩
  | zeroPiece _ _ ht =>
    obtain ⟨hinv, hsame⟩ := hpush.startNewCoroutine hall (keyed_current hme hkeyed') ht
    exact ⟨hinv, switchOk_none (hsame.trans hsw)⟩
  | @ready k ready _ _ hready =>
    have hmem : k ∈ s.ready := by
      rw [hready]
      exact mem_cons_self
    have hdetached : k ∈ s.detached := mem_append_right _ hmem
    have hne : k ≠ me := by
      rintro rfl
      exact h.notMem hall (mem_singleton_self k) (mem_append_right _ hdetached)
    refine ⟨?_, h.switchOk_pushSelf (P := P) (.inr hmem) hne rfl⟩
    have hasleep := hpush.asleep k (mem_append_right _ hdetached)
    exact (hpush.popReady hready).yieldTo hall (Owned.Asleep.congr hasleep rfl rfl rfl)
  | pause hp => exact absurd hp hpause
  | resolve hkey _ _ _ ht =>
    obtain ⟨hinv, hswitched⟩ := hpush.resolve hall hme hkeyed' hlen (hwraps hkey) ht
    refine ⟨hinv, ?_⟩
    rcases hswitched with hsame | ⟨hcand, hne⟩
    · exact switchOk_none (hsame.trans hsw)
    · exact h.switchOk_pushSelf (.inl (mem_seg.2 ⟨0, hlen, rfl⟩)) hne hcand

/-- The candidate is one of the coroutines whose keys leave room for the backoff. -/
theorem not_wraps_candidate (hwraps : ∀ k ∈ me :: s.waiting, ¬Config.wraps (s.coro k)) :
    ¬Config.wraps ((P.pushSelf s me).coro ((P.pushSelf s me).oooBuffer 0)) := by
  unfold Config.wraps
  rw [schedKey_pushSelf]
  exact hwraps _ ((Owned.perm_pushSelf P s me).mem_iff.1 (mem_seg.2 ⟨0, Nat.succ_pos _, rfl⟩))

/-! ## Futures -/

variable [DecidableEq F]

theorem Owned.waitForFutureValue (h : Owned all s [me]) (hall : all.Nodup)
    (hme : s.current = some me) (hpc : s.pc = .piece) (hkeyed : s.Keyed me) {f : F} {ready : Bool}
    (ht : P.waitForFutureValue s me f ready = some t) : Inv all t ∧ t.switched = s.switched := by
  unfold Config.waitForFutureValue at ht
  split_ifs at ht
  · exact h.waitForVHandleVal hme hkeyed ht
  · cases ht
    refine ⟨⟨by rw [hme]; exact h, ?_⟩, rfl⟩
    rw [hpc]
    exact ⟨me, hme, hkeyed⟩
  · obtain ⟨hinv, hsame⟩ := (h.attach hkeyed f _).startNewCoroutine hall
      (keyed_current hme hkeyed) ht
    exact ⟨hinv, hsame⟩

theorem Owned.setReady (h : Owned all s out) (f : F) : Owned all (Config.setReady s f) out := by
  unfold Config.setReady
  split
  · exact h
  · rename_i a ha
    have hmem : a ∈ s.attached := mem_of_find?_eq_some ha
    have hperm : (s.attached.map Prod.snd).Perm (a.2 :: (s.attached.erase a).map Prod.snd) :=
      (perm_cons_erase hmem).map Prod.snd
    have hdetached := perm_middle.trans (hperm.symm.append_right s.ready)
    exact h.move rfl h.rep ((hdetached.append_left _).append_left _) (List.Subset.refl _)
      hdetached.subset fun _ _ => ⟨rfl, rfl, rfl⟩

/-! ## Runs -/

theorem Inv.advance (h : Inv all s) (hall : all.Nodup) (hme : s.current = some me)
    (hsw : s.switched = none) {e : Event F} (hok : P.Ok s e)
    (ht : P.advance s me s.pc e = some t) : Good all s t := by
  have howned : Owned all s [me] := by
    have := h.owned
    rw [hme] at this
    exact this
  have hfits := h.fits
  cases hpc : s.pc with
  | getNewPiece =>
    rw [hpc] at ht
    cases e <;> try cases ht
    exact howned.getNewPiece hall hme hsw ht
  | picking =>
    rw [hpc] at ht
    cases e <;> try cases ht
    exact howned.pick hall hme hsw ht
  | finishing =>
    rw [hpc] at ht
    cases e <;> try cases ht
    exact howned.finish hme hsw ht
  | preempting =>
    rw [hpc] at ht hfits
    obtain ⟨me', hme', hkeyed⟩ := hfits
    obtain rfl : me' = me := some.inj (hme'.symm.trans hme)
    cases e <;> try cases ht
    obtain ⟨hpause, hwraps⟩ := hok me' hme
    exact howned.preempt hall hme hkeyed hsw hpause (fun _ _ => not_wraps_candidate hwraps)
      (preempted_preempt ht)
  | piece =>
    rw [hpc] at ht hfits
    obtain ⟨me', hme', hkeyed⟩ := hfits
    obtain rfl : me' = me := some.inj (hme'.symm.trans hme)
    cases e <;> try cases ht
    · refine ⟨Owned.setPc h.owned ?_, switchOk_none hsw⟩
      rw [hme]
      exact some_ne_none me'
    · obtain ⟨hinv, hsame⟩ := howned.waitForVHandleVal hme hkeyed ht
      exact ⟨hinv, switchOk_none (hsame.trans hsw)⟩
    · obtain ⟨hinv, hsame⟩ := howned.waitForFutureValue hall hme hpc hkeyed ht
      exact ⟨hinv, switchOk_none (hsame.trans hsw)⟩
  | main =>
    rw [hpc] at ht
    cases e <;> cases ht
  | resolving candidate =>
    rw [hpc] at hfits
    exact hfits.elim
  | crashed =>
    rw [hpc] at hfits
    exact hfits.elim

theorem Inv.setReady (h : Inv all s) (f : F) : Inv all (Config.setReady s f) := by
  have howned := h.owned.setReady f
  have hfits := h.fits
  unfold Config.setReady at howned ⊢
  split at howned
  · exact h
  · refine ⟨howned, ?_⟩
    revert hfits
    change s.pc.Fits s s.current → s.pc.Fits _ s.current
    cases s.pc <;> exact id

theorem switched_setReady (s : State K F) (f : F) :
    (Config.setReady s f).switched = s.switched := by
  unfold Config.setReady
  split <;> rfl

theorem Inv.step (h : Inv all s) (hall : all.Nodup) {e : Event F} (hok : P.Ok s e)
    (ht : P.step s e = some t) : Good all s t := by
  have hrun : ∀ e, P.Ok s e →
      (s.current.bind fun me => P.advance { s with switched := none } me s.pc e) = some t →
        Good all s t := by
    intro e hok ht
    obtain ⟨me, hme, ht⟩ := bind_eq_some_iff.1 ht
    exact h.clear.advance hall hme rfl (by cases e <;> exact hok) ht
  cases e with
  | startCoroExec =>
    unfold Config.step at ht
    dsimp only at ht
    split_ifs at ht with hpc
    have hnone : s.current = none := by
      have hfits := h.fits
      rw [hpc] at hfits
      exact hfits
    have hlist : s.current.toList = [] := by
      rw [hnone]
      rfl
    have howned : Owned all ({ s with switched := none } : State K F) [] := by
      have : Owned all ({ s with switched := none } : State K F) s.current.toList := h.clear.owned
      rwa [hlist] at this
    have hkeyed : ∀ me ∈ s.current, s.Keyed me := by
      intro me hme
      cases hnone.symm.trans hme
    obtain ⟨hinv, hsame⟩ := howned.startNewCoroutine hall hkeyed ht
    exact ⟨hinv, switchOk_none hsame⟩
  | setReady f =>
    cases ht
    exact ⟨h.clear.setReady f, switchOk_none (switched_setReady _ f)⟩
  | add batch =>
    obtain ⟨d, -, rfl⟩ := map_eq_some_iff.1 ht
    exact ⟨h.clear.setDispatch d, switchOk_none rfl⟩
  | adder =>
    obtain ⟨d, -, rfl⟩ := map_eq_some_iff.1 ht
    exact ⟨h.clear.setDispatch d, switchOk_none rfl⟩
  | _ => exact hrun _ hok ht

/-- **Ownership of the stacks.** In every run without a pause and with keys that leave room for the
backoff, every stack is in exactly one place, in every state. And every switch of the next step is
to a coroutine that is suspended, with the piece that it was suspended in. -/
theorem stacks_owned (P : Config K) (all : List K) (hall : all.Nodup)
    (dispatch ring : ℕ → RoutineRef) (q : ℕ → PriorityQueueHeapEntry)
    (ent : ℕ → PriorityQueueHashEntry) (coro : K → CoroStack) (oooBuffer : ℕ → K)
    (resume : K → Pc K) (evs : List (Event F)) (s : State K F) (hok : Along P.step P.Ok
      (.init ⟨.init dispatch ring, .empty q ent, []⟩ coro all oooBuffer resume) evs)
    (hrun : run P.step (.init ⟨.init dispatch ring, .empty q ent,
      []⟩ coro all oooBuffer resume) evs = some s) :
    s.owners.Perm all ∧ ∀ e t, P.Ok s e → P.step s e = some t → SwitchOk s t := by
  have h : Inv all s := run_invariant (fun _ _ _ h hok ht => (h.step hall hok ht).1) evs _ s
    (inv_init all dispatch ring q ent coro oooBuffer resume) hok hrun
  exact ⟨h.owned.perm, fun e t hok ht => (h.step hall hok ht).2⟩

instance (P : Config K) (s : State K F) (me : K) : Decidable (P.Pauses s me) :=
  inferInstanceAs (Decidable (_ ∧ _))

instance (c : CoroStack) : Decidable (Config.wraps c) := inferInstanceAs (Decidable (_ ≤ _))

instance (P : Config K) (s : State K F) (e : Event F) : Decidable (P.Ok s e) := by
  cases e <;> unfold Config.Ok <;> infer_instance

def twoStacks (size : ℕ) : Config Bool where
  oooBufferSize := size
  useSignalFuture := true
  maxNrCoroutine := 2
  fvSignals _ := 0
  less a b := !a && b
  maxItem := 4
  limit := 1024

def twoStacksInit : State Bool Unit :=
  .init ⟨.init (fun _ => ⟨0, 0⟩) fun _ => ⟨0, 0⟩, .empty (fun _ => ⟨0, none⟩) fun _ => ⟨0, []⟩, []⟩
    (fun _ => ⟨0, 0, 0, ⟨0, 0⟩⟩) [false, true] (fun _ => false) fun _ => .main

def firstPiece : List (Event Unit) :=
  [.add [⟨0, 5⟩, ⟨1, 7⟩]] ++ List.replicate 7 .adder ++ [.startCoroExec, .getNewPiece true, .pick]

/-- The first coroutine preempts itself, and the second completes the other piece. -/
def preemptedRun : List (Event Unit) :=
  firstPiece ++ [.waitForVHandleVal, .preempt, .getNewPiece true, .pick, .complete,
    .getNewPiece true]

theorem stacks_owned_preemptedRun : ∃ s t,
    run (twoStacks 2).step twoStacksInit preemptedRun = some s ∧
    (twoStacks 2).step s .pick = some t ∧ t.switched = some (some false) ∧
      s.owners.Perm [false, true] ∧ SwitchOk s t := by
  obtain ⟨s, hs, t, ht, hsw⟩ : ∃ s, run (twoStacks 2).step twoStacksInit preemptedRun = some s ∧
      ∃ t, (twoStacks 2).step s .pick = some t ∧ t.switched = some (some false) := by
    decide +kernel
  obtain ⟨hperm, hnext⟩ := stacks_owned (twoStacks 2) [false, true] (by decide) _ _ _ _ _ _ _
    preemptedRun s (by decide +kernel) hs
  exact ⟨s, t, hs, ht, hsw, hperm, hnext .pick t trivial ht⟩

/-- The first coroutine waits for a future. The second is about to preempt itself when the future
becomes ready; there is no more room in the buffer. -/
def pausedRun : List (Event Unit) :=
  firstPiece ++ [.waitForFutureValue () false, .getNewPiece true, .pick, .waitForVHandleVal,
    .setReady (), .preempt]

/-- The second coroutine is in the buffer and paused. When the first has completed its piece, it
switches to `nullptr`. -/
theorem paused_pausedRun : ∃ s t, run (twoStacks 1).step twoStacksInit pausedRun = some s ∧
    true ∈ s.waiting ∧ s.paused = some true ∧ ¬s.owners.Perm [false, true] ∧
      run (twoStacks 1).step s [.complete, .getNewPiece true] = some t ∧
      t.switched = some none := by
  obtain ⟨s, hs, hst, t, ht⟩ : ∃ s, run (twoStacks 1).step twoStacksInit pausedRun = some s ∧
      (true ∈ s.waiting ∧ s.paused = some true ∧ ¬s.owners.Perm [false, true]) ∧
      ∃ t, run (twoStacks 1).step s [.complete, .getNewPiece true] = some t ∧
        t.switched = some none := by decide +kernel
  exact ⟨s, t, hs, hst.1, hst.2.1, hst.2.2, ht⟩

end Felis.Coro.Stacks
