import Felis.Coro.Ownership

/-!
# The out-of-order buffer as a heap

`std::push_heap` and `std::pop_heap` keep the buffer a heap when `MinHeapCompare` is a strict weak
order on the coroutines in it. It is one as long as their pieces get no signals: the last comparison
looks at the first coroutine only, so that a coroutine with a signal comes before itself.

The buffer is made into a heap with the order of the addresses when a deadlock is resolved. This
does no harm. The candidate is at the end of its backoff and in front of the heap, so that all
others have no smaller key: no coroutine stays in the buffer (`Owned.requeue_empty`).

A coroutine that pauses itself stays in the buffer. From then on the buffer is not touched any more:
the next coroutine that looks for something to do crashes (`Stuck`).
-/

namespace Felis.Coro.Stacks

open BinaryHeap Cells Runs Sched Function List Option

variable {K F : Type}

namespace Config

variable (P : Config K)

/-- The same without signals. -/
def quiet : Config K := { P with fvSignals := fun _ => 0 }

/-- The pieces of the coroutines that preempt themselves get no signals, and the key of the
candidate has not wrapped around when a deadlock is resolved. -/
def OrderOk [DecidableEq K] (s : State K F) : Event F → Prop
  | .preempt => ∀ me ∈ s.current, (s.coro me).schedKey ≠ 0 →
      P.fvSignals (s.coro me).runningPiece = 0 ∧
      (P.deadlocked (P.pushSelf s me) ((P.pushSelf s me).oooBuffer 0) →
        ¬wraps ((P.pushSelf s me).coro ((P.pushSelf s me).oooBuffer 0)))
  | _ => True

/-- The state in which `WaitForVHandleVal` decides whether to go on with the candidate. -/
def resolved (s : State K F) (candidate : K) : Option (State K F) :=
  if P.deadlocked s candidate then P.requeue s else some s

end Config

/-- The step goes on with the coroutine `k` of the buffer, and pops the buffer in the state `u`. -/
inductive Pops [DecidableEq K] (P : Config K) (s : State K F) : Event F → State K F → K → Prop
  | pick : s.pc = .picking → s.ready = [] → P.switches s (s.oooBuffer 0) →
      Pops P s .pick s (s.oooBuffer 0)
  | preempt {me : K} {u : State K F} : s.current = some me → s.pc = .preempting →
      (s.coro me).schedKey ≠ 0 → s.oooBufferLen ≠ P.oooBufferSize →
      ¬s.queues.dispatch.zq.start < s.queues.dispatch.zq.stop → s.ready = [] →
      P.resolved (P.pushSelf s me) ((P.pushSelf s me).oooBuffer 0) = some u →
      P.switches u ((P.pushSelf s me).oooBuffer 0) →
      Pops P s .preempt u ((P.pushSelf s me).oooBuffer 0)
  | resolve {candidate : K} {u : State K F} : s.pc = .resolving candidate →
      P.resolved s candidate = some u → P.switches u candidate → Pops P s .resolve u candidate

/-- The comparison is a strict weak order of the coroutines in the buffer, and the buffer is a heap
for it. -/
structure Heaped (P : Config K) (s : State K F) : Prop where
  order : StrictWeakOrder fun a b : { k // k ∈ s.waiting } => P.minHeapCompare s.coro a b
  heap : IsHeap (P.minHeapCompare s.coro) s.oooBuffer s.oooBufferLen

variable {P : Config K} {all out : List K} {s t u : State K F} {me k : K} {coro : K → CoroStack}
  {e : Event F}

/-! ## The order without signals -/

theorem quiet_iff {a b : K} :
    P.quiet.minHeapCompare coro a b = true ↔ (coro b).preemptKey < (coro a).preemptKey ∨
      (coro b).preemptKey = (coro a).preemptKey ∧ (coro b).schedKey < (coro a).schedKey := by
  unfold Config.minHeapCompare
  split_ifs with h1 h2 h3 h4
  · simp [h1]
  · simp only [false_iff]
    omega
  · simp only [true_iff]
    omega
  · simp only [false_iff]
    omega
  · simp only [Config.quiet, Nat.lt_irrefl, decide_false, Bool.false_eq_true, false_iff]
    omega

theorem not_quiet_iff {a b : K} :
    P.quiet.minHeapCompare coro a b = false ↔ (coro a).preemptKey < (coro b).preemptKey ∨
      (coro a).preemptKey = (coro b).preemptKey ∧ (coro a).schedKey ≤ (coro b).schedKey := by
  rw [← Bool.not_eq_true, quiet_iff]
  omega

theorem strictWeakOrder_quiet (coro : K → CoroStack) :
    StrictWeakOrder (P.quiet.minHeapCompare coro) where
  asymm a b h := by
    rw [quiet_iff] at h
    rw [not_quiet_iff]
    omega
  not_trans a b c hab hbc := by
    rw [not_quiet_iff] at hab hbc ⊢
    omega

theorem minHeapCompare_congr (P : Config K) {coro coro' : K → CoroStack} {a b : K}
    (ha : coro' a = coro a) (hb : coro' b = coro b) :
    P.minHeapCompare coro a b = P.minHeapCompare coro' a b := by
  unfold Config.minHeapCompare
  rw [ha, hb]

theorem minHeapCompare_quiet {a : K} (h : P.fvSignals (coro a).runningPiece = 0) (b : K) :
    P.minHeapCompare coro a b = P.quiet.minHeapCompare coro a b := by
  unfold Config.minHeapCompare
  rw [h]
  rfl

/-! ## The buffer -/

/-- The coroutines in the buffer have no signals, and the buffer is a heap. -/
structure Sorted (P : Config K) (s : State K F) : Prop where
  quiet : ∀ k ∈ s.waiting, P.fvSignals (s.coro k).runningPiece = 0
  heap : IsHeap (P.quiet.minHeapCompare s.coro) s.oooBuffer s.oooBufferLen

theorem mem_waiting {i : ℕ} (hi : i < s.oooBufferLen) : s.oooBuffer i ∈ s.waiting :=
  mem_seg.2 ⟨i, hi, by rw [Nat.zero_add]⟩

namespace Sorted

theorem agree (h : Sorted P s) (a b : K) (ha : a ∈ s.waiting) (_ : b ∈ s.waiting) :
    P.quiet.minHeapCompare s.coro a b = P.minHeapCompare s.coro a b :=
  (minHeapCompare_quiet (h.quiet a ha) b).symm

theorem heaped (h : Sorted P s) : Heaped P s where
  order := by
    have hcomp : (fun a b : { k // k ∈ s.waiting } => P.minHeapCompare s.coro a b) =
        fun a b : { k // k ∈ s.waiting } => P.quiet.minHeapCompare s.coro a b := by
      funext a b
      exact (h.agree a b a.2 b.2).symm
    rw [hcomp]
    have hquiet := strictWeakOrder_quiet (P := P) s.coro
    exact ⟨fun a b => hquiet.asymm a b, fun a b c => hquiet.not_trans a b c⟩
  heap := h.heap.congr_comp (S := (· ∈ s.waiting)) h.agree fun _ hk => mem_waiting hk

/-- No coroutine comes before the one in front. -/
theorem front (h : Sorted P s) {j : K} (hj : j ∈ s.waiting) :
    P.quiet.minHeapCompare s.coro (s.oooBuffer 0) j = false := by
  obtain ⟨i, hi, rfl⟩ := mem_seg.1 hj
  rw [Nat.zero_add]
  exact h.heap.root (strictWeakOrder_quiet s.coro) i hi

theorem of_empty (h : s.oooBufferLen = 0) : Sorted P s where
  quiet k hk := by
    rw [State.waiting, h] at hk
    cases hk
  heap k _ hk := by omega

end Sorted

/-- A step that leaves the buffer and its coroutines as they are. -/
structure Keeps (s t : State K F) : Prop where
  buffer : t.oooBuffer = s.oooBuffer
  len : t.oooBufferLen = s.oooBufferLen
  coro : ∀ k ∈ s.waiting, t.coro k = s.coro k

theorem Keeps.same (hbuffer : t.oooBuffer = s.oooBuffer := by rfl)
    (hlen : t.oooBufferLen = s.oooBufferLen := by rfl) (hcoro : t.coro = s.coro := by rfl) :
    Keeps s t :=
  ⟨hbuffer, hlen, fun k _ => congrFun hcoro k⟩

theorem Keeps.waiting (h : Keeps s t) : t.waiting = s.waiting := by
  rw [State.waiting, h.buffer, h.len, State.waiting]

namespace Sorted

theorem keeps (h : Sorted P s) (hst : Keeps s t) : Sorted P t where
  quiet k hk := by
    rw [hst.waiting] at hk
    rw [hst.coro k hk]
    exact h.quiet k hk
  heap := by
    rw [hst.buffer, hst.len]
    refine h.heap.congr_comp (S := (· ∈ s.waiting)) (fun a b ha hb => ?_) fun _ hk => mem_waiting hk
    exact minHeapCompare_congr P.quiet (hst.coro a ha) (hst.coro b hb)

theorem popOoo (h : Sorted P s) (hlen : 0 < s.oooBufferLen) : Sorted P (P.popOoo s) where
  quiet k hk := by
    have hperm := perm_popHeap (P.minHeapCompare s.coro) hlen s.oooBuffer
    exact h.quiet k (hperm.mem_iff.1 (mem_cons_of_mem _ hk))
  heap := by
    have hpop := isHeap_popHeap (strictWeakOrder_quiet s.coro) h.heap
    rw [popHeap_congr (S := (· ∈ s.waiting)) h.agree hlen fun _ hk => mem_waiting hk] at hpop
    exact hpop

end Sorted

/-- When the priority queue has a piece that comes before all coroutines, none of them stays. -/
theorem requeueLoop_eq_nil {ks kept : List K} (hrep : ∃ es, s.queues.pq.Rep s.queues.pending es)
    {v : PriorityQueueValue} (hv : v ∈ s.queues.pending)
    (hks : ∀ k ∈ ks, v.key ≤ (s.coro k).schedKey)
    (ht : P.requeueLoop s ks = some (t, kept)) : kept = [] := by
  induction ks generalizing s kept with
  | nil =>
    cases ht
    rfl
  | cons k ks ih =>
    have hkey : (s.queues.pq.q 0).key ≤ (s.coro k).schedKey :=
      (front_le hrep hv).2.trans (hks k mem_cons_self)
    rw [Config.requeueLoop, if_pos hkey] at ht
    obtain ⟨queues, hqueues, ht⟩ := bind_eq_some_iff.1 ht
    refine ih (Queues.addAll_spec hrep hqueues).2 ?_ ?_ ht
    · change v ∈ queues.pending
      rw [addAll_singleton hqueues]
      exact mem_append_left _ hv
    · intro k hk
      exact hks k (mem_cons_of_mem _ hk)

/-- A step that leaves the buffer as it is, and does not go on with a coroutine of it. -/
structure Aside (s t : State K F) : Prop extends Keeps s t where
  switched : ∀ k ∈ s.waiting, t.switched ≠ some (some k)

theorem Keeps.aside (h : Keeps s t) (hsw : t.switched = none) : Aside s t where
  toKeeps := h
  switched k _ hk := by
    rw [hsw] at hk
    cases hk

theorem keeps_exitExecutionRoutine (ht : s.exitExecutionRoutine me = some t) :
    Keeps s t ∧ t.switched = s.switched := by
  unfold State.exitExecutionRoutine at ht
  split_ifs at ht
  cases ht
  exact ⟨.same, rfl⟩

theorem aside_waitForVHandleVal (hsw : s.switched = none) (ht : P.waitForVHandleVal s = some t) :
    Aside s t := by
  unfold Config.waitForVHandleVal at ht
  split_ifs at ht
  obtain ⟨queues, -, rfl⟩ := map_eq_some_iff.1 ht
  exact Keeps.aside .same hsw

/-- The buffer is a heap before the pop, and the coroutine `k` is in front of it: no coroutine in
the buffer precedes it. -/
structure PopsFirst (P : Config K) (u : State K F) (k : K) : Prop where
  heaped : Heaped P u
  front : 0 < u.oooBufferLen ∧ k = u.oooBuffer 0
  first : ∀ j ∈ u.waiting, P.minHeapCompare u.coro k j = false

theorem Sorted.popsFirst (h : Sorted P s) (hlen : 0 < s.oooBufferLen) :
    PopsFirst P s (s.oooBuffer 0) where
  heaped := h.heaped
  front := ⟨hlen, rfl⟩
  first j hj := by
    rw [← h.agree _ j (mem_waiting hlen) hj]
    exact h.front hj

theorem aside_finish (hsw : s.switched = none) {shouldRetry : Bool}
    (ht : P.finish s me shouldRetry = some t) : Aside s t := by
  unfold Config.finish at ht
  split_ifs at ht
  · cases ht
    exact Keeps.aside .same hsw
  · cases ht
    exact Keeps.aside .same hsw
  · obtain ⟨hkeeps, hsame⟩ := keeps_exitExecutionRoutine ht
    exact hkeeps.aside (hsame.trans hsw)

variable [DecidableEq K]

theorem Sorted.pushSelf (h : Sorted P s) (hme : me ∉ s.waiting)
    (hquiet : P.fvSignals (s.coro me).runningPiece = 0) : Sorted P (P.pushSelf s me) := by
  have hother : ∀ k ∈ s.waiting, (P.pushSelf s me).coro k = s.coro k := fun k hk =>
    update_of_ne (ne_of_mem_of_not_mem hk hme) ..
  have hall : ∀ k ∈ me :: s.waiting,
      P.fvSignals ((P.pushSelf s me).coro k).runningPiece = 0 := by
    intro k hk
    rcases mem_cons.1 hk with rfl | hk
    · rw [show (P.pushSelf s k).coro k = _ from update_self ..]
      exact hquiet
    · rw [hother k hk]
      exact h.quiet k hk
  refine ⟨fun k hk => hall k ((Owned.perm_pushSelf P s me).mem_iff.1 hk), ?_⟩
  -- the coroutines that are in the buffer already keep their keys
  have hold : IsHeap (P.quiet.minHeapCompare (P.pushSelf s me).coro)
      (update s.oooBuffer s.oooBufferLen me) s.oooBufferLen := by
    refine IsHeap.congr (a := s.oooBuffer) ?_ fun i hi => update_of_ne hi.ne ..
    refine h.heap.congr_comp (S := (· ∈ s.waiting)) (fun a b ha hb => ?_) fun _ hk => mem_waiting hk
    exact minHeapCompare_congr P.quiet (hother a ha) (hother b hb)
  have hpush := isHeap_pushHeap (strictWeakOrder_quiet _) (Nat.succ_pos _) hold
  rw [pushHeap_congr (S := (· ∈ me :: s.waiting))
    (fun a b ha _ => (minHeapCompare_quiet (hall a ha) b).symm) (Nat.succ_pos _)] at hpush
  · exact hpush
  · intro i hi
    by_cases hlast : i = s.oooBufferLen
    · rw [hlast, update_self]
      exact mem_cons_self
    · rw [update_of_ne hlast]
      exact mem_cons_of_mem _ (mem_waiting (lt_of_le_of_ne (Nat.le_of_lt_succ hi) hlast))

/-! ## Resolving a deadlock -/

/-- The candidate is at the end of its backoff, so that no coroutine has a smaller key. -/
theorem Owned.schedKey_le (h : Owned all (s.suspend me .piece) []) (hsorted : Sorted P s)
    (hlen : 0 < s.oooBufferLen) (hwraps : ¬Config.wraps (s.coro (s.oooBuffer 0)))
    (htimes : kMaxBackoff < (s.coro (s.oooBuffer 0)).preemptTimes) {j : K} (hj : j ∈ s.waiting) :
    (s.coro (s.oooBuffer 0)).schedKey ≤ (s.coro j).schedKey := by
  have hfront := not_quiet_iff.1 (hsorted.front hj)
  have hcand : s.BackedOff (s.oooBuffer 0) := h.backedOff _ (mem_waiting hlen)
  have hother : s.BackedOff j := h.backedOff j hj
  unfold Config.wraps at hwraps
  rw [State.BackedOff, Nat.min_eq_right htimes.le, Nat.mod_eq_of_lt (not_le.1 hwraps)] at hcand
  have hle : (s.coro j).preemptKey ≤ (s.coro j).schedKey + kPreemptKeyThreshold * kMaxBackoff := by
    rw [hother]
    refine (Nat.mod_le _ _).trans (Nat.add_le_add_left ?_ _)
    exact Nat.mul_le_mul_left _ (Nat.min_le_right _ _)
  omega

/-- **No coroutine stays.** -/
theorem Owned.requeue_empty (h : Owned all (s.suspend me .piece) []) (hsorted : Sorted P s)
    (hlen : 0 < s.oooBufferLen) (hwraps : ¬Config.wraps (s.coro (s.oooBuffer 0)))
    (hdead : P.deadlocked s (s.oooBuffer 0)) (ht : P.requeue s = some t) :
    t.oooBufferLen = 0 := by
  have hle : ∀ j ∈ s.waiting, (s.coro (s.oooBuffer 0)).schedKey ≤ (s.coro j).schedKey :=
    fun j hj => h.schedKey_le hsorted hlen hwraps hdead.2.1 hj
  have hkeyed : s.Keyed (s.oooBuffer 0) :=
    (h.asleep _ (mem_append_left _ (mem_waiting hlen))).keyed
  have hkey : (s.queues.pq.q 0).key ≤ (s.coro (s.oooBuffer 0)).schedKey := by
    rcases hdead.2.2 with hlt | ⟨heq, -⟩
    · exact hlt.le
    · exact heq.ge
  obtain ⟨⟨u, kept⟩, hu, rfl⟩ := map_eq_some_iff.1 ht
  obtain ⟨n, hn⟩ : ∃ n, s.oooBufferLen = n + 1 := ⟨s.oooBufferLen - 1, by omega⟩
  rw [State.waiting, hn, seg_cons] at hle
  -- the piece of the candidate is the first to go to the priority queue
  rw [hn, seg_cons, Config.requeueLoop, if_pos hkey] at hu
  obtain ⟨queues, hqueues, hu⟩ := bind_eq_some_iff.1 hu
  have hnil : kept = [] := by
    refine requeueLoop_eq_nil (Queues.addAll_spec h.rep hqueues).2
      (v := ⟨s.queues.pq.brk, (s.coro (s.oooBuffer 0)).runningPiece⟩) ?_ (fun k hk => ?_) hu
    · change _ ∈ queues.pending
      rw [addAll_singleton hqueues]
      exact mem_append_right _ (mem_singleton_self _)
    · refine (Nat.le_of_eq ?_).trans (hle k (mem_cons_of_mem _ hk))
      exact hkeyed.symm
  exact congrArg List.length hnil

/-! ## The steps -/

theorem keeps_startNewCoroutine (ht : s.startNewCoroutine = some t) :
    Keeps s t ∧ t.switched = s.switched := by
  unfold State.startNewCoroutine at ht
  split at ht <;> cases ht
  exact ⟨.same, rfl⟩

theorem keeps_assign (hme : me ∉ s.waiting) (c : CoroStack) (r : RoutineRef) :
    Keeps s (Config.assign s me c r) :=
  ⟨rfl, rfl, fun _ hk => update_of_ne (ne_of_mem_of_not_mem hk hme) ..⟩

theorem aside_getNewPiece (hme : me ∉ s.waiting) (hsw : s.switched = none) {isReady : Bool}
    (ht : P.getNewPiece s me isReady = some t) : Aside s t := by
  unfold Config.getNewPiece at ht
  split_ifs at ht with hzero hready hpaused
  · cases ht
    exact Keeps.aside ⟨rfl, rfl, (keeps_assign hme _ _).coro⟩ hsw
  · obtain ⟨hkeeps, hsame⟩ := keeps_exitExecutionRoutine ht
    exact hkeeps.aside (hsame.trans hsw)
  · -- the paused coroutine has been forgotten: this is a switch to `nullptr`
    cases ht
    exact ⟨.same, fun k _ hk => by cases hk⟩
  · obtain ⟨queues, -, rfl⟩ := map_eq_some_iff.1 ht
    exact Keeps.aside .same hsw

theorem keeps_runPiece (hme : me ∉ s.waiting) (ht : Config.runPiece s me = some t) :
    Keeps s t ∧ t.switched = s.switched := by
  obtain ⟨v, -, ht⟩ := bind_eq_some_iff.1 ht
  obtain ⟨pq, -, rfl⟩ := map_eq_some_iff.1 ht
  exact ⟨⟨rfl, rfl, (keeps_assign hme _ _).coro⟩, rfl⟩

theorem aside_waitForFutureValue [DecidableEq F] (hsw : s.switched = none) {f : F} {ready : Bool}
    (ht : P.waitForFutureValue s me f ready = some t) : Aside s t := by
  unfold Config.waitForFutureValue at ht
  split_ifs at ht
  · exact aside_waitForVHandleVal hsw ht
  · cases ht
    exact Keeps.aside .same hsw
  · obtain ⟨hkeeps, hsame⟩ := keeps_startNewCoroutine ht
    exact Keeps.aside ⟨hkeeps.buffer, hkeeps.len, hkeeps.coro⟩ (hsame.trans hsw)

theorem aside_setReady [DecidableEq F] (hsw : s.switched = none) (f : F) :
    Aside s (Config.setReady s f) := by
  refine Keeps.aside ?_ ((switched_setReady s f).trans hsw)
  unfold Config.setReady
  split <;> exact .same

/-! ## `WaitForVHandleVal` -/

theorem Sorted.resolve (hsorted : Sorted P s) (h : Owned all (s.suspend me .piece) [])
    (hlen : 0 < s.oooBufferLen)
    (hwraps : P.deadlocked s (s.oooBuffer 0) → ¬Config.wraps (s.coro (s.oooBuffer 0)))
    (ht : P.resolve s me (s.oooBuffer 0) = some t) :
    Sorted P t ∧ (t.switched = s.switched ∨ ¬P.deadlocked s (s.oooBuffer 0) ∧
      P.switches s (s.oooBuffer 0) ∧ t.switched = some (some (s.oooBuffer 0))) := by
  unfold Config.resolve at ht
  by_cases hdead : P.deadlocked s (s.oooBuffer 0)
  · rw [if_pos hdead] at ht
    obtain ⟨u, hu, ht⟩ := bind_eq_some_iff.1 ht
    obtain ⟨-, -, hsw, -⟩ := h.requeue hu
    obtain ⟨hne, hnot⟩ := h.not_switches hlen (hwraps hdead) hdead hu
    rw [if_neg hnot, if_pos hne] at ht
    obtain ⟨hkeeps, hsame⟩ := keeps_startNewCoroutine ht
    have hempty := h.requeue_empty hsorted hlen (hwraps hdead) hdead hu
    exact ⟨.of_empty (hkeeps.len.trans hempty), .inl (hsame.trans hsw)⟩
  · rw [if_neg hdead, bind_some] at ht
    split_ifs at ht with hswitch hcand hpq
    · cases ht
      exact ⟨(hsorted.popOoo hlen).keeps .same, .inl rfl⟩
    · cases ht
      exact ⟨(hsorted.popOoo hlen).keeps .same, .inr ⟨hdead, hswitch, rfl⟩⟩
    · obtain ⟨hkeeps, hsame⟩ := keeps_startNewCoroutine ht
      exact ⟨hsorted.keeps ⟨hkeeps.buffer, hkeeps.len, hkeeps.coro⟩, .inl hsame⟩

/-! ## After a pause -/

/-- A coroutine has paused itself: no coroutine takes one from the buffer any more, and in the end
there is a crash. -/
structure Stuck (s : State K F) : Prop where
  parked : s.paused ≠ none ∧ (s.pc = .getNewPiece ∨ s.pc = .piece) ∨
    s.current = none ∧ s.pc = .crashed
  current : ∀ k ∈ s.current, k ∉ s.waiting
  free : ∀ k ∈ s.free, k ∉ s.waiting

namespace Stuck

omit [DecidableEq K] in
/-- The places of the stacks that run or are free are the same. -/
theorem same (h : Stuck s) (hkeeps : Keeps s t) (hpaused : t.paused = s.paused) (hpc : t.pc = s.pc)
    (hcurrent : t.current = s.current) (hfree : t.free = s.free) : Stuck t where
  parked := by
    rw [hpaused, hpc, hcurrent]
    exact h.parked
  current := by
    rw [hcurrent, hkeeps.waiting]
    exact h.current
  free := by
    rw [hfree, hkeeps.waiting]
    exact h.free

theorem getNewPiece (h : Stuck s) (hme : s.current = some me) (hpaused : s.paused ≠ none)
    {isReady : Bool} (ht : P.getNewPiece s me isReady = some t) : Stuck t := by
  unfold Config.getNewPiece at ht
  split_ifs at ht with hzero hready
  · cases ht
    exact ⟨.inl ⟨hpaused, .inr rfl⟩, h.current, h.free⟩
  · unfold State.exitExecutionRoutine at ht
    rw [if_neg fun hc => hpaused hc.1] at ht
    cases ht
  · cases ht
    refine ⟨.inr ⟨rfl, rfl⟩, fun k hk => (by cases hk), fun k hk => ?_⟩
    rcases mem_cons.1 hk with rfl | hk
    · exact h.current k hme
    · exact h.free k hk

variable [DecidableEq F]

theorem waitForFutureValue (h : Stuck s) (hpaused : s.paused ≠ none) {f : F} {ready : Bool}
    (ht : P.waitForFutureValue s me f ready = some t) : Stuck t := by
  unfold Config.waitForFutureValue at ht
  split_ifs at ht
  · rw [Config.waitForVHandleVal, if_neg hpaused] at ht
    cases ht
  · cases ht
    exact h
  · unfold State.startNewCoroutine at ht
    split at ht
    · cases ht
    · rename_i k free hfree
      have hfree : s.free = k :: free := hfree
      cases ht
      refine ⟨.inl ⟨hpaused, ?_⟩, fun j hj => ?_, fun j hj => h.free j ?_⟩
      · dsimp only
        split_ifs
        · exact .inr rfl
        · exact .inl rfl
      · cases hj
        refine h.free k ?_
        rw [hfree]
        exact mem_cons_self
      · rw [hfree]
        exact mem_cons_of_mem _ hj

theorem advance (h : Stuck s) (hme : s.current = some me) (hsw : s.switched = none)
    (ht : P.advance s me s.pc e = some t) : Stuck t ∧ Aside s t := by
  have hout : me ∉ s.waiting := h.current me hme
  rcases h.parked with ⟨hpaused, hpc⟩ | ⟨hnone, -⟩
  · rcases hpc with hpc | hpc <;> rw [hpc] at ht <;> cases e <;> try cases ht
    · exact ⟨h.getNewPiece hme hpaused ht, aside_getNewPiece hout hsw ht⟩
    · exact ⟨⟨.inl ⟨hpaused, .inl rfl⟩, h.current, h.free⟩,
        Keeps.aside .same hsw⟩
    · unfold Config.advance at ht
      rw [Config.waitForVHandleVal, if_neg hpaused] at ht
      cases ht
    · exact ⟨h.waitForFutureValue hpaused ht, aside_waitForFutureValue hsw ht⟩
  · rw [hnone] at hme
    cases hme

end Stuck

/-! ## The invariant -/

/-- What a step keeps: the coroutines are in their places or the core is stuck, the buffer is
sorted, and a switch to a coroutine of the buffer is after a pop. -/
structure Next (P : Config K) (all : List K) (s : State K F) (e : Event F) (t : State K F) :
    Prop where
  inv : Inv all t ∨ Stuck t
  sorted : Sorted P t
  resumed : ∀ k ∈ s.waiting, t.switched = some (some k) → ∃ u, Pops P s e u k

/-- The step is made with the switch of the step before forgotten. -/
theorem Aside.next (h : Aside ({ s with switched := none } : State K F) t) (hsorted : Sorted P s)
    (hinv : Inv all t ∨ Stuck t) (e : Event F) : Next P all s e t where
  inv := hinv
  sorted := hsorted.keeps ⟨h.buffer, h.len, h.coro⟩
  resumed k hk hsw := absurd hsw (h.switched k hk)

theorem Sorted.pick (hsorted : Sorted P s) (h : Owned all s [me]) (hall : all.Nodup)
    (hpc : s.pc = .picking) (hinv : Inv all t)
    (ht : P.pick ({ s with switched := none } : State K F) me = some t) :
    Next P all s .pick t := by
  have hme : me ∉ s.waiting := fun hmem =>
    h.notMem hall (mem_singleton_self me) (mem_append_left _ hmem)
  unfold Config.pick at ht
  split at ht
  · rename_i k ready hready
    cases ht
    refine Aside.next ?_ hsorted (.inl hinv) _
    refine ⟨.same, fun j hj hsw => ?_⟩
    cases hsw
    refine h.notMem_waiting hall (.inr ?_) hj
    rw [show s.ready = _ from hready]
    exact mem_cons_self
  · rename_i hready
    dsimp only at ht
    split_ifs at ht with hswitch hlen
    · cases ht
      refine ⟨.inl hinv, (hsorted.popOoo hswitch.1).keeps .same, ?_⟩
      intro k _ hsw
      cases hsw
      exact ⟨s, .pick hpc hready hswitch⟩
    · obtain ⟨hkeeps, hsame⟩ := keeps_runPiece (s := { s with switched := none }) hme ht
      exact (hkeeps.aside hsame).next hsorted (.inl hinv) _
    · cases ht
      refine Aside.next ?_ hsorted (.inl hinv) _
      exact Keeps.aside .same rfl

/-- A coroutine that pauses itself. -/
theorem Owned.stuck_pause (h : Owned all s [me]) (hall : all.Nodup) (hkeyed : s.Keyed me)
    {ready : List K} (hready : s.ready = k :: ready) {pc : Pc K} :
    Stuck ((({ (P.pushSelf s me).popReady ready with paused := some me } : State K F).suspend me
      pc).yieldTo (some k)) := by
  have hpush := h.pushSelf (P := P) hkeyed
  have hmem : k ∈ s.ready := by
    rw [hready]
    exact mem_cons_self
  have hdetached : k ∈ s.waiting ++ s.detached := by simp [State.detached, hmem]
  have hne : k ≠ me := ne_of_mem_of_not_mem hdetached (h.notMem hall (mem_singleton_self me))
  refine ⟨.inl ⟨some_ne_none me, .inr ?_⟩, fun j hj => ?_, fun j hj => ?_⟩
  · exact (update_of_ne hne ..).trans (h.asleep k hdetached).resume
  · cases hj
    exact hpush.notMem_waiting hall (.inr hmem)
  · exact hpush.notMem_waiting hall (.inl hj)

theorem Sorted.preempt (hsorted : Sorted P s) (h : Owned all s [me]) (hall : all.Nodup)
    (hme : s.current = some me) (hkeyed : s.Keyed me) (hpc : s.pc = .preempting)
    (hok : P.OrderOk s .preempt)
    (ht : Preempted P ({ s with switched := none } : State K F) me t) :
    Next P all s .preempt t := by
  have hout : me ∉ s.waiting := fun hmem =>
    h.notMem hall (mem_singleton_self me) (mem_append_left _ hmem)
  have h' : Owned all ({ s with switched := none } : State K F) [me] :=
    h.same rfl rfl rfl rfl rfl h.rep fun _ _ => ⟨rfl, rfl, rfl⟩
  have hpush := h'.pushSelf (P := P) hkeyed
  have hinv : ¬P.Pauses ({ s with switched := none } : State K F) me → Inv all t := fun hpause =>
    (h'.preempt hall hme hkeyed rfl hpause (fun hkey => (hok me hme hkey).2) ht).1
  have hsorted' : (s.coro me).schedKey ≠ 0 →
      Sorted P (P.pushSelf ({ s with switched := none } : State K F) me) := fun hkey =>
    (hsorted.pushSelf hout (hok me hme hkey).1).keeps .same
  have hnever : ∀ k ready, s.ready = k :: ready →
      ∀ j ∈ s.waiting, some (some k) ≠ some (some j) := by
    rintro k ready hready j hj ⟨⟩
    refine h.notMem_waiting hall (.inr ?_) hj
    rw [hready]
    exact mem_cons_self
  cases ht with
  | zeroKey hkey =>
    refine Aside.next ?_ hsorted (.inl (hinv fun hpause => hpause.1 hkey)) _
    exact Keeps.aside .same rfl
  | zeroPiece hkey hzero ht =>
    obtain ⟨hkeeps, hsame⟩ := keeps_startNewCoroutine ht
    refine ⟨.inl (hinv fun hpause => hpause.2.1 hzero),
      (hsorted' hkey).keeps ⟨hkeeps.buffer, hkeeps.len, hkeeps.coro⟩, fun k _ hsw => ?_⟩
    rw [hsame] at hsw
    cases hsw
  | ready hkey hpause hready =>
    refine ⟨.inl (hinv hpause), (hsorted' hkey).keeps .same,
      fun j hj hsw => ?_⟩
    exact absurd hsw (hnever _ _ hready j hj)
  | pause hpause hready =>
    refine ⟨.inr (h'.stuck_pause hall hkeyed hready),
      (hsorted' hpause.1).keeps .same, fun j hj hsw => ?_⟩
    exact absurd hsw (hnever _ _ hready j hj)
  | resolve hkey hroom hzero hready ht =>
    have hlen : 0 < (P.pushSelf ({ s with switched := none } : State K F) me).oooBufferLen :=
      Nat.succ_pos _
    obtain ⟨hres, hsw⟩ := (hsorted' hkey).resolve hpush hlen (hok me hme hkey).2 ht
    refine ⟨.inl (hinv fun hpause => hpause.2.2.1 hready), hres, fun k _ hk => ?_⟩
    rcases hsw with hsame | ⟨hdead, hswitch, hcand⟩
    · rw [hsame] at hk
      cases hk
    · rw [hcand] at hk
      cases hk
      refine ⟨P.pushSelf s me, .preempt hme hpc hkey hroom hzero hready ?_ hswitch⟩
      exact if_neg hdead

theorem Pops.popsFirst (h : Inv all s ∨ Stuck s) (hsorted : Sorted P s) (hall : all.Nodup)
    (hok : P.OrderOk s e) (hpops : Pops P s e u k) : PopsFirst P u k := by
  have hstuck : Stuck s → s.pc ≠ .preempting ∧ ∀ candidate, s.pc ≠ .resolving candidate := by
    intro h
    rcases h.parked with ⟨-, hpc | hpc⟩ | ⟨-, hpc⟩ <;> rw [hpc] <;> simp
  cases hpops with
  | pick _ _ hswitch => exact hsorted.popsFirst hswitch.1
  | @preempt me _ hme hpc hkey _ _ _ hres hswitch =>
    have hinv : Inv all s := h.resolve_right fun h => (hstuck h).1 hpc
    have hfits := hinv.fits
    rw [hpc] at hfits
    obtain ⟨me', hme', hkeyed⟩ := hfits
    obtain rfl : me' = me := some.inj (hme'.symm.trans hme)
    have howned : Owned all s [me'] := by
      have := hinv.owned
      rw [hme] at this
      exact this
    have hlen : 0 < (P.pushSelf s me').oooBufferLen := Nat.succ_pos _
    obtain ⟨hquiet, hwraps⟩ := hok me' hme hkey
    unfold Config.resolved at hres
    split_ifs at hres with hdead
    · -- no coroutine is left to go on with
      exact absurd hswitch ((howned.pushSelf hkeyed).not_switches hlen (hwraps hdead) hdead hres).2
    · cases hres
      refine (hsorted.pushSelf (fun hmem => ?_) hquiet).popsFirst hlen
      exact howned.notMem hall (mem_singleton_self me') (mem_append_left _ hmem)
  | resolve hpc =>
    rcases h with h | h
    · have hfits := h.fits
      rw [hpc] at hfits
      exact hfits.elim
    · exact absurd hpc ((hstuck h).2 _)

variable [DecidableEq F]

theorem Inv.next (h : Inv all s) (hsorted : Sorted P s) (hall : all.Nodup)
    (hme : s.current = some me) (hok : P.OrderOk s e) {pc : Pc K} (hpc : s.pc = pc)
    (ht : P.advance ({ s with switched := none } : State K F) me pc e = some t) :
    Next P all s e t := by
  have howned : Owned all s [me] := by
    have := h.owned
    rw [hme] at this
    exact this
  have hout : me ∉ s.waiting := fun hmem =>
    howned.notMem hall (mem_singleton_self me) (mem_append_left _ hmem)
  have hinv : P.Ok ({ s with switched := none } : State K F) e → Inv all t := fun hok =>
    (h.clear.advance hall hme rfl hok (by rw [← hpc] at ht; exact ht)).1
  have hfits := h.fits
  rw [hpc] at hfits
  cases pc with
  | getNewPiece =>
    cases e <;> try cases ht
    exact Aside.next (aside_getNewPiece hout rfl ht) hsorted (.inl (hinv trivial)) _
  | picking =>
    cases e <;> try cases ht
    exact hsorted.pick howned hall hpc (hinv trivial) ht
  | finishing =>
    cases e <;> try cases ht
    exact Aside.next (aside_finish rfl ht) hsorted (.inl (hinv trivial)) _
  | preempting =>
    obtain ⟨me', hme', hkeyed⟩ := hfits
    obtain rfl : me' = me := some.inj (hme'.symm.trans hme)
    cases e <;> try cases ht
    exact hsorted.preempt howned hall hme hkeyed hpc hok (preempted_preempt ht)
  | piece =>
    cases e <;> try cases ht
    · refine Aside.next ?_ hsorted (.inl (hinv trivial)) _
      exact Keeps.aside .same rfl
    · exact Aside.next (aside_waitForVHandleVal rfl ht) hsorted (.inl (hinv trivial)) _
    · exact Aside.next (aside_waitForFutureValue rfl ht) hsorted (.inl (hinv trivial)) _
  | main => cases e <;> cases ht
  | resolving candidate => exact hfits.elim
  | crashed => exact hfits.elim

theorem Next.step (h : Inv all s ∨ Stuck s) (hsorted : Sorted P s) (hall : all.Nodup)
    (hok : P.OrderOk s e) (ht : P.step s e = some t) : Next P all s e t := by
  have hrun : (s.current.bind fun me => P.advance { s with switched := none } me s.pc e) = some t →
      Next P all s e t := by
    intro ht
    obtain ⟨me, hme, ht⟩ := bind_eq_some_iff.1 ht
    rcases h with h | h
    · exact h.next hsorted hall hme hok rfl ht
    · have hclear : Stuck ({ s with switched := none } : State K F) :=
        h.same .same rfl rfl rfl rfl
      obtain ⟨hstuck, haside⟩ := hclear.advance hme rfl ht
      exact haside.next hsorted (.inr hstuck) e
  have hother : P.Ok s e → Aside ({ s with switched := none } : State K F) t →
      (Stuck s → Stuck t) → Next P all s e t := by
    intro hok haside hstuck
    refine haside.next hsorted ?_ e
    exact h.imp (fun h => (h.step hall hok ht).1) hstuck
  cases e with
  | startCoroExec =>
    refine hother trivial ?_ ?_
    · unfold Config.step at ht
      dsimp only at ht
      split_ifs at ht
      obtain ⟨hkeeps, hsame⟩ := keeps_startNewCoroutine ht
      exact hkeeps.aside hsame
    · intro hstuck
      unfold Config.step at ht
      dsimp only at ht
      split_ifs at ht with hpc
      have hparked := hstuck.parked
      rw [hpc] at hparked
      simp at hparked
  | setReady f =>
    cases ht
    refine hother trivial (aside_setReady rfl f) fun hstuck => ?_
    unfold Config.setReady
    split <;> exact hstuck.same .same rfl rfl rfl rfl
  | add batch =>
    obtain ⟨d, -, rfl⟩ := map_eq_some_iff.1 ht
    refine hother trivial (Keeps.aside .same rfl) fun hstuck => ?_
    exact hstuck.same .same rfl rfl rfl rfl
  | adder =>
    obtain ⟨d, -, rfl⟩ := map_eq_some_iff.1 ht
    refine hother trivial (Keeps.aside .same rfl) fun hstuck => ?_
    exact hstuck.same .same rfl rfl rfl rfl
  | _ => exact hrun ht

/-! ## Runs -/

/-- **The buffer is a heap.** In every run in which the pieces of the coroutines that preempt
themselves get no signals, and the key of the candidate does not wrap around when a deadlock is
resolved, `MinHeapCompare` is a strict weak order of the coroutines in the buffer, the buffer is a
heap in every state and before every pop, and a coroutine of the buffer that goes on is one that no
other precedes. -/
theorem buffer_heaped (P : Config K) (all : List K) (hall : all.Nodup)
    (dispatch ring : ℕ → RoutineRef) (q : ℕ → PriorityQueueHeapEntry)
    (ent : ℕ → PriorityQueueHashEntry) (coro : K → CoroStack) (oooBuffer : ℕ → K)
    (resume : K → Pc K) (evs : List (Event F)) (s : State K F)
    (hok : Along P.step P.OrderOk
      (.init ⟨.init dispatch ring, .empty q ent, []⟩ coro all oooBuffer resume) evs)
    (hrun : run P.step (.init ⟨.init dispatch ring, .empty q ent,
      []⟩ coro all oooBuffer resume) evs = some s) :
    Heaped P s ∧ ∀ e, P.OrderOk s e → (∀ u k, Pops P s e u k → PopsFirst P u k) ∧
      ∀ t k, P.step s e = some t → t.switched = some (some k) → k ∈ s.waiting →
        ∃ u, Pops P s e u k := by
  have h : (Inv all s ∨ Stuck s) ∧ Sorted P s := by
    refine run_invariant (I := fun s => (Inv all s ∨ Stuck s) ∧ Sorted P s) ?_ evs _ s ?_ hok hrun
    · intro s e t h hok ht
      have hnext := Next.step h.1 h.2 hall hok ht
      exact ⟨hnext.inv, hnext.sorted⟩
    · exact ⟨.inl (inv_init all dispatch ring q ent coro oooBuffer resume), .of_empty rfl⟩
  refine ⟨h.2.heaped, fun e hok => ⟨fun u k => Pops.popsFirst h.1 h.2 hall hok, ?_⟩⟩
  intro t k ht hsw hk
  exact (Next.step h.1 h.2 hall hok ht).resumed k hk hsw

instance (P : Config K) (s : State K Unit) (e : Event Unit) : Decidable (P.OrderOk s e) := by
  cases e <;> unfold Config.OrderOk <;> infer_instance

def fourStacks : Config (Fin 4) where
  oooBufferSize := 4
  useSignalFuture := true
  maxNrCoroutine := 4
  fvSignals _ := 0
  less a b := a < b
  maxItem := 8
  limit := 1024

def fourStacksInit : State (Fin 4) Unit :=
  .init ⟨.init (fun _ => ⟨0, 0⟩) fun _ => ⟨0, 0⟩, .empty (fun _ => ⟨0, none⟩) fun _ => ⟨0, []⟩, []⟩
    (fun _ => ⟨0, 0, 0, ⟨0, 0⟩⟩) [0, 1, 2, 3] (fun _ => 0) fun _ => .main

/-- Three coroutines preempt themselves, and the fourth completes its piece. The piece of the second
one arrives last but has the smallest key. -/
def threeWaitRun : List (Event Unit) :=
  let preempted : List (Event Unit) := [.getNewPiece true, .pick, .waitForVHandleVal, .preempt]
  [.add [⟨0, 7⟩, ⟨1, 9⟩, ⟨2, 11⟩]] ++ List.replicate 8 .adder ++ [.startCoroExec] ++ preempted ++
    [.add [⟨3, 5⟩]] ++ List.replicate 6 .adder ++ preempted ++ preempted ++
    [.getNewPiece true, .pick, .complete, .getNewPiece true]

theorem buffer_heaped_threeWaitRun : ∃ s,
    Along fourStacks.step fourStacks.OrderOk fourStacksInit threeWaitRun ∧
    run fourStacks.step fourStacksInit threeWaitRun = some s ∧
    s.waiting = [1, 0, 2] ∧ Pops fourStacks s .pick s 1 ∧ Heaped fourStacks s ∧
      PopsFirst fourStacks s 1 := by
  have hok : Along fourStacks.step fourStacks.OrderOk fourStacksInit threeWaitRun := by
    decide +kernel
  obtain ⟨s, hs, hwaiting, hpc, hready, hswitch, hfront⟩ : ∃ s, run fourStacks.step fourStacksInit
      threeWaitRun = some s ∧ s.waiting = [1, 0, 2] ∧ s.pc = .picking ∧ s.ready = [] ∧
      fourStacks.switches s (s.oooBuffer 0) ∧ s.oooBuffer 0 = 1 := by decide +kernel
  have hpops := Pops.pick hpc hready hswitch
  rw [hfront] at hpops
  obtain ⟨hheaped, hnext⟩ := buffer_heaped fourStacks [0, 1, 2, 3] (by decide) _ _ _ _ _ _ _
    threeWaitRun s hok hs
  exact ⟨s, hok, hs, hwaiting, hpops, hheaped, (hnext .pick trivial).1 s 1 hpops⟩

/-- All pieces get a signal. -/
def signalled : Config Bool := { twoStacks 2 with fvSignals := fun _ => 1 }

/-- Two pieces of one key arrive. The first coroutine has preempted itself, the second is about to
do so. -/
def sameKeyRun : List (Event Unit) :=
  [.add [⟨0, 5⟩, ⟨1, 5⟩]] ++ List.replicate 7 .adder ++ [.startCoroExec, .getNewPiece true, .pick,
    .waitForVHandleVal, .preempt, .getNewPiece true, .pick, .waitForVHandleVal]

/-- Each of the two coroutines precedes the other, and itself. -/
theorem signalled_sameKeyRun : ∃ s u,
    run signalled.step twoStacksInit sameKeyRun = some s ∧ Pops signalled s .preempt u true ∧
      u.waiting = [true, false] ∧ signalled.minHeapCompare u.coro true true = true ∧
      signalled.minHeapCompare u.coro true false = true ∧
      signalled.minHeapCompare u.coro false true = true ∧
      ¬IsHeap (signalled.minHeapCompare u.coro) u.oooBuffer u.oooBufferLen := by
  obtain ⟨s, hs, hcur, hpc, hkey, hroom, hzero, hready, hdead, hswitch, hfront, hnext, hlen,
      hwaiting,
    hself, hfirst, hsecond⟩ : ∃ s, run signalled.step twoStacksInit sameKeyRun =
      some s ∧ s.current = some true ∧ s.pc = .preempting ∧ (s.coro true).schedKey ≠ 0 ∧
      s.oooBufferLen ≠ 2 ∧ ¬s.queues.dispatch.zq.start < s.queues.dispatch.zq.stop ∧ s.ready = [] ∧
      ¬signalled.deadlocked (signalled.pushSelf s true) true ∧ signalled.switches
      (signalled.pushSelf s true) true ∧ (signalled.pushSelf s true).oooBuffer 0 = true ∧
      (signalled.pushSelf s true).oooBuffer 1 = false ∧ (signalled.pushSelf s true).oooBufferLen = 2
      ∧ (signalled.pushSelf s true).waiting = [true, false] ∧ signalled.minHeapCompare
      (signalled.pushSelf s true).coro true true = true ∧ signalled.minHeapCompare
      (signalled.pushSelf s true).coro true false = true ∧ signalled.minHeapCompare
      (signalled.pushSelf s true).coro false true = true := by decide +kernel
  have hpops : Pops signalled s .preempt (signalled.pushSelf s true)
      ((signalled.pushSelf s true).oooBuffer 0) := by
    refine .preempt hcur hpc hkey hroom hzero hready ?_ ?_
    · rw [hfront]
      exact if_neg hdead
    · rw [hfront]
      exact hswitch
  rw [hfront] at hpops
  refine ⟨s, _, hs, hpops, hwaiting, hself, hfirst, hsecond, fun hheap => ?_⟩
  have hchild := hheap 1 Nat.one_pos (by rw [hlen]; exact Nat.one_lt_two)
  rw [show parent 1 = 0 from rfl, hfront, hnext, hfirst] at hchild
  cases hchild

end Felis.Coro.Stacks
