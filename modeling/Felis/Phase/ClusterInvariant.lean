import Felis.Phase.Cluster
import Felis.Phase.Progress

/-!
# The invariant of the cluster

`Inv` says how the nodes, the streams between them and the counter messages fit together: a node is
in a phase of its own model with everything of its earlier phases completed; nothing of a phase is
in a stream before the `StartPhase` message of that phase, and a node has not read more of these
than it has started phases; every item is in one place, and every counter message is written once
and read in its phase. `Inv.step` says that every step of every node keeps it.
-/

namespace Felis.Phase.Cluster

open Finset Runs Sums Function

variable {V C X I : Type}

theorem set₂_apply {A B D : Type} [DecidableEq A] [DecidableEq B] (f : A → B → D) (a a' : A)
    (b b' : B) (x : D) : set₂ f a b x a' b' = if a' = a ∧ b' = b then x else f a' b' := by
  unfold set₂
  by_cases ha : a' = a
  · subst ha
    by_cases hb : b' = b
    · subst hb
      simp
    · simp [hb]
  · simp [ha]

@[simp] theorem set₂_self {A B D : Type} [DecidableEq A] [DecidableEq B] (f : A → B → D) (a : A)
    (b : B) (x : D) : set₂ f a b x a b = x := by
  simp [set₂_apply]

theorem set₂_of_ne {A B D : Type} [DecidableEq A] [DecidableEq B] (f : A → B → D) {a a' : A}
    {b b' : B} (x : D) (h : ¬ (a' = a ∧ b' = b)) : set₂ f a b x a' b' = f a' b' := by
  rw [set₂_apply, if_neg h]

@[simp] theorem mem_others [DecidableEq V] [Fintype V] {d v : V} : v ∈ others d ↔ v ≠ d := by
  simp [others]

/-! ## Streams -/

def Message.isStart : Message I → ℕ
  | .startPhase => 1
  | _ => 0

def starts (l : List (Message I)) : ℕ := (l.map Message.isStart).sum

theorem starts_cons (m : Message I) (l : List (Message I)) :
    starts (m :: l) = m.isStart + starts l := by
  simp [starts]

theorem starts_append (l l' : List (Message I)) : starts (l ++ l') = starts l + starts l' := by
  simp [starts]

theorem starts_frames (l : List I) : starts (l.map Message.frame) = 0 := by
  simp [starts, Message.isStart, Function.comp_def]

namespace Workload

variable (K : Workload V C X I)

def phaseOf : Message I → ℕ
  | .startPhase => 0
  | .counter k => k
  | .frame i => K.phase i

/-- Nothing of a phase comes before the `StartPhase` message of the phase, in a stream from which
`n` of them have been read. -/
def Ordered (n : ℕ) : List (Message I) → Prop
  | [] => True
  | m :: l => K.phaseOf m ≤ n ∧ Ordered (n + m.isStart) l

variable {K}

theorem ordered_append {n : ℕ} {l l' : List (Message I)} :
    K.Ordered n (l ++ l') ↔ K.Ordered n l ∧ K.Ordered (n + starts l) l' := by
  induction l generalizing n with
  | nil => simp [Ordered, starts]
  | cons m l ih =>
    rw [List.cons_append, Ordered, Ordered, ih, and_assoc, starts_cons, ← Nat.add_assoc]

theorem ordered_frames {n : ℕ} {l : List I} (h : ∀ i ∈ l, K.phase i ≤ n) :
    K.Ordered n (l.map .frame) := by
  induction l with
  | nil => trivial
  | cons i l ih => exact ⟨h i (by simp), ih fun j hj => h j (by simp [hj])⟩

section

variable [DecidableEq V] (f : V → V → List (Message I)) (a b src d : V) {l : List (Message I)}

theorem count_write [DecidableEq I] {m : Message I} (hm : m ∉ l) :
    (set₂ f a b (f a b ++ l) src d).count m = (f src d).count m := by
  rw [set₂_apply]
  split_ifs with heq
  · obtain ⟨rfl, rfl⟩ := heq
    rw [List.count_append, List.count_eq_zero.2 hm, add_zero]
  · rfl

theorem mem_write {m : Message I} (hm : m ∈ set₂ f a b (f a b ++ l) src d) :
    m ∈ f src d ∨ (src = a ∧ d = b) ∧ m ∈ l := by
  rw [set₂_apply] at hm
  split_ifs at hm with heq
  · obtain ⟨rfl, rfl⟩ := heq
    exact (List.mem_append.1 hm).imp_right fun h => ⟨⟨rfl, rfl⟩, h⟩
  · exact .inl hm

theorem ordered_write (n : V → V → ℕ) (hf : ∀ src d, K.Ordered (n d src) (f src d))
    (hl : K.Ordered (n b a + starts (f a b)) l) :
    K.Ordered (n d src) (set₂ f a b (f a b ++ l) src d) := by
  rw [set₂_apply]
  split_ifs with heq
  · obtain ⟨rfl, rfl⟩ := heq
    exact ordered_append.2 ⟨hf src d, hl⟩
  · exact hf src d

end

section

variable [DecidableEq V] {f : V → V → List (Message I)} {a b : V} {m : Message I}
  {l : List (Message I)}

theorem count_read [DecidableEq I] (hf : f a b = m :: l) (src d : V) {m' : Message I}
    (hm : m' ≠ m) : (set₂ f a b l src d).count m' = (f src d).count m' := by
  rw [set₂_apply]
  split_ifs with heq
  · obtain ⟨rfl, rfl⟩ := heq
    rw [hf, List.count_cons_of_ne hm.symm]
  · rfl

theorem mem_of_mem_read (hf : f a b = m :: l) {src d : V} {m' : Message I}
    (hm : m' ∈ set₂ f a b l src d) : m' ∈ f src d := by
  rw [set₂_apply] at hm
  split_ifs at hm with heq
  · obtain ⟨rfl, rfl⟩ := heq
    rw [hf]
    exact List.mem_cons_of_mem m hm
  · exact hm

theorem starts_read (hf : f a b = m :: l) (hm : m.isStart = 0) (src d : V) :
    starts (set₂ f a b l src d) = starts (f src d) := by
  rw [set₂_apply]
  split_ifs with heq
  · obtain ⟨rfl, rfl⟩ := heq
    rw [hf, starts_cons, hm, Nat.zero_add]
  · rfl

theorem ordered_read {n : V → V → ℕ} (hf : f a b = m :: l)
    (hord : ∀ src d, K.Ordered (n d src) (f src d)) (hm : m.isStart = 0) (src d : V) :
    K.Ordered (n d src) (set₂ f a b l src d) := by
  have hold := hord src d
  rw [set₂_apply]
  split_ifs with heq
  · obtain ⟨rfl, rfl⟩ := heq
    rw [hf, Ordered, hm] at hold
    exact hold.2
  · exact hold

end

theorem mem_current [DecidableEq V] [Fintype V] {s : State V C X I} {i : I} {d : V} :
    i ∈ (K.current s d).items ↔ K.phase i = s.phase d ∧ K.dst i = d :=
  K.mem_items i (s.phase d) d

/-- The counters of phase `k` have not been received. -/
def awaiting (s : State V C X I) (d src : V) (k : ℕ) : Bool :=
  decide (s.phase d < k) || (decide (s.phase d = k) && !(s.node d).applied src)

theorem awaiting_setNode [DecidableEq V] (s : State V C X I) (d e v : V)
    (n : Phase.State V C X I) (k : ℕ) :
    awaiting (setNode s d n) e v k = (decide (s.phase e < k) ||
      (decide (s.phase e = k) && !(update s.node d n e).applied v)) := rfl

end Workload

/-! ## Buffers -/

section

variable [DecidableEq V] [DecidableEq C]

/-- What is in the buffers of a node for a node, after one of them has changed. -/
theorem sum_count_buffer [Fintype C] [DecidableEq I] (f : C → V → List I) (c : C) (b d : V)
    (l : List I) (i : I) :
    ∑ e, (set₂ f c b l e d).count i + (f c d).count i =
      ∑ e, (f e d).count i + (update (f c) b l d).count i :=
  sum_update_add univ (fun _ g => (g d).count i) f (mem_univ c) (update (f c) b l)

theorem mem_of_mem_buffer {f : V → C → V → List I} {d src v : V} {c e : C} {l : List I}
    (hl : l ⊆ f d c v) {w : V} {i : I} (hi : i ∈ update f d (set₂ (f d) c v l) src e w) :
    i ∈ f src e w := by
  by_cases hsrc : src = d
  · subst hsrc
    rw [update_self, set₂_apply] at hi
    split_ifs at hi with heq
    · obtain ⟨rfl, rfl⟩ := heq
      exact hl hi
    · exact hi
  · rwa [update_of_ne hsrc] at hi

end

/-! ## The invariants -/

variable [DecidableEq V] [DecidableEq C] [DecidableEq X] [Fintype C]

/-- While not all cores have flushed their plans, one has not. -/
theorem exists_unflushed {P : Plan V C X I} {n : Phase.State V C X I} (h : Running P n)
    (hlt : n.batchCompleted < Fintype.card C) : ∃ c, (n.stage c).flushed = false := by
  by_contra hall
  have hone : ∀ c, (n.stage c).flushed = true := fun c => by
    by_contra hc
    exact hall ⟨c, by simpa using hc⟩
  have hbatch := h.batch
  simp only [hone, Bool.toNat_true, sum_const, card_univ, smul_eq_mul, mul_one] at hbatch
  omega

variable [Fintype V]

namespace Workload

variable (K : Workload V C X I) (s : State V C X I)

/-- The core that has planned the item has flushed its plan. -/
def PlannerFlushed (i : I) : Prop :=
  K.phase i < s.phase (K.planner i).1 ∨ (K.phase i = s.phase (K.planner i).1 ∧
    ((s.node (K.planner i).1).stage (K.planner i).2).flushed = true)

/-- The nodes: each is in its own phase, with everything of the earlier phases completed. -/
structure NodesInv : Prop where
  running : ∀ d, (s.phase d = 0 ∧ s.node d = .init) ∨ Running (K.current s d) (s.node d)
  sending : ∀ d todo, s.control d = .sending todo → (s.node d).comp = 0
  past : ∀ i, K.phase i < s.phase (K.dst i) → (s.node (K.dst i)).status i = .completed
  arrived : ∀ i, s.place i ≠ .queued → (s.node (K.dst i)).status i = .waiting
  queued : ∀ i, s.place i = .queued → K.phase i ≤ s.phase (K.dst i)
  issued : ∀ i, s.place i ≠ .unissued → K.phase i ≤ s.phase (K.source i) ∧ K.PlannerFlushed s i

variable {K} {s} {i : I}

theorem started_le (h : K.NodesInv s) (hi : (s.node (K.dst i)).status i ≠ .waiting) :
    K.phase i ≤ s.phase (K.dst i) :=
  h.queued i (by_contra fun hq => hi (h.arrived i hq))

/-- An item that is in a queue and has not been executed is one of the current phase. -/
theorem phase_of_waiting (h : K.NodesInv s) (hq : K.phase i ≤ s.phase (K.dst i))
    (hi : (s.node (K.dst i)).status i ≠ .completed) : K.phase i = s.phase (K.dst i) :=
  le_antisymm hq (not_lt.1 fun hlt => hi (h.past i hlt))

end Workload

/-- The channel waits for a `StartPhase` message. -/
def pending : Inbound.Status → ℕ
  | .pollMappingTable => 1
  | _ => 0

/-- The node has been sent the `StartPhase` message of the phase that is about to start. -/
def Control.told (d : V) : Control V → Bool
  | .sending todo => decide (d ∉ todo)
  | _ => false

variable [DecidableEq I]

namespace Workload

variable (K : Workload V C X I) (s : State V C X I)

structure StreamsInv : Prop where
  seen_le : ∀ d src, s.seen d src + pending (s.channel d src) ≤ s.phase d
  continuing : ∀ d todo src, s.control d = .continuing todo → src ∈ todo →
    s.seen d src + pending (s.channel d src) < s.phase d
  total : ∀ src d, src ≠ d →
    s.seen d src + starts (s.stream src d) = s.phase src + ((s.control src).told d).toNat
  ordered : ∀ src d, K.Ordered (s.seen d src) (s.stream src d)
  frames : ∀ src d i, .frame i ∈ s.stream src d → K.source i = src ∧ K.dst i = d
  buffered : ∀ src c d i, i ∈ s.buffer src c d → K.source i = src ∧ K.dst i = d ∧ src ≠ d
  once : ∀ i, (s.stream (K.source i) (K.dst i)).count (.frame i) +
    ∑ c, (s.buffer (K.source i) c (K.dst i)).count i = (decide (s.place i = .sent)).toNat

/-- The counters of phase `k` have not been sent. -/
def unsent (src d : V) (k : ℕ) : Bool :=
  decide (s.phase src < k) || (decide (s.phase src = k) && decide (d ∈ s.announcing src))

/-- The counter messages: each is written once and read once. -/
structure CountersInv : Prop where
  balance : ∀ src d k, src ≠ d → 1 ≤ k →
    (s.stream src d).count (.counter k) + (unsent s src d k).toNat = (awaiting s d src k).toNat
  announcing : ∀ d, (s.announcing d).Nonempty → ∃ c, ((s.node d).stage c).flushed = false ∨
    (s.node d).stage c = .issued true
  others : ∀ d, ∀ v ∈ s.announcing d, v ≠ d ∧ 1 ≤ s.phase d
  sent : ∀ src d k, .counter k ∈ s.stream src d → src ≠ d ∧ 1 ≤ k

/-- **The invariant of the cluster.** -/
structure Inv : Prop where
  nodes : K.NodesInv s
  streams : K.StreamsInv s
  counters : CountersInv s

theorem inv_init : K.Inv State.init := by
  refine ⟨⟨fun d => .inl ⟨rfl, rfl⟩, ?_, ?_, fun i _ => rfl, ?_, ?_⟩, ⟨fun d src => le_rfl, ?_, ?_,
    fun src d => trivial, ?_, ?_, ?_⟩, ⟨?_, ?_, ?_, ?_⟩⟩
  · intro d todo h
    cases h
  · intro i h
    exact absurd h (Nat.not_lt_zero _)
  · intro i h
    cases h
  · intro i h
    exact absurd rfl h
  · intro d todo src h
    cases h
  · intro src d _
    rfl
  · intro src d i h
    cases h
  · intro src c d i h
    cases h
  · intro i
    simp [State.init]
  · intro src d k _ hk
    have : 0 < k := hk
    simp [State.init, unsent, awaiting, this]
  · intro d h
    exact absurd h not_nonempty_empty
  · intro d v hv
    exact absurd hv (notMem_empty v)
  · intro src d k h
    cases h

/-! ## Steps of a node -/

variable {K} {s} {t : State V C X I} {i : I} {d src : V} {n : Phase.State V C X I} {c : C}
  {rest : List (Message I)}

theorem running_of_waiting (h : K.Inv s) (hq : K.phase i ≤ s.phase (K.dst i)) :
    Running (K.current s (K.dst i)) (s.node (K.dst i)) := by
  rcases h.nodes.running (K.dst i) with ⟨hzero, -⟩ | hrun
  · have := K.phase_pos i
    omega
  · exact hrun

/-- A queued item can be executed: it belongs to the phase, and its planner has flushed its plan. -/
theorem issuable_of_queued (h : K.Inv s) (hplace : s.place i ≠ .unissued)
    (hq : K.phase i ≤ s.phase (K.dst i)) (hwait : (s.node (K.dst i)).status i = .waiting) :
    (K.current s (K.dst i)).issuable (s.node (K.dst i)) i := by
  have hphase := phase_of_waiting h.nodes hq (by rw [hwait]; simp)
  refine ⟨mem_current.2 ⟨hphase, rfl⟩, hwait, fun c hc => ?_⟩
  simp only [current, plan] at hc
  split_ifs at hc with hd
  cases hc
  rcases (h.nodes.issued i hplace).2 with hlt | ⟨-, hf⟩
  · rw [hd] at hlt
    omega
  · rwa [hd] at hf

section

variable (hK : ∀ k d, ∀ v ∈ Cluster.others d, (K.plan k d).planned (.inl v) < kMaxPiecesPerPhase)
  {ev : Phase.Event V C I}
include hK

theorem NodesInv.move (h : K.NodesInv s) (hrun : Running (K.current s d) (s.node d))
    (hmove : (K.current s d).Move (s.node d) ev n)
    (hstart : ∀ i c, ev = .start i c ∨ ev = .receive i c → s.place i = .queued) :
    K.NodesInv (setNode s d n) := by
  have hnode : ∀ e, e ≠ d → (setNode s d n).node e = s.node e := fun e he =>
    update_of_ne he _ _
  have hself : (setNode s d n).node d = n := update_self _ _ _
  refine ⟨fun e => ?_, fun e todo he => ?_, fun i hi => ?_, fun i hi => ?_, h.queued,
    fun i hi => ⟨(h.issued i hi).1, ?_⟩⟩
  · by_cases hed : e = d
    · subst hed
      rw [hself]
      exact .inr (hrun.move (hK _ _) hmove)
    · rw [hnode e hed]
      exact h.running e
  · by_cases hed : e = d
    · -- the node has nothing left to do while it sends `StartPhase`
      subst hed
      have hover := hrun.over_of_comp_eq_zero (hK _ _) (h.sending e todo he)
      exact absurd hmove (Running.Over.not_move hrun hover)
    · rw [hnode e hed]
      exact h.sending e todo he
  · by_cases hd : K.dst i = d
    · rw [hd, hself]
      refine hmove.completed ?_
      rw [← hd]
      exact h.past i hi
    · rw [hnode _ hd]
      exact h.past i hi
  · by_cases hd : K.dst i = d
    · have hwait := h.arrived i hi
      rw [hd] at hwait ⊢
      rw [hself]
      exact hmove.waiting hwait (fun c hc => hi (hstart i c (.inl hc)))
        fun c hc => hi (hstart i c (.inr hc))
    · rw [hnode _ hd]
      exact h.arrived i hi
  · refine (h.issued i hi).2.imp_right fun ⟨hp, hf⟩ => ⟨hp, ?_⟩
    by_cases hd : (K.planner i).1 = d
    · rw [hd] at hf ⊢
      rw [hself]
      exact hmove.flushed hf
    · rw [hnode _ hd]
      exact hf

theorem CountersInv.announcing_move (h : CountersInv s) (hrun : Running (K.current s d) (s.node d))
    (hmove : (K.current s d).Move (s.node d) ev n) (hworker : ∀ c, ev = .workerComplete c →
      (s.node d).stage c = .issued false ∨ s.announcing d = ∅)
    (hne : (s.announcing d).Nonempty) :
    ∃ c, (n.stage c).flushed = false ∨ n.stage c = .issued true := by
  have hrun' := hrun.move (hK _ _) hmove
  obtain ⟨c, hc⟩ := h.announcing d hne
  have hset : ∀ {st : Stage} {e : C}, c ≠ e → update (s.node d).stage e st c =
      (s.node d).stage c := fun hce => update_of_ne hce _ _
  cases hmove with
  | @flushIndex e pos x hst hx =>
    refine ⟨c, ?_⟩
    by_cases hce : c = e
    · subst hce
      simp [Plan.setStage]
    · simpa [Plan.setStage, hset hce] using hc
  | @flushEnd e pos hst hpos =>
    by_cases hlast : Fintype.card C ≤ (s.node d).batchCompleted + 1
    · exact ⟨e, .inr (by simp [Plan.setStage, hlast])⟩
    · obtain ⟨c', hc'⟩ := exists_unflushed hrun' (not_le.1 hlast)
      exact ⟨c', .inl hc'⟩
  | @workerComplete e last hst =>
    refine ⟨c, ?_⟩
    have hce : c ≠ e := by
      rintro rfl
      rcases hworker c rfl with hfalse | hempty
      · rw [hfalse] at hc
        simp at hc
      · rw [hempty] at hne
        exact not_nonempty_empty hne
    simpa [Plan.setStage, Phase.State.complete, hset hce] using hc
  | @extraComplete e hst =>
    refine ⟨c, ?_⟩
    have hce : c ≠ e := by
      rintro rfl
      rw [hst] at hc
      simp at hc
    simpa [Plan.setStage, Phase.State.complete, hset hce] using hc
  | counterMessage hv happ => exact ⟨c, hc⟩
  | start hi => exact ⟨c, hc⟩
  | finish hst => exact ⟨c, hc⟩
  | receive hi => exact ⟨c, hc⟩
  | peek hd => exact ⟨c, hc⟩

theorem CountersInv.move (h : CountersInv s) (hrun : Running (K.current s d) (s.node d))
    (hmove : (K.current s d).Move (s.node d) ev n) (hev : ∀ v c, ev ≠ .counterMessage v c)
    (hworker : ∀ c, ev = .workerComplete c →
      (s.node d).stage c = .issued false ∨ s.announcing d = ∅) :
    CountersInv (setNode s d n) := by
  have happ : ∀ e, ((setNode s d n).node e).applied = (s.node e).applied := fun e => by
    by_cases hed : e = d
    · subst hed
      simp [setNode, hmove.applied_eq hev]
    · simp [setNode, update_of_ne hed]
  refine ⟨fun src e k hne hk => ?_, fun e hne => ?_, h.others, h.sent⟩
  · have := h.balance src e k hne hk
    unfold awaiting at this ⊢
    rw [happ e]
    exact this
  · by_cases hed : e = d
    · subst hed
      simp only [setNode, update_self]
      exact h.announcing_move hK hrun hmove hworker hne
    · simp only [setNode, update_of_ne hed]
      exact h.announcing e hne

theorem Inv.move (h : K.Inv s) (hrun : Running (K.current s d) (s.node d))
    (hmove : (K.current s d).Move (s.node d) ev n)
    (hstart : ∀ i c, ev = .start i c ∨ ev = .receive i c → s.place i = .queued)
    (hev : ∀ v c, ev ≠ .counterMessage v c) (hworker : ∀ c, ev = .workerComplete c →
      (s.node d).stage c = .issued false ∨ s.announcing d = ∅) : K.Inv (setNode s d n) :=
  ⟨h.nodes.move hK hrun hmove hstart, { h.streams with }, h.counters.move hK hrun hmove hev hworker⟩

theorem Inv.onNode (h : K.Inv s) (ht : K.step s (d, .onNode ev) = some t) : K.Inv t := by
  simp only [step] at ht
  split_ifs at ht with hon
  obtain ⟨n, hn, rfl⟩ := Option.map_eq_some_iff.1 ht
  rcases h.nodes.running d with ⟨-, hinit⟩ | hrun
  · rw [hinit] at hn
    cases ev with
    | callTxns => cases hon
    | flushIndex | flushEnd | workerComplete | extraComplete | counterMessage | start | finish
    | receive | peek => cases hn
  · rw [Plan.step_of_begun _ hrun.begun] at hn
    refine h.move hK hrun (Plan.move_of_stepBegun hn) ?_ ?_ ?_
    · rintro i c (rfl | rfl)
      · cases hon
      · cases hon
    · rintro v c rfl
      cases hon
    · rintro c rfl
      simp only [isOnNode, Bool.and_eq_true, Bool.or_eq_true, decide_eq_true_eq] at hon
      exact hon.2

theorem Inv.start (h : K.Inv s) (ht : K.step s (d, .start i c) = some t) : K.Inv t := by
  simp only [step] at ht
  split_ifs at ht with hi
  cases ht
  obtain ⟨rfl, -, hplace, hwait⟩ := hi
  have hq := h.nodes.queued i hplace
  have hun : s.place i ≠ .unissued := by rw [hplace]; simp
  refine h.move hK (running_of_waiting h hq)
    (.start (issuable_of_queued h hun hq hwait)) ?_ (by simp) (by simp)
  rintro j e (hj | hj)
  · cases hj
    exact hplace
  · cases hj

theorem Inv.finish (h : K.Inv s) (ht : K.step s (d, .finish i) = some t) : K.Inv t := by
  simp only [step] at ht
  split at ht
  next c hst =>
    cases ht
    rcases h.nodes.running d with ⟨-, hinit⟩ | hrun
    · rw [hinit] at hst
      cases hst
    · exact h.move hK hrun (.finish hst) (by simp) (by simp) (by simp)
  next => cases ht

end

/-! ## `CallTxns` -/

theorem Inv.setControl (h : K.Inv s) {c : Control V}
    (hsending : ∀ todo, c = .sending todo → (s.node d).comp = 0)
    (hcont : ∀ todo src, c = .continuing todo → src ∈ todo →
      s.seen d src + pending (s.channel d src) < s.phase d)
    (htold : ∀ e, e ≠ d → c.told e = (s.control d).told e) :
    K.Inv { s with control := update s.control d c } := by
  refine ⟨{ h.nodes with sending e todo he := ?_ },
    { h.streams with continuing e todo src he := ?_, total src e hne := ?_ }, { h.counters with }⟩
  · by_cases hed : e = d
    · subst hed
      exact hsending todo (by simpa using he)
    · exact h.nodes.sending e todo (by simpa [hed] using he)
  · by_cases hed : e = d
    · subst hed
      exact hcont todo src (by simpa using he)
    · exact h.streams.continuing e todo src (by simpa [hed] using he)
  · have htotal := h.streams.total src e hne
    by_cases hsd : src = d
    · subst hsd
      simpa [htold e hne.symm] using htotal
    · simpa [hsd] using htotal

theorem Inv.setChannel (h : K.Inv s) {st : Inbound.Status}
    (hle : s.seen d src + pending st ≤ s.phase d)
    (hcont : ∀ todo, s.control d = .continuing todo → src ∈ todo →
      s.seen d src + pending st < s.phase d) :
    K.Inv { s with channel := set₂ s.channel d src st } := by
  refine ⟨{ h.nodes with }, { h.streams with seen_le e v := ?_, continuing e todo v he hv := ?_ },
    { h.counters with }⟩
  · by_cases hev : e = d ∧ v = src
    · obtain ⟨rfl, rfl⟩ := hev
      simpa using hle
    · simpa [set₂_of_ne _ _ hev] using h.streams.seen_le e v
  · by_cases hev : e = d ∧ v = src
    · obtain ⟨rfl, rfl⟩ := hev
      simpa using hcont todo he hv
    · simpa [set₂_of_ne _ _ hev] using h.streams.continuing e todo v he hv

theorem Inv.callTxns (h : K.Inv s) (ht : K.step s (d, .callTxns) = some t) : K.Inv t := by
  simp only [step] at ht
  split_ifs at ht with hc
  cases ht
  refine h.setControl (fun _ _ => hc.2) ?_ fun e hed => ?_
  · rintro todo src hcont
    cases hcont
  · rw [hc.1]
    simp [Control.told, hed]

theorem Inv.wakeWorkers (h : K.Inv s) (ht : K.step s (d, .wakeWorkers) = some t) : K.Inv t := by
  simp only [step] at ht
  split_ifs at ht with hc
  cases ht
  refine h.setControl ?_ ?_ fun e _ => ?_
  · rintro todo hsend
    cases hsend
  · rintro todo src hcont
    cases hcont
  · rw [hc]
    rfl

theorem Inv.continueInbound (h : K.Inv s) (ht : K.step s (d, .continueInbound src) = some t) :
    K.Inv t := by
  simp only [step] at ht
  split at ht
  next todo hc =>
    split_ifs at ht with hsrc
    cases ht
    have hlt := h.streams.continuing d todo src hc hsrc.1
    have hcontrol : K.Inv { s with
        control := update s.control d (.continuing (todo.erase src)) } := by
      refine h.setControl ?_ ?_ fun e _ => ?_
      · rintro todo' hsend
        cases hsend
      · rintro todo' v hcont hv
        cases hcont
        exact h.streams.continuing d todo v hc (mem_of_mem_erase hv)
      · rw [hc]
        rfl
    rw [hsrc.2] at hlt ⊢
    refine hcontrol.setChannel (Nat.succ_le_of_lt hlt) ?_
    -- the channel is not one of those still to be continued
    intro todo' hcont hv
    simp only [update_self, Control.continuing.injEq] at hcont
    subst hcont
    exact absurd hv (notMem_erase src todo)
  next => cases ht

theorem Inv.endOfPhase (h : K.Inv s) (ht : K.step s (d, .endOfPhase src) = some t) : K.Inv t := by
  simp only [step] at ht
  split_ifs at ht with hst
  cases ht
  have hpending : pending (s.channel d src).advance = pending (s.channel d src) := by
    rw [hst]
    rfl
  refine h.setChannel ?_ fun todo hcont hsrc => ?_
  · rw [hpending]
    exact h.streams.seen_le d src
  · rw [hpending]
    exact h.streams.continuing d todo src hcont hsrc

section

variable (hK : ∀ k d, ∀ v ∈ Cluster.others d, (K.plan k d).planned (.inl v) < kMaxPiecesPerPhase)
  {todo : Finset V}
include hK

variable (h : K.Inv s)

include h

theorem Inv.over_or_init (hc : s.control d = .sending todo) :
    (s.phase d = 0 ∧ s.node d = .init) ∨
      (Running (K.current s d) (s.node d) ∧ Running.Over (K.current s d) (s.node d)) :=
  (h.nodes.running d).imp_right fun hrun =>
    ⟨hrun, hrun.over_of_comp_eq_zero (hK _ _) (h.nodes.sending d todo hc)⟩

/-- The node is ready for its next phase. -/
theorem Inv.idle (hc : s.control d = .sending todo) :
    Idle (K.plan (s.phase d + 1) d) (s.node d) := by
  refine ⟨h.nodes.sending d todo hc, fun c => ?_, fun i hi => ?_, fun i c hi => ?_⟩
  · rcases h.over_or_init hK hc with ⟨-, hinit⟩ | ⟨-, hover⟩
    · rw [hinit]
      rfl
    · exact hover.counters c
  · by_contra hne
    obtain ⟨hphase, rfl⟩ := (K.mem_items i _ d).1 hi
    have := started_le h.nodes hne
    omega
  · rcases h.over_or_init hK hc with ⟨-, hinit⟩ | ⟨hrun, hover⟩
    · rw [hinit] at hi
      cases hi
    · rw [hover.items i (hrun.items i c hi)] at hi
      cases hi

theorem Inv.completed_of_sending (hc : s.control (K.dst i) = .sending todo)
    (hi : K.phase i ≤ s.phase (K.dst i)) : (s.node (K.dst i)).status i = .completed := by
  rcases Nat.lt_or_eq_of_le hi with hlt | heq
  · exact h.nodes.past i hlt
  · rcases h.over_or_init hK hc with ⟨hzero, -⟩ | ⟨-, hover⟩
    · have := K.phase_pos i
      omega
    · exact hover.items i (mem_current.2 ⟨heq, rfl⟩)

theorem Inv.announcing_eq_empty (hc : s.control d = .sending todo) : s.announcing d = ∅ := by
  by_contra hne
  obtain ⟨v, hv⟩ := nonempty_iff_ne_empty.2 hne
  rcases h.over_or_init hK hc with ⟨hzero, -⟩ | ⟨-, hover⟩
  · have := (h.counters.others d v hv).2
    omega
  · obtain ⟨c, hst⟩ := h.counters.announcing d ⟨v, hv⟩
    rw [hover.workers c] at hst
    simp at hst

theorem Inv.applied_of_sending (hc : s.control d = .sending todo) (hsrc : src ≠ d)
    (hpos : 1 ≤ s.phase d) : (s.node d).applied src = true := by
  rcases h.over_or_init hK hc with ⟨hzero, -⟩ | ⟨-, hover⟩
  · omega
  · exact hover.applied src (mem_others.2 hsrc)

theorem NodesInv.increment [Nonempty C] (hc : s.control d = .sending ∅)
    (ht : K.step s (d, .increment) = some t) : K.NodesInv t := by
  simp only [step, hc, if_true] at ht
  cases ht
  have hle : ∀ e, s.phase e ≤ update s.phase d (s.phase d + 1) e := fun e => by
    by_cases hed : e = d
    · subst hed
      simp
    · simp [hed]
  have hstatus : ∀ e, (update s.node d
      ((K.plan (s.phase d + 1) d).callTxns (s.node d)) e).status = (s.node e).status := fun e => by
    by_cases hed : e = d
    · subst hed
      simp [Plan.callTxns]
    · simp [hed]
  refine ⟨fun e => ?_, fun e todo he => ?_, fun i hi => ?_, fun i hi => ?_,
    fun i hi => (h.nodes.queued i hi).trans (hle _), fun i hi => ?_⟩
  · by_cases hed : e = d
    · subst hed
      right
      simpa [current] using (h.idle hK hc).callTxns
    · simpa [current, hed] using h.nodes.running e
  · by_cases hed : e = d
    · subst hed
      simp at he
    · simpa [hed] using h.nodes.sending e todo (by simpa [hed] using he)
  · simp only [hstatus]
    by_cases hd : K.dst i = d
    · subst hd
      simp only [update_self] at hi
      exact h.completed_of_sending hK hc (Nat.le_of_lt_succ hi)
    · exact h.nodes.past i (by simpa [hd] using hi)
  · simp only [hstatus]
    exact h.nodes.arrived i hi
  · obtain ⟨hphase, hflushed⟩ := h.nodes.issued i hi
    refine ⟨hphase.trans (hle _), ?_⟩
    by_cases hd : (K.planner i).1 = d
    · left
      have : K.phase i ≤ s.phase d := by
        rw [← hd]
        exact hflushed.elim le_of_lt fun hf => hf.1.le
      simp only [hd, update_self]
      omega
    · simpa [PlannerFlushed, hd] using hflushed

theorem CountersInv.increment [Nonempty C] (hc : s.control d = .sending ∅)
    (ht : K.step s (d, .increment) = some t) : CountersInv t := by
  simp only [step, hc, if_true] at ht
  cases ht
  refine ⟨fun src e k hne hk => ?_, fun e hne => ?_, fun e v hv => ?_, h.counters.sent⟩
  · have hbalance := h.counters.balance src e k hne hk
    have hunsent : unsent { s with
        phase := update s.phase d (s.phase d + 1)
        announcing := update s.announcing d (Cluster.others d) } src e k =
        unsent s src e k := by
      by_cases hsd : src = d
      · subst hsd
        have hlt : s.phase src < k ↔ s.phase src + 1 < k ∨ s.phase src + 1 = k := by omega
        simp [unsent, h.announcing_eq_empty hK hc, hne.symm, hlt]
      · simp [unsent, hsd]
    have hawaiting : awaiting { s with
        phase := update s.phase d (s.phase d + 1)
        node := update s.node d ((K.plan (s.phase d + 1) d).callTxns (s.node d)) }
        e src k = awaiting s e src k := by
      by_cases hed : e = d
      · subst hed
        have hlt : s.phase e < k ↔ s.phase e + 1 < k ∨ s.phase e + 1 = k := by omega
        by_cases hpk : s.phase e = k
        · have happ := h.applied_of_sending hK hc hne (hpk ▸ hk)
          have hlt' : ¬ k + 1 < k := by omega
          simp [awaiting, hpk, happ, hlt']
        · simp [awaiting, hpk, Plan.callTxns, hlt]
      · simp [awaiting, hed]
    rw [← hunsent, ← hawaiting] at hbalance
    exact hbalance
  · by_cases hed : e = d
    · subst hed
      obtain ⟨c⟩ := ‹Nonempty C›
      exact ⟨c, .inl (by simp [Plan.callTxns])⟩
    · simpa [hed] using h.counters.announcing e (by simpa [hed] using hne)
  · by_cases hed : e = d
    · subst hed
      simpa using hv
    · simpa [hed] using h.counters.others e v (by simpa [hed] using hv)

theorem Inv.increment [Nonempty C] (ht : K.step s (d, .increment) = some t) : K.Inv t := by
  have hc : s.control d = .sending ∅ := by
    by_contra hc
    simp [step, hc] at ht
  refine ⟨NodesInv.increment hK h hc ht, ?_, CountersInv.increment hK h hc ht⟩
  simp only [step, hc, if_true] at ht
  cases ht
  refine ⟨fun e src => ?_, fun e todo src he hsrc => ?_, fun src e hne => ?_, h.streams.ordered,
    h.streams.frames, h.streams.buffered, h.streams.once⟩
  · have hle := h.streams.seen_le e src
    by_cases hed : e = d
    · subst hed
      simp only [update_self]
      omega
    · simpa [hed] using hle
  · by_cases hed : e = d
    · subst hed
      simpa using Nat.lt_succ_of_le (h.streams.seen_le e src)
    · simpa [hed] using h.streams.continuing e todo src (by simpa [hed] using he) hsrc
  · have htotal := h.streams.total src e hne
    by_cases hsd : src = d
    · -- everyone has been told
      subst hsd
      simpa [hc, Control.told] using htotal
    · simpa [hsd] using htotal

end

omit [DecidableEq C] [DecidableEq X] [Fintype V] in
/-- What a node writes of a phase that it has started comes after the `StartPhase` message. -/
theorem StreamsInv.phase_le (h : K.StreamsInv s) {src d : V} (hne : src ≠ d) :
    s.phase src ≤ s.seen d src + starts (s.stream src d) := by
  rw [h.total src d hne]
  exact Nat.le_add_right _ _

theorem Inv.sendStartPhase (h : K.Inv s) {d dest : V}
    (ht : K.step s (d, .sendStartPhase dest) = some t) : K.Inv t := by
  simp only [step] at ht
  split at ht
  next todo hc =>
    split_ifs at ht with hdest
    cases ht
    refine ⟨{ h.nodes with sending e todo' he := ?_ }, { h.streams with
        continuing e todo' src he := ?_, total src e hne := ?_, ordered src e := ?_,
        frames src e i hi := ?_, once i := ?_ },
      { h.counters with balance src e k hne hk := ?_, sent src e k hk := ?_ }⟩
    · by_cases hed : e = d
      · subst hed
        exact h.nodes.sending e todo hc
      · exact h.nodes.sending e todo' (by simpa [hed] using he)
    · by_cases hed : e = d
      · subst hed
        simp at he
      · exact h.streams.continuing e todo' src (by simpa [hed] using he)
    · have htotal := h.streams.total src e hne
      by_cases hsd : src = d
      · subst hsd
        by_cases hed : e = dest
        · subst hed
          simp only [set₂_self, update_self, starts_append]
          simp only [hc, Control.told, hdest] at htotal ⊢
          simp [starts, Message.isStart] at htotal ⊢
          omega
        · simpa [set₂_apply, hed, hc, Control.told] using htotal
      · simpa [set₂_apply, hsd] using htotal
    · exact ordered_write _ _ _ _ _ s.seen h.streams.ordered ⟨Nat.zero_le _, trivial⟩
    · rcases mem_write _ _ _ _ _ hi with hi | ⟨-, hi⟩
      · exact h.streams.frames src e i hi
      · simp at hi
    · have := h.streams.once i
      rwa [← count_write s.stream d dest _ _ (l := [.startPhase]) (by simp)] at this
    · have := h.counters.balance src e k hne hk
      rwa [← count_write s.stream d dest _ _ (l := [.startPhase]) (by simp)] at this
    · rcases mem_write _ _ _ _ _ hk with hk | ⟨-, hk⟩
      · exact h.counters.sent src e k hk
      · simp at hk
  next => cases ht

theorem Inv.sendCounters (h : K.Inv s) {d dest : V}
    (ht : K.step s (d, .sendCounters dest) = some t) : K.Inv t := by
  simp only [step] at ht
  split_ifs at ht with hdest
  cases ht
  obtain ⟨hne, hpos⟩ := h.counters.others d dest hdest.2
  refine ⟨{ h.nodes with }, { h.streams with
      total src e hse := ?_, ordered src e := ?_, frames src e i hi := ?_, once i := ?_ },
    ⟨fun src e k hse hk => ?_, fun e he => ?_, fun e v hv => ?_, fun src e k hk => ?_⟩⟩
  · have htotal := h.streams.total src e hse
    by_cases hed : src = d ∧ e = dest
    · obtain ⟨rfl, rfl⟩ := hed
      simpa [starts_append, starts, Message.isStart] using htotal
    · simpa [set₂_of_ne _ _ hed] using htotal
  · exact ordered_write _ _ _ _ _ s.seen h.streams.ordered
      ⟨h.streams.phase_le hne.symm, trivial⟩
  · rcases mem_write _ _ _ _ _ hi with hi | ⟨-, hi⟩
    · exact h.streams.frames src e i hi
    · simp at hi
  · have := h.streams.once i
    rwa [← count_write s.stream d dest _ _ (l := [.counter (s.phase d)]) (by simp)] at this
  · have hbalance := h.counters.balance src e k hse hk
    by_cases hkd : k = s.phase d
    · subst hkd
      by_cases hsd : src = d
      · subst hsd
        by_cases hed : e = dest
        · -- this is the message
          subst hed
          simpa [unsent, awaiting, List.count_append, hdest.2] using hbalance
        · simpa [unsent, awaiting, set₂_apply, hed] using hbalance
      · simpa [unsent, awaiting, set₂_apply, hsd] using hbalance
    · have hk' : Message.counter k ∉ [Message.counter (I := I) (s.phase d)] := by simpa using hkd
      have hunsent : unsent { s with
          announcing := update s.announcing d ((s.announcing d).erase dest) } src e k =
          unsent s src e k := by
        by_cases hsd : src = d
        · subst hsd
          simp [unsent, Ne.symm hkd]
        · simp [unsent, hsd]
      rw [← count_write s.stream d dest _ _ hk', ← hunsent] at hbalance
      exact hbalance
  · refine h.counters.announcing e ?_
    by_cases hed : e = d
    · subst hed
      exact ⟨dest, hdest.2⟩
    · simpa [hed] using he
  · refine h.counters.others e v ?_
    by_cases hed : e = d
    · subst hed
      simp only [update_self] at hv
      exact mem_of_mem_erase hv
    · simpa [hed] using hv
  · rcases mem_write _ _ _ _ _ hk with hold | ⟨⟨rfl, rfl⟩, hnew⟩
    · exact h.counters.sent src e k hold
    · obtain rfl : k = s.phase src := by simpa using hnew
      exact ⟨hne.symm, hpos⟩

/-! ## Issuing and sending items -/

theorem flushed_of_isIssued {st : Stage} (h : st.isIssued = true) : st.flushed = true := by
  cases st with
  | issued last => rfl
  | planning pos => cases h
  | extra => cases h
  | done => cases h

/-- An item is issued by its source, in its phase, after its planner has flushed its plan. -/
theorem Inv.source_of_issues (h : K.Inv s) (hi : K.issues s d c i) :
    K.source i = d ∧ K.phase i ≤ s.phase d ∧ K.PlannerFlushed s i := by
  unfold issues at hi
  split at hi
  next hroot =>
    obtain ⟨hplanner, hst, hphase⟩ := hi
    have hsource := K.source_root i hroot
    rw [hplanner] at hsource
    refine ⟨hsource, hphase.le, .inr ?_⟩
    rw [hplanner]
    exact ⟨hphase, flushed_of_isIssued hst⟩
  next j hparent =>
    obtain ⟨rfl, hst⟩ := hi
    obtain ⟨hsource, hplanner, hphase⟩ := K.parent_eq i j hparent
    have hstarted : (s.node (K.dst j)).status j ≠ .waiting := by
      rw [hst]
      simp
    have hqueued : s.place j = .queued := by_contra fun hq => hstarted (h.nodes.arrived j hq)
    have hflushed := (h.nodes.issued j (by rw [hqueued]; simp)).2
    refine ⟨hsource.symm, hphase ▸ started_le h.nodes hstarted, ?_⟩
    simpa only [PlannerFlushed, hplanner, hphase] using hflushed

/-- An item that is in no queue goes to another place. -/
theorem NodesInv.setPlace (h : K.NodesInv s) {p : Place} (hplace : s.place i ≠ .queued)
    (hqueued : p = .queued → K.phase i ≤ s.phase (K.dst i))
    (hissued : K.phase i ≤ s.phase (K.source i) ∧ K.PlannerFlushed s i) :
    K.NodesInv { s with place := update s.place i p } := by
  refine { h with arrived j hj := ?_, queued j hj := ?_, issued j hj := ?_ }
  all_goals by_cases hji : j = i
  · subst hji
    exact h.arrived j hplace
  · exact h.arrived j (by simpa [hji] using hj)
  · subst hji
    exact hqueued (by simpa using hj)
  · exact h.queued j (by simpa [hji] using hj)
  · subst hji
    exact hissued
  · exact h.issued j (by simpa [hji] using hj)

theorem Inv.issueLocal (h : K.Inv s) (hi : K.issues s d c i) (hplace : s.place i = .unissued)
    (hd : K.dst i = d) : K.Inv { s with place := update s.place i .queued } := by
  obtain ⟨hsource, hphase, hflushed⟩ := h.source_of_issues hi
  refine ⟨h.nodes.setPlace (by simp [hplace]) (fun _ => hd ▸ hphase) ⟨hsource ▸ hphase, hflushed⟩,
    { h.streams with once j := ?_ }, { h.counters with }⟩
  by_cases hji : j = i
  · subst hji
    simpa [hplace] using h.streams.once j
  · simpa [hji] using h.streams.once j

theorem Inv.issueRemote (h : K.Inv s) (hi : K.issues s d c i) (hplace : s.place i = .unissued)
    (hd : K.dst i ≠ d) :
    K.Inv { s with
      place := update s.place i .sent
      buffer := update s.buffer d
        (set₂ (s.buffer d) c (K.dst i) (s.buffer d c (K.dst i) ++ [i])) } := by
  obtain ⟨hsource, hphase, hflushed⟩ := h.source_of_issues hi
  subst hsource
  have hnodes := h.nodes.setPlace (p := .sent) (by simp [hplace]) nofun ⟨hphase, hflushed⟩
  refine ⟨{ hnodes with },
    { h.streams with buffered src e v j hj := ?_, once j := ?_ }, { h.counters with }⟩
  · by_cases hsrc : src = K.source i
    · subst hsrc
      simp only [update_self, set₂_apply] at hj
      split_ifs at hj with heq
      · obtain ⟨rfl, rfl⟩ := heq
        rcases List.mem_append.1 hj with hj | hj
        · exact h.streams.buffered _ e _ j hj
        · obtain rfl := List.mem_singleton.1 hj
          exact ⟨rfl, rfl, hd.symm⟩
      · exact h.streams.buffered _ e v j hj
    · simp only [update_of_ne hsrc] at hj
      exact h.streams.buffered src e v j hj
  · have honce := h.streams.once j
    by_cases hsrc : K.source j = K.source i
    · have hsum := sum_count_buffer (s.buffer (K.source i)) c (K.dst i) (K.dst j)
        (s.buffer (K.source i) c (K.dst i) ++ [i]) j
      simp only [hsrc, update_self] at honce ⊢
      by_cases hji : j = i
      · subst hji
        simp only [update_self, List.count_append, List.count_singleton_self] at hsum ⊢
        rw [hplace] at honce
        change _ = 0 at honce
        change _ = 1
        omega
      · have hsame : (update (s.buffer (K.source i) c) (K.dst i)
            (s.buffer (K.source i) c (K.dst i) ++ [i]) (K.dst j)).count j =
            (s.buffer (K.source i) c (K.dst j)).count j := by
          by_cases hdst : K.dst j = K.dst i
          · simp [hdst, List.count_append, Ne.symm hji]
          · simp [hdst]
        simp only [update_of_ne hji]
        omega
    · have hji : j ≠ i := by
        rintro rfl
        exact hsrc rfl
      simpa [hsrc, hji] using honce

theorem Inv.issue (h : K.Inv s) (ht : K.step s (d, .issue c i) = some t) : K.Inv t := by
  simp only [step] at ht
  split at ht
  next hi =>
    split_ifs at ht with hd
    · cases ht
      exact h.issueLocal hi.1 hi.2 hd
    · cases ht
      exact h.issueRemote hi.1 hi.2 hd
  next => cases ht

theorem count_frames (i : I) (l : List I) :
    (l.map Message.frame).count (.frame i) = l.count i :=
  List.count_map_of_injective l Message.frame (fun _ _ h => by cases h; rfl) i

omit [DecidableEq X] [Fintype V] in
/-- A frame that is flushed goes from the buffer to the stream. -/
theorem StreamsInv.once_flush (h : K.StreamsInv s) (d : V) (c : C) (dest : V) (n : ℕ) (i : I) :
    (set₂ s.stream d dest (s.stream d dest ++ ((s.buffer d c dest).take n).map .frame)
      (K.source i) (K.dst i)).count (.frame i) +
      ∑ e, (update s.buffer d (set₂ (s.buffer d) c dest ((s.buffer d c dest).drop n))
        (K.source i) e (K.dst i)).count i = (decide (s.place i = .sent)).toNat := by
  have honce := h.once i
  by_cases hsrc : K.source i = d
  · subst hsrc
    simp only [update_self]
    have hsum := sum_count_buffer (s.buffer (K.source i)) c dest (K.dst i)
      ((s.buffer (K.source i) c dest).drop n) i
    by_cases hdst : K.dst i = dest
    · subst hdst
      have hsplit : ((s.buffer (K.source i) c (K.dst i)).take n).count i +
          ((s.buffer (K.source i) c (K.dst i)).drop n).count i =
          (s.buffer (K.source i) c (K.dst i)).count i := by
        rw [← List.count_append, List.take_append_drop]
      simp only [update_self] at hsum
      rw [set₂_self, List.count_append, count_frames]
      omega
    · rw [update_of_ne hdst] at hsum
      rw [set₂_of_ne _ _ (fun heq => hdst heq.2)]
      omega
  · rw [set₂_of_ne _ _ (fun heq => hsrc heq.1), update_of_ne hsrc]
    exact honce

theorem Inv.flush (h : K.Inv s) {d dest : V} {n : ℕ} (ht : K.step s (d, .flush c dest n) = some t) :
    K.Inv t := by
  cases ht
  have hframe : ∀ i ∈ (s.buffer d c dest).take n, K.source i = d ∧ K.dst i = dest ∧ d ≠ dest ∧
      K.phase i ≤ s.phase d := fun i hi => by
    have hmem := List.mem_of_mem_take hi
    obtain ⟨hsource, hdst, hne⟩ := h.streams.buffered d c dest i hmem
    refine ⟨hsource, hdst, hne, ?_⟩
    have hplace : s.place i = .sent := by
      by_contra hplace
      have honce := h.streams.once i
      simp only [hplace, decide_false, Bool.toNat_false, Nat.add_eq_zero_iff, sum_eq_zero_iff,
        mem_univ, true_implies] at honce
      have hzero := honce.2 c
      rw [hsource, hdst, List.count_eq_zero] at hzero
      exact hzero hmem
    rw [← hsource]
    exact (h.nodes.issued i (by rw [hplace]; simp)).1
  have hcounter : ∀ k, Message.counter k ∉ ((s.buffer d c dest).take n).map Message.frame :=
    fun k hk => by
      obtain ⟨i, -, hi⟩ := List.mem_map.1 hk
      cases hi
  refine ⟨{ h.nodes with }, { h.streams with
      total src e hne := ?_, ordered src e := ?_, frames src e i hi := ?_,
      buffered src e v i hi :=
        h.streams.buffered src e v i (mem_of_mem_buffer (List.drop_subset n _) hi),
      once i := h.streams.once_flush d c dest n i },
    { h.counters with balance src e k hne hk := ?_, sent src e k hk := ?_ }⟩
  · have htotal := h.streams.total src e hne
    by_cases hed : src = d ∧ e = dest
    · obtain ⟨rfl, rfl⟩ := hed
      simpa only [set₂_self, starts_append, starts_frames, add_zero] using htotal
    · simpa [set₂_of_ne _ _ hed] using htotal
  · refine ordered_write _ _ _ _ _ s.seen h.streams.ordered (ordered_frames fun i hi => ?_)
    obtain ⟨-, -, hne, hphase⟩ := hframe i hi
    exact hphase.trans (h.streams.phase_le hne)
  · rcases mem_write _ _ _ _ _ hi with hold | ⟨⟨rfl, rfl⟩, hnew⟩
    · exact h.streams.frames src e i hold
    · obtain ⟨j, hj, hji⟩ := List.mem_map.1 hnew
      cases hji
      exact ⟨(hframe i hj).1, (hframe i hj).2.1⟩
  · have := h.counters.balance src e k hne hk
    rwa [← count_write s.stream d dest _ _ (hcounter k)] at this
  · rcases mem_write _ _ _ _ _ hk with hold | ⟨-, hnew⟩
    · exact h.counters.sent src e k hold
    · exact absurd hnew (hcounter k)

theorem Inv.readStartPhase (h : K.Inv s) (ht : K.step s (d, .readStartPhase src) = some t) :
    K.Inv t := by
  simp only [step] at ht
  split at ht
  next rest hstream =>
    split_ifs at ht with hchannel
    cases ht
    -- the message that the channel waits for has been counted as started
    have hseen : ∀ e v, set₂ s.seen d src (s.seen d src + 1) e v +
        pending (set₂ s.channel d src (s.channel d src).advance e v) =
        s.seen e v + pending (s.channel e v) := fun e v => by
      by_cases hev : e = d ∧ v = src
      · obtain ⟨rfl, rfl⟩ := hev
        simp [hchannel, Inbound.Status.advance, pending]
      · simp [set₂_of_ne _ _ hev]
    refine ⟨{ h.nodes with }, { h.streams with
        seen_le e v := ?_, continuing e todo v he hv := ?_, total v e hne := ?_,
        ordered v e := ?_, frames v e i hi := h.streams.frames v e i (mem_of_mem_read hstream hi),
        once i := ?_ }, { h.counters with
        balance v e k hne hk := ?_,
        sent v e k hk := h.counters.sent v e k (mem_of_mem_read hstream hk) }⟩
    · simpa only [hseen] using h.streams.seen_le e v
    · simpa only [hseen] using h.streams.continuing e todo v he hv
    · have htotal := h.streams.total v e hne
      by_cases hev : v = src ∧ e = d
      · obtain ⟨rfl, rfl⟩ := hev
        rw [hstream, starts_cons] at htotal
        simp only [set₂_self]
        simp only [Message.isStart] at htotal
        omega
      · simpa [set₂_of_ne _ _ hev, set₂_of_ne _ _ fun hve => hev (And.symm hve)] using htotal
    · have hord := h.streams.ordered v e
      by_cases hev : v = src ∧ e = d
      · obtain ⟨rfl, rfl⟩ := hev
        rw [hstream] at hord
        simpa [Message.isStart] using hord.2
      · simpa [set₂_of_ne _ _ hev, set₂_of_ne _ _ fun hve => hev (And.symm hve)] using hord
    · have := h.streams.once i
      rwa [← count_read hstream _ _ (by simp)] at this
    · have := h.counters.balance v e k hne hk
      rwa [← count_read hstream _ _ (by simp)] at this
  next => cases ht

/-- Counters are read in the phase they belong to, and have not been applied. -/
theorem Inv.phase_of_counter (h : K.Inv s) {k : ℕ} (hstream : s.stream src d = .counter k :: rest) :
    src ≠ d ∧ k = s.phase d ∧ (s.node d).applied src = false := by
  obtain ⟨hne, hk⟩ := h.counters.sent src d k (by simp [hstream])
  have hbalance := h.counters.balance src d k hne hk
  have hord := h.streams.ordered src d
  have hseen := h.streams.seen_le d src
  rw [hstream] at hord hbalance
  have hle : k ≤ s.seen d src := hord.1
  have hawaiting : awaiting s d src k = true := by
    cases hb : awaiting s d src k with
    | true => rfl
    | false => simp [hb] at hbalance
  simp only [awaiting, Bool.or_eq_true, Bool.and_eq_true, decide_eq_true_eq, Bool.not_eq_true']
    at hawaiting
  rcases hawaiting with hlt | ⟨heq, happ⟩
  · omega
  · exact ⟨hne, heq.symm, happ⟩

omit [DecidableEq C] [DecidableEq X] [Fintype C] [Fintype V] in
theorem CountersInv.balance_readCounters (h : CountersInv s)
    (hstream : s.stream src d = .counter (s.phase d) :: rest) (hsrc : src ≠ d)
    (happ : (s.node d).applied src = false)
    (hn : n.applied = update (s.node d).applied src true) {v e : V} {k : ℕ} (hne : v ≠ e)
    (hk : 1 ≤ k) : (set₂ s.stream src d rest v e).count (.counter k) + (unsent s v e k).toNat =
      (awaiting (setNode s d n) e v k).toNat := by
  have hbalance := h.balance v e k hne hk
  by_cases hed : e = d
  · subst hed
    by_cases hkd : k = s.phase e
    · subst hkd
      by_cases hv : v = src
      · -- this is the message
        subst hv
        have hold : awaiting s e v (s.phase e) = true := by simp [awaiting, happ]
        have hnew : awaiting (setNode s e n) e v (s.phase e) = false := by
          simp [awaiting_setNode, hn]
        rw [hstream, List.count_cons_self, hold, Bool.toNat_true] at hbalance
        rw [set₂_self, hnew, Bool.toNat_false]
        omega
      · have hcount : set₂ s.stream src e rest v e = s.stream v e :=
          set₂_of_ne _ _ fun heq => hv heq.1
        rw [hcount, hbalance, awaiting_setNode, update_self, hn,
          update_of_ne hv]
        rfl
    · rw [count_read hstream _ _ (by simpa using hkd), hbalance, awaiting_setNode]
      simp [awaiting, Ne.symm hkd]
  · have hcount : set₂ s.stream src d rest v e = s.stream v e :=
      set₂_of_ne _ _ fun heq => hed heq.2
    rw [hcount, hbalance, awaiting_setNode, update_of_ne hed]
    rfl

section

variable (hK : ∀ k d, ∀ v ∈ Cluster.others d, (K.plan k d).planned (.inl v) < kMaxPiecesPerPhase)
include hK

theorem Inv.readCounters (h : K.Inv s) (ht : K.step s (d, .readCounters src c) = some t) :
    K.Inv t := by
  simp only [step] at ht
  split at ht
  next k rest hstream =>
    cases ht
    obtain ⟨hne, rfl, happ⟩ := h.phase_of_counter hstream
    have hrun : Running (K.current s d) (s.node d) := by
      rcases h.nodes.running d with ⟨hzero, -⟩ | hrun
      · have := (h.counters.sent src d _ (by rw [hstream]; exact List.mem_cons_self)).2
        omega
      · exact hrun
    have hmove : (K.current s d).Move (s.node d) (.counterMessage src c) _ :=
      .counterMessage (mem_others.2 hne) happ
    have hnodes := h.nodes.move hK hrun hmove (by simp)
    refine ⟨⟨hnodes.running, hnodes.sending, hnodes.past, hnodes.arrived, hnodes.queued,
      hnodes.issued⟩, ⟨h.streams.seen_le, h.streams.continuing, fun v e hve => ?_,
      ordered_read hstream h.streams.ordered rfl,
      fun v e i hi => h.streams.frames v e i (mem_of_mem_read hstream hi), h.streams.buffered,
      fun i => ?_⟩, ⟨fun v e k hve hk => ?_, fun e he => ?_, h.counters.others,
      fun v e k hk => h.counters.sent v e k (mem_of_mem_read hstream hk)⟩⟩
    · rw [starts_read hstream rfl]
      exact h.streams.total v e hve
    · have := h.streams.once i
      rwa [← count_read hstream _ _ (by simp)] at this
    · exact h.counters.balance_readCounters hstream hne happ rfl hve hk
    · by_cases hed : e = d
      · subst hed
        have hann := h.counters.announcing_move hK hrun hmove (by simp) he
        simp only [update_self]
        exact hann
      · simpa [hed] using h.counters.announcing e he
  next => cases ht

omit hK in
/-- A frame is read in a phase that is not before its own, and it has not been read before. -/
theorem Inv.readFrame_pre (h : K.Inv s) (hstream : s.stream src d = .frame i :: rest) :
    K.source i = src ∧ K.dst i = d ∧ s.place i = .sent ∧ K.phase i ≤ s.phase d := by
  obtain ⟨rfl, rfl⟩ := h.streams.frames src d i (by simp [hstream])
  have honce := h.streams.once i
  have hord := h.streams.ordered (K.source i) (K.dst i)
  have hseen := h.streams.seen_le (K.dst i) (K.source i)
  rw [hstream] at honce hord
  have hle : K.phase i ≤ s.seen (K.dst i) (K.source i) := hord.1
  refine ⟨rfl, rfl, ?_, by omega⟩
  by_contra hplace
  simp [hplace] at honce

omit hK in
theorem Inv.deliver (h : K.Inv s) (hstream : s.stream src d = .frame i :: rest) :
    K.Inv { s with
      stream := set₂ s.stream src d rest
      place := update s.place i .queued } := by
  obtain ⟨rfl, rfl, hplace, hphase⟩ := h.readFrame_pre hstream
  have hnodes := h.nodes.setPlace (p := .queued) (by simp [hplace]) (fun _ => hphase)
    (h.nodes.issued i (by simp [hplace]))
  refine ⟨{ hnodes with },
    { h.streams with
      total v e hve := ?_, ordered := ordered_read hstream h.streams.ordered rfl,
      frames v e j hj := h.streams.frames v e j (mem_of_mem_read hstream hj), once j := ?_ },
    { h.counters with
      balance v e k hve hk := ?_,
      sent v e k hk := h.counters.sent v e k (mem_of_mem_read hstream hk) }⟩
  · rw [starts_read hstream rfl]
    exact h.streams.total v e hve
  · have honce := h.streams.once j
    by_cases hji : j = i
    · subst hji
      rw [hstream, List.count_cons_self, hplace] at honce
      change _ = 1 at honce
      simp only [set₂_self, update_self]
      change _ = 0
      omega
    · rw [← count_read hstream _ _ (by simpa using hji)] at honce
      simpa [hji] using honce
  · have := h.counters.balance v e k hve hk
    rwa [← count_read hstream _ _ (by simp)] at this

theorem Inv.readFrame (h : K.Inv s) (ht : K.step s (d, .readFrame src c) = some t) : K.Inv t := by
  simp only [step] at ht
  split at ht
  next i rest hstream =>
    cases ht
    obtain ⟨-, rfl, hplace, hphase⟩ := h.readFrame_pre hstream
    have hdeliver := h.deliver hstream
    by_cases hfuture : K.future i = true
    · -- a future is completed where it is received
      have hwait := h.nodes.arrived i (by simp [hplace])
      have hmove := hdeliver.move hK (running_of_waiting hdeliver hphase)
        (.receive (c := c) (issuable_of_queued hdeliver (by simp) hphase hwait)) ?_ (by simp)
        (by simp)
      · rw [if_pos hfuture]
        exact hmove
      · rintro j e (hj | hj)
        · cases hj
        · cases hj
          simp
    · rw [if_neg hfuture]
      exact hdeliver
  next => cases ht

/-- **Every step keeps the invariant.** -/
theorem Inv.step [Nonempty C] (h : K.Inv s) {ev : V × Event V C I} (ht : K.step s ev = some t) :
    K.Inv t := by
  obtain ⟨d, ev⟩ := ev
  cases ev with
  | callTxns => exact h.callTxns ht
  | sendStartPhase dest => exact h.sendStartPhase ht
  | increment => exact h.increment hK ht
  | continueInbound src => exact h.continueInbound ht
  | wakeWorkers => exact h.wakeWorkers ht
  | onNode ev => exact h.onNode hK ht
  | sendCounters dest => exact h.sendCounters ht
  | issue c i => exact h.issue ht
  | flush c dest n => exact h.flush ht
  | readStartPhase src => exact h.readStartPhase ht
  | readCounters src c => exact h.readCounters hK ht
  | readFrame src c => exact h.readFrame hK ht
  | endOfPhase src => exact h.endOfPhase ht
  | start i c => exact h.start hK ht
  | finish i => exact h.finish hK ht

end

end Workload

end Felis.Phase.Cluster
