import Felis.Foundations.Collections
import Felis.Phase.Inbound

/-!
# The count of an incoming channel

`nr_left` of a channel is right when the sum that `OnCounterReceived` reads is what all nodes have
planned from the source of the channel to this node. The messages of the other nodes are in the
table by then; the plans of the cores of this node need not be, and a core may well have planned
items that another node sends back. `inbound_exact` proves the accounting for the runs in which they
are, `inbound_ends_early` is a run in which they are not.

`Plan.Totals` says what is in the table, `ChannelInv` is the invariant of one channel, and
`Traffic.Inv` that of all channels with the loop of `OnCounterReceived`.
-/

namespace Felis.Phase

open Finset Runs Sums Function

/-! ## What is in the table of counters -/

section

variable {V C X I : Type} [DecidableEq V] [DecidableEq C] [DecidableEq X]

namespace Plan

variable (P : Plan V C X I)

/-- What a core has added to the counter `x`. -/
def addedTo (c : C) (x : X) : Stage → ℕ
  | .planning pos => if x ∈ P.indices.take pos then P.count (.inr c) x else 0
  | _ => P.count (.inr c) x

/-- What the message of a node has added to the counter `x`. -/
def announced (v : V) (x : X) : Bool → ℕ
  | true => P.count (.inl v) x
  | false => 0

/-- What all nodes and cores have planned under the counter `x`. -/
def countAll (x : X) : ℕ := #{i ∈ P.items | P.index i = x}

variable {P} {s t : State V C X I} {c : C}

theorem count_eq_zero {o : V ⊕ C} {x : X} (h : ∀ i ∈ P.items, P.index i = x → P.origin i ≠ o) :
    P.count o x = 0 := by
  rw [count, card_eq_zero, filter_eq_empty_iff]
  rintro i hi ⟨ho, hx⟩
  exact h i hi hx ho

theorem addedTo_of_flushed {x : X} {st : Stage} (h : st.flushed = true) :
    P.addedTo c x st = P.count (.inr c) x := by
  cases st with
  | planning pos => cases h
  | issued _ => rfl
  | extra => rfl
  | done => rfl

theorem addedTo_all {x : X} {pos : ℕ} (hpos : P.indices.length ≤ pos) :
    P.addedTo c x (.planning pos) = P.count (.inr c) x := by
  rw [addedTo, List.take_of_length_le hpos]
  split_ifs with hx
  · rfl
  · refine (count_eq_zero fun i hi hix => ?_).symm
    rw [← hix] at hx
    exact absurd (P.index_mem i hi) hx

theorem addedTo_succ {x y : X} {pos : ℕ} (hx : P.indices[pos]? = some x) :
    P.addedTo c y (.planning (pos + 1)) =
      P.addedTo c y (.planning pos) + if y = x then P.count (.inr c) x else 0 := by
  have hnotMem : x ∉ P.indices.take pos := by
    have hnodup := P.indices_nodup.sublist (List.take_sublist (pos + 1) P.indices)
    rw [List.take_add_one, hx, List.nodup_append] at hnodup
    exact fun hmem => hnodup.2.2 x hmem x (by simp) rfl
  simp only [addedTo, List.take_add_one, hx, Option.toList_some, List.mem_append,
    List.mem_singleton]
  by_cases hy : y = x
  · subst hy
    simp [hnotMem]
  · simp [hy]

variable [Fintype C]

variable (P) in
/-- A counter is the sum of what has been added to it. -/
def Totals (s : State V C X I) : Prop :=
  ∀ x, s.total x = ∑ v ∈ P.remotes, P.announced v x (s.applied v) + ∑ c, P.addedTo c x (s.stage c)

theorem totals_callTxns : P.Totals (P.callTxns s) := by
  intro x
  simp [callTxns, announced, addedTo]

theorem Totals.setStage (h : P.Totals s) {st : Stage}
    (hst : ∀ x, P.addedTo c x st = P.addedTo c x (s.stage c)) : P.Totals (setStage s c st) := by
  intro x
  have hsum := sum_update_add univ (fun d => P.addedTo d x) s.stage (mem_univ c) st
  rw [hst x] at hsum
  change s.total x = _ + ∑ d, P.addedTo d x (update s.stage c st d)
  rw [Nat.add_right_cancel hsum]
  exact h x

theorem Totals.move [DecidableEq I] (h : P.Totals s) {ev : Event V C I} (ht : P.Move s ev t) :
    P.Totals t := by
  cases ht with
  | @flushIndex c pos x hst hx =>
    intro y
    have hsum := sum_update_add univ (fun d => P.addedTo d y) s.stage (mem_univ c)
      (.planning (pos + 1))
    rw [hst, addedTo_succ hx] at hsum
    have hy := h y
    simp only [Plan.setStage]
    by_cases hyx : y = x
    · subst hyx
      rw [update_self]
      simp only [if_true] at hsum
      omega
    · rw [update_of_ne hyx]
      simp only [if_neg hyx] at hsum
      omega
  | @flushEnd c pos hst hpos =>
    refine h.setStage fun x => ?_
    rw [hst, addedTo_all hpos]
    rfl
  | @workerComplete c last hst =>
    refine Totals.setStage (s := s.complete 1) h fun x => ?_
    change _ = P.addedTo c x (s.stage c)
    rw [hst]
    cases last <;> rfl
  | @extraComplete c hst =>
    refine Totals.setStage (s := s.complete 1) h fun x => ?_
    change _ = P.addedTo c x (s.stage c)
    rw [hst]
    rfl
  | @counterMessage v c hv happ =>
    intro x
    have hsum := sum_update_add P.remotes (fun w => P.announced w x) s.applied hv true
    rw [happ, show P.announced v x false = 0 from rfl,
      show P.announced v x true = P.count (.inl v) x from rfl] at hsum
    have hx := h x
    simp only [State.complete]
    omega
  | start hi => exact h
  | finish hst => exact h
  | receive hi => exact h
  | peek hc => exact h

/-- Everything is in the table when all messages have been applied and all cores with something to
add have flushed their plans. -/
theorem Totals.total_eq (h : P.Totals s) {x : X} (happ : ∀ v ∈ P.remotes, s.applied v = true)
    (hfl : ∀ i ∈ P.items, P.index i = x → ∀ c, P.origin i = .inr c → (s.stage c).flushed = true) :
    s.total x = P.countAll x := by
  have hremote : ∀ v ∈ P.remotes, P.announced v x (s.applied v) = P.count (.inl v) x :=
    fun v hv => by rw [happ v hv]; rfl
  have hlocal : ∀ c, P.addedTo c x (s.stage c) = P.count (.inr c) x := fun c => by
    cases hst : (s.stage c).flushed with
    | true => exact addedTo_of_flushed hst
    | false =>
      have hzero : P.count (.inr c) x = 0 := count_eq_zero fun i hi hix ho => by
        rw [hfl i hi hix c ho] at hst
        cases hst
      cases hpos : s.stage c with
      | planning pos => simp [addedTo, hzero]
      | issued _ => rfl
      | extra => rfl
      | done => rfl
  have hall := sum_fiberwise_sumType {i ∈ P.items | P.index i = x} P.remotes univ P.origin
    (fun i hi => P.origin_mem i (mem_filter.1 hi).1) (fun _ _ _ _ => mem_univ _) fun _ => 1
  have hcount : ∀ o, ∑ i ∈ {i ∈ P.items | P.index i = x} with P.origin i = o, 1 = P.count o x :=
    fun o => by
      rw [← card_eq_sum_ones, filter_filter, count]
      simp only [and_comm]
  simp only [hcount, ← card_eq_sum_ones] at hall
  rw [h x, sum_congr rfl hremote, sum_congr rfl fun c _ => hlocal c]
  exact hall.symm

end Plan

end

namespace Inbound

variable {V C I : Type}

/-! ## One channel -/

/-- The state of a channel from which `received` frames have been read, and which expects
`quota`. -/
structure ChannelInv (received quota : ℕ) (applied : Bool) (ch : Channel C) : Prop where
  mapping : ch.status = .pollMappingTable →
    ch.nrLeft = 0 ∧ received = 0 ∧ ch.poll = none ∧ applied = false
  balance : ch.status ≠ .pollMappingTable → ch.nrLeft + received = quota + ch.parsed
  left : ch.status = .pollRoutines → 0 < ch.nrLeft
  ended : ch.status = .endOfPhase → ch.nrLeft = 0
  idle : ch.poll = none → ch.parsed = 0

namespace ChannelInv

variable {received quota incoming : ℕ} {applied : Bool} {ch : Channel C}

theorem nrLeft_nonneg (h : ChannelInv received quota applied ch) : 0 ≤ ch.nrLeft := by
  cases hst : ch.status with
  | pollMappingTable => exact (h.mapping hst).1.ge
  | pollRoutines => exact (h.left hst).le
  | endOfPhase => exact (h.ended hst).ge

theorem received_of_ended (h : ChannelInv received quota applied ch)
    (hle : received ≤ incoming) (hquota : incoming ≤ quota) (hst : ch.status = .endOfPhase) :
    received = incoming := by
  have hbalance := h.balance (by rw [hst]; decide)
  have hzero := h.ended hst
  omega

theorem ended_of_received (h : ChannelInv received quota applied ch) (happ : applied = true)
    (hparsed : ch.parsed = 0) (heq : received = quota) : ch.status = .endOfPhase := by
  cases hst : ch.status with
  | pollMappingTable =>
    have := (h.mapping hst).2.2.2
    rw [happ] at this
    cases this
  | pollRoutines =>
    have hbalance := h.balance (by rw [hst]; decide)
    have hpos := h.left hst
    omega
  | endOfPhase => rfl

theorem complete_eta (n : ℤ) :
    { ch.complete n with poll := ch.poll, parsed := ch.parsed } = ch.complete n := by
  unfold Channel.complete
  split_ifs <;> rfl

theorem setPoll (h : ChannelInv received quota applied ch) (hpoll : ch.poll ≠ none)
    (applied' : Bool) (p : C × Poll) :
    ChannelInv received quota applied' { ch with poll := some p } := by
  refine ⟨fun hm => absurd (h.mapping hm).2.2.1 hpoll, h.balance, h.left, h.ended, fun hp => ?_⟩
  cases hp

/-- `Complete` lowers the quota by `n`: the channel ends exactly when nothing is left. -/
theorem complete (h : ChannelInv received quota applied ch) {n : ℤ} {quota' parsed' : ℕ}
    (hst : ch.status ≠ .pollMappingTable) (hq : (quota' + parsed' : ℤ) = quota + ch.parsed - n)
    (hle : received ≤ quota' + parsed') (hn : 0 ≤ n) {p : Option (C × Poll)}
    (hp : p = none → parsed' = 0) :
    ChannelInv received quota' applied { ch.complete n with poll := p, parsed := parsed' } := by
  have hbalance := h.balance hst
  by_cases hzero : n = 0
  · rw [Channel.complete, if_pos hzero]
    refine ⟨fun hm => absurd hm hst, fun _ => ?_, h.left, h.ended, hp⟩
    change ch.nrLeft + received = quota' + parsed'
    omega
  · rw [Channel.complete, if_neg hzero]
    -- the channel has not ended: `received` would exceed what is left
    have hroutines : ch.status = .pollRoutines := by
      cases hs : ch.status with
      | pollMappingTable => exact absurd hs hst
      | pollRoutines => rfl
      | endOfPhase =>
        have := h.ended hs
        omega
    by_cases hleft : ch.nrLeft - n = 0
    · refine ⟨fun hm => ?_, fun _ => ?_, fun hr => ?_, fun _ => hleft, hp⟩
      · simp [hleft, hroutines, Status.advance] at hm
      · simp only
        omega
      · simp [hleft, hroutines, Status.advance] at hr
    · refine ⟨fun hm => ?_, fun _ => ?_, fun _ => ?_, fun he => ?_, hp⟩
      · simp [hleft, hroutines] at hm
      · simp only
        omega
      · simp only
        omega
      · simp [hleft, hroutines] at he

end ChannelInv

/-! ## All channels -/

variable [DecidableEq V]

/-- `OnCounterReceived` has corrected the channel. -/
def Loop.adjusted (v : V) : Loop V → Bool
  | .before => false
  | .running _ todo _ _ => decide (v ∉ todo)
  | .after => true

/-- The counter message has been applied, and not yet counted. -/
def Channel.counting (ch : Channel C) : Bool := decide (ch.poll.map Prod.snd = some .counted)

namespace Traffic

variable (P : Traffic V C I)

def quota (v : V) : Bool → ℕ
  | true => P.incoming v
  | false => kMaxPiecesPerPhase

/-- Nothing is added any more to the counters of the incoming channels. -/
structure Stable (s : State V C I) : Prop where
  applied : ∀ v ∈ P.remotes, s.node.applied v = true
  counted : ∀ v ∈ P.remotes, (s.channel v).counting = false
  flushed : ∀ i ∈ P.items, (P.source i).isSome → ∀ c, P.origin i = .inr c →
    (s.node.stage c).flushed = true

variable {P} {s t : State V C I} {v : V} {c : C}

theorem received_le (s : State V C I) (v : V) : P.received s v ≤ P.incoming v :=
  card_le_card fun i hi => by
    simp only [mem_filter] at hi ⊢
    exact ⟨hi.1, hi.2.1⟩

theorem incoming_le_quota (hK : P.incoming v ≤ kMaxPiecesPerPhase) (b : Bool) :
    P.incoming v ≤ P.quota v b := by
  cases b with
  | true => exact le_rfl
  | false => exact hK

/-- The levels of a source add up to what is sent from it. -/
theorem sum_countAll (v : V) :
    ∑ k ∈ range kPromiseMaxLevels, P.countAll (k, some v) = P.incoming v := by
  have hmaps : ∀ i ∈ ({i ∈ P.items | P.source i = some v} : Finset I),
      (P.index i).1 ∈ range kPromiseMaxLevels := fun i hi =>
    mem_range.2 (P.level_lt _ (P.index_mem i (mem_filter.1 hi).1))
  rw [incoming, card_eq_sum_card_fiberwise hmaps]
  refine sum_congr rfl fun k _ => ?_
  rw [Plan.countAll, filter_filter]
  congr 1
  ext i
  simp only [mem_filter, Prod.ext_iff, source, and_comm]

theorem setChannel_of_ne {v w : V} (ch : Channel C) (hw : w ≠ v) :
    (s.setChannel v ch).channel w = s.channel w :=
  update_of_ne hw _ _

@[simp] theorem setChannel_self (v : V) (ch : Channel C) : (s.setChannel v ch).channel v = ch :=
  update_self _ _ _

theorem received_congr (h : ∀ i, t.frame i = .unread ↔ s.frame i = .unread) (w : V) :
    P.received t w = P.received s w := by
  simp only [received, ne_eq, h]

theorem received_frame [DecidableEq I] {i : I} (hi : i ∈ P.items) (hsrc : P.source i = some v)
    (hun : s.frame i = .unread) (ht : t.frame = update s.frame i .parsed) (w : V) :
    P.received t w = P.received s w + if w = v then 1 else 0 := by
  have hsum := sum_update_add P.items
    (fun j fr => if P.source j = some w ∧ fr ≠ Frame.unread then 1 else 0) s.frame hi .parsed
  simp only [hun, hsrc, ne_eq, not_true_eq_false, and_false, if_false, reduceCtorEq,
    not_false_eq_true, and_true, Option.some.injEq, eq_comm (a := v), add_zero] at hsum
  simp only [received, card_filter, ht]
  exact hsum

variable [DecidableEq C] [Fintype C]

variable (P) in
/-- **The invariant** of the incoming channels. -/
structure Inv (s : State V C I) : Prop where
  begun : s.node.begun = true
  totals : P.Totals s.node
  channels : ∀ v ∈ P.remotes, ChannelInv (P.received s v) (P.quota v (s.loop.adjusted v))
    (s.node.applied v) (s.channel v)
  polled : ∀ v, (s.channel v).poll ≠ none → v ∈ P.remotes
  counting : ∀ v ∈ P.remotes, (s.channel v).counting = true → s.node.applied v = true
  counters : s.loop = .before →
    s.counters = ∑ v ∈ P.remotes, (s.node.applied v && !(s.channel v).counting).toNat
  stable : s.loop ≠ .before → P.Stable s
  todo : ∀ o todo l n, s.loop = .running o todo l n → todo.Nodup ∧ ∀ v ∈ todo, v ∈ P.remotes
  sum : ∀ o v todo l n, s.loop = .running o (v :: todo) l n →
    l ≤ kPromiseMaxLevels ∧ n = ∑ k ∈ range l, P.countAll (k, some v)

theorem Inv.polled_setChannel (h : P.Inv s) (hv : v ∈ P.remotes) (ch : Channel C) :
    ∀ w, ((s.setChannel v ch).channel w).poll ≠ none → w ∈ P.remotes :=
  (forall_update_iff s.channel fun w (ch : Channel C) => ch.poll ≠ none → w ∈ P.remotes).2
    ⟨fun _ => hv, fun w _ => h.polled w⟩

/-- A step on one channel that does not touch the counters. -/
theorem Inv.of_channel (h : P.Inv s) (hv : v ∈ P.remotes) (hnode : t.node = s.node)
    (hloop : t.loop = s.loop) (hcounters : t.counters = s.counters)
    (hother : ∀ w, w ≠ v → t.channel w = s.channel w)
    (hreceived : ∀ w, w ≠ v → P.received t w = P.received s w)
    (hch : ChannelInv (P.received t v) (P.quota v (s.loop.adjusted v)) (s.node.applied v)
      (t.channel v))
    (hcounting : (t.channel v).counting = (s.channel v).counting) : P.Inv t := by
  have hsame : ∀ w, (t.channel w).counting = (s.channel w).counting := fun w => by
    by_cases hw : w = v
    · rw [hw, hcounting]
    · rw [hother w hw]
  refine ⟨hnode ▸ h.begun, hnode ▸ h.totals, fun w hw => ?_, fun w hw => ?_, fun w hw hc => ?_,
    fun hl => ?_, fun hl => ?_, fun o todo l n hl => h.todo o todo l n (hloop ▸ hl),
    fun o w todo l n hl => h.sum o w todo l n (hloop ▸ hl)⟩
  · rw [hnode, hloop]
    by_cases hwv : w = v
    · rw [hwv]
      exact hch
    · rw [hother w hwv, hreceived w hwv]
      exact h.channels w hw
  · by_cases hwv : w = v
    · rw [hwv]
      exact hv
    · exact h.polled w (by rwa [hother w hwv] at hw)
  · rw [hnode]
    exact h.counting w hw (hsame w ▸ hc)
  · simp only [hcounters, hnode, hsame]
    exact h.counters (hloop ▸ hl)
  · have hst := h.stable (hloop ▸ hl)
    refine ⟨fun w hw => ?_, fun w hw => ?_, ?_⟩
    · rw [hnode]
      exact hst.applied w hw
    · rw [hsame]
      exact hst.counted w hw
    · rw [hnode]
      exact hst.flushed

/-- Until the last message has been counted, the loop of `OnCounterReceived` does not run. -/
theorem Inv.loop_of_unapplied (h : P.Inv s) (hv : v ∈ P.remotes) (happ : s.node.applied v = false) :
    s.loop = .before := by
  by_contra hl
  rw [(h.stable hl).applied v hv] at happ
  cases happ

theorem Inv.loop_of_counting (h : P.Inv s) (hv : v ∈ P.remotes)
    (hc : (s.channel v).counting = true) : s.loop = .before := by
  by_contra hl
  rw [(h.stable hl).counted v hv] at hc
  cases hc

theorem Stable.total_eq (h : P.Stable s) (htot : P.Totals s.node) (k : ℕ) (v : V) :
    s.node.total (k, some v) = P.countAll (k, some v) :=
  htot.total_eq h.applied fun i hi hix => h.flushed i hi (by rw [source, hix]; rfl)

/-! ## Steps -/

variable [DecidableEq I]

theorem Inv.node (h : P.Inv s) {ev : Phase.Event V C I}
    {n : Phase.State V C (ℕ × Option V) I} (ht : P.Move s.node ev n)
    (hev : ∀ v c, ev ≠ .counterMessage v c) : P.Inv { s with node := n } := by
  have happ : n.applied = s.node.applied := ht.applied_eq hev
  refine ⟨ht.begun_eq.trans h.begun, h.totals.move ht, fun v hv => ?_, h.polled, fun v hv hc => ?_,
    fun hl => ?_, fun hl => ⟨fun v hv => ?_, (h.stable hl).counted, fun i hi hsrc c ho => ?_⟩,
    h.todo, h.sum⟩
  · rw [happ]
    exact h.channels v hv
  · rw [happ]
    exact h.counting v hv hc
  · rw [happ]
    exact h.counters hl
  · rw [happ]
    exact (h.stable hl).applied v hv
  · exact ht.flushed ((h.stable hl).flushed i hi hsrc c ho)

theorem Inv.pollMappingTable (h : P.Inv s) (ht : P.step s (.pollMappingTable v) = some t) :
    P.Inv t := by
  simp only [step] at ht
  split_ifs at ht with hv
  cases ht
  obtain ⟨hv, hst, hpoll, hleft⟩ := hv
  have hch := h.channels v hv
  obtain ⟨-, hrec, -, happ⟩ := hch.mapping hst
  have hbefore := h.loop_of_unapplied hv happ
  refine h.of_channel hv rfl rfl rfl (fun w hw => setChannel_of_ne _ hw) (fun w hw => rfl) ?_ ?_
  · rw [setChannel_self, hst, hbefore]
    refine ⟨fun hm => ?_, fun _ => ?_, fun _ => ?_, fun he => ?_, hch.idle⟩
    · cases hm
    · change (kMaxPiecesPerPhase : ℤ) + P.received s v = kMaxPiecesPerPhase + (s.channel v).parsed
      rw [hrec, hch.idle hpoll]
    · exact Int.natCast_pos.2 (by decide)
    · cases he
  · rw [setChannel_self]
    rfl

theorem Inv.poll (h : P.Inv s) (ht : P.step s (.poll v c) = some t) : P.Inv t := by
  simp only [step] at ht
  split_ifs at ht with hv
  cases ht
  obtain ⟨hv, hst, hpoll⟩ := hv
  have hch := h.channels v hv
  have hparsed := hch.idle hpoll
  refine h.of_channel hv rfl rfl rfl (fun w hw => setChannel_of_ne _ hw) (fun w hw => rfl) ?_ ?_
  · rw [setChannel_self]
    refine ⟨fun hm => ?_, fun hm => ?_, hch.left, hch.ended, fun _ => rfl⟩
    · rw [hst] at hm
      cases hm
    · have := hch.balance hm
      rwa [hparsed] at this
  · rw [setChannel_self]
    simp [Channel.counting, hpoll]

theorem Inv.parsed (h : P.Inv s) {i : I} {p : Poll} (hpoll : (s.channel v).poll = some (c, p))
    (hi : i ∈ P.items) (hsrc : P.source i = some v) (hun : s.frame i = .unread) :
    P.Inv { s.setChannel v { s.channel v with parsed := (s.channel v).parsed + 1 } with
      frame := update s.frame i .parsed } := by
  have hv := h.polled v (by rw [hpoll]; simp)
  have hch := h.channels v hv
  have hrec := received_frame (t := { s.setChannel v { s.channel v with
    parsed := (s.channel v).parsed + 1 } with
      frame := update s.frame i .parsed }) hi hsrc hun rfl
  refine h.of_channel hv rfl rfl rfl (fun w hw => setChannel_of_ne _ hw)
    (fun w hw => (hrec w).trans (by rw [if_neg hw, Nat.add_zero])) ?_ ?_
  · rw [hrec v, if_pos rfl]
    change ChannelInv _ _ _ ((s.setChannel v _).channel v)
    rw [setChannel_self]
    refine ⟨fun hm => ?_, fun hm => ?_, hch.left, hch.ended, fun hp => ?_⟩
    · have := (hch.mapping hm).2.2.1
      rw [hpoll] at this
      cases this
    · have := hch.balance hm
      push_cast
      omega
    · rw [hpoll] at hp
      cases hp
  · change ((s.setChannel v _).channel v).counting = _
    rw [setChannel_self]
    rfl

theorem Inv.frame (h : P.Inv s) {i : I} (ht : P.step s (.frame v i) = some t) : P.Inv t := by
  simp only [step] at ht
  split at ht
  next c hpoll =>
    split_ifs at ht with hi hfut
    · obtain ⟨n, hn, rfl⟩ := Option.map_eq_some_iff.1 ht
      exact (h.parsed hpoll hi.1.1 hi.2.1 hi.2.2).node (Plan.move_of_stepBegun hn) (by simp)
    · cases ht
      exact h.parsed hpoll hi.1.1 hi.2.1 hi.2.2
  next => cases ht

theorem Inv.pollEnd (hK : ∀ v ∈ P.remotes, P.incoming v ≤ kMaxPiecesPerPhase) (h : P.Inv s)
    (ht : P.step s (.pollEnd v) = some t) : P.Inv t := by
  simp only [step] at ht
  split at ht
  next c hpoll =>
    cases ht
    have hv := h.polled v (by rw [hpoll]; simp)
    have hch := h.channels v hv
    have hun : ∀ i, (if P.source i = some v ∧ s.frame i = .parsed then Frame.queued
        else s.frame i) = .unread ↔ s.frame i = .unread := fun i => by
      split_ifs with hi
      · simp [hi.2]
      · rfl
    refine h.of_channel hv rfl rfl rfl (fun w hw => setChannel_of_ne _ hw)
      (fun w _ => received_congr hun w) ?_ ?_
    · rw [received_congr hun v]
      change ChannelInv _ _ _ ((s.setChannel v _).channel v)
      rw [setChannel_self]
      refine hch.complete (fun hm => ?_) (by push_cast; omega) ?_ (by positivity) fun _ => rfl
      · have := (hch.mapping hm).2.2.1
        rw [hpoll] at this
        cases this
      · exact (received_le s v).trans (incoming_le_quota (hK v hv) _)
    · change ((s.setChannel v _).channel v).counting = _
      rw [setChannel_self]
      simp [Channel.counting, hpoll]
  next => cases ht

theorem Inv.counter (h : P.Inv s) (ht : P.step s (.counter v) = some t) : P.Inv t := by
  simp only [step] at ht
  split at ht
  next c hpoll =>
    obtain ⟨n, hn, rfl⟩ := Option.map_eq_some_iff.1 ht
    have hmove := Plan.move_of_stepBegun hn
    have htotals := h.totals.move hmove
    cases hmove with
    | counterMessage hv happ =>
      have hbefore := h.loop_of_unapplied hv happ
      refine ⟨h.begun, htotals, fun w hw => ?_, fun w hw => ?_, fun w hw hc => ?_, fun _ => ?_,
        fun hl => absurd hbefore hl, fun o todo l n hl => h.todo o todo l n hl,
        fun o w todo l n hl => h.sum o w todo l n hl⟩
      · by_cases hwv : w = v
        · subst hwv
          change ChannelInv _ _ _ ((s.setChannel w _).channel w)
          rw [setChannel_self]
          exact (h.channels w hw).setPoll (by rw [hpoll]; simp) _ _
        · change ChannelInv _ _ (update s.node.applied v true w)
            ((s.setChannel v _).channel w)
          rw [setChannel_of_ne _ hwv, update_of_ne hwv]
          exact h.channels w hw
      · exact h.polled_setChannel hv _ w hw
      · by_cases hwv : w = v
        · simp [hwv]
        · change ((s.setChannel v _).channel w).counting = true at hc
          rw [setChannel_of_ne _ hwv] at hc
          simpa [State.complete, hwv] using h.counting w hw hc
      · refine (h.counters hbefore).trans (sum_congr rfl fun w hw => ?_)
        change _ = (update s.node.applied v true w &&
          !((s.setChannel v _).channel w).counting).toNat
        by_cases hwv : w = v
        · subst hwv
          rw [setChannel_self, happ]
          simp [Channel.counting]
        · rw [setChannel_of_ne _ hwv, update_of_ne hwv]
  next => cases ht

theorem Inv.onCounterReceived (h : P.Inv s) (hok : P.PlansFlushed s (.onCounterReceived v))
    (ht : P.step s (.onCounterReceived v) = some t) : P.Inv t := by
  simp only [step] at ht
  split at ht
  next c hpoll =>
    have hv := h.polled v (by rw [hpoll]; simp)
    have hcounting : (s.channel v).counting = true := by simp [Channel.counting, hpoll]
    have hbefore := h.loop_of_counting hv hcounting
    have happ := h.counting v hv hcounting
    have hsum : ∀ p : Poll, p ≠ .counted → s.counters + 1 = ∑ w ∈ P.remotes,
        (s.node.applied w && !((s.setChannel v { s.channel v with
          poll := some (c, p) }).channel w).counting).toNat := fun p hp => by
      have hupdate := sum_update_add P.remotes
        (fun w ch => (s.node.applied w && !(Channel.counting ch)).toNat) s.channel hv
        { s.channel v with poll := some (c, p) }
      have hnew : Channel.counting { s.channel v with poll := some (c, p) } = false := by
        simp [Channel.counting, hp]
      have hold := h.counters hbefore
      simp only [happ, hcounting, hnew, Bool.not_true, Bool.and_false, Bool.not_false,
        Bool.and_self, Bool.toNat_false, Bool.toNat_true] at hupdate
      simp only [State.setChannel]
      omega
    have hchannels : ∀ (p : Poll) (l : Loop V), (∀ w ∈ P.remotes, l.adjusted w = false) →
        ∀ w ∈ P.remotes, ChannelInv (P.received s w) (P.quota w (l.adjusted w)) (s.node.applied w)
          ((s.setChannel v { s.channel v with poll := some (c, p) }).channel w) :=
      fun p l hl w hw => by
        have hold := h.channels w hw
        rw [hbefore] at hold
        rw [hl w hw]
        by_cases hwv : w = v
        · subst hwv
          rw [setChannel_self]
          exact hold.setPoll (by rw [hpoll]; simp) _ _
        · rw [setChannel_of_ne _ hwv]
          exact hold
    have hcounting' : ∀ p : Poll, p ≠ .counted → ∀ w ∈ P.remotes, ((s.setChannel v
        { s.channel v with poll := some (c, p) }).channel w).counting = true →
          s.node.applied w = true := fun p hp w hw hc => by
      by_cases hwv : w = v
      · rw [hwv]
        exact happ
      · rw [setChannel_of_ne _ hwv] at hc
        exact h.counting w hw hc
    split_ifs at ht with hlast
    · cases ht
      have hall : ∀ w ∈ P.remotes, (s.node.applied w && !((s.setChannel v { s.channel v with
          poll := some (c, .adjusting) }).channel w).counting).toNat = 1 := by
        refine (sum_eq_sum_iff_of_le fun w _ => Bool.toNat_le _).1 ?_
        rw [← hsum .adjusting (by decide), sum_const, smul_eq_mul, mul_one]
        omega
      simp only [Bool.toNat_eq_one, Bool.and_eq_true, Bool.not_eq_true'] at hall
      refine ⟨h.begun, h.totals, hchannels .adjusting _ fun w hw => ?_, h.polled_setChannel hv _,
        hcounting' .adjusting (by decide), fun hl => ?_, fun _ => ⟨fun w hw => (hall w hw).1,
          fun w hw => (hall w hw).2, hok hlast⟩, fun o todo l n hl => ?_, fun o w todo l n hl => ?_⟩
      · simp [Loop.adjusted, (P.mem_connections w).2 hw]
      · cases hl
      · cases hl
        exact ⟨P.connections_nodup, fun w hw => (P.mem_connections w).1 hw⟩
      · simp only [Loop.running.injEq] at hl
        obtain ⟨-, -, rfl, rfl⟩ := hl
        exact ⟨Nat.zero_le _, rfl⟩
    · cases ht
      exact ⟨h.begun, h.totals, hchannels .parsing _ fun w hw => by
          change s.loop.adjusted w = false
          rw [hbefore]
          rfl,
        h.polled_setChannel hv _, hcounting' .parsing (by decide),
        fun _ => hsum .parsing (by decide), fun hl => absurd hbefore hl, h.todo, h.sum⟩
  next => cases ht

theorem Inv.load (h : P.Inv s) (ht : P.step s .load = some t) : P.Inv t := by
  simp only [step] at ht
  split at ht
  next owner v todo level sum hloop =>
    split_ifs at ht with hlevel
    cases ht
    have hstable := h.stable (by rw [hloop]; simp)
    refine ⟨h.begun, h.totals, fun w hw => ?_, h.polled, h.counting, fun hl => ?_,
      fun _ => ⟨hstable.applied, hstable.counted, hstable.flushed⟩, fun o todo' l n hl => ?_,
      fun o w todo' l n hl => ?_⟩
    · have := h.channels w hw
      rwa [hloop] at this
    · cases hl
    · cases hl
      exact h.todo owner _ level sum hloop
    · cases hl
      have hsum := (h.sum owner v todo level sum hloop).2
      refine ⟨hlevel, ?_⟩
      rw [sum_range_succ, ← hsum, hstable.total_eq h.totals]
  next => cases ht

theorem Inv.adjust (hK : ∀ v ∈ P.remotes, P.incoming v ≤ kMaxPiecesPerPhase) (h : P.Inv s)
    (ht : P.step s .adjust = some t) : P.Inv t := by
  simp only [step] at ht
  split at ht
  next owner v todo level sum hloop =>
    split_ifs at ht with hlevel
    cases ht
    have hstable := h.stable (by rw [hloop]; simp)
    obtain ⟨hnodup, hmem⟩ := h.todo owner _ level sum hloop
    have hv := hmem v (by simp)
    have hch := h.channels v hv
    -- the sum is what all nodes have planned
    have hsum : sum = P.incoming v := by
      obtain ⟨hle, hsum⟩ := h.sum owner v todo level sum hloop
      rw [hsum, ← sum_countAll, show level = kPromiseMaxLevels by omega]
    have hcomplete : ChannelInv (P.received s v) (P.incoming v) (s.node.applied v)
        ((s.channel v).complete (kMaxPiecesPerPhase - sum)) := by
      rw [hloop, Loop.adjusted, decide_eq_false (by simp)] at hch
      rw [← ChannelInv.complete_eta]
      refine hch.complete (fun hm => ?_) ?_ ?_ ?_ hch.idle
      · have := (hch.mapping hm).2.2.2
        rw [hstable.applied v hv] at this
        cases this
      · rw [hsum, quota]
        omega
      · exact (received_le s v).trans (Nat.le_add_right _ _)
      · have := hK v hv
        omega
    have hpolls : ((s.channel v).complete (kMaxPiecesPerPhase - sum)).poll =
      (s.channel v).poll := by
      rw [← ChannelInv.complete_eta]
    have hcounting : ∀ w, ((s.setChannel v ((s.channel v).complete
        (kMaxPiecesPerPhase - sum))).channel w).counting = (s.channel w).counting := fun w => by
      by_cases hwv : w = v
      · rw [hwv, setChannel_self, Channel.counting, hpolls, Channel.counting]
      · rw [setChannel_of_ne _ hwv]
    refine ⟨h.begun, h.totals, fun w hw => ?_, fun w hw => ?_,
      fun w hw hc => h.counting w hw (hcounting w ▸ hc), fun hl => ?_, fun _ => ⟨hstable.applied,
        fun w hw => (hcounting w).trans (hstable.counted w hw), hstable.flushed⟩,
      fun o todo' l n hl => ?_, fun o w todo' l n hl => ?_⟩
    · by_cases hwv : w = v
      · subst hwv
        change ChannelInv _ (P.quota w (decide (w ∉ todo))) _ ((s.setChannel w _).channel w)
        rw [setChannel_self, decide_eq_true (List.nodup_cons.1 hnodup).1]
        exact hcomplete
      · have hold := h.channels w hw
        have hdec : decide (w ∉ v :: todo) = decide (w ∉ todo) := by simp [hwv]
        rw [hloop, Loop.adjusted, hdec] at hold
        change ChannelInv _ (P.quota w (decide (w ∉ todo))) _ ((s.setChannel v _).channel w)
        rw [setChannel_of_ne _ hwv]
        exact hold
    · exact h.polled_setChannel hv _ w hw
    · cases hl
    · cases hl
      exact ⟨(List.nodup_cons.1 hnodup).2, fun w hw => hmem w (by simp [hw])⟩
    · cases hl
      exact ⟨Nat.zero_le _, rfl⟩
  next => cases ht

theorem Inv.loopEnd (h : P.Inv s) (ht : P.step s .loopEnd = some t) : P.Inv t := by
  simp only [step] at ht
  split at ht
  next owner level sum hloop =>
    split at ht
    next c hpoll =>
      cases ht
      have hstable := h.stable (by rw [hloop]; simp)
      have hpolled : (s.channel owner).poll ≠ none := by rw [hpoll]; simp
      refine ⟨h.begun, h.totals, fun w hw => ?_, fun w hw => ?_,
        fun w hw _ => hstable.applied w hw, fun hl => ?_,
        fun _ => ⟨hstable.applied, fun w hw => ?_, hstable.flushed⟩, fun o todo l n hl => ?_,
        fun o w todo l n hl => ?_⟩
      · have hold := h.channels w hw
        rw [hloop, Loop.adjusted, decide_eq_true (by simp)] at hold
        by_cases hwo : w = owner
        · subst hwo
          change ChannelInv _ _ _ ((s.setChannel w _).channel w)
          rw [setChannel_self]
          exact hold.setPoll hpolled _ _
        · change ChannelInv _ _ _ ((s.setChannel owner _).channel w)
          rw [setChannel_of_ne _ hwo]
          exact hold
      · exact h.polled_setChannel (h.polled owner hpolled) _ w hw
      · cases hl
      · change ((s.setChannel owner _).channel w).counting = false
        by_cases hwo : w = owner
        · rw [hwo, setChannel_self]
          simp [Channel.counting]
        · rw [setChannel_of_ne _ hwo]
          exact hstable.counted w hw
      · cases hl
      · cases hl
    next => cases ht
  next => cases ht

theorem inv_callTxns (ht : P.step State.init .callTxns = some t) : P.Inv t := by
  simp only [step] at ht
  split_ifs at ht
  cases ht
  refine ⟨rfl, Plan.totals_callTxns, fun v _ => ⟨fun _ => ⟨rfl, ?_, rfl, rfl⟩, fun hm => ?_,
    fun hr => ?_, fun he => ?_, fun _ => rfl⟩, fun v hv => absurd rfl hv, fun v _ hc => ?_,
    fun _ => ?_, fun hl => absurd rfl hl, fun o todo l n hl => ?_, fun o v todo l n hl => ?_⟩
  · simp [received, State.init]
  · exact absurd rfl hm
  · cases hr
  · cases he
  · simp [Channel.counting, State.init] at hc
  · simp [Plan.callTxns, State.init]
  · cases hl
  · cases hl

/-- **Every step keeps the invariant**, when the plans are flushed in time. -/
theorem Inv.step (hK : ∀ v ∈ P.remotes, P.incoming v ≤ kMaxPiecesPerPhase) (h : P.Inv s)
    {ev : Event V C I} (hok : P.PlansFlushed s ev) (ht : P.step s ev = some t) : P.Inv t := by
  cases ev with
  | callTxns =>
    simp [Traffic.step, h.begun] at ht
  | node ev =>
    simp only [Traffic.step] at ht
    split_ifs at ht with hev
    obtain ⟨n, hn, rfl⟩ := Option.map_eq_some_iff.1 ht
    rw [P.step_of_begun h.begun] at hn
    refine h.node (Plan.move_of_stepBegun hn) fun v c hvc => ?_
    rw [hvc] at hev
    cases hev
  | pollMappingTable v => exact h.pollMappingTable ht
  | poll v c => exact h.poll ht
  | frame v i => exact h.frame ht
  | counter v => exact h.counter ht
  | onCounterReceived v => exact h.onCounterReceived hok ht
  | load => exact h.load ht
  | adjust => exact h.adjust hK ht
  | loopEnd => exact h.loopEnd ht
  | pollEnd v => exact h.pollEnd hK ht

theorem init_or_inv (hK : ∀ v ∈ P.remotes, P.incoming v ≤ kMaxPiecesPerPhase)
    {evs : List (Event V C I)} (hok : Along P.step P.PlansFlushed State.init evs)
    (hrun : run P.step State.init evs = some s) : s = State.init ∨ P.Inv s := by
  refine run_invariant (I := fun s => s = State.init ∨ P.Inv s) (fun s ev t hs hok ht => ?_) evs _ _
    (.inl rfl) hok hrun
  rcases hs with rfl | hs
  · cases ev with
    | callTxns => exact .inr (inv_callTxns ht)
    | node ev =>
      simp only [Traffic.step] at ht
      split_ifs at ht with hev
      obtain ⟨n, hn, rfl⟩ := Option.map_eq_some_iff.1 ht
      cases ev with
      | callTxns => cases hev
      | _ => cases hn
    | pollMappingTable v => simp [Traffic.step, State.init] at ht
    | poll v c => simp [Traffic.step, State.init] at ht
    | frame | counter | onCounterReceived | load | adjust | loopEnd | pollEnd => cases ht
  · exact .inr (hs.step hK hok ht)

/-- **The inbound accounting is exact when the plans are flushed in time.** In a run in which every
core with an item to come from another node has executed `FlushBufferPlan` before the last counter
message is counted, `nr_left` is never negative. A channel ends the phase only when it has received
everything all nodes have planned from its source, and when it has and the counters are corrected it
has ended the phase. -/
theorem inbound_exact (P : Traffic V C I)
    (hK : ∀ v ∈ P.remotes, P.incoming v ≤ kMaxPiecesPerPhase) (evs : List (Event V C I))
    (s : State V C I) (hok : Along P.step P.PlansFlushed State.init evs)
    (hrun : run P.step State.init evs = some s) (v : V) (hv : v ∈ P.remotes) :
    0 ≤ (s.channel v).nrLeft ∧
    (s.node.begun = true → (s.channel v).status = .endOfPhase →
      P.received s v = P.incoming v) ∧
    (s.loop = .after → (s.channel v).parsed = 0 → P.received s v = P.incoming v →
      (s.channel v).status = .endOfPhase) := by
  rcases init_or_inv hK hok hrun with rfl | h
  · refine ⟨le_rfl, fun hb => ?_, fun hl => ?_⟩
    · cases hb
    · cases hl
  · have hch := h.channels v hv
    refine ⟨hch.nrLeft_nonneg, fun _ => ?_, fun hl hparsed hrec => ?_⟩
    · exact hch.received_of_ended (received_le s v) (incoming_le_quota (hK v hv) _)
    · have hstable := h.stable (by rw [hl]; simp)
      rw [hl] at hch
      exact hch.ended_of_received (hstable.applied v hv) hparsed hrec

/-- Two cores and one other node. The core `true` plans a piece for the other node that calls one on
this node: the frame of the second comes from the other node. -/
def callBack : Traffic Unit Bool Unit where
  remotes := {()}
  items := {()}
  origin _ := .inr true
  index _ := (1, some ())
  indices := [(1, some ())]
  indices_nodup := by decide
  index_mem := by decide
  origin_mem := by decide
  connections := [()]
  connections_nodup := by decide
  mem_connections := by decide
  level_lt := by decide
  future _ := false

/-- The core `false` has flushed its plan and polls; it reads the counters of the other node. -/
def earlyCounter : List (Event Unit Bool Unit) :=
  [.callTxns, .node (.flushIndex false), .node (.flushEnd false), .pollMappingTable (),
    .poll () false, .counter (), .onCounterReceived ()] ++
  List.replicate kPromiseMaxLevels .load ++ [.adjust, .loopEnd]

def lateFrame : List (Event Unit Bool Unit) :=
  [.node (.flushIndex true), .node (.flushEnd true), .frame () (), .pollEnd ()]

/-- The channel ends the phase although the frame has not arrived, and the core that is in
`PollRoutines` takes `nr_left` below 0 when it does. -/
theorem inbound_ends_early :
    callBack.incoming () = 1 ∧
    ∃ s, run callBack.step State.init earlyCounter = some s ∧ s.node.begun = true ∧
      (s.channel ()).status = .endOfPhase ∧ callBack.received s () = 0 ∧
      ∃ t, run callBack.step s lateFrame = some t ∧ (t.channel ()).nrLeft = -1 := by decide +kernel

/-- When the core `true` flushes its plan first, the channel waits for the frame. -/
def timelyRun : List (Event Unit Bool Unit) :=
  [.callTxns, .node (.flushIndex false), .node (.flushEnd false), .node (.flushIndex true),
    .node (.flushEnd true), .pollMappingTable (), .poll () false, .counter (),
    .onCounterReceived ()] ++
  List.replicate kPromiseMaxLevels .load ++ [.adjust, .loopEnd, .frame () (), .pollEnd ()]

theorem inbound_exact_callBack :
    ∃ s, run callBack.step State.init timelyRun = some s ∧ callBack.received s () = 1 ∧
      (s.channel ()).status = .endOfPhase := by
  obtain ⟨s, hs, hloop, hparsed, hrec⟩ : ∃ s, run callBack.step State.init timelyRun = some s ∧
      s.loop = .after ∧ (s.channel ()).parsed = 0 ∧ callBack.received s () = 1 := by
    decide +kernel
  have hexact := inbound_exact callBack (by decide) timelyRun s (by decide +kernel) hs
    () (by decide)
  exact ⟨s, hs, hrec, hexact.2.2 hloop hparsed (hrec.trans (by decide))⟩

end Traffic

end Inbound

end Felis.Phase
