import Mathlib.Data.List.Perm.Basic
import Mathlib.Data.List.Count
import Mathlib.Tactic.Linarith
import Mathlib.Data.List.Nodup
import Felis.Foundations.Chains
import Felis.Foundations.Runs
import Felis.Pwv.Graph

/-!
# The graph serialises conflicts

`Rep` says what the graph is like after `Build` has gone through a part of the resources and some of
them have been activated: the successor on an edge is the next user of the resource, and the
in-degree of a transaction is the number of its resources whose last user before it has not
activated them.
-/

namespace Felis.Pwv

open Chains Runs Function List Option

variable {R : Type}

/-! ## Serial ids -/

namespace Graph

theorem stamp_eq {epoch seq : ℕ} (hepoch : epoch < 2 ^ 32) (hseq : seq < 2 ^ 24) :
    stamp epoch seq = epoch * 2 ^ 32 + seq * 2 ^ 8 := by
  have hlow : seq <<< 8 < 2 ^ 32 := by
    rw [Nat.shiftLeft_eq]
    omega
  have hhigh : epoch <<< 32 < 2 ^ 64 := by
    rw [Nat.shiftLeft_eq]
    omega
  rw [stamp, Nat.mod_eq_of_lt hlow, Nat.mod_eq_of_lt hhigh, ← Nat.shiftLeft_add_eq_or_of_lt hlow,
    Nat.shiftLeft_eq, Nat.shiftLeft_eq]

theorem stamp_epoch {epoch seq : ℕ} (hepoch : epoch < 2 ^ 32) (hseq : seq < 2 ^ 24) :
    stamp epoch seq >>> 32 = epoch := by
  rw [stamp_eq hepoch hseq, Nat.shiftRight_eq_div_pow]
  omega

theorem fromSerialId_stamp {n epoch seq : ℕ} (hepoch : epoch < 2 ^ 32) (hn : n < 2 ^ 24)
    (hseq : 1 ≤ seq ∧ seq ≤ n) : fromSerialId n (stamp epoch seq) = some seq := by
  have hval : (stamp epoch seq >>> 8) % 2 ^ 24 = seq := by
    rw [stamp_eq hepoch (by omega), Nat.shiftRight_eq_div_pow]
    omega
  rw [fromSerialId, hval, if_pos hseq]

theorem fromSerialId_serialId {n epoch seq id : ℕ} (hn : n < 2 ^ 24)
    (hseq : 1 ≤ seq ∧ seq ≤ n) (hid : id < 2 ^ 8) :
    fromSerialId n (serialId epoch seq id) = some seq := by
  have hval : (serialId epoch seq id >>> 8) % 2 ^ 24 = seq := by
    have hlt : seq <<< 8 + id < 2 ^ 32 := by
      rw [Nat.shiftLeft_eq]
      omega
    rw [serialId, Nat.or_assoc, ← Nat.shiftLeft_add_eq_or_of_lt hid,
      ← Nat.shiftLeft_add_eq_or_of_lt hlt, Nat.shiftLeft_eq, Nat.shiftLeft_eq,
      Nat.shiftRight_eq_div_pow]
    omega
  rw [fromSerialId, hval, if_pos hseq]

end Graph

/-! ## Nodes -/

/-- The first edges of the node have the given resources. -/
structure Holds (x : Node R) (rs : List R) : Prop where
  nr : x.nrResources = rs.length
  tot : rs.length ≤ x.totResources
  resource : ∀ i (h : i < rs.length), (x.edge i).resource = some rs[i]

/-- The node has the given resources, and is registered. -/
structure Layout (x : Node R) (rs : List R) : Prop extends Holds x rs where
  schedEntry : x.schedEntry = true
  onNodeFree : x.onNodeFree = true

namespace Holds

variable {x : Node R} {rs : List R} {r : R}

theorem slot_eq (h : Holds x rs) (hlen : rs.length ≤ 2 ^ 8) {i : ℕ} (hi : i < rs.length) :
    x.slot i = some i := by
  have htot := h.tot
  rw [Node.slot, Nat.mod_eq_of_lt (by omega)]
  split_ifs with hinline hextra
  · rfl
  · rfl
  · omega

variable [DecidableEq R]

theorem findEdgeFrom_eq (h : Holds x rs) (hlen : rs.length ≤ 2 ^ 8) (hnd : rs.Nodup) (hr : r ∈ rs)
    {left i : ℕ} (hi : i ≤ rs.idxOf r) (hleft : i + left = rs.length) :
    x.findEdgeFrom r left i = some (some (rs.idxOf r)) := by
  have hidx : rs.idxOf r < rs.length := idxOf_lt_length_of_mem hr
  induction left generalizing i with
  | zero => omega
  | succ left ih =>
    have hlt : i < rs.length := by omega
    rw [Node.findEdgeFrom, h.slot_eq hlen hlt, bind_some, h.resource i hlt]
    split_ifs with heq
    · rw [← some.inj heq, hnd.idxOf_getElem]
    · refine ih ?_ (by omega)
      refine Nat.lt_of_le_of_ne hi fun hc => heq ?_
      subst hc
      rw [getElem_idxOf]

theorem findEdge_eq (h : Holds x rs) (hlen : rs.length ≤ 2 ^ 8) (hnd : rs.Nodup) (hr : r ∈ rs) :
    x.findEdge r = some (some (rs.idxOf r)) := by
  rw [Node.findEdge, h.nr]
  exact h.findEdgeFrom_eq hlen hnd hr (Nat.zero_le _) (Nat.zero_add _)

theorem findEdge_of_notMem (h : Holds x rs) (hlen : rs.length ≤ 2 ^ 8) (hr : r ∉ rs) :
    x.findEdge r = some none := by
  have hfrom : ∀ left i, i + left = rs.length → x.findEdgeFrom r left i = some none := by
    intro left
    induction left with
    | zero =>
      intro i _
      rfl
    | succ left ih =>
      intro i hi
      have hlt : i < rs.length := by omega
      rw [Node.findEdgeFrom, h.slot_eq hlen hlt, bind_some, h.resource i hlt, if_neg]
      · exact ih (i + 1) (by omega)
      · exact fun hc => hr (some.inj hc ▸ getElem_mem hlt)
  rw [Node.findEdge, h.nr]
  exact hfrom _ 0 (Nat.zero_add _)

end Holds

namespace Layout

variable {x : Node R} {rs : List R} {r : R}

/-- A write to the node of an edge, or to the in-degree. -/
theorem congr (h : Layout x rs) {y : Node R} (hnr : y.nrResources = x.nrResources)
    (htot : y.totResources = x.totResources) (hres : ∀ i, (y.edge i).resource = (x.edge i).resource)
    (hsched : y.schedEntry = x.schedEntry) (hfree : y.onNodeFree = x.onNodeFree) : Layout y rs where
  nr := hnr.trans h.nr
  tot := htot ▸ h.tot
  resource i hi := (hres i).trans (h.resource i hi)
  schedEntry := hsched.trans h.schedEntry
  onNodeFree := hfree.trans h.onNodeFree

end Layout

/-- What the loop of `AddResources` leaves in the node. -/
structure Added (x y : Node R) (i : ℕ) (rs : List R) : Prop where
  fields : y = { x with edge := y.edge }
  new : ∀ k (h : k < rs.length), y.edge (i + k) = ⟨some rs[k], .null⟩
  old : ∀ j, j < i → y.edge j = x.edge j
  null : (∀ j, (x.edge j).node = .null) → ∀ j, (y.edge j).node = .null

theorem addEdges_spec (rs : List R) : ∀ {x : Node R} {i : ℕ}, i + rs.length ≤ x.totResources →
    i + rs.length ≤ 2 ^ 8 → ∃ y, Graph.addEdges x i rs = some y ∧ Added x y i rs := by
  induction rs with
  | nil =>
    intro x i _ _
    exact ⟨x, rfl, rfl, fun k hk => absurd hk (Nat.not_lt_zero k), fun _ _ => rfl, id⟩
  | cons r rs ih =>
    intro x i htot hlen
    rw [length_cons] at htot hlen
    have hslot : x.slot i = some i := by
      rw [Node.slot, Nat.mod_eq_of_lt (by omega)]
      split_ifs
      · rfl
      · rfl
      · omega
    obtain ⟨y, hy, hadd⟩ := ih (x := x.setEdge i ⟨some r, .null⟩) (i := i + 1)
      (by change _ ≤ x.totResources; omega) (by omega)
    refine ⟨y, ?_, ?_, ?_, ?_, ?_⟩
    · rw [Graph.addEdges, hslot, bind_some, hy]
    · exact hadd.fields
    · intro k hk
      cases k with
      | zero =>
        rw [Nat.add_zero, hadd.old i (Nat.lt_succ_self i)]
        exact update_self ..
      | succ k =>
        rw [← Nat.add_assoc, Nat.add_right_comm]
        exact hadd.new k (Nat.lt_of_succ_lt_succ hk)
    · intro j hj
      rw [hadd.old j (Nat.lt_succ_of_lt hj)]
      exact update_of_ne hj.ne ..
    · intro hnull j
      refine hadd.null (fun j => ?_) j
      unfold Node.setEdge
      dsimp only
      by_cases hj : j = i
      · rw [hj, update_self]
      · rw [update_of_ne hj]
        exact hnull j

/-! ## The state of the graph -/

/-- The transactions of an epoch with their resources. -/
structure Workload (R : Type) where
  n : ℕ
  epoch : ℕ
  marked : ℕ → Bool
  res : ℕ → List R
  range : ∀ seq, marked seq = true → 1 ≤ seq ∧ seq ≤ n
  nodup : ∀ seq, (res seq).Nodup
  length_le : ∀ seq, (res seq).length ≤ 256

namespace Workload

variable (W : Workload R)

def uses (seq : ℕ) (r : R) : Prop := W.marked seq = true ∧ r ∈ W.res seq

def edgeOf [DecidableEq R] (G : Graph R) (seq : ℕ) (r : R) : Edge R :=
  (G.node seq).edge ((W.res seq).idxOf r)

/-- The number of resources whose last user before has not activated them. -/
noncomputable def degree (act : List (ℕ × R)) (q : ℕ) : ℕ :=
  (W.res q).countP fun r =>
    @decide (∃ p, IsPrev W.uses p r q ∧ (p, r) ∉ act) (Classical.propDecidable _)

/-- All resources of the transactions before `seq`, and those in `done` of `seq` itself. -/
def upTo (seq : ℕ) (done : List R) (q : ℕ) (r : R) : Prop :=
  W.uses q r ∧ (q < seq ∨ q = seq ∧ r ∈ done)

end Workload

variable {W : Workload R} {G H : Graph R} {S S' : ℕ → R → Prop} {act : List (ℕ × R)} {B : ℕ}
  {p q seq : ℕ} {r : R}

structure Shape (W : Workload R) (G : Graph R) : Prop where
  mark : ∀ seq, 1 ≤ seq → seq ≤ W.n → (G.node seq).mark = W.marked seq
  layout : ∀ seq, W.marked seq = true → Layout (G.node seq) (W.res seq)

/-- The resources, when the users in `S` have stamped them. -/
structure Words (W : Workload R) (G : Graph R) (S : ℕ → R → Prop) : Prop where
  stamped : ∀ r q, S q r → (∀ m, S m r → m ≤ q) → G.word r = Graph.stamp W.epoch q
  fresh : ∀ r q, W.uses q r → (∀ m, ¬S m r) → G.word r >>> 32 ≠ W.epoch

/-- The in-degrees and the notifications, when the nodes before `B` have been built. -/
structure Degrees (W : Workload R) (G : Graph R) (act : List (ℕ × R)) (B : ℕ) : Prop where
  inDegree : ∀ q, W.marked q = true → (G.node q).inDegree = if q < B then W.degree act q else 0
  notified : ∀ q, q ∈ G.notified ↔ W.marked q = true ∧ q < B ∧ W.degree act q = 0
  nodup : G.notified.Nodup

theorem Workload.degree_le (W : Workload R) (act : List (ℕ × R)) (q : ℕ) : W.degree act q ≤ 256 :=
  countP_le_length.trans (W.length_le q)

/-- In the end, the in-degree is 0 when a transaction is free. -/
theorem Workload.degree_eq_zero :
    W.degree act q = 0 ↔ Free W.uses (fun p r => (p, r) ∈ act) q := by
  unfold Workload.degree
  rw [countP_eq_zero]
  constructor
  · intro h r p hprev
    by_contra hact
    exact h r hprev.right.2 (@decide_eq_true _ (Classical.propDecidable _) ⟨p, hprev, hact⟩)
  · intro h r _ hdec
    obtain ⟨p, hprev, hact⟩ := @of_decide_eq_true _ (Classical.propDecidable _) hdec
    exact hact (h r p hprev)

theorem Workload.upTo_cons {done : List R} (hr : W.uses seq r) {q : ℕ} {r' : R} :
    W.upTo seq (r :: done) q r' ↔ W.upTo seq done q r' ∨ q = seq ∧ r' = r := by
  unfold Workload.upTo
  constructor
  · rintro ⟨huse, hlt | ⟨rfl, hmem⟩⟩
    · exact .inl ⟨huse, .inl hlt⟩
    · rcases mem_cons.1 hmem with rfl | hmem
      · exact .inr ⟨rfl, rfl⟩
      · exact .inl ⟨huse, .inr ⟨rfl, hmem⟩⟩
  · rintro (⟨huse, hlt | ⟨rfl, hmem⟩⟩ | ⟨rfl, rfl⟩)
    · exact ⟨huse, .inl hlt⟩
    · exact ⟨huse, .inr ⟨rfl, mem_cons_of_mem _ hmem⟩⟩
    · exact ⟨hr, .inr ⟨rfl, mem_cons_self⟩⟩

theorem upTo_le_of_isPrev {done : List R} (hprev : IsPrev W.uses p r seq) (hdone : r ∉ done) :
    W.upTo seq done p r ∧ ∀ m, W.upTo seq done m r → m ≤ p := by
  refine ⟨⟨hprev.left, .inl hprev.lt⟩, ?_⟩
  rintro m ⟨huse, hlt | ⟨-, hmem⟩⟩
  · by_contra hle
    exact hprev.between m (not_le.1 hle) hlt huse
  · exact absurd hmem hdone

theorem Shape.setNode (h : Shape W G) {x : Node R} (hmark : x.mark = (G.node p).mark)
    (hlayout : W.marked p = true → Layout x (W.res p)) : Shape W (G.setNode p x) where
  mark q h1 hn := by
    rw [← h.mark q h1 hn]
    by_cases hq : q = p
    · rw [hq, Graph.node_setNode_self, hmark]
    · rw [Graph.node_setNode_of_ne G hq]
  layout q hq := by
    by_cases hqp : q = p
    · subst hqp
      rw [Graph.node_setNode_self]
      exact hlayout hq
    · rw [Graph.node_setNode_of_ne G hqp]
      exact h.layout q hq

theorem Shape.congr_node (h : Shape W G) (hnode : H.node = G.node) : Shape W H where
  mark := by rw [hnode]; exact h.mark
  layout := by rw [hnode]; exact h.layout

theorem Words.congr_word (h : Words W G S) (hword : H.word = G.word) : Words W H S where
  stamped := by rw [hword]; exact h.stamped
  fresh := by rw [hword]; exact h.fresh

theorem Degrees.congr (h : Degrees W G act B)
    (hdeg : ∀ q, (H.node q).inDegree = (G.node q).inDegree)
    (hnot : H.notified = G.notified) : Degrees W H act B where
  inDegree q hq := (hdeg q).trans (h.inDegree q hq)
  notified q := by rw [hnot]; exact h.notified q
  nodup := by rw [hnot]; exact h.nodup

theorem inDegree_setEdge (G : Graph R) (p i : ℕ) (e : Edge R) (q : ℕ) :
    ((G.setNode p ((G.node p).setEdge i e)).node q).inDegree = (G.node q).inDegree := by
  by_cases hq : q = p
  · rw [hq, Graph.node_setNode_self]
    rfl
  · rw [Graph.node_setNode_of_ne G hq]

noncomputable def Workload.hasPrev (W : Workload R) (q : ℕ) (r : R) : Bool :=
  @decide (∃ p, IsPrev W.uses p r q ∧ (p, r) ∉ ([] : List (ℕ × R))) (Classical.propDecidable _)

theorem hasPrev_of_isPrev (h : IsPrev W.uses p r q) : W.hasPrev q r = true :=
  @decide_eq_true _ (Classical.propDecidable _) ⟨p, h, not_mem_nil⟩

theorem not_hasPrev (h : ∀ p, ¬IsPrev W.uses p r q) : W.hasPrev q r = false :=
  @decide_eq_false _ (Classical.propDecidable _) fun ⟨p, hp, _⟩ => h p hp

theorem Degrees.next (h : Degrees W G [] seq)
    (hdeg : ∀ q, q ≠ seq → (H.node q).inDegree = (G.node q).inDegree)
    (hself : W.marked seq = true → (H.node seq).inDegree = W.degree [] seq)
    (hnot : H.notified = if W.marked seq = true ∧ W.degree [] seq = 0 then G.notified ++ [seq]
      else G.notified) : Degrees W H [] (seq + 1) where
  inDegree q hq := by
    by_cases hqs : q = seq
    · subst hqs
      rw [hself hq, if_pos (Nat.lt_succ_self q)]
    · rw [hdeg q hqs, h.inDegree q hq]
      refine if_congr ?_ rfl rfl
      omega
  notified q := by
    have hold := h.notified q
    rw [hnot]
    split_ifs with hc
    · rw [mem_append, mem_singleton, hold]
      constructor
      · rintro (⟨hm, hlt, hz⟩ | rfl)
        · exact ⟨hm, Nat.lt_succ_of_lt hlt, hz⟩
        · exact ⟨hc.1, Nat.lt_succ_self q, hc.2⟩
      · rintro ⟨hm, hlt, hz⟩
        rcases (Nat.lt_succ_iff.1 hlt).lt_or_eq with hlt | rfl
        · exact .inl ⟨hm, hlt, hz⟩
        · exact .inr rfl
    · rw [hold]
      constructor
      · rintro ⟨hm, hlt, hz⟩
        exact ⟨hm, Nat.lt_succ_of_lt hlt, hz⟩
      · rintro ⟨hm, hlt, hz⟩
        rcases (Nat.lt_succ_iff.1 hlt).lt_or_eq with hlt | rfl
        · exact ⟨hm, hlt, hz⟩
        · exact absurd ⟨hm, hz⟩ hc
  nodup := by
    rw [hnot]
    split_ifs with hc
    · refine nodup_append.2 ⟨h.nodup, nodup_singleton seq, ?_⟩
      intro a ha b hb hab
      rw [mem_singleton.1 hb] at hab
      rw [hab] at ha
      exact absurd ((h.notified seq).1 ha).2.1 (lt_irrefl seq)
    · exact h.nodup

theorem mem_activate {p' : ℕ} {r' : R} (hne : p' ≠ p ∨ r' ≠ r) :
    (p', r') ∈ act ++ [(p, r)] ↔ (p', r') ∈ act := by
  rw [mem_append, mem_singleton, Prod.mk.injEq]
  exact or_iff_left fun hc => hne.elim (fun h => h hc.1) fun h => h hc.2

/-- The other transactions have as many edges as before. -/
theorem Workload.degree_other (hprev : ¬IsPrev W.uses p r q) :
    W.degree (act ++ [(p, r)]) q = W.degree act q := by
  unfold Workload.degree
  congr 1
  funext r'
  rw [decide_eq_decide]
  refine exists_congr fun p' => and_congr_right fun hprev' => not_congr ?_
  apply mem_activate
  by_contra hsame
  obtain ⟨hp, hr⟩ := not_or.1 hsame
  rw [not_not.1 hp, not_not.1 hr] at hprev'
  exact hprev hprev'

/-! ## Adding resources -/

namespace Workload

/-- The transactions reserve their edges, add their resources and are registered. -/
def addAll (W : Workload R) : Graph R → List ℕ → Option (Graph R)
  | G, [] => some G
  | G, seq :: seqs =>
    (G.reserveEdge seq (W.res seq).length).bind fun G =>
      (G.addResources seq (W.res seq)).bind fun G => addAll W (G.register seq) seqs

end Workload

structure Ready (x : Node R) (rs : List R) : Prop where
  layout : Layout x rs
  mark : x.mark = true
  inDegree : x.inDegree = 0
  null : ∀ j, (x.edge j).node = .null

theorem addNode_spec (hzero : G.node seq = .zero) :
    ∃ x, Ready x (W.res seq) ∧ ∀ seqs, W.addAll G (seq :: seqs) =
    W.addAll (G.setNode seq x) seqs := by
  have hlen := W.length_le seq
  have hmod : (0 + (W.res seq).length) % 2 ^ 16 = (W.res seq).length := by
    rw [Nat.zero_add, Nat.mod_eq_of_lt (by omega)]
  obtain ⟨y, hy, hadd⟩ := addEdges_spec (W.res seq)
    (x := { (Node.zero : Node R) with
      totResources := (W.res seq).length, nrResources := (W.res seq).length }) (i := 0)
    (Nat.zero_add _).le (by omega)
  have hreserve : G.reserveEdge seq (W.res seq).length =
      some (G.setNode seq { (Node.zero : Node R) with totResources := (W.res seq).length }) := by
    have hnr : ¬(Node.zero : Node R).nrResources ≠ 0 := not_not.2 rfl
    rw [Graph.reserveEdge, hzero, if_neg hnr]
    change some (G.setNode seq { (Node.zero : Node R) with
      totResources := (0 + (W.res seq).length) % 2 ^ 16 }) = _
    rw [hmod]
  refine ⟨{ y with mark := true, schedEntry := true, onNodeFree := true }, ?_, fun seqs => ?_⟩
  · rw [hadd.fields]
    refine ⟨⟨⟨rfl, le_rfl, fun k hk => ?_⟩, rfl, rfl⟩, rfl, rfl, hadd.null fun _ => rfl⟩
    have := hadd.new k hk
    rw [Nat.zero_add] at this
    change (y.edge k).resource = _
    rw [this]
  · rw [Workload.addAll, hreserve, bind_some, Graph.addResources, Graph.node_setNode_self]
    dsimp only
    rw [show (Node.zero : Node R).nrResources = 0 from rfl, hmod, if_neg (lt_irrefl _), hy,
      map_some, bind_some, Graph.setNode_setNode, Graph.register,
      Graph.node_setNode_self, Graph.setNode_setNode]

theorem addAll_spec (seqs : List ℕ) : ∀ {G : Graph R}, seqs.Nodup →
    (∀ seq ∈ seqs, G.node seq = .zero) →
    ∃ H, W.addAll G seqs = some H ∧ H.word = G.word ∧ H.notified = G.notified ∧
      (∀ seq ∈ seqs, Ready (H.node seq) (W.res seq)) ∧ ∀ seq, seq ∉ seqs →
      H.node seq = G.node seq := by
  induction seqs with
  | nil =>
    intro G _ _
    exact ⟨G, rfl, rfl, rfl, fun _ h => absurd h not_mem_nil, fun _ _ => rfl⟩
  | cons seq seqs ih =>
    intro G hnd hzero
    obtain ⟨hnotin, hnd⟩ := nodup_cons.1 hnd
    obtain ⟨x, hx, hadd⟩ := addNode_spec (W := W) (hzero seq mem_cons_self)
    have hrest : ∀ q ∈ seqs, (G.setNode seq x).node q = .zero := by
      intro q hq
      rw [Graph.node_setNode_of_ne G (ne_of_mem_of_not_mem hq hnotin)]
      exact hzero q (mem_cons_of_mem seq hq)
    obtain ⟨H, hH, hword, hnot, hready, hsame⟩ := ih hnd hrest
    refine ⟨H, ?_, hword, hnot, ?_, ?_⟩
    · rw [hadd, hH]
    · intro q hq
      rcases mem_cons.1 hq with rfl | hq
      · rw [hsame q hnotin, Graph.node_setNode_self]
        exact hx
      · exact hready q hq
    · intro q hq
      rw [mem_cons, not_or] at hq
      rw [hsame q hq.2, Graph.node_setNode_of_ne G hq.1]

/-! ## The edges -/

variable [DecidableEq R]

/-- The edges, when the users in `S` have been linked and those in `act` have activated. -/
structure Links (W : Workload R) (G : Graph R) (S : ℕ → R → Prop) (act : List (ℕ × R)) : Prop where
  next : ∀ p r q, IsPrev W.uses p r q → S q r →
    (W.edgeOf G p r).node = if (p, r) ∈ act then .activated else .node q
  last : ∀ p r, W.uses p r → (∀ q, IsPrev W.uses p r q → ¬S q r) → (W.edgeOf G p r).node = .null

theorem edgeOf_setEdge_self (x : Node R) (G : Graph R) (e : Edge R) (p : ℕ) (r : R) :
    W.edgeOf (G.setNode p (x.setEdge ((W.res p).idxOf r) e)) p r = e := by
  unfold Workload.edgeOf Graph.setNode Node.setEdge
  dsimp only
  rw [update_self]
  exact update_self ..

/-- An edge of another transaction, or for another resource. -/
theorem edgeOf_setEdge_of_ne {e : Edge R} {p' : ℕ} {r' : R} (hr : r ∈ W.res p)
    (hne : p' ≠ p ∨ r' ≠ r) :
    W.edgeOf (G.setNode p ((G.node p).setEdge ((W.res p).idxOf r) e)) p' r' = W.edgeOf G p' r' := by
  unfold Workload.edgeOf Graph.setNode Node.setEdge
  dsimp only
  by_cases hp : p' = p
  · subst hp
    rw [update_self]
    refine update_of_ne ?_ ..
    intro hidx
    rcases hne with hne | hne
    · exact hne rfl
    · exact hne ((idxOf_inj hr).1 hidx.symm).symm
  · rw [update_of_ne hp]

/-! ## `Build` -/

theorem Words.setWord {done : List R} (h : Words W G (W.upTo seq done)) (hr : W.uses seq r) :
    Words W (G.setWord r (Graph.stamp W.epoch seq)) (W.upTo seq (r :: done)) where
  stamped r' q hq hmax := by
    unfold Graph.setWord
    dsimp only
    by_cases hr' : r' = r
    · subst hr'
      rw [update_self]
      have hself : seq ≤ q := hmax seq ((Workload.upTo_cons hr).2 (.inr ⟨rfl, rfl⟩))
      have hle : q ≤ seq := by
        rcases hq.2 with hlt | ⟨rfl, -⟩
        · exact hlt.le
        · exact le_rfl
      rw [Nat.le_antisymm hself hle]
    · rw [update_of_ne hr']
      have hiff : ∀ m, W.upTo seq (r :: done) m r' ↔ W.upTo seq done m r' := by
        intro m
        rw [Workload.upTo_cons hr]
        exact or_iff_left fun hc => hr' hc.2
      exact h.stamped r' q ((hiff q).1 hq) fun m hm => hmax m ((hiff m).2 hm)
  fresh r' q hq hnone := by
    have hr' : r' ≠ r := by
      rintro rfl
      exact hnone seq ((Workload.upTo_cons hr).2 (.inr ⟨rfl, rfl⟩))
    unfold Graph.setWord
    dsimp only
    rw [update_of_ne hr']
    exact h.fresh r' q hq fun m hm => hnone m ((Workload.upTo_cons hr).2 (.inl hm))

/-- `seq` becomes the successor of the user before it. -/
theorem Links.setNext {done : List R} (h : Links W G (W.upTo seq done) [])
    (hprev : IsPrev W.uses p r seq) :
    Links W (G.setNode p ((G.node p).setEdge ((W.res p).idxOf r)
      { W.edgeOf G p r with node := .node seq })) (W.upTo seq (r :: done)) [] where
  next p' r' q hq hS := by
    rcases (Workload.upTo_cons hprev.right).1 hS with hS | ⟨rfl, rfl⟩
    · by_cases hsame : p' = p ∧ r' = r
      · obtain ⟨rfl, rfl⟩ := hsame
        rw [edgeOf_setEdge_self, hq.right_unique hprev]
        rfl
      · rw [edgeOf_setEdge_of_ne hprev.left.2 (not_and_or.1 hsame)]
        exact h.next p' r' q hq hS
    · obtain rfl := hq.left_unique hprev
      rw [edgeOf_setEdge_self]
      rfl
  last p' r' huse hnone := by
    have hne : p' ≠ p ∨ r' ≠ r := by
      by_contra hsame
      obtain ⟨hp, hr⟩ := not_or.1 hsame
      rw [not_not.1 hp, not_not.1 hr] at hnone
      exact hnone seq hprev ((Workload.upTo_cons hprev.right).2 (.inr ⟨rfl, rfl⟩))
    rw [edgeOf_setEdge_of_ne hprev.left.2 hne]
    exact h.last p' r' huse fun q hq hS => hnone q hq ((Workload.upTo_cons hprev.right).2 (.inl hS))

/-- Nobody has used the resource before. -/
theorem Links.first {done : List R} (h : Links W G (W.upTo seq done) []) (hr : W.uses seq r)
    (hfirst : ∀ p, ¬IsPrev W.uses p r seq) : Links W G (W.upTo seq (r :: done)) [] where
  next p' r' q hq hS := by
    rcases (Workload.upTo_cons hr).1 hS with hS | ⟨rfl, rfl⟩
    · exact h.next p' r' q hq hS
    · exact absurd hq (hfirst p')
  last p' r' huse hnone :=
    h.last p' r' huse fun q hq hS => hnone q hq ((Workload.upTo_cons hr).2 (.inl hS))

/-- A write to the successor of an edge. -/
theorem Shape.setEdge (h : Shape W G) (p : ℕ) (r : R) (l : Link) :
    Shape W (G.setNode p
      ((G.node p).setEdge ((W.res p).idxOf r) { W.edgeOf G p r with node := l })) := by
  refine h.setNode rfl fun hp => (h.layout p hp).congr rfl rfl (fun i => ?_) rfl rfl
  unfold Node.setEdge
  dsimp only
  by_cases hi : i = (W.res p).idxOf r
  · rw [hi, update_self]
    rfl
  · rw [update_of_ne hi]

theorem Links.congr_node (h : Links W G S act) (hnode : H.node = G.node) : Links W H S act where
  next := by unfold Workload.edgeOf; rw [hnode]; exact h.next
  last := by unfold Workload.edgeOf; rw [hnode]; exact h.last

/-- The graph while `Build` is at the transaction `seq` and has been through the resources
`done`. -/
structure Building (W : Workload R) (G : Graph R) (seq : ℕ) (done : List R) : Prop where
  shape : Shape W G
  links : Links W G (W.upTo seq done) []
  words : Words W G (W.upTo seq done)
  degrees : Degrees W G [] seq

/-- `Build` is at the next transaction. -/
theorem Building.next {done : List R} (h : Building W G seq done)
    (hdegrees : Degrees W H [] (seq + 1))
    (hshape : Shape W H) (hnode : ∀ q i, ((H.node q).edge i) = ((G.node q).edge i))
    (hword : H.word = G.word) (hdone : ∀ r, W.uses seq r → r ∈ done) :
    Building W H (seq + 1) [] := by
  have hS : W.upTo (seq + 1) [] = W.upTo seq done := by
    funext q r
    apply propext
    unfold Workload.upTo
    refine and_congr_right fun huse => ?_
    constructor
    · rintro (hlt | ⟨-, hmem⟩)
      · rcases (Nat.lt_succ_iff.1 hlt).lt_or_eq with hlt | rfl
        · exact .inl hlt
        · exact .inr ⟨rfl, hdone r huse⟩
      · cases hmem
    · rintro (hlt | ⟨rfl, -⟩)
      · exact .inl (Nat.lt_succ_of_lt hlt)
      · exact .inl (Nat.lt_succ_self q)
  refine ⟨hshape, ?_, ?_, hdegrees⟩
  · rw [hS]
    constructor
    · unfold Workload.edgeOf
      simp only [hnode]
      exact h.links.next
    · unfold Workload.edgeOf
      simp only [hnode]
      exact h.links.last
  · rw [hS]
    exact h.words.congr_word hword

section

variable (hn : W.n < 2 ^ 24) (hepoch : W.epoch < 2 ^ 32)

include hn hepoch

theorem Building.link {done : List R} (h : Building W G seq done) (hdone : r ∉ done)
    (hprev : IsPrev W.uses p r seq) :
    G.word r >>> 32 = W.epoch ∧ G.link W.n seq r = some (G.setNode p
      ((G.node p).setEdge ((W.res p).idxOf r) { W.edgeOf G p r with node := .node seq })) := by
  have hrange := W.range p hprev.left.1
  obtain ⟨hS, hmax⟩ := upTo_le_of_isPrev hprev hdone
  have hword := h.words.stamped r p hS hmax
  constructor
  · rw [hword, Graph.stamp_epoch hepoch (by omega)]
  · rw [Graph.link, hword, Graph.fromSerialId_stamp hepoch hn hrange, bind_some,
      (h.shape.layout p hprev.left.1).findEdge_eq (W.length_le p) (W.nodup p) hprev.left.2,
      bind_some, map_some]
    rfl

theorem Building.buildEdge {done : List R} (h : Building W G seq done) (hseq : W.marked seq = true)
    {i : ℕ} (hi : i < (W.res seq).length) (hdone : (W.res seq)[i] ∉ done) (d : ℕ) :
    ∃ H, Graph.buildEdge W.n W.epoch seq G d i =
        some (H, d + (W.hasPrev seq (W.res seq)[i]).toNat) ∧
      Building W H seq ((W.res seq)[i] :: done) := by
  have hlayout := h.shape.layout seq hseq
  have huse : W.uses seq (W.res seq)[i] := ⟨hseq, getElem_mem hi⟩
  rw [Graph.buildEdge, hlayout.slot_eq (W.length_le seq) hi, bind_some,
    hlayout.resource i hi, bind_some]
  by_cases hprev : ∃ p, IsPrev W.uses p (W.res seq)[i] seq
  · obtain ⟨p, hprev⟩ := hprev
    obtain ⟨hword, hlink⟩ := h.link hn hepoch hdone hprev
    rw [if_pos hword, hlink, map_some, hasPrev_of_isPrev hprev]
    refine ⟨_, rfl, ⟨?_, ?_, ?_, ?_⟩⟩
    · exact (h.shape.setEdge p _ _).congr_node rfl
    · exact (h.links.setNext hprev).congr_node rfl
    · exact (h.words.setWord huse).congr_word rfl
    · exact h.degrees.congr (inDegree_setEdge G p _ _) rfl
  · have hfirst := not_exists.1 hprev
    have hword : G.word (W.res seq)[i] >>> 32 ≠ W.epoch := by
      refine h.words.fresh _ seq huse ?_
      rintro m ⟨hm, hlt | ⟨-, hmem⟩⟩
      · obtain ⟨p, hp, -⟩ := exists_isPrev hm huse hlt
        exact hfirst p hp
      · exact hdone hmem
    rw [if_neg hword, not_hasPrev hfirst]
    exact ⟨_, rfl, h.shape.congr_node rfl, (h.links.first huse hfirst).congr_node rfl,
      h.words.setWord huse, h.degrees.congr (fun _ => rfl) rfl⟩

theorem Building.buildEdges (hseq : W.marked seq = true) (rest : List R) :
    ∀ {G : Graph R} {i d : ℕ} {done : List R}, (W.res seq).drop i = rest →
      (∀ r ∈ rest, r ∉ done) → Building W G seq done →
      ∃ H, Graph.buildEdges W.n W.epoch seq G d (List.range' i rest.length) =
          some (H, d + rest.countP (W.hasPrev seq)) ∧
        Building W H seq (rest.reverse ++ done) := by
  induction rest with
  | nil =>
    intro G i d done _ _ h
    exact ⟨G, rfl, h⟩
  | cons r rest ih =>
    intro G i d done hdrop hnew h
    have hi : i < (W.res seq).length := by
      by_contra hi
      rw [drop_eq_nil_of_le (not_lt.1 hi)] at hdrop
      cases hdrop
    rw [drop_eq_getElem_cons hi] at hdrop
    obtain ⟨hr, hrest⟩ := List.cons.inj hdrop
    obtain ⟨H, hH, hbuild⟩ := h.buildEdge hn hepoch hseq hi
      (by rw [hr]; exact hnew r mem_cons_self) d
    rw [hr] at hH hbuild
    have hnd : (r :: rest).Nodup := by
      rw [← hr, ← hrest, ← drop_eq_getElem_cons hi]
      exact (W.nodup seq).sublist (drop_sublist i _)
    have hnew' : ∀ r' ∈ rest, r' ∉ r :: done := by
      intro r' hr' hmem
      rcases mem_cons.1 hmem with rfl | hmem
      · exact (nodup_cons.1 hnd).1 hr'
      · exact hnew r' (mem_cons_of_mem r hr') hmem
    obtain ⟨H', hH', hbuild'⟩ := ih (d := d + (W.hasPrev seq r).toNat) hrest hnew' hbuild
    refine ⟨H', ?_, ?_⟩
    · rw [length_cons, range'_succ, Graph.buildEdges, hH, bind_some]
      dsimp only
      rw [hH', countP_cons]
      cases W.hasPrev seq r
      · rfl
      · rw [if_pos rfl, Bool.toNat_true, Nat.add_assoc, Nat.add_comm 1]
    · rw [reverse_cons, append_assoc]
      exact hbuild'

theorem Building.buildNode (h : Building W G seq []) (hseq : 1 ≤ seq ∧ seq ≤ W.n) :
    ∃ H, Graph.buildNode W.n W.epoch G seq = some H ∧ Building W H (seq + 1) [] := by
  unfold Graph.buildNode
  rw [h.shape.mark seq hseq.1 hseq.2]
  cases hm : W.marked seq with
  | false =>
    refine ⟨G, rfl, h.next ?_ h.shape (fun _ _ => rfl) rfl fun r hr => ?_⟩
    · exact h.degrees.next (fun _ _ => rfl) (fun hc => by rw [hm] at hc; cases hc)
        (by rw [if_neg (by rw [hm]; simp)])
    · have := hr.1
      rw [hm] at this
      cases this
  | true =>
    have hlayout := h.shape.layout seq hm
    obtain ⟨H, hH, hbuild⟩ := Building.buildEdges hn hepoch hm (W.res seq) (i := 0) (d := 0) rfl
      (fun _ _ => not_mem_nil) h
    rw [if_neg (by simp), hlayout.nr, range_eq_range', hH, bind_some, Nat.zero_add]
    have hall : ∀ r, W.uses seq r → r ∈ (W.res seq).reverse ++ [] := by
      intro r hr
      rw [append_nil, mem_reverse]
      exact hr.2
    have hzero : (H.node seq).inDegree = 0 := by
      rw [hbuild.degrees.inDegree seq hm, if_neg (lt_irrefl seq)]
    dsimp only
    split_ifs with hpos
    · refine ⟨_, rfl, hbuild.next ?_ ?_ ?_ rfl hall⟩
      · refine hbuild.degrees.next (fun q hq => ?_) (fun _ => ?_) ?_
        · rw [Graph.node_setNode_of_ne H hq]
        · have hle := W.degree_le [] seq
          rw [Graph.node_setNode_self]
          change ((H.node seq).inDegree + W.degree [] seq) % 2 ^ 32 = _
          rw [hzero, Nat.zero_add, Nat.mod_eq_of_lt (by omega)]
        · rw [if_neg fun hc => hpos.ne' hc.2]
          rfl
      · exact hbuild.shape.setNode rfl fun hm =>
          (hbuild.shape.layout seq hm).congr rfl rfl (fun _ => rfl) rfl rfl
      · intro q i
        by_cases hq : q = seq
        · rw [hq, Graph.node_setNode_self]
          rfl
        · rw [Graph.node_setNode_of_ne H hq]
    · have hlayout' := hbuild.shape.layout seq hm
      rw [Graph.notifyFree, hlayout'.schedEntry, hlayout'.onNodeFree, if_pos rfl, if_pos rfl]
      have hdeg : W.degree [] seq = 0 := Nat.eq_zero_of_not_pos hpos
      refine ⟨_, rfl, hbuild.next ?_ (hbuild.shape.congr_node rfl) (fun _ _ => rfl) rfl hall⟩
      exact hbuild.degrees.next (fun _ _ => rfl) (fun _ => hzero.trans hdeg.symm)
        (by rw [if_pos ⟨hm, hdeg⟩])

theorem Building.buildNodes (k : ℕ) : ∀ {G : Graph R} {seq : ℕ}, Building W G seq [] → 1 ≤ seq →
    seq + k ≤ W.n + 1 → ∃ H, Graph.buildNodes W.n W.epoch G (List.range' seq k) = some H ∧
      Building W H (seq + k) [] := by
  induction k with
  | zero =>
    intro G seq h _ _
    exact ⟨G, rfl, h⟩
  | succ k ih =>
    intro G seq h hone hle
    obtain ⟨H, hH, hbuild⟩ := h.buildNode hn hepoch ⟨hone, by omega⟩
    obtain ⟨H', hH', hbuild'⟩ := ih hbuild (by omega) (by omega)
    refine ⟨H', ?_, ?_⟩
    · rw [range'_succ, Graph.buildNodes, hH, bind_some, hH']
    · rw [Nat.add_comm k 1, ← Nat.add_assoc]
      exact hbuild'

/-- The graph before `Build`, when the transactions have added their resources. -/
structure Prepared (W : Workload R) (G : Graph R) : Prop where
  shape : Shape W G
  null : ∀ p r, W.uses p r → (W.edgeOf G p r).node = .null
  inDegree : ∀ q, W.marked q = true → (G.node q).inDegree = 0
  fresh : ∀ q r, W.uses q r → G.word r >>> 32 ≠ W.epoch
  notified : G.notified = []

theorem Prepared.build (h : Prepared W G) :
    ∃ H, G.build W.n W.epoch = some H ∧ Building W H (W.n + 1) [] := by
  have hnone : ∀ q r, ¬W.upTo 1 [] q r := by
    rintro q r ⟨huse, hlt | ⟨-, hmem⟩⟩
    · exact absurd (W.range q huse.1).1 (not_le.2 hlt)
    · cases hmem
  have hstart : Building W G 1 [] := by
    refine ⟨h.shape, ⟨?_, ?_⟩, ⟨?_, ?_⟩, ⟨?_, ?_, ?_⟩⟩
    · exact fun p r q _ hS => absurd hS (hnone q r)
    · exact fun p r huse _ => h.null p r huse
    · exact fun r q hS => absurd hS (hnone q r)
    · exact fun r q huse _ => h.fresh q r huse
    · intro q hq
      rw [h.inDegree q hq, if_neg (not_lt.2 (W.range q hq).1)]
    · intro q
      rw [h.notified]
      exact iff_of_false not_mem_nil fun hc => absurd (W.range q hc.1).1 (not_le.2 hc.2.1)
    · rw [h.notified]
      exact nodup_nil
  obtain ⟨H, hH, hbuild⟩ := Building.buildNodes hn hepoch W.n hstart le_rfl (by omega)
  rw [Nat.add_comm 1] at hbuild
  exact ⟨H, hH, hbuild⟩

end

/-! ## `ActivateResources` -/

theorem countP_eq_add_one {l : List R} {P Q : R → Bool} (hnd : l.Nodup) (hr : r ∈ l)
    (hP : P r = true) (hQ : Q r = false) (hsame : ∀ r' ∈ l, r' ≠ r → P r' = Q r') :
    l.countP P = l.countP Q + 1 := by
  have hperm := perm_cons_erase hr
  rw [hperm.countP_eq P, hperm.countP_eq Q, countP_cons_of_pos hP,
    countP_cons_of_neg (by rw [hQ]; simp)]
  congr 1
  refine countP_congr fun r' hr' => ?_
  have hmem := hnd.mem_erase_iff.1 hr'
  rw [hsame r' hmem.2 hmem.1]

/-- The next user of the resource has one edge less. -/
theorem Workload.degree_next (hprev : IsPrev W.uses p r q) (hact : (p, r) ∉ act) :
    W.degree act q = W.degree (act ++ [(p, r)]) q + 1 := by
  refine countP_eq_add_one (W.nodup q) hprev.right.2 ?_ ?_ fun r' _ hne => ?_
  · exact @decide_eq_true _ (Classical.propDecidable _) ⟨p, hprev, hact⟩
  · refine @decide_eq_false _ (Classical.propDecidable _) ?_
    rintro ⟨p', hprev', hact'⟩
    rw [hprev'.left_unique hprev] at hact'
    exact hact' (mem_append_right _ (mem_singleton_self _))
  · rw [decide_eq_decide]
    refine exists_congr fun p' => and_congr_right fun _ => not_congr ?_
    exact (mem_activate (.inr hne)).symm

/-- The graph after `Build`, when the users in `act` have activated. -/
structure Active (W : Workload R) (G : Graph R) (act : List (ℕ × R)) : Prop where
  shape : Shape W G
  links : Links W G W.uses act
  degrees : Degrees W G act (W.n + 1)
  acted : ∀ p r, (p, r) ∈ act → p ∈ G.notified

theorem Building.active (h : Building W G (W.n + 1) []) : Active W G [] := { h with
  links := by
    have hS : W.upTo (W.n + 1) [] = W.uses := by
      funext q r
      apply propext
      exact ⟨fun hc => hc.1, fun huse => ⟨huse, .inl (Nat.lt_succ_of_le (W.range q huse.1).2)⟩⟩
    rw [← hS]
    exact h.links
  acted p r hmem := by cases hmem }

theorem Active.free_iff (h : Active W G act) :
    q ∈ G.notified ↔ W.marked q = true ∧ Free W.uses (fun p r => (p, r) ∈ act) q := by
  rw [h.degrees.notified, Workload.degree_eq_zero]
  exact and_congr_right fun hq => and_iff_right (Nat.lt_succ_of_le (W.range q hq).2)

/-- The last user of a resource activates it. -/
theorem Active.activateLast (h : Active W G act) (hp : p ∈ G.notified)
    (hlast : ∀ q, ¬IsPrev W.uses p r q) : Active W G (act ++ [(p, r)]) where
  shape := h.shape
  links :=
    { next := by
        intro p' r' q hprev huse
        rw [h.links.next p' r' q hprev huse]
        refine if_congr (mem_activate ?_).symm rfl rfl
        by_contra hsame
        obtain ⟨hp, hr⟩ := not_or.1 hsame
        rw [not_not.1 hp, not_not.1 hr] at hprev
        exact hlast q hprev
      last := h.links.last }
  degrees :=
    { inDegree := by
        intro q hq
        rw [Workload.degree_other (hlast q)]
        exact h.degrees.inDegree q hq
      notified := by
        intro q
        rw [Workload.degree_other (hlast q)]
        exact h.degrees.notified q
      nodup := h.degrees.nodup }
  acted p' r' hmem := by
    rcases mem_append.1 hmem with hmem | hmem
    · exact h.acted p' r' hmem
    · cases mem_singleton.1 hmem
      exact hp

/-- The in-degree of the next user is decremented, and it is notified when it is 0 then. -/
theorem Degrees.activate (h : Degrees W G act (W.n + 1)) (hprev : IsPrev W.uses p r q)
    (hact : (p, r) ∉ act) (hself : (H.node q).inDegree =
      if (G.node q).inDegree = 0 then 2 ^ 32 - 1 else (G.node q).inDegree - 1)
    (hother : ∀ q', q' ≠ q → (H.node q').inDegree = (G.node q').inDegree)
    (hnot : H.notified = if (H.node q).inDegree = 0 then G.notified ++ [q] else G.notified) :
    Degrees W H (act ++ [(p, r)]) (W.n + 1) := by
  have hq := hprev.right.1
  have hlt : q < W.n + 1 := Nat.lt_succ_of_le (W.range q hq).2
  have hdeg : (H.node q).inDegree = W.degree (act ++ [(p, r)]) q := by
    have hold := h.inDegree q hq
    rw [if_pos hlt, Workload.degree_next hprev hact] at hold
    rw [hself, hold, if_neg (Nat.succ_ne_zero _), Nat.add_sub_cancel]
  have hdegree : ∀ q', q' ≠ q → W.degree (act ++ [(p, r)]) q' = W.degree act q' := fun q' hne =>
    Workload.degree_other fun hprev' => hne (hprev'.right_unique hprev)
  have hnew : q ∉ G.notified := by
    rw [h.notified q, Workload.degree_next hprev hact]
    exact fun hc => Nat.succ_ne_zero _ hc.2.2
  refine ⟨fun q' hq' => ?_, fun q' => ?_, ?_⟩
  · by_cases hne : q' = q
    · rw [hne, hdeg, if_pos hlt]
    · rw [hother q' hne, hdegree q' hne]
      exact h.inDegree q' hq'
  · rw [hnot, hdeg]
    by_cases hne : q' = q
    · subst hne
      split_ifs with hz
      · exact iff_of_true (mem_append_right _ (mem_singleton_self q')) ⟨hq, hlt, hz⟩
      · exact iff_of_false hnew fun hc => hz hc.2.2
    · rw [hdegree q' hne, ← h.notified q']
      split_ifs
      · rw [mem_append, mem_singleton]
        exact or_iff_left hne
      · exact Iff.rfl
  · rw [hnot]
    split_ifs
    · refine nodup_append.2 ⟨h.nodup, nodup_singleton q, fun a ha b hb hab => ?_⟩
      rw [hab, mem_singleton.1 hb] at ha
      exact hnew ha
    · exact h.nodup

theorem Links.activate (h : Links W G W.uses act) (hprev : IsPrev W.uses p r q)
    (hnode : ∀ p', (H.node p').edge = (G.node p').edge) :
    Links W (H.setNode p ((H.node p).setEdge ((W.res p).idxOf r)
      { W.edgeOf G p r with node := .activated })) W.uses (act ++ [(p, r)]) where
  next p' r' q' hprev' huse := by
    by_cases hsame : p' = p ∧ r' = r
    · obtain ⟨rfl, rfl⟩ := hsame
      rw [edgeOf_setEdge_self, if_pos (mem_append_right _ (mem_singleton_self _))]
    · have hne := not_and_or.1 hsame
      rw [edgeOf_setEdge_of_ne hprev.left.2 hne, Workload.edgeOf, hnode]
      exact (h.next p' r' q' hprev' huse).trans (if_congr (mem_activate hne).symm rfl rfl)
  last p' r' huse hnone := by
    have hne : p' ≠ p ∨ r' ≠ r := by
      by_contra hsame
      obtain ⟨hp, hr⟩ := not_or.1 hsame
      rw [not_not.1 hp, not_not.1 hr] at hnone
      exact hnone q hprev hprev.right
    rw [edgeOf_setEdge_of_ne hprev.left.2 hne, Workload.edgeOf, hnode]
    exact h.last p' r' huse hnone

/-- The next user is notified when there is no edge left. -/
theorem Active.notify (h : Active W G act) (hq : W.marked q = true) :
    ∃ H, (if ((G.setNode q (G.node q).subInDegree).node q).inDegree = 0 then
        (G.setNode q (G.node q).subInDegree).notifyFree q
      else some (G.setNode q (G.node q).subInDegree)) = some H ∧
      H.node = (G.setNode q (G.node q).subInDegree).node ∧
      H.notified = if (H.node q).inDegree = 0 then G.notified ++ [q] else G.notified := by
  have hlayout := h.shape.layout q hq
  split_ifs with hz
  · unfold Graph.notifyFree
    rw [Graph.node_setNode_self]
    have hsched : (G.node q).subInDegree.schedEntry = true := hlayout.schedEntry
    have hfree : (G.node q).subInDegree.onNodeFree = true := hlayout.onNodeFree
    rw [if_pos hsched, if_pos hfree]
    refine ⟨_, rfl, rfl, ?_⟩
    rw [if_pos hz]
    rfl
  · refine ⟨_, rfl, rfl, ?_⟩
    rw [if_neg hz]
    rfl

theorem Active.activateResource (h : Active W G act) (hp : p ∈ G.notified) (hr : r ∈ W.res p)
    (hact : (p, r) ∉ act) :
    ∃ H, G.activateResource p r = some H ∧ Active W H (act ++ [(p, r)]) ∧
      G.notified ⊆ H.notified := by
  have hm := (h.free_iff.1 hp).1
  have huse : W.uses p r := ⟨hm, hr⟩
  rw [Graph.activateResource,
    (h.shape.layout p hm).findEdge_eq (W.length_le p) (W.nodup p) hr, bind_some, bind_some]
  dsimp only
  by_cases hnext : ∃ q, IsPrev W.uses p r q
  · obtain ⟨q, hprev⟩ := hnext
    obtain ⟨H, hH, hnode, hnot⟩ := h.notify hprev.right.1
    have hlink := h.links.next p r q hprev hprev.right
    rw [if_neg hact] at hlink
    rw [show ((G.node p).edge ((W.res p).idxOf r)).node = _ from hlink]
    dsimp only
    rw [hH, map_some]
    have hpq : p ≠ q := hprev.lt.ne
    have hedge : ∀ p', (H.node p').edge = (G.node p').edge := by
      intro p'
      rw [hnode]
      by_cases hp' : p' = q
      · rw [hp', Graph.node_setNode_self]
        rfl
      · rw [Graph.node_setNode_of_ne G hp']
    have hself : (H.node q).inDegree =
        if (G.node q).inDegree = 0 then 2 ^ 32 - 1 else (G.node q).inDegree - 1 := by
      rw [hnode, Graph.node_setNode_self]
      rfl
    have hother : ∀ q', q' ≠ q → (H.node q').inDegree = (G.node q').inDegree := by
      intro q' hq'
      rw [hnode, Graph.node_setNode_of_ne G hq']
    have hshape : Shape W H := by
      have hset : Shape W (G.setNode q (G.node q).subInDegree) := h.shape.setNode rfl fun hm =>
        (h.shape.layout q hm).congr rfl rfl (fun _ => rfl) rfl rfl
      exact hset.congr_node hnode
    have hsub : G.notified ⊆ H.notified := by
      rw [hnot]
      split_ifs
      · exact subset_append_left _ _
      · exact List.Subset.refl _
    have hedgeOf : W.edgeOf G p r = W.edgeOf H p r := by
      unfold Workload.edgeOf
      rw [hedge]
    refine ⟨_, rfl, ⟨?_, h.links.activate hprev hedge, ?_, ?_⟩, hsub⟩
    · change Shape W (H.setNode p
        ((H.node p).setEdge ((W.res p).idxOf r) { W.edgeOf G p r with node := .activated }))
      rw [hedgeOf]
      exact hshape.setEdge p r .activated
    · exact (h.degrees.activate hprev hact hself hother hnot).congr (inDegree_setEdge H p _ _) rfl
    · intro p' r' hmem
      apply hsub
      rcases mem_append.1 hmem with hmem | hmem
      · exact h.acted p' r' hmem
      · cases mem_singleton.1 hmem
        exact hp
  · have hlast := not_exists.1 hnext
    rw [show ((G.node p).edge ((W.res p).idxOf r)).node = _ from
      h.links.last p r huse fun q hprev => absurd hprev (hlast q)]
    exact ⟨G, rfl, h.activateLast hp hlast, List.Subset.refl _⟩

theorem Active.activateAll (rs : List R) : ∀ {G : Graph R} {act : List (ℕ × R)}, Active W G act →
    p ∈ G.notified → rs.Nodup → (∀ r ∈ rs, r ∈ W.res p ∧ (p, r) ∉ act) →
    ∃ H, Graph.activateAll p G rs = some H ∧ Active W H (act ++ rs.map (p, ·)) := by
  induction rs with
  | nil =>
    intro G act h _ _ _
    exact ⟨G, rfl, by rw [map_nil, append_nil]; exact h⟩
  | cons r rs ih =>
    intro G act h hp hnd hrs
    obtain ⟨hr, hact⟩ := hrs r mem_cons_self
    obtain ⟨H, hH, h', hsub⟩ := h.activateResource hp hr hact
    obtain ⟨hnotin, hnd⟩ := nodup_cons.1 hnd
    have hrest : ∀ r' ∈ rs, r' ∈ W.res p ∧ (p, r') ∉ act ++ [(p, r)] := by
      intro r' hr'
      obtain ⟨hres, hact'⟩ := hrs r' (mem_cons_of_mem r hr')
      refine ⟨hres, ?_⟩
      rw [mem_activate (.inr (ne_of_mem_of_not_mem hr' hnotin))]
      exact hact'
    obtain ⟨H', hH', h''⟩ := ih h' (hsub hp) hnd hrest
    refine ⟨H', ?_, ?_⟩
    · rw [Graph.activateAll, hH, bind_some, hH']
    · rw [append_assoc] at h''
      exact h''

/-! ## Runs -/

/-- The graph, and who has activated which resources. -/
structure State (R : Type) where
  graph : Graph R
  activated : List (ℕ × R)

/-- A call of `ActivateResources`, by a transaction on a node of the cluster. -/
structure Event (R : Type) where
  seq : ℕ
  id : ℕ
  res : List R

namespace Workload

/-- A transaction activates its own resources, each once, after it has been notified that it is
free. -/
def Allowed (W : Workload R) (s : State R) (e : Event R) : Prop :=
  e.seq ∈ s.graph.notified ∧ e.id < 2 ^ 8 ∧ e.res.Nodup ∧
    ∀ r ∈ e.res, r ∈ W.res e.seq ∧ (e.seq, r) ∉ s.activated

instance (W : Workload R) (s : State R) (e : Event R) : Decidable (W.Allowed s e) :=
  inferInstanceAs (Decidable (_ ∧ _))

def step (W : Workload R) (s : State R) (e : Event R) : Option (State R) :=
  if W.Allowed s e then
    (s.graph.activateResources W.n (Graph.serialId W.epoch e.seq e.id) e.res).map fun G =>
      ⟨G, s.activated ++ e.res.map (e.seq, ·)⟩
  else none

end Workload

theorem Active.step (hn : W.n < 2 ^ 24) {s : State R} {e : Event R}
    (h : Active W s.graph s.activated) (hok : W.Allowed s e) :
    ∃ t, W.step s e = some t ∧ Active W t.graph t.activated := by
  have hm := (h.free_iff.1 hok.1).1
  have hzero : (s.graph.node e.seq).inDegree = 0 := by
    rw [h.degrees.inDegree e.seq hm, ((h.degrees.notified e.seq).1 hok.1).2.2, ite_self]
  obtain ⟨H, hH, h'⟩ := h.activateAll e.res hok.1 hok.2.2.1 hok.2.2.2
  refine ⟨⟨H, s.activated ++ e.res.map (e.seq, ·)⟩, ?_, h'⟩
  rw [Workload.step, if_pos hok, Graph.activateResources,
    Graph.fromSerialId_serialId hn (W.range e.seq hm) hok.2.1, bind_some, hzero,
    if_neg (lt_irrefl 0), hH, map_some]

/-- After `Reset`, the calls of the transactions prepare the graph. -/
theorem prepared_addAll (seqs : List ℕ) (hnd : seqs.Nodup)
    (hmem : ∀ seq, seq ∈ seqs ↔ W.marked seq = true) (hzero : ∀ seq, G.node seq = .zero)
    (hnot : G.notified = []) (hfresh : ∀ q r, W.uses q r → G.word r >>> 32 ≠ W.epoch) :
    ∃ H, W.addAll G seqs = some H ∧ Prepared W H := by
  obtain ⟨H, hH, hword, hnot', hready, hsame⟩ := addAll_spec seqs hnd fun seq _ => hzero seq
  refine ⟨H, hH, ⟨fun seq _ _ => ?_, fun seq hseq => (hready seq ((hmem seq).2 hseq)).layout⟩, ?_,
    ?_, ?_, ?_⟩
  · by_cases hm : W.marked seq = true
    · rw [hm, (hready seq ((hmem seq).2 hm)).mark]
    · rw [hsame seq fun hc => hm ((hmem seq).1 hc), hzero, Bool.eq_false_of_not_eq_true hm]
      rfl
  · exact fun p r huse => (hready p ((hmem p).2 huse.1)).null _
  · exact fun q hq => (hready q ((hmem q).2 hq)).inDegree
  · rw [hword]
    exact hfresh
  · rw [hnot', hnot]

/-- What holds in every state after `Build`. -/
structure Serialised (W : Workload R) (s : State R) : Prop where
  no_abort : ∀ e, W.Allowed s e → ∃ t, W.step s e = some t
  once : s.graph.notified.Nodup
  free_iff : ∀ q, q ∈ s.graph.notified ↔ W.marked q = true ∧
    ∀ r p, IsPrev W.uses p r q → (p, r) ∈ s.activated
  released : ∀ q ∈ s.graph.notified, ∀ p r, p < q → W.uses p r → W.uses q r → (p, r) ∈ s.activated
  progress : (∃ q r, W.uses q r ∧ (q, r) ∉ s.activated) →
    ∃ q ∈ s.graph.notified, ∃ r, W.uses q r ∧ (q, r) ∉ s.activated

theorem Active.serialised (hn : W.n < 2 ^ 24) {s : State R} (h : Active W s.graph s.activated) :
    Serialised W s where
  no_abort e he := by
    obtain ⟨t, ht, -⟩ := h.step hn he
    exact ⟨t, ht⟩
  once := h.degrees.nodup
  free_iff q := h.free_iff
  released q hq :=
    (h.free_iff.1 hq).2.all_released fun p r _ hact => (h.free_iff.1 (h.acted p r hact)).2
  progress hleft := by
    obtain ⟨q, hfree, r, huse, hact⟩ := exists_free hleft
    exact ⟨q, h.free_iff.2 ⟨huse.1, hfree⟩, r, huse, hact⟩

/-- **The graph serialises conflicts.** When the sequence numbers fit in 24 bits and the epoch in
32, `Build` does not abort. After it, in every run in which the transactions activate their own
resources after they have been notified, no call aborts, a transaction is notified once, and exactly
when the last users of its resources before it have activated them; then all users before have. And
some transaction that is free has a resource to activate, as long as any transaction has one. -/
theorem conflicts_serialised (W : Workload R) (hn : W.n < 2 ^ 24) (hepoch : W.epoch < 2 ^ 32)
    (G : Graph R) (hG : Prepared W G) :
    ∃ H, G.build W.n W.epoch = some H ∧
      ∀ evs s, run W.step ⟨H, []⟩ evs = some s → Serialised W s := by
  obtain ⟨H, hH, hbuild⟩ := hG.build hn hepoch
  refine ⟨H, hH, fun evs s hrun => Active.serialised hn ?_⟩
  refine run_induction (I := fun s : State R => Active W s.graph s.activated) ?_ hbuild.active hrun
  intro s e t h ht
  have hok : W.Allowed s e := by
    by_contra hc
    rw [Workload.step, if_neg hc] at ht
    cases ht
  obtain ⟨t', ht', h'⟩ := h.step hn hok
  cases ht.symm.trans ht'
  exact h'

/-- Three transactions. The first one shares a resource with each of the others. -/
def threeTxns : Workload Bool where
  n := 3
  epoch := 1
  marked seq := 1 ≤ seq ∧ seq ≤ 3
  res seq := if seq = 1 then [false, true] else [decide (seq = 2)]
  range seq h := of_decide_eq_true h
  nodup seq := by split_ifs <;> simp
  length_le seq := by split_ifs <;> simp

def emptyGraph : Graph Bool := ⟨fun _ => .zero, fun _ => 0, []⟩

theorem word_emptyGraph {epoch : ℕ} (h : 0 < epoch) (r : Bool) :
    emptyGraph.word r >>> 32 ≠ epoch := by
  change 0 >>> 32 ≠ epoch
  rw [Nat.zero_shiftRight]
  exact h.ne

theorem mem_threeTxns (seq : ℕ) : seq ∈ [1, 2, 3] ↔ threeTxns.marked seq = true := by
  change _ ↔ decide (1 ≤ seq ∧ seq ≤ 3) = true
  rw [decide_eq_true_iff, mem_cons, mem_cons, mem_singleton]
  omega

/-- The first transaction activates the resource that it shares with the second. -/
theorem conflicts_serialised_threeTxns : ∃ G H s,
    threeTxns.addAll emptyGraph [1, 2, 3] = some G ∧ G.build threeTxns.n threeTxns.epoch = some H ∧
      run threeTxns.step ⟨H, []⟩ [⟨1, 0, [true]⟩] = some s ∧ s.graph.notified = [1, 2] ∧
        Serialised threeTxns s := by
  obtain ⟨G, hG, hprep⟩ := prepared_addAll (W := threeTxns) (G := emptyGraph) [1, 2, 3]
    (by decide) mem_threeTxns (fun _ => rfl) rfl (fun _ r _ => word_emptyGraph (by decide) r)
  obtain ⟨H, hH, hall⟩ := conflicts_serialised threeTxns (by decide) (by decide) G hprep
  have hrun : ((threeTxns.addAll emptyGraph [1, 2, 3]).bind fun G =>
      (G.build threeTxns.n threeTxns.epoch).bind fun H =>
        run threeTxns.step ⟨H, []⟩ [⟨1, 0, [true]⟩]).any
          (fun s : State Bool => decide (s.graph.notified = [1, 2])) = true := by
    decide +kernel
  rw [hG, bind_some, hH, bind_some] at hrun
  obtain ⟨s, hs, hnot⟩ := (any_eq_true _ _).1 hrun
  exact ⟨G, H, s, hG, hH, hs, of_decide_eq_true hnot, hall _ s hs⟩

/-- The same transactions in an epoch that does not fit in 32 bits. -/
def wideEpoch : Workload Bool := { threeTxns with epoch := 2 ^ 32 }

/-- Two transactions with sequence numbers that do not fit in 24 bits. -/
def wideSeq : Workload Bool where
  n := 2 ^ 24 + 6
  epoch := 1
  marked seq := seq = 2 ^ 24 + 5 ∨ seq = 2 ^ 24 + 6
  res _ := [true]
  range seq h := by
    have := of_decide_eq_true h
    omega
  nodup _ := nodup_singleton true
  length_le _ := by simp

/-- Nodes without a mark are left out. -/
theorem buildNodes_append {n epoch : ℕ} {seqs rest : List ℕ}
    (h : ∀ seq ∈ seqs, (G.node seq).mark = false) :
    Graph.buildNodes n epoch G (seqs ++ rest) = Graph.buildNodes n epoch G rest := by
  induction seqs with
  | nil => rfl
  | cons seq seqs ih =>
    rw [cons_append, Graph.buildNodes, Graph.buildNode, if_pos (h seq mem_cons_self),
      bind_some, ih fun q hq => h q (mem_cons_of_mem seq hq)]

/-- In an epoch that does not fit in 32 bits, every transaction is free at once. With sequence
numbers that do not fit in 24 bits, `Build` looks for the resource at the wrong node, and aborts. -/
theorem serial_id_overflow :
    (∃ G H, Prepared wideEpoch G ∧ G.build wideEpoch.n wideEpoch.epoch = some H ∧
      ¬Serialised wideEpoch ⟨H, []⟩) ∧
    ∃ G, Prepared wideSeq G ∧ G.build wideSeq.n wideSeq.epoch = none := by
  constructor
  · obtain ⟨G, hG, hprep⟩ := prepared_addAll (W := wideEpoch) (G := emptyGraph) [1, 2, 3]
      (by decide) mem_threeTxns (fun _ => rfl) rfl (fun _ r _ => word_emptyGraph (by decide) r)
    have hbuild : ((wideEpoch.addAll emptyGraph [1, 2, 3]).bind fun G =>
        G.build wideEpoch.n wideEpoch.epoch).any
          (fun H : Graph Bool => decide (H.notified = [1, 2, 3])) = true := by
      decide +kernel
    rw [hG, bind_some] at hbuild
    obtain ⟨H, hH, hnot⟩ := (any_eq_true _ _).1 hbuild
    refine ⟨G, H, hprep, hH, fun hs => ?_⟩
    have hprev : IsPrev wideEpoch.uses 1 true 2 :=
      ⟨⟨by decide, by decide⟩, ⟨by decide, by decide⟩, by decide, fun m h1 h2 => by omega⟩
    have hfree := (hs.free_iff 2).1 (by rw [of_decide_eq_true hnot]; decide)
    exact not_mem_nil (hfree.2 true 1 hprev)
  · obtain ⟨G, hG, hprep⟩ := prepared_addAll (W := wideSeq) (G := emptyGraph)
      [2 ^ 24 + 5, 2 ^ 24 + 6] (by decide) (fun seq => by simp [wideSeq]) (fun _ => rfl) rfl
      (fun _ r _ => word_emptyGraph (by decide) r)
    refine ⟨G, hprep, ?_⟩
    have hnone : ((wideSeq.addAll emptyGraph [2 ^ 24 + 5, 2 ^ 24 + 6]).map fun G =>
        (Graph.buildNodes wideSeq.n wideSeq.epoch G (List.range' (1 + (2 ^ 24 + 4)) 2)).isNone) =
          some true := by
      decide +kernel
    rw [hG, map_some, some_inj] at hnone
    have hn : wideSeq.n = 2 ^ 24 + 4 + 2 := rfl
    rw [Graph.build, show List.range' 1 wideSeq.n = List.range' 1 (2 ^ 24 + 4) ++
      List.range' (1 + (2 ^ 24 + 4)) 2 by rw [hn, range'_append_1], buildNodes_append]
    · exact isNone_iff_eq_none.1 hnone
    · intro seq hseq
      rw [mem_range'_1] at hseq
      rw [hprep.shape.mark seq hseq.1 (by rw [hn]; omega)]
      exact decide_eq_false (by omega)

end Felis.Pwv
