import Felis.Pwv.Serialise

/-!
# Where a transaction's edges are

A node has one inlined edge and an array of extra ones, allocated by the first `AddResources` for
all the edges that `ReserveEdge` has counted. `at(i)` takes its index as a `uint8_t`.

A transaction that reserves `n` edges and adds `n` resources in batches of any sizes has each of
them at a place of its own, inside of the inlined edge or the array, and finds them there, if and
only if `n ≤ 256` (`resources_stored`). With 257 edges the last index is narrowed to 0 and the last
resource overwrites the first (`resources_overwritten`).
-/

namespace Felis.Pwv

open Function List Option

variable {R : Type}

/-- What `Edge *at(uint8_t n)` points to. -/
inductive Place
  | inlined (k : ℕ)
  | extra (k : ℕ)
  deriving DecidableEq

def Place.ofSlot (j : ℕ) : Place :=
  if j < kInlineEdges then .inlined j else .extra (j - kInlineEdges)

/-- `at(i)`. -/
def Node.place (x : Node R) (i : ℕ) : Option Place := (x.slot i).map Place.ofSlot

/-- The place is in the node, or in its array of extra edges. -/
def Place.Inside (extra : Option ℕ) : Place → Prop
  | .inlined k => k < kInlineEdges
  | .extra k => ∃ n, extra = some n ∧ k < n

/-- The number of edges in the extra array of a node with `tot` edges, when it has one. -/
def extraEdges (tot : ℕ) : Option ℕ :=
  if kInlineEdges < tot then some (tot - kInlineEdges) else none

/-- The graph, with the number of edges in each node's extra array. -/
structure Storage (R : Type) where
  graph : Graph R
  extra : ℕ → Option ℕ

namespace Storage

def reserveEdge (seq : ℕ) (s : Storage R) (k : ℕ) : Option (Storage R) :=
  (s.graph.reserveEdge seq k).map fun G => { s with graph := G }

/-- The first part of `AddResources`: the extra array, filled with `Edge()`. -/
def allocExtra (seq : ℕ) (s : Storage R) : Storage R :=
  let x := s.graph.node seq
  if kInlineEdges < x.totResources ∧ s.extra seq = none then
    { graph := s.graph.setNode seq { x with
        edge := fun j =>
          if kInlineEdges ≤ j ∧ j < x.totResources then ⟨none, .null⟩ else x.edge j }
      extra := update s.extra seq (some (x.totResources - kInlineEdges)) }
  else s

def addResources (seq : ℕ) (s : Storage R) (res : List R) : Option (Storage R) :=
  let s := s.allocExtra seq
  (s.graph.addResources seq res).map fun G => { s with graph := G }

/-- A transaction calls `ReserveEdge` with these numbers, and then `AddResources` with these
batches. -/
def prepare (seq : ℕ) (s : Storage R) (ks : List ℕ) (batches : List (List R)) :
    Option (Storage R) :=
  (ks.foldlM (reserveEdge seq) s).bind fun s => batches.foldlM (addResources seq) s

end Storage

/-! ## The run -/

section Run

variable {s : Storage R} {seq tot : ℕ} {rs : List R}

/-- Edges were reserved, and none is used. -/
structure Reserved (s : Storage R) (seq tot : ℕ) : Prop where
  nr : (s.graph.node seq).nrResources = 0
  reserved : (s.graph.node seq).totResources = tot
  extra : s.extra seq = none

/-- The first edges hold the resources that were added; the extra array is there when one is
needed, unless nothing was added yet. -/
structure Stored (s : Storage R) (seq tot : ℕ) (rs : List R) : Prop where
  holds : Holds (s.graph.node seq) rs
  reserved : (s.graph.node seq).totResources = tot
  extra : rs = [] ∧ s.extra seq = none ∨ s.extra seq = extraEdges tot

theorem Reserved.reserve (ks : List ℕ) : ∀ {s : Storage R} {tot : ℕ}, Reserved s seq tot →
    tot + ks.sum < 2 ^ 16 → ∃ t, ks.foldlM (Storage.reserveEdge seq) s = some t ∧
      Reserved t seq (tot + ks.sum) := by
  induction ks with
  | nil =>
    intro s tot h _
    exact ⟨s, rfl, h⟩
  | cons k ks ih =>
    intro s tot h hlt
    rw [sum_cons, ← Nat.add_assoc] at hlt ⊢
    have hstep : s.reserveEdge seq k = some { s with
        graph := s.graph.setNode seq { s.graph.node seq with totResources := tot + k } } := by
      rw [Storage.reserveEdge, Graph.reserveEdge, if_neg (not_not.2 h.nr), h.reserved,
        Nat.mod_eq_of_lt (by omega), map_some]
    obtain ⟨t, ht, hres⟩ := ih (s := { s with
        graph := s.graph.setNode seq { s.graph.node seq with totResources := tot + k } })
      ⟨by rw [Graph.node_setNode_self]; exact h.nr, by rw [Graph.node_setNode_self], h.extra⟩ hlt
    exact ⟨t, by rw [foldlM_cons, hstep]; exact ht, hres⟩

theorem Reserved.stored (h : Reserved s seq tot) : Stored s seq tot [] where
  holds := ⟨h.nr, Nat.zero_le _, fun i hi => absurd hi (Nat.not_lt_zero i)⟩
  reserved := h.reserved
  extra := .inl ⟨rfl, h.extra⟩

/-- The array is allocated when nothing is stored in it. -/
theorem Stored.allocExtra (h : Stored s seq tot rs) :
    Stored (s.allocExtra seq) seq tot rs ∧
      (s.allocExtra seq).extra seq = extraEdges tot := by
  rw [Storage.allocExtra, h.reserved]
  by_cases hextra : s.extra seq = none
  · by_cases htot : kInlineEdges < tot
    · have hsize : extraEdges tot = some (tot - kInlineEdges) := if_pos htot
      have hrs : rs = [] := by
        rcases h.extra with ⟨hrs, -⟩ | hsome
        · exact hrs
        · rw [hextra, hsize] at hsome
          cases hsome
      subst hrs
      rw [if_pos ⟨htot, hextra⟩, hsize]
      refine ⟨⟨⟨?_, Nat.zero_le _, fun i hi => absurd hi (Nat.not_lt_zero i)⟩, ?_, .inr ?_⟩, ?_⟩
      · rw [Graph.node_setNode_self]
        exact h.holds.nr
      · rw [Graph.node_setNode_self]
      · rw [hsize]
        exact update_self ..
      · exact update_self ..
    · rw [if_neg fun hc => htot hc.1, extraEdges, if_neg htot]
      exact ⟨h, hextra⟩
  · rw [if_neg fun hc => hextra hc.2]
    exact ⟨h, h.extra.resolve_left fun hc => hextra hc.2⟩

/-- A batch that fits is stored behind the resources that are there. -/
theorem Stored.add (h : Stored s seq tot rs) (res : List R) (hfit : rs.length + res.length ≤ tot)
    (htot : tot ≤ 2 ^ 8) :
    ∃ t, s.addResources seq res = some t ∧ Stored t seq tot (rs ++ res) ∧
      t.extra seq = extraEdges tot := by
  obtain ⟨h, hextra⟩ := h.allocExtra
  generalize hs' : s.allocExtra seq = s' at h hextra
  have hroom : ¬(s'.graph.node seq).totResources < rs.length + res.length := by
    rw [h.reserved]
    omega
  obtain ⟨y, hy, hadd⟩ := addEdges_spec res
    (x := { s'.graph.node seq with nrResources := rs.length + res.length }) (i := rs.length)
    (not_lt.1 hroom) (by omega)
  dsimp only at hy
  refine ⟨{ s' with graph := s'.graph.setNode seq { y with mark := true } }, ?_, ⟨?_, ?_, ?_⟩,
    hextra⟩
  · rw [Storage.addResources, hs', Graph.addResources, h.holds.nr,
      Nat.mod_eq_of_lt (by omega), if_neg hroom, hy, map_some, map_some]
  · rw [Graph.node_setNode_self]
    refine ⟨?_, ?_, fun i hi => ?_⟩
    · rw [hadd.fields, length_append]
    · rw [hadd.fields, length_append]
      exact not_lt.1 hroom
    · change (y.edge i).resource = _
      by_cases hlt : i < rs.length
      · rw [hadd.old i hlt, getElem_append_left hlt]
        exact h.holds.resource i hlt
      · rw [length_append] at hi
        obtain ⟨k, rfl⟩ := Nat.exists_eq_add_of_le (not_lt.1 hlt)
        rw [hadd.new k (by omega), getElem_append_right (Nat.le_add_right _ _)]
        simp
  · rw [Graph.node_setNode_self, hadd.fields]
    exact h.reserved
  · exact .inr hextra

theorem Stored.addAll (batches : List (List R)) : ∀ {s : Storage R} {rs : List R},
    Stored s seq tot rs → rs.length + batches.flatten.length ≤ tot → tot ≤ 2 ^ 8 →
    ∃ t, batches.foldlM (Storage.addResources seq) s = some t ∧
      Stored t seq tot (rs ++ batches.flatten) := by
  induction batches with
  | nil =>
    intro s rs h _ _
    exact ⟨s, rfl, by rwa [flatten_nil, append_nil]⟩
  | cons res batches ih =>
    intro s rs h hfit htot
    rw [flatten_cons, length_append] at hfit
    obtain ⟨t, ht, hstored, -⟩ := h.add res (by omega) htot
    obtain ⟨u, hu, hall⟩ := ih hstored (by rw [length_append]; omega) htot
    exact ⟨u, by rw [foldlM_cons, ht]; exact hu, by rwa [flatten_cons, ← append_assoc]⟩

end Run

/-! ## Places -/

/-- The resources of a node are in edges of their own, and are found. -/
structure Addressed (s : Storage R) (seq : ℕ) [DecidableEq R] (rs : List R) : Prop where
  inside : ∀ i < rs.length, ∃ p, (s.graph.node seq).place i = some p ∧ p.Inside (s.extra seq)
  distinct : Set.InjOn (s.graph.node seq).place (Set.Iio rs.length)
  found : ∀ r ∈ rs, ∃ j, (s.graph.node seq).findEdge r = some (some j) ∧
    ((s.graph.node seq).edge j).resource = some r ∧
    ∃ i < rs.length, (s.graph.node seq).place i = some (Place.ofSlot j)
  missing : ∀ r ∉ rs, (s.graph.node seq).findEdge r = some none

theorem Place.ofSlot_injective : Injective Place.ofSlot := by
  intro i j h
  unfold Place.ofSlot at h
  split_ifs at h with hi hj
  · exact Place.inlined.inj h
  · have := Place.extra.inj h
    omega

theorem Stored.addressed [DecidableEq R] {s : Storage R} {seq : ℕ} {rs : List R}
    (h : Stored s seq rs.length rs) (hlen : rs.length ≤ 2 ^ 8) (hnd : rs.Nodup) :
    Addressed s seq rs := by
  have hplace : ∀ i < rs.length, (s.graph.node seq).place i = some (Place.ofSlot i) := by
    intro i hi
    rw [Node.place, h.holds.slot_eq hlen hi, map_some]
  refine ⟨fun i hi => ⟨_, hplace i hi, ?_⟩, fun i hi j hj heq => ?_, fun r hr => ?_, fun r hr => ?_⟩
  · have hextra := h.extra.resolve_left fun hc => by
      rw [hc.1] at hi
      exact absurd hi (Nat.not_lt_zero i)
    rw [Place.ofSlot]
    split_ifs with hin
    · exact hin
    · have : kInlineEdges < rs.length := by omega
      exact ⟨_, hextra.trans (if_pos this), by omega⟩
  · rw [hplace i hi, hplace j hj] at heq
    exact Place.ofSlot_injective (some.inj heq)
  · have hidx := idxOf_lt_length_of_mem hr
    refine ⟨rs.idxOf r, h.holds.findEdge_eq hlen hnd hr, ?_, _, hidx, hplace _ hidx⟩
    rw [h.holds.resource _ hidx, getElem_idxOf]
  · exact h.holds.findEdge_of_notMem hlen hr

/-- The index is narrowed, so no more than 256 edges are told apart. -/
theorem Addressed.length_le [DecidableEq R] {s : Storage R} {seq : ℕ} {rs : List R}
    (h : Addressed s seq rs) : rs.length ≤ 256 := by
  by_contra hlt
  have hsame : (s.graph.node seq).place 0 = (s.graph.node seq).place 256 := rfl
  cases h.distinct (show 0 < rs.length by omega) (show 256 < rs.length by omega) hsame

/-- **A transaction's resources have edges of their own.** When a transaction whose node was reset
reserves edges, in any number of calls, and adds as many pairwise distinct resources in batches of
any sizes, the calls succeed, `at(i)` is a different edge for each index, inside of the inlined edge
or of the extra array, and `FindEdge` returns the edge of each resource that was added and `nullptr`
for any other, if and only if there are at most 256 edges. -/
theorem resources_stored [DecidableEq R] (s : Storage R) (seq : ℕ)
    (hzero : s.graph.node seq = .zero) (hextra : s.extra seq = none) (ks : List ℕ)
    (batches : List (List R)) (hsum : ks.sum = batches.flatten.length)
    (hnd : batches.flatten.Nodup) :
    (∃ t, s.prepare seq ks batches = some t ∧ Addressed t seq batches.flatten) ↔
      ks.sum ≤ 256 := by
  refine ⟨fun ⟨t, _, h⟩ => hsum ▸ h.length_le, fun hle => ?_⟩
  have h0 : Reserved s seq 0 := ⟨by rw [hzero]; rfl, by rw [hzero]; rfl, hextra⟩
  obtain ⟨t, ht, hres⟩ := h0.reserve ks (by omega)
  rw [Nat.zero_add] at hres
  obtain ⟨u, hu, hstored⟩ := hres.stored.addAll batches (by rw [length_nil]; omega) (by omega)
  rw [nil_append, hsum] at hstored
  exact ⟨u, by rw [Storage.prepare, ht, bind_some, hu], hstored.addressed (by omega) hnd⟩

def emptyStorage : Storage ℕ := ⟨⟨fun _ => .zero, fun _ => 0, []⟩, fun _ => none⟩

/-- Five edges, reserved in two calls and used in three. -/
theorem resources_stored_fiveEdges : ∃ t,
    emptyStorage.prepare 1 [2, 3] [[7], [], [5, 9], [4, 8]] = some t ∧
      Addressed t 1 [7, 5, 9, 4, 8] :=
  (resources_stored emptyStorage 1 rfl rfl [2, 3] [[7], [], [5, 9], [4, 8]] rfl (by decide)).2
    (by decide)

/-- With 257 edges `at(256)` is `at(0)`, and the first resource is not found any more. -/
theorem resources_overwritten :
    ((emptyStorage.prepare 1 [257] [range 257]).map fun t =>
      ((t.graph.node 1).place 0, (t.graph.node 1).place 256, (t.graph.node 1).findEdge 0)) =
    some (some (.inlined 0), some (.inlined 0), some none) := by
  decide +kernel

end Felis.Pwv
