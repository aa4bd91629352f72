import Mathlib.Data.List.GetD
import Felis.Slice.Mapping

/-!
# The search for an owner

`LocateNodeLookup` is meant to go round over the nodes until it finds an owner. But every round of
its loop starts again from `next_node`, which is stored only after the loop, so it looks at one node
only: the call ends exactly when the node behind `next_node` is an owner, and never otherwise
(`lookup_spins`). The calls go on to return the owners in turn exactly when all nodes are owners
(`lookup_fair`).
-/

namespace Felis.Slice

/-- What a call has come to within a number of rounds. -/
inductive Located
  | found (id : ℕ) (ptr : ℤ)
  /-- An `int` overflows, or the index is negative. -/
  | undefined
  | probing
  deriving DecidableEq

structure NodeTable where
  table : SliceMappingTable
  /-- `slice_owners[i].id` for the `nr_nodes` nodes -/
  ids : List ℕ
  nextNode : ℤ

namespace NodeTable

variable (t : NodeTable) (sliceId : ℕ) (type : SliceOwnerType)

/-- `SliceMappingTable::LocateNodeLookup`, up to a number of rounds of its loop. -/
def locateNodeLookup : ℕ → Located
  | 0 => .probing
  | rounds + 1 =>
    let ptr := (t.nextNode + 1).tmod t.ids.length
    if t.nextNode + 1 = 2 ^ 31 ∨ ptr < 0 then .undefined
    else if t.table.owned ptr.toNat type sliceId then .found (t.ids.getD ptr.toNat 0) ptr
    else locateNodeLookup rounds

/-- The nodes that successive calls return, when each of them ends within so many rounds. -/
def lookups (rounds : ℕ) : ℕ → NodeTable → Option (List ℕ)
  | 0, _ => some []
  | k + 1, t =>
    match t.locateNodeLookup sliceId type rounds with
    | .found id ptr => (lookups rounds k { t with nextNode := ptr }).map (id :: ·)
    | _ => none

/-- The index that the calls start from. -/
def start : ℕ := ((t.nextNode + 1).tmod t.ids.length).toNat

/-- There is a node behind `next_node`: neither the sum overflows nor the remainder is negative. -/
def NextValid : Prop := t.nextNode + 1 ≠ 2 ^ 31 ∧ 0 ≤ (t.nextNode + 1).tmod t.ids.length

instance : Decidable t.NextValid := inferInstanceAs (Decidable (_ ∧ _))

variable {t sliceId type}

/-- However long the loop runs, it looks at the same node. -/
theorem locateNodeLookup_eq (t : NodeTable) (sliceId : ℕ) (type : SliceOwnerType) (rounds : ℕ) :
    t.locateNodeLookup sliceId type (rounds + 1) =
      if t.NextValid then
        if t.table.owned t.start type sliceId then .found (t.ids.getD t.start 0) t.start
        else .probing
      else .undefined := by
  have hstep : ∀ rounds, t.locateNodeLookup sliceId type (rounds + 1) =
      if t.NextValid then
        if t.table.owned t.start type sliceId then .found (t.ids.getD t.start 0) t.start
        else t.locateNodeLookup sliceId type rounds
      else .undefined := by
    intro rounds
    rw [locateNodeLookup]
    by_cases ht : t.NextValid
    · have hdefined := ht
      unfold NextValid at hdefined
      rw [if_pos ht, if_neg (by omega), start, Int.toNat_of_nonneg hdefined.2]
    · have hundefined := ht
      unfold NextValid at hundefined
      rw [if_neg ht, if_pos (by omega)]
  induction rounds with
  | zero => exact hstep 0
  | succ rounds ih =>
    rw [hstep, ih]
    split_ifs <;> rfl

section

variable (hn : t.ids ≠ []) (hids : t.ids.length < 2 ^ 31)

include hn

theorem start_lt (ht : t.NextValid) : t.start < t.ids.length := by
  have hpos : 0 < t.ids.length := List.length_pos_iff.2 hn
  have := Int.tmod_lt_of_pos (t.nextNode + 1) (by omega : (0 : ℤ) < t.ids.length)
  have := ht.2
  unfold start
  omega

include hids

/-- After a call there is always a node behind `next_node`. -/
theorem next_start (ht : t.NextValid) : NextValid { t with nextNode := t.start } ∧
    start { t with nextNode := t.start } = (t.start + 1) % t.ids.length := by
  have hlt := start_lt hn ht
  have hmod : ((t.start : ℤ) + 1).tmod t.ids.length = ((t.start + 1) % t.ids.length : ℕ) := by
    rw [Int.tmod_eq_emod_of_nonneg (by omega), Int.natCast_emod, Int.natCast_succ]
  refine ⟨⟨by dsimp only; omega, ?_⟩, ?_⟩
  · dsimp only
    rw [hmod]
    omega
  · rw [start]
    dsimp only
    rw [hmod, Int.toNat_natCast]

theorem lookups_eq (ht : t.NextValid)
    (hall : ∀ i < t.ids.length, t.table.owned i type sliceId = true) (rounds k : ℕ) :
    lookups sliceId type (rounds + 1) k t =
      some ((List.range k).map fun j => t.ids.getD ((t.start + j) % t.ids.length) 0) := by
  induction k generalizing t with
  | zero => rfl
  | succ k ih =>
    have hlt := start_lt hn ht
    obtain ⟨hvalid, hnext⟩ := next_start hn hids ht
    rw [lookups, locateNodeLookup_eq, if_pos ht, if_pos (hall _ hlt)]
    dsimp only
    rw [ih (t := { t with nextNode := t.start }) hn hids hvalid hall, hnext,
      List.range_succ_eq_map]
    simp [Nat.mod_eq_of_lt hlt, Nat.add_assoc, Nat.add_comm 1, Function.comp_def]

/-- Every call goes to the next node. -/
theorem owned_of_lookups {rounds k : ℕ} {l : List ℕ}
    (h : lookups sliceId type (rounds + 1) k t = some l) {j : ℕ} (hj : j < k) :
    t.NextValid ∧ t.table.owned ((t.start + j) % t.ids.length) type sliceId = true := by
  induction k generalizing t l j with
  | zero => omega
  | succ k ih =>
    rw [lookups, locateNodeLookup_eq] at h
    split_ifs at h with ht hown
    · obtain ⟨hvalid, hnext⟩ := next_start hn hids ht
      obtain ⟨l, hl, -⟩ := Option.map_eq_some_iff.1 h
      refine ⟨ht, ?_⟩
      cases j with
      | zero => rwa [Nat.add_zero, Nat.mod_eq_of_lt (start_lt hn ht)]
      | succ j =>
        have hrest := (ih (t := { t with nextNode := t.start }) hn hids hl (by omega : j < k)).2
        rw [hnext, Nat.mod_add_mod] at hrest
        rwa [Nat.add_right_comm] at hrest

end

/-- The results of as many calls as there are nodes. -/
theorem map_range_rotate (l : List ℕ) (s : ℕ) :
    (List.range l.length).map (fun j => l.getD ((s + j) % l.length) 0) = l.rotate s := by
  refine List.ext_getElem (by simp) fun j hj hj' => ?_
  have hpos : 0 < l.length := by
    rw [List.length_rotate] at hj'
    omega
  rw [List.getElem_map, List.getElem_range, List.getElem_rotate, Nat.add_comm s j,
    List.getD_eq_getElem _ _ (Nat.mod_lt _ hpos)]

/-- **The search for an owner.** For every value of `next_node`: a call ends, with an owner, if and
only if there is a node behind `next_node` and it is an owner; the calls return the nodes in turn if
and only if there is one and all nodes are owners. Then as many calls as there are nodes return
every one of them. -/
theorem lookup_fair (t : NodeTable) (sliceId : ℕ) (type : SliceOwnerType) (hn : t.ids ≠ [])
    (hids : t.ids.length < 2 ^ 31) (rounds : ℕ) :
    ((∃ i < t.ids.length, t.table.owned i type sliceId = true ∧
      t.locateNodeLookup sliceId type (rounds + 1) = .found (t.ids.getD i 0) i) ↔
      t.NextValid ∧ t.table.owned t.start type sliceId = true) ∧
    ((∀ k, lookups sliceId type (rounds + 1) k t =
      some ((List.range k).map fun j => t.ids.getD ((t.start + j) % t.ids.length) 0)) ↔
      t.NextValid ∧ ∀ i < t.ids.length, t.table.owned i type sliceId = true) ∧
    (t.NextValid → (∀ i < t.ids.length, t.table.owned i type sliceId = true) →
      lookups sliceId type (rounds + 1) t.ids.length t = some (t.ids.rotate t.start)) := by
  have hpos : 0 < t.ids.length := List.length_pos_iff.2 hn
  refine ⟨⟨fun ⟨i, _, _, hfound⟩ => ?_, fun ⟨ht, hown⟩ => ?_⟩,
    ⟨fun hall => ⟨?_, fun i hi => ?_⟩, fun ⟨ht, hall⟩ => lookups_eq hn hids ht hall rounds⟩,
    fun ht hall => by rw [lookups_eq hn hids ht hall, map_range_rotate]⟩
  · rw [locateNodeLookup_eq] at hfound
    split_ifs at hfound with ht hown
    exact ⟨ht, hown⟩
  · exact ⟨t.start, start_lt hn ht, hown, by rw [locateNodeLookup_eq, if_pos ht, if_pos hown]⟩
  · exact (owned_of_lookups hn hids (hall 1) Nat.one_pos).1
  · have hlt := start_lt hn (owned_of_lookups hn hids (hall 1) Nat.one_pos).1
    have hown := (owned_of_lookups hn hids (hall t.ids.length)
      (Nat.mod_lt (i + (t.ids.length - t.start)) hpos)).2
    have hindex : (t.start + (i + (t.ids.length - t.start)) % t.ids.length) % t.ids.length = i := by
      rw [Nat.add_mod_mod,
        show t.start + (i + (t.ids.length - t.start)) = i + t.ids.length by omega,
        Nat.add_mod_right, Nat.mod_eq_of_lt hi]
    rwa [hindex] at hown

def twoNodes (owner : ℕ → Bool) : NodeTable where
  table := ⟨fun i _ _ => owner i, fun _ => none, []⟩
  ids := [1, 2]
  nextNode := 0

theorem lookup_fair_twoNodes :
    lookups 0 .indexOwner 1 2 (twoNodes fun _ => true) = some [2, 1] :=
  (lookup_fair (twoNodes fun _ => true) 0 .indexOwner (by decide) (by decide) 0).2.2 (by decide)
    fun _ _ => rfl

/-- The first of two nodes owns a slice, and the search never gets to it. -/
theorem lookup_spins : (twoNodes (· == 0)).table.owned 0 .indexOwner 0 = true ∧
    ∀ rounds, (twoNodes (· == 0)).locateNodeLookup 0 .indexOwner rounds = .probing := by
  refine ⟨rfl, fun rounds => ?_⟩
  induction rounds with
  | zero => rfl
  | succ rounds ih => exact ih

end NodeTable

end Felis.Slice
