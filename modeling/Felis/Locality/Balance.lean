import Felis.Locality.Rounds

/-!
# Balanced loads

The second loop of `Balance` goes through the cores. As long as some weight is not distributed, no
core has less than the average (`Inv.full`): what is left over was left because all cores were full.
When all cores are done, none has more than the average. If nothing is left over then the loads have
the sum of the weights, and otherwise they are all full: in both cases every load is the average.

`Offloading` says what the arrays of a core look like afterwards, and `balance_exact` is the result
about the loads.
-/

namespace Felis.Locality

open Felis.Distribution List

variable {n : ℕ} {m : Manager n} {core : Fin n} {avg : ℤ}

/-! ## The arrays of a core -/

/-- The core has its own part, and `rest` is offloaded. -/
structure Offloading (avg : ℤ) (core : Fin n) (w : WeightDist n) (rest : List (Fin n × ℤ)) :
    Prop where
  cores_eq : w.cores = core :: rest.map Prod.fst
  dist_eq : w.dist = totals 0 (min w.weight avg :: rest.map Prod.snd)
  nodup : (core :: rest.map Prod.fst).Nodup
  pos : ∀ p ∈ rest, 0 < p.2
  sum_le : min w.weight avg + (rest.map Prod.snd).sum ≤ w.weight
  lt : rest ≠ [] → avg < w.weight

/-- What the arrays assign to `c`: the increments of `dist` at the entries with this core. -/
def WeightDist.share (w : WeightDist n) (c : Fin n) : ℤ :=
  given (w.cores.zip (increments 0 w.dist)) c

/-- The weight that is not distributed. -/
def WeightDist.undistributed (w : WeightDist n) : ℤ := w.weight - w.dist.getLastD 0

section

variable {w : WeightDist n} {rest : List (Fin n × ℤ)}

variable (h : Offloading avg core w rest)

include h

theorem Offloading.share_eq : w.share = given ((core, min w.weight avg) :: rest) := by
  funext c
  rw [WeightDist.share, h.cores_eq, h.dist_eq, increments_totals, zip_cons_cons,
    ← unzip_fst, ← unzip_snd, zip_unzip]

theorem Offloading.undistributed_eq :
    w.undistributed = w.weight - (min w.weight avg + (rest.map Prod.snd).sum) := by
  rw [WeightDist.undistributed, h.dist_eq, getLastD_totals, zero_add, sum_cons]

/-- The parts of a core are its weight without what is not distributed. -/
theorem Offloading.sum_share : ∑ c, w.share c = w.weight - w.undistributed := by
  rw [h.share_eq, sum_given, h.undistributed_eq, map_cons, sum_cons]
  ring

theorem Offloading.pairwise_dist : w.dist.Pairwise (· < ·) := by
  have hpos : ∀ x ∈ rest.map Prod.snd, 0 < x := by
    intro x hx
    obtain ⟨p, hp, rfl⟩ := mem_map.1 hx
    exact h.pos p hp
  rw [h.dist_eq]
  exact .cons (fun d hd => lt_of_mem_totals hpos hd) (pairwise_totals hpos)

end

/-! ## One round -/

theorem spread_self (avg : ℤ) (m : Manager n) (core : Fin n) :
    spread avg m core core = { m core with
        load := if avg < (m core).weight then avg else (m core).load
        cores := core :: (offloads avg m core).map Prod.fst
        dist := totals 0 (min (m core).weight avg :: (offloads avg m core).map Prod.snd) } :=
  if_pos rfl

theorem spread_of_ne (avg : ℤ) (m : Manager n) {c : Fin n} (hc : c ≠ core) :
    spread avg m core c = { m c with load := (m c).load + given (offloads avg m core) c } :=
  if_neg hc

@[simp] theorem weight_spread (avg : ℤ) (m : Manager n) (core c : Fin n) :
    (spread avg m core c).weight = (m c).weight := by
  rcases eq_or_ne c core with rfl | hc
  · rw [spread_self]
  · rw [spread_of_ne avg m hc]

theorem offloads_sublist (avg : ℤ) (m : Manager n) (core : Fin n) :
    ((offloads avg m core).map Prod.fst).Sublist (walkCores m core avg) := fill_sublist ..

theorem bounds_of_mem_offloads {p : Fin n × ℤ} (hp : p ∈ offloads avg m core) :
    0 < p.2 ∧ p.2 ≤ avg - (m p.1).load := by
  refine bounds_of_mem_fill (fun c hc => ?_) hp
  have := (mem_walkCores.1 hc).2
  omega

theorem nodup_offloads (avg : ℤ) (m : Manager n) (core : Fin n) :
    (core :: (offloads avg m core).map Prod.fst).Nodup := by
  refine nodup_cons.2 ⟨fun h => ?_, (nodup_walkCores m core avg).sublist
    (offloads_sublist avg m core)⟩
  exact (mem_walkCores.1 ((offloads_sublist avg m core).subset h)).1 rfl

theorem offloading_spread (avg : ℤ) (m : Manager n) (core : Fin n) :
    Offloading avg core (spread avg m core core) (offloads avg m core) := by
  rw [spread_self]
  refine ⟨rfl, rfl, nodup_offloads avg m core, fun p hp => (bounds_of_mem_offloads hp).1, ?_, ?_⟩
  · dsimp only
    rcases lt_or_ge avg (m core).weight with hlt | hge
    · have hle : ((offloads avg m core).map Prod.snd).sum ≤ (m core).weight - avg :=
        sum_fill_le (by omega) _
      omega
    · rw [offloads_of_le hge, map_nil, sum_nil]
      omega
  · intro hne
    by_contra hge
    exact hne (offloads_of_le (not_lt.1 hge))

/-- A core that is not below the average gets nothing. -/
theorem given_offloads_of_le {c : Fin n} (h : avg ≤ (m c).load) :
    given (offloads avg m core) c = 0 := by
  apply given_of_not_mem
  intro hc
  exact absurd (mem_walkCores.1 ((offloads_sublist avg m core).subset hc)).2 (not_lt.2 h)

/-- No core gets more than what it has room for. -/
theorem load_add_given_le {c : Fin n} (h : (m c).load ≤ avg) :
    (m c).load + given (offloads avg m core) c ≤ avg := by
  by_cases hc : c ∈ (offloads avg m core).map Prod.fst
  · obtain ⟨p, hp, rfl⟩ := mem_map.1 hc
    rw [given_of_mem (nodup_cons.1 (nodup_offloads avg m core)).2 (x := p.2) hp]
    have := (bounds_of_mem_offloads hp).2
    omega
  · rw [given_of_not_mem hc]
    omega

/-- When the core cannot offload everything, all others are full. -/
theorem le_load_add_given {c : Fin n} (hc : c ≠ core)
    (hsum : ((offloads avg m core).map Prod.snd).sum < (m core).weight - avg) :
    avg ≤ (m c).load + given (offloads avg m core) c := by
  rcases lt_or_ge (m c).load avg with hlt | hge
  · have hfull : offloads avg m core =
        (walkCores m core avg).map fun c => (c, avg - (m c).load) := fill_eq_of_sum_lt hsum
    have hmem : (c, avg - (m c).load) ∈ offloads avg m core := by
      rw [hfull]
      exact mem_map.2 ⟨c, mem_walkCores.2 ⟨hc, hlt⟩, rfl⟩
    rw [given_of_mem (nodup_cons.1 (nodup_offloads avg m core)).2 hmem]
    omega
  · rw [given_offloads_of_le hge]
    omega

/-! ## All rounds -/

/-- The cores of `P` are done; the weights are `w`. -/
structure Inv (avg : ℤ) (w : Fin n → ℤ) (P : Finset (Fin n)) (m : Manager n) : Prop where
  weight_eq : ∀ c, (m c).weight = w c
  offloading : ∀ c ∈ P, ∃ rest, Offloading avg c (m c) rest
  load_eq : ∀ c, (m c).load = (if c ∈ P then 0 else w c) + ∑ j ∈ P, (m j).share c
  load_le : ∀ c, c ∈ P ∨ w c ≤ avg → (m c).load ≤ avg
  untouched : ∀ c ∉ P, avg < w c → (m c).load = w c
  full : (∃ j ∈ P, (m j).undistributed ≠ 0) → ∀ c, avg ≤ (m c).load

section

variable {w : Fin n → ℤ} {P : Finset (Fin n)}

theorem share_spread (hcore : core ∉ P) {j : Fin n} (hj : j ∈ P) :
    (spread avg m core j).share = (m j).share ∧
      (spread avg m core j).undistributed = (m j).undistributed := by
  rw [spread_of_ne avg m (ne_of_mem_of_not_mem hj hcore)]
  exact ⟨rfl, rfl⟩

/-- The parts that other cores get are those that the core offloads. -/
theorem share_spread_self (avg : ℤ) (m : Manager n) (core : Fin n) (c : Fin n) :
    (spread avg m core core).share c =
      if c = core then min (m core).weight avg else given (offloads avg m core) c := by
  rw [(offloading_spread avg m core).share_eq, given_cons, weight_spread]
  rcases eq_or_ne c core with rfl | hc
  · rw [if_pos rfl, if_pos rfl,
      given_of_not_mem (nodup_cons.1 (nodup_offloads avg m c)).1, add_zero]
  · rw [if_neg hc, if_neg (Ne.symm hc), zero_add]

theorem Inv.load_eq_spread (h : Inv avg w P m) (hcore : core ∉ P) (c : Fin n) :
    (spread avg m core c).load = (if c ∈ insert core P then 0 else w c) +
        ∑ j ∈ insert core P, (spread avg m core j).share c := by
  have hsum : ∑ j ∈ P, (spread avg m core j).share c = ∑ j ∈ P, (m j).share c :=
    Finset.sum_congr rfl fun j hj => by rw [(share_spread hcore hj).1]
  have hload := h.load_eq c
  rw [Finset.sum_insert hcore, hsum, share_spread_self]
  rcases eq_or_ne c core with rfl | hc
  · rw [if_pos (Finset.mem_insert_self c P), if_pos rfl, spread_self, h.weight_eq]
    rw [if_neg hcore] at hload
    dsimp only
    split_ifs with hlt
    · have := h.untouched c hcore hlt
      omega
    · omega
  · rw [spread_of_ne avg m hc, if_neg hc]
    simp only [Finset.mem_insert, hc, false_or]
    omega

theorem Inv.full_spread (h : Inv avg w P m) (hcore : core ∉ P)
    (hleft : ∃ j ∈ insert core P, (spread avg m core j).undistributed ≠ 0) (c : Fin n) :
    avg ≤ (spread avg m core c).load := by
  obtain ⟨j, hj, hleft⟩ := hleft
  rcases Finset.mem_insert.1 hj with rfl | hj
  · -- the core itself is above the average, and the others have no room for the rest
    have hund := (offloading_spread avg m j).undistributed_eq
    have hle := (offloading_spread avg m j).sum_le
    rw [weight_spread] at hund hle
    have hlt : avg < (m j).weight := by
      by_contra hge
      rw [offloads_of_le (not_lt.1 hge), map_nil, sum_nil] at hund
      omega
    rcases eq_or_ne c j with rfl | hc
    · rw [spread_self, if_pos hlt]
    · rw [spread_of_ne avg m hc]
      exact le_load_add_given hc (by omega)
  · rw [(share_spread hcore hj).2] at hleft
    have hfull := h.full ⟨j, hj, hleft⟩
    rcases eq_or_ne c core with rfl | hc
    · rw [spread_self]
      dsimp only
      split_ifs
      · exact le_rfl
      · exact hfull c
    · rw [spread_of_ne avg m hc, given_offloads_of_le (hfull c), add_zero]
      exact hfull c

theorem Inv.spread (h : Inv avg w P m) (hcore : core ∉ P) :
    Inv avg w (insert core P) (spread avg m core) := by
  refine ⟨fun c => (weight_spread avg m core c).trans (h.weight_eq c), fun c hc => ?_,
    h.load_eq_spread hcore, fun c hc => ?_, fun c hc hlt => ?_, h.full_spread hcore⟩
  · rcases Finset.mem_insert.1 hc with rfl | hc
    · exact ⟨_, offloading_spread avg m c⟩
    · obtain ⟨rest, hrest⟩ := h.offloading c hc
      rw [spread_of_ne avg m (ne_of_mem_of_not_mem hc hcore)]
      exact ⟨rest, ⟨hrest.cores_eq, hrest.dist_eq, hrest.nodup, hrest.pos, hrest.sum_le, hrest.lt⟩⟩
  · rcases eq_or_ne c core with rfl | hne
    · rw [spread_self, h.weight_eq]
      dsimp only
      split_ifs with hlt
      · exact le_rfl
      · exact h.load_le c (.inr (not_lt.1 hlt))
    · rw [spread_of_ne avg m hne]
      exact load_add_given_le (h.load_le c (hc.imp_left (Finset.mem_of_mem_insert_of_ne · hne)))
  · obtain ⟨hne, hc⟩ := not_or.1 (fun h => hc (Finset.mem_insert.2 h))
    have hload := h.untouched c hc hlt
    rw [spread_of_ne avg m hne, given_offloads_of_le (by omega), add_zero, hload]

theorem length_offloads_lt (avg : ℤ) (m : Manager n) (core : Fin n) :
    (offloads avg m core).length + 1 ≤ n := by
  simpa using (nodup_offloads avg m core).length_le_card

/-- The loop is not aborted when there is room for all cores. -/
theorem exists_foldlM_balanceCore (avg : ℤ) (hn : n * n ≤ kPrealloc) (Q : List (Fin n)) (k : ℕ)
    (hk : k + Q.length ≤ n) (m : Manager n) (nr : ℕ) (hnr : nr ≤ k * n) :
    ∃ s, Q.foldlM (balanceCore avg) (m, nr) = some s := by
  induction Q generalizing k m nr with
  | nil => exact ⟨(m, nr), rfl⟩
  | cons core Q ih =>
    rw [length_cons] at hk
    have hlen := length_offloads_lt avg m core
    have hnr' : nr + ((offloads avg m core).length + 1) ≤ (k + 1) * n := by
      rw [Nat.succ_mul]
      omega
    have hle : (k + 1) * n ≤ n * n := Nat.mul_le_mul_right n (by omega)
    rw [foldlM_cons, balanceCore_eq, if_neg (by omega)]
    exact ih (k + 1) (by omega) _ _ hnr'

theorem Inv.foldlM {Q : List (Fin n)} (hQ : Q.Nodup) (hPQ : ∀ c ∈ Q, c ∉ P) {s : Manager n × ℕ}
    (h : Inv avg w P s.1) {s' : Manager n × ℕ} (hrun : Q.foldlM (balanceCore avg) s = some s') :
    Inv avg w (P ∪ Q.toFinset) s'.1 := by
  induction Q generalizing P s with
  | nil =>
    obtain rfl := Option.some.inj hrun
    simpa using h
  | cons core Q ih =>
    obtain ⟨hcore, hQ⟩ := nodup_cons.1 hQ
    have hcoreP := hPQ core (mem_cons_self ..)
    have hdisj : ∀ c ∈ Q, c ∉ insert core P := by
      intro c hc hc'
      rcases Finset.mem_insert.1 hc' with rfl | hc'
      · exact hcore hc
      · exact hPQ c (mem_cons_of_mem core hc) hc'
    rw [foldlM_cons, ← Prod.mk.eta (p := s), balanceCore_eq] at hrun
    split_ifs at hrun with hroom
    · cases hrun
    · have hinv := ih hQ hdisj (s := (Locality.spread avg s.1 core, _)) (h.spread hcoreP) hrun
      rwa [toFinset_cons, Finset.union_insert, ← Finset.insert_union]

end

/-! ## Exact loads -/

/-- The manager after `Balance`, for the weights that were planned. -/
structure Balanced (w : Fin n → ℤ) (m : Manager n) : Prop where
  weight_eq : ∀ c, (m c).weight = w c
  load_eq : ∀ c, (m c).load = (∑ c, w c) / n
  own : ∀ c, (m c).cores.head? = some c
  nodup : ∀ c, (m c).cores.Nodup
  length_eq : ∀ c, (m c).cores.length = (m c).nrDist
  increasing : ∀ c, (m c).dist.Pairwise (· < ·)
  last_le : ∀ c, (m c).dist.getLastD 0 ≤ w c
  assigned : ∀ c, ∑ j, (m j).share c = (m c).load
  left : ∑ c, (m c).undistributed = (∑ c, w c) % n

section

variable {w : Fin n → ℤ}

/-- The loads and what is left over have the sum of the weights. -/
theorem Inv.sum_load (h : Inv avg w Finset.univ m) :
    ∑ c, (m c).load + ∑ c, (m c).undistributed = ∑ c, w c := by
  have hload : ∑ c, (m c).load = ∑ j, ∑ c, (m j).share c := by
    rw [Finset.sum_comm]
    refine Finset.sum_congr rfl fun c _ => ?_
    rw [h.load_eq c, if_pos (Finset.mem_univ c), zero_add]
  rw [hload, ← Finset.sum_add_distrib]
  refine Finset.sum_congr rfl fun j _ => ?_
  obtain ⟨rest, hrest⟩ := h.offloading j (Finset.mem_univ j)
  rw [hrest.sum_share, h.weight_eq]
  ring

/-- When all cores are done, every load is the average. -/
theorem Inv.load_eq_average (h : Inv ((∑ c, w c) / n) w Finset.univ m) (hn : 0 < n) (c : Fin n) :
    (m c).load = (∑ c, w c) / n := by
  have hle : ∀ c, (m c).load ≤ (∑ c, w c) / n := fun c => h.load_le c (.inl (Finset.mem_univ c))
  by_cases hleft : ∃ j ∈ Finset.univ, (m j).undistributed ≠ 0
  · exact le_antisymm (hle c) (h.full hleft c)
  · -- nothing is left over: the loads cannot be smaller than the average
    push Not at hleft
    have hsum := h.sum_load
    rw [Finset.sum_eq_zero hleft, add_zero] at hsum
    have hconst : ∑ _c : Fin n, (∑ c, w c) / n = n * ((∑ c, w c) / n) := by
      rw [Finset.sum_const, Finset.card_univ, Fintype.card_fin, nsmul_eq_mul]
    have hmul : n * ((∑ c, w c) / n) ≤ ∑ c, w c := Int.mul_ediv_self_le (by omega)
    refine (Finset.sum_eq_sum_iff_of_le fun c _ => hle c).1 ?_ c (Finset.mem_univ c)
    have hsumle := Finset.sum_le_sum fun c (_ : c ∈ Finset.univ) => hle c
    omega

theorem Inv.balanced (h : Inv ((∑ c, w c) / n) w Finset.univ m) (hn : 0 < n) : Balanced w m := by
  have hload := h.load_eq_average hn
  have hoff := fun c => h.offloading c (Finset.mem_univ c)
  refine ⟨h.weight_eq, hload, fun c => ?_, fun c => ?_, fun c => ?_, fun c => ?_, fun c => ?_,
    fun c => ?_, ?_⟩
  · obtain ⟨rest, hrest⟩ := hoff c
    rw [hrest.cores_eq, List.head?_cons]
  · obtain ⟨rest, hrest⟩ := hoff c
    rw [hrest.cores_eq]
    exact hrest.nodup
  · obtain ⟨rest, hrest⟩ := hoff c
    rw [WeightDist.nrDist, hrest.cores_eq, hrest.dist_eq, length_totals, length_cons,
      length_cons, length_map, length_map]
  · obtain ⟨rest, hrest⟩ := hoff c
    exact hrest.pairwise_dist
  · obtain ⟨rest, hrest⟩ := hoff c
    rw [hrest.dist_eq, getLastD_totals, zero_add, sum_cons, ← h.weight_eq]
    exact hrest.sum_le
  · rw [h.load_eq c, if_pos (Finset.mem_univ c), zero_add]
  · have hsum := h.sum_load
    have hconst : ∑ c, (m c).load = n * ((∑ c, w c) / n) := by
      rw [Finset.sum_congr rfl fun c _ => hload c, Finset.sum_const, Finset.card_univ,
        Fintype.card_fin, nsmul_eq_mul]
    have hmod := Int.mul_ediv_add_emod (∑ c, w c) n
    omega

/-- No load and no total is larger than the sum of the weights, so that a sum below 2^63 is enough
for the `long`s. -/
theorem Balanced.le_sum (h : Balanced w m) (hw : ∀ c, 0 ≤ w c) (c : Fin n) :
    (m c).load ≤ ∑ c, w c ∧ ∀ d ∈ (m c).dist, d ≤ ∑ c, w c := by
  constructor
  · rw [h.load_eq]
    exact Int.ediv_le_self _ (Finset.sum_nonneg fun c _ => hw c)
  · intro d hd
    have hlast : d ≤ (m c).dist.getLastD 0 := by
      rw [getLastD_eq_getLast?, getLast?_eq_some_getLast (ne_nil_of_mem hd)]
      exact ((h.increasing c).imp le_of_lt).rel_getLast hd
    exact (hlast.trans (h.last_le c)).trans
      (Finset.single_le_sum (fun c _ => hw c) (Finset.mem_univ c))

end

theorem inv_collect (avg : ℤ) (m : Manager n) : Inv avg (planned m) ∅ (collect m).1 := by
  obtain ⟨hweight, hload, -⟩ := collect_spec m
  refine ⟨hweight, fun _ h => absurd h (Finset.notMem_empty _), fun c => ?_, fun c hc => ?_,
    fun c _ _ => hload c, ?_⟩
  · rw [if_neg (Finset.notMem_empty c), Finset.sum_empty, add_zero, hload]
  · rw [hload]
    exact hc.resolve_left (Finset.notMem_empty c)
  · rintro ⟨j, hj, -⟩
    exact absurd hj (Finset.notMem_empty j)

theorem inv_balance {m' : Manager n} (h : balance m = some m') :
    Inv (average n (∑ c, planned m c)) (planned m) Finset.univ m' := by
  rw [balance, (collect_spec m).2.2] at h
  obtain ⟨s, hs, rfl⟩ := Option.map_eq_some_iff.1 h
  have hinv := (inv_collect _ m).foldlM (s := ((collect m).1, 0)) (nodup_finRange n)
    (fun c _ => Finset.notMem_empty c) hs
  rwa [toFinset_finRange, Finset.empty_union] at hinv

/-- `Balance` of at most 32 cores is not aborted. -/
theorem exists_balance (hn : n ≤ 32) (m : Manager n) : ∃ m', balance m = some m' := by
  obtain ⟨s, hs⟩ := exists_foldlM_balanceCore (average n (collect m).2) (Nat.mul_le_mul hn hn)
    (List.finRange n) 0 (by rw [length_finRange, Nat.zero_add]) (collect m).1 0 (Nat.zero_le _)
  exact ⟨s.1, by rw [balance, hs, Option.map_some]⟩

/-- **Loads are balanced exactly.** `Balance` is not aborted, and gives every core the average load.
The own core is the first one in its array, which has no duplicates; the totals increase up to at
most the weight; the parts for a core have its load as their sum; and what is left over is the
remainder of the division. -/
theorem balance_exact (hpos : 1 ≤ n) (hn : n ≤ 32) (m : Manager n)
    (hweights : ∀ c, 0 ≤ planned m c) : ∃ m', balance m = some m' ∧ Balanced (planned m) m' := by
  obtain ⟨m', hm'⟩ := exists_balance hn m
  have hinv := inv_balance hm'
  have htot : 0 ≤ ∑ c, planned m c := Finset.sum_nonneg fun c _ => hweights c
  rw [average, if_neg (not_lt.2 htot)] at hinv
  exact ⟨m', hm', hinv.balanced hpos⟩

def idle (n : ℕ) : Manager n := fun _ => ⟨0, [], [], 0, fun _ => 0⟩

/-- The weight 10 is planned for the first of three cores, and 1 for the second. -/
def threeCores : Manager 3 := planLoad (planLoad (reset (idle 3)) 0 0 10) 1 1 1

/-- The first core keeps 3, offloads 2 and 3, and 2 are left over. -/
theorem balance_exact_threeCores :
    ((balance threeCores).map fun m => ((m 0).dist, (m 0).cores)) = some ([3, 5, 8], [0, 1, 2]) ∧
      ∃ m', balance threeCores = some m' ∧ Balanced (planned threeCores) m' :=
  ⟨by decide, balance_exact (by decide) (by decide) threeCores (by decide)⟩

end Felis.Locality
