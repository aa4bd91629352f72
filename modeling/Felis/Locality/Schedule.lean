import Mathlib.Data.List.GetD
import Felis.Locality.Balance

/-!
# Selecting a core

`GetScheduleCore` takes a random number modulo the last entry of `dist`, and searches the first
entry that is larger. The core beside it is selected. After `Balance`, the entries are the running
totals of what the cores have got, so that every core is selected for as many remainders as its part
has (`getScheduleCore_follows`).

The last entry is read before it is known that there is one: after `Reset`, this is an access before
the start of an array that does not exist (`getScheduleCore_after_reset`).
-/

namespace Felis.Locality

open Cells Felis.Distribution MachineInts List

variable {n : ℕ} {m : Manager n}

/-! ## The source -/

inductive Fault
  | outOfRange
  | divisionByZero
  deriving DecidableEq

/-- `xs[i]`. -/
def readAt {α : Type} (xs : List α) (i : ℕ) : Except Fault α :=
  match xs[i]? with
  | some x => .ok x
  | none => .error .outOfRange

/-- A `long` in an expression with a `uint64_t`. -/
def asUnsigned (d : ℤ) : ℕ := if d < 0 then unsigned 64 d else d.toNat

/-- The loop of `std::upper_bound` on the `len` entries from `first`. The fuel is the length, which
every round makes smaller. -/
def upperBoundLoop (dist : List ℤ) (seed : ℕ) : ℕ → ℕ → ℕ → Except Fault ℕ
  | 0, first, _ => .ok first
  | fuel + 1, first, len =>
    if len = 0 then .ok first
    else
      (readAt dist (first + len / 2)).bind fun d =>
        if seed < asUnsigned d then upperBoundLoop dist seed fuel first (len / 2)
        else upperBoundLoop dist seed fuel (first + len / 2 + 1) (len - len / 2 - 1)

/-- `w.dist[w.nr_dist - 1]`, where `nr_dist` is a `size_t`. -/
def WeightDist.lastDist (w : WeightDist n) : Except Fault ℤ :=
  readAt w.dist (if w.nrDist = 0 then 2 ^ 64 - 1 else w.nrDist - 1)

/-- `GetScheduleCore`, for the number that the generator returns. The first access is the one for
`max_seed`. -/
def getScheduleCore (m : Manager n) (core : Fin n) (rand : ℕ) : Except Fault (Fin n) :=
  let w := m core
  w.lastDist.bind fun _ =>
    if w.nrDist = 0 then .ok core
    else if w.nrDist = 1 then readAt w.cores 0
    else
      w.lastDist.bind fun last =>
        if asUnsigned last = 0 then .error .divisionByZero
        else
          (upperBoundLoop w.dist (rand % asUnsigned last) w.nrDist 0 w.nrDist).bind fun it =>
            readAt w.cores it

/-- Calls of `PlanLoad`, with the core that makes the call. -/
def planLoads (m : Manager n) (calls : List (Fin n × Fin n × ℤ)) : Manager n :=
  calls.foldl (fun m call => planLoad m call.1 call.2.1 call.2.2) m

/-! ## The specification -/

def WeightDist.part (w : WeightDist n) (k : ℕ) : ℤ :=
  w.dist.getD k 0 - if k = 0 then 0 else w.dist.getD (k - 1) 0

/-- The cores are selected as the arrays say, and without an access out of range. -/
structure Follows (core : Fin n) (w : WeightDist n) (schedule : ℕ → Except Fault (Fin n)) :
    Prop where
  safe : ∀ rand, ∃ c, schedule rand = .ok c
  empty : w.nrDist = 0 → ∀ rand, schedule rand = .ok core
  single : w.nrDist = 1 → ∀ rand c, w.cores[0]? = some c → schedule rand = .ok c
  remainder : 2 ≤ w.nrDist → ∀ rand, schedule rand = schedule (rand % (w.dist.getLastD 0).toNat)
  selected : 2 ≤ w.nrDist → ∀ k c, w.cores[k]? = some c →
    (((Finset.range (w.dist.getLastD 0).toNat).filter fun x => schedule x = .ok c).card : ℤ) =
      w.part k

/-! ## The search -/

section

variable {dist : List ℤ} {seed : ℕ}

theorem readAt_of_lt {α : Type} {xs : List α} {i : ℕ} (h : i < xs.length) :
    readAt xs i = .ok xs[i] := by
  rw [readAt, List.getElem?_eq_getElem h]

theorem asUnsigned_of_nonneg {d : ℤ} (h : 0 ≤ d) : (asUnsigned d : ℤ) = d := by
  rw [asUnsigned, if_neg (not_lt.2 h), Int.toNat_of_nonneg h]

variable (seed) in
theorem upperBoundLoop_spec (hnonneg : ∀ d ∈ dist, 0 ≤ d) (hsorted : dist.Pairwise (· < ·)) :
    ∀ fuel first len, len ≤ fuel → first + len ≤ dist.length →
      ∃ q, upperBoundLoop dist seed fuel first len = .ok q ∧
        Splits (fun i => dist.getD i 0 ≤ seed) first len q := by
  have hmono : ∀ i j, i ≤ j → j < dist.length → dist.getD i 0 ≤ dist.getD j 0 := by
    intro i j hij hj
    rw [getD_eq_getElem _ _ (by omega), getD_eq_getElem _ _ hj]
    rcases Nat.eq_or_lt_of_le hij with rfl | hlt
    · exact le_rfl
    · exact (pairwise_iff_getElem.1 hsorted i j (by omega) hj hlt).le
  intro fuel
  induction fuel with
  | zero =>
    intro first len hlen _
    obtain rfl : len = 0 := by omega
    exact ⟨first, rfl, le_rfl, le_rfl, fun i h1 h2 => by omega, fun i h1 h2 => by omega⟩
  | succ fuel ih =>
    intro first len hlen hfit
    rw [upperBoundLoop]
    split_ifs with h0
    · subst h0
      exact ⟨first, rfl, le_rfl, le_rfl, fun i h1 h2 => by omega, fun i h1 h2 => by omega⟩
    · have hmid : first + len / 2 < dist.length := by omega
      have hd := asUnsigned_of_nonneg (hnonneg _ (getElem_mem hmid))
      have hget : dist.getD (first + len / 2) 0 = dist[first + len / 2] :=
        getD_eq_getElem _ _ hmid
      rw [readAt_of_lt hmid, Except.bind]
      split_ifs with hlt
      · obtain ⟨q, hq, hsplits⟩ := ih first (len / 2) (by omega) (by omega)
        refine ⟨q, hq, hsplits.lo_le, hsplits.le_hi.trans (by omega), hsplits.below,
          fun i h1 h2 => ?_⟩
        rcases lt_or_ge i (first + len / 2) with hi | hi
        · exact hsplits.above i h1 hi
        · have := hmono _ i hi (by omega)
          omega
      · obtain ⟨q, hq, hsplits⟩ :=
          ih (first + len / 2 + 1) (len - len / 2 - 1) (by omega) (by omega)
        have hlo := hsplits.lo_le
        refine ⟨q, hq, by omega, hsplits.le_hi.trans (by omega), fun i h1 h2 => ?_,
          fun i h1 h2 => hsplits.above i h1 (by omega)⟩
        rcases lt_or_ge (first + len / 2) i with hi | hi
        · exact hsplits.below i (by omega) h2
        · have := hmono i _ hi hmid
          omega

end

/-! ## The arrays after `Balance` -/

/-- The arrays are those of a cumulative distribution. -/
structure Cumulative (w : WeightDist n) : Prop where
  pos : 0 < w.nrDist
  length_eq : w.cores.length = w.nrDist
  nodup : w.cores.Nodup
  sorted : w.dist.Pairwise (· < ·)
  nonneg : 2 ≤ w.nrDist → ∀ d ∈ w.dist, 0 ≤ d

theorem average_nonneg {tot : ℤ} (hn : 2 ≤ n) : 0 ≤ average n tot := by
  rw [average]
  split_ifs with htot
  · have hlt : unsigned 64 tot < 2 ^ 64 := by
      have := Int.emod_lt_of_pos tot (show (0 : ℤ) < 2 ^ 64 by norm_num)
      rw [unsigned]
      omega
    have hhalf : unsigned 64 tot / n ≤ unsigned 64 tot / 2 := Nat.div_le_div_left hn (by decide)
    rw [signed_natCast (by omega)]
    exact Int.natCast_nonneg _
  · exact Int.ediv_nonneg (not_lt.1 htot) (by omega)

theorem Offloading.cumulative {core : Fin n} {w : WeightDist n} {rest : List (Fin n × ℤ)} {tot : ℤ}
    (h : Offloading (average n tot) core w rest) : Cumulative w := by
  have hlen : w.nrDist = rest.length + 1 := by
    rw [WeightDist.nrDist, h.dist_eq, length_totals, length_cons, length_map]
  refine ⟨by omega, ?_, h.cores_eq ▸ h.nodup, h.pairwise_dist, fun h2 d hd => ?_⟩
  · rw [h.cores_eq, length_cons, length_map, hlen]
  · have hcard : (core :: rest.map Prod.fst).length ≤ n := by simpa using h.nodup.length_le_card
    rw [length_cons, length_map] at hcard
    have havg : 0 ≤ average n tot := average_nonneg (by omega)
    have hlt : average n tot < w.weight := h.lt (ne_nil_of_length_pos (by omega))
    have hpos : ∀ x ∈ rest.map Prod.snd, 0 < x := by
      intro x hx
      obtain ⟨p, hp, rfl⟩ := mem_map.1 hx
      exact h.pos p hp
    rw [h.dist_eq, totals, mem_cons, min_eq_right hlt.le, zero_add] at hd
    rcases hd with rfl | hd
    · exact havg
    · exact havg.trans (lt_of_mem_totals hpos hd).le

/-! ## The selection -/

section

variable {core : Fin n} (h : Cumulative (m core))

include h

theorem Cumulative.getD_last :
    (m core).dist.getD ((m core).nrDist - 1) 0 = (m core).dist.getLastD 0 := by
  have hpos := h.pos
  have hne : (m core).dist ≠ [] := ne_nil_of_length_pos hpos
  rw [WeightDist.nrDist] at hpos ⊢
  rw [getD_eq_getElem _ _ (by omega), ← getLast_eq_getElem hne,
    getLastD_eq_getLast?, List.getLast?_eq_getLast_of_ne_nil hne, Option.getD_some]

theorem Cumulative.lastDist_eq : (m core).lastDist = .ok ((m core).dist.getLastD 0) := by
  have hpos := h.pos
  rw [WeightDist.lastDist, if_neg (by omega), ← h.getD_last]
  rw [WeightDist.nrDist] at hpos ⊢
  rw [readAt_of_lt (by omega), getD_eq_getElem _ _ (by omega)]

theorem Cumulative.getD_lt {i j : ℕ} (hij : i < j) (hj : j < (m core).nrDist) :
    (m core).dist.getD i 0 < (m core).dist.getD j 0 := by
  rw [WeightDist.nrDist] at hj
  rw [getD_eq_getElem _ _ (by omega), getD_eq_getElem _ _ hj]
  exact pairwise_iff_getElem.1 h.sorted i j (by omega) hj hij

theorem Cumulative.getD_le_last {k : ℕ} (hk : k < (m core).nrDist) :
    (m core).dist.getD k 0 ≤ (m core).dist.getLastD 0 := by
  rw [← h.getD_last]
  rcases Nat.eq_or_lt_of_le (Nat.le_sub_one_of_lt hk) with rfl | hlt
  · exact le_rfl
  · exact (h.getD_lt hlt (by omega)).le

section

variable (h2 : 2 ≤ (m core).nrDist)

include h2

theorem Cumulative.getD_nonneg {k : ℕ} (hk : k < (m core).nrDist) : 0 ≤ (m core).dist.getD k 0 := by
  rw [getD_eq_getElem _ _ hk]
  exact h.nonneg h2 _ (getElem_mem hk)

theorem Cumulative.last_pos : 0 < (m core).dist.getLastD 0 := by
  rw [← h.getD_last]
  exact (h.getD_nonneg h2 h.pos).trans_lt (h.getD_lt (by omega) (by omega))

theorem Cumulative.getScheduleCore_eq (rand : ℕ) :
    getScheduleCore m core rand =
      (upperBoundLoop (m core).dist (rand % ((m core).dist.getLastD 0).toNat) (m core).nrDist 0
        (m core).nrDist).bind fun it => readAt (m core).cores it := by
  have hlast := h.last_pos h2
  have hunsigned : asUnsigned ((m core).dist.getLastD 0) = ((m core).dist.getLastD 0).toNat :=
    if_neg (not_lt.2 hlast.le)
  rw [getScheduleCore, h.lastDist_eq]
  simp only [Except.bind]
  rw [if_neg (by omega), if_neg (by omega), hunsigned, if_neg (by omega)]

/-- The entry that is found for a random number. -/
theorem Cumulative.exists_entry (rand : ℕ) :
    ∃ q, ∃ hq : q < (m core).cores.length, getScheduleCore m core rand = .ok (m core).cores[q] ∧
      Splits (fun i => (m core).dist.getD i 0 ≤ (rand % ((m core).dist.getLastD 0).toNat : ℕ)) 0
        (m core).nrDist q := by
  have hlast := h.last_pos h2
  obtain ⟨q, hq, hsplits⟩ := upperBoundLoop_spec
    (rand % ((m core).dist.getLastD 0).toNat) (h.nonneg h2) h.sorted (m core).nrDist 0
    (m core).nrDist le_rfl
    (by rw [Nat.zero_add, WeightDist.nrDist])
  have hlt : q < (m core).nrDist := by
    by_contra hge
    have hbelow := hsplits.below ((m core).nrDist - 1) (Nat.zero_le _) (by omega)
    have hmod : rand % ((m core).dist.getLastD 0).toNat < ((m core).dist.getLastD 0).toNat :=
      Nat.mod_lt _ (by omega)
    rw [h.getD_last] at hbelow
    omega
  rw [← h.length_eq] at hlt
  refine ⟨q, hlt, ?_, hsplits⟩
  rw [h.getScheduleCore_eq h2, hq, Except.bind, readAt_of_lt hlt]

/-- The remainders for which an entry is found. -/
theorem Cumulative.filter_selected {k : ℕ} {c : Fin n} (hc : (m core).cores[k]? = some c) :
    ((Finset.range ((m core).dist.getLastD 0).toNat).filter fun x =>
        getScheduleCore m core x = .ok c) =
      Finset.Ico (if k = 0 then 0 else ((m core).dist.getD (k - 1) 0).toNat)
        ((m core).dist.getD k 0).toNat := by
  obtain ⟨hk, rfl⟩ := List.getElem?_eq_some_iff.1 hc
  have hk' : k < (m core).nrDist := h.length_eq ▸ hk
  have hlast := h.getD_le_last hk'
  ext x
  rw [Finset.mem_filter, Finset.mem_range, Finset.mem_Ico]
  constructor
  · rintro ⟨hx, hsel⟩
    obtain ⟨q, hq, hsel', hsplits⟩ := h.exists_entry h2 x
    rw [Nat.mod_eq_of_lt hx] at hsplits
    have hval : (m core).cores[q] = (m core).cores[k] := Except.ok.inj (hsel'.symm.trans hsel)
    obtain rfl : q = k := (List.Nodup.getElem_inj_iff h.nodup).1 hval
    have habove := hsplits.above q le_rfl (by omega)
    refine ⟨?_, by omega⟩
    split_ifs with hq0
    · exact Nat.zero_le x
    · have hbelow := hsplits.below (q - 1) (Nat.zero_le _) (by omega)
      omega
  · rintro ⟨hlo, hhi⟩
    have hx : x < ((m core).dist.getLastD 0).toNat := by omega
    obtain ⟨q, hq, hsel, hsplits⟩ := h.exists_entry h2 x
    rw [Nat.mod_eq_of_lt hx] at hsplits
    refine ⟨hx, ?_⟩
    obtain rfl : q = k := by
      rcases lt_trichotomy q k with hlt | heq | hgt
      · have habove := hsplits.above (k - 1) (by omega) (by omega)
        rw [if_neg (by omega)] at hlo
        omega
      · exact heq
      · have hbelow := hsplits.below k (Nat.zero_le k) hgt
        omega
    exact hsel

theorem Cumulative.card_selected {k : ℕ} {c : Fin n} (hc : (m core).cores[k]? = some c) :
    (((Finset.range ((m core).dist.getLastD 0).toNat).filter fun x =>
        getScheduleCore m core x = .ok c).card : ℤ) = (m core).part k := by
  have hk : k < (m core).nrDist := h.length_eq ▸ (List.getElem?_eq_some_iff.1 hc).1
  have hnonneg := h.getD_nonneg h2 hk
  rw [h.filter_selected h2 hc, Nat.card_Ico, WeightDist.part]
  split_ifs with hk0
  · omega
  · have hlt := h.getD_lt (show k - 1 < k by omega) hk
    have := h.getD_nonneg h2 (show k - 1 < (m core).nrDist by omega)
    omega

end

theorem Cumulative.follows : Follows core (m core) (getScheduleCore m core) := by
  have hpos := h.pos
  have hone : (m core).nrDist = 1 → ∀ rand,
      getScheduleCore m core rand = readAt (m core).cores 0 := by
    intro h1 rand
    rw [getScheduleCore, h.lastDist_eq, Except.bind, if_neg (by omega), if_pos h1]
  refine ⟨fun rand => ?_, fun h0 => by omega, fun h1 rand c hc => ?_, fun h2 rand => ?_,
    fun h2 k c hc => h.card_selected h2 hc⟩
  · rcases Nat.lt_or_ge (m core).nrDist 2 with h1 | h2
    · have hlt : 0 < (m core).cores.length := by
        rw [h.length_eq]
        omega
      exact ⟨_, (hone (by omega) rand).trans (readAt_of_lt hlt)⟩
    · obtain ⟨q, hq, hsel, -⟩ := h.exists_entry h2 rand
      exact ⟨_, hsel⟩
  · rw [hone h1, readAt, hc]
  · rw [h.getScheduleCore_eq h2, h.getScheduleCore_eq h2, Nat.mod_mod]

end

/-- **Cores are selected as planned.** When `Balance` has run since `Reset`, then `GetScheduleCore`
makes no access out of range and does not divide by zero, and it selects every core for as many
remainders as its part of the distribution has. -/
theorem getScheduleCore_follows (m : Manager n) (calls : List (Fin n × Fin n × ℤ)) (m' : Manager n)
    (hbalance : balance (planLoads (reset m) calls) = some m') (core : Fin n) :
    Follows core (m' core) (getScheduleCore m' core) := by
  obtain ⟨rest, hrest⟩ := (inv_balance hbalance).offloading core (Finset.mem_univ core)
  exact hrest.cumulative.follows

/-- Three cores, of which the first has to offload. -/
theorem getScheduleCore_follows_threeCores : ∃ m',
    balance (planLoads (reset (idle 3)) [(0, 0, 10), (1, 1, 1)]) = some m' ∧
      ((List.range 8).map fun x => (getScheduleCore m' 0 x).toOption) =
        [some 0, some 0, some 0, some 1, some 1, some 2, some 2, some 2] ∧
      Follows 0 (m' 0) (getScheduleCore m' 0) := by
  have hany : (balance (planLoads (reset (idle 3)) [(0, 0, 10), (1, 1, 1)])).any (fun m' =>
      ((List.range 8).map fun x => (getScheduleCore m' 0 x).toOption) =
        [some 0, some 0, some 0, some 1, some 1, some 2, some 2, some 2]) = true := by decide
  obtain ⟨m', hm', hselected⟩ := (Option.any_eq_true _ _).1 hany
  exact ⟨m', hm', of_decide_eq_true hselected,
    getScheduleCore_follows (idle 3) [(0, 0, 10), (1, 1, 1)] m' hm' 0⟩

/-- After `Reset` alone, the read of the last entry is out of range. -/
theorem getScheduleCore_after_reset :
    (reset (idle 3) 0).nrDist = 0 ∧ ∀ (m : Manager 3) (core : Fin 3) (seed : ℕ),
      getScheduleCore (reset m) core seed = .error .outOfRange :=
  ⟨rfl, fun _ _ _ => rfl⟩

end Felis.Locality
