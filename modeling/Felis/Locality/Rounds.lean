import Felis.Foundations.Distribution
import Felis.Locality.Manager

/-!
# What `Balance` does to one core

The equations of the loops of `Balance`. The first loop collects what was planned (`collect_spec`).
A round of the second loop gives the own part to the core and `offloads` to others, by greedy
filling (`balanceCore_eq`).
-/

namespace Felis.Locality

open Felis.Distribution Function List

variable {n : ℕ} {m : Manager n} {core : Fin n}

/-! ## Collecting the weights -/

/-- What is planned for a core, by all cores. -/
def planned (m : Manager n) (core : Fin n) : ℤ :=
  (m core).weight + ∑ j, (m j).weightsPerCore core

theorem takeFrom_spec (core : Fin n) (m : Manager n) (js : List (Fin n)) (hjs : js.Nodup) :
    let m' := js.foldl (takeFrom core) m
    (m' core).weight = (m core).weight + (js.map fun j => (m j).weightsPerCore core).sum ∧
      (∀ c, c ≠ core → (m' c).weight = (m c).weight) ∧ (∀ c, (m' c).load = (m c).load) ∧
      ∀ j c, c ≠ core → (m' j).weightsPerCore c = (m j).weightsPerCore c := by
  induction js generalizing m with
  | nil => exact ⟨(add_zero _).symm, fun _ _ => rfl, fun _ => rfl, fun _ _ _ => rfl⟩
  | cons j js ih =>
    obtain ⟨hj, hjs⟩ := nodup_cons.1 hjs
    obtain ⟨hcore, hother, hload, hplans⟩ := ih (takeFrom core m j) hjs
    have hweight : ∀ c, (takeFrom core m j c).weight =
        if c = core then (m core).weight + (m j).weightsPerCore core else (m c).weight := by
      intro c
      simp only [takeFrom, update_apply]
      split_ifs <;> simp_all
    have hkeep : ∀ c, c ≠ j → (takeFrom core m j c).weightsPerCore = (m c).weightsPerCore := by
      intro c hc
      simp only [takeFrom, update_apply, if_neg hc]
      split_ifs with h
      · rw [h]
      · rfl
    have hloads : ∀ c, (takeFrom core m j c).load = (m c).load := by
      intro c
      simp only [takeFrom, update_apply]
      split_ifs <;> simp_all
    have hplan : ∀ i c, c ≠ core →
        (takeFrom core m j i).weightsPerCore c = (m i).weightsPerCore c := by
      intro i c hc
      simp only [takeFrom, update_apply]
      split_ifs <;> simp_all
    refine ⟨?_, fun c hc => ?_, fun c => ?_, fun i c hc => ?_⟩
    · have hrest : (js.map fun i => (takeFrom core m j i).weightsPerCore core) =
          js.map fun i => (m i).weightsPerCore core :=
        map_congr_left fun i hi => by rw [hkeep i (ne_of_mem_of_not_mem hi hj)]
      rw [foldl_cons, hcore, hweight, if_pos rfl, hrest, map_cons, sum_cons, add_assoc]
    · rw [foldl_cons, hother c hc, hweight, if_neg hc]
    · rw [foldl_cons, hload, hloads]
    · rw [foldl_cons, hplans i c hc, hplan i c hc]

/-- The cores have their weights as loads, and the sum of the weights is known. -/
structure Collected (m : Manager n) (cs : List (Fin n)) (tot : ℤ) (s : Manager n × ℤ) : Prop where
  weight_eq : ∀ c ∈ cs, (s.1 c).weight = planned m c
  load_eq : ∀ c ∈ cs, (s.1 c).load = (s.1 c).weight
  others : ∀ c, c ∉ cs → (s.1 c).weight = (m c).weight ∧ (s.1 c).load = (m c).load
  tot_eq : s.2 = tot + (cs.map (planned m)).sum

theorem collected_foldl (cs : List (Fin n)) (hcs : cs.Nodup) (m : Manager n) (tot : ℤ) :
    Collected m cs tot (cs.foldl collectCore (m, tot)) := by
  induction cs generalizing m tot with
  | nil =>
    exact ⟨fun _ h => absurd h not_mem_nil, fun _ h => absurd h not_mem_nil,
      fun _ _ => ⟨rfl, rfl⟩, (add_zero tot).symm⟩
  | cons core cs ih =>
    obtain ⟨hcore, hcs⟩ := nodup_cons.1 hcs
    obtain ⟨hown, hother, hload, hplans⟩ := takeFrom_spec core m _ (nodup_finRange n)
    rw [← Fin.sum_univ_def] at hown
    change _ = planned m core at hown
    rw [foldl_cons, collectCore]
    dsimp only
    generalize (List.finRange n).foldl (takeFrom core) m = m₁ at *
    generalize hm₂ : update m₁ core { m₁ core with load := (m₁ core).weight } = m₂
    have hself : m₂ core = { m₁ core with load := (m₁ core).weight } := by
      rw [← hm₂, update_self]
    have hne : ∀ c, c ≠ core → m₂ c = m₁ c := fun c hc => by
      rw [← hm₂, update_of_ne hc]
    have hplan : ∀ j, (m₂ j).weightsPerCore = (m₁ j).weightsPerCore := by
      intro j
      rcases eq_or_ne j core with rfl | hj
      · rw [hself]
      · rw [hne j hj]
    have hplanned : ∀ c, c ≠ core → planned m₂ c = planned m c := by
      intro c hc
      rw [planned, planned, hne c hc, hother c hc]
      simp only [hplan, hplans _ c hc]
    obtain ⟨hweight, hloads, hrest, htot⟩ := ih hcs m₂ (tot + (m₁ core).weight)
    refine ⟨fun c hc => ?_, fun c hc => ?_, fun c hc => ?_, ?_⟩
    · rcases mem_cons.1 hc with rfl | hc
      · rw [(hrest c hcore).1, hself, ← hown]
      · rw [hweight c hc, hplanned c (ne_of_mem_of_not_mem hc hcore)]
    · rcases mem_cons.1 hc with rfl | hc
      · rw [(hrest c hcore).1, (hrest c hcore).2, hself]
      · exact hloads c hc
    · obtain ⟨hne', hc⟩ := not_or.1 (fun h => hc (mem_cons.2 h))
      rw [(hrest c hc).1, (hrest c hc).2, hne c hne', hother c hne', hload c]
      exact ⟨rfl, rfl⟩
    · have hsum : cs.map (planned m₂) = cs.map (planned m) :=
        map_congr_left fun c hc => hplanned c (ne_of_mem_of_not_mem hc hcore)
      rw [htot, hsum, hown, map_cons, sum_cons, add_assoc]

theorem collect_spec (m : Manager n) :
    (∀ c, ((collect m).1 c).weight = planned m c) ∧
      (∀ c, ((collect m).1 c).load = planned m c) ∧ (collect m).2 = ∑ c, planned m c := by
  obtain ⟨hweight, hload, -, htot⟩ := collected_foldl (List.finRange n) (nodup_finRange n) m 0
  refine ⟨fun c => hweight c (mem_finRange c), fun c => ?_, ?_⟩
  · exact (hload c (mem_finRange c)).trans (hweight c (mem_finRange c))
  · rw [Fin.sum_univ_def, ← zero_add (List.sum _)]
    exact htot

/-! ## Offloading -/

theorem mem_walkCores {limit : ℤ} {c : Fin n} :
    c ∈ walkCores m core limit ↔ c ≠ core ∧ (m c).load < limit := by
  simp only [walkCores, mem_append, mem_filter, mem_finRange, true_and, decide_eq_true_eq]
  constructor
  · rintro (⟨-, hne, hlt⟩ | ⟨hnode, hlt⟩)
    · exact ⟨hne, hlt⟩
    · exact ⟨fun h => hnode (h ▸ rfl), hlt⟩
  · rintro ⟨hne, hlt⟩
    rcases eq_or_ne (numaNode c) (numaNode core) with hnode | hnode
    · exact .inl ⟨hnode, hne, hlt⟩
    · exact .inr ⟨hnode, hlt⟩

theorem nodup_walkCores (m : Manager n) (core : Fin n) (limit : ℤ) :
    (walkCores m core limit).Nodup := by
  have hnodup := nodup_finRange n
  refine List.Nodup.append (hnodup.filter _) (hnodup.filter _) fun c h h' => ?_
  simp only [mem_filter, decide_eq_true_eq] at h h'
  exact h'.2.1 h.2.1

/-- The loads of the other cores decide. -/
theorem walkCores_congr {m' : Manager n} {limit : ℤ}
    (h : ∀ c, c ≠ core → (m' c).load = (m c).load) :
    walkCores m' core limit = walkCores m core limit := by
  rw [walkCores, walkCores]
  congr 1
  · refine filter_congr fun c _ => ?_
    rcases eq_or_ne c core with rfl | hc
    · simp
    · rw [h c hc]
  · refine filter_congr fun c _ => ?_
    rcases eq_or_ne c core with rfl | hc
    · simp
    · rw [h c hc]

/-- The parts go to the other cores, and their running totals to the core. -/
def addParts (m : Manager n) (core : Fin n) (cdf : ℤ) (ps : List (Fin n × ℤ)) (c : Fin n) :
    WeightDist n :=
  if c = core then
    { m core with
      cores := (m core).cores ++ ps.map Prod.fst
      dist := (m core).dist ++ totals cdf (ps.map Prod.snd) }
  else { m c with load := (m c).load + given ps c }

theorem addParts_nil (m : Manager n) (core : Fin n) (cdf : ℤ) : addParts m core cdf [] = m := by
  funext c
  rw [addParts]
  split_ifs with hc
  · simp [totals, hc]
  · simp

theorem offloadLoop_eq (core : Fin n) (limit : ℤ) (m : Manager n) (cdf : ℤ) (walk : List (Fin n))
    (hnodup : walk.Nodup) (hcore : core ∉ walk) :
    offloadLoop core limit m cdf walk = addParts m core cdf
      (fill (fun c => limit - (m c).load) ((m core).weight - cdf) walk) := by
  induction walk generalizing m cdf with
  | nil => exact (addParts_nil m core cdf).symm
  | cons cur walk ih =>
    obtain ⟨hcur, hnodup⟩ := nodup_cons.1 hnodup
    obtain ⟨hne, hcore⟩ := not_or.1 (fun h => hcore (mem_cons.2 h))
    rw [offloadLoop, fill]
    rcases lt_or_ge cdf (m core).weight with hlt | hge
    · rw [if_pos hlt, if_pos (by omega), ih _ _ hnodup hcore]
      generalize hdelta : min ((m core).weight - cdf) (limit - (m cur).load) = delta
      have hfill : fill (fun c => limit - (update (update m core
          { m core with cores := (m core).cores ++ [cur], dist := (m core).dist ++ [cdf + delta] })
          cur { m cur with load := (m cur).load + delta } c).load)
          ((m core).weight - (cdf + delta)) walk =
          fill (fun c => limit - (m c).load) ((m core).weight - cdf - delta) walk := by
        rw [sub_sub]
        refine fill_congr fun c hc => ?_
        rw [update_of_ne (ne_of_mem_of_not_mem hc hcur),
          update_of_ne (ne_of_mem_of_not_mem hc hcore)]
      simp only [update_of_ne hne, update_of_ne (Ne.symm hne), update_self] at hfill ⊢
      rw [hfill]
      funext c
      rw [addParts, addParts]
      split_ifs with hc
      · rw [update_of_ne hne, update_self]
        simp [totals]
      · rcases eq_or_ne c cur with rfl | hc'
        · simp [add_assoc]
        · rw [update_of_ne hc', update_of_ne hc, given_cons, if_neg (Ne.symm hc'), zero_add]
    · rw [if_neg (by omega), if_neg (by omega), addParts_nil]

/-- What a core offloads to others. -/
def offloads (avg : ℤ) (m : Manager n) (core : Fin n) : List (Fin n × ℤ) :=
  fill (fun c => avg - (m c).load) ((m core).weight - avg) (walkCores m core avg)

/-- The manager after a round of the second loop. -/
def spread (avg : ℤ) (m : Manager n) (core c : Fin n) : WeightDist n :=
  if c = core then
    { m core with
      load := if avg < (m core).weight then avg else (m core).load
      cores := core :: (offloads avg m core).map Prod.fst
      dist := totals 0 (min (m core).weight avg :: (offloads avg m core).map Prod.snd) }
  else { m c with load := (m c).load + given (offloads avg m core) c }

theorem offloads_of_le {avg : ℤ} (h : (m core).weight ≤ avg) : offloads avg m core = [] :=
  fill_of_nonpos (by omega)

theorem balanceCore_eq (avg : ℤ) (m : Manager n) (nr : ℕ) (core : Fin n) :
    balanceCore avg (m, nr) core = if kPrealloc < nr + ((offloads avg m core).length + 1) then none
      else some (spread avg m core, nr + ((offloads avg m core).length + 1)) := by
  have hspread : (if avg < (m core).weight then
      offloadCore (update m core
        { m core with dist := [avg], cores := [core], load := avg }) core avg
      else update m core { m core with dist := [(m core).weight], cores := [core] }) =
      spread avg m core := by
    split_ifs with hlt
    · have hwalk : walkCores (update m core
          { m core with dist := [avg], cores := [core], load := avg }) core avg =
          walkCores m core avg :=
        walkCores_congr fun c hc => by rw [update_of_ne hc]
      have hnot : core ∉ walkCores m core avg := fun h => (mem_walkCores.1 h).1 rfl
      rw [offloadCore, hwalk, offloadLoop_eq _ _ _ _ _ (nodup_walkCores m core avg) hnot]
      have hfill : fill (fun c => avg - (update m core
          { m core with dist := [avg], cores := [core], load := avg } c).load)
          ((m core).weight - avg) (walkCores m core avg) = offloads avg m core :=
        fill_congr fun c hc => by rw [update_of_ne (ne_of_mem_of_not_mem hc hnot)]
      rw [update_self, hfill]
      funext c
      rw [addParts, spread]
      split_ifs with hc
      · rw [update_self, min_eq_right hlt.le, totals, zero_add]
        rfl
      · rw [update_of_ne hc]
    · funext c
      rw [spread, offloads_of_le (not_lt.1 hlt)]
      split_ifs with hc
      · rw [hc, update_self, min_eq_left (not_lt.1 hlt)]
        simp [totals]
      · rw [update_of_ne hc, given_nil, add_zero]
  rw [balanceCore]
  dsimp only
  rw [hspread]
  have hlength : (spread avg m core core).nrDist = (offloads avg m core).length + 1 := by
    rw [WeightDist.nrDist, spread, if_pos rfl, length_totals, length_cons, length_map]
  rw [hlength]

end Felis.Locality
