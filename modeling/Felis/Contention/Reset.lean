import Felis.Contention.BinPack
import Felis.Contention.Heads

/-!
# `ContentionManager::Reset`

Before the execution phase, `Reset` takes the positions back from all rows and spreads the contended
rows over the cores by their splitting weights. The rows with many unwritten versions are selected,
in the order of the heads. A selected row gets the core at which its weight is centred, when the
cores share the sum of the weights evenly; its weight is planned there. With bin packing, the rows
are then packed core by core instead, and what fits on none goes to the last one.

* `affinities_in_range`: the cores are valid and in order if and only if the last selected row has
  a weight;
* `affinity_out_of_range`: a row without a weight at the end goes to a core that does not exist.
-/

namespace Felis.Contention

open MachineInts Row Function List

variable {R : Type}

/-! ## The source -/

/-- The rows of all heads, in the order in which `Reset` visits them. -/
def Manager.visited (cfg : Config) (m : Manager R) : List R :=
  (List.range cfg.nrThreads).flatMap fun core =>
    (m.bufferHeads core).flatMap VersionBufferHead.backrefs

def selects (cfg : Config) (row : VHandle) : Bool :=
  cfg.splittingThreshold < unsigned 32 (row.size - (row.latestVersion + 1))

def selected (cfg : Config) (rows : R → VHandle) (visited : List R) : List R :=
  visited.filter fun r => selects cfg (rows r)

/-- The sum of the weights, in an `unsigned int`. -/
def sumWeights (rows : R → VHandle) (rs : List R) : ℕ :=
  rs.foldl (fun sum r => unsigned 32 (sum + (rows r).nrOndsplt)) 0

/-- `sum`, which is 0 when nothing is to be split. -/
def splitSum (cfg : Config) (rows : R → VHandle) (rs : List R) : ℕ :=
  let sum := if cfg.onDemandSplitting then sumWeights rows rs else 0
  if sum < cfg.nrThreads then 0 else sum

/-- `g_nr_threads * (s + row->nr_ondsplt / 2) / sum`. -/
def affinity (cfg : Config) (sum s : ℕ) (w : ℤ) : ℕ :=
  cfg.nrThreads * unsigned 32 (s + w.tdiv 2) % 2 ^ 64 / sum

section

variable [DecidableEq R]

/-- `buf_pos.store(-1)` for the rows. -/
def clearPos (visited : List R) (rows : R → VHandle) (r : R) : VHandle :=
  if r ∈ visited then { rows r with bufPos := -1 } else rows r

/-- The loop over the selected rows, with the calls of `PlanLoad` that it makes without bin
packing. -/
def assignLoop (cfg : Config) (sum : ℕ) : ℕ → (R → VHandle) → List R →
    (R → VHandle) × List (ℤ × ℤ)
  | _, rows, [] => (rows, [])
  | s, rows, r :: rs =>
    let w := (rows r).nrOndsplt
    let rows := setAffinity rows r (affinity cfg sum s w)
    (assignLoop cfg sum (unsigned 32 (s + w)) rows rs).map id (((rows r).contAffinity, w) :: ·)

/-- The loop over `BinPack`. `labelled` is no part of the program: the rows that have got a label,
with the label. -/
structure Splitting (R : Type) where
  rows : R → VHandle
  knapsacks : List (Option R)
  delta : ℤ
  labelled : List (R × ℤ)

def packCore (hardLimit : ℕ) (s : Splitting R) (core : ℕ) : Splitting R :=
  let p := binPack s.rows s.knapsacks core (unsigned 64 (hardLimit + 1 + s.delta))
  { rows := p.rows
    knapsacks := p.knapsacks
    delta := signed 32 (unsigned 64 (hardLimit + s.delta - p.cap))
    labelled := s.labelled ++ p.taken.map fun r => (r, (core : ℤ)) }

def packLeftOver (s : Splitting R) (label : ℤ) : Splitting R :=
  { s with
    rows := s.knapsacks.reduceOption.foldl (fun rows r => setAffinity rows r label) s.rows
    labelled := s.labelled ++ s.knapsacks.reduceOption.map fun r => (r, label) }

/-- The loop has gone through the first `k` cores. -/
def packCores (cfg : Config) (sum : ℕ) (rows : R → VHandle) (rs : List R) (k : ℕ) : Splitting R :=
  (List.range k).foldl (packCore (sum / cfg.nrThreads)) ⟨rows, rs.map some, 0, []⟩

/-- The loop over `BinPack`, and `PackLeftOver`. -/
def packRows (cfg : Config) (sum : ℕ) (rows : R → VHandle) (rs : List R) : Splitting R :=
  packLeftOver (packCores cfg sum rows rs (cfg.nrThreads - 1)) ((cfg.nrThreads : ℤ) - 1)

/-- What `Reset` leaves. `assigned` and `splitting` are no part of the program: the rows before bin
packing, and what bin packing leaves. -/
structure ResetResult (R : Type) where
  manager : Manager R
  rows : R → VHandle
  estSplit : ℕ
  planned : List (ℤ × ℤ)
  assigned : R → VHandle
  splitting : Splitting R

def reset (cfg : Config) (m : Manager R) (rows : R → VHandle) :
    Except HeadFault (ResetResult R) :=
  let visited := m.visited cfg
  let rows := clearPos visited rows
  let rs := selected cfg rows visited
  let sum := splitSum cfg rows rs
  let assigned := if sum = 0 then (rows, []) else assignLoop cfg sum 0 rows rs
  let packed := cfg.binpackSplitting && sum ≠ 0
  let splitting :=
    if packed then packRows cfg sum assigned.1 rs else ⟨assigned.1, rs.map some, 0, []⟩
  (m.resetHeads cfg).map fun m =>
    { manager := m
      rows := splitting.rows
      estSplit := sum
      planned := if packed then [] else assigned.2
      assigned := assigned.1
      splitting := splitting }

end

/-! ## The affinities -/

/-- The affinities of rows with the given weights, for the sum `W` and `n` cores. -/
def affinities (n W : ℕ) : ℕ → List ℕ → List ℕ
  | _, [] => []
  | s, w :: ws => n * (s + w / 2) / W :: affinities n W (s + w) ws

theorem le_of_mem_affinities {n W s : ℕ} {ws : List ℕ} {a : ℕ} (ha : a ∈ affinities n W s ws) :
    n * s / W ≤ a := by
  induction ws generalizing s with
  | nil => cases ha
  | cons w ws ih =>
    rcases mem_cons.1 ha with rfl | ha
    · exact Nat.div_le_div_right (Nat.mul_le_mul_left n (Nat.le_add_right s _))
    · exact (Nat.div_le_div_right (Nat.mul_le_mul_left n (Nat.le_add_right s w))).trans (ih ha)

theorem pairwise_affinities (n W s : ℕ) (ws : List ℕ) :
    (affinities n W s ws).Pairwise (· ≤ ·) := by
  induction ws generalizing s with
  | nil => exact .nil
  | cons w ws ih =>
    refine pairwise_cons.2 ⟨fun a ha => ?_, ih (s + w)⟩
    refine le_trans (Nat.div_le_div_right (Nat.mul_le_mul_left n ?_)) (le_of_mem_affinities ha)
    exact Nat.add_le_add_left (Nat.div_le_self w 2) s

/-- Every row is centred before the end when the last one has a weight. -/
theorem lt_of_mem_affinities {n W s : ℕ} {ws : List ℕ} (hn : 0 < n) (hW : s + ws.sum ≤ W)
    (hlast : ∀ w ∈ ws.getLast?, 0 < w) {a : ℕ} (ha : a ∈ affinities n W s ws) : a < n := by
  induction ws generalizing s with
  | nil => cases ha
  | cons w ws ih =>
    rw [sum_cons] at hW
    rcases mem_cons.1 ha with rfl | ha
    · have hlt : s + w / 2 < W := by
        cases ws with
        | nil =>
          have := hlast w rfl
          omega
        | cons w' ws =>
          rw [List.getLast?_cons_cons] at hlast
          have hmem := List.getLast?_eq_getLast_of_ne_nil (cons_ne_nil w' ws)
          have hpos := hlast _ hmem
          have hle := le_sum_of_mem (getLast_mem (cons_ne_nil w' ws))
          omega
      apply Nat.div_lt_of_lt_mul
      rw [Nat.mul_comm W n]
      exact Nat.mul_lt_mul_of_pos_left hlt hn
    · refine ih (s := s + w) (by omega) (fun w' hw' => ?_) ha
      cases ws with
      | nil => cases hw'
      | cons w'' ws =>
        rw [List.getLast?_cons_cons] at hlast
        exact hlast w' hw'

/-- A row without a weight at the end is centred at the end. -/
theorem getLast?_affinities {n W s : ℕ} {ws : List ℕ} (hlast : ws.getLast? = some 0) :
    (affinities n W s ws).getLast? = some (n * (s + ws.sum) / W) := by
  induction ws generalizing s with
  | nil => cases hlast
  | cons w ws ih =>
    cases ws with
    | nil =>
      obtain rfl := Option.some.inj hlast
      rfl
    | cons w' ws =>
      rw [List.getLast?_cons_cons] at hlast
      have hcons : affinities n W (s + w) (w' :: ws) ≠ [] := cons_ne_nil _ _
      rw [affinities, List.getLast?_cons_of_ne_nil hcons, ih hlast, Nat.add_assoc, ← sum_cons]

/-! ## The loop over the rows -/

section

variable [DecidableEq R] {cfg : Config} {rows : R → VHandle} {rs : List R} {s W : ℕ}

@[simp] theorem nrOndsplt_setAffinity (rows : R → VHandle) (r r' : R) (label : ℤ) :
    (setAffinity rows r label r').nrOndsplt = (rows r').nrOndsplt := by
  rw [setAffinity]
  rcases eq_or_ne r' r with rfl | hne
  · rw [update_self]
  · rw [update_of_ne hne]

@[simp] theorem weight_setAffinity (rows : R → VHandle) (r r' : R) (label : ℤ) :
    weight (setAffinity rows r label) r' = weight rows r' := by
  rw [weight, nrOndsplt_setAffinity, weight]

/-- The loop does not change the weights. -/
theorem nrOndsplt_assignLoop (cfg : Config) (W s : ℕ) (rows : R → VHandle) (rs : List R) (r : R) :
    ((assignLoop cfg W s rows rs).1 r).nrOndsplt = (rows r).nrOndsplt := by
  induction rs generalizing s rows with
  | nil => rfl
  | cons r' rs ih => rw [assignLoop, Prod.map_fst, id, ih, nrOndsplt_setAffinity]

omit [DecidableEq R] in
theorem nrOndsplt_eq_weight {r : R} (h : 0 ≤ (rows r).nrOndsplt) :
    (rows r).nrOndsplt = weight rows r := (Int.toNat_of_nonneg h).symm

theorem unsigned_sum {w : ℕ} (hfit : s + w ≤ W) (hW : W < 2 ^ 32) :
    unsigned 32 ((s : ℤ) + w) = s + w := by
  rw [← Nat.cast_add, unsigned_natCast]
  exact Nat.mod_eq_of_lt (by omega)

theorem affinity_eq {w : ℕ} (hfit : s + w ≤ W) (hW : W < 2 ^ 32)
    (hprod : cfg.nrThreads * W < 2 ^ 64) :
    affinity cfg W s w = cfg.nrThreads * (s + w / 2) / W := by
  have hhalf : s + w / 2 ≤ W := by omega
  have hle : cfg.nrThreads * (s + w / 2) ≤ cfg.nrThreads * W := Nat.mul_le_mul_left _ hhalf
  have htdiv : (w : ℤ).tdiv 2 = ((w / 2 : ℕ) : ℤ) := rfl
  rw [affinity, htdiv, unsigned_sum hhalf hW, Nat.mod_eq_of_lt (hle.trans_lt hprod)]

/-- What the loop assigns to the rows, and what it plans. -/
structure Assigned (cfg : Config) (W s : ℕ) (rows : R → VHandle) (rs : List R)
    (a : (R → VHandle) × List (ℤ × ℤ)) : Prop where
  rows_eq : rs.map (fun r => (a.1 r).contAffinity) =
    (affinities cfg.nrThreads W s (rs.map (weight rows))).map fun x : ℕ => signed 8 x
  planned_eq : a.2.map Prod.fst =
    (affinities cfg.nrThreads W s (rs.map (weight rows))).map fun x : ℕ => signed 8 x
  others : ∀ r, r ∉ rs → a.1 r = rows r

theorem assignLoop_spec (hnodup : rs.Nodup) (hnonneg : ∀ r ∈ rs, 0 ≤ (rows r).nrOndsplt)
    (hfit : s + (rs.map (weight rows)).sum ≤ W) (hW : W < 2 ^ 32)
    (hprod : cfg.nrThreads * W < 2 ^ 64) :
    Assigned cfg W s rows rs (assignLoop cfg W s rows rs) := by
  induction rs generalizing s rows with
  | nil => exact ⟨rfl, rfl, fun _ _ => rfl⟩
  | cons r rs ih =>
    obtain ⟨hr, hnodup⟩ := nodup_cons.1 hnodup
    rw [map_cons, sum_cons] at hfit
    have hw := nrOndsplt_eq_weight (hnonneg r (mem_cons_self ..))
    have haff : affinity cfg W s (weight rows r) =
        cfg.nrThreads * (s + weight rows r / 2) / W := affinity_eq (by omega) hW hprod
    have hweights : rs.map (weight (setAffinity rows r (affinity cfg W s (weight rows r)))) =
        rs.map (weight rows) := map_congr_left fun r' _ => weight_setAffinity ..
    have hnonneg' : ∀ r' ∈ rs,
        0 ≤ (setAffinity rows r (affinity cfg W s (weight rows r)) r').nrOndsplt := by
      intro r' hr'
      rw [nrOndsplt_setAffinity]
      exact hnonneg r' (mem_cons_of_mem r hr')
    obtain ⟨hrows, hplanned, hothers⟩ := ih (s := s + weight rows r) hnodup hnonneg'
      (by rw [hweights]; omega)
    rw [hweights] at hrows hplanned
    have hself : (setAffinity rows r (affinity cfg W s (weight rows r)) r).contAffinity =
        signed 8 (cfg.nrThreads * (s + weight rows r / 2) / W : ℕ) := by
      rw [setAffinity, update_self, haff]
    rw [assignLoop, hw, unsigned_sum (show s + weight rows r ≤ W by omega) hW]
    refine ⟨?_, ?_, fun r' hr' => ?_⟩
    · rw [map_cons, map_cons, affinities, map_cons, Prod.map_fst, id, hothers r hr, hself, hrows]
    · rw [Prod.map_snd, map_cons, map_cons, affinities, map_cons, hself, hplanned]
    · rw [mem_cons, not_or] at hr'
      rw [Prod.map_fst, id, hothers r' hr'.2, setAffinity, update_of_ne hr'.1]

omit [DecidableEq R] in
theorem sumWeights_eq (hnonneg : ∀ r ∈ rs, 0 ≤ (rows r).nrOndsplt) :
    sumWeights rows rs = (rs.map (weight rows)).sum % 2 ^ 32 := by
  have hfold : ∀ acc < 2 ^ 32, rs.foldl (fun sum r => unsigned 32 (sum + (rows r).nrOndsplt)) acc =
      (acc + (rs.map (weight rows)).sum) % 2 ^ 32 := by
    induction rs with
    | nil => exact fun acc hacc => (Nat.mod_eq_of_lt hacc).symm
    | cons r rs ih =>
      intro acc hacc
      rw [foldl_cons, nrOndsplt_eq_weight (hnonneg r (mem_cons_self ..)), ← Nat.cast_add,
        unsigned_natCast, ih (fun r' hr' => hnonneg r' (mem_cons_of_mem r hr')) _
          (Nat.mod_lt _ (Nat.two_pow_pos 32)), Nat.mod_add_mod, map_cons, sum_cons, Nat.add_assoc]
  rw [sumWeights, hfold 0 (Nat.two_pow_pos 32), Nat.zero_add]

theorem nrOndsplt_clearPos (visited : List R) (rows : R → VHandle) (r : R) :
    (clearPos visited rows r).nrOndsplt = (rows r).nrOndsplt := by
  rw [clearPos]
  split_ifs <;> rfl

theorem weight_clearPos (visited : List R) (rows : R → VHandle) :
    weight (clearPos visited rows) = weight rows := by
  funext r
  rw [weight, nrOndsplt_clearPos, weight]

theorem selected_clearPos (cfg : Config) (visited : List R) (rows : R → VHandle) :
    selected cfg (clearPos visited rows) visited = selected cfg rows visited := by
  refine filter_congr fun r _ => ?_
  rw [clearPos]
  split_ifs
  rfl

end

/-! ## Valid cores -/

/-- The rows have valid affinities in the order of the rows, and loads are planned for valid cores.
-/
structure ValidCores (cfg : Config) (rs : List R) (rows : R → VHandle) (planned : List (ℤ × ℤ)) :
    Prop where
  range : ∀ r ∈ rs, 0 ≤ (rows r).contAffinity ∧ (rows r).contAffinity < cfg.nrThreads
  sorted : (rs.map fun r => (rows r).contAffinity).Pairwise (· ≤ ·)
  planned : ∀ p ∈ planned, 0 ≤ p.1 ∧ p.1 < cfg.nrThreads

section

variable {cfg : Config} {rows rows' : R → VHandle} {rs : List R} {W : ℕ}

theorem splitSum_eq (hon : cfg.onDemandSplitting = true)
    (hnonneg : ∀ r ∈ rs, 0 ≤ (rows r).nrOndsplt) :
    splitSum cfg rows rs = if (rs.map (weight rows)).sum % 2 ^ 32 < cfg.nrThreads then 0
      else (rs.map (weight rows)).sum % 2 ^ 32 := by
  rw [splitSum, if_pos hon, sumWeights_eq hnonneg]

theorem ValidCores.nil (cfg : Config) (rows : R → VHandle) : ValidCores cfg [] rows [] :=
  ⟨fun _ h => absurd h not_mem_nil, .nil, fun _ h => absurd h not_mem_nil⟩

/-- The affinities fit into an `int8_t`, so that the loop assigns and plans them as they are. -/
theorem Assigned.validCores {a : (R → VHandle) × List (ℤ × ℤ)} (h : Assigned cfg W 0 rows rs a)
    (hpos : 0 < cfg.nrThreads) (hcores : cfg.nrThreads ≤ 128) (hW : (rs.map (weight rows)).sum ≤ W)
    (hlast : ∀ r ∈ rs.getLast?, 0 < (rows r).nrOndsplt) : ValidCores cfg rs a.1 a.2 := by
  obtain ⟨hrows, hplanned, -⟩ := h
  have hlast' : ∀ w ∈ (rs.map (weight rows)).getLast?, 0 < w := by
    intro w hw
    rw [List.getLast?_map] at hw
    obtain ⟨r, hr, rfl⟩ := Option.map_eq_some_iff.1 hw
    have hr := hlast r hr
    rw [weight]
    omega
  have hlt : ∀ x ∈ affinities cfg.nrThreads W 0 (rs.map (weight rows)), x < cfg.nrThreads :=
    fun x hx => lt_of_mem_affinities hpos (by omega) hlast' hx
  have hsorted := pairwise_affinities cfg.nrThreads W 0 (rs.map (weight rows))
  generalize affinities cfg.nrThreads W 0 (rs.map (weight rows)) = as at *
  have hsigned : as.map (fun x : ℕ => signed 8 x) = as.map fun x : ℕ => (x : ℤ) := by
    refine map_congr_left fun x hx => signed_natCast ?_
    have := hlt x hx
    omega
  have hrange : ∀ y ∈ as.map fun x : ℕ => (x : ℤ), 0 ≤ y ∧ y < cfg.nrThreads := by
    intro y hy
    obtain ⟨x, hx, rfl⟩ := mem_map.1 hy
    exact ⟨Int.natCast_nonneg x, Int.ofNat_lt.2 (hlt x hx)⟩
  rw [hsigned] at hrows hplanned
  refine ⟨fun r hr => ?_, ?_, fun p hp => ?_⟩
  · apply hrange
    rw [← hrows]
    exact mem_map_of_mem hr
  · rw [hrows, pairwise_map]
    exact hsorted.imp Int.ofNat_le.2
  · apply hrange
    rw [← hplanned]
    exact mem_map_of_mem hp

/-- A row without a weight at the end gets a core that does not exist. -/
theorem Assigned.last_weight {a : (R → VHandle) × List (ℤ × ℤ)}
    (h : Assigned cfg (rs.map (weight rows)).sum 0 rows rs a) (hcores : cfg.nrThreads ≤ 128)
    (hW : 0 < (rs.map (weight rows)).sum)
    (hrange : ∀ r ∈ rs, 0 ≤ (a.1 r).contAffinity ∧ (a.1 r).contAffinity < cfg.nrThreads)
    {r : R} (hr : r ∈ rs.getLast?) : 0 < (rows r).nrOndsplt := by
  by_contra hzero
  have hlast : (rs.map (weight rows)).getLast? = some 0 := by
    rw [List.getLast?_map, hr, Option.map_some, weight, Int.toNat_of_nonpos (by omega)]
  have haff : (a.1 r).contAffinity = signed 8 cfg.nrThreads := by
    have heq := congrArg List.getLast? h.rows_eq
    rw [List.getLast?_map, List.getLast?_map, hr, getLast?_affinities hlast, Nat.zero_add,
      Nat.mul_div_cancel _ hW] at heq
    exact Option.some.inj heq
  have hmem := hrange r (List.mem_of_getLast? hr)
  rw [haff] at hmem
  rcases hcores.lt_or_eq with hlt | heq
  · rw [signed_natCast (by omega)] at hmem
    exact lt_irrefl _ hmem.2
  · rw [heq] at hmem
    exact absurd hmem.1 (by decide)

end

/-- **Affinities are cores.** With at most 128 cores, every selected row gets a valid core, in the
order of the rows, and `PlanLoad` is called with valid cores only, if and only if the last selected
row has a weight. Rows are selected only when on-demand splitting is on; they keep these affinities
unless they are packed afterwards. -/
theorem affinities_in_range [DecidableEq R] (cfg : Config) (m : Manager R) (rows : R → VHandle)
    (hon : cfg.onDemandSplitting = true) (hnodup : (m.visited cfg).Nodup)
    (hnonneg : ∀ r ∈ selected cfg rows (m.visited cfg), 0 ≤ (rows r).nrOndsplt)
    (hsum : cfg.nrThreads ≤ ((selected cfg rows (m.visited cfg)).map (weight rows)).sum)
    (hprod : cfg.nrThreads * ((selected cfg rows (m.visited cfg)).map (weight rows)).sum < 2 ^ 32)
    (hcores : cfg.nrThreads ≤ 128) (t : ResetResult R) (ht : reset cfg m rows = .ok t) :
    (ValidCores cfg (selected cfg rows (m.visited cfg)) t.assigned t.planned ↔
      ∀ r ∈ (selected cfg rows (m.visited cfg)).getLast?, 0 < (rows r).nrOndsplt) ∧
      (cfg.binpackSplitting = false → t.rows = t.assigned) := by
  obtain ⟨m', -, rfl⟩ := map_ok ht
  rw [selected_clearPos]
  have hnonneg' : ∀ r ∈ selected cfg rows (m.visited cfg),
      0 ≤ (clearPos (m.visited cfg) rows r).nrOndsplt := by
    simpa only [nrOndsplt_clearPos] using hnonneg
  simp only [← nrOndsplt_clearPos (m.visited cfg) rows]
  have hrs : (selected cfg rows (m.visited cfg)).Nodup := hnodup.filter _
  have hnil : cfg.nrThreads = 0 → selected cfg rows (m.visited cfg) = [] := by
    intro h0
    rw [Manager.visited, h0]
    rfl
  rw [← weight_clearPos (m.visited cfg) rows] at hsum hprod
  generalize selected cfg rows (m.visited cfg) = rs at *
  generalize clearPos (m.visited cfg) rows = rows at *
  generalize ha : (if splitSum cfg rows rs = 0 then (rows, [])
    else assignLoop cfg (splitSum cfg rows rs) 0 rows rs) = a
  have hvalid : ((∀ r ∈ rs, 0 ≤ (a.1 r).contAffinity ∧ (a.1 r).contAffinity < cfg.nrThreads) →
        ∀ r ∈ rs.getLast?, 0 < (rows r).nrOndsplt) ∧
      ((∀ r ∈ rs.getLast?, 0 < (rows r).nrOndsplt) → ValidCores cfg rs a.1 a.2) := by
    rw [← ha]
    rcases Nat.eq_zero_or_pos cfg.nrThreads with h0 | hpos
    · obtain rfl := hnil h0
      exact ⟨fun _ _ hr => (by cases hr), fun _ => by split_ifs <;> exact .nil cfg rows⟩
    · have hW : (rs.map (weight rows)).sum < 2 ^ 32 :=
        (Nat.le_mul_of_pos_left _ hpos).trans_lt hprod
      rw [splitSum_eq hon hnonneg', Nat.mod_eq_of_lt hW, if_neg (show ¬_ < _ by omega),
        if_neg (by omega)]
      have hspec : Assigned cfg _ 0 rows rs _ :=
        assignLoop_spec hrs hnonneg' (by omega) hW (by omega)
      exact ⟨fun hrange _ hr => hspec.last_weight hcores (by omega) hrange hr,
        hspec.validCores hpos hcores le_rfl⟩
  refine ⟨⟨fun h => hvalid.1 h.range, fun hlast => ?_⟩, fun hbin => by simp [hbin]⟩
  obtain ⟨hrange, hsorted, hplanned⟩ := hvalid.2 hlast
  refine ⟨hrange, hsorted, ?_⟩
  split_ifs
  · exact fun p hp => absurd hp not_mem_nil
  · exact hplanned

def splitOnDemand : Config where
  nrThreads := 8
  preallocCount := 65536
  splittingThreshold := 32
  lockElision := false
  batchAppend := true
  onDemandSplitting := true
  binpackSplitting := false

/-- The first core has a head with the rows, and the others have empty heads. -/
def holding (rs : List ℕ) : Manager ℕ where
  alloc _ := ⟨0, 8, 0⟩
  bufferHeads core := [⟨core * kMaxPos, core, if core = 0 then rs else []⟩]

/-- Rows with the weights and 40 versions that are not written yet. -/
def contended (ws : List ℤ) (r : ℕ) : VHandle := { weighing ws r with size := 40 }

/-- Three rows that share the cores. -/
theorem affinities_in_range_threeRows : ∃ t,
    reset splitOnDemand (holding [0, 1, 2]) (contended [6, 4, 2]) = .ok t ∧
      t.planned = [(2, 6), (5, 4), (7, 2)] ∧
      ValidCores splitOnDemand
        (selected splitOnDemand (contended [6, 4, 2]) ((holding [0, 1, 2]).visited splitOnDemand))
        t.assigned t.planned := by
  have hselected : selected splitOnDemand (contended [6, 4, 2])
      ((holding [0, 1, 2]).visited splitOnDemand) = [0, 1, 2] := by decide
  have hany : (reset splitOnDemand (holding [0, 1, 2]) (contended [6, 4, 2])).toOption.any
      (fun t => t.planned = [(2, 6), (5, 4), (7, 2)]) = true := by decide
  cases ht : reset splitOnDemand (holding [0, 1, 2]) (contended [6, 4, 2]) with
  | error e => simp [ht, Except.toOption] at hany
  | ok t =>
    refine ⟨t, rfl, by simpa [ht, Except.toOption] using hany, ?_⟩
    refine (affinities_in_range splitOnDemand (holding [0, 1, 2]) (contended [6, 4, 2]) rfl
      (by decide) ?_ (by decide) (by decide) (by decide) t ht).1.2 ?_
    · rw [hselected]
      decide
    · rw [hselected]
      rintro r ⟨⟩
      decide

/-- A row without a weight after a row with weight 8 is assigned to the core 8 of 8, and its load is
planned there. -/
theorem affinity_out_of_range :
    ((reset splitOnDemand (holding [0, 1]) (contended [8, 0])).map fun t =>
      ((t.rows 1).contAffinity, t.planned)).toOption = some (8, [(4, 8), (8, 0)]) := by
  decide

end Felis.Contention
