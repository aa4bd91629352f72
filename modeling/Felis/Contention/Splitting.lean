import Felis.Contention.Reset

/-!
# Packing the rows core by core

With bin packing, `Reset` calls `BinPack` for all cores but the last. What a core leaves of its
share is `delta`, which is added to the share of the next one, and the rows that are left over go to
the last core.

A row that is left has more weight than `delta`, since it would have been packed otherwise. From
this the tables of `BinPack` do not overflow, `delta` stays an `int`, and there is always a row
left. `packRows_balanced` is the result: the first `k + 1` cores never have more than their share.
The sum of the weights is an `unsigned int`. When it wraps, the shares are only smaller, unless the
number that is left is below that of the cores: then no row gets a label, and `packRows_sum_wraps`
is such a set of rows.
-/

namespace Felis.Contention

open MachineInts Row SubsetSum Function List

variable {R : Type} {r : R}

/-! ## Taking rows out of the array -/

section

variable {rows : R → VHandle} {ks ks' : List (Option R)} {taken : List R}

variable (h : Takes ks ks' taken)

include h

theorem Takes.perm : (taken ++ ks'.reduceOption).Perm ks.reduceOption := by
  induction h with
  | nil => exact .nil
  | keep o _ ih =>
    cases o with
    | none => simpa only [reduceOption_cons_of_none] using ih
    | some r =>
      simp only [reduceOption_cons_of_some]
      exact perm_middle.trans (ih.cons r)
  | take r _ ih =>
    simp only [reduceOption_cons_of_none, reduceOption_cons_of_some]
    exact ih.cons r

theorem Takes.sublist :
    ks'.reduceOption.Sublist ks.reduceOption ∧ taken.Sublist ks.reduceOption := by
  induction h with
  | nil => exact ⟨.slnil, .slnil⟩
  | keep o _ ih =>
    cases o with
    | none => simpa only [reduceOption_cons_of_none] using ih
    | some r =>
      simp only [reduceOption_cons_of_some]
      exact ⟨ih.1.cons_cons r, ih.2.cons r⟩
  | take r _ ih =>
    simp only [reduceOption_cons_of_none, reduceOption_cons_of_some]
    exact ⟨ih.1.cons r, ih.2.cons_cons r⟩

/-- A row that is left could have been taken as well. -/
theorem Takes.exists_sublist (hr : r ∈ ks'.reduceOption) :
    ∃ l : List R, l.Sublist ks.reduceOption ∧ l.Perm (r :: taken) := by
  induction h with
  | nil => exact absurd hr not_mem_nil
  | keep o h ih =>
    cases o with
    | none => simpa only [reduceOption_cons_of_none] using ih hr
    | some r' =>
      simp only [reduceOption_cons_of_some] at hr ⊢
      rcases mem_cons.1 hr with rfl | hr
      · exact ⟨r :: _, h.sublist.2.cons_cons r, .refl _⟩
      · obtain ⟨l, hl, hperm⟩ := ih hr
        exact ⟨l, hl.cons r', hperm⟩
  | take r' _ ih =>
    simp only [reduceOption_cons_of_some]
    obtain ⟨l, hl, hperm⟩ := ih hr
    exact ⟨r' :: l, hl.cons_cons r', (hperm.cons r').trans (.swap r r' _)⟩

theorem Takes.weights_sublist : (weights rows ks').Sublist (weights rows ks) := h.sublist.1.map _

end

/-! ## Optimal packing -/

section

variable [DecidableEq R] {rows : R → VHandle} {ks : List (Option R)} {label : ℤ} {c : ℕ}
  {p : Packed R}

/-- A row that is left has more weight than what is left of the capacity. -/
theorem Optimal.lt_weight (h : Optimal rows ks label (c + 1) p) (hr : r ∈ p.knapsacks.reduceOption)
    (hpos : 0 < weight rows r) : c - p.cap < weight rows r := by
  by_contra hle
  have hcap : p.cap ≤ c := h.greatest.1.choose_spec.2.2
  obtain ⟨l, hl, hperm⟩ := h.takes.exists_sublist hr
  have hsum : (l.map (weight rows)).sum = weight rows r + p.cap := by
    rw [(hperm.map _).sum_eq, map_cons, sum_cons, h.sum_taken]
  have hle := h.greatest.2 ⟨_, hl.map (weight rows), hsum, by omega⟩
  omega

end

theorem relabel_of_mem [DecidableEq R] {label : ℤ} {taken : List R} (h : r ∈ taken)
    (rows : R → VHandle) :
    relabel label taken rows r = { rows r with contAffinity := signed 8 label } := if_pos h

theorem relabel_of_not_mem [DecidableEq R] {label : ℤ} {taken : List R} (h : r ∉ taken)
    (rows : R → VHandle) : relabel label taken rows r = rows r := if_neg h

/-- The rows have the labels that they got, when new rows are labelled. -/
theorem labels_relabel [DecidableEq R] {rows : R → VHandle} {labelled : List (R × ℤ)}
    {taken : List R} {label : ℤ} (hlabels : ∀ q ∈ labelled, (rows q.1).contAffinity = q.2)
    (hdisj : (labelled.map Prod.fst).Disjoint taken) (hlabel : signed 8 label = label) :
    ∀ q ∈ labelled ++ taken.map fun r => (r, label),
      (relabel label taken rows q.1).contAffinity = q.2 := by
  intro q hq
  rcases mem_append.1 hq with hq | hq
  · rw [relabel_of_not_mem (hdisj (mem_map_of_mem hq))]
    exact hlabels q hq
  · obtain ⟨r, hr, rfl⟩ := mem_map.1 hq
    rw [relabel_of_mem hr]
    exact hlabel

/-- The labels of the rows, after they all got the same one. -/
theorem foldl_setAffinity [DecidableEq R] (label : ℤ) (rs : List R) (rows : R → VHandle) :
    rs.foldl (fun rows r => setAffinity rows r label) rows = relabel label rs rows := by
  induction rs generalizing rows with
  | nil =>
    funext r
    exact (relabel_of_not_mem not_mem_nil rows).symm
  | cons r rs ih =>
    rw [foldl_cons, ih]
    funext r'
    rw [relabel, relabel, setAffinity]
    rcases eq_or_ne r' r with rfl | hne
    · rw [update_self, if_pos (mem_cons_self ..)]
      split_ifs <;> rfl
    · rw [update_of_ne hne]
      simp [hne]

/-! ## What fits into the tables -/

/-- A sum of positive weights that are above `d` and fit into an `int`, up to a share and `d`, fits
into an `int` as well. With three cores this needs that the rest of the first share is `d`. -/
theorem sum_lt_of_le {n W k d : ℕ} {t : List ℕ} (hk : k + 1 < n) (hW : W < 2 ^ 32)
    (hint : ∀ w ∈ t, w < 2 ^ 31) (hsmall : ∀ w ∈ t, d < w) (hzero : k = 0 → d = 0)
    (hfirst : k = 1 → ∀ t' : List ℕ, t'.Sublist t → t'.sum ≤ W / n → t'.sum + d ≤ W / n)
    (hle : t.sum ≤ W / n + d) : t.sum < 2 ^ 31 := by
  rcases t with _ | ⟨a, _ | ⟨b, t⟩⟩
  · exact Nat.two_pow_pos 31
  · have := hint a (mem_singleton_self a)
    rwa [sum_singleton]
  · have ha := hsmall a (by simp)
    have hb := hsmall b (by simp)
    simp only [sum_cons] at hle ⊢
    have hshare : n * (W / n) ≤ W := Nat.mul_div_le W n
    obtain hn | hn | hn : n = 2 ∨ n = 3 ∨ 4 ≤ n := by omega
    · have := hzero (by omega)
      subst hn
      omega
    · subst hn
      obtain rfl | rfl : k = 0 ∨ k = 1 := by omega
      · have := hzero rfl
        omega
      · have hrest := hfirst rfl (b :: t) (sublist_cons_self a _)
        have hrest' := hfirst rfl (a :: t) ((sublist_cons_self b t).cons_cons a)
        rw [sum_cons] at hrest hrest'
        omega
    · have hmul : 4 * (W / n) ≤ n * (W / n) := Nat.mul_le_mul_right _ hn
      omega

/-! ## The loop -/

section

variable {cfg : Config} {rows : R → VHandle} {rs : List R} {S W n k d share : ℕ} {s : Splitting R}

/-- The sum of the weights of the rows that have a label. -/
def packed (rows : R → VHandle) (labelled : List (R × ℤ)) : ℕ :=
  (labelled.map fun q => weight rows q.1).sum

/-- The first `k` cores are packed, and `d` is what they leave of their shares. -/
structure PackedCores (share : ℕ) (rows : R → VHandle) (rs : List R) (k d : ℕ) (s : Splitting R) :
    Prop where
  delta_eq : s.delta = d
  shares : packed rows s.labelled + d = k * share
  perm : (s.labelled.map Prod.fst ++ s.knapsacks.reduceOption).Perm rs
  range : ∀ q ∈ s.labelled, 0 ≤ q.2 ∧ q.2 < k
  labels : ∀ q ∈ s.labelled, (s.rows q.1).contAffinity = q.2
  counters : ∀ r, (s.rows r).nrOndsplt = (rows r).nrOndsplt
  small : ∀ r ∈ s.knapsacks.reduceOption, 0 < weight rows r → d < weight rows r
  first : k = 1 → ∀ t : List ℕ, t.Sublist (weights rows s.knapsacks) → t.sum ≤ share →
    t.sum + d ≤ share

/-- The rows have non-negative weights with the sum `S`. -/
structure Contended (rows : R → VHandle) (rs : List R) (S : ℕ) : Prop where
  nodup : rs.Nodup
  weighted : ∀ r ∈ rs, 0 ≤ (rows r).nrOndsplt ∧ (rows r).nrOndsplt < 2 ^ 31
  sum_eq : (rs.map (weight rows)).sum = S

theorem Contended.weight_lt (h : Contended rows rs S) (hr : r ∈ rs) : weight rows r < 2 ^ 31 := by
  obtain ⟨hnonneg, hlt⟩ := h.weighted r hr
  rw [weight]
  omega

theorem weight_congr {rows' : R → VHandle} (h : ∀ r, (rows' r).nrOndsplt = (rows r).nrOndsplt) :
    weight rows' = weight rows := by
  funext r
  rw [weight, h, weight]

theorem Contended.congr {rows' : R → VHandle} (hrs : Contended rows rs S)
    (h : ∀ r, (rows' r).nrOndsplt = (rows r).nrOndsplt) : Contended rows' rs S := by
  refine ⟨hrs.nodup, fun r hr => ?_, ?_⟩
  · rw [h]
    exact hrs.weighted r hr
  · rw [weight_congr h]
    exact hrs.sum_eq

theorem packed_append (rows : R → VHandle) (l l' : List (R × ℤ)) :
    packed rows (l ++ l') = packed rows l + packed rows l' := by
  rw [packed, map_append, sum_append, packed, packed]

theorem packed_labelled (rows : R → VHandle) (taken : List R) (label : ℤ) :
    packed rows (taken.map fun r => (r, label)) = (taken.map (weight rows)).sum := by
  rw [packed, map_map]
  rfl

/-- The rows with a label and those that are left have the sum together. -/
theorem packed_add_left (hrs : Contended rows rs S)
    (hperm : (s.labelled.map Prod.fst ++ s.knapsacks.reduceOption).Perm rs) :
    packed rows s.labelled + (weights rows s.knapsacks).sum = S := by
  rw [← hrs.sum_eq, ← (hperm.map _).sum_eq, map_append, sum_append, map_map]
  rfl

/-- There is a row left with a weight, as long as the cores have not got all shares. -/
theorem exists_left (hrs : Contended rows rs S) (hk : k < n) (hn : n ≤ W) (hWS : W ≤ S)
    (hperm : (s.labelled.map Prod.fst ++ s.knapsacks.reduceOption).Perm rs)
    (hshares : packed rows s.labelled ≤ k * (W / n)) :
    ∃ r ∈ s.knapsacks.reduceOption, 0 < weight rows r := by
  by_contra hnone
  push Not at hnone
  have hleft : (weights rows s.knapsacks).sum = 0 := by
    rw [weights, sum_eq_zero_iff]
    intro w hw
    obtain ⟨r, hr, rfl⟩ := mem_map.1 hw
    exact Nat.le_zero.1 (hnone r hr)
  have hsum := packed_add_left hrs hperm
  have hshare : 0 < W / n := Nat.div_pos hn (by omega)
  have hlt : k * (W / n) < n * (W / n) := Nat.mul_lt_mul_of_pos_right hk hshare
  have hle : n * (W / n) ≤ W := Nat.mul_div_le W n
  omega

theorem PackedCores.weight_eq (h : PackedCores share rows rs k d s) :
    weight s.rows = weight rows := weight_congr h.counters

theorem PackedCores.weights_eq (h : PackedCores share rows rs k d s) :
    weights s.rows s.knapsacks = weights rows s.knapsacks := by
  rw [weights, h.weight_eq, weights]

theorem PackedCores.mem_left (h : PackedCores share rows rs k d s)
    (hr : r ∈ s.knapsacks.reduceOption) : r ∈ rs :=
  h.perm.subset (mem_append_right _ hr)

theorem PackedCores.weighted (h : PackedCores share rows rs k d s) (hrs : Contended rows rs S) :
    Weighted s.rows s.knapsacks := by
  intro r hr
  rw [h.counters]
  exact hrs.weighted r (h.mem_left (reduceOption_mem_iff.2 hr))

theorem sum_filter_pos (t : List ℕ) : (t.filter (0 < ·)).sum = t.sum := by
  induction t with
  | nil => rfl
  | cons w t ih =>
    rw [filter_cons, sum_cons, ← ih]
    split_ifs with hw
    · rw [sum_cons]
    · rw [decide_eq_true_iff] at hw
      omega

/-- The tables for the next core do not overflow. -/
theorem PackedCores.best_lt (h : PackedCores (W / n) rows rs k d s)
    (hrs : Contended rows rs S) (hk : k + 1 < n) (hW : W < 2 ^ 32) :
    best (weights s.rows s.knapsacks) (W / n + d) < 2 ^ 31 := by
  rw [h.weights_eq]
  obtain ⟨t, ht, hsum, hle⟩ := exists_sublist_best (weights rows s.knapsacks) (W / n + d)
  have hsub : (t.filter (0 < ·)).Sublist (weights rows s.knapsacks) := filter_sublist.trans ht
  have hrow : ∀ w ∈ t.filter (0 < ·), w < 2 ^ 31 ∧ d < w := by
    intro w hw
    have hpos := (mem_filter.1 hw).2
    obtain ⟨r, hr, rfl⟩ := mem_map.1 (hsub.subset hw)
    exact ⟨hrs.weight_lt (h.mem_left hr), h.small r hr (by simpa using hpos)⟩
  rw [← hsum, ← sum_filter_pos] at hle ⊢
  refine sum_lt_of_le hk hW (fun w hw => (hrow w hw).1) (fun w hw => (hrow w hw).2) ?_ ?_ hle
  · rintro rfl
    have := h.shares
    omega
  · exact fun hk t' ht' => h.first hk t' (ht'.trans hsub)

/-- What the cores leave of their shares fits into an `int`. -/
theorem lt_of_small (hrs : Contended rows rs S) (hk : k < n) (hn : n ≤ W) (hWS : W ≤ S)
    (hperm : (s.labelled.map Prod.fst ++ s.knapsacks.reduceOption).Perm rs)
    (hshares : packed rows s.labelled + d = k * (W / n))
    (hsmall : ∀ r ∈ s.knapsacks.reduceOption, 0 < weight rows r → d < weight rows r) :
    d < 2 ^ 31 := by
  obtain ⟨r, hr, hpos⟩ := exists_left hrs hk hn hWS hperm (by omega)
  have hmem : r ∈ rs := hperm.subset (mem_append_right _ hr)
  exact (hsmall r hr hpos).trans (hrs.weight_lt hmem)

variable [DecidableEq R]

theorem packCore_eq (hdelta : s.delta = d) (hshare : share < 2 ^ 32) (hd : d < 2 ^ 31) (core : ℕ) :
    packCore share s core = let p := binPack s.rows s.knapsacks core (share + d + 1)
      { rows := p.rows
        knapsacks := p.knapsacks
        delta := signed 32 (unsigned 64 ((share : ℤ) + d - p.cap))
        labelled := s.labelled ++ p.taken.map fun r => (r, (core : ℤ)) } := by
  have hlimit : unsigned 64 ((share : ℤ) + 1 + s.delta) = share + d + 1 := by
    have hcast : (share : ℤ) + 1 + s.delta = ((share + d + 1 : ℕ) : ℤ) := by
      rw [hdelta]
      push_cast
      ring
    rw [hcast, unsigned_natCast]
    exact Nat.mod_eq_of_lt (by omega)
  rw [packCore, hlimit, hdelta]

theorem PackedCores.packCore (h : PackedCores (W / n) rows rs k d s)
    (hrs : Contended rows rs S) (hk : k + 1 < n) (hn : n ≤ W) (hWS : W ≤ S) (hW : W < 2 ^ 32)
    (h128 : k < 128) :
    ∃ d', PackedCores (W / n) rows rs (k + 1) d' (packCore (W / n) s k) := by
  have hd : d < 2 ^ 31 := lt_of_small hrs (by omega) hn hWS h.perm h.shares h.small
  have hshare : W / n < 2 ^ 32 := (Nat.div_le_self W n).trans_lt hW
  rw [packCore_eq h.delta_eq hshare hd]
  have hopt : Optimal s.rows s.knapsacks k (W / n + d + 1)
      (binPack s.rows s.knapsacks k (W / n + d + 1)) :=
    optimal_of_best_lt _ (Nat.le_add_left 1 _) (h.weighted hrs) (h.best_lt hrs hk hW)
  generalize binPack s.rows s.knapsacks k (W / n + d + 1) = p at hopt ⊢
  dsimp only
  have hcap : p.cap ≤ W / n + d := hopt.greatest.1.choose_spec.2.2
  have htaken : (p.taken.map (weight rows)).sum = p.cap := by rw [← h.weight_eq, hopt.sum_taken]
  have hleft := hopt.takes.perm
  have hperm : ((s.labelled ++ p.taken.map fun r => (r, (k : ℤ))).map Prod.fst ++
      p.knapsacks.reduceOption).Perm rs := by
    rw [map_append, map_map, Function.comp_def, map_id', append_assoc]
    exact (hleft.append_left _).trans h.perm
  have hshares : packed rows (s.labelled ++ p.taken.map fun r => (r, (k : ℤ))) +
      (W / n + d - p.cap) = (k + 1) * (W / n) := by
    have := h.shares
    rw [packed_append, packed_labelled, htaken, Nat.succ_mul]
    omega
  have hsmall : ∀ r ∈ p.knapsacks.reduceOption, 0 < weight rows r →
      W / n + d - p.cap < weight rows r := by
    rw [← h.weight_eq]
    exact fun r hr hpos => hopt.lt_weight hr hpos
  have hd' : W / n + d - p.cap < 2 ^ 31 :=
    lt_of_small (s := ⟨p.rows, p.knapsacks, 0, _⟩) hrs hk hn hWS hperm hshares hsmall
  refine ⟨W / n + d - p.cap, ⟨?_, hshares, hperm, ?_, ?_, fun r => ?_, hsmall, ?_⟩⟩
  · have hcast : ((W / n : ℕ) : ℤ) + d - p.cap = ((W / n + d - p.cap : ℕ) : ℤ) := by
      rw [Nat.cast_sub hcap, Nat.cast_add]
    dsimp only
    rw [hcast, unsigned_natCast, Nat.mod_eq_of_lt (hd'.trans (by norm_num))]
    exact signed_natCast (by omega)
  · intro q hq
    push_cast
    rcases mem_append.1 hq with hq | hq
    · have := h.range q hq
      omega
    · obtain ⟨r, -, rfl⟩ := mem_map.1 hq
      dsimp only
      omega
  · dsimp only
    rw [hopt.rows_eq]
    have hdisj := disjoint_of_nodup_append (h.perm.nodup_iff.2 hrs.nodup)
    exact labels_relabel h.labels (disjoint_of_subset_right
      hopt.takes.sublist.2.subset hdisj) (signed_natCast (by omega))
  · dsimp only
    rw [hopt.rows_eq, nrOndsplt_relabel, h.counters]
  · intro hk1 t ht hle
    obtain rfl : k = 0 := by omega
    have hd0 : d = 0 := by
      have := h.shares
      omega
    have hmem : t.sum ∈ sums (weights s.rows s.knapsacks) (W / n + d + 1 - 1) := by
      rw [h.weights_eq]
      exact ⟨t, ht.trans hopt.takes.weights_sublist, rfl, by omega⟩
    have hbest := hopt.greatest.2 hmem
    omega

theorem packCores_succ (cfg : Config) (W : ℕ) (rows : R → VHandle) (rs : List R) (k : ℕ) :
    packCores cfg W rows rs (k + 1) =
      packCore (W / cfg.nrThreads) (packCores cfg W rows rs k) k := by
  rw [packCores, range_succ, foldl_append, packCores]
  rfl

section

variable (hrs : Contended rows rs S) (hn : cfg.nrThreads ≤ W) (hWS : W ≤ S) (hW : W < 2 ^ 32)
  (hcores : cfg.nrThreads ≤ 128)

include hrs hn hWS hW hcores

theorem packedCores_packCores (hk : k < cfg.nrThreads) :
    ∃ d, PackedCores (W / cfg.nrThreads) rows rs k d (packCores cfg W rows rs k) := by
  induction k with
  | zero =>
    refine ⟨0, ⟨rfl, ?_, ?_, ?_, ?_, fun _ => rfl, fun _ _ hpos => hpos, ?_⟩⟩
    · rw [Nat.zero_mul]
      rfl
    · simp [packCores, List.reduceOption]
    · exact fun q hq => absurd hq not_mem_nil
    · exact fun q hq => absurd hq not_mem_nil
    · exact fun h => absurd h (by decide)
  | succ k ih =>
    obtain ⟨d, hd⟩ := ih (by omega)
    rw [packCores_succ]
    exact hd.packCore hrs hk hn hWS hW (by omega)

/-! ## The prefixes of the cores -/

/-- The labels up to `k` are given by the first `k + 1` cores. -/
theorem filter_labelled_packCores {j : ℕ} (hkj : k < j) (hj : j < cfg.nrThreads) :
    (packCores cfg W rows rs j).labelled.filter (fun q => q.2 ≤ (k : ℤ)) =
      (packCores cfg W rows rs (k + 1)).labelled := by
  induction j, hkj using Nat.le_induction with
  | base =>
    obtain ⟨d, hd⟩ := packedCores_packCores hrs hn hWS hW hcores hj
    refine filter_eq_self.2 fun q hq => ?_
    have := (hd.range q hq).2
    exact decide_eq_true (by push_cast at this; omega)
  | succ j hkj ih =>
    rw [packCores_succ, packCore, filter_append, ih (by omega), filter_eq_nil_iff.2,
      append_nil]
    intro q hq
    obtain ⟨r, -, rfl⟩ := mem_map.1 hq
    simp only [decide_eq_true_eq]
    omega

end

/-- The rows have one label each, and no prefix of the cores has more than its shares. -/
structure BalancedSplit (cfg : Config) (S : ℕ) (rows : R → VHandle) (rs : List R)
    (p : Splitting R) : Prop where
  once : (p.labelled.map Prod.fst).Perm rs
  range : ∀ q ∈ p.labelled, 0 ≤ q.2 ∧ q.2 < cfg.nrThreads
  labels : ∀ q ∈ p.labelled, (p.rows q.1).contAffinity = q.2
  shares : ∀ k : ℕ, k + 1 < cfg.nrThreads →
    ((rs.filter fun r => (p.rows r).contAffinity ≤ k).map (weight rows)).sum ≤
      (k + 1) * (S / cfg.nrThreads)

omit [DecidableEq R] in
/-- The weight of the rows up to a label. -/
theorem sum_filter_labels {p : Splitting R} (honce : (p.labelled.map Prod.fst).Perm rs)
    (hlabels : ∀ q ∈ p.labelled, (p.rows q.1).contAffinity = q.2) (k : ℕ) :
    ((rs.filter fun r => (p.rows r).contAffinity ≤ k).map (weight rows)).sum =
      packed rows (p.labelled.filter fun q => q.2 ≤ k) := by
  rw [← ((honce.filter _).map _).sum_eq, filter_map, map_map, packed]
  congr 2
  refine filter_congr fun q hq => ?_
  rw [Function.comp_apply, hlabels q hq]

theorem balancedSplit_packRows (hrs : Contended rows rs S) (hpos : 1 ≤ cfg.nrThreads)
    (hn : cfg.nrThreads ≤ W) (hWS : W ≤ S) (hW : W < 2 ^ 32) (hcores : cfg.nrThreads ≤ 128) :
    BalancedSplit cfg S rows rs (packRows cfg W rows rs) := by
  obtain ⟨d, hd⟩ := packedCores_packCores (k := cfg.nrThreads - 1) hrs hn hWS hW hcores (by omega)
  have honce : ((packRows cfg W rows rs).labelled.map Prod.fst).Perm rs := by
    rw [packRows, packLeftOver, map_append, map_map, Function.comp_def, map_id']
    exact hd.perm
  have hlabel : signed 8 ((cfg.nrThreads : ℤ) - 1) = (cfg.nrThreads : ℤ) - 1 :=
    signed_eq (by omega) (by omega)
  have hlabels : ∀ q ∈ (packRows cfg W rows rs).labelled,
      ((packRows cfg W rows rs).rows q.1).contAffinity = q.2 := by
    rw [packRows, packLeftOver, foldl_setAffinity]
    exact labels_relabel hd.labels
      (disjoint_of_nodup_append (hd.perm.nodup_iff.2 hrs.nodup)) hlabel
  refine ⟨honce, fun q hq => ?_, hlabels, fun k hk => ?_⟩
  · rcases mem_append.1 hq with hq | hq
    · have := hd.range q hq
      omega
    · obtain ⟨r, -, rfl⟩ := mem_map.1 hq
      dsimp only
      omega
  · -- the rows that are left over have the label of the last core
    have hleft : ∀ rs' : List R,
        (rs'.map fun r => (r, (cfg.nrThreads : ℤ) - 1)).filter (fun q => q.2 ≤ (k : ℤ)) = [] := by
      intro rs'
      rw [filter_eq_nil_iff]
      intro q hq
      obtain ⟨r, -, rfl⟩ := mem_map.1 hq
      simp only [decide_eq_true_eq]
      omega
    obtain ⟨d', hd'⟩ := packedCores_packCores (k := k + 1) hrs hn hWS hW hcores hk
    rw [sum_filter_labels honce hlabels, packRows, packLeftOver, filter_append, hleft,
      append_nil, filter_labelled_packCores hrs hn hWS hW hcores (by omega) (by omega)]
    have hshares := hd'.shares
    have hle : (k + 1) * (W / cfg.nrThreads) ≤ (k + 1) * (S / cfg.nrThreads) :=
      Nat.mul_le_mul_left _ (Nat.div_le_div_right hWS)
    omega

end

/-- **Packing is balanced.** With at most 128 cores, `Reset` gives one label to every selected row,
`delta` is never negative, and the cores up to `k` have at most their shares together, if and only
if the sum of the weights has at least as much as there are cores in an `unsigned int`. -/
theorem packRows_balanced [DecidableEq R] (cfg : Config) (m : Manager R) (rows : R → VHandle)
    (S : ℕ) (hon : cfg.onDemandSplitting = true) (hbin : cfg.binpackSplitting = true)
    (hrs : Contended rows (selected cfg rows (m.visited cfg)) S) (hpos : 1 ≤ cfg.nrThreads)
    (hn : cfg.nrThreads ≤ S) (hcores : cfg.nrThreads ≤ 128)
    (t : ResetResult R) (ht : reset cfg m rows = .ok t) :
    let rs := selected cfg rows (m.visited cfg)
    t.rows = t.splitting.rows ∧
      (BalancedSplit cfg S rows rs t.splitting ∧
        (∀ k < cfg.nrThreads, 0 ≤ (packCores cfg t.estSplit t.assigned rs k).delta) ↔
      cfg.nrThreads ≤ S % 2 ^ 32) := by
  obtain ⟨m', -, rfl⟩ := map_ok ht
  dsimp only
  rw [selected_clearPos]
  generalize selected cfg rows (m.visited cfg) = rs at *
  have hcounters := nrOndsplt_clearPos (m.visited cfg) rows
  generalize clearPos (m.visited cfg) rows = rows₁ at *
  have hrs₁ : Contended rows₁ rs S := hrs.congr hcounters
  refine ⟨rfl, ?_⟩
  rw [splitSum_eq hon fun r hr => (hrs₁.weighted r hr).1, hrs₁.sum_eq]
  by_cases hwrap : S % 2 ^ 32 < cfg.nrThreads
  · -- nothing is packed, although there are rows
    rw [if_pos hwrap, if_neg (by simp)]
    refine iff_of_false (fun h => ?_) (by omega)
    have hnil : rs = [] := h.1.once.symm.eq_nil
    have hsum := hrs.sum_eq
    rw [hnil] at hsum
    exact absurd hsum (by simp; omega)
  · have hW : S % 2 ^ 32 < 2 ^ 32 := Nat.mod_lt _ (Nat.two_pow_pos 32)
    have hWS : S % 2 ^ 32 ≤ S := Nat.mod_le _ _
    rw [if_neg hwrap]
    generalize S % 2 ^ 32 = W at *
    rw [if_neg (show ¬W = 0 by omega), if_pos (by simp [hbin]; omega)]
    have hassigned : ∀ r, ((assignLoop cfg W 0 rows₁ rs).1 r).nrOndsplt = (rows r).nrOndsplt :=
      fun r => (nrOndsplt_assignLoop cfg W 0 rows₁ rs r).trans (hcounters r)
    have hrs₂ : Contended (assignLoop cfg W 0 rows₁ rs).1 rs S := hrs.congr hassigned
    have hbalanced := balancedSplit_packRows hrs₂ hpos (by omega) hWS hW hcores
    refine iff_of_true ⟨⟨hbalanced.once, hbalanced.range, hbalanced.labels, fun k hk => ?_⟩,
      fun k hk => ?_⟩ (by omega)
    · rw [← weight_congr hassigned]
      exact hbalanced.shares k hk
    · obtain ⟨d, hd⟩ := packedCores_packCores hrs₂ (by omega) hWS hW hcores hk
      rw [hd.delta_eq]
      exact Int.natCast_nonneg d

def packOnDemand : Config := { splitOnDemand with binpackSplitting := true }

/-- Nine rows on eight cores: the first core packs 3 and leaves nothing, and so on. -/
theorem packRows_balanced_nineRows : ∃ t,
    reset packOnDemand (holding (List.range 9)) (contended [3, 5, 2, 4, 1, 3, 3, 2, 1]) = .ok t ∧
      BalancedSplit packOnDemand 24 (contended [3, 5, 2, 4, 1, 3, 3, 2, 1]) (selected packOnDemand
          (contended [3, 5, 2, 4, 1, 3, 3, 2, 1]) ((holding (List.range 9)).visited packOnDemand))
        t.splitting := by
  have hselected : selected packOnDemand (contended [3, 5, 2, 4, 1, 3, 3, 2, 1])
      ((holding (List.range 9)).visited packOnDemand) = List.range 9 := by decide
  have hok : (reset packOnDemand (holding (List.range 9))
      (contended [3, 5, 2, 4, 1, 3, 3, 2, 1])).toOption.isSome = true := by decide
  cases ht : reset packOnDemand (holding (List.range 9))
      (contended [3, 5, 2, 4, 1, 3, 3, 2, 1]) with
  | error e => simp [ht, Except.toOption] at hok
  | ok t =>
    refine ⟨t, rfl, ((packRows_balanced packOnDemand (holding (List.range 9))
      (contended [3, 5, 2, 4, 1, 3, 3, 2, 1]) 24 rfl rfl ?_ (by decide) (by decide) (by decide)
      t ht).2.2 (by decide)).1⟩
    rw [hselected]
    exact ⟨nodup_range, by decide, by decide⟩

/-- The weights `2 ^ 31 - 1`, `2 ^ 31 - 1` and `2` have the sum `2 ^ 32`, which is 0 in an
`unsigned int`: no row gets a label. -/
theorem packRows_sum_wraps :
    ((reset packOnDemand (holding [0, 1, 2]) (contended [2 ^ 31 - 1, 2 ^ 31 - 1, 2])).map fun t =>
      (t.estSplit, [0, 1, 2].map fun r => (t.rows r).contAffinity)).toOption =
        some (0, [-1, -1, -1]) ∧
      Contended (contended [2 ^ 31 - 1, 2 ^ 31 - 1, 2]) [0, 1, 2] (2 ^ 32) := by
  refine ⟨by decide, by decide, ?_, by decide⟩
  intro r hr
  fin_cases hr <;> decide

end Felis.Contention
