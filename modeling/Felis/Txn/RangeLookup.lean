import Felis.Sql.KeyOrder

/-!
# Range lookups

For the first key of a range, `BaseTxnIndexOpLookup` runs an iterator from the start of the range to
its end and stores the rows one behind the other in an array of `kMaxRangeScanKeys` places. The
number of rows is not compared with the size of the array: a range with more rows is written past
its end (`range_overflows`). Ranges that fit, of keys that a view can tell, are exact
(`range_lookup`).
-/

namespace Felis.Txn

open Sql Util List

variable {Row : Type}

def kMaxRangeScanKeys : ℕ := 32

/-- The loop over the iterator, from a position on, with the array of the result. A write outside
of the array has no result. -/
def scanRows (mem : ByteMemory) (curKey : List UInt8 × Row → VarStrView) (rangeEnd : VarStrView) :
    List (List UInt8 × Row) → ℕ → List (Option Row) → Option (List (Option Row))
  | [], _, result => some result
  | e :: it, i, result =>
    -- `IsValid`
    if rangeEnd.lt mem (curKey e) then some result
    else if i < result.length then
      scanRows mem curKey rangeEnd it (i + 1) (result.set i (some e.2))
    else none

/-- The entries of a table: the keys and the rows. -/
abbrev Table (Row : Type) := Index (Prod.fst : List UInt8 × Row → List UInt8)

/-- `BaseTxnIndexOpLookup` for a range. -/
def rangeLookup (table : Table Row) (mem : ByteMemory) (curKey : List UInt8 × Row → VarStrView)
    (rangeStart rangeEnd : VarStrView) : Option (List (Option Row)) :=
  scanRows mem curKey rangeEnd (table.forward (rangeStart.str mem)) 0
    (replicate kMaxRangeScanKeys none)

def rowsBetween (table : Table Row) (start stop : List UInt8) : List Row :=
  (table.entries.filter fun e => !decide (e.1 < start) && !decide (stop < e.1)).map Prod.snd

/-- The array with its first places filled. -/
def filled (rows : List Row) : List (Option Row) :=
  rows.map some ++ replicate (kMaxRangeScanKeys - rows.length) none

/-- The array that the rows of a range make, if there is room for them. -/
def fillRows (rows : List Row) : Option (List (Option Row)) :=
  if rows.length ≤ kMaxRangeScanKeys then some (filled rows) else none

theorem length_filled {rows : List Row} (h : rows.length ≤ kMaxRangeScanKeys) :
    (filled rows).length = kMaxRangeScanKeys := by
  rw [filled, length_append, length_map, length_replicate]
  omega

theorem set_filled {rows : List Row} (h : rows.length < kMaxRangeScanKeys) (row : Row) :
    (filled rows).set rows.length (some row) = filled (rows ++ [row]) := by
  obtain ⟨k, hk⟩ : ∃ k, kMaxRangeScanKeys - rows.length = k + 1 :=
    ⟨kMaxRangeScanKeys - rows.length - 1, by omega⟩
  have hk' : kMaxRangeScanKeys - (rows ++ [row]).length = k := by
    rw [length_append, length_singleton]
    omega
  rw [filled, filled, hk, hk', set_append_right _ _ (by rw [length_map]), length_map, Nat.sub_self,
    replicate_succ, set_cons_zero, map_append, append_assoc]
  rfl

/-- The loop fills the array with the rows up to the end of the range. -/
theorem scanRows_eq (mem : ByteMemory) (curKey : List UInt8 × Row → VarStrView) (stop : VarStrView)
    (it : List (List UInt8 × Row)) (rows : List Row) (h : rows.length ≤ kMaxRangeScanKeys) :
    scanRows mem curKey stop it rows.length (filled rows) =
      fillRows (rows ++ (it.takeWhile fun e => !stop.lt mem (curKey e)).map Prod.snd) := by
  induction it generalizing rows with
  | nil =>
    rw [scanRows, takeWhile_nil, map_nil, append_nil, fillRows, if_pos h]
  | cons e it ih =>
    rw [scanRows, length_filled h]
    by_cases hend : stop.lt mem (curKey e) = true
    · rw [if_pos hend, takeWhile_cons_of_neg (by simp [hend]), map_nil, append_nil, fillRows,
        if_pos h]
    · rw [if_neg hend, takeWhile_cons_of_pos (by simp [hend]), map_cons]
      split_ifs with hlt
      · have hrows : (rows ++ [e.2]).length = rows.length + 1 := by simp
        rw [set_filled hlt, ← hrows, ih _ (by omega), append_assoc]
        rfl
      · rw [fillRows, if_neg (by rw [length_append, length_cons]; omega)]

/-- **Range lookups are exact.** When the keys of a table have one length, which is at most 255, the
result has the rows of the range in the order of their keys, followed by null pointers, if there are
at most `kMaxRangeScanKeys`. If there are more, the lookup writes outside of the array. -/
theorem range_lookup (table : Table Row) (n : ℕ) (hlen : ∀ e ∈ table.entries, e.1.length = n)
    (h255 : n ≤ 255) (start stop : List UInt8) (hstart : start.length = n)
    (hstop : stop.length = n) (mem : ByteMemory) (curKey : List UInt8 × Row → VarStrView)
    (hcur : ∀ e ∈ table.entries, (curKey e).Shows mem e.1) (v w : VarStrView)
    (hv : v.Shows mem start) (hw : w.Shows mem stop) :
    rangeLookup table mem curKey v w =
      if (rowsBetween table start stop).length ≤ kMaxRangeScanKeys then
        some ((rowsBetween table start stop).map some ++
          replicate (kMaxRangeScanKeys - (rowsBetween table start stop).length) none)
      else none := by
  have hfound := table.search_eq_filter hcur hlen h255 hstart hstop hv hw
  have hscan := scanRows_eq mem curKey w (table.forward (v.str mem)) [] (Nat.zero_le _)
  rw [nil_append] at hscan
  exact hscan.trans (congrArg (fun found => fillRows (map Prod.snd found)) hfound)

/-- A row for each of the first 100 bytes. -/
def byteTable : Table ℕ where
  entries := (List.range 100).map fun i => ([.ofNat i], i)
  sorted := by decide +kernel
  forward s := ((List.range 100).map fun i => ([.ofNat i], i)).filter fun e => !decide (e.1 < s)
  forward_eq _ := rfl
  backward s :=
    (((List.range 100).map fun i => ([.ofNat i], i)).filter fun e => !decide (s < e.1)).reverse
  backward_eq _ := rfl

/-- Every byte is at its own address. -/
def byteMemory : ByteMemory := fun p => .ofNat p.toNat

def byteView (i : ℕ) : VarStrView := .new 1 (BitVec.ofNat 64 i)

theorem shows_byteView {i : ℕ} (hi : i < 100) : (byteView i).Shows byteMemory [.ofNat i] := by
  have hmod : i % 2 ^ 64 = i := Nat.mod_eq_of_lt (by omega)
  refine ⟨BitVec.ofNat 64 i, ?_, rfl, ?_⟩
  · rw [BitVec.toNat_ofNat, hmod]
    omega
  · rw [length_singleton, strAt, strAt, byteMemory, BitVec.toNat_ofNat, hmod]

theorem range_lookup_byteTable :
    rangeLookup byteTable byteMemory (fun e => byteView e.2) (byteView 7) (byteView 9) =
      some ([some 7, some 8, some 9] ++ replicate 29 none) := by
  have hrows : rowsBetween byteTable [7] [9] = [7, 8, 9] := by decide +kernel
  have h := range_lookup byteTable 1 (by decide +kernel) (by decide) [7] [9] rfl rfl byteMemory
    (fun e => byteView e.2) (fun e he => by
      obtain ⟨i, hi, rfl⟩ := mem_map.1 he
      exact shows_byteView (mem_range.1 hi))
    _ _ (shows_byteView (by decide)) (shows_byteView (by decide))
  rw [hrows] at h
  exact h

/-- A range with 33 rows is written past the end of the array. -/
theorem range_overflows : (rowsBetween byteTable [0] [32]).length = 33 ∧
    rangeLookup byteTable byteMemory (fun e => byteView e.2) (byteView 0) (byteView 32) = none := by
  decide +kernel

end Felis.Txn
