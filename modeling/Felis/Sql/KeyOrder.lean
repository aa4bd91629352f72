import Felis.Foundations.Collections
import Felis.Sql.Keys
import Felis.Util.VarStrView

/-!
# The order of encoded keys

Keys are compared in three ways: the tree of an index compares their bytes, `VarStrView::operator<`
compares their lengths and then their bytes, and what a range means is a matter of the fields. For
keys of `uint16_t`, `uint32_t` and `Char<N>` fields the three agree as long as an encoding fits into
the 255 bytes that a view can tell (`key_order`), so that a range of an index is a range of keys.

The tree itself is not part of the program: `Index` says what its iterators go through.
-/

namespace Felis.Sql

open Bytes Serializer Util

/-! ## Fields -/

/-- The types whose encodings are made for comparison. -/
def KeyType.Comparable : KeyType → Prop
  | .uint16 | .uint32 | .char _ => True
  | .fixed _ | .inlineStr _ _ => False

/-- The order of a field: integers as numbers, strings as unsigned bytes. -/
def KeyType.Lt : ∀ t : KeyType, t.Val → t.Val → Prop
  | .uint16, (x : BitVec 16), (y : BitVec 16) => x.toNat < y.toNat
  | .uint32, (x : BitVec 32), (y : BitVec 32) => x.toNat < y.toNat
  | .fixed _, (x : BitVec _), (y : BitVec _) => x.toNat < y.toNat
  | .char _, (x : Image _), (y : Image _) => x.bytes < y.bytes
  | .inlineStr _ _, (x : Text _ _), (y : Text _ _) => x.bytes < y.bytes

/-- Keys are compared field by field. -/
def KeyLt {ts : List KeyType} (a b : Key ts) : Prop := FieldsLt KeyType.Lt ts a b

/-- A key lies between two others, which belong to the range. -/
def Between {ts : List KeyType} (start stop key : Key ts) : Prop :=
  (KeyLt start key ∨ start = key) ∧ (KeyLt key stop ∨ key = stop)

/-- Integers in big-endian order are compared as numbers. -/
theorem ordered_bigEndian {n : ℕ} {s : Serializer (BitVec (8 * n))}
    (h : s.encodeTo = fun x => Bytes.word (byteSwap x)) :
    s.Ordered fun x y => x.toNat < y.toNat := by
  have hbytes : ∀ x, s.encodeTo x = (Bytes.le n x.toNat).reverse := by
    intro x
    rw [h]
    exact word_byteSwap x
  have hlt : ∀ x : BitVec (8 * n), x.toNat < 256 ^ n := by
    intro x
    have := x.isLt
    rwa [pow_mul] at this
  refine ⟨fun x y => ?_, fun x y hxy => ?_, fun x y => ?_⟩
  · rw [hbytes, hbytes, List.length_reverse, List.length_reverse, length_le, length_le]
  · rw [hbytes, hbytes, List.reverse_inj] at hxy
    exact word_injective hxy
  · rw [hbytes, hbytes]
    exact reverse_le_lt_iff (hlt x) (hlt y)

theorem ordered_image (n : ℕ) : (image n).Ordered fun x y => x.bytes < y.bytes where
  length := fun x y => x.length_eq.trans y.length_eq.symm
  injective := fun _ _ h => Image.ext h
  lt_iff := fun _ _ => Iff.rfl

theorem ordered_keySerializer {t : KeyType} (h : t.Comparable) :
    (keySerializer t).Ordered t.Lt := by
  cases t with
  | uint16 => exact ordered_bigEndian rfl
  | uint32 => exact ordered_bigEndian rfl
  | char n => exact ordered_image n
  | fixed bytes => exact h.elim
  | inlineStr w n => exact h.elim

section

variable {ts : List KeyType}

theorem ordered_keys (hts : ∀ t ∈ ts, t.Comparable) : (keys ts).Ordered KeyLt :=
  ordered_fields fun t ht => ordered_keySerializer (hts t ht)

/-! ## Ranges of an index -/

/-- An index: its entries in the order of their keys, and what the iterators that `find_iterator`
returns go through, those from a key on and those from a key backwards. -/
structure Index {E : Type} (key : E → List UInt8) where
  entries : List E
  sorted : entries.Pairwise fun e e' => key e < key e'
  forward : List UInt8 → List E
  forward_eq : ∀ s, forward s = entries.filter fun e => !decide (key e < s)
  backward : List UInt8 → List E
  backward_eq : ∀ s, backward s = (entries.filter fun e => !decide (s < key e)).reverse

namespace Index

variable {E : Type} {key : E → List UInt8}

/-- What a loop over `IndexSearchIterator(start, end)` visits, where `curKey` are the views that
`Adapt` makes: `IsValid` ends the loop at the first key above `end`. -/
def search (ix : Index key) (mem : ByteMemory) (curKey : E → VarStrView) (start stop : VarStrView) :
    List E :=
  (ix.forward (start.str mem)).takeWhile fun e => !stop.lt mem (curKey e)

/-- What a loop over `IndexReverseIterator(start, end)` visits. -/
def searchReverse (ix : Index key) (mem : ByteMemory) (curKey : E → VarStrView)
    (start stop : VarStrView) : List E :=
  (ix.backward (start.str mem)).takeWhile fun e => !(curKey e).lt mem stop

section

variable {ix : Index key} {mem : ByteMemory} {curKey : E → VarStrView} {n : ℕ}
  {start stop : List UInt8} {v w : VarStrView}
  (hcur : ∀ e ∈ ix.entries, (curKey e).Shows mem (key e))
  (hlen : ∀ e ∈ ix.entries, (key e).length = n) (h255 : n ≤ 255)
  (hstart : start.length = n) (hstop : stop.length = n) (hv : v.Shows mem start)
  (hw : w.Shows mem stop)

include hcur hlen h255 hstart hstop hv hw

/-- The loop over a range finds the entries from `start` to `stop`. -/
theorem search_eq_filter : ix.search mem curKey v w =
    ix.entries.filter fun e => !decide (key e < start) && !decide (stop < key e) := by
  have hlt : ∀ e ∈ ix.entries, (!w.lt mem (curKey e)) = !decide (stop < key e) := by
    intro e he
    rw [hw.lt_eq (hcur e he) (hstop.trans (hlen e he).symm) (hstop.trans_le h255)]
  rw [search, hv.str_eq (hstart.trans_le h255), ix.forward_eq, Scans.takeWhile_eq_filter,
    List.filter_filter]
  · exact List.filter_congr fun e he => by rw [hlt e he, Bool.and_comm]
  · refine (ix.sorted.sublist List.filter_sublist).imp_of_mem fun {e e'} he he' hlt' hgood => ?_
    rw [hlt e' (List.mem_of_mem_filter he')] at hgood
    rw [hlt e (List.mem_of_mem_filter he)]
    simp only [Bool.not_eq_true', decide_eq_false_iff_not] at hgood ⊢
    exact fun h => hgood (List.lt_trans h hlt')

/-- The loop backwards finds the same entries in the opposite order. -/
theorem searchReverse_eq_filter : ix.searchReverse mem curKey w v =
    (ix.entries.filter fun e => !decide (key e < start) && !decide (stop < key e)).reverse := by
  have hlt : ∀ e ∈ ix.entries, (!(curKey e).lt mem v) = !decide (key e < start) := by
    intro e he
    rw [(hcur e he).lt_eq hv ((hlen e he).trans hstart.symm) ((hlen e he).trans_le h255)]
  rw [searchReverse, hw.str_eq (hstop.trans_le h255), ix.backward_eq, Scans.takeWhile_eq_filter,
    List.filter_reverse, List.filter_filter]
  · exact congrArg _ (List.filter_congr fun e he => by rw [hlt e he])
  · refine (List.pairwise_reverse.2 (ix.sorted.sublist List.filter_sublist)).imp_of_mem
      fun {e e'} he he' hlt' hgood => ?_
    rw [hlt e' (List.mem_of_mem_filter (List.mem_reverse.1 he'))] at hgood
    rw [hlt e (List.mem_of_mem_filter (List.mem_reverse.1 he))]
    simp only [Bool.not_eq_true', decide_eq_false_iff_not] at hgood ⊢
    exact fun h => hgood (List.lt_trans hlt' h)

end

end Index

/-- The three orders on the keys of a schema are one. -/
def OrdersAgree (a b : Key ts) : Prop :=
  ((keys ts).encodeTo a < (keys ts).encodeTo b ↔ KeyLt a b) ∧
    ∀ (mem : ByteMemory) (v w : VarStrView), v.Shows mem ((keys ts).encodeTo a) →
      w.Shows mem ((keys ts).encodeTo b) → (v.lt mem w = true ↔ KeyLt a b)

/-- The loops over the range from `start` to `stop` find the keys between them and no others. -/
def FindsRange (table : Index (keys ts).encodeTo) (start stop : Key ts) : Prop :=
  ∃ found : List (Key ts), found.Sublist table.entries ∧
    (∀ key, key ∈ found ↔ key ∈ table.entries ∧ Between start stop key) ∧
    ∀ (mem : ByteMemory) (curKey : Key ts → VarStrView) (v w : VarStrView),
      (∀ key ∈ table.entries, (curKey key).Shows mem ((keys ts).encodeTo key)) →
      v.Shows mem ((keys ts).encodeTo start) → w.Shows mem ((keys ts).encodeTo stop) →
      table.search mem curKey v w = found ∧ table.searchReverse mem curKey w v = found.reverse

theorem ordersAgree (hts : ∀ t ∈ ts, t.Comparable)
    (h255 : ∀ key : Key ts, (keys ts).encodeSize key ≤ 255) (a b : Key ts) : OrdersAgree a b := by
  have hord := ordered_keys hts
  refine ⟨hord.lt_iff a b, fun mem v w hv hw => ?_⟩
  rw [hv.lt_eq hw (hord.length a b) ((length_keys ts a).trans_le (h255 a)), decide_eq_true_eq]
  exact hord.lt_iff a b

theorem findsRange (hts : ∀ t ∈ ts, t.Comparable)
    (h255 : ∀ key : Key ts, (keys ts).encodeSize key ≤ 255) (table : Index (keys ts).encodeTo)
    (start stop : Key ts) : FindsRange table start stop := by
  have hord := ordered_keys hts
  have hlen : ∀ key ∈ table.entries,
      ((keys ts).encodeTo key).length = ((keys ts).encodeTo start).length :=
    fun key _ => hord.length key start
  have hle : ((keys ts).encodeTo start).length ≤ 255 := (length_keys ts start).trans_le (h255 start)
  have hstop := hord.length stop start
  refine ⟨table.entries.filter fun key =>
    !decide ((keys ts).encodeTo key < (keys ts).encodeTo start) &&
      !decide ((keys ts).encodeTo stop < (keys ts).encodeTo key), List.filter_sublist,
    fun key => ?_, fun mem curKey v w hcur hv hw =>
      ⟨table.search_eq_filter hcur hlen hle rfl hstop hv hw,
        table.searchReverse_eq_filter hcur hlen hle rfl hstop hv hw⟩⟩
  simp only [List.mem_filter, Bool.and_eq_true, Bool.not_eq_true', decide_eq_false_iff_not,
    hord.not_lt_iff]
  rfl

/-- **Key encoding preserves order.** For keys of `uint16_t`, `uint32_t` and `Char<N>` fields that
take at most 255 bytes, comparing bytes, comparing views and comparing fields is the same, and a
range of an index has exactly the keys that lie between its ends. -/
theorem key_order (ts : List KeyType) (hts : ∀ t ∈ ts, t.Comparable)
    (h255 : ∀ key : Key ts, (keys ts).encodeSize key ≤ 255) :
    (∀ a b : Key ts, OrdersAgree a b) ∧
      ∀ (table : Index (keys ts).encodeTo) (start stop : Key ts), FindsRange table start stop :=
  ⟨ordersAgree hts h255, findsRange hts h255⟩

def districtTypes : List KeyType := [.uint32, .uint16, .char 2]

theorem key_order_districtTypes :
    (∀ a b : Key districtTypes, OrdersAgree a b) ∧
      ∀ (table : Index (keys districtTypes).encodeTo) (start stop : Key districtTypes),
        FindsRange table start stop :=
  key_order districtTypes (by simp [districtTypes, KeyType.Comparable])
    fun _ => (by decide : 4 + (2 + (2 + 0)) ≤ 255)

end

end Felis.Sql
