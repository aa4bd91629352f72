import Felis.Foundations.Serializer

/-!
# The value serializers of `sqltypes.h`

A `Tuple` and a schema declared with `VALUES` are written component by component, each with the
`Serializer` of its type. Most types are copied as they stand in memory. This holds for a nested
schema too: `Serializer` has a case for `Object`, of which `Tuple` is an instance, but `Schemas` is
a class derived from it. A tuple writes its components from the last one to the first one.

Everything comes back (`value_roundtrip`).
-/

namespace Felis.Sql

open Bytes Serializer

mutual
inductive ValueType
  /-- Integers, `bool` and the like. -/
  | scalar (bytes : ℕ)
  /-- An object that is copied as it is: a plain `struct`, a `Char<N>`, a nested schema. -/
  | pod (size : ℕ)
  /-- `inline_str_base<SizeType, N>`, with the number of bytes of the size type. -/
  | inlineStr (sizeBytes n : ℕ)
  /-- A `std::vector` of plain elements, each of this size. -/
  | vector (size : ℕ)
  | tuple (ts : TupleType)

inductive TupleType
  | last (t : ValueType)
  /-- `TupleField<T, Types...>`. -/
  | cons (t : ValueType) (ts : TupleType)
end

mutual
def ValueType.Val : ValueType → Type
  | .scalar bytes => BitVec (8 * bytes)
  | .pod size => Image size
  | .inlineStr sizeBytes n => Text sizeBytes n
  | .vector size => Images 8 size
  | .tuple ts => ts.Val

def TupleType.Val : TupleType → Type
  | .last t => t.Val
  | .cons t ts => t.Val × ts.Val
end

mutual
/-- `Serializer` of a type, which is its `ValueSerializer` as well. -/
def serializer : ∀ t : ValueType, Serializer t.Val
  | .scalar bytes => word bytes
  | .pod size => image size
  | .inlineStr sizeBytes n => text sizeBytes n
  | .vector size => array 8 size
  | .tuple ts => tupleSerializer ts

/-- `EncodeSize`, `EncodeTo` and `DecodeFrom` of `TupleField`: the `ParentTupleFields` come first,
which are the components behind this one. -/
def tupleSerializer : ∀ ts : TupleType, Serializer ts.Val
  | .last t => serializer t
  | .cons t ts => ((tupleSerializer ts).pair (serializer t)).congr (Equiv.prodComm _ _)
end

/-- `EncodeSize`, `EncodeTo` and `DecodeFrom` of a `VALUES` schema. -/
def values (ts : List ValueType) : Serializer (Fields ValueType.Val ts) := fields serializer ts

/-! ## Strings -/

/-- `VarStr`: its length, and the bytes in memory from its data on. -/
structure VarStr where
  len : BitVec 16
  data : List UInt8

/-- `Encode`. The string is allocated with a 16-bit length; a value that takes more would be written
past its end. -/
def encode {α : Type} (s : Serializer α) (a : α) (behind : List UInt8) : Option VarStr :=
  let len := BitVec.ofNat 16 (s.encodeSize a)
  if (s.encodeTo a).length ≤ len.toNat then some ⟨len, s.encodeTo a ++ behind⟩ else none

def toType {α : Type} (s : Serializer α) (str : VarStr) : Option α := s.decodeFrom str.data

/-! ## Round trips -/

mutual
theorem roundTrips_serializer : ∀ (t : ValueType) (v : t.Val), (serializer t).RoundTrips v
  | .scalar _, v => roundTrips_word v
  | .pod _, v => roundTrips_image v
  | .inlineStr _ _, v => roundTrips_text v
  | .vector _, v => roundTrips_array v
  | .tuple ts, v => roundTrips_tupleSerializer ts v

theorem roundTrips_tupleSerializer : ∀ (ts : TupleType) (v : ts.Val),
    (tupleSerializer ts).RoundTrips v
  | .last t, v => roundTrips_serializer t v
  | .cons t ts, v =>
    ((roundTrips_tupleSerializer ts v.2).pair (roundTrips_serializer t v.1)).congr
      (Equiv.prodComm _ _)
end

theorem roundTrips_values : ∀ (ts : List ValueType) (v : Fields ValueType.Val ts),
    (values ts).RoundTrips v := by
  intro ts v
  refine roundTrips_fields serializer ts v ?_
  induction ts with
  | nil => trivial
  | cons t ts ih => exact ⟨roundTrips_serializer t v.1, ih v.2⟩

/-- The value is written to exactly its size, the reader gets it back and goes on behind it, and a
`VarStr` can carry it. -/
def Restored {α : Type} (s : Serializer α) (a : α) : Prop :=
  (s.encodeTo a).length = s.encodeSize a ∧
    (∀ rest, s.decodeNext (s.encodeTo a ++ rest) = some (a, rest)) ∧
    (s.encodeSize a < 65536 → ∀ behind, (encode s a behind).bind (toType s) = some a)

theorem restored_of_roundTrips {α : Type} {s : Serializer α} {a : α} (h : s.RoundTrips a) :
    Restored s a := by
  refine ⟨h.length, h.decodeNext, fun hsize behind => ?_⟩
  have hlen : (BitVec.ofNat 16 (s.encodeSize a)).toNat = s.encodeSize a :=
    Nat.mod_eq_of_lt hsize
  rw [encode, if_pos (by rw [hlen, h.length]), Option.bind_some]
  exact h.decode behind

/-- **Tuple and value codec round trip**, for every tuple and every schema, and all of their
values. -/
theorem value_roundtrip :
    (∀ (ts : TupleType) (v : ts.Val), Restored (tupleSerializer ts) v) ∧
      ∀ (ts : List ValueType) (v : Fields ValueType.Val ts), Restored (values ts) v :=
  ⟨fun ts v => restored_of_roundTrips (roundTrips_tupleSerializer ts v),
    fun ts v => restored_of_roundTrips (roundTrips_values ts v)⟩

-- The components of a tuple stand in memory from the last one to the first one.
example : (tupleSerializer (.cons (.scalar 1) (.last (.scalar 2)))).encodeTo (7#8, 0x0102#16) =
    [2, 1, 7] := rfl

end Felis.Sql
