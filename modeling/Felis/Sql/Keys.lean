import Felis.Foundations.Serializer

/-!
# The key serializers of `sqltypes.h`

A schema declared with `KEYS` is a chain of fields, each with the `KeySerializer` of its type.
Integers of 16 and 32 bits are written in big-endian order, so that keys compare byte by byte; other
integers are copied as they are, a `Char<N>` is its `N` bytes, and an `inline_str` has its size in
front.

* `key_roundtrip`: the keys that are read back are those whose `uint16_t` fields have a zero low
  byte;
* `key_uint16_lost`: `KeySerializer<uint16_t>::DecodeFrom` looks at one byte only, so the low byte
  of such a field is lost.
-/

namespace Felis.Sql

open Bytes Serializer

/-- The types of fields that keys are made of. -/
inductive KeyType
  | uint16
  | uint32
  /-- `uint64_t` and the other integers that are copied as they are. -/
  | fixed (bytes : ℕ)
  | char (n : ℕ)
  /-- `inline_str_base<SizeType, N>`, with the number of bytes of the size type. -/
  | inlineStr (sizeBytes n : ℕ)
  deriving DecidableEq

def KeyType.Val : KeyType → Type
  | .uint16 => BitVec (8 * 2)
  | .uint32 => BitVec (8 * 4)
  | .fixed bytes => BitVec (8 * bytes)
  | .char n => Image n
  | .inlineStr sizeBytes n => Text sizeBytes n

/-- `htobe16`, `htobe32` and their inverses: the bytes of a word in the other order. -/
def byteSwap {n : ℕ} (x : BitVec (8 * n)) : BitVec (8 * n) :=
  BitVec.ofNat (8 * n) (ofLe (Bytes.word x).reverse)

/-- `KeySerializer<uint16_t>`. The reader dereferences the buffer as a byte. -/
def uint16Serializer : Serializer (BitVec (8 * 2)) where
  encodeSize _ := 2
  encodeTo x := Bytes.word (byteSwap x)
  decodeFrom buf := buf.head?.map fun b => byteSwap (BitVec.ofNat (8 * 2) b.toNat)

/-- `KeySerializer<uint32_t>`. -/
def uint32Serializer : Serializer (BitVec (8 * 4)) where
  encodeSize _ := 4
  encodeTo x := Bytes.word (byteSwap x)
  decodeFrom buf := if 4 ≤ buf.length then some (byteSwap (field 4 0 buf)) else none

/-- `KeySerializer` of a type of field. -/
def keySerializer : ∀ t : KeyType, Serializer t.Val
  | .uint16 => uint16Serializer
  | .uint32 => uint32Serializer
  | .fixed bytes => word bytes
  | .char n => image n
  | .inlineStr sizeBytes n => text sizeBytes n

abbrev Key (ts : List KeyType) : Type := Fields KeyType.Val ts

/-- `EncodeSize`, `EncodeTo` and `DecodeFrom` of a `KEYS` schema. -/
def keys (ts : List KeyType) : Serializer (Key ts) := fields keySerializer ts

/-! ## Words in big-endian order -/

theorem word_byteSwap {n : ℕ} (x : BitVec (8 * n)) :
    Bytes.word (byteSwap x) = (Bytes.word x).reverse := by
  have hlen : (Bytes.word x).reverse.length = n := by simp
  have hlt := ofLe_lt (Bytes.word x).reverse
  rw [hlen] at hlt
  have hnat : (byteSwap x).toNat = ofLe (Bytes.word x).reverse := by
    rw [byteSwap, BitVec.toNat_ofNat, pow_mul]
    exact Nat.mod_eq_of_lt hlt
  have hle := le_ofLe (Bytes.word x).reverse
  rw [hlen, ← hnat] at hle
  exact hle

theorem byteSwap_byteSwap {n : ℕ} (x : BitVec (8 * n)) : byteSwap (byteSwap x) = x := by
  apply word_injective
  rw [word_byteSwap, word_byteSwap, List.reverse_reverse]

theorem roundTrips_uint32 (x : BitVec (8 * 4)) : uint32Serializer.RoundTrips x := by
  refine ⟨length_word _, fun rest => ?_⟩
  simp only [uint32Serializer, List.length_append, length_word, Nat.le_add_right, if_true,
    field_word, byteSwap_byteSwap]

/-- What the reader makes of a 16-bit word: the low byte is zero. -/
theorem decodeFrom_uint16 (x : BitVec (8 * 2)) (rest : List UInt8) :
    uint16Serializer.decodeFrom (uint16Serializer.encodeTo x ++ rest) =
      some (BitVec.ofNat (8 * 2) (x.toNat / 256 * 256)) := by
  have hx : x.toNat < 65536 := x.isLt
  have hbytes : Bytes.word (byteSwap x) =
      [UInt8.ofNat (x.toNat / 256), UInt8.ofNat x.toNat] := by
    rw [word_byteSwap]
    rfl
  have hbyte : (UInt8.ofNat (x.toNat / 256)).toNat = x.toNat / 256 := by
    rw [UInt8.toNat_ofNat']
    omega
  have hswap : ∀ b < 256, byteSwap (BitVec.ofNat (8 * 2) b) = BitVec.ofNat (8 * 2) (b * 256) := by
    decide +kernel
  simp only [uint16Serializer, hbytes, List.cons_append, List.head?_cons, Option.map_some, hbyte]
  rw [hswap _ (by omega)]

theorem roundTrips_uint16 {x : BitVec (8 * 2)} (h : x.toNat % 256 = 0) :
    uint16Serializer.RoundTrips x := by
  refine ⟨length_word (byteSwap x), fun rest => ?_⟩
  rw [decodeFrom_uint16, Nat.div_mul_cancel (Nat.dvd_of_mod_eq_zero h), BitVec.ofNat_toNat,
    BitVec.setWidth_eq]

/-! ## Round trips -/

theorem length_keySerializer (t : KeyType) (x : t.Val) :
    ((keySerializer t).encodeTo x).length = (keySerializer t).encodeSize x := by
  cases t with
  | uint16 => exact length_word _
  | uint32 => exact length_word _
  | fixed bytes => exact (roundTrips_word x).length
  | char n => exact (roundTrips_image x).length
  | inlineStr sizeBytes n => exact (roundTrips_text x).length

theorem length_keys (ts : List KeyType) (key : Key ts) :
    ((keys ts).encodeTo key).length = (keys ts).encodeSize key :=
  length_fields length_keySerializer ts key

/-- The condition on a field: a `uint16_t` has a zero low byte. -/
def LowByteZero : ∀ t : KeyType, t.Val → Prop
  | .uint16, (x : BitVec 16) => x.toNat % 256 = 0
  | .uint32, _ | .fixed _, _ | .char _, _ | .inlineStr _ _, _ => True

theorem roundTrips_keySerializer (t : KeyType) (x : t.Val) (h : LowByteZero t x) :
    (keySerializer t).RoundTrips x := by
  cases t with
  | uint16 => exact roundTrips_uint16 h
  | uint32 => exact roundTrips_uint32 x
  | fixed bytes => exact roundTrips_word x
  | char n => exact roundTrips_image x
  | inlineStr sizeBytes n => exact roundTrips_text x

theorem lowByteZero_of_decodeFrom (t : KeyType) (x : t.Val)
    (h : ∃ rest, (keySerializer t).decodeFrom ((keySerializer t).encodeTo x ++ rest) = some x) :
    LowByteZero t x := by
  cases t with
  | uint16 =>
    obtain ⟨rest, hdecode⟩ := h
    have hx := BitVec.isLt x
    have hsame := congrArg BitVec.toNat
      (Option.some.inj ((decodeFrom_uint16 x rest).symm.trans hdecode))
    rw [BitVec.toNat_ofNat] at hsame
    change BitVec.toNat x % 256 = 0
    omega
  | _ => trivial

/-- **Key codec round trip**, for every schema: a key is written to exactly its size, and the reader
gets the key back and goes on behind it, if and only if all its `uint16_t` fields have a zero low
byte. -/
theorem key_roundtrip (ts : List KeyType) (key : Key ts) :
    (((keys ts).encodeTo key).length = (keys ts).encodeSize key ∧
      ∀ rest, (keys ts).decodeNext ((keys ts).encodeTo key ++ rest) = some (key, rest)) ↔
    AllFields LowByteZero ts key := by
  constructor
  · rintro ⟨-, hdecode⟩
    obtain ⟨key', hkey, heq⟩ := Option.map_eq_some_iff.1 (hdecode [])
    obtain rfl : key' = key := congrArg Prod.fst heq
    exact (allFields_of_decodeFrom length_keySerializer hkey).imp lowByteZero_of_decodeFrom
  · intro h
    have hkey := roundTrips_fields keySerializer ts key (h.imp roundTrips_keySerializer)
    exact ⟨length_keys ts key, hkey.decodeNext⟩

/-- **A `uint16_t` field does not survive.** The key `1` is read back as `0`. -/
theorem key_uint16_lost :
    (keys [.uint16]).decodeNext ((keys [.uint16]).encodeTo (1#16, ())) = some ((0#16, ()), []) :=
  rfl

end Felis.Sql
