import Felis.Foundations.Bytes

/-!
# Serializers

A serializer says how many bytes a value takes, which bytes they are, and how a value is read back
from a buffer. The reader is not told how long the value is: it may look at any part of the buffer,
and its caller goes on behind the size of what it read. So the law is about a value in front of
arbitrary bytes (`RoundTrips`), and it is kept by putting serializers one after the other (`pair`,
`fields`).

* `image`, `word`, `text` and `array` are the serializers of memory images, words in little-endian
  order, texts with their length in front and arrays of images;
* `fields` is the serializer of a list of fields, from one for each type of field;
* a serializer is `Ordered` when byte strings are compared as their values are.
-/

namespace Felis

open Bytes Option

/-- How values are written to memory and read back. Reading is `none` past the end of the buffer. -/
structure Serializer (α : Type) where
  encodeSize : α → ℕ
  encodeTo : α → List UInt8
  decodeFrom : List UInt8 → Option α

namespace Serializer

variable {α β : Type} {s : Serializer α} {t : Serializer β} {a : α} {b : β}

/-- The value is written to exactly its size, and read back from there whatever follows. -/
structure RoundTrips (s : Serializer α) (a : α) : Prop where
  length : (s.encodeTo a).length = s.encodeSize a
  decode : ∀ rest, s.decodeFrom (s.encodeTo a ++ rest) = some a

/-- A value, and the buffer behind its size. -/
def decodeNext (s : Serializer α) (buf : List UInt8) : Option (α × List UInt8) :=
  (s.decodeFrom buf).map fun a => (a, buf.drop (s.encodeSize a))

theorem RoundTrips.decodeNext (h : s.RoundTrips a) (rest : List UInt8) :
    s.decodeNext (s.encodeTo a ++ rest) = some (a, rest) := by
  rw [Serializer.decodeNext, h.decode, map_some, List.drop_left' h.length]

/-! ## One after the other -/

def unit : Serializer Unit where
  encodeSize _ := 0
  encodeTo _ := []
  decodeFrom _ := some ()

theorem roundTrips_unit : unit.RoundTrips () := ⟨rfl, fun _ => rfl⟩

def pair (s : Serializer α) (t : Serializer β) : Serializer (α × β) where
  encodeSize p := s.encodeSize p.1 + t.encodeSize p.2
  encodeTo p := s.encodeTo p.1 ++ t.encodeTo p.2
  decodeFrom buf := do
    let (a, buf) ← s.decodeNext buf
    let b ← t.decodeFrom buf
    return (a, b)

theorem RoundTrips.pair (ha : s.RoundTrips a) (hb : t.RoundTrips b) :
    (s.pair t).RoundTrips (a, b) := by
  refine ⟨?_, fun rest => ?_⟩
  · simp [Serializer.pair, ha.length, hb.length]
  · simp only [Serializer.pair, List.append_assoc, ha.decodeNext, bind_eq_bind,
      bind_some, hb.decode]
    rfl

/-- The same bytes for another type of values. -/
def congr (e : α ≃ β) (s : Serializer α) : Serializer β where
  encodeSize b := s.encodeSize (e.symm b)
  encodeTo b := s.encodeTo (e.symm b)
  decodeFrom buf := (s.decodeFrom buf).map e

theorem RoundTrips.congr (e : α ≃ β) (h : s.RoundTrips (e.symm b)) : (s.congr e).RoundTrips b := by
  refine ⟨h.length, fun rest => ?_⟩
  simp [Serializer.congr, h.decode]

theorem decodeFrom_of_pair {rest : List UInt8} (hlen : (s.encodeTo a).length = s.encodeSize a)
    (h : (s.pair t).decodeFrom ((s.pair t).encodeTo (a, b) ++ rest) = some (a, b)) :
    s.decodeFrom (s.encodeTo a ++ (t.encodeTo b ++ rest)) = some a ∧
      t.decodeFrom (t.encodeTo b ++ rest) = some b := by
  simp only [Serializer.pair, List.append_assoc, bind_eq_bind, bind_eq_some_iff, decodeNext,
    map_eq_some_iff, pure_def, some_inj, Prod.mk.injEq] at h
  obtain ⟨_, ⟨a', ha, rfl⟩, b', hb, heq, rfl⟩ := h
  obtain rfl : a' = a := heq
  rw [List.drop_left' hlen] at hb
  exact ⟨ha, hb⟩

/-! ## Orders -/

/-- The bytes of the values are compared as the values are, and all values take equally many. -/
structure Ordered (s : Serializer α) (lt : α → α → Prop) : Prop where
  length : ∀ a b, (s.encodeTo a).length = (s.encodeTo b).length
  injective : Function.Injective s.encodeTo
  lt_iff : ∀ a b, s.encodeTo a < s.encodeTo b ↔ lt a b

theorem Ordered.not_lt_iff {lt : α → α → Prop} (h : s.Ordered lt) (a b : α) :
    ¬ s.encodeTo a < s.encodeTo b ↔ lt b a ∨ b = a := by
  rw [← h.lt_iff, ← h.injective.eq_iff]
  constructor
  · intro hle
    by_cases hlt : s.encodeTo b < s.encodeTo a
    · exact .inl hlt
    · exact .inr (List.le_antisymm hle hlt)
  · rintro (hlt | heq)
    · exact List.lt_asymm hlt
    · exact heq ▸ List.lt_irrefl _

/-- Values one after the other are compared one after the other. -/
theorem Ordered.pair {lt : α → α → Prop} {lt' : β → β → Prop} (hs : s.Ordered lt)
    (ht : t.Ordered lt') : (s.pair t).Ordered (Prod.Lex lt lt') where
  length := fun p q => by
    simp [Serializer.pair, hs.length p.1 q.1, ht.length p.2 q.2]
  injective := by
    rintro ⟨a, b⟩ ⟨a', b'⟩ h
    obtain ⟨ha, hb⟩ := List.append_inj h (hs.length a a')
    exact Prod.ext (hs.injective ha) (ht.injective hb)
  lt_iff := by
    rintro ⟨a, b⟩ ⟨a', b'⟩
    rw [Prod.lex_iff, ← hs.lt_iff, ← ht.lt_iff, ← hs.injective.eq_iff]
    exact append_lt_append_iff (hs.length a a')

/-! ## Bytes -/

/-- A memory image of `n` bytes. -/
@[ext] structure Image (n : ℕ) where
  bytes : List UInt8
  length_eq : bytes.length = n
  deriving DecidableEq

def readImage (n : ℕ) (buf : List UInt8) : Option (Image n) :=
  if h : n ≤ buf.length then some ⟨buf.take n, by simp [h]⟩ else none

theorem readImage_append {n : ℕ} (x : Image n) (rest : List UInt8) :
    readImage n (x.bytes ++ rest) = some x := by
  have hle : n ≤ (x.bytes ++ rest).length := by simp [x.length_eq]
  rw [readImage, dif_pos hle, some_inj]
  exact Image.ext (List.take_left' x.length_eq)

def image (n : ℕ) : Serializer (Image n) where
  encodeSize _ := n
  encodeTo := Image.bytes
  decodeFrom := readImage n

theorem roundTrips_image {n : ℕ} (x : Image n) : (image n).RoundTrips x :=
  ⟨x.length_eq, readImage_append x⟩

/-- A word of `n` bytes, the lowest first. -/
def word (n : ℕ) : Serializer (BitVec (8 * n)) where
  encodeSize _ := n
  encodeTo := Bytes.word
  decodeFrom buf := if n ≤ buf.length then some (field n 0 buf) else none

theorem roundTrips_word {n : ℕ} (x : BitVec (8 * n)) : (word n).RoundTrips x := by
  refine ⟨length_word x, fun rest => ?_⟩
  simp only [word, List.length_append, length_word, field_word, Nat.le_add_right, if_true]

/-- A text of at most `n` bytes, whose length fits into `w` bytes. -/
@[ext] structure Text (w n : ℕ) where
  bytes : List UInt8
  length_le : bytes.length ≤ n
  length_lt : bytes.length < 256 ^ w
  deriving DecidableEq

/-- The length of a text in `w` bytes, and the text. -/
def text (w n : ℕ) : Serializer (Text w n) where
  encodeSize x := w + x.bytes.length
  encodeTo x := le w x.bytes.length ++ x.bytes
  decodeFrom buf := do
    let (size, buf) ← read w buf
    let sz := ofLe size
    if h : sz ≤ n ∧ sz < 256 ^ w ∧ sz ≤ buf.length then
      some ⟨buf.take sz, by simp [h.1, h.2.2], by simp [h.2.1, h.2.2]⟩
    else none

theorem roundTrips_text {w n : ℕ} (x : Text w n) : (text w n).RoundTrips x := by
  obtain ⟨l, hn, hw⟩ := x
  refine ⟨by simp [text], fun rest => ?_⟩
  have hsize := ofLe_le hw
  simp only [text, List.append_assoc, read_append _ (length_le w l.length), bind_eq_bind,
    bind_some, hsize]
  rw [dif_pos ⟨hn, hw, by simp⟩, some_inj]
  exact Text.ext (List.take_left' rfl)

def readImages (n : ℕ) : ℕ → List UInt8 → Option (List (Image n))
  | 0, _ => some []
  | cnt + 1, buf => do
    let x ← readImage n buf
    let xs ← readImages n cnt (buf.drop n)
    return x :: xs

theorem readImages_append {n : ℕ} (xs : List (Image n)) (rest : List UInt8) :
    readImages n xs.length (xs.flatMap Image.bytes ++ rest) = some xs := by
  induction xs with
  | nil => rfl
  | cons x xs ih =>
    rw [List.length_cons, readImages, List.flatMap_cons, List.append_assoc, readImage_append,
      List.drop_left' x.length_eq, ih]
    rfl

/-- An array of images whose length fits into `w` bytes. -/
@[ext] structure Images (w n : ℕ) where
  items : List (Image n)
  length_lt : items.length < 256 ^ w
  deriving DecidableEq

/-- The length of an array in `w` bytes, and its images. -/
def array (w n : ℕ) : Serializer (Images w n) where
  encodeSize x := w + x.items.length * n
  encodeTo x := le w x.items.length ++ x.items.flatMap Image.bytes
  decodeFrom buf := do
    let (len, buf) ← read w buf
    let xs ← readImages n (ofLe len) buf
    if h : xs.length < 256 ^ w then some ⟨xs, h⟩ else none

theorem roundTrips_array {w n : ℕ} (x : Images w n) : (array w n).RoundTrips x := by
  obtain ⟨xs, hw⟩ := x
  refine ⟨?_, fun rest => ?_⟩
  · have hlen : (xs.flatMap Image.bytes).length = xs.length * n := by
      induction xs with
      | nil => simp
      | cons x xs ih =>
        rw [List.flatMap_cons, List.length_append, ih (by simp at hw; omega), x.length_eq,
          List.length_cons]
        ring
    simp [array, hlen]
  · simp [array, read_append _ (length_le w xs.length), ofLe_le hw, readImages_append, dif_pos hw]

/-! ## Fields -/

variable {F : Type} {Val : F → Type}

def Fields (Val : F → Type) : List F → Type
  | [] => Unit
  | f :: fs => Val f × Fields Val fs

/-- Every field's value satisfies a condition for its type. -/
def AllFields (P : ∀ f, Val f → Prop) : ∀ fs : List F, Fields Val fs → Prop
  | [], _ => True
  | f :: fs, v => P f v.1 ∧ AllFields P fs v.2

def fields (ser : ∀ f, Serializer (Val f)) : ∀ fs : List F, Serializer (Fields Val fs)
  | [] => unit
  | f :: fs => (ser f).pair (fields ser fs)

theorem length_fields {ser : ∀ f, Serializer (Val f)}
    (h : ∀ f a, ((ser f).encodeTo a).length = (ser f).encodeSize a) (fs : List F)
    (v : Fields Val fs) : ((fields ser fs).encodeTo v).length = (fields ser fs).encodeSize v := by
  induction fs with
  | nil => rfl
  | cons f fs ih =>
    change ((ser f).encodeTo v.1 ++ (fields ser fs).encodeTo v.2).length = _
    rw [List.length_append, h f v.1, ih v.2]
    rfl

theorem roundTrips_fields (ser : ∀ f, Serializer (Val f)) : ∀ (fs : List F) (v : Fields Val fs),
    AllFields (fun f a => (ser f).RoundTrips a) fs v → (fields ser fs).RoundTrips v := by
  intro fs
  induction fs with
  | nil => exact fun v _ => roundTrips_unit
  | cons f fs ih => exact fun v h => h.1.pair (ih v.2 h.2)

/-- What is read back as a whole is read back field by field. -/
theorem allFields_of_decodeFrom {ser : ∀ f, Serializer (Val f)}
    (hlen : ∀ f a, ((ser f).encodeTo a).length = (ser f).encodeSize a) :
    ∀ {fs : List F} {v : Fields Val fs} {rest : List UInt8},
      (fields ser fs).decodeFrom ((fields ser fs).encodeTo v ++ rest) = some v →
      AllFields (fun f a => ∃ rest, (ser f).decodeFrom ((ser f).encodeTo a ++ rest) = some a)
        fs v := by
  intro fs
  induction fs with
  | nil => exact fun _ => trivial
  | cons f fs ih =>
    rintro ⟨a, v⟩ rest h
    obtain ⟨ha, hv⟩ := decodeFrom_of_pair (hlen f a) h
    exact ⟨⟨_, ha⟩, ih hv⟩

/-- The fields are compared in their order. -/
def FieldsLt (lt : ∀ f, Val f → Val f → Prop) :
    ∀ fs : List F, Fields Val fs → Fields Val fs → Prop
  | [] => fun _ _ => False
  | f :: fs => Prod.Lex (lt f) (FieldsLt lt fs)

theorem ordered_fields {ser : ∀ f, Serializer (Val f)} {lt : ∀ f, Val f → Val f → Prop}
    {fs : List F} (h : ∀ f ∈ fs, (ser f).Ordered (lt f)) :
    (fields ser fs).Ordered (FieldsLt lt fs) := by
  induction fs with
  | nil => exact ⟨fun _ _ => rfl, fun _ _ _ => rfl, fun _ _ => iff_of_false (List.lt_irrefl _) id⟩
  | cons f fs ih =>
    have hhead := h f List.mem_cons_self
    have htail := ih fun g hg => h g (List.mem_cons_of_mem f hg)
    exact hhead.pair htail

theorem AllFields.imp {P Q : ∀ f, Val f → Prop} (hPQ : ∀ f a, P f a → Q f a) :
    ∀ {fs : List F} {v : Fields Val fs}, AllFields P fs v → AllFields Q fs v := by
  intro fs
  induction fs with
  | nil => exact fun h => h
  | cons f fs ih => exact fun h => ⟨hPQ f _ h.1, ih h.2⟩

end Serializer

end Felis
