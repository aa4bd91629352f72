import Mathlib.Tactic

/-!
# Equality of `sql::inline_str_base`

An inline string is a size and a buffer of `N + 1` bytes. Copying, resizing and decoding write only
a part of the buffer, so that anything may stand behind the size.

`operator==` compares as many bytes as the left string has and never looks at the right one's size
(`opEq_iff`). So a string equals each one that it is the beginning of, and what stands behind the
end of a shorter right string is compared as well (`opEq_differs`). It is equality on a set of
strings exactly when no two of them are in that relation (`opEq_eq_iff_apart`).
-/

namespace Felis.Sql

open List

/-- `inline_str_base<IntSizeType, N>`, with an unsigned size type of `w` bits. -/
structure InlineStr (w N : ℕ) where
  sz : BitVec w
  buf : List UInt8
  length_buf : buf.length = N + 1
  sz_le : sz.toNat ≤ N

/-- The sign of what `memcmp` returns. -/
def bufcmp : List UInt8 → List UInt8 → ℕ → Ordering
  | a :: as, b :: bs, n + 1 => if a < b then .lt else if b < a then .gt else bufcmp as bs n
  | _, _, _ => .eq

theorem bufcmp_eq : ∀ {p q : List UInt8} {n : ℕ}, n ≤ p.length → n ≤ q.length →
    (bufcmp p q n = .eq ↔ p.take n = q.take n)
  | _, _, 0, _, _ => by simp [bufcmp]
  | a :: as, b :: bs, n + 1, hp, hq => by
    rw [bufcmp, take_succ_cons, take_succ_cons, cons.injEq,
      ← bufcmp_eq (Nat.le_of_succ_le_succ hp) (Nat.le_of_succ_le_succ hq)]
    rcases Std.lt_trichotomy a b with h | h | h
    · simp [h, UInt8.ne_of_lt h]
    · simp [h]
    · simp [h, (UInt8.ne_of_lt h).symm, UInt8.lt_asymm h]

namespace InlineStr

variable {w N : ℕ}

/-- The bytes of the string itself. -/
def contents (s : InlineStr w N) : List UInt8 := s.buf.take s.sz.toNat

theorem ofNat_toNat_le {n : ℕ} (h : n ≤ N) : (BitVec.ofNat w n).toNat ≤ N := by
  rw [BitVec.toNat_ofNat]
  exact (Nat.mod_le _ _).trans h

/-! ## The operations -/

/-- The default constructor, over whatever the memory holds. -/
def new (junk : List UInt8) (h : junk.length = N + 1) : InlineStr w N :=
  ⟨0, junk, h, by simp⟩

/-- `assign`, which asserts that the bytes fit. The size is stored in the size type. -/
def assign (s : InlineStr w N) (bytes : List UInt8) : Option (InlineStr w N) :=
  if h : bytes.length ≤ N then
    some ⟨BitVec.ofNat w bytes.length, bytes ++ s.buf.drop bytes.length,
      by have := s.length_buf; simp; omega, ofNat_toNat_le h⟩
  else none

/-- `resize_junk`: what the buffer holds becomes part of the string. -/
def resizeJunk (s : InlineStr w N) (n : ℕ) : Option (InlineStr w N) :=
  if h : n ≤ N then some ⟨BitVec.ofNat w n, s.buf, s.length_buf, ofNat_toNat_le h⟩ else none

/-- `operator==`. -/
def opEq (s other : InlineStr w N) : Bool := bufcmp s.buf other.buf s.sz.toNat == .eq

/-- `operator!=`. -/
def opNe (s other : InlineStr w N) : Bool := !s.opEq other

/-! ## What is compared -/

/-- The left size alone says how much of the two buffers is compared. -/
theorem opEq_iff (s other : InlineStr w N) :
    s.opEq other ↔ s.contents = other.buf.take s.sz.toNat := by
  have h := s.sz_le
  rw [opEq, beq_iff_eq, bufcmp_eq (by rw [s.length_buf]; omega)
    (by rw [other.length_buf]; omega), contents]

/-- Of two strings of one length, exactly the equal ones are equal to each other. -/
theorem opEq_iff_contents {s other : InlineStr w N} (h : s.sz = other.sz) :
    s.opEq other ↔ s.contents = other.contents := by
  rw [opEq_iff, contents, contents, h]

/-- The pair is told apart by the comparison: the lengths are the same, or the left string differs
from what stands at the beginning of the right buffer. -/
def Apart (s other : InlineStr w N) : Prop :=
  s.sz = other.sz ∨ s.contents ≠ other.buf.take s.sz.toNat

theorem opEq_iff_eq_iff_apart (s other : InlineStr w N) :
    (s.opEq other ↔ s.sz = other.sz ∧ s.contents = other.contents) ↔ s.Apart other := by
  by_cases h : s.sz = other.sz
  · simp [Apart, h, opEq_iff_contents h]
  · simp [Apart, h, opEq_iff]

/-- **When `operator==` is equality of strings.** For every `N`, every size type and every set of
strings with whatever stands behind their ends: on this set `operator==` is reflexive, symmetric and
transitive, holds exactly for strings of the same length with the same bytes, and has `operator!=`
as its negation, if and only if every two strings of the set have the same length or differ within
the bytes that are compared. -/
theorem opEq_eq_iff_apart (A : Set (InlineStr w N)) :
    ((∀ a ∈ A, a.opEq a) ∧ (∀ a ∈ A, ∀ b ∈ A, a.opEq b = b.opEq a) ∧
      (∀ a ∈ A, ∀ b ∈ A, ∀ c ∈ A, a.opEq b → b.opEq c → a.opEq c) ∧
      (∀ a ∈ A, ∀ b ∈ A, a.opEq b ↔ a.sz = b.sz ∧ a.contents = b.contents) ∧
      ∀ a ∈ A, ∀ b ∈ A, a.opNe b = !a.opEq b) ↔
    ∀ a ∈ A, ∀ b ∈ A, a.Apart b := by
  constructor
  · rintro ⟨-, -, -, heq, -⟩ a ha b hb
    exact (opEq_iff_eq_iff_apart a b).1 (heq a ha b hb)
  · intro h
    have heq : ∀ a ∈ A, ∀ b ∈ A, a.opEq b ↔ a.sz = b.sz ∧ a.contents = b.contents :=
      fun a ha b hb => (opEq_iff_eq_iff_apart a b).2 (h a ha b hb)
    refine ⟨fun a ha => (heq a ha a ha).2 ⟨rfl, rfl⟩, fun a ha b hb => ?_,
      fun a ha b hb c hc hab hbc => ?_, heq, fun _ _ _ _ => rfl⟩
    · rw [Bool.eq_iff_iff, heq a ha b hb, heq b hb a ha, eq_comm, @eq_comm _ a.contents]
    · obtain ⟨hsz, hab⟩ := (heq a ha b hb).1 hab
      obtain ⟨hsz', hbc⟩ := (heq b hb c hc).1 hbc
      exact (heq a ha c hc).2 ⟨hsz.trans hsz', hab.trans hbc⟩

/-- "ab" is equal to "abc" but not the other way around, and "ab" is equal to "a" when the buffer
of the latter was resized from "ab", although "a" is equal to "ac" and "ab" is not. -/
theorem opEq_differs : ∃ ab abc a ac : InlineStr 8 3,
    (new [9, 9, 9, 9] rfl).assign [97, 98] = some ab ∧
    (new [9, 9, 9, 9] rfl).assign [97, 98, 99] = some abc ∧ ab.resizeJunk 1 = some a ∧
    (new [9, 9, 9, 9] rfl).assign [97, 99] = some ac ∧
    ab.opEq abc ∧ ¬ abc.opEq ab ∧ ab.contents ≠ abc.contents ∧
    ab.opEq a ∧ a.opEq ac ∧ ¬ ab.opEq ac :=
  ⟨⟨2, [97, 98, 9, 9], rfl, by decide⟩, ⟨3, [97, 98, 99, 9], rfl, by decide⟩,
    ⟨1, [97, 98, 9, 9], rfl, by decide⟩, ⟨2, [97, 99, 9, 9], rfl, by decide⟩,
    rfl, rfl, rfl, rfl, by decide, by decide, by decide, by decide, by decide, by decide⟩

end InlineStr

end Felis.Sql
