import Mathlib.Tactic

/-!
# Gathered writes

A vector of entries, each a place in memory and a length, is written out by calls that may write a
part of it only. `advance` is what is left of the vector after so many bytes: the entries behind
them, with the bytes that have not been written yet (`bytes_advance`).
-/

namespace Felis.Gather

open List

variable {B : Type*}

/-- An entry of the vector: some bytes of the object at `base`, from `off` on. -/
structure Entry (B : Type*) where
  base : B
  off : ℕ
  len : ℕ

/-- The bytes of an entry, given what is at every place. -/
def Entry.bytes (mem : B → List UInt8) (e : Entry B) : List UInt8 :=
  ((mem e.base).drop e.off).take e.len

/-- The entry is inside of its object. -/
def Entry.Inside (mem : B → List UInt8) (e : Entry B) : Prop :=
  e.off + e.len ≤ (mem e.base).length

def bytes (mem : B → List UInt8) (vec : List (Entry B)) : List UInt8 :=
  vec.flatMap (Entry.bytes mem)

/-- What is left of the vector after so many bytes have been written. -/
def advance : List (Entry B) → ℕ → List (Entry B)
  | [], _ => []
  | e :: vec, n =>
    if n = 0 then e :: vec
    else if e.len ≤ n then advance vec (n - e.len)
    else { e with off := e.off + n, len := e.len - n } :: vec

variable {mem : B → List UInt8} {e : Entry B} {vec : List (Entry B)}

@[simp] theorem bytes_nil : bytes mem ([] : List (Entry B)) = [] := rfl

@[simp] theorem bytes_cons : bytes mem (e :: vec) = e.bytes mem ++ bytes mem vec := rfl

theorem bytes_append (vec' : List (Entry B)) :
    bytes mem (vec ++ vec') = bytes mem vec ++ bytes mem vec' := by
  simp [bytes]

theorem Entry.length_bytes (h : e.Inside mem) : (e.bytes mem).length = e.len := by
  unfold Entry.Inside at h
  rw [Entry.bytes, length_take, length_drop]
  omega

theorem length_bytes (h : ∀ e ∈ vec, e.Inside mem) :
    (bytes mem vec).length = (vec.map Entry.len).sum := by
  rw [bytes, length_flatMap]
  exact congrArg sum (map_congr_left fun e he => Entry.length_bytes (h e he))

/-- What is left of an entry. -/
theorem Entry.bytes_rest (mem : B → List UInt8) (e : Entry B) (n : ℕ) :
    Entry.bytes mem { e with off := e.off + n, len := e.len - n } = (e.bytes mem).drop n := by
  rw [Entry.bytes, Entry.bytes, drop_take, drop_drop]

/-- Dropping what has been written drops it from the bytes. -/
theorem bytes_advance (h : ∀ e ∈ vec, e.Inside mem) (n : ℕ) :
    bytes mem (advance vec n) = (bytes mem vec).drop n := by
  induction vec generalizing n with
  | nil => simp [advance]
  | cons e vec ih =>
    have he := Entry.length_bytes (h e (by simp))
    rw [advance]
    split_ifs with hzero hle
    · simp [hzero]
    · have hnil : (e.bytes mem).drop n = [] := drop_eq_nil_of_le (by rw [he]; exact hle)
      rw [ih (fun e' he' => h e' (by simp [he'])), bytes_cons, drop_append, he, hnil,
        nil_append]
    · rw [bytes_cons, bytes_cons, Entry.bytes_rest, drop_append_of_le_length (by omega)]

/-- What is left is inside of the objects it was in. -/
theorem advance_of_forall {P : Entry B → Prop} (h : ∀ e ∈ vec, P e)
    (hP : ∀ e n, P e → n < e.len → P { e with off := e.off + n, len := e.len - n }) (n : ℕ) :
    ∀ e ∈ advance vec n, P e := by
  induction vec generalizing n with
  | nil => simp [advance]
  | cons e vec ih =>
    have hvec : ∀ e ∈ vec, P e := fun e' he' => h e' (by simp [he'])
    rw [advance]
    split_ifs with hzero hle
    · exact h
    · exact ih hvec _
    · intro e' he'
      rcases mem_cons.1 he' with rfl | he'
      · exact hP e n (h e (by simp)) (not_le.1 hle)
      · exact hvec e' he'

end Felis.Gather
