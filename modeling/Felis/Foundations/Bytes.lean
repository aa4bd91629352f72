import Mathlib.Tactic

/-!
# Bytes in memory

Words in little-endian order, and the two ways of going through a piece of memory: `read` takes the
next bytes away, and nothing is read past the end. The law of a reader is that it gets back what was
written in front of anything (`read_append`, `field_word`).
-/

namespace Felis.Bytes

open List

/-- The `n` bytes of a word, the lowest first. -/
def le : ℕ → ℕ → List UInt8
  | 0, _ => []
  | n + 1, x => UInt8.ofNat x :: le n (x / 256)

/-- The word that the bytes stand for. -/
def ofLe : List UInt8 → ℕ
  | [] => 0
  | b :: l => b.toNat + 256 * ofLe l

@[simp] theorem length_le (n x : ℕ) : (le n x).length = n := by
  induction n generalizing x with
  | zero => rfl
  | succ n ih => simp [le, ih]

theorem ofLe_le_mod (n x : ℕ) : ofLe (le n x) = x % 256 ^ n := by
  induction n generalizing x with
  | zero => simp [le, ofLe, Nat.mod_one]
  | succ n ih =>
    have hbyte : (UInt8.ofNat x).toNat = x % 256 := by simp
    rw [le, ofLe, ih, hbyte, pow_succ', Nat.mod_mul]

theorem ofLe_le {n x : ℕ} (h : x < 256 ^ n) : ofLe (le n x) = x := by
  rw [ofLe_le_mod, Nat.mod_eq_of_lt h]

theorem ofLe_lt (l : List UInt8) : ofLe l < 256 ^ l.length := by
  induction l with
  | nil => simp [ofLe]
  | cons b l ih =>
    have hb := b.toNat_lt
    rw [ofLe, length_cons, pow_succ']
    omega

theorem le_ofLe (l : List UInt8) : le l.length (ofLe l) = l := by
  induction l with
  | nil => rfl
  | cons b l ih =>
    have hb := b.toNat_lt
    have hdiv : (b.toNat + 256 * ofLe l) / 256 = ofLe l := by omega
    have hbyte : UInt8.ofNat (b.toNat + 256 * ofLe l) = b := by
      apply UInt8.toNat_inj.1
      rw [UInt8.toNat_ofNat']
      omega
    rw [length_cons, ofLe, le, hdiv, ih, hbyte]

/-- The next `n` bytes and what comes after them; none past the end of the memory. -/
def read (n : ℕ) (p : List UInt8) : Option (List UInt8 × List UInt8) :=
  if n ≤ p.length then some (p.take n, p.drop n) else none

variable {n : ℕ}

theorem read_append {l : List UInt8} (p : List UInt8) (h : l.length = n) :
    read n (l ++ p) = some (l, p) := by
  subst h
  simp [read]

theorem exists_read {p : List UInt8} (h : n ≤ p.length) :
    ∃ l, l.length = n ∧ read n p = some (l, p.drop n) :=
  ⟨p.take n, by simp [h], if_pos h⟩

/-- A word of `n` bytes as it stands in memory. -/
def word {n : ℕ} (x : BitVec (8 * n)) : List UInt8 := le n x.toNat

@[simp] theorem length_word (x : BitVec (8 * n)) : (word x).length = n := length_le n _

theorem word_injective : Function.Injective (word : BitVec (8 * n) → List UInt8) := by
  intro x y h
  have hlt : ∀ z : BitVec (8 * n), z.toNat < 256 ^ n := fun z => by
    have := z.isLt
    rwa [pow_mul] at this
  apply BitVec.eq_of_toNat_eq
  rw [← ofLe_le (hlt x), ← ofLe_le (hlt y)]
  exact congrArg ofLe h

/-- The word of `n` bytes at an offset. -/
def field (n off : ℕ) (p : List UInt8) : BitVec (8 * n) :=
  BitVec.ofNat (8 * n) (ofLe ((p.drop off).take n))

theorem field_word (x : BitVec (8 * n)) (p : List UInt8) : field n 0 (word x ++ p) = x := by
  have hlt : x.toNat < 256 ^ n := by
    have := x.isLt
    rwa [pow_mul] at this
  rw [field, drop_zero, take_left' (length_word x), word, ofLe_le hlt,
    BitVec.ofNat_toNat, BitVec.setWidth_eq]

theorem field_append {n off : ℕ} {l : List UInt8} (p : List UInt8) (h : l.length ≤ off) :
    field n off (l ++ p) = field n (off - l.length) p := by
  rw [field, drop_append, drop_eq_nil_of_le h, nil_append, field]

theorem field_word_self (x : BitVec (8 * n)) : field n 0 (word x) = x := by
  simpa using field_word x []

def words {n : ℕ} (l : List (BitVec (8 * n))) : List UInt8 := l.flatMap word

def fields (n off cnt : ℕ) (p : List UInt8) : List (BitVec (8 * n)) :=
  (List.range cnt).map fun i => field n (off + n * i) p

@[simp] theorem length_words (l : List (BitVec (8 * n))) : (words l).length = n * l.length := by
  induction l with
  | nil => rfl
  | cons x l ih =>
    rw [words, flatMap_cons, length_append, length_word, ← words, ih, length_cons]
    ring

theorem fields_append {n off cnt : ℕ} {l : List UInt8} (p : List UInt8) (h : l.length ≤ off) :
    fields n off cnt (l ++ p) = fields n (off - l.length) cnt p := by
  refine map_congr_left fun i _ => ?_
  rw [field_append p (h.trans (Nat.le_add_right _ _)), Nat.sub_add_comm h]

theorem fields_words (l : List (BitVec (8 * n))) (p : List UInt8) :
    fields n 0 l.length (words l ++ p) = l := by
  induction l with
  | nil => rfl
  | cons x l ih =>
    rw [fields, length_cons, range_succ_eq_map, map_cons, map_map, words,
      flatMap_cons, append_assoc, ← words]
    congr 1
    · rw [Nat.mul_zero, Nat.add_zero, field_word]
    · calc
        _ = fields n n l.length (word x ++ (words l ++ p)) := by
          refine map_congr_left fun i _ => ?_
          rw [Function.comp_apply, Nat.zero_add, Nat.mul_succ, Nat.add_comm]
        _ = l := by rw [fields_append _ (length_word x).le, length_word, Nat.sub_self, ih]

theorem fields_words_self (l : List (BitVec (8 * n))) : fields n 0 l.length (words l) = l := by
  simpa using fields_words l []

/-! ## Byte-wise order -/

/-- Strings with fields of a common length in front are compared by these fields first. -/
theorem append_lt_append_iff {x y xs ys : List UInt8} (h : x.length = y.length) :
    x ++ xs < y ++ ys ↔ x < y ∨ x = y ∧ xs < ys := by
  induction x generalizing y with
  | nil =>
    obtain rfl : y = [] := length_eq_zero_iff.1 h.symm
    simp
  | cons a x ih =>
    cases y with
    | nil => cases h
    | cons b y =>
      rw [cons_append, cons_append, cons_lt_cons_iff, cons_lt_cons_iff,
        ih (Nat.succ.inj h), List.cons.injEq]
      tauto

/-- Words in big-endian order are compared as numbers. -/
theorem reverse_le_lt_iff {n x y : ℕ} (hx : x < 256 ^ n) (hy : y < 256 ^ n) :
    (le n x).reverse < (le n y).reverse ↔ x < y := by
  induction n generalizing x y with
  | zero =>
    have : x = y := by simp at hx hy; omega
    simp [le, this]
  | succ n ih =>
    rw [pow_succ] at hx hy
    have hx' : x / 256 < 256 ^ n := by omega
    have hy' : y / 256 < 256 ^ n := by omega
    have heq : (le n (x / 256)).reverse = (le n (y / 256)).reverse ↔ x / 256 = y / 256 := by
      rw [reverse_inj]
      constructor
      · intro h
        rw [← ofLe_le hx', ← ofLe_le hy', h]
      · exact fun h => by rw [h]
    have hbyte : UInt8.ofNat x < UInt8.ofNat y ↔ x % 256 < y % 256 := by
      rw [UInt8.lt_iff_toNat_lt, UInt8.toNat_ofNat', UInt8.toNat_ofNat']
    rw [le, le, reverse_cons, reverse_cons, append_lt_append_iff (by simp),
      ih hx' hy', heq, cons_lt_cons_iff]
    simp only [hbyte, not_lt_nil, and_false, or_false]
    omega

end Felis.Bytes
