import Mathlib.Tactic

/-!
# Words as sets of bits

A 64-bit word stands for the set of the positions of its bits (`bits`). Setting and clearing a bit
inserts and erases a position, `popcount` is the size of the set, and the two scans find its least
element and the least position outside of it.
-/

namespace Felis.Bits

/-- The positions of the bits that are set. -/
def bits (w : ℕ) : Finset ℕ := (Finset.range 64).filter fun i => w.testBit i = true

/-- `__builtin_popcountll(w)`. -/
def popcount (w : ℕ) : ℕ := (bits w).card

/-- `__builtin_ffsll(w) - 1`, where `none` stands for `-1`. -/
def lowestSet (w : ℕ) : Option ℕ := (List.range 64).find? fun i => w.testBit i

variable {w i j : ℕ}

theorem mem_bits : i ∈ bits w ↔ i < 64 ∧ w.testBit i = true := by
  simp [bits]

theorem lowestSet_mem (h : lowestSet w = some i) : i ∈ bits w := by
  refine mem_bits.2 ⟨?_, List.find?_some h⟩
  simpa using List.mem_of_find?_eq_some h

theorem lowestSet_eq_none : lowestSet w = none ↔ bits w = ∅ := by
  rw [lowestSet, List.find?_eq_none, Finset.eq_empty_iff_forall_notMem]
  exact forall_congr' fun i => by rw [mem_bits, List.mem_range]; tauto

theorem lowestSet_le (h : lowestSet w = some i) (hj : j ∈ bits w) : i ≤ j := by
  obtain ⟨-, -, hbelow⟩ := List.find?_range_eq_some.1 h
  by_contra hlt
  simpa [(mem_bits.1 hj).2] using hbelow j (not_le.1 hlt)

/-! ## Fixed-width words

A mark is `1 << i` of a 32-bit `int`, which is widened with its sign: the mark for 31 has all the
bits from 31 on.
-/

/-- `1 << i`, widened to 64 bits. -/
def mark (i : ℕ) : BitVec 64 := (1#32 <<< i).signExtend 64

/-- `~(1 << i)`, widened to 64 bits. -/
def unmark (i : ℕ) : BitVec 64 := (~~~(1#32 <<< i)).signExtend 64

theorem getLsbD_mark : ∀ i < 32, ∀ j < 64,
    (mark i).getLsbD j = decide (i = j ∨ i = 31 ∧ 31 ≤ j) := by
  decide +kernel

theorem getLsbD_unmark : ∀ i < 32, ∀ j < 64,
    (unmark i).getLsbD j = !decide (i = j ∨ i = 31 ∧ 31 ≤ j) := by
  decide +kernel

theorem mem_bits_toNat {w : BitVec 64} : i ∈ bits w.toNat ↔ w.getLsbD i = true := by
  rw [mem_bits, BitVec.testBit_toNat]
  exact ⟨And.right, fun h => ⟨BitVec.lt_of_getLsbD h, h⟩⟩

/-- The lowest bit of a word that has one. -/
theorem exists_lowestSet {w : BitVec 64} (h : w ≠ 0) :
    ∃ i, lowestSet w.toNat = some i ∧ w.getLsbD i = true ∧ ∀ j, w.getLsbD j = true → i ≤ j := by
  have hsome : lowestSet w.toNat ≠ none := fun hnone => h <| by
    rw [lowestSet_eq_none, Finset.eq_empty_iff_forall_notMem] at hnone
    apply BitVec.eq_of_getLsbD_eq
    intro j _
    simpa using fun hj => hnone j (mem_bits_toNat.2 hj)
  obtain ⟨i, hi⟩ := Option.ne_none_iff_exists'.1 hsome
  exact ⟨i, hi, mem_bits_toNat.1 (lowestSet_mem hi),
    fun j hj => lowestSet_le hi (mem_bits_toNat.2 hj)⟩

end Felis.Bits
