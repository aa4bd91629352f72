import Mathlib.Tactic

/-!
# Machine integers

The values that an integer has when it is kept in `w` bits, without a sign and in two's complement.
Inside of the range of the type nothing changes. `align` is the rounding up of `util::Align`.
-/

namespace Felis.MachineInts

variable {w : ℕ} {n : ℤ}

/-- The value of an unsigned integer with `w` bits. -/
def unsigned (w : ℕ) (n : ℤ) : ℕ := (n % 2 ^ w).toNat

/-- The value of a signed integer with `w` bits. -/
def signed (w : ℕ) (n : ℤ) : ℤ := Int.bmod n (2 ^ w)

@[simp] theorem unsigned_natCast (w n : ℕ) : unsigned w n = n % 2 ^ w := by
  unfold unsigned
  exact_mod_cast Int.toNat_natCast (n % 2 ^ w)

theorem signed_eq (hlo : -2 ^ w ≤ 2 * n) (hhi : 2 * n < 2 ^ w) : signed w n = n := by
  have hcast : (((2 ^ w : ℕ)) : ℤ) = 2 ^ w := by norm_cast
  unfold signed
  apply Int.bmod_eq_of_le <;> omega

theorem signed_natCast {m : ℕ} (h : 2 * m < 2 ^ w) : signed w m = m := by
  have hpos : (0 : ℤ) < 2 ^ w := by positivity
  have hcast : 2 * (m : ℤ) < 2 ^ w := by exact_mod_cast h
  exact signed_eq (by omega) hcast

/-- `util::Align(x, a)` on `size_t`. -/
def align (x : ℕ) (a : ℕ := 16) : ℕ := a * ((x + (2 ^ 64 - 1)) % 2 ^ 64 / a + 1) % 2 ^ 64

theorem align_eq {x a : ℕ} (hx : 0 < x) (h : x + a ≤ 2 ^ 64) :
    align x a = a * ((x - 1) / a + 1) := by
  have hwrap : (x + (2 ^ 64 - 1)) % 2 ^ 64 = x - 1 := by omega
  have hle := Nat.mul_div_le (x - 1) a
  rw [align, hwrap, Nat.mod_eq_of_lt (by rw [Nat.mul_succ]; omega)]

theorem dvd_align (x : ℕ) {a : ℕ} (ha : a ∣ 2 ^ 64) : a ∣ align x a := by
  rw [align, Nat.dvd_mod_iff ha]
  exact Nat.dvd_mul_right ..

/-- For 0 the sum wraps around to 0. -/
theorem align_zero {a : ℕ} (ha : a ∣ 2 ^ 64) : align 0 a = 0 := by
  obtain ⟨k, hk⟩ := ha
  have hk0 : 0 < k := Nat.pos_of_ne_zero fun h => by simp [h] at hk
  have hdiv : (2 ^ 64 - 1) / a + 1 = k := by
    rw [hk, Nat.mul_sub_div 0 a k (by omega), Nat.zero_div]
    omega
  rw [align, Nat.zero_add, Nat.mod_eq_of_lt (by decide : 2 ^ 64 - 1 < 2 ^ 64), hdiv, ← hk,
    Nat.mod_self]

theorem le_align {x a : ℕ} (ha : a ∣ 2 ^ 64) (h : x + a ≤ 2 ^ 64) :
    x ≤ align x a ∧ align x a < x + a := by
  have hpos : 0 < a := Nat.pos_of_dvd_of_pos ha (by decide)
  rcases Nat.eq_zero_or_pos x with rfl | hx
  · rw [align_zero ha]
    omega
  · have hdiv := Nat.div_add_mod (x - 1) a
    have hmod := Nat.mod_lt (x - 1) hpos
    rw [align_eq hx h, Nat.mul_succ]
    omega

end Felis.MachineInts
