import Mathlib.Data.List.Shortlex

/-!
# Views of byte strings

A `VarStrView` holds an address and a length in one word. The constructor packs 16 bits of length,
but `length` takes only 8 of them out again. The operators are those of the byte strings that the
views show, the shorter ones first (`lt_iff`, `eq_iff`), but only views of at most 255 bytes show
what they were made for (`view_faithful`). Longer strings are cut: two different strings of 256
bytes are equal (`view_truncates`).
-/

namespace Felis.Util

open List

structure VarStrView where
  w : BitVec 64

abbrev ByteMemory : Type := BitVec 64 → UInt8

/-- The `n` bytes from an address on. -/
def strAt (mem : ByteMemory) : BitVec 64 → ℕ → List UInt8
  | _, 0 => []
  | p, n + 1 => mem p :: strAt mem (p + 1) n

/-- The sign of what `memcmp` returns. -/
def memcmp (mem : ByteMemory) : BitVec 64 → BitVec 64 → ℕ → Ordering
  | _, _, 0 => .eq
  | p, q, n + 1 =>
    if mem p < mem q then .lt else if mem q < mem p then .gt else memcmp mem (p + 1) (q + 1) n

namespace VarStrView

def new (len : BitVec 16) (data : BitVec 64) : VarStrView := ⟨data <<< 16 ||| len.setWidth 64⟩

def length (v : VarStrView) : BitVec 16 := (0x00ff#64 &&& v.w).setWidth 16

def data (v : VarStrView) : BitVec 64 := v.w >>> 16

def lt (mem : ByteMemory) (v rhs : VarStrView) : Bool :=
  if v.length = rhs.length then memcmp mem v.data rhs.data v.length.toNat = .lt
  else v.length < rhs.length

def eq (mem : ByteMemory) (v rhs : VarStrView) : Bool :=
  if v.length ≠ rhs.length then false
  else memcmp mem v.data rhs.data v.length.toNat = .eq

/-- The bytes that the view shows. -/
def str (mem : ByteMemory) (v : VarStrView) : List UInt8 := strAt mem v.data v.length.toNat

/-- The view has been made for a string, which is at its address. -/
def Shows (mem : ByteMemory) (v : VarStrView) (s : List UInt8) : Prop :=
  ∃ data : BitVec 64, data.toNat < 2 ^ 48 ∧ v = new (BitVec.ofNat 16 s.length) data ∧
    strAt mem data s.length = s

end VarStrView

/-! ## `memcmp` -/

@[simp] theorem length_strAt (mem : ByteMemory) (p : BitVec 64) (n : ℕ) :
    (strAt mem p n).length = n := by
  induction n generalizing p with
  | zero => rfl
  | succ n ih => rw [strAt, length_cons, ih]

theorem memcmp_eq (mem : ByteMemory) (p q : BitVec 64) (n : ℕ) :
    memcmp mem p q n = .eq ↔ strAt mem p n = strAt mem q n := by
  induction n generalizing p q with
  | zero => exact iff_of_true rfl rfl
  | succ n ih =>
    rw [memcmp, strAt, strAt, cons.injEq]
    rcases Std.lt_trichotomy (mem p) (mem q) with h | h | h
    · simp [h, UInt8.ne_of_lt h]
    · simp [h, ih]
    · simp [h, (UInt8.ne_of_lt h).symm, UInt8.lt_asymm h]

theorem memcmp_lt (mem : ByteMemory) (p q : BitVec 64) (n : ℕ) :
    memcmp mem p q n = .lt ↔ strAt mem p n < strAt mem q n := by
  induction n generalizing p q with
  | zero => simp [memcmp, strAt]
  | succ n ih =>
    rw [memcmp, strAt, strAt, cons_lt_cons_iff]
    rcases Std.lt_trichotomy (mem p) (mem q) with h | h | h
    · simp [h]
    · simp [h, ih]
    · simp [h, (UInt8.ne_of_lt h).symm, UInt8.lt_asymm h]

/-! ## The packed word -/

namespace VarStrView

variable {data : BitVec 64}

theorem toNat_new (len : BitVec 16) (hdata : data.toNat < 2 ^ 48) :
    (new len data).w.toNat = data.toNat * 2 ^ 16 + len.toNat := by
  have hlen := len.isLt
  have hshift : (data <<< 16).toNat = data.toNat * 2 ^ 16 := by
    rw [BitVec.toNat_shiftLeft, Nat.shiftLeft_eq, Nat.mod_eq_of_lt (by omega)]
  have hwidth : (len.setWidth 64).toNat = len.toNat := by
    rw [BitVec.toNat_setWidth, Nat.mod_eq_of_lt (by omega)]
  rw [new, BitVec.toNat_or, hshift, hwidth, mul_comm, ← Nat.two_pow_add_eq_or_of_lt hlen]

theorem data_new (len : BitVec 16) (hdata : data.toNat < 2 ^ 48) : (new len data).data = data := by
  have hlen := len.isLt
  apply BitVec.eq_of_toNat_eq
  rw [VarStrView.data, BitVec.toNat_ushiftRight, toNat_new len hdata, Nat.shiftRight_eq_div_pow]
  omega

theorem toNat_length_new (len : BitVec 16) (hdata : data.toNat < 2 ^ 48) :
    (new len data).length.toNat = len.toNat % 256 := by
  have hmask : ((0x00ff#64 &&& (new len data).w).setWidth 16).toNat =
      (new len data).w.toNat % 2 ^ 8 % 2 ^ 16 := by
    rw [BitVec.toNat_setWidth, BitVec.toNat_and, Nat.and_comm]
    exact congrArg (· % 2 ^ 16) (Nat.and_two_pow_sub_one_eq_mod _ 8)
  rw [length, hmask, toNat_new len hdata]
  omega

/-! ## What the views show -/

theorem eq_iff (mem : ByteMemory) (v w : VarStrView) :
    v.eq mem w = true ↔ v.str mem = w.str mem := by
  unfold VarStrView.eq VarStrView.str
  by_cases heq : v.length = w.length
  · simp [heq, memcmp_eq]
  · have hne : strAt mem v.data v.length.toNat ≠ strAt mem w.data w.length.toNat := fun h =>
      heq (BitVec.eq_of_toNat_eq (by simpa using congrArg List.length h))
    simp [heq, hne]

theorem lt_iff (mem : ByteMemory) (v w : VarStrView) :
    v.lt mem w = true ↔ Shortlex (· < ·) (v.str mem) (w.str mem) := by
  rw [VarStrView.lt, shortlex_def, VarStrView.str, VarStrView.str, length_strAt, length_strAt]
  by_cases heq : v.length = w.length
  · simp only [heq, if_true, decide_eq_true_eq, memcmp_lt, lt_irrefl, false_or, true_and]
    rfl
  · have hne : v.length.toNat ≠ w.length.toNat := fun h => heq (BitVec.eq_of_toNat_eq h)
    simp [heq, hne, BitVec.lt_def]

theorem str_new (mem : ByteMemory) (len : BitVec 16) (hdata : data.toNat < 2 ^ 48) :
    (new len data).str mem = strAt mem data (len.toNat % 256) := by
  rw [VarStrView.str, data_new len hdata, toNat_length_new len hdata]

section

variable {mem : ByteMemory} {v w : VarStrView} {s s' : List UInt8}

theorem Shows.str_eq (h : v.Shows mem s) (h255 : s.length ≤ 255) : v.str mem = s := by
  obtain ⟨data, hdata, rfl, hs⟩ := h
  rw [str_new mem _ hdata, BitVec.toNat_ofNat, Nat.mod_eq_of_lt (by omega),
    Nat.mod_eq_of_lt (by omega), hs]

/-- Views of strings of one length are compared by their bytes. -/
theorem Shows.lt_eq (h : v.Shows mem s) (h' : w.Shows mem s') (hlen : s.length = s'.length)
    (h255 : s.length ≤ 255) : v.lt mem w = decide (s < s') := by
  rw [Bool.eq_iff_iff, decide_eq_true_iff, lt_iff, h.str_eq h255, h'.str_eq (hlen ▸ h255),
    shortlex_def]
  simp only [hlen, lt_irrefl, false_or, true_and]
  rfl

end

theorem shortlex_strictTotalOrder : IsStrictTotalOrder (List UInt8) (Shortlex (· < ·)) where
  irrefl s h := by
    rcases shortlex_def.1 h with h | h
    · exact lt_irrefl _ h
    · exact List.lt_irrefl s h.2
  trans s t u hst htu := by
    rw [shortlex_def] at hst htu ⊢
    rcases hst with hst | ⟨hst, hst'⟩
    · rcases htu with htu | ⟨htu, -⟩
      · exact .inl (hst.trans htu)
      · exact .inl (hst.trans_eq htu)
    · rcases htu with htu | ⟨htu, htu'⟩
      · exact .inl (hst.trans_lt htu)
      · exact .inr ⟨hst.trans htu, List.lt_trans hst' htu'⟩
  trichotomous := Shortlex.trichotomous.trichotomous

/-- **When views are faithful.** Two views give their lengths and their addresses back, and the
operators are the equality and the strict total order of the byte strings, if and only if the
strings have at most 255 bytes. -/
theorem view_faithful (mem : ByteMemory) (len len' : BitVec 16) (data data' : BitVec 64)
    (hdata : data.toNat < 2 ^ 48) (hdata' : data'.toNat < 2 ^ 48) :
    ((new len data).length = len ∧ (new len' data').length = len' ∧
      (new len data).data = data ∧ (new len' data').data = data' ∧
      ((new len data).eq mem (new len' data') = true ↔
        strAt mem data len.toNat = strAt mem data' len'.toNat) ∧
      ((new len data).lt mem (new len' data') = true ↔
        Shortlex (· < ·) (strAt mem data len.toNat) (strAt mem data' len'.toNat)) ∧
      IsStrictTotalOrder (List UInt8) (Shortlex (· < ·))) ↔
    len.toNat ≤ 255 ∧ len'.toNat ≤ 255 := by
  have hmod := toNat_length_new len hdata
  have hmod' := toNat_length_new len' hdata'
  constructor
  · rintro ⟨hlen, hlen', -⟩
    rw [hlen] at hmod
    rw [hlen'] at hmod'
    omega
  · rintro ⟨hlen, hlen'⟩
    refine ⟨BitVec.eq_of_toNat_eq (by omega), BitVec.eq_of_toNat_eq (by omega), data_new len hdata,
      data_new len' hdata', ?_, ?_, shortlex_strictTotalOrder⟩
    · rw [eq_iff, str_new mem len hdata, str_new mem len' hdata', Nat.mod_eq_of_lt (by omega),
        Nat.mod_eq_of_lt (by omega)]
    · rw [lt_iff, str_new mem len hdata, str_new mem len' hdata', Nat.mod_eq_of_lt (by omega),
        Nat.mod_eq_of_lt (by omega)]

def oneByte : ByteMemory := fun p => if p = 0x2000#64 then 1 else 0

theorem view_faithful_twoBytes :
    (new 2 0x1000#64).lt oneByte (new 2 0x2000#64) = true ∧
      Shortlex (· < ·) (strAt oneByte 0x1000#64 2) (strAt oneByte 0x2000#64 2) := by
  have hlt : (new 2 0x1000#64).lt oneByte (new 2 0x2000#64) = true := by decide
  have hfaithful := (view_faithful oneByte 2 2 0x1000#64 0x2000#64 (by decide) (by decide)).2
    (by decide)
  exact ⟨hlt, hfaithful.2.2.2.2.2.1.1 hlt⟩

/-- A string of 256 bytes has the length 0, and is equal to any other one. -/
theorem view_truncates :
    (new 256 0x1000#64).length = 0 ∧
      (new 256 0x1000#64).eq oneByte (new 256 0x2000#64) = true ∧
      strAt oneByte 0x1000#64 256 ≠ strAt oneByte 0x2000#64 256 := by
  refine ⟨by decide, by decide, fun h => ?_⟩
  exact absurd (List.cons.inj h).1 (by decide)

end VarStrView

end Felis.Util
