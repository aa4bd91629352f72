import Felis.Foundations.Bytes
import Felis.Foundations.Cells

/-!
# Free lists in memory

A memory is a map from addresses to bytes, and a word is 8 bytes of it. A free list is threaded
through the pieces of memory that it holds: the first word of a piece is the address of the next
piece, and 0 ends the list. `Chain m p as` says that the list that starts at `p` holds the pieces at
`as`, in this order.

Two words that share no byte are `Apart`. A store changes no word apart from it
(`load_store_of_apart`), and a chain only depends on the words at its pieces (`Chain.congr`). The
edits of a chain are `Chain.push` and `Chain.pop` at its head, and `Chain.splice` at its tail.
-/

namespace Felis.FreeList

open Bytes Cells

/-! ## Words -/

/-- The bytes at all addresses. -/
abbrev Memory := ℕ → UInt8

def load (m : Memory) (a : ℕ) : ℕ := ofLe (seg m a 8)

def store (m : Memory) (a v : ℕ) : Memory := fun b =>
  if a ≤ b ∧ b < a + 8 then UInt8.ofNat (v / 256 ^ (b - a)) else m b

/-- The words at the two addresses share no byte. -/
def Apart (a b : ℕ) : Prop := a + 8 ≤ b ∨ b + 8 ≤ a

instance (a b : ℕ) : Decidable (Apart a b) := inferInstanceAs (Decidable (_ ∨ _))

variable {m m' : Memory} {a b p q v x t : ℕ} {as bs : List ℕ}

theorem Apart.symm (h : Apart a b) : Apart b a := Or.symm h

theorem seg_store_self : seg (store m a v) a 8 = le 8 v := by
  have hbyte : ∀ i < 8, store m a v (a + i) = UInt8.ofNat (v / 256 ^ i) := fun i hi => by
    rw [store, if_pos ⟨Nat.le_add_right a i, Nat.add_lt_add_left hi a⟩, Nat.add_sub_cancel_left]
  have hseg : seg (store m a v) a 8 = seg (fun i => UInt8.ofNat (v / 256 ^ i)) 0 8 :=
    seg_congr fun i hi => by rw [hbyte i hi, Nat.zero_add]
  rw [hseg]
  simp [seg, le, List.range_succ, Nat.div_div_eq_div_mul]

theorem load_store_self (hv : v < 2 ^ 64) : load (store m a v) a = v := by
  rw [load, seg_store_self, ofLe_le (hv.trans_eq (by norm_num))]

theorem load_congr (h : ∀ i < 8, m' (a + i) = m (a + i)) : load m' a = load m a := by
  rw [load, load, seg_congr h]

theorem load_store_of_apart (h : Apart a b) : load (store m a v) b = load m b := by
  refine load_congr fun i hi => if_neg ?_
  unfold Apart at h
  omega

/-- The two memories agree outside of the bytes from `lo` up to `hi`. -/
def SameOutside (lo hi : ℕ) (m m' : Memory) : Prop := ∀ b, b < lo ∨ hi ≤ b → m' b = m b

namespace SameOutside

variable {lo hi lo' hi' : ℕ}

theorem refl (m : Memory) : SameOutside lo hi m m := fun _ _ => rfl

theorem mono (h : SameOutside lo hi m m') (hlo : lo' ≤ lo) (hhi : hi ≤ hi') :
    SameOutside lo' hi' m m' :=
  fun b hb => h b (by omega)

theorem load_eq (h : SameOutside lo hi m m') (hx : x + 8 ≤ lo ∨ hi ≤ x) : load m' x = load m x :=
  load_congr fun i hi => h (x + i) (by omega)

theorem store (m : Memory) (a v : ℕ) : SameOutside a (a + 8) m (store m a v) :=
  fun b hb => if_neg (by omega)

theorem update (m : Memory) (a : ℕ) (c : UInt8) :
    SameOutside a (a + 1) m (Function.update m a c) :=
  fun b hb => Function.update_of_ne (by omega) _ _

end SameOutside

/-! ## Chains -/

/-- The list that starts at `p` holds the pieces at the addresses `as`. -/
def Chain (m : Memory) : ℕ → List ℕ → Prop
  | p, [] => p = 0
  | p, a :: as => p = a ∧ a ≠ 0 ∧ Chain m (load m a) as

@[simp] theorem chain_nil : Chain m p [] ↔ p = 0 := Iff.rfl

theorem chain_cons : Chain m p (a :: as) ↔ p = a ∧ a ≠ 0 ∧ Chain m (load m a) as := Iff.rfl

namespace Chain

theorem congr (h : Chain m p as) (hsame : ∀ a ∈ as, load m' a = load m a) : Chain m' p as := by
  induction as generalizing p with
  | nil => exact h
  | cons a as ih =>
    refine ⟨h.1, h.2.1, ?_⟩
    rw [hsame a List.mem_cons_self]
    exact ih h.2.2 fun b hb => hsame b (List.mem_cons_of_mem a hb)

/-- A store apart from the pieces of a chain keeps it. -/
theorem store (h : Chain m p as) (hx : ∀ a ∈ as, Apart x a) : Chain (store m x v) p as :=
  h.congr fun a ha => load_store_of_apart (hx a ha)

theorem eq_zero_iff (h : Chain m p as) : p = 0 ↔ as = [] := by
  cases as with
  | nil => simpa using h
  | cons a as =>
    obtain ⟨rfl, hp, -⟩ := h
    simp [hp]

theorem unique (h : Chain m p as) (h' : Chain m p bs) : as = bs := by
  induction as generalizing p bs with
  | nil => exact (h'.eq_zero_iff.1 h).symm
  | cons a as ih =>
    obtain ⟨rfl, hp, hrest⟩ := h
    cases bs with
    | nil => exact absurd h' hp
    | cons b bs =>
      obtain ⟨rfl, -, hrest'⟩ := h'
      rw [ih hrest hrest']

theorem pop (h : Chain m p (a :: as)) : p = a ∧ Chain m (load m p) as := by
  obtain ⟨rfl, -, hrest⟩ := h
  exact ⟨rfl, hrest⟩

/-- The piece at `x` is put in front of the chain. -/
theorem push (h : Chain m p as) (hx : x ≠ 0) (hp : p < 2 ^ 64) (hapart : ∀ a ∈ as, Apart x a) :
    Chain (FreeList.store m x p) x (x :: as) := by
  refine ⟨rfl, hx, ?_⟩
  rw [load_store_self hp]
  exact h.store hapart

/-- The last piece of a chain is made to point to the first piece of another one. -/
theorem splice (h : Chain m p (as ++ [t])) (hq : Chain m q bs) (hlt : q < 2 ^ 64)
    (has : ∀ a ∈ as, Apart t a) (hbs : ∀ b ∈ bs, Apart t b) :
    Chain (FreeList.store m t q) p (as ++ [t] ++ bs) := by
  induction as generalizing p with
  | nil =>
    obtain ⟨rfl, ht, -⟩ := h
    refine ⟨rfl, ht, ?_⟩
    rw [load_store_self hlt]
    exact hq.store hbs
  | cons a as ih =>
    obtain ⟨rfl, hp, hrest⟩ := h
    refine ⟨rfl, hp, ?_⟩
    rw [load_store_of_apart (has p List.mem_cons_self)]
    exact ih hrest fun b hb => has b (List.mem_cons_of_mem p hb)

end Chain

/-! ## Threading a row of pieces -/

/-- Writes the words `g 0`, …, `g (n - 1)` at the addresses `f 0`, …, `f (n - 1)`. -/
def storeAll (f g : ℕ → ℕ) (m : Memory) : ℕ → Memory
  | 0 => m
  | n + 1 => store (storeAll f g m n) (f n) (g n)

variable {f g : ℕ → ℕ} {n : ℕ}

theorem load_storeAll_of_apart (h : ∀ i < n, Apart (f i) b) :
    load (storeAll f g m n) b = load m b := by
  induction n with
  | zero => rfl
  | succ n ih =>
    rw [storeAll, load_store_of_apart (h n n.lt_succ_self)]
    exact ih fun i hi => h i (hi.trans n.lt_succ_self)

theorem SameOutside.storeAll {lo hi : ℕ} (h : ∀ i < n, lo ≤ f i ∧ f i + 8 ≤ hi) :
    SameOutside lo hi m (storeAll f g m n) := by
  induction n with
  | zero => exact .refl m
  | succ n ih =>
    intro b hb
    have hn := h n n.lt_succ_self
    rw [FreeList.storeAll, SameOutside.store _ (f n) (g n) b (by omega)]
    exact ih (fun i hi => h i (hi.trans n.lt_succ_self)) b hb

theorem load_storeAll (hapart : ∀ i j, i < j → j < n → Apart (f i) (f j))
    (hg : ∀ i < n, g i < 2 ^ 64) {i : ℕ} (hi : i < n) : load (storeAll f g m n) (f i) = g i := by
  induction n with
  | zero => exact absurd hi i.not_lt_zero
  | succ n ih =>
    rw [storeAll]
    rcases Nat.lt_succ_iff_lt_or_eq.1 hi with hlt | rfl
    · rw [load_store_of_apart (hapart i n hlt n.lt_succ_self).symm]
      exact ih (fun k j hkj hj => hapart k j hkj (hj.trans n.lt_succ_self))
        (fun k hk => hg k (hk.trans n.lt_succ_self)) hlt
    · exact load_store_self (hg i hi)

/-- When each piece of a row points to the next one, and the last to nothing, the row is a chain. -/
theorem chain_seg (hf : ∀ i < n, f i ≠ 0)
    (hlink : ∀ i < n, load m (f i) = if i + 1 = n then 0 else f (i + 1)) :
    Chain m (if n = 0 then 0 else f 0) (seg f 0 n) := by
  suffices hrow : ∀ k lo, lo + k = n → Chain m (if k = 0 then 0 else f lo) (seg f lo k) from
    hrow n 0 (Nat.zero_add n)
  intro k
  induction k with
  | zero => exact fun lo _ => rfl
  | succ k ih =>
    intro lo hlo
    have hlt : lo < n := by omega
    rw [seg_cons, if_neg k.succ_ne_zero, chain_cons]
    refine ⟨rfl, hf lo hlt, ?_⟩
    have hnext : (if lo + 1 = n then 0 else f (lo + 1)) = if k = 0 then 0 else f (lo + 1) := by
      congr 1
      exact propext ⟨fun h => by omega, fun h => by omega⟩
    rw [hlink lo hlt, hnext]
    exact ih (lo + 1) (by omega)

end Felis.FreeList
