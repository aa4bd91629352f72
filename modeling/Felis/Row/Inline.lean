import Mathlib.Tactic
import Felis.Foundations.Runs
import Felis.Foundations.MachineInts

/-!
# Storage inside of a row

An inlined row has 128 bytes of storage behind its first 128 bytes. `inline_used` has a bit for
every 32 bytes of it. `AllocFromInline` counts in units of 32 bytes, but `FreeToInline` in units of
16: it clears the bits of other blocks, or leaves bits of its own block set (`inline_overlaps`). As
long as only the block at the front is freed, with no block in the units that are cleared with it
(`CleanFree`), the storage is sound (`inline_storage`).
-/

namespace Felis.Row.Inline

open Runs MachineInts

/-- `(1 << n) - 1` -/
def mask (n : ℕ) : BitVec 8 := (1#8 <<< n) - 1#8

/-- The place in the row, and the new value of `inline_used`. -/
def allocFromInline (used : BitVec 8) (sz : ℕ) : Option (ℕ × BitVec 8) :=
  if used ≠ 0xFF#8 then
    let sz := align sz 32
    if 128 < sz then none
    else (List.range (4 - (sz >>> 5) + 1)).findSome? fun off =>
      if used &&& (mask (sz >>> 5) <<< off) = 0#8 then
        some (128 + (off <<< 5), used ||| (mask (sz >>> 5) <<< off))
      else none
  else none

def freeToInline (used : BitVec 8) (p sz : ℕ) : BitVec 8 :=
  if used ≠ 0xFF#8 then
    let sz := align sz 16
    if 128 < sz then used else used &&& ~~~(mask (sz >>> 4) <<< ((p - 128) >>> 4))
  else used

/-- A block of the row: its place relative to the row, and the size it was asked for. -/
structure Block where
  pos : ℕ
  size : ℕ
  deriving DecidableEq

/-- The `i`-th unit of 32 bytes begins inside of the block. -/
def Block.Covers (b : Block) (i : ℕ) : Prop := b.pos ≤ 128 + 32 * i ∧ 128 + 32 * i < b.pos + b.size

instance (b : Block) (i : ℕ) : Decidable (b.Covers i) := inferInstanceAs (Decidable (_ ∧ _))

def Block.Apart (a b : Block) : Prop := a.pos + a.size ≤ b.pos ∨ b.pos + b.size ≤ a.pos

/-- An inlined row. The live blocks are no part of the program. -/
structure State where
  inlineUsed : BitVec 8
  live : List Block
  deriving DecidableEq

/-- `NewInline` -/
def State.start : State := ⟨0, []⟩

inductive Event
  | alloc (sz : ℕ)
  | free (b : Block)
  deriving DecidableEq

def State.step (s : State) : Event → Option State
  | .alloc sz =>
    match allocFromInline s.inlineUsed sz with
    | some (p, used) => some ⟨used, ⟨p, sz⟩ :: s.live⟩
    | none => some s
  | .free b =>
    if b ∈ s.live then some ⟨freeToInline s.inlineUsed b.pos b.size, s.live.erase b⟩ else none

/-- An allocation has a size from 1 to 128. A block that is freed is the first one, and behind it
there is none that begins within as many units as it has pieces of 16 bytes. -/
def CleanFree (s : State) : Event → Prop
  | .alloc sz => 1 ≤ sz ∧ sz ≤ 128
  | .free b => b.pos = 128 ∧ ∀ i < 8, (b.size - 1) / 32 < i → i ≤ (b.size - 1) / 16 →
      s.inlineUsed.getLsbD i = false

instance (s : State) : ∀ e, Decidable (CleanFree s e)
  | .alloc _ => inferInstanceAs (Decidable (_ ∧ _))
  | .free _ => inferInstanceAs (Decidable (_ ∧ ∀ i < 8, _))

/-- The block is in the storage and aligned. -/
structure Block.Placed (b : Block) : Prop where
  inside : 128 ≤ b.pos ∧ b.pos + b.size ≤ 256
  aligned : b.pos % 32 = 0
  pos : 1 ≤ b.size

/-- The bits that are set are those of the live blocks. -/
structure Inv (s : State) : Prop where
  placed : ∀ b ∈ s.live, b.Placed
  apart : s.live.Pairwise Block.Apart
  bits : ∀ i < 8, s.inlineUsed.getLsbD i = true ↔ ∃ b ∈ s.live, b.Covers i

/-! ## Masks -/

theorem getLsbD_mask : ∀ n ≤ 8, ∀ off ≤ 4, ∀ i < 8,
    (mask n <<< off).getLsbD i = decide (off ≤ i ∧ i < off + n) := by decide

theorem and_mask_eq_zero (used : BitVec 8) {n off : ℕ} (hn : n ≤ 8) (hoff : off ≤ 4) :
    used &&& (mask n <<< off) = 0#8 ↔ ∀ i < 8, off ≤ i ∧ i < off + n → used.getLsbD i = false := by
  constructor
  · intro h i hi hin
    have hbit := congrArg (BitVec.getLsbD · i) h
    simpa [getLsbD_mask n hn off hoff i hi, hin] using hbit
  · intro h
    refine BitVec.eq_of_getLsbD_eq fun i hi => ?_
    rw [BitVec.getLsbD_and, getLsbD_mask n hn off hoff i hi]
    by_cases hin : off ≤ i ∧ i < off + n
    · simp [h i hi hin]
    · simp [hin]

section

variable {s t : State} {sz : ℕ} {b : Block}

theorem Inv.used_ne (h : Inv s) : s.inlineUsed ≠ 0xFF#8 := by
  intro hff
  obtain ⟨b, hb, hcov⟩ := (h.bits 7 (by decide)).1 (by rw [hff]; decide)
  have := (h.placed b hb).inside
  unfold Block.Covers at hcov
  omega

theorem Inv.allocFromInline (h : Inv s) (hsz : 1 ≤ sz ∧ sz ≤ 128) :
    allocFromInline s.inlineUsed sz = (List.range (4 - (sz - 1) / 32)).findSome? fun off =>
      if s.inlineUsed &&& (mask ((sz - 1) / 32 + 1) <<< off) = 0#8 then
        some (128 + (off <<< 5), s.inlineUsed ||| (mask ((sz - 1) / 32 + 1) <<< off))
      else none := by
  have hrange : 4 - ((sz - 1) / 32 + 1) + 1 = 4 - (sz - 1) / 32 := by omega
  have hshift : (32 * ((sz - 1) / 32 + 1)) >>> 5 = (sz - 1) / 32 + 1 := by
    rw [Nat.shiftRight_eq_div_pow]
    omega
  rw [Inline.allocFromInline, if_pos h.used_ne, align_eq hsz.1 (by omega)]
  dsimp only
  rw [if_neg (by omega), hshift, hrange]

theorem covers_alloc {off i : ℕ} (hsz : 1 ≤ sz) :
    Block.Covers ⟨128 + off <<< 5, sz⟩ i ↔ off ≤ i ∧ i < off + ((sz - 1) / 32 + 1) := by
  rw [Block.Covers, Nat.shiftLeft_eq]
  dsimp only
  omega

theorem Inv.alloc (h : Inv s) (hsz : 1 ≤ sz ∧ sz ≤ 128) (hs : s.step (.alloc sz) = some t) :
    Inv t := by
  rw [State.step] at hs
  split at hs
  · rename_i p used halloc
    cases hs
    rw [h.allocFromInline hsz, List.findSome?_eq_some_iff] at halloc
    obtain ⟨front, off, back, hrange, hsome, -⟩ := halloc
    have hoff : off < 4 - (sz - 1) / 32 := by
      rw [← List.mem_range, hrange]
      simp
    split_ifs at hsome with hfree
    rw [and_mask_eq_zero _ (by omega) (by omega)] at hfree
    cases hsome
    have hshift : off <<< 5 = 32 * off := by rw [Nat.shiftLeft_eq, Nat.mul_comm]
    -- A block that reaches into the new one covers one of its units.
    have hnew : ∀ b ∈ s.live, Block.Apart ⟨128 + off <<< 5, sz⟩ b := by
      intro b hb
      have hplaced := h.placed b hb
      have hin := hplaced.inside
      have hal := hplaced.aligned
      have hpos := hplaced.pos
      by_contra hno
      have hcover : ∀ i < 8, off ≤ i ∧ i < off + ((sz - 1) / 32 + 1) → ¬b.Covers i := by
        intro i hi hiin hcov
        have hset := (h.bits i hi).2 ⟨b, hb, hcov⟩
        rw [hfree i hi hiin] at hset
        cases hset
      unfold Block.Apart at hno
      unfold Block.Covers at hcover
      rcases Nat.lt_or_ge b.pos (128 + 32 * off) with hlt | hge
      · exact hcover off (by omega) (by omega) (by dsimp only at hno; omega)
      · exact hcover ((b.pos - 128) / 32) (by omega) (by dsimp only at hno; omega) (by omega)
    refine ⟨?_, List.pairwise_cons.2 ⟨hnew, h.apart⟩, fun i hi => ?_⟩
    · intro b hb
      rcases List.mem_cons.1 hb with rfl | hb
      · exact ⟨⟨by dsimp only; omega, by dsimp only; omega⟩, by dsimp only; omega, hsz.1⟩
      · exact h.placed b hb
    · rw [BitVec.getLsbD_or, getLsbD_mask _ (by omega) _ (by omega) i hi, Bool.or_eq_true,
        decide_eq_true_eq, h.bits i hi, ← covers_alloc hsz.1, or_comm]
      simp
  · cases hs
    exact h

/-- Two live blocks do not cover the same unit. -/
theorem Block.Apart.not_covers {a b : Block} (h : a.Apart b) {i : ℕ} (ha : a.Covers i) :
    ¬b.Covers i := by
  unfold Block.Apart at h
  unfold Block.Covers at *
  omega

theorem Inv.nodup (h : Inv s) : s.live.Nodup := by
  refine List.Pairwise.imp_of_mem (fun {a b} ha _ hab => ?_) h.apart
  rintro rfl
  have hpos := (h.placed a ha).pos
  unfold Block.Apart at hab
  omega

/-- A clean free clears the bits of its block, and no others. -/
theorem Inv.freeToInline (h : Inv s) (hb : b ∈ s.live) (hclean : CleanFree s (.free b)) {i : ℕ}
    (hi : i < 8) : (freeToInline s.inlineUsed b.pos b.size).getLsbD i = true ↔
      s.inlineUsed.getLsbD i = true ∧ ¬b.Covers i := by
  obtain ⟨hpos, hnone⟩ := hclean
  have hin := (h.placed b hb).inside
  have hsize := (h.placed b hb).pos
  have hshift : (16 * ((b.size - 1) / 16 + 1)) >>> 4 = (b.size - 1) / 16 + 1 := by
    rw [Nat.shiftRight_eq_div_pow]
    omega
  rw [Inline.freeToInline, if_pos h.used_ne, align_eq hsize (by omega)]
  dsimp only
  rw [if_neg (by omega), hshift, hpos, BitVec.getLsbD_and, BitVec.getLsbD_not,
    getLsbD_mask _ (by omega) _ (by decide) i hi, Block.Covers, hpos]
  have hzero : (128 - 128) >>> 4 = 0 := rfl
  simp only [hzero, hi, decide_true, Bool.true_and, Bool.and_eq_true, Bool.not_eq_true',
    decide_eq_false_iff_not]
  constructor
  · rintro ⟨hset, hout⟩
    exact ⟨hset, by omega⟩
  · rintro ⟨hset, hout⟩
    refine ⟨hset, fun hlt => ?_⟩
    rw [hnone i hi (by omega) (by omega)] at hset
    cases hset

theorem Inv.free (h : Inv s) (hclean : CleanFree s (.free b)) (hs : s.step (.free b) = some t) :
    Inv t := by
  rw [State.step] at hs
  split_ifs at hs with hb
  cases hs
  have hsub := List.erase_sublist (a := b) (l := s.live)
  refine ⟨fun b' hb' => h.placed b' (hsub.subset hb'), h.apart.sublist hsub, fun i hi => ?_⟩
  rw [h.freeToInline hb hclean hi, h.bits i hi]
  constructor
  · rintro ⟨⟨b', hb', hcov⟩, hnot⟩
    have hne : b' ≠ b := fun heq => hnot (heq ▸ hcov)
    exact ⟨b', (List.mem_erase_of_ne hne).2 hb', hcov⟩
  · rintro ⟨b', hb', hcov⟩
    obtain ⟨hne, hb'⟩ := h.nodup.mem_erase_iff.1 hb'
    have hsymm : Std.Symm Block.Apart := ⟨fun _ _ => Or.symm⟩
    have hapart : b'.Apart b := h.apart.forall hb' hb hne
    exact ⟨⟨b', hb', hcov⟩, hapart.not_covers hcov⟩

end

/-- **Storage inside of a row.** When every free is clean, the live blocks are pairwise disjoint,
aligned and inside of the storage, and an allocation that fits a gap between them succeeds. -/
theorem inline_storage (es : List Event) (s : State)
    (hclean : Along State.step CleanFree State.start es)
    (hrun : run State.step State.start es = some s) :
    s.live.Pairwise Block.Apart ∧ (∀ b ∈ s.live, b.Placed) ∧
      ∀ sz p, 1 ≤ sz → sz ≤ 128 → Block.Placed ⟨p, sz⟩ → (∀ b ∈ s.live, Block.Apart ⟨p, sz⟩ b) →
        (allocFromInline s.inlineUsed sz).isSome := by
  have h : Inv s := by
    refine run_invariant (fun s e t h hok hs => ?_) es _ s ?_ hclean hrun
    · cases e with
      | alloc sz => exact h.alloc hok hs
      | free b => exact h.free hok hs
    · refine ⟨fun _ hb => (nomatch hb), .nil, fun i hi => ?_⟩
      simp [State.start]
  refine ⟨h.apart, h.placed, fun sz p hlow hhigh hp hgap => ?_⟩
  have hin := hp.inside
  have hal := hp.aligned
  dsimp only at hin hal
  rw [h.allocFromInline ⟨hlow, hhigh⟩, List.findSome?_isSome_iff]
  refine ⟨(p - 128) / 32, List.mem_range.2 (by omega), ?_⟩
  rw [if_pos, Option.isSome_some]
  refine (and_mask_eq_zero _ (by omega) (by omega)).2 fun i hi hunit => ?_
  rw [← Bool.not_eq_true, h.bits i hi]
  rintro ⟨b, hb, hcov⟩
  refine (hgap b hb).not_covers ?_ hcov
  unfold Block.Covers
  dsimp only
  omega

def smallBlocks : List Event := [.alloc 10, .alloc 60, .free ⟨128, 10⟩, .alloc 20]

theorem inline_storage_smallBlocks : ∃ s, run State.step State.start smallBlocks = some s ∧
    s.live = [⟨128, 20⟩, ⟨160, 60⟩] ∧ s.live.Pairwise Block.Apart := by
  obtain ⟨s, hs, hlive⟩ : ∃ s, run State.step State.start smallBlocks = some s ∧
      s.live = [⟨128, 20⟩, ⟨160, 60⟩] := by decide
  exact ⟨s, hs, hlive, (inline_storage smallBlocks s (by decide) hs).1⟩

/-- The free of the first of two blocks clears the bit of the second one, and the next block lies
over it. The free of the second one leaves its bit set, and 96 free bytes cannot be used. -/
theorem inline_overlaps :
    (∃ s, run State.step State.start [.alloc 32, .alloc 32, .free ⟨128, 32⟩, .alloc 64] = some s ∧
      s.live = [⟨128, 64⟩, ⟨160, 32⟩]) ∧
    ∃ s, run State.step State.start [.alloc 32, .alloc 32, .free ⟨160, 32⟩] = some s ∧
      s.live = [⟨128, 32⟩] ∧ allocFromInline s.inlineUsed 96 = none := by decide

end Felis.Row.Inline
