import Mathlib.Tactic
import Felis.Foundations.Runs
import Felis.Foundations.MachineInts

/-!
# The memory of the promises of an epoch

`EpochPromiseAllocationService` gives out memory from the brk of a thread; small requests are served
from a mini block, a brk inside of the brk. When the mini block is full, `Alloc` carves a new one,
but does not store it in `minibrks`: the full one is asked again by the next request, and from then
on every small request that it refuses takes a mini block of its own (`promise_carves`). Two such
requests are the most that the bound on the number of mini blocks allows (`promise_blocks`).

A request that is larger than the brk is not always refused: its size is rounded up, and the sum
with the offset wraps around.
-/

namespace Felis.Epoch.Promise

open Runs MachineInts

def cacheLineSize : ℕ := 64

def kEpochPromiseMiniBrkSize : ℕ := 4 * cacheLineSize

structure Brk where
  offset : ℕ
  limit : ℕ
  data : ℕ
  deriving DecidableEq

/-- `Align(sizeof(Brk), 16)` -/
def hdrSize : ℕ := 32

namespace Brk

def new (p sz : ℕ) : Brk := ⟨0, sz - hdrSize, p + hdrSize⟩

def check (b : Brk) (s : ℕ) : Bool := (b.offset + s) % 2 ^ 64 ≤ b.limit

/-- The memory that is handed out; the program is aborted when there is not enough. -/
def alloc (b : Brk) (s : ℕ) : Option (ℕ × Brk) :=
  if b.limit < (b.offset + align s 16) % 2 ^ 64 then none
  else some (b.data + b.offset, { b with offset := (b.offset + align s 16) % 2 ^ 64 })

end Brk

structure Block where
  pos : ℕ
  size : ℕ
  deriving DecidableEq

def Block.Apart (a b : Block) : Prop := a.pos + a.size ≤ b.pos ∨ b.pos + b.size ≤ a.pos

/-- The brks of a thread. The last two fields are no part of the program: the blocks that have
been returned since the last `Reset`, and the number of mini blocks. -/
structure Thread where
  brk : Brk
  minibrk : Brk
  blocks : List Block
  carved : ℕ
  deriving DecidableEq

/-- `EpochPromiseAllocationService::Reset` for a thread -/
def reset (brk : Brk) : Option Thread :=
  (Brk.alloc { brk with offset := 0 } kEpochPromiseMiniBrkSize).map fun r =>
    ⟨r.2, .new r.1 kEpochPromiseMiniBrkSize, [], 1⟩

/-- `EpochPromiseAllocationService::Alloc` -/
def Thread.alloc (t : Thread) (size : ℕ) : Option Thread :=
  if size < cacheLineSize then
    if t.minibrk.check size then
      (t.minibrk.alloc size).map fun r =>
        { t with minibrk := r.2, blocks := ⟨r.1, size⟩ :: t.blocks }
    else
      -- The new mini block is not stored.
      (t.brk.alloc kEpochPromiseMiniBrkSize).bind fun r =>
        ((Brk.new r.1 kEpochPromiseMiniBrkSize).alloc size).map fun r' =>
          { t with brk := r.2, blocks := ⟨r'.1, size⟩ :: t.blocks, carved := t.carved + 1 }
  else
    (t.brk.alloc (align size cacheLineSize)).map fun r =>
      { t with brk := r.2, blocks := ⟨r.1, size⟩ :: t.blocks }

/-! ## The requests -/

/-- The number of small requests that do not fit into the first mini block, which has `room` bytes
left. -/
def refusals : ℕ → List ℕ → ℕ
  | _, [] => 0
  | room, size :: sizes =>
    if cacheLineSize ≤ size then refusals room sizes
    else if size ≤ room then refusals (room - align size 16) sizes
    else refusals room sizes + 1

/-- The sum of the sizes of the small requests. -/
def smallSum (sizes : List ℕ) : ℕ :=
  ((sizes.filter (· < cacheLineSize)).map (align · 16)).sum

/-- At most one small request does not fit, or two do not and the sum is at least 320. -/
def Spared (sizes : List ℕ) : Prop :=
  refusals 224 sizes ≤ 1 ∨ refusals 224 sizes = 2 ∧ 320 ≤ smallSum sizes

instance (sizes : List ℕ) : Decidable (Spared sizes) := inferInstanceAs (Decidable (_ ∨ _))

section

variable {size : ℕ}

theorem align_small (hsize : size < cacheLineSize) :
    size ≤ align size 16 ∧ align size 16 < size + 16 ∧ align size 16 % 16 = 0 := by
  have h64 : cacheLineSize = 64 := rfl
  obtain ⟨hle, hlt⟩ := le_align (x := size) (a := 16) (by decide) (by omega)
  exact ⟨hle, hlt, Nat.mod_eq_zero_of_dvd (dvd_align size (by decide))⟩

/-- The first request that does not fit makes the sum larger than the room, and one that does not
fit adds at most 64 bytes to the sum. -/
theorem refusals_spec (sizes : List ℕ) (room : ℕ) (hroom : room % 16 = 0) :
    (1 ≤ refusals room sizes → room + 16 ≤ smallSum sizes) ∧
      smallSum sizes ≤ room + 64 * refusals room sizes := by
  have h64 : cacheLineSize = 64 := rfl
  induction sizes generalizing room with
  | nil => simp [refusals, smallSum]
  | cons size sizes ih =>
    by_cases hsize : size < cacheLineSize
    · have hsum : smallSum (size :: sizes) = align size 16 + smallSum sizes := by
        simp [smallSum, hsize]
      obtain ⟨hle, hlt, hmod⟩ := align_small hsize
      rw [refusals, if_neg (by omega), hsum]
      split_ifs with hfits
      · have := ih (room - align size 16) (by omega)
        omega
      · have := ih room hroom
        omega
    · have hsum : smallSum (size :: sizes) = smallSum sizes := by simp [smallSum, hsize]
      rw [refusals, if_pos (by omega), hsum]
      exact ih room hroom

end

/-! ## The brks -/

/-- The stored mini block. -/
structure Brk.Mini (m : Brk) : Prop where
  data : m.data % 16 = 0
  offset : m.offset % 16 = 0
  offset_le : m.offset ≤ m.limit
  limit : m.limit = 224

/-- The block is aligned, below the end of the brk, and not in the free part of the mini block. -/
structure Thread.Holds (t : Thread) (b : Block) : Prop where
  aligned : b.pos % 16 = 0
  inside : t.brk.data ≤ b.pos ∧ b.pos + b.size ≤ t.brk.data + t.brk.offset
  mini : b.pos + b.size ≤ t.minibrk.data + t.minibrk.offset ∨
    t.minibrk.data + t.minibrk.limit ≤ b.pos

structure Inv (brk : Brk) (t : Thread) : Prop where
  data : t.brk.data = brk.data
  limit : t.brk.limit = brk.limit
  offset : t.brk.offset % 16 = 0 ∧ t.brk.offset ≤ t.brk.limit
  mini : t.minibrk.Mini
  within : t.brk.data ≤ t.minibrk.data ∧ t.minibrk.data + 224 ≤ t.brk.data + t.brk.offset
  holds : ∀ b ∈ t.blocks, t.Holds b
  apart : t.blocks.Pairwise Block.Apart

/-- Where the sum does not wrap around. -/
theorem Brk.alloc_eq_some {b b' : Brk} {s p : ℕ} (hlt : b.offset + align s 16 < 2 ^ 64)
    (h : b.alloc s = some (p, b')) :
    b.offset + align s 16 ≤ b.limit ∧ p = b.data + b.offset ∧
      b' = { b with offset := b.offset + align s 16 } := by
  rw [Brk.alloc, Nat.mod_eq_of_lt hlt] at h
  split_ifs at h with hlimit
  cases h
  exact ⟨by omega, rfl, rfl⟩

section

variable {t u : Thread} {size : ℕ} {brk : Brk}

/-- The three ways of a request. -/
theorem Thread.alloc_cases (ht : t.alloc size = some u) :
    (size < cacheLineSize ∧ t.minibrk.check size = true ∧ ∃ p m,
      t.minibrk.alloc size = some (p, m) ∧
        u = { t with minibrk := m, blocks := ⟨p, size⟩ :: t.blocks }) ∨
    (size < cacheLineSize ∧ t.minibrk.check size = false ∧ ∃ p b p' m,
      t.brk.alloc kEpochPromiseMiniBrkSize = some (p, b) ∧
        (Brk.new p kEpochPromiseMiniBrkSize).alloc size = some (p', m) ∧
        u = { t with brk := b, blocks := ⟨p', size⟩ :: t.blocks, carved := t.carved + 1 }) ∨
    (cacheLineSize ≤ size ∧ ∃ p b, t.brk.alloc (align size cacheLineSize) = some (p, b) ∧
      u = { t with brk := b, blocks := ⟨p, size⟩ :: t.blocks }) := by
  unfold Thread.alloc at ht
  split_ifs at ht with hsize hcheck
  · obtain ⟨⟨p, m⟩, hr, rfl⟩ := Option.map_eq_some_iff.1 ht
    exact .inl ⟨hsize, hcheck, p, m, hr, rfl⟩
  · obtain ⟨⟨p, b⟩, hr, ht⟩ := Option.bind_eq_some_iff.1 ht
    obtain ⟨⟨p', m⟩, hr', rfl⟩ := Option.map_eq_some_iff.1 ht
    exact .inr (.inl ⟨hsize, by simpa using hcheck, p, b, p', m, hr, hr', rfl⟩)
  · obtain ⟨⟨p, b⟩, hr, rfl⟩ := Option.map_eq_some_iff.1 ht
    exact .inr (.inr ⟨by omega, p, b, hr, rfl⟩)

theorem Brk.Mini.check_iff {m : Brk} (h : m.Mini) (hsize : size < cacheLineSize) :
    m.check size = true ↔ size ≤ 224 - m.offset := by
  have h64 : cacheLineSize = 64 := rfl
  have hle := h.offset_le
  have hlimit := h.limit
  rw [Brk.check, decide_eq_true_iff, Nat.mod_eq_of_lt (by omega)]
  omega

theorem Brk.Mini.alloc {m m' : Brk} {p : ℕ} (h : m.Mini) (hsize : size < cacheLineSize)
    (hr : m.alloc size = some (p, m')) : ∃ n, align size 16 = n ∧ m'.Mini ∧
      p = m.data + m.offset ∧ m' = { m with offset := m.offset + n } := by
  have h64 : cacheLineSize = 64 := rfl
  obtain ⟨hlow, hhigh, hmod⟩ := align_small hsize
  have hle := h.offset_le
  have hlimit := h.limit
  have hoff := h.offset
  obtain ⟨hfit, rfl, rfl⟩ := Brk.alloc_eq_some (by omega) hr
  generalize align size 16 = n at *
  exact ⟨n, rfl, ⟨h.data, by dsimp only; omega, hfit, hlimit⟩, rfl, rfl⟩

/-- The number of mini blocks, and the sizes of the blocks. -/
theorem run_alloc_spec {sizes : List ℕ} (hmini : t.minibrk.Mini)
    (hrun : run Thread.alloc t sizes = some u) :
    u.carved = t.carved + refusals (224 - t.minibrk.offset) sizes ∧
      ∀ size ∈ sizes, ∃ b ∈ u.blocks, b.size = size := by
  induction sizes generalizing t with
  | nil =>
    cases hrun
    exact ⟨rfl, by simp⟩
  | cons size sizes ih =>
    obtain ⟨t', hstep, hrun⟩ := (run_cons _).1 hrun
    have hkeep : ∀ b ∈ t'.blocks, b ∈ u.blocks :=
      run_induction (I := fun u => ∀ b ∈ t'.blocks, b ∈ u.blocks) (fun v e w hv hw b hb => by
        rcases Thread.alloc_cases hw with ⟨-, -, _, _, -, rfl⟩ | ⟨-, -, _, _, _, _, -, -, rfl⟩ |
          ⟨-, _, _, -, rfl⟩ <;> exact List.mem_cons_of_mem _ (hv b hb)) (fun _ => id) hrun
    rcases Thread.alloc_cases hstep with ⟨hsize, hcheck, p, m, hr, rfl⟩ |
      ⟨hsize, hcheck, p, b, p', m, -, -, rfl⟩ | ⟨hsize, p, b, -, rfl⟩
    · obtain ⟨n, rfl, hm, -, rfl⟩ := hmini.alloc hsize hr
      obtain ⟨hcarved, hall⟩ := ih hm hrun
      refine ⟨?_, List.forall_mem_cons.2 ⟨⟨_, hkeep _ List.mem_cons_self, rfl⟩, hall⟩⟩
      rw [hcarved, refusals, if_neg hsize.not_ge, if_pos ((hmini.check_iff hsize).1 hcheck),
        Nat.sub_sub]
    · obtain ⟨hcarved, hall⟩ := ih (t := ⟨b, t.minibrk, _, _⟩) hmini hrun
      refine ⟨?_, List.forall_mem_cons.2 ⟨⟨_, hkeep _ List.mem_cons_self, rfl⟩, hall⟩⟩
      rw [hcarved, refusals, if_neg hsize.not_ge,
        if_neg (fun hle => by simp [(hmini.check_iff hsize).2 hle] at hcheck)]
      dsimp only
      omega
    · obtain ⟨hcarved, hall⟩ := ih (t := ⟨b, t.minibrk, _, _⟩) hmini hrun
      refine ⟨?_, List.forall_mem_cons.2 ⟨⟨_, hkeep _ List.mem_cons_self, rfl⟩, hall⟩⟩
      rw [hcarved, refusals, if_pos hsize]

/-- The request takes `n` bytes from the brk, and returns a block in them. -/
theorem Inv.take (h : Inv brk t) {n carved : ℕ} {b : Block}
    (hfit : t.brk.offset + n ≤ t.brk.limit) (hn : n % 16 = 0) (hal : b.pos % 16 = 0)
    (hb : t.brk.data + t.brk.offset ≤ b.pos ∧
      b.pos + b.size ≤ t.brk.data + t.brk.offset + n) :
    Inv brk ⟨{ t.brk with offset := t.brk.offset + n }, t.minibrk, b :: t.blocks, carved⟩ := by
  have hoff := h.offset
  have hw := h.within
  have hlimit := h.mini.limit
  refine ⟨h.data, h.limit, ⟨by dsimp only; omega, hfit⟩, h.mini, by dsimp only; omega,
    List.forall_mem_cons.2 ⟨⟨hal, by dsimp only; omega, by dsimp only; omega⟩, fun c hc => ?_⟩,
    List.pairwise_cons.2 ⟨fun c hc => ?_, h.apart⟩⟩
  · have hin := (h.holds c hc).inside
    exact ⟨(h.holds c hc).aligned, by dsimp only; omega, (h.holds c hc).mini⟩
  · have hin := (h.holds c hc).inside
    unfold Block.Apart
    omega

theorem Inv.alloc_mini (h : Inv brk t) (hsize : size < cacheLineSize) {p : ℕ} {m : Brk}
    (hr : t.minibrk.alloc size = some (p, m)) :
    Inv brk { t with minibrk := m, blocks := ⟨p, size⟩ :: t.blocks } := by
  obtain ⟨hlow, -, -⟩ := align_small hsize
  obtain ⟨n, hn, hm, rfl, rfl⟩ := h.mini.alloc hsize hr
  rw [hn] at hlow
  have hlimit := hm.limit
  have hle := hm.offset_le
  have hdata := h.mini.data
  have hoff := h.mini.offset
  have hw := h.within
  dsimp only at hle hlimit
  refine ⟨h.data, h.limit, h.offset, hm, hw,
    List.forall_mem_cons.2 ⟨⟨by dsimp only; omega, by dsimp only; omega, by dsimp only; omega⟩,
      fun c hc => ?_⟩, List.pairwise_cons.2 ⟨fun c hc => ?_, h.apart⟩⟩
  · have hc' := (h.holds c hc).mini
    exact ⟨(h.holds c hc).aligned, (h.holds c hc).inside, by dsimp only; omega⟩
  · have hc' := (h.holds c hc).mini
    unfold Block.Apart
    dsimp only
    omega

theorem align_miniBrk : align kEpochPromiseMiniBrkSize 16 = 256 := by decide +kernel

theorem Brk.mini_new {p : ℕ} (hp : p % 16 = 0) : (Brk.new p kEpochPromiseMiniBrkSize).Mini :=
  ⟨by dsimp only [Brk.new, hdrSize]; omega, rfl, Nat.zero_le _, rfl⟩

theorem Inv.alloc (hdata : brk.data % 16 = 0) (hlimit : brk.limit < 2 ^ 62) (h : Inv brk t)
    (hsize : size ≤ brk.limit) (ht : t.alloc size = some u) : Inv brk u := by
  have hoff := h.offset
  rw [h.limit] at hoff
  have hpos : (t.brk.data + t.brk.offset) % 16 = 0 := by
    rw [h.data]
    omega
  rcases Thread.alloc_cases ht with ⟨hsmall, -, p, m, hr, rfl⟩ |
    ⟨hsmall, -, p, b, p', m, hr, hr', rfl⟩ | ⟨-, p, b, hr, rfl⟩
  · exact h.alloc_mini hsmall hr
  · obtain ⟨hlow, -, -⟩ := align_small hsmall
    obtain ⟨hfit, rfl, rfl⟩ := Brk.alloc_eq_some (by rw [align_miniBrk]; omega) hr
    obtain ⟨n, hn, hm, rfl, rfl⟩ := (Brk.mini_new hpos).alloc hsmall hr'
    rw [hn] at hlow
    have hle := hm.offset_le
    rw [hm.limit] at hle
    dsimp only [Brk.new, hdrSize] at hle ⊢
    rw [align_miniBrk] at hfit ⊢
    exact h.take hfit (by decide) (by dsimp only; omega) (by dsimp only; omega)
  · obtain ⟨hlow, hhigh⟩ := le_align (x := size) (a := cacheLineSize) (by decide +kernel)
      (by rw [cacheLineSize]; omega)
    rw [cacheLineSize] at hlow hhigh hr
    obtain ⟨hlow', hhigh'⟩ := le_align (x := align size 64) (a := 16) (by decide) (by omega)
    obtain ⟨hfit, rfl, rfl⟩ := Brk.alloc_eq_some (by omega) hr
    exact h.take hfit (Nat.mod_eq_zero_of_dvd (dvd_align _ (by decide))) hpos
      ⟨le_rfl, by dsimp only; omega⟩

end

theorem inv_reset {brk : Brk} {t : Thread} (hdata : brk.data % 16 = 0)
    (ht : reset brk = some t) :
    Inv brk t ∧ t.minibrk.offset = 0 ∧ t.carved = 1 := by
  obtain ⟨⟨p, b⟩, hr, rfl⟩ := Option.map_eq_some_iff.1 ht
  obtain ⟨hfit, rfl, rfl⟩ := Brk.alloc_eq_some (by simp [align_miniBrk]) hr
  rw [align_miniBrk] at hfit ⊢
  dsimp only at hfit ⊢
  exact ⟨⟨rfl, rfl, ⟨by dsimp only, hfit⟩, Brk.mini_new hdata,
    by dsimp only [Brk.new, hdrSize]; omega, fun _ hb => (nomatch hb), .nil⟩, rfl, rfl⟩

/-- The blocks are aligned, pairwise disjoint and inside of the brk, and there are at most
`1 + S / 160` mini blocks, where `S` is the sum of the small requests. -/
structure Thread.Sound (brk : Brk) (sizes : List ℕ) (t : Thread) : Prop where
  placed : ∀ b ∈ t.blocks, b.pos % 16 = 0 ∧ brk.data ≤ b.pos ∧
    b.pos + b.size ≤ brk.data + brk.limit
  apart : t.blocks.Pairwise Block.Apart
  carved : t.carved ≤ 1 + smallSum sizes / 160

/-- **The memory of the promises.** What the requests between two resets get is as it should be if
and only if none of them is larger than the brk, and at most one small request does not fit into
the first mini block, or two do not and the sum of the small requests is at least 320. -/
theorem promise_blocks (brk : Brk) (hdata : brk.data % 16 = 0) (hlimit : brk.limit < 2 ^ 62)
    (start t : Thread) (hstart : reset brk = some start) (sizes : List ℕ)
    (hrun : run Thread.alloc start sizes = some t) :
    t.Sound brk sizes ↔ (∀ size ∈ sizes, size ≤ brk.limit) ∧ Spared sizes := by
  obtain ⟨hinv, hzero, hone⟩ := inv_reset hdata hstart
  obtain ⟨hcarved, hsizes⟩ := run_alloc_spec hinv.mini hrun
  rw [hzero, hone, Nat.sub_zero] at hcarved
  have hbound : t.carved ≤ 1 + smallSum sizes / 160 ↔ Spared sizes := by
    have := refusals_spec sizes 224 rfl
    unfold Spared
    omega
  constructor
  · intro h
    refine ⟨fun size hsize => ?_, hbound.1 h.carved⟩
    obtain ⟨b, hb, rfl⟩ := hsizes size hsize
    have := h.placed b hb
    omega
  · rintro ⟨hle, hspared⟩
    have h : Inv brk t := run_invariant (fun _ _ _ h hsize hs => h.alloc hdata hlimit hsize hs)
      sizes _ t hinv (along_of_forall _ _ hle) hrun
    refine ⟨fun b hb => ⟨(h.holds b hb).aligned, ?_⟩, h.apart, hbound.2 hspared⟩
    have hin := (h.holds b hb).inside
    have hoff := h.offset.2
    rw [h.data] at hin
    rw [h.limit] at hoff
    omega

/-- Six requests; the mini block refuses the last two, and the sum is 352. -/
theorem promise_blocks_sixRequests : ∃ start t, reset ⟨0, 4096, 0⟩ = some start ∧
    run Thread.alloc start [64, 63, 63, 63, 32, 63, 63, 1000] = some t ∧ t.carved = 3 ∧
      t.Sound ⟨0, 4096, 0⟩ [64, 63, 63, 63, 32, 63, 63, 1000] := by
  obtain ⟨start, hstart, t, ht, hcarved⟩ : ∃ start, reset ⟨0, 4096, 0⟩ = some start ∧ ∃ t,
      run Thread.alloc start [64, 63, 63, 63, 32, 63, 63, 1000] = some t ∧ t.carved = 3 := by
    decide +kernel
  exact ⟨start, t, hstart, ht, hcarved,
    (promise_blocks ⟨0, 4096, 0⟩ rfl (by decide) start t hstart _ ht).2 (by decide +kernel)⟩

/-- Ten requests of 48 bytes take seven mini blocks, although they would fit into four. -/
theorem promise_carves : ∃ start, reset ⟨0, 4096, 0⟩ = some start ∧ ∃ t,
    run Thread.alloc start (List.replicate 10 48) = some t ∧ t.carved = 7 ∧
      1 + smallSum (List.replicate 10 48) / 160 = 4 := by decide +kernel

end Felis.Epoch.Promise
