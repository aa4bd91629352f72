import Felis.Foundations.FreeList

/-!
# Pools of chunks

`WeakPool` and `BasicPool` of `mem.h`: a row of `capacity` chunks of one size, with a free list that
is threaded through the chunks that are free. A `BasicPool` checks the pointers it gives and gets.
A null dereference, a division by zero and an abort have no result.

A `Block` is the memory of a pool. `Holds m s B xs` says that the pool `s` over the block `B` has
the chunks `xs` on its free list; the specifications of the operations are stated with it.
-/

namespace Felis.Mem

open FreeList Cells List

/-- The fields of a `WeakPool` that its operations read. -/
structure WeakPool where
  data : ℕ
  len : ℕ
  head : ℕ
  capacity : ℕ
  /-- `stats.used`, in bytes. -/
  used : ℤ
  deriving DecidableEq

namespace WeakPool

/-- The constructor over given memory: every chunk is made to point to the next one. -/
def new (m : Memory) (chunkSize cap data : ℕ) : Memory × WeakPool :=
  (storeAll (fun i => data + i * chunkSize)
      (fun i => if i = cap - 1 then 0 else data + i * chunkSize + chunkSize) m cap,
    { data, len := cap * chunkSize, head := data, capacity := cap, used := 0 })

/-- `Alloc()`, which gives 0 when the pool is full. -/
def alloc (m : Memory) (s : WeakPool) : Option (ℕ × WeakPool) :=
  if s.head = 0 then some (0, s)
  else if s.capacity = 0 then none
  else some (s.head, { s with head := load m s.head, used := s.used + (s.len / s.capacity : ℕ) })

def free (m : Memory) (s : WeakPool) (ptr : ℕ) : Option (Memory × WeakPool) :=
  if ptr = 0 ∨ s.capacity = 0 then none
  else some (store m ptr s.head, { s with head := ptr, used := s.used - (s.len / s.capacity : ℕ) })

end WeakPool

namespace BasicPool

/-- `CheckPointer(ptr)`: the index of the chunk, or -1 for the null pointer. -/
def checkPointer (s : WeakPool) (ptr : ℕ) : Option ℤ :=
  if ptr = 0 then some (-1)
  else if ptr < s.data ∨ s.data + s.len ≤ ptr then none
  else if s.capacity = 0 ∨ s.len / s.capacity = 0 then none
  else if (ptr - s.data) % (s.len / s.capacity) ≠ 0 then none
  else some ((ptr - s.data) / (s.len / s.capacity) : ℕ)

def alloc (m : Memory) (s : WeakPool) : Option (ℕ × WeakPool) := do
  let (ptr, s) ← s.alloc m
  let _ ← checkPointer s ptr
  return (ptr, s)

def free (m : Memory) (s : WeakPool) (ptr : ℕ) : Option (Memory × WeakPool) := do
  let _ ← checkPointer s ptr
  s.free m ptr

end BasicPool

/-! ## The memory of a pool -/

/-- The memory of a pool: a row of chunks that does not start at the null pointer and does not wrap
around. -/
structure Block where
  data : ℕ
  chunk : ℕ
  cap : ℕ
  chunk_ge : 8 ≤ chunk
  data_pos : 0 < data
  end_le : data + cap * chunk ≤ 2 ^ 64

namespace Block

variable {B : Block} {x y i j : ℕ}

def addr (B : Block) (i : ℕ) : ℕ := B.data + i * B.chunk

def IsChunk (B : Block) (x : ℕ) : Prop := ∃ i < B.cap, B.addr i = x

@[simp] theorem addr_zero (B : Block) : B.addr 0 = B.data := by
  rw [addr, Nat.zero_mul, Nat.add_zero]

theorem addr_succ (B : Block) (i : ℕ) : B.addr (i + 1) = B.addr i + B.chunk := by
  rw [addr, addr, Nat.add_mul, Nat.one_mul, Nat.add_assoc]

theorem addr_add_chunk_le (h : i < j) : B.addr i + B.chunk ≤ B.addr j := by
  have hmul : (i + 1) * B.chunk ≤ j * B.chunk := Nat.mul_le_mul_right _ h
  rw [Nat.add_mul, Nat.one_mul] at hmul
  unfold addr
  omega

theorem addr_injective (B : Block) : Function.Injective B.addr := by
  intro i j h
  have hchunk := B.chunk_ge
  rcases lt_trichotomy i j with hlt | heq | hlt
  · have := B.addr_add_chunk_le hlt
    omega
  · exact heq
  · have := B.addr_add_chunk_le hlt
    omega

theorem apart_addr (h : i < j) : Apart (B.addr i) (B.addr j) :=
  .inl ((Nat.add_le_add_left B.chunk_ge _).trans (B.addr_add_chunk_le h))

namespace IsChunk

section

variable (hx : B.IsChunk x)

include hx

/-- Different chunks share no byte. -/
theorem disjoint (hy : B.IsChunk y) (hne : x ≠ y) : x + B.chunk ≤ y ∨ y + B.chunk ≤ x := by
  obtain ⟨i, -, rfl⟩ := hx
  obtain ⟨j, -, rfl⟩ := hy
  rcases lt_trichotomy i j with hlt | rfl | hlt
  · exact .inl (addr_add_chunk_le hlt)
  · exact absurd rfl hne
  · exact .inr (addr_add_chunk_le hlt)

theorem apart (hy : B.IsChunk y) (hne : x ≠ y) : Apart x y := by
  have hchunk := B.chunk_ge
  have := hx.disjoint hy hne
  unfold Apart
  omega

theorem data_le : B.data ≤ x := by
  obtain ⟨i, -, rfl⟩ := hx
  exact Nat.le_add_right _ _

theorem end_le : x + B.chunk ≤ B.data + B.cap * B.chunk := by
  obtain ⟨i, hi, rfl⟩ := hx
  exact addr_add_chunk_le hi

theorem ne_zero : x ≠ 0 := by
  have := hx.data_le
  have := B.data_pos
  omega

theorem lt_two_pow : x < 2 ^ 64 := by
  have := hx.end_le
  have := B.end_le
  have := B.chunk_ge
  omega

end

/-- Rows that share no byte have no chunk in common. -/
theorem not_of_disjoint {B' : Block}
    (h : B.data + B.cap * B.chunk ≤ B'.data ∨ B'.data + B'.cap * B'.chunk ≤ B.data)
    (hx : B.IsChunk x) : ¬B'.IsChunk x := fun hx' => by
  have h1 := hx.data_le
  have h2 := hx.end_le
  have h3 := hx'.data_le
  have h4 := hx'.end_le
  have h5 := B.chunk_ge
  have h6 := B'.chunk_ge
  omega

end IsChunk

/-- All chunks, in the order of their addresses. -/
def chunks (B : Block) : List ℕ := seg B.addr 0 B.cap

theorem mem_chunks : x ∈ B.chunks ↔ B.IsChunk x := by
  simp only [chunks, mem_seg, IsChunk, Nat.zero_add]

@[simp] theorem length_chunks (B : Block) : B.chunks.length = B.cap := length_seg _ _ _

theorem nodup_chunks (B : Block) : B.chunks.Nodup := by
  rw [chunks, seg]
  refine List.Nodup.map (fun i j h => B.addr_injective ?_) nodup_range
  simpa using h

end Block

/-! ## What a pool holds -/

/-- The pool `s` over the block `B` has the chunks `xs` on its free list. -/
structure Holds (m : Memory) (s : WeakPool) (B : Block) (xs : List ℕ) : Prop where
  data_eq : s.data = B.data
  len_eq : s.len = B.cap * B.chunk
  capacity_eq : s.capacity = B.cap
  chain : Chain m s.head xs
  nodup : xs.Nodup
  isChunk : ∀ x ∈ xs, B.IsChunk x
  used_eq : s.used = B.chunk * ((B.cap : ℤ) - xs.length)

namespace Holds

variable {m m' : Memory} {s : WeakPool} {B : Block} {xs : List ℕ} {x : ℕ}

section

variable (h : Holds m s B xs)

include h

theorem congr (hsame : ∀ x ∈ xs, load m' x = load m x) : Holds m' s B xs :=
  { h with chain := h.chain.congr hsame }

/-- Writes outside of the block keep what the pool holds. -/
theorem frame {lo hi : ℕ} (hsame : SameOutside lo hi m m')
    (hout : B.data + B.cap * B.chunk ≤ lo ∨ hi ≤ B.data) : Holds m' s B xs := by
  refine h.congr fun x hx => hsame.load_eq ?_
  have hle := (h.isChunk x hx).data_le
  have hend := (h.isChunk x hx).end_le
  have hchunk := B.chunk_ge
  omega

theorem head_lt : s.head < 2 ^ 64 := by
  have hchain := h.chain
  cases xs with
  | nil => rw [chain_nil.1 hchain]; norm_num
  | cons x xs => exact hchain.1 ▸ (h.isChunk x mem_cons_self).lt_two_pow

theorem capacity_ne_zero (hx : B.IsChunk x) : s.capacity ≠ 0 := by
  obtain ⟨i, hi, -⟩ := hx
  rw [h.capacity_eq]
  omega

theorem len_div_capacity (hx : B.IsChunk x) : s.len / s.capacity = B.chunk := by
  have hcap := h.capacity_ne_zero hx
  rw [h.capacity_eq] at hcap ⊢
  rw [h.len_eq, Nat.mul_div_cancel_left _ (Nat.pos_of_ne_zero hcap)]

/-- The pointer check lets every chunk pass. -/
theorem checkPointer (hx : B.IsChunk x) : ∃ i, BasicPool.checkPointer s x = some i := by
  have hchunk := B.chunk_ge
  have hle := hx.data_le
  have hend := hx.end_le
  have hcap := h.capacity_ne_zero hx
  have hsize := h.len_div_capacity hx
  have hmod : (x - B.data) % B.chunk = 0 := by
    obtain ⟨i, -, rfl⟩ := hx
    rw [Block.addr, Nat.add_sub_cancel_left, Nat.mul_mod_left]
  have hin : ¬(x < s.data ∨ s.data + s.len ≤ x) := by
    rw [h.data_eq, h.len_eq]
    omega
  refine ⟨((x - s.data) / (s.len / s.capacity) : ℕ), ?_⟩
  rw [BasicPool.checkPointer, if_neg hx.ne_zero, if_neg hin, hsize, h.data_eq, if_neg (by omega),
    if_neg (by simp [hmod])]

end

/-- `Alloc()` takes the first chunk off the free list. -/
theorem alloc (h : Holds m s B (x :: xs)) :
    ∃ s', BasicPool.alloc m s = some (x, s') ∧ Holds m s' B xs := by
  have hx := h.isChunk x mem_cons_self
  obtain ⟨hhead, hrest⟩ := h.chain.pop
  have hnz : s.head ≠ 0 := hhead ▸ hx.ne_zero
  have hused : s.used + B.chunk = B.chunk * ((B.cap : ℤ) - xs.length) := by
    rw [h.used_eq, length_cons]
    push_cast
    ring
  have hs' : Holds m { s with head := load m s.head, used := s.used + B.chunk } B xs :=
    ⟨h.data_eq, h.len_eq, h.capacity_eq, hrest, h.nodup.of_cons,
      fun y hy => h.isChunk y (mem_cons_of_mem x hy), hused⟩
  obtain ⟨i, hi⟩ := hs'.checkPointer hx
  refine ⟨_, ?_, hs'⟩
  rw [BasicPool.alloc, WeakPool.alloc, if_neg hnz, if_neg (h.capacity_ne_zero hx),
    h.len_div_capacity hx, hhead]
  rw [hhead] at hi
  simp [hi]

/-- `Alloc()` gives the null pointer when there is no chunk on the free list. -/
theorem alloc_nil (h : Holds m s B []) : BasicPool.alloc m s = some (0, s) := by
  simp [BasicPool.alloc, WeakPool.alloc, chain_nil.1 h.chain, BasicPool.checkPointer]

/-- `Free(x)` puts the chunk in front of the free list, with one store at the chunk. -/
theorem free (h : Holds m s B xs) (hx : B.IsChunk x) (hnot : x ∉ xs) :
    ∃ s', BasicPool.free m s x = some (store m x s.head, s') ∧
      Holds (store m x s.head) s' B (x :: xs) := by
  obtain ⟨i, hi⟩ := h.checkPointer hx
  have hused : s.used - B.chunk = B.chunk * ((B.cap : ℤ) - (x :: xs).length) := by
    rw [h.used_eq, length_cons]
    push_cast
    ring
  have hapart : ∀ y ∈ xs, Apart x y := fun y hy =>
    hx.apart (h.isChunk y hy) fun he => hnot (he ▸ hy)
  refine ⟨{ s with head := x, used := s.used - B.chunk }, ?_, h.data_eq, h.len_eq, h.capacity_eq,
    h.chain.push hx.ne_zero h.head_lt hapart, nodup_cons.2 ⟨hnot, h.nodup⟩, ?_, hused⟩
  · simp [BasicPool.free, hi, WeakPool.free, hx.ne_zero, h.capacity_ne_zero hx,
      h.len_div_capacity hx]
  · simpa using ⟨hx, h.isChunk⟩

end Holds

namespace WeakPool

variable {m : Memory} {x : ℕ}

/-- The constructor puts every chunk on the free list. -/
theorem new_holds (B : Block) (hcap : 0 < B.cap) :
    Holds (new m B.chunk B.cap B.data).1 (new m B.chunk B.cap B.data).2 B B.chunks := by
  have hlink : ∀ i < B.cap, load (new m B.chunk B.cap B.data).1 (B.addr i) =
      if i + 1 = B.cap then 0 else B.addr (i + 1) := by
    intro i hi
    have hg : ∀ k < B.cap, (if k = B.cap - 1 then 0 else B.addr k + B.chunk) < 2 ^ 64 := by
      intro k hk
      split_ifs with hlast
      · norm_num
      · have hk' : B.IsChunk (B.addr (k + 1)) := ⟨k + 1, by omega, rfl⟩
        exact B.addr_succ k ▸ hk'.lt_two_pow
    have hload : load (new m B.chunk B.cap B.data).1 (B.addr i) =
        if i = B.cap - 1 then 0 else B.addr i + B.chunk :=
      load_storeAll (fun k j hkj _ => Block.apart_addr hkj) hg hi
    rw [hload, B.addr_succ]
    exact if_congr (by omega) rfl rfl
  have hchain := chain_seg (fun i hi => Block.IsChunk.ne_zero ⟨i, hi, rfl⟩) hlink
  rw [if_neg hcap.ne', B.addr_zero] at hchain
  exact ⟨rfl, rfl, rfl, hchain, B.nodup_chunks, fun x hx => Block.mem_chunks.1 hx, by simp [new]⟩

theorem sameOutside_new (B : Block) :
    SameOutside B.data (B.data + B.cap * B.chunk) m (new m B.chunk B.cap B.data).1 := by
  refine .storeAll fun i hi => ?_
  have hx : B.IsChunk (B.addr i) := ⟨i, hi, rfl⟩
  have := hx.data_le
  have := hx.end_le
  have := B.chunk_ge
  change B.data ≤ B.addr i ∧ B.addr i + 8 ≤ _
  omega

/-- The constructor writes nothing but the first words of the chunks. -/
theorem load_new (B : Block) (h : ∀ y, B.IsChunk y → Apart y x) :
    load (new m B.chunk B.cap B.data).1 x = load m x :=
  load_storeAll_of_apart fun i hi => h _ ⟨i, hi, rfl⟩

end WeakPool

end Felis.Mem
