import Felis.Foundations.Bits
import Felis.Foundations.FreeList
import Felis.Foundations.Parts
import Felis.Foundations.Runs

/-!
# The parallel allocator

`ParallelAllocator<PoolType>` of `mem.h`: every core has a pool of its own. A core that frees a
chunk of another core's pool keeps it on one of its free lists, and the owner takes these lists over
in `Quiescence()` and allocates from them before it turns to its pool. The occupied lists of the
owner are marked in a bitmap, and a cursor walks over the marks.

The lists are threaded through the first words of the chunks. The pools are a parameter (`Pools`),
and what the allocator needs to know of them is a `Contract`.
-/

namespace Felis.Mem

open Bits FreeList Parts Runs Function List Option

variable {i j c d k n x y : ℕ}

/-! ## The bitmap

List `i` is marked with `1 << i` of a 32-bit `int`, which is widened with its sign: the mark of list
31 is all the bits from 31 on.
-/

structure ConsolidateFreeList where
  dice : ℕ := 0
  bitmap : BitVec 64 := 0
  heads : ℕ → ℕ := fun _ => 0

namespace ConsolidateFreeList

/-- The next value of `dice`: the first mark from the cursor on, or the first mark of all. Counting
the zeros of 0 and shifting by 64 or more have no result. -/
def next (q : ConsolidateFreeList) : Option ℕ :=
  if 64 ≤ q.dice then none
  else if q.bitmap >>> q.dice = 0 then lowestSet q.bitmap.toNat
  else (lowestSet (q.bitmap >>> q.dice).toNat).map (· + q.dice)

/-- The cursor is on a list, and the lists that have chunks are marked. -/
structure Ok (q : ConsolidateFreeList) (lists : ℕ → List ℕ) : Prop where
  dice_lt : q.dice < 32
  bit_iff : ∀ i < 32, q.bitmap.getLsbD i = true ↔ lists i ≠ []
  high : ∀ i < 64, 31 ≤ i → q.bitmap.getLsbD i = q.bitmap.getLsbD 31

variable {q : ConsolidateFreeList} {lists : ℕ → List ℕ}

/-- When something is marked, the cursor moves to a list that has chunks. -/
theorem Ok.next (h : q.Ok lists) (hb : q.bitmap ≠ 0) :
    ∃ d < 32, q.next = some d ∧ lists d ≠ [] := by
  have hdice := h.dice_lt
  -- the bits above 31 are only set when bit 31 is, which is found first
  have hbelow : ∀ lo, lo < 32 → ∀ d, q.bitmap.getLsbD d = true → lo ≤ d →
      (∀ j, lo ≤ j → q.bitmap.getLsbD j = true → d ≤ j) → d < 32 := by
    intro lo hlo d hd hle hmin
    by_contra hge
    have h31 := h.high d (BitVec.lt_of_getLsbD hd) (by omega)
    have := hmin 31 (by omega) (h31 ▸ hd)
    omega
  rw [ConsolidateFreeList.next, if_neg (by omega)]
  split_ifs with hz
  · obtain ⟨d, hd, hset, hmin⟩ := exists_lowestSet hb
    have hlt := hbelow 0 (by omega) d hset (Nat.zero_le d) fun j _ hj => hmin j hj
    exact ⟨d, hlt, hd, (h.bit_iff d hlt).1 hset⟩
  · obtain ⟨d, hd, hset, hmin⟩ := exists_lowestSet hz
    rw [BitVec.getLsbD_ushiftRight, Nat.add_comm] at hset
    have hlt : d + q.dice < 32 := by
      refine hbelow q.dice hdice _ hset (Nat.le_add_left ..) fun j hle hj => ?_
      have := hmin (j - q.dice) (by rwa [BitVec.getLsbD_ushiftRight, Nat.add_sub_cancel' hle])
      omega
    exact ⟨d + q.dice, hlt, by rw [hd, map_some], (h.bit_iff _ hlt).1 hset⟩

/-- List `i` has got chunks, and is marked. -/
theorem Ok.mark (h : q.Ok lists) (hi : i < 32) {l : List ℕ} (hl : l ≠ []) (heads : ℕ → ℕ) :
    Ok { q with heads, bitmap := q.bitmap ||| Bits.mark i } (update lists i l) where
  dice_lt := h.dice_lt
  bit_iff := fun j hj => by
    rw [BitVec.getLsbD_or, getLsbD_mark i hi j (by omega), Bool.or_eq_true, h.bit_iff j hj,
      decide_eq_true_iff]
    rcases eq_or_ne j i with rfl | hne
    · simpa using hl
    · rw [update_of_ne hne]
      refine ⟨fun hor => hor.resolve_right ?_, .inl⟩
      omega
  high := fun j hj hle => by
    rw [BitVec.getLsbD_or, BitVec.getLsbD_or, getLsbD_mark i hi j hj,
      getLsbD_mark i hi 31 (by omega), h.high j hj hle]
    congr 2
    rw [eq_iff_iff]
    omega

/-- The cursor has moved to list `d`, which has lost a chunk. -/
theorem Ok.pop (h : q.Ok lists) (hd : d < 32) {l : List ℕ} (heads : ℕ → ℕ) (hne : lists d ≠ []) :
    Ok { dice := d, heads, bitmap := if l = [] then q.bitmap &&& unmark d else q.bitmap }
      (update lists d l) where
  dice_lt := hd
  bit_iff := fun j hj => by
    rcases eq_or_ne j d with rfl | hjd
    · rw [update_self]
      split_ifs with hl
      · simp [hl, getLsbD_unmark j hd j (by omega)]
      · simpa [hl] using (h.bit_iff j hj).2 hne
    · rw [update_of_ne hjd, ← h.bit_iff j hj]
      split_ifs with hl
      · rw [BitVec.getLsbD_and, getLsbD_unmark d hd j (by omega)]
        have hclear : ¬(d = j ∨ d = 31 ∧ 31 ≤ j) := by omega
        simp [hclear]
      · rfl
  high := fun j hj hle => by
    dsimp only
    split_ifs with hl
    · rw [BitVec.getLsbD_and, BitVec.getLsbD_and, getLsbD_unmark d hd j hj,
        getLsbD_unmark d hd 31 (by omega), h.high j hj hle]
      congr 3
      rw [eq_iff_iff]
      omega
    · exact h.high j hj hle

end ConsolidateFreeList

/-! ## The pools -/

/-- The pools of the cores, as the allocator uses them. The memory is that of all pools together; an
operation that crashes has no result. -/
structure Pools (S : Type) where
  chunk : ℕ
  mem : S → Memory
  setMem : S → Memory → S
  alloc : S → ℕ → Option (ℕ × S)
  free : S → ℕ → ℕ → Option S

/-- What the allocator relies on. `Valid s out` says that the pools are in order and that `out` are
the chunks that have been taken from them: `out c x` for the chunk `x` of pool `c`. Whoever has a
chunk may write into it. -/
structure Contract {S : Type} (P : Pools S) (n : ℕ) where
  IsChunk : S → ℕ → ℕ → Prop
  InPool : S → ℕ → ℕ → Prop
  Valid : S → (ℕ → ℕ → Prop) → Prop
  chunk_ge : 8 ≤ P.chunk
  mem_setMem : ∀ s m, P.mem (P.setMem s m) = m
  isChunk_iff : ∀ {s out c x}, Valid s out → (IsChunk s c x ↔ InPool s c x ∨ out c x)
  not_out : ∀ {s out c x}, Valid s out → InPool s c x → ∀ d, ¬out d x
  inPool_unique : ∀ {s out c d x}, Valid s out → InPool s c x → InPool s d x → c = d
  out_lt : ∀ {s out c x}, Valid s out → out c x → c < n ∧ x ≠ 0 ∧ x < 2 ^ 64
  out_disjoint : ∀ {s out c x d y}, Valid s out → out c x → out d y → ¬(c = d ∧ x = y) →
    x + P.chunk ≤ y ∨ y + P.chunk ≤ x
  valid_alloc : ∀ {s out c x s'}, Valid s out → c < n → P.alloc s c = some (x, s') →
    (∀ d y, out d y → load (P.mem s') y = load (P.mem s) y) ∧
      (x = 0 ∧ Valid s' out ∨
        x ≠ 0 ∧ (∀ d, ¬out d x) ∧ Valid s' fun d y => out d y ∨ d = c ∧ y = x)
  valid_free : ∀ {s out c x}, Valid s out → out c x → ∃ s', P.free s c x = some s' ∧
    (Valid s' fun d y => out d y ∧ ¬(d = c ∧ y = x)) ∧
      ∀ d y, out d y → ¬(d = c ∧ y = x) → load (P.mem s') y = load (P.mem s) y
  valid_write : ∀ {s out c x m}, Valid s out → out c x →
    SameOutside x (x + P.chunk) (P.mem s) m → Valid (P.setMem s m) out

/-! ## The allocator -/

/-- The fields of a `ParallelAllocator`, and the chunks of every pool that a caller has. -/
structure ParallelAllocator (S : Type) where
  pools : S
  freeLists : ℕ → ℕ → ℕ
  freeTails : ℕ → ℕ → ℕ
  csldFreeLists : ℕ → ConsolidateFreeList
  live : ℕ → List ℕ

namespace ParallelAllocator

variable {S : Type}

def kMaxNrPools : ℕ := 64

/-- The allocator over the pools of the cores, before its first use. -/
def init (pools : S) : ParallelAllocator S where
  pools
  freeLists := fun _ _ => 0
  freeTails := fun _ _ => 0
  csldFreeLists := fun _ => {}
  live := fun _ => []

variable (P : Pools S)

def mem (s : ParallelAllocator S) : Memory := P.mem s.pools

/-- `Alloc()` on core `cur`. Following the null pointer and shifting an `int` by 32 or more have no
result. -/
def alloc (s : ParallelAllocator S) (cur : ℕ) : Option (ℕ × ParallelAllocator S) :=
  let csld := s.csldFreeLists cur
  if csld.bitmap ≠ 0 then do
    let dice ← csld.next
    let p := csld.heads dice
    let head := load (s.mem P) p
    if p = 0 ∨ head = 0 ∧ 32 ≤ dice then none
    else
      let bitmap := if head = 0 then csld.bitmap &&& unmark dice else csld.bitmap
      let csld := { dice, bitmap, heads := update csld.heads dice head }
      some (p, { s with
        csldFreeLists := update s.csldFreeLists cur csld
        live := update s.live cur (p :: s.live cur) })
  else do
    let (p, pools) ← P.alloc s.pools cur
    let live := if p = 0 then s.live else update s.live cur (p :: s.live cur)
    some (p, { s with pools, live })

/-- The branch of `Free(ptr, alloc_core)` for a chunk of another core. -/
def freeRemote (s : ParallelAllocator S) (cur ptr allocCore : ℕ) :
    Option (ParallelAllocator S) :=
  if ptr = 0 then none
  else
    let head := s.freeLists cur allocCore
    let tail := if head = 0 then ptr else s.freeTails cur allocCore
    some { s with
      pools := P.setMem s.pools (store (s.mem P) ptr head)
      freeLists := update s.freeLists cur
        (update (s.freeLists cur) allocCore ptr)
      freeTails := update s.freeTails cur
        (update (s.freeTails cur) allocCore tail)
      live := update s.live allocCore ((s.live allocCore).erase ptr) }

/-- `Free(ptr, alloc_core)` on core `cur`, with `n` for `g_nr_cores`. -/
def free (n : ℕ) (s : ParallelAllocator S) (cur ptr : ℕ) (allocCore : ℤ) :
    Option (ParallelAllocator S) :=
  if allocCore < 0 ∨ (kMaxNrPools : ℤ) ≤ allocCore then none
  else if (n : ℤ) ≤ allocCore ∧ (cur : ℤ) ≠ allocCore then none
  else if (cur : ℤ) = allocCore then do
    let pools ← P.free s.pools cur ptr
    some { s with pools, live := update s.live cur ((s.live cur).erase ptr) }
  else s.freeRemote P cur ptr allocCore.toNat

/-- The body of the loop of `Quiescence()`: core `cur` takes over the free list of core `i`. -/
def consolidate (s : ParallelAllocator S) (cur i : ℕ) : Option (ParallelAllocator S) :=
  let csld := s.csldFreeLists cur
  let tail := s.freeTails i cur
  if tail = 0 then some s
  else if 32 ≤ i then none
  else
    let heads := update csld.heads i (s.freeLists i cur)
    let bitmap := csld.bitmap ||| mark i
    some { s with
      pools := P.setMem s.pools (store (s.mem P) tail (csld.heads i))
      csldFreeLists := update s.csldFreeLists cur { csld with heads, bitmap }
      freeLists := update s.freeLists i (update (s.freeLists i) cur 0)
      freeTails := update s.freeTails i (update (s.freeTails i) cur 0) }

/-- The first `n` rounds of the loop. -/
def consolidateAll (s : ParallelAllocator S) (cur : ℕ) : ℕ → Option (ParallelAllocator S)
  | 0 => some s
  | n + 1 => do
    let s ← s.consolidateAll cur n
    s.consolidate P cur n

/-- `Quiescence()` on core `cur`. -/
def quiescence (n : ℕ) (s : ParallelAllocator S) (cur : ℕ) : Option (ParallelAllocator S) :=
  s.consolidateAll P cur n

/-! ## Runs -/

/-- What happens to the allocator: its operations, each on a core, and a write of one byte into a
chunk that a caller has. -/
inductive Event where
  | alloc (cur : ℕ)
  | free (cur ptr : ℕ) (allocCore : ℤ)
  | quiescence (cur : ℕ)
  | write (core ptr offset : ℕ) (byte : UInt8)

/-- The cores exist, a chunk that is freed is live and comes from the pool that the caller names,
and callers write into live chunks only. -/
def Possible (n : ℕ) (s : ParallelAllocator S) : Event → Prop
  | .alloc cur => cur < n
  | .free cur ptr allocCore =>
    cur < n ∧ 0 ≤ allocCore ∧ allocCore < n ∧ ptr ∈ s.live allocCore.toNat
  | .quiescence cur => cur < n
  | .write core ptr offset _ => ptr ∈ s.live core ∧ offset < P.chunk

instance (n : ℕ) (s : ParallelAllocator S) : ∀ e, Decidable (s.Possible P n e)
  | .alloc _ => inferInstanceAs (Decidable (_ < _))
  | .free .. => inferInstanceAs (Decidable (_ ∧ _))
  | .quiescence _ => inferInstanceAs (Decidable (_ < _))
  | .write .. => inferInstanceAs (Decidable (_ ∧ _))

def exec (n : ℕ) (s : ParallelAllocator S) : Event → Option (ParallelAllocator S)
  | .alloc cur => (s.alloc P cur).map Prod.snd
  | .free cur ptr allocCore => s.free P n cur ptr allocCore
  | .quiescence cur => s.quiescence P n cur
  | .write _ ptr offset byte => some { s with
      pools := P.setMem s.pools (update (s.mem P) (ptr + offset) byte) }

def step (n : ℕ) (s : ParallelAllocator S) (e : Event) : Option (ParallelAllocator S) :=
  if s.Possible P n e then s.exec P n e else none

/-! ## Where the chunks are -/

/-- Where a chunk of a pool can be: in the pool, in the hands of a caller, on the free list of core
`i`, or on list `i` that the owner has taken over. -/
inductive Place where
  | pool
  | live
  | freed (i : ℕ)
  | head (i : ℕ)
  deriving DecidableEq

/-- The first chunk of pool `c` on a list. -/
def start (s : ParallelAllocator S) (c : ℕ) : Place → ℕ
  | .pool => 0
  | .live => 0
  | .freed i => s.freeLists i c
  | .head i => (s.csldFreeLists c).heads i

/-- The chunks of pool `c` that are not in the pool are in the lists `F`. -/
structure CoreOk (n : ℕ) (m : Memory) (s : ParallelAllocator S) (c : ℕ) (F : Place → List ℕ) :
    Prop where
  parted : Parted F
  live_eq : F .live = s.live c
  chain : ∀ p, p ≠ .live → Chain m (s.start c p) (F p)
  tail_eq : ∀ i, s.freeTails i c = (F (.freed i)).getLastD 0
  own : F (.freed c) = []
  above : ∀ i, n ≤ i → F (.freed i) = [] ∧ F (.head i) = []
  csld : (s.csldFreeLists c).Ok fun i => F (.head i)

/-- The chunk `x` of pool `c` is in one of the lists. -/
def Taken (G : ℕ → Place → List ℕ) (c x : ℕ) : Prop := ∃ p, x ∈ G c p

/-- The pools and the lists of all cores are in order. -/
structure Inv {P : Pools S} (K : Contract P n) (s : ParallelAllocator S)
    (G : ℕ → Place → List ℕ) : Prop where
  valid : K.Valid s.pools (Taken G)
  core : ∀ c, CoreOk n (s.mem P) s c (G c)

/-- The lists of the chunks of pool `c` have not changed. -/
structure SameLists (s s' : ParallelAllocator S) (c : ℕ) : Prop where
  lists : ∀ i, s'.freeLists i c = s.freeLists i c
  tails : ∀ i, s'.freeTails i c = s.freeTails i c
  csld : s'.csldFreeLists c = s.csldFreeLists c

variable {s s' : ParallelAllocator S} {F F' : Place → List ℕ} {m m' : Memory}

theorem SameLists.start_eq (h : SameLists s s' c) (p : Place) : s'.start c p = s.start c p := by
  cases p with
  | pool | live => rfl
  | freed i => exact h.lists i
  | head i => exact congrArg (·.heads i) h.csld

namespace CoreOk

variable (h : CoreOk n m s c F)

include h

/-- The chunks that callers have change, and the lists stay. -/
theorem setLive (hsame : SameLists s s' c) (hF' : Parted F') (hlive : F' .live = s'.live c)
    (hother : ∀ p, p ≠ .live → F' p = F p)
    (hload : ∀ p, p ≠ .live → ∀ x ∈ F p, load m' x = load m x) : CoreOk n m' s' c F' where
  parted := hF'
  live_eq := hlive
  chain := fun p hp => by
    rw [hother p hp, hsame.start_eq p]
    exact (h.chain p hp).congr (hload p hp)
  tail_eq := fun i => by rw [hother _ (by simp), hsame.tails, h.tail_eq]
  own := (hother _ (by simp)).trans h.own
  above := fun i hi => by
    rw [hother _ (by simp), hother _ (by simp)]
    exact h.above i hi
  csld := by
    have hheads : (fun i => F' (.head i)) = fun i => F (.head i) := by
      funext i
      exact hother _ (by simp)
    rw [hheads, hsame.csld]
    exact h.csld

theorem congr (hsame : SameLists s s' c) (hlive : s'.live c = s.live c)
    (hload : ∀ p, ∀ x ∈ F p, load m' x = load m x) : CoreOk n m' s' c F :=
  h.setLive hsame h.parted (h.live_eq.trans hlive.symm) (fun _ _ => rfl) fun p _ => hload p

/-- The first chunk of list `d` goes to a caller. -/
theorem pop (hd : d < 32) {xs : List ℕ} (hlist : F (.head d) = x :: xs)
    (hlive : s'.live c = x :: s.live c) (hlists : ∀ i, s'.freeLists i c = s.freeLists i c)
    (htails : ∀ i, s'.freeTails i c = s.freeTails i c) (hcsld : s'.csldFreeLists c =
      { dice := d
        bitmap := if xs = [] then (s.csldFreeLists c).bitmap &&& unmark d
          else (s.csldFreeLists c).bitmap
        heads := update (s.csldFreeLists c).heads d (load m x) }) :
    CoreOk n m s' c (put (take F (.head d) x) .live x) := by
  have hx : x ∈ F (.head d) := hlist ▸ mem_cons_self
  have hne : F (.head d) ≠ [] := ne_nil_of_mem hx
  have hrest := h.chain (.head d) (by simp)
  rw [hlist] at hrest
  have hheads : (fun i => put (take F (.head d) x) .live x (.head i)) =
      update (fun i => F (.head i)) d xs := by
    funext i
    rw [put_of_ne (by simp)]
    rcases eq_or_ne i d with rfl | hi
    · rw [take_self, hlist, erase_cons_head, update_self]
    · rw [take_of_ne (by simpa using hi), update_of_ne hi]
  have hother : ∀ p, p ≠ .live → (∀ i, p ≠ .head i) → put (take F (.head d) x) .live x p = F p :=
    fun p hp hi => by rw [put_of_ne hp, take_of_ne (hi d)]
  exact
    { parted := h.parted.move hx _
      live_eq := by rw [put_self, take_of_ne (by simp), h.live_eq, hlive]
      chain := fun p hp => by
        cases p with
        | pool => exact hother .pool (by simp) (by simp) ▸ h.chain .pool hp
        | live => exact absurd rfl hp
        | freed i =>
          rw [hother _ (by simp) (by simp), start, hlists]
          exact h.chain (.freed i) hp
        | head i =>
          rw [congrFun hheads i, start, hcsld]
          rcases eq_or_ne i d with rfl | hi
          · simpa using hrest.2.2
          · dsimp only
            rw [update_of_ne hi, update_of_ne hi]
            exact h.chain (.head i) hp
      tail_eq := fun i => by rw [hother _ (by simp) (by simp), htails, h.tail_eq]
      own := (hother _ (by simp) (by simp)).trans h.own
      above := fun i hi => by
        refine ⟨(hother _ (by simp) (by simp)).trans (h.above i hi).1, ?_⟩
        have hid : i ≠ d := fun he => hne (he ▸ (h.above i hi).2)
        rw [congrFun hheads i, update_of_ne hid]
        exact (h.above i hi).2
      csld := by
        rw [hheads, hcsld]
        exact h.csld.pop hd _ hne }

/-- The chunk `x` goes from a caller to the free list of core `i`. -/
theorem push (hx : x ∈ F .live) (hxz : x ≠ 0) (hi : i < n) (hic : i ≠ c)
    (hlt : s.freeLists i c < 2 ^ 64) (hapart : ∀ p, ∀ y ∈ F p, y ≠ x → Apart x y)
    (hlive : s'.live c = (s.live c).erase x)
    (hlists : ∀ j, s'.freeLists j c = if j = i then x else s.freeLists j c)
    (htails : ∀ j, s'.freeTails j c = if j = i ∧ s.freeLists i c = 0 then x else s.freeTails j c)
    (hcsld : s'.csldFreeLists c = s.csldFreeLists c) :
    CoreOk n (store m x (s.freeLists i c)) s' c (put (take F .live x) (.freed i) x) := by
  have hlist : put (take F .live x) (.freed i) x (.freed i) = x :: F (.freed i) := by
    rw [put_self, take_of_ne (by simp)]
  have hother : ∀ p, p ≠ .live → p ≠ .freed i → put (take F .live x) (.freed i) x p = F p :=
    fun p hp hne => by rw [put_of_ne hne, take_of_ne hp]
  have hfar : ∀ p, p ≠ .live → ∀ y ∈ F p, Apart x y := fun p hp y hy =>
    hapart p y hy fun he => hp (h.parted.eq_of_mem p .live x (he ▸ hy) hx)
  exact
    { parted := h.parted.move hx _
      live_eq := by rw [put_of_ne (by simp), take_self, h.live_eq, hlive]
      chain := fun p hp => by
        rcases eq_or_ne p (.freed i) with rfl | hne
        · rw [hlist, start, hlists, if_pos rfl]
          exact (h.chain (.freed i) hp).push hxz hlt (hfar _ hp)
        · have hstart : s'.start c p = s.start c p := by
            cases p with
            | pool | live => rfl
            | freed j => rw [start, hlists, if_neg (by simpa using hne), start]
            | head j => exact congrArg (·.heads j) hcsld
          rw [hother p hp hne, hstart]
          exact (h.chain p hp).store (hfar p hp)
      tail_eq := fun j => by
        have hnil : s.freeLists i c = 0 ↔ F (.freed i) = [] :=
          (h.chain (.freed i) (by simp)).eq_zero_iff
        rw [htails]
        rcases eq_or_ne j i with rfl | hj
        · rw [hlist]
          cases hF : F (.freed j) with
          | nil => simp [hnil, hF]
          | cons y ys => simp [hnil, hF, h.tail_eq, List.getLastD]
        · rw [if_neg (by tauto), hother _ (by simp) (by simpa using hj), h.tail_eq]
      own := (hother _ (by simp) (by simpa using hic.symm)).trans h.own
      above := fun j hj => by
        rw [hother _ (by simp) (by simp; omega), hother _ (by simp) (by simp)]
        exact h.above j hj
      csld := by
        have hheads : (fun j => put (take F .live x) (.freed i) x (.head j)) =
            fun j => F (.head j) := by
          funext j
          exact hother _ (by simp) (by simp)
        rw [hheads, hcsld]
        exact h.csld }

/-- The free list of core `i` is put in front of list `i`. -/
theorem splice (ht : s.freeTails i c ≠ 0) (hi : i < 32) (hlt : (s.csldFreeLists c).heads i < 2 ^ 64)
    (hapart : ∀ p, ∀ x ∈ F p, ∀ q, ∀ y ∈ F q, x ≠ y → Apart x y) (hlive : s'.live c = s.live c)
    (hlists : ∀ j, s'.freeLists j c = if j = i then 0 else s.freeLists j c)
    (htails : ∀ j, s'.freeTails j c = if j = i then 0 else s.freeTails j c)
    (hcsld : s'.csldFreeLists c = { s.csldFreeLists c with
      heads := update (s.csldFreeLists c).heads i (s.freeLists i c)
      bitmap := (s.csldFreeLists c).bitmap ||| mark i }) :
    CoreOk n (store m (s.freeTails i c) ((s.csldFreeLists c).heads i)) s' c
      (join F (.freed i) (.head i)) := by
  have hne : F (.freed i) ≠ [] := fun hnil => ht (by rw [h.tail_eq, hnil]; rfl)
  obtain ⟨as, t, hlist⟩ := (eq_nil_or_concat' (F (.freed i))).resolve_left hne
  have htail : s.freeTails i c = t := by rw [h.tail_eq, hlist, getLastD_concat]
  have htmem : t ∈ F (.freed i) := by simp [hlist]
  have hother : ∀ p, p ≠ .freed i → p ≠ .head i → join F (.freed i) (.head i) p = F p :=
    fun p hp hq => join_of_ne hp hq
  have hhead : join F (.freed i) (.head i) (.head i) = F (.freed i) ++ F (.head i) :=
    join_right (by simp)
  have hfar : ∀ p, p ≠ .freed i → ∀ y ∈ F p, Apart t y := fun p hp y hy =>
    hapart _ t htmem p y hy fun he => hp (h.parted.eq_of_mem p _ t (he ▸ hy) htmem)
  have hfront : ∀ a ∈ as, Apart t a := fun a ha => by
    refine hapart _ t htmem (.freed i) a (by simp [hlist, ha]) ?_
    rintro rfl
    have hnodup := h.parted.nodup (.freed i)
    rw [hlist, nodup_append] at hnodup
    exact hnodup.2.2 t ha t mem_cons_self rfl
  rw [htail]
  exact
    { parted := h.parted.join (by simp)
      live_eq := by rw [hother _ (by simp) (by simp), h.live_eq, hlive]
      chain := fun p hp => by
        cases p with
        | pool =>
          rw [hother _ (by simp) (by simp)]
          exact (h.chain .pool hp).store (hfar _ (by simp))
        | live => exact absurd rfl hp
        | freed j =>
          rw [start, hlists]
          rcases eq_or_ne j i with rfl | hj
          · rw [if_pos rfl, join_left, chain_nil]
          · rw [if_neg hj, hother _ (by simpa using hj) (by simp)]
            exact (h.chain (.freed j) hp).store (hfar _ (by simpa using hj))
        | head j =>
          rw [start, hcsld]
          dsimp only
          rcases eq_or_ne j i with rfl | hj
          · have hfreed := h.chain (.freed j) (by simp)
            rw [hlist] at hfreed
            rw [hhead, update_self, hlist]
            exact hfreed.splice (h.chain (.head j) hp) hlt hfront (hfar _ (by simp))
          · rw [update_of_ne hj, hother _ (by simp) (by simpa using hj)]
            exact (h.chain (.head j) hp).store (hfar _ (by simp))
      tail_eq := fun j => by
        rw [htails]
        rcases eq_or_ne j i with rfl | hj
        · rw [if_pos rfl, join_left]
          rfl
        · rw [if_neg hj, hother _ (by simpa using hj) (by simp), h.tail_eq]
      own := by
        have hic : c ≠ i := fun he => hne (he ▸ h.own)
        rw [hother _ (by simpa using hic) (by simp), h.own]
      above := fun j hj => by
        have hji : j ≠ i := fun he => hne (he ▸ (h.above j hj).1)
        rw [hother _ (by simpa using hji) (by simp), hother _ (by simp) (by simpa using hji)]
        exact h.above j hj
      csld := by
        have hheads : (fun j => join F (.freed i) (.head i) (.head j)) =
            update (fun j => F (.head j)) i (F (.freed i) ++ F (.head i)) := by
          funext j
          rcases eq_or_ne j i with rfl | hj
          · rw [hhead, update_self]
          · rw [update_of_ne hj, hother _ (by simp) (by simpa using hj)]
        rw [hheads, hcsld]
        exact h.csld.mark hi (by simp [hne]) _ }

end CoreOk

theorem update_update_self {f : ℕ → ℕ → ℕ} {v : ℕ} :
    update f i (update (f i) c v) j c = if j = i then v else f j c := by
  rcases eq_or_ne j i with rfl | hj
  · rw [update_self, update_self, if_pos rfl]
  · rw [update_of_ne hj, if_neg hj]

theorem update_update_of_ne {f : ℕ → ℕ → ℕ} {v : ℕ} (hd : d ≠ c) :
    update f i (update (f i) c v) j d = f j d := by
  rcases eq_or_ne j i with rfl | hj
  · rw [update_self, update_of_ne hd]
  · rw [update_of_ne hj]

variable {G : ℕ → Place → List ℕ}

theorem taken_update_self : Taken (update G c F) c x ↔ ∃ p, x ∈ F p := by
  rw [Taken, update_self]

theorem taken_update_of_ne (h : d ≠ c) : Taken (update G c F) d x ↔ Taken G d x := by
  rw [Taken, update_of_ne h, Taken]

/-- The chunks have only changed their lists. -/
theorem taken_update_same (h : ∀ y, (∃ p, y ∈ F p) ↔ ∃ p, y ∈ G c p) :
    Taken (update G c F) = Taken G := by
  funext d y
  rw [eq_iff_iff]
  rcases eq_or_ne d c with rfl | hd
  · rw [taken_update_self, h]
    rfl
  · exact taken_update_of_ne hd

theorem taken_update_put (h : ∀ y, (∃ p, y ∈ F p) ↔ (∃ p, y ∈ G c p) ∨ y = x) :
    Taken (update G c F) = fun d y => Taken G d y ∨ d = c ∧ y = x := by
  funext d y
  rw [eq_iff_iff]
  rcases eq_or_ne d c with rfl | hd
  · rw [taken_update_self, h]
    simp [Taken]
  · simp [taken_update_of_ne hd, hd]

theorem taken_update_take (h : ∀ y, (∃ p, y ∈ F p) ↔ (∃ p, y ∈ G c p) ∧ y ≠ x) :
    Taken (update G c F) = fun d y => Taken G d y ∧ ¬(d = c ∧ y = x) := by
  funext d y
  rw [eq_iff_iff]
  rcases eq_or_ne d c with rfl | hd
  · rw [taken_update_self, h]
    simp [Taken]
  · simp [taken_update_of_ne hd, hd]

namespace Inv

variable {P : Pools S} {K : Contract P n}

section

variable (h : Inv K s G)

include h

theorem apart (hx : Taken G c x) (hy : Taken G d y) (hne : ¬(c = d ∧ x = y)) : Apart x y := by
  have hchunk := K.chunk_ge
  have := K.out_disjoint h.valid hx hy hne
  unfold Apart
  omega

theorem start_lt {p : Place} (hp : p ≠ .live) : s.start c p < 2 ^ 64 := by
  have hchain := (h.core c).chain p hp
  cases hF : G c p with
  | nil =>
    rw [hF] at hchain
    rw [chain_nil.1 hchain]
    norm_num
  | cons x xs =>
    have hx : x ∈ G c p := hF ▸ mem_cons_self
    rw [hF] at hchain
    exact hchain.1 ▸ (K.out_lt h.valid ⟨p, hx⟩).2.2

theorem replace (hsame : ∀ d ≠ c, SameLists s s' d) (hlive : ∀ d ≠ c, s'.live d = s.live d)
    (hload : ∀ d ≠ c, ∀ x, Taken G d x → load (s'.mem P) x = load (s.mem P) x)
    (hcore : CoreOk n (s'.mem P) s' c F) (hvalid : K.Valid s'.pools (Taken (update G c F))) :
    Inv K s' (update G c F) where
  valid := hvalid
  core := fun d => by
    rcases eq_or_ne d c with rfl | hd
    · rwa [update_self]
    · rw [update_of_ne hd]
      exact (h.core d).congr (hsame d hd) (hlive d hd) fun p x hx => hload d hd x ⟨p, hx⟩

/-! ### Alloc -/

/-- `Alloc()` on a core that has taken lists over gives the first chunk of one of them. -/
theorem alloc_list (hb : (s.csldFreeLists c).bitmap ≠ 0) :
    ∃ d x s', x ∈ G c (.head d) ∧ s.alloc P c = some (x, s') ∧
      Inv K s' (update G c (put (take (G c) (.head d) x) .live x)) := by
  have hc := h.core c
  obtain ⟨d, hd, hnext, hne⟩ := hc.csld.next hb
  obtain ⟨x, xs, hlist⟩ := exists_cons_of_ne_nil hne
  have hx : x ∈ G c (.head d) := hlist ▸ mem_cons_self
  have hchain := hc.chain (.head d) (by simp)
  rw [hlist] at hchain
  obtain ⟨hhead, hxz, hrest⟩ := hchain
  change (s.csldFreeLists c).heads d = x at hhead
  have htail : load (s.mem P) x = 0 ↔ xs = [] := hrest.eq_zero_iff
  let csld : ConsolidateFreeList :=
    { dice := d
      bitmap := if xs = [] then (s.csldFreeLists c).bitmap &&& unmark d
        else (s.csldFreeLists c).bitmap
      heads := update (s.csldFreeLists c).heads d (load (s.mem P) x) }
  let s' : ParallelAllocator S := { s with
    csldFreeLists := update s.csldFreeLists c csld
    live := update s.live c (x :: s.live c) }
  have halloc : s.alloc P c = some (x, s') := by
    simp only [alloc, ne_eq, hb, not_false_eq_true, if_true, hnext, bind_eq_bind,
      bind_some, hhead, hxz, false_or, htail]
    rw [if_neg (by omega)]
  have hcore : CoreOk n (s.mem P) s' c (put (take (G c) (.head d) x) .live x) :=
    hc.pop hd hlist (update_self ..) (fun _ => rfl) (fun _ => rfl)
      (update_self ..)
  refine ⟨d, x, s', hx, halloc, h.replace (fun e he => ?_) (fun e he => ?_) (fun _ _ _ _ => rfl)
    hcore ?_⟩
  · exact ⟨fun _ => rfl, fun _ => rfl, update_of_ne he _ _⟩
  · exact update_of_ne he _ _
  · rw [taken_update_same fun y => hc.parted.exists_mem_move hx]
    exact h.valid

/-- `Alloc()` on a core that has taken no list over asks its pool. -/
theorem alloc_pool (hcn : c < n) (hb : (s.csldFreeLists c).bitmap = 0)
    (halloc : s.alloc P c = some (x, s')) :
    x = 0 ∧ Inv K s' G ∨
      x ≠ 0 ∧ (∀ d, ¬Taken G d x) ∧ Inv K s' (update G c (put (G c) .live x)) := by
  simp only [alloc, ne_eq, hb, not_true_eq_false, if_false, bind_eq_bind,
    bind_eq_some_iff] at halloc
  obtain ⟨⟨y, pools⟩, hpool, hs'⟩ := halloc
  simp only [Option.some.injEq, Prod.mk.injEq] at hs'
  obtain ⟨rfl, rfl⟩ := hs'
  obtain ⟨hload, ⟨rfl, hvalid⟩ | ⟨hy, hnot, hvalid⟩⟩ := K.valid_alloc h.valid hcn hpool
  · exact .inl ⟨rfl, hvalid, fun d =>
      (h.core d).congr ⟨fun _ => rfl, fun _ => rfl, rfl⟩ rfl fun p x hx => hload d x ⟨p, hx⟩⟩
  · refine .inr ⟨hy, hnot, h.replace (fun d _ => ⟨fun _ => rfl, fun _ => rfl, rfl⟩) (fun d hd => ?_)
      (fun d _ x hx => hload d x hx) ?_ ?_⟩
    · simp only [hy, if_false]
      exact update_of_ne hd _ _
    · refine (h.core c).setLive ⟨fun _ => rfl, fun _ => rfl, rfl⟩
        ((h.core c).parted.put fun p hp => hnot c ⟨p, hp⟩) ?_ (fun p hp => put_of_ne hp)
        fun p _ x hx => hload c x ⟨p, hx⟩
      simp only [hy, if_false]
      rw [put_self, (h.core c).live_eq, update_self]
    · rw [taken_update_put fun z => exists_mem_put]
      exact hvalid

/-! ### Free -/

/-- `Free(ptr, alloc_core)` on the core of the pool. -/
theorem free_own (hn : n ≤ 32) (hx : x ∈ s.live c) :
    ∃ s', s.free P n c x c = some s' ∧ Inv K s' (update G c (take (G c) .live x)) := by
  have hc := h.core c
  rw [← hc.live_eq] at hx
  have hcn := (K.out_lt h.valid ⟨_, hx⟩).1
  obtain ⟨pools, hfree, hvalid, hload⟩ := K.valid_free h.valid ⟨_, hx⟩
  have hload' : ∀ d ≠ c, ∀ y, Taken G d y → load (P.mem pools) y = load (s.mem P) y :=
    fun d hd y hy => hload d y hy fun he => hd he.1
  let s' : ParallelAllocator S :=
    { s with pools, live := update s.live c ((s.live c).erase x) }
  have hs' : s.free P n c x c = some s' := by
    have h1 : ¬((c : ℤ) < 0 ∨ (kMaxNrPools : ℤ) ≤ c) := by
      rw [kMaxNrPools]
      omega
    simp only [free, h1, if_false, ne_eq, not_true_eq_false, and_false, if_true, hfree,
      bind_eq_bind, bind_some, s']
  refine ⟨s', hs', h.replace (fun d _ => ⟨fun _ => rfl, fun _ => rfl, rfl⟩)
    (fun d hd => update_of_ne hd _ _) hload' ?_ ?_⟩
  · refine hc.setLive ⟨fun _ => rfl, fun _ => rfl, rfl⟩ (hc.parted.take _ x) ?_
      (fun p hp => take_of_ne hp) fun p hp y hy => hload c y ⟨p, hy⟩ ?_
    · rw [take_self, hc.live_eq]
      exact (update_self c _ s.live).symm
    · rintro ⟨-, rfl⟩
      exact hp (hc.parted.eq_of_mem p _ y hy hx)
  · rw [taken_update_take fun y => hc.parted.exists_mem_take hx]
    exact hvalid

/-- `Free(ptr, alloc_core)` on another core. -/
theorem free_remote (hn : n ≤ 32) (hi : i < n) (hic : i ≠ c) (hx : x ∈ s.live c) :
    ∃ s', s.free P n i x c = some s' ∧
      Inv K s' (update G c (put (take (G c) .live x) (.freed i) x)) := by
  have hc := h.core c
  rw [← hc.live_eq] at hx
  obtain ⟨hcn, hxz, -⟩ := K.out_lt h.valid ⟨_, hx⟩
  have hlt : s.freeLists i c < 2 ^ 64 := h.start_lt (p := .freed i) (by simp)
  have hapart : ∀ d y, Taken G d y → ¬(c = d ∧ x = y) → Apart x y := fun d y hy hne =>
    h.apart ⟨_, hx⟩ hy hne
  let tail := if s.freeLists i c = 0 then x else s.freeTails i c
  let s' : ParallelAllocator S := { s with
    pools := P.setMem s.pools (store (s.mem P) x (s.freeLists i c))
    freeLists := update s.freeLists i (update (s.freeLists i) c x)
    freeTails := update s.freeTails i (update (s.freeTails i) c tail)
    live := update s.live c ((s.live c).erase x) }
  have hmem : s'.mem P = store (s.mem P) x (s.freeLists i c) := K.mem_setMem _ _
  have hs' : s.free P n i x c = some s' := by
    have h1 : ¬((c : ℤ) < 0 ∨ (kMaxNrPools : ℤ) ≤ c) := by
      rw [kMaxNrPools]
      omega
    have h2 : ¬((n : ℤ) ≤ c ∧ (i : ℤ) ≠ c) := by omega
    have h3 : ¬((i : ℤ) = c) := by omega
    simp only [free, h1, h2, h3, if_false, freeRemote, hxz, Int.toNat_natCast, s', tail]
  refine ⟨s', hs', h.replace (fun d hd => ⟨fun j => ?_, fun j => ?_, rfl⟩)
    (fun d hd => update_of_ne hd _ _) (fun d hd y hy => ?_) ?_ ?_⟩
  · exact update_update_of_ne hd
  · exact update_update_of_ne hd
  · rw [hmem, load_store_of_apart (hapart d y hy fun he => hd he.1.symm)]
  · rw [hmem]
    refine hc.push hx hxz hi hic hlt (fun p y hy hne => hapart c y ⟨p, hy⟩ fun he => hne he.2.symm)
      (update_self ..) (fun j => ?_) (fun j => ?_) rfl
    · exact update_update_self
    · rcases eq_or_ne j i with rfl | hj
      · simp [s', tail]
      · simp [s', hj]
  · rw [taken_update_same fun y => hc.parted.exists_mem_move hx]
    exact K.valid_write h.valid ⟨_, hx⟩
      ((SameOutside.store _ x _).mono le_rfl (Nat.add_le_add_left K.chunk_ge x))

/-! ### Quiescence -/

theorem consolidate (hi : i < 32) :
    ∃ s' F, s.consolidate P c i = some s' ∧ Inv K s' (update G c F) ∧
      s'.freeTails = update s.freeTails i (update (s.freeTails i) c 0) := by
  have hc := h.core c
  by_cases ht : s.freeTails i c = 0
  · refine ⟨s, G c, by simp [ParallelAllocator.consolidate, ht], by rwa [update_eq_self],
      ?_⟩
    rw [← ht, update_eq_self, update_eq_self]
  · have hne : G c (.freed i) ≠ [] := fun hnil => ht (by rw [hc.tail_eq, hnil]; rfl)
    have htmem : s.freeTails i c ∈ G c (.freed i) := by
      obtain ⟨as, t, hlist⟩ := (eq_nil_or_concat' (G c (.freed i))).resolve_left hne
      rw [hc.tail_eq, hlist, getLastD_concat]
      exact mem_append_right as mem_cons_self
    have hlt : (s.csldFreeLists c).heads i < 2 ^ 64 := h.start_lt (p := .head i) (by simp)
    let csld : ConsolidateFreeList := { s.csldFreeLists c with
      heads := update (s.csldFreeLists c).heads i (s.freeLists i c)
      bitmap := (s.csldFreeLists c).bitmap ||| mark i }
    let s' : ParallelAllocator S := { s with
      pools := P.setMem s.pools (store (s.mem P) (s.freeTails i c) ((s.csldFreeLists c).heads i))
      csldFreeLists := update s.csldFreeLists c csld
      freeLists := update s.freeLists i (update (s.freeLists i) c 0)
      freeTails := update s.freeTails i (update (s.freeTails i) c 0) }
    have hs' : s.consolidate P c i = some s' := by
      simp only [ParallelAllocator.consolidate, ht, if_false, not_le.2 hi]
      rfl
    have hmem : s'.mem P = store (s.mem P) (s.freeTails i c) ((s.csldFreeLists c).heads i) :=
      K.mem_setMem _ _
    have hcore : CoreOk n (s'.mem P) s' c (join (G c) (.freed i) (.head i)) := by
      rw [hmem]
      exact hc.splice ht hi hlt
        (fun p x hx q y hy hne => h.apart ⟨p, hx⟩ ⟨q, hy⟩ fun he => hne he.2) rfl
        (fun j => update_update_self) (fun j => update_update_self) (update_self ..)
    refine ⟨s', _, hs', h.replace (fun d hd => ?_) (fun _ _ => rfl) (fun d hd y hy => ?_) hcore ?_,
      rfl⟩
    · exact ⟨fun j => update_update_of_ne hd, fun j => update_update_of_ne hd,
        update_of_ne hd _ _⟩
    · rw [hmem, load_store_of_apart (h.apart ⟨_, htmem⟩ hy fun he => hd he.1.symm)]
    · rw [taken_update_same fun y => exists_mem_join (by simp)]
      exact K.valid_write h.valid ⟨_, htmem⟩
        ((SameOutside.store _ (s.freeTails i c) _).mono le_rfl (Nat.add_le_add_left K.chunk_ge _))

/-- After `k` rounds of the loop the first `k` cores have no chunk of the pool on a free list. -/
theorem consolidateAll (hk : k ≤ 32) :
    ∃ s' G', s.consolidateAll P c k = some s' ∧ Inv K s' G' ∧
      ∀ i, s'.freeTails i c = if i < k then 0 else s.freeTails i c := by
  induction k with
  | zero => exact ⟨s, G, rfl, h, fun i => by simp⟩
  | succ k ih =>
    obtain ⟨s', G', hrun, hinv, htails⟩ := ih (by omega)
    obtain ⟨s'', F, hround, hinv', htails'⟩ := hinv.consolidate (c := c) (i := k) (by omega)
    refine ⟨s'', _, by simp [ParallelAllocator.consolidateAll, hrun, hround], hinv', fun i => ?_⟩
    rw [htails', update_update_self, htails]
    split_ifs <;> first | rfl | omega

/-- `Quiescence()` leaves no chunk of the pool on a free list of a core. -/
theorem quiescence (hn : n ≤ 32) :
    ∃ s' G', s.quiescence P n c = some s' ∧ Inv K s' G' ∧ ∀ i, s'.freeTails i c = 0 := by
  obtain ⟨s', G', hrun, hinv, htails⟩ := h.consolidateAll (c := c) hn
  refine ⟨s', G', hrun, hinv, fun i => ?_⟩
  rw [htails]
  split_ifs with hi
  · rfl
  · rw [(h.core c).tail_eq, ((h.core c).above i (not_lt.1 hi)).1]
    rfl

/-! ### Runs -/

/-- A caller writes into a chunk that it has. -/
theorem write {o : ℕ} {b : UInt8} (hx : x ∈ s.live c) (ho : o < P.chunk) :
    Inv K { s with pools := P.setMem s.pools (update (s.mem P) (x + o) b) } G := by
  rw [← (h.core c).live_eq] at hx
  have hsame : SameOutside x (x + P.chunk) (s.mem P) (update (s.mem P) (x + o) b) :=
    (SameOutside.update _ (x + o) b).mono (by omega) (by omega)
  have hchunk := K.chunk_ge
  refine ⟨K.valid_write h.valid ⟨_, hx⟩ hsame, fun d => ?_⟩
  refine (h.core d).setLive ⟨fun _ => rfl, fun _ => rfl, rfl⟩ (h.core d).parted (h.core d).live_eq
    (fun _ _ => rfl) fun p hp y hy => ?_
  have hne : ¬(c = d ∧ x = y) := by
    rintro ⟨rfl, rfl⟩
    exact hp ((h.core c).parted.eq_of_mem p .live x hy hx)
  rw [mem, K.mem_setMem]
  exact hsame.load_eq (by
    have := K.out_disjoint h.valid ⟨_, hx⟩ ⟨p, hy⟩ hne
    omega)

end

theorem init (hvalid : K.Valid s₀ fun _ _ => False) :
    Inv K (ParallelAllocator.init s₀) fun _ _ => [] where
  valid := by
    have htaken : Taken (fun _ _ => []) = fun _ _ => False := by
      funext c x
      simp [Taken]
    rwa [htaken]
  core := fun c =>
    { parted := .nil
      live_eq := rfl
      chain := fun p _ => by
        cases p with
        | pool | live | freed i | head i => exact chain_nil.2 rfl
      tail_eq := fun _ => rfl
      own := rfl
      above := fun _ _ => ⟨rfl, rfl⟩
      csld :=
        { dice_lt := Nat.zero_lt_succ 31
          bit_iff := fun i _ => by simp [ParallelAllocator.init]
          high := fun i _ _ => by simp [ParallelAllocator.init] } }

theorem step (h : Inv K s G) (hn : n ≤ 32) {e : Event} (hstep : s.step P n e = some s') :
    ∃ G', Inv K s' G' := by
  rw [ParallelAllocator.step] at hstep
  split_ifs at hstep with hpos
  cases e with
  | alloc c =>
    obtain ⟨⟨x, t⟩, halloc, rfl⟩ := map_eq_some_iff.1 hstep
    by_cases hb : (s.csldFreeLists c).bitmap = 0
    · rcases h.alloc_pool hpos hb halloc with ⟨-, hinv⟩ | ⟨-, -, hinv⟩
      · exact ⟨_, hinv⟩
      · exact ⟨_, hinv⟩
    · obtain ⟨d, x', t', -, halloc', hinv⟩ := h.alloc_list hb
      cases halloc.symm.trans halloc'
      exact ⟨_, hinv⟩
  | free cur x core =>
    obtain ⟨hcur, hnonneg, hcore, hx⟩ := hpos
    obtain ⟨c, rfl⟩ := Int.eq_ofNat_of_zero_le hnonneg
    rw [Int.toNat_natCast] at hx
    rcases eq_or_ne cur c with rfl | hne
    · obtain ⟨t, ht, hinv⟩ := h.free_own hn hx
      cases hstep.symm.trans ht
      exact ⟨_, hinv⟩
    · obtain ⟨t, ht, hinv⟩ := h.free_remote hn hcur hne hx
      cases hstep.symm.trans ht
      exact ⟨_, hinv⟩
  | quiescence c =>
    obtain ⟨t, G', ht, hinv, -⟩ := h.quiescence (c := c) hn
    cases hstep.symm.trans ht
    exact ⟨_, hinv⟩
  | write c x o b =>
    cases hstep
    exact ⟨_, h.write hpos.1 hpos.2⟩

end Inv

end ParallelAllocator

end Felis.Mem
