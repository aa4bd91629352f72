import Felis.Mem.Parallel
import Felis.Mem.Pool

/-!
# The parallel allocator conserves chunks

`Conserved` is what holds of a `ParallelAllocator` between its operations: every chunk of a pool is
in exactly one place. `Blocks.contract` shows that `BasicPool`s over memory that does not overlap,
as `ParallelPool` has them, meet the contract of the pools.
-/

namespace Felis.Mem

open FreeList Parts Runs Function List

variable {n c d x y : ℕ}

/-! ## Basic pools -/

/-- The memory of the chunks, and the pool of every core. -/
structure BasicPools where
  mem : Memory
  pool : ℕ → WeakPool

namespace BasicPools

def pools (chunk : ℕ) : Pools BasicPools where
  chunk
  mem := BasicPools.mem
  setMem := fun s mem => { s with mem }
  alloc := fun s c => (BasicPool.alloc s.mem (s.pool c)).map fun r =>
    (r.1, { s with pool := update s.pool c r.2 })
  free := fun s c ptr => (BasicPool.free s.mem (s.pool c) ptr).map fun r =>
    { mem := r.1, pool := update s.pool c r.2 }

end BasicPools

/-- The memory of the pools of `n` cores. -/
structure Blocks (n chunk : ℕ) where
  block : ℕ → Block
  chunk_eq : ∀ c, (block c).chunk = chunk
  cap_pos : ∀ c < n, 0 < (block c).cap
  disjoint : ∀ c < n, ∀ d < n, c ≠ d →
    (block c).data + (block c).cap * (block c).chunk ≤ (block d).data ∨
      (block d).data + (block d).cap * (block d).chunk ≤ (block c).data

namespace Blocks

variable {chunk : ℕ} {B : Blocks n chunk} {s : BasicPools} {out : ℕ → ℕ → Prop}

/-- Every pool holds the chunks of its block that are not out. -/
structure Valid (B : Blocks n chunk) (s : BasicPools) (out : ℕ → ℕ → Prop) : Prop where
  lt : ∀ c x, out c x → c < n
  holds : ∀ c < n, ∃ xs, Holds s.mem (s.pool c) (B.block c) xs ∧
    ∀ x, out c x ↔ (B.block c).IsChunk x ∧ x ∉ xs

/-- The chunk is on the free list of the pool. -/
def InPool (n : ℕ) (s : BasicPools) (c x : ℕ) : Prop :=
  c < n ∧ ∃ xs, Chain s.mem (s.pool c).head xs ∧ x ∈ xs

theorem eq_of_isChunk (hc : c < n) (hd : d < n) (hx : (B.block c).IsChunk x)
    (hx' : (B.block d).IsChunk x) : c = d := by
  by_contra hne
  exact hx.not_of_disjoint (B.disjoint c hc d hd hne) hx'

/-- Different chunks, of one block or of two, share no byte. -/
theorem chunks_disjoint (hc : c < n) (hd : d < n) (hx : (B.block c).IsChunk x)
    (hy : (B.block d).IsChunk y) (hne : ¬(c = d ∧ x = y)) : x + chunk ≤ y ∨ y + chunk ≤ x := by
  rcases eq_or_ne c d with rfl | hcd
  · have := hx.disjoint hy fun he => hne ⟨rfl, he⟩
    rwa [B.chunk_eq] at this
  · have h1 := B.disjoint c hc d hd hcd
    have h2 := hx.data_le
    have h3 := hx.end_le
    have h4 := hy.data_le
    have h5 := hy.end_le
    rw [B.chunk_eq] at h3 h5
    simp only [B.chunk_eq] at h1
    omega

namespace Valid

variable (h : B.Valid s out)

include h

theorem isChunk (hx : out c x) : (B.block c).IsChunk x := by
  obtain ⟨xs, -, hout⟩ := h.holds c (h.lt c x hx)
  exact ((hout x).1 hx).1

theorem inPool_isChunk (hx : InPool n s c x) : (B.block c).IsChunk x ∧ ¬out c x := by
  obtain ⟨hc, xs, hchain, hmem⟩ := hx
  obtain ⟨ys, hholds, hout⟩ := h.holds c hc
  rw [hchain.unique hholds.chain] at hmem
  exact ⟨hholds.isChunk x hmem, fun ho => ((hout x).1 ho).2 hmem⟩

/-- A change of the memory keeps the other pools when it stays within a chunk that is out. -/
theorem frame (hchunk : 8 ≤ chunk) {m : Memory} (hx : out c x)
    (hsame : SameOutside x (x + chunk) s.mem m) (hd : d < n) :
    ∃ xs, Holds m (s.pool d) (B.block d) xs ∧
      ∀ y, out d y ↔ (B.block d).IsChunk y ∧ y ∉ xs := by
  obtain ⟨xs, hholds, hout⟩ := h.holds d hd
  refine ⟨xs, hholds.congr fun y hy => hsame.load_eq ?_, hout⟩
  have hne : ¬(c = d ∧ x = y) := by
    rintro ⟨rfl, rfl⟩
    exact ((hout x).1 hx).2 hy
  have := chunks_disjoint (h.lt c x hx) hd (h.isChunk hx) (hholds.isChunk y hy) hne
  omega

theorem alloc (hc : c < n) {s' : BasicPools}
    (halloc : (BasicPools.pools chunk).alloc s c = some (x, s')) :
    s'.mem = s.mem ∧ (x = 0 ∧ B.Valid s' out ∨
      x ≠ 0 ∧ (∀ d, ¬out d x) ∧ B.Valid s' fun d y => out d y ∨ d = c ∧ y = x) := by
  obtain ⟨⟨z, q⟩, hz, heq⟩ := Option.map_eq_some_iff.1 halloc
  cases heq
  obtain ⟨xs, hholds, hout⟩ := h.holds c hc
  refine ⟨rfl, ?_⟩
  cases xs with
  | nil =>
    cases hholds.alloc_nil.symm.trans hz
    rw [update_eq_self]
    exact .inl ⟨rfl, h⟩
  | cons a xs =>
    obtain ⟨q', ha, hholds'⟩ := hholds.alloc
    cases ha.symm.trans hz
    have hchunk := hholds.isChunk z mem_cons_self
    have hnot : ∀ d, ¬out d z := fun d hd => by
      obtain rfl := eq_of_isChunk hc (h.lt d z hd) hchunk (h.isChunk hd)
      exact ((hout z).1 hd).2 mem_cons_self
    refine .inr ⟨hchunk.ne_zero, hnot, fun d y => ?_, fun d hd => ?_⟩
    · rintro (hy | ⟨rfl, -⟩)
      · exact h.lt d y hy
      · exact hc
    · dsimp only
      rcases eq_or_ne d c with rfl | hdc
      · refine ⟨xs, by rwa [update_self], fun y => ?_⟩
        have hnodup := (nodup_cons.1 hholds.nodup).1
        rw [hout, mem_cons]
        rcases eq_or_ne y z with rfl | hyz
        · simp [hchunk, hnodup]
        · simp [hyz]
      · rw [update_of_ne hdc]
        simpa [hdc] using h.holds d hd

theorem free (hchunk : 8 ≤ chunk) (hx : out c x) :
    ∃ s', (BasicPools.pools chunk).free s c x = some s' ∧
      (B.Valid s' fun d y => out d y ∧ ¬(d = c ∧ y = x)) ∧
      SameOutside x (x + chunk) s.mem s'.mem := by
  have hc := h.lt c x hx
  obtain ⟨xs, hholds, hout⟩ := h.holds c hc
  obtain ⟨hxc, hnot⟩ := (hout x).1 hx
  obtain ⟨q, hfree, hholds'⟩ := hholds.free hxc hnot
  have hsame : SameOutside x (x + chunk) s.mem (store s.mem x (s.pool c).head) :=
    (SameOutside.store _ x _).mono le_rfl (Nat.add_le_add_left hchunk x)
  refine ⟨{ mem := store s.mem x (s.pool c).head, pool := update s.pool c q },
    by simp [BasicPools.pools, hfree], ⟨fun d y hy => h.lt d y hy.1, fun d hd => ?_⟩, hsame⟩
  dsimp only
  rcases eq_or_ne d c with rfl | hdc
  · refine ⟨x :: xs, by rwa [update_self], fun y => ?_⟩
    rw [hout, mem_cons]
    tauto
  · rw [update_of_ne hdc]
    simpa [hdc] using h.frame hchunk hx hsame hd

end Valid

/-- **Basic pools over memory that does not overlap meet the contract.** -/
def contract (B : Blocks n chunk) (hchunk : 8 ≤ chunk) : Contract (BasicPools.pools chunk) n where
  IsChunk := fun _ c x => c < n ∧ (B.block c).IsChunk x
  InPool := InPool n
  Valid := B.Valid
  chunk_ge := hchunk
  mem_setMem := fun _ _ => rfl
  isChunk_iff := fun {s out c x} h => by
    constructor
    · rintro ⟨hc, hx⟩
      obtain ⟨xs, hholds, hout⟩ := h.holds c hc
      by_cases hmem : x ∈ xs
      · exact .inl ⟨hc, xs, hholds.chain, hmem⟩
      · exact .inr ((hout x).2 ⟨hx, hmem⟩)
    · rintro (hx | hx)
      · exact ⟨hx.1, (h.inPool_isChunk hx).1⟩
      · exact ⟨h.lt c x hx, h.isChunk hx⟩
  not_out := fun h hx d hd => by
    obtain ⟨hchunk, hnot⟩ := h.inPool_isChunk hx
    obtain rfl := eq_of_isChunk hx.1 (h.lt d _ hd) hchunk (h.isChunk hd)
    exact hnot hd
  inPool_unique := fun h hx hx' =>
    eq_of_isChunk hx.1 hx'.1 (h.inPool_isChunk hx).1 (h.inPool_isChunk hx').1
  out_lt := fun h hx => ⟨h.lt _ _ hx, (h.isChunk hx).ne_zero, (h.isChunk hx).lt_two_pow⟩
  out_disjoint := fun h hx hy hne =>
    chunks_disjoint (h.lt _ _ hx) (h.lt _ _ hy) (h.isChunk hx) (h.isChunk hy) hne
  valid_alloc := fun h hc halloc => by
    obtain ⟨hmem, hres⟩ := h.alloc hc halloc
    exact ⟨fun _ y _ => congrArg (load · y) hmem, hres⟩
  valid_free := fun {s out c x} h hx => by
    obtain ⟨s', hfree, hvalid, hsame⟩ := h.free hchunk hx
    refine ⟨s', hfree, hvalid, fun d y hy hne => hsame.load_eq ?_⟩
    have := chunks_disjoint (h.lt c x hx) (h.lt d y hy) (h.isChunk hx) (h.isChunk hy)
      fun he => hne ⟨he.1.symm, he.2.symm⟩
    omega
  valid_write := fun h hx hsame => ⟨h.lt, fun _ hd => h.frame hchunk hx hsame hd⟩

/-- The constructor of `ParallelPool` makes the pools of the first `k` cores. -/
def newPools (B : Blocks n chunk) (m : Memory) : ℕ → BasicPools
  | 0 => { mem := m, pool := fun _ => ⟨0, 0, 0, 0, 0⟩ }
  | k + 1 =>
    let s := B.newPools m k
    let r := WeakPool.new s.mem (B.block k).chunk (B.block k).cap (B.block k).data
    { mem := r.1, pool := update s.pool k r.2 }

theorem newPools_holds (B : Blocks n chunk) (m : Memory) {k : ℕ} (hk : k ≤ n) :
    ∀ c < k, Holds (B.newPools m k).mem ((B.newPools m k).pool c) (B.block c)
      (B.block c).chunks := by
  induction k with
  | zero => exact fun c hc => absurd hc c.not_lt_zero
  | succ k ih =>
    intro c hc
    rw [newPools]
    dsimp only
    rcases eq_or_ne c k with rfl | hne
    · rw [update_self]
      exact WeakPool.new_holds (B.block c) (B.cap_pos c hk)
    · rw [update_of_ne hne]
      exact (ih (by omega) c (by omega)).frame (WeakPool.sameOutside_new (B.block k))
        (B.disjoint c (by omega) k hk hne)

theorem newPools_valid (B : Blocks n chunk) (m : Memory) :
    B.Valid (B.newPools m n) fun _ _ => False where
  lt := fun _ _ h => h.elim
  holds := fun c hc => by
    refine ⟨_, B.newPools_holds m le_rfl c hc, fun x => ?_⟩
    simp [Block.mem_chunks]

end Blocks

/-! ## Conservation -/

namespace ParallelAllocator

variable {S : Type} {P : Pools S} {K : Contract P n} {s s' : ParallelAllocator S}

/-- The chunk `x` of pool `c` is in the place. -/
def At (K : Contract P n) (s : ParallelAllocator S) (c x : ℕ) : Place → Prop
  | .pool => K.InPool s.pools c x
  | .live => x ∈ s.live c
  | .freed i => ∃ xs, Chain (s.mem P) (s.freeLists i c) xs ∧ x ∈ xs
  | .head i => ∃ xs, Chain (s.mem P) ((s.csldFreeLists c).heads i) xs ∧ x ∈ xs

/-- The places for the chunks of pool `c`: a free list is that of another core. -/
def Proper (n c : ℕ) : Place → Prop
  | .pool => True
  | .live => True
  | .freed i => i < n ∧ i ≠ c
  | .head i => i < n

/-- What holds between the operations of the allocator. -/
structure Conserved (K : Contract P n) (s : ParallelAllocator S) : Prop where
  /-- A chunk is in one of the places of its pool, and in no other place of any pool. -/
  place : ∀ c x, K.IsChunk s.pools c x →
    ∃ p, Proper n c p ∧ s.At K c x p ∧ ∀ d q, s.At K d x q → d = c ∧ q = p
  /-- `Alloc()` gives chunks of the core's pool that nobody has. -/
  alloc : ∀ c < n, ∀ x s', s.alloc P c = some (x, s') → x ≠ 0 →
    K.IsChunk s'.pools c x ∧ ∀ d, x ∉ s.live d
  /-- The tail is the last chunk of the list. -/
  tail : ∀ i c, ∃ xs, Chain (s.mem P) (s.freeLists i c) xs ∧
    (xs ≠ [] → xs.getLast? = some (s.freeTails i c))
  /-- `Quiescence()` clears the tails of its pool. -/
  quiescence : ∀ c < n, ∃ s', s.quiescence P n c = some s' ∧ ∀ i, s'.freeTails i c = 0
  /-- `Alloc()` does not follow a null list head. -/
  head : ∀ c < n, (s.csldFreeLists c).bitmap ≠ 0 →
    (∃ d, (s.csldFreeLists c).next = some d ∧ (s.csldFreeLists c).heads d ≠ 0) ∧
      (s.alloc P c).isSome
  /-- A live chunk can be freed on every core. -/
  free : ∀ i < n, ∀ c x, x ∈ s.live c → (s.free P n i x c).isSome

variable {G : ℕ → Place → List ℕ}

namespace Inv

variable (h : Inv K s G)

include h

theorem mem_of_at {p : Place} (hx : s.At K c x p) (hp : p ≠ .pool) : x ∈ G c p := by
  have hc := h.core c
  cases p with
  | pool => exact absurd rfl hp
  | live => exact hc.live_eq.symm ▸ hx
  | freed i =>
    obtain ⟨xs, hchain, hmem⟩ := hx
    exact hchain.unique (hc.chain (.freed i) (by simp)) ▸ hmem
  | head i =>
    obtain ⟨xs, hchain, hmem⟩ := hx
    exact hchain.unique (hc.chain (.head i) (by simp)) ▸ hmem

theorem at_of_mem {p : Place} (hx : x ∈ G c p) : p ≠ .pool ∧ Proper n c p ∧ s.At K c x p := by
  have hc := h.core c
  have hn : ∀ i, G c (.freed i) = [] ∧ G c (.head i) = [] ∨ i < n := fun i =>
    (le_or_gt n i).imp_left (hc.above i)
  cases p with
  | pool =>
    have hnil := (hc.chain .pool (by simp)).eq_zero_iff.1 rfl
    rw [hnil] at hx
    cases hx
  | live =>
    rw [hc.live_eq] at hx
    exact ⟨by simp, trivial, hx⟩
  | freed i =>
    refine ⟨by simp, ⟨(hn i).resolve_left fun hnil => ?_, ?_⟩, _, hc.chain (.freed i) (by simp), hx⟩
    · rw [hnil.1] at hx
      cases hx
    · rintro rfl
      rw [hc.own] at hx
      cases hx
  | head i =>
    refine ⟨by simp, (hn i).resolve_left fun hnil => ?_, _, hc.chain (.head i) (by simp), hx⟩
    rw [hnil.2] at hx
    cases hx

theorem eq_of_taken (hx : Taken G c x) (hx' : Taken G d x) : c = d := by
  by_contra hne
  have hchunk := K.chunk_ge
  have := K.out_disjoint h.valid hx hx' fun he => hne he.1
  omega

theorem place (hx : K.IsChunk s.pools c x) :
    ∃ p, Proper n c p ∧ s.At K c x p ∧ ∀ d q, s.At K d x q → d = c ∧ q = p := by
  rcases (K.isChunk_iff h.valid).1 hx with hpool | ⟨p, hmem⟩
  · refine ⟨.pool, trivial, hpool, fun d q hq => ?_⟩
    rcases eq_or_ne q .pool with rfl | hne
    · exact ⟨K.inPool_unique h.valid hq hpool, rfl⟩
    · exact absurd ⟨q, h.mem_of_at hq hne⟩ (K.not_out h.valid hpool d)
  · obtain ⟨-, hproper, hat⟩ := h.at_of_mem hmem
    refine ⟨p, hproper, hat, fun d q hq => ?_⟩
    rcases eq_or_ne q .pool with rfl | hne
    · exact absurd ⟨p, hmem⟩ (K.not_out h.valid hq c)
    · have hmem' := h.mem_of_at hq hne
      obtain rfl := h.eq_of_taken ⟨p, hmem⟩ ⟨q, hmem'⟩
      exact ⟨rfl, (h.core c).parted.eq_of_mem q p x hmem' hmem⟩

theorem alloc_spec (hc : c < n) (halloc : s.alloc P c = some (x, s')) (hx : x ≠ 0) :
    K.IsChunk s'.pools c x ∧ ∀ d, x ∉ s.live d := by
  by_cases hb : (s.csldFreeLists c).bitmap = 0
  · rcases h.alloc_pool hc hb halloc with ⟨rfl, -⟩ | ⟨-, hnot, hinv⟩
    · exact absurd rfl hx
    · refine ⟨(K.isChunk_iff hinv.valid).2 (.inr ?_), fun d hd => hnot d ⟨.live, ?_⟩⟩
      · exact taken_update_self.2 ⟨.live, by rw [put_self]; exact mem_cons_self⟩
      · exact (h.core d).live_eq.symm ▸ hd
  · obtain ⟨e, y, t, hmem, halloc', hinv⟩ := h.alloc_list hb
    cases halloc.symm.trans halloc'
    refine ⟨(K.isChunk_iff hinv.valid).2 (.inr ?_), fun d hd => ?_⟩
    · exact taken_update_self.2 ⟨.live, by rw [put_self]; exact mem_cons_self⟩
    · rw [← (h.core d).live_eq] at hd
      obtain rfl := h.eq_of_taken ⟨_, hmem⟩ ⟨_, hd⟩
      cases (h.core c).parted.eq_of_mem _ _ x hmem hd

theorem conserved (hn : n ≤ 32) : Conserved K s where
  place := fun c x hx => h.place hx
  alloc := fun c hc x s' halloc hx => h.alloc_spec hc halloc hx
  tail := fun i c => by
    refine ⟨_, (h.core c).chain (.freed i) (by simp), fun hne => ?_⟩
    obtain ⟨as, t, hlist⟩ := (eq_nil_or_concat' (G c (.freed i))).resolve_left hne
    rw [(h.core c).tail_eq, hlist, getLastD_concat, List.getLast?_concat]
  quiescence := fun c _ => by
    obtain ⟨s', -, hrun, -, htails⟩ := h.quiescence (c := c) hn
    exact ⟨s', hrun, htails⟩
  head := fun c _ hb => by
    obtain ⟨d, -, hnext, hne⟩ := (h.core c).csld.next hb
    obtain ⟨-, x, s', -, halloc, -⟩ := h.alloc_list hb
    refine ⟨⟨d, hnext, fun hz => hne ?_⟩, by simp [halloc]⟩
    exact ((h.core c).chain (.head d) (by simp)).eq_zero_iff.1 hz
  free := fun i hi c x hx => by
    rcases eq_or_ne i c with rfl | hic
    · obtain ⟨s', hfree, -⟩ := h.free_own hn hx
      simp [hfree]
    · obtain ⟨s', hfree, -⟩ := h.free_remote hn hi hic hx
      simp [hfree]

end Inv

/-- **The allocator conserves chunks.** For up to 32 cores, over pools that meet the contract, every
run leaves every chunk in exactly one place. -/
theorem chunks_conserved (K : Contract P n) (hn : n ≤ 32) {s₀ : S}
    (h₀ : K.Valid s₀ fun _ _ => False) {es : List Event}
    (hrun : run (step P n) (init s₀) es = some s) : Conserved K s := by
  obtain ⟨G, h⟩ := run_induction (I := fun s => ∃ G, Inv K s G)
    (fun s e t ⟨_, hinv⟩ hstep => hinv.step hn hstep) ⟨_, Inv.init h₀⟩ hrun
  exact h.conserved hn

def twoBlocks : Blocks 2 16 where
  block := fun c =>
    { data := if c = 0 then 4096 else 8192
      chunk := 16
      cap := 2
      chunk_ge := by decide
      data_pos := by split_ifs <;> decide
      end_le := by split_ifs <;> decide }
  chunk_eq := fun _ => rfl
  cap_pos := fun _ _ => Nat.zero_lt_two
  disjoint := by decide

/-- Core 1 frees a chunk of core 0, which takes it over and allocates it again. -/
theorem chunks_conserved_twoCores :
    ∃ s, run (step (BasicPools.pools 16) 2) (init (twoBlocks.newPools (fun _ => 0) 2))
      [.alloc 0, .alloc 0, .free 1 4096 0, .quiescence 0, .alloc 0, .free 0 4112 0] = some s ∧
      Conserved (twoBlocks.contract (by decide)) s ∧ s.live 0 = [4096] := by
  obtain ⟨s, hs, hlive⟩ : ∃ s, run (step (BasicPools.pools 16) 2) (init (twoBlocks.newPools (fun _
      => 0) 2)) [.alloc 0, .alloc 0, .free 1 4096 0, .quiescence 0, .alloc 0, .free 0 4112 0] = some
      s ∧ s.live 0 = [4096] := by decide +kernel
  exact ⟨s, hs, chunks_conserved (twoBlocks.contract (by decide)) (by decide)
    (twoBlocks.newPools_valid _) hs, hlive⟩

end ParallelAllocator

end Felis.Mem
