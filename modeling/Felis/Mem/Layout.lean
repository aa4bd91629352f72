import Felis.Mem.Pool
import Felis.Foundations.MachineInts
import Felis.Foundations.Runs

/-!
# The memory of the slabs

`SlabMemory` of `mem.cc`: every NUMA node has a mapping of `m` bytes. It starts with the headers of
its metaslabs, which are the chunks of a pool, and from `data_offset` on it has the data pages of 64
MB, one for each metaslab. `InitSlab` counts the pages of the mapping, and counts a last page that
is only partly inside as a whole one.

`Mapping` is what the operating system has given: mappings that do not overlap. A run hands
metaslabs out and takes them back; while a metaslab is out, its header and its page are written.
`pages_inside`: the pages stay inside of the mapping if and only if its size is a multiple of the
page size, or so small that there is no page at all.
-/

namespace Felis.Mem

open FreeList MachineInts Runs Function Option

/-! ## The source -/

def kNrCorePerNode : ℕ := 8

def kLargeSlabPageSize : ℕ := 64 * 2 ^ 20

def sizeofMetaSlab : ℕ := 2592

theorem kLargeSlabPageSize_eq : kLargeSlabPageSize = 67108864 := rfl

theorem sizeofMetaSlab_eq : sizeofMetaSlab = 2592 := rfl

/-- `x - y` on `size_t`. -/
def sizeSub (x y : ℕ) : ℕ := (x + 2 ^ 64 - y) % 2 ^ 64

structure SlabMemory where
  pool : WeakPool
  p : ℕ
  dataOffset : ℕ
  dataLen : ℕ
  deriving DecidableEq

structure MetaSlab where
  largeSlab : Bool
  allocBitmap : ℕ
  ptr : ℕ
  deriving DecidableEq

/-- `nr_metaslabs` as it is computed first. -/
def nrMetaslabs (memsz : ℕ) : ℕ := sizeSub memsz 1 / kLargeSlabPageSize + 1

def dataOffset (memsz : ℕ) : ℕ := align (nrMetaslabs memsz * sizeofMetaSlab) kLargeSlabPageSize

/-- `nr_metaslabs` without the pages of the headers. -/
def nrPages (memsz : ℕ) : ℕ :=
  sizeSub (nrMetaslabs memsz) (dataOffset memsz / kLargeSlabPageSize)

def nrNumaNodes (nrCores : ℕ) : ℕ := nrCores / kNrCorePerNode

namespace SlabMemory

/-- What `InitSlab` does for one node, whose mapping of `memsz` bytes starts at `p`. -/
def new (mem : Memory) (memsz p : ℕ) : Memory × SlabMemory :=
  let r := WeakPool.new mem sizeofMetaSlab (nrPages memsz) p
  (r.1, { pool := r.2, p, dataOffset := Mem.dataOffset memsz, dataLen := memsz })

def contains (s : SlabMemory) (ptr : ℕ) : Bool := s.p < ptr ∧ ptr < s.p + s.dataLen

/-- `NewMetaSlab()`: the header and the metaslab that is constructed there, or the null pointer. -/
def newMetaSlab (mem : Memory) (s : SlabMemory) : Option (Option (ℕ × MetaSlab) × SlabMemory) := do
  let (mp, pool) ← BasicPool.alloc mem s.pool
  if mp = 0 then return (none, { s with pool })
  let idx := (mp - s.p) / sizeofMetaSlab
  return (some (mp, ⟨false, 0, s.p + s.dataOffset + idx * kLargeSlabPageSize⟩), { s with pool })

def destroyMetaSlab (mem : Memory) (s : SlabMemory) (metaslab : ℕ) : Option (Memory × SlabMemory) :=
  (BasicPool.free mem s.pool metaslab).map fun r => (r.1, { s with pool := r.2 })

end SlabMemory

/-- `g_slabmem` after the first nodes have been set up. -/
def initNodes (memsz : ℕ) (base : ℕ → ℕ) (mem : Memory) : ℕ → Memory × (ℕ → SlabMemory)
  | 0 => (mem, fun _ => ⟨⟨0, 0, 0, 0, 0⟩, 0, 0, 0⟩)
  | n + 1 =>
    let prev := initNodes memsz base mem n
    let r := SlabMemory.new prev.1 memsz (base n)
    (r.1, Function.update prev.2 n r.2)

/-- `InitSlab(memsz)`, where `base n` is the mapping that the node `n` gets. -/
def initSlab (memsz nrCores : ℕ) (base : ℕ → ℕ) (mem : Memory) : Memory × (ℕ → SlabMemory) :=
  initNodes (memsz / nrNumaNodes nrCores) base mem (nrNumaNodes nrCores)

/-- `FindSlabMemory(ptr, default_numa_node)`, where `none` is the null pointer. -/
def findSlabMemory (nodes : ℕ) (slabmem : ℕ → SlabMemory) (ptr defaultNumaNode : ℕ) : Option ℕ :=
  if (slabmem defaultNumaNode).contains ptr then some defaultNumaNode
  else (List.range nodes).find? fun n => (slabmem n).contains ptr

/-! ## The sizes -/

section Sizes

variable {m x y : ℕ}

theorem sizeSub_eq (hx : x < 2 ^ 64) (hy : y ≤ x) : sizeSub x y = x - y := by
  unfold sizeSub
  omega

theorem nrMetaslabs_pos : 0 < nrMetaslabs m := Nat.succ_pos _

theorem nrMetaslabs_le : nrMetaslabs m ≤ 2 ^ 38 := by
  unfold nrMetaslabs sizeSub
  rw [kLargeSlabPageSize_eq]
  omega

/-- The headers fit in front of the pages, and there are not more pages of headers than headers. -/
theorem dataOffset_spec : ∃ d, dataOffset m = kLargeSlabPageSize * d ∧ 0 < d ∧
    d ≤ nrMetaslabs m ∧ nrMetaslabs m * sizeofMetaSlab ≤ dataOffset m ∧
    (1 < nrMetaslabs m → d < nrMetaslabs m) := by
  have hpos := nrMetaslabs_pos (m := m)
  have hle := nrMetaslabs_le (m := m)
  have halign : dataOffset m = kLargeSlabPageSize *
      ((nrMetaslabs m * sizeofMetaSlab - 1) / kLargeSlabPageSize + 1) :=
    align_eq (Nat.mul_pos hpos (by decide))
      (by rw [sizeofMetaSlab_eq, kLargeSlabPageSize_eq]; omega)
  refine ⟨_, halign, Nat.succ_pos _, ?_⟩
  rw [halign, kLargeSlabPageSize_eq, sizeofMetaSlab_eq]
  omega

theorem dataOffset_pos : 0 < dataOffset m := by
  obtain ⟨d, hd, hpos, -⟩ := dataOffset_spec (m := m)
  rw [hd, kLargeSlabPageSize_eq]
  omega

theorem nrPages_add : nrPages m + dataOffset m / kLargeSlabPageSize = nrMetaslabs m := by
  obtain ⟨d, hd, -, hle, -⟩ := dataOffset_spec (m := m)
  have hmax := nrMetaslabs_le (m := m)
  have hdiv : dataOffset m / kLargeSlabPageSize = d := by
    rw [hd, Nat.mul_div_cancel_left _ (by decide)]
  rw [nrPages, hdiv, sizeSub_eq (by omega) hle, Nat.sub_add_cancel hle]

theorem headers_le : nrPages m * sizeofMetaSlab ≤ dataOffset m := by
  obtain ⟨d, -, -, -, hheaders, -⟩ := dataOffset_spec (m := m)
  have hle : nrPages m ≤ nrMetaslabs m := Nat.le.intro nrPages_add
  exact (Nat.mul_le_mul_right _ hle).trans hheaders

/-- The pages end where the last one that was counted ends. -/
theorem pages_end :
    dataOffset m + nrPages m * kLargeSlabPageSize = nrMetaslabs m * kLargeSlabPageSize := by
  obtain ⟨d, hd, -⟩ := dataOffset_spec (m := m)
  have hadd := nrPages_add (m := m)
  rw [hd, Nat.mul_div_cancel_left _ (by decide)] at hadd
  rw [hd, ← hadd, Nat.add_mul, Nat.mul_comm d, Nat.add_comm]

/-- The pages of a mapping of this size are inside of it: they fill it up, or there is none. -/
def Fits (m : ℕ) : Prop := m ≤ kLargeSlabPageSize ∨ kLargeSlabPageSize ∣ m

instance : Decidable (Fits m) := inferInstanceAs (Decidable (_ ∨ _))

variable (hpos : 0 < m) (hlt : m < 2 ^ 64)

include hpos hlt

/-- A mapping of more than one page has a page that is not used for headers. -/
theorem nrPages_eq_zero_iff : nrPages m = 0 ↔ m ≤ kLargeSlabPageSize := by
  obtain ⟨d, hd, hdpos, hle, -, hdlt⟩ := dataOffset_spec (m := m)
  have hadd := nrPages_add (m := m)
  rw [hd, Nat.mul_div_cancel_left _ (by decide)] at hadd
  rw [nrMetaslabs, sizeSub_eq hlt hpos] at hadd hle hdlt
  rw [kLargeSlabPageSize_eq] at *
  omega

/-- The headers are inside of the mapping. -/
theorem headers_fit : nrPages m * sizeofMetaSlab ≤ m := by
  obtain ⟨d, hd, -, -, -, hdlt⟩ := dataOffset_spec (m := m)
  have hheaders := headers_le (m := m)
  rcases Nat.eq_zero_or_pos (nrPages m) with hzero | hne
  · rw [hzero, Nat.zero_mul]
    exact Nat.zero_le m
  · have hsize := (nrPages_eq_zero_iff hpos hlt).not.1 hne.ne'
    rw [nrMetaslabs, sizeSub_eq hlt hpos] at hdlt
    rw [kLargeSlabPageSize_eq] at *
    omega

/-- The last page ends with the mapping, or behind it. -/
theorem fits_iff : Fits m ↔ nrPages m = 0 ∨ dataOffset m + nrPages m * kLargeSlabPageSize ≤ m := by
  rw [Fits, nrPages_eq_zero_iff hpos hlt, pages_end, nrMetaslabs, sizeSub_eq hlt hpos,
    kLargeSlabPageSize_eq]
  omega

end Sizes

/-! ## Mappings -/

/-- The mappings of `m` bytes that the nodes have got from the operating system. -/
structure Mapping (nodes m : ℕ) where
  base : ℕ → ℕ
  base_pos : ∀ n < nodes, 0 < base n
  base_end : ∀ n < nodes, base n + m ≤ 2 ^ 64
  disjoint : ∀ n < nodes, ∀ k < nodes, n ≠ k → base n + m ≤ base k ∨ base k + m ≤ base n

namespace Mapping

variable {nodes m n k i mp : ℕ} (map : Mapping nodes m)

include map in
theorem size_lt (hn : n < nodes) : m < 2 ^ 64 := by
  have := map.base_pos n hn
  have := map.base_end n hn
  omega

/-- The data page of the `i`-th metaslab of a node. -/
def page (n i : ℕ) : ℕ := map.base n + dataOffset m + i * kLargeSlabPageSize

/-- The data page that `NewMetaSlab` gives to a header. -/
def pageOf (n mp : ℕ) : ℕ := map.page n ((mp - map.base n) / sizeofMetaSlab)

variable (hm : 0 < m)

include hm in
/-- The pages of a node are behind its headers, and inside of its mapping when they fit. -/
theorem page_spec (hfits : Fits m) (hn : n < nodes) (hi : i < nrPages m) :
    map.base n + nrPages m * sizeofMetaSlab ≤ map.page n i ∧
      map.page n i + kLargeSlabPageSize ≤ map.base n + m := by
  have hend := (fits_iff hm (map.size_lt hn)).1 hfits
  have hheaders := headers_le (m := m)
  have hmul : (i + 1) * kLargeSlabPageSize ≤ nrPages m * kLargeSlabPageSize :=
    Nat.mul_le_mul_right _ hi
  rw [Nat.add_mul, Nat.one_mul] at hmul
  unfold page
  omega

/-- The headers of a node, as the memory of its pool. -/
def headers (hn : n < nodes) : Block where
  data := map.base n
  chunk := sizeofMetaSlab
  cap := nrPages m
  chunk_ge := by decide
  data_pos := map.base_pos n hn
  end_le := by
    have hend := map.base_end n hn
    have := headers_fit hm (map.size_lt hn)
    omega

variable {hm} {hn : n < nodes} {hk : k < nodes}

theorem pageOf_addr (i : ℕ) : map.pageOf n ((map.headers hm hn).addr i) = map.page n i := by
  have hpos : 0 < sizeofMetaSlab := by decide
  rw [pageOf, Block.addr, headers, Nat.add_sub_cancel_left, Nat.mul_div_cancel _ hpos]

theorem pageOf_spec (hfits : Fits m) (h : (map.headers hm hn).IsChunk mp) :
    map.base n + nrPages m * sizeofMetaSlab ≤ map.pageOf n mp ∧
      map.base n + dataOffset m ≤ map.pageOf n mp ∧
      map.pageOf n mp + kLargeSlabPageSize ≤ map.base n + m := by
  obtain ⟨i, hi, rfl⟩ := h
  rw [map.pageOf_addr i]
  obtain ⟨hheaders, hend⟩ := map.page_spec hm hfits hn hi
  exact ⟨hheaders, Nat.le_add_right _ _, hend⟩

theorem header_spec (h : (map.headers hm hn).IsChunk mp) :
    map.base n ≤ mp ∧ mp + sizeofMetaSlab ≤ map.base n + nrPages m * sizeofMetaSlab :=
  ⟨h.data_le, h.end_le⟩

/-- A header is inside of the mapping. -/
theorem header_end (h : (map.headers hm hn).IsChunk mp) :
    mp + sizeofMetaSlab ≤ map.base n + m := by
  have := headers_fit hm (map.size_lt hn)
  have := map.header_spec h
  omega

end Mapping

/-! ## Handing pages out -/

structure Pages where
  mem : Memory
  slabmem : ℕ → SlabMemory
  /-- The metaslabs that are out: node, header and page. -/
  handed : List (ℕ × ℕ × ℕ)

namespace Pages

inductive Event
  | newMetaSlab (n : ℕ)
  | destroyMetaSlab (n mp : ℕ)
  /-- A byte of the header or of the page of a metaslab that is out is written. -/
  | write (a : ℕ) (c : UInt8)

/-- The address is in the header or in the page of a metaslab that is out. -/
def Owned (s : Pages) (a : ℕ) : Prop :=
  ∃ h ∈ s.handed, h.2.1 ≤ a ∧ a < h.2.1 + sizeofMetaSlab ∨
    h.2.2 ≤ a ∧ a < h.2.2 + kLargeSlabPageSize

instance (s : Pages) (a : ℕ) : Decidable (s.Owned a) :=
  inferInstanceAs (Decidable (∃ h ∈ s.handed, _))

def step (nodes : ℕ) (s : Pages) : Event → Option Pages
  | .newMetaSlab n =>
    if n < nodes then do
      let (r, m) ← (s.slabmem n).newMetaSlab s.mem
      let slabmem := Function.update s.slabmem n m
      match r with
      | none => return { s with slabmem }
      | some (mp, metaslab) =>
        return { s with slabmem, handed := (n, mp, metaslab.ptr) :: s.handed }
    else none
  | .destroyMetaSlab n mp =>
    if s.handed.any (fun h => h.1 = n ∧ h.2.1 = mp) then do
      let (mem, m) ← (s.slabmem n).destroyMetaSlab s.mem mp
      return {
        mem
        slabmem := Function.update s.slabmem n m
        handed := s.handed.filter fun h => ¬(h.1 = n ∧ h.2.1 = mp) }
    else none
  | .write a c => if s.Owned a then some { s with mem := Function.update s.mem a c } else none

def init (memsz nrCores : ℕ) (base : ℕ → ℕ) (mem : Memory) : Pages :=
  let r := initSlab memsz nrCores base mem
  { mem := r.1, slabmem := r.2, handed := [] }

end Pages

/-! ## The headers of the nodes -/

/-- The node is laid out as `InitSlab` does it. -/
structure SlabMemory.Laid {nodes m : ℕ} (map : Mapping nodes m) (n : ℕ) (s : SlabMemory) :
    Prop where
  p_eq : s.p = map.base n
  dataOffset_eq : s.dataOffset = Mem.dataOffset m
  dataLen_eq : s.dataLen = m
  len_eq : s.pool.len = nrPages m * sizeofMetaSlab

/-- The pool of the headers has `xs` on its free list; a mapping without pages has a pool that
cannot be used. -/
def HeadersHold {nodes m : ℕ} (map : Mapping nodes m) (hm : 0 < m) (mem : Memory) (s : SlabMemory)
    {n : ℕ} (hn : n < nodes) (xs : List ℕ) : Prop :=
  nrPages m = 0 ∧ xs = [] ∧ s.pool.capacity = 0 ∧ s.pool.head ≠ 0 ∨
    Holds mem s.pool (map.headers hm hn) xs

section Nodes

variable {nodes m n k : ℕ} {map : Mapping nodes m} {hm : 0 < m} {mem mem' : Memory}
  {s : SlabMemory} {hn : n < nodes} {hk : k < nodes} {xs : List ℕ} {mp mp' : ℕ}

theorem HeadersHold.isChunk (h : HeadersHold map hm mem s hn xs) (hx : mp ∈ xs) :
    (map.headers hm hn).IsChunk mp := by
  rcases h with ⟨-, rfl, -, -⟩ | h
  · cases hx
  · exact h.isChunk mp hx

theorem HeadersHold.congr (h : HeadersHold map hm mem s hn xs)
    (hsame : ∀ x ∈ xs, load mem' x = load mem x) : HeadersHold map hm mem' s hn xs :=
  h.imp_right fun h => h.congr hsame

/-- Different headers share no byte, also when they are on different nodes. -/
theorem Mapping.headers_disjoint (hx : (map.headers hm hn).IsChunk mp)
    (hy : (map.headers hm hk).IsChunk mp') (hne : mp ≠ mp') :
    mp + sizeofMetaSlab ≤ mp' ∨ mp' + sizeofMetaSlab ≤ mp := by
  rcases eq_or_ne n k with rfl | hnk
  · exact hx.disjoint hy hne
  · have hxs := map.header_spec hx
    have hys := map.header_spec hy
    have hxe := map.header_end hx
    have hye := map.header_end hy
    have hdisj := map.disjoint n hn k hk hnk
    omega

theorem Mapping.header_node (hx : (map.headers hm hn).IsChunk mp)
    (hy : (map.headers hm hk).IsChunk mp) : n = k := by
  by_contra hne
  have hxs := map.header_spec hx
  have hys := map.header_spec hy
  have hxe := map.header_end hx
  have hye := map.header_end hy
  have hdisj := map.disjoint n hn k hk hne
  have : 0 < sizeofMetaSlab := by decide
  omega

/-- A header and a page share no byte, also when they are on different nodes. -/
theorem Mapping.header_outside_page (hfits : Fits m) (hx : (map.headers hm hn).IsChunk mp)
    (hy : (map.headers hm hk).IsChunk mp') : mp + sizeofMetaSlab ≤ map.pageOf k mp' ∨
      map.pageOf k mp' + kLargeSlabPageSize ≤ mp := by
  have hxs := map.header_spec hx
  have hxe := map.header_end hx
  have hpage := map.pageOf_spec hfits hy
  rcases eq_or_ne n k with rfl | hnk
  · omega
  · have hdisj := map.disjoint n hn k hk hnk
    omega

/-- Writes that share no byte with the headers of the free list. -/
theorem HeadersHold.frame {lo hi : ℕ} (h : HeadersHold map hm mem s hn xs)
    (hsame : SameOutside lo hi mem mem')
    (hout : ∀ x, (map.headers hm hn).IsChunk x → x ∈ xs → x + sizeofMetaSlab ≤ lo ∨ hi ≤ x) :
    HeadersHold map hm mem' s hn xs := by
  refine h.congr fun x hx => hsame.load_eq ?_
  have hsize : 8 ≤ sizeofMetaSlab := by decide
  have := hout x (h.isChunk hx) hx
  omega

theorem SlabMemory.new_spec (map : Mapping nodes m) (hm : 0 < m) (mem : Memory) (hn : n < nodes) :
    (SlabMemory.new mem m (map.base n)).2.Laid map n ∧
      HeadersHold map hm (SlabMemory.new mem m (map.base n)).1
        (SlabMemory.new mem m (map.base n)).2 hn (map.headers hm hn).chunks := by
  refine ⟨⟨rfl, rfl, rfl, rfl⟩, ?_⟩
  rcases Nat.eq_zero_or_pos (nrPages m) with hzero | hpos
  · refine .inl ⟨hzero, ?_, hzero, (map.base_pos n hn).ne'⟩
    exact List.eq_nil_of_length_eq_zero ((map.headers hm hn).length_chunks.trans hzero)
  · exact .inr (WeakPool.new_holds (map.headers hm hn) hpos)

/-- Setting a node up keeps the headers of the others. -/
theorem HeadersHold.new (hk : k < nodes) (hne : n ≠ k) (h : HeadersHold map hm mem s hn xs) :
    HeadersHold map hm (SlabMemory.new mem m (map.base k)).1 s hn xs := by
  refine h.congr fun x hx => WeakPool.load_new (map.headers hm hk) fun y hy => ?_
  have hx := h.isChunk hx
  have hsize : 8 ≤ sizeofMetaSlab := by decide
  have := Mapping.headers_disjoint hy hx fun he => hne (Mapping.header_node (he ▸ hx) hy)
  unfold Apart
  omega

theorem initNodes_spec (map : Mapping nodes m) (hm : 0 < m) (mem : Memory) {l : ℕ}
    (hl : l ≤ nodes) (n : ℕ) (hn : n < nodes) (hnl : n < l) :
    ((initNodes m map.base mem l).2 n).Laid map n ∧
      HeadersHold map hm (initNodes m map.base mem l).1 ((initNodes m map.base mem l).2 n) hn
        (map.headers hm hn).chunks := by
  induction l with
  | zero => exact absurd hnl n.not_lt_zero
  | succ l ih =>
    simp only [initNodes]
    rcases Nat.lt_succ_iff_lt_or_eq.1 hnl with hlt | rfl
    · obtain ⟨hlaid, hxs⟩ := ih (by omega) hlt
      rw [update_of_ne hlt.ne]
      exact ⟨hlaid, hxs.new (by omega) hlt.ne⟩
    · rw [update_self]
      exact SlabMemory.new_spec map hm (initNodes m map.base mem n).1 hn

/-- `NewMetaSlab` takes the first header off the free list and gives it its page. -/
theorem HeadersHold.newMetaSlab_cons (h : HeadersHold map hm mem s hn (mp :: xs))
    (hlaid : s.Laid map n) :
    ∃ s', s.newMetaSlab mem = some (some (mp, ⟨false, 0, map.pageOf n mp⟩), s') ∧
      s'.Laid map n ∧ HeadersHold map hm mem s' hn xs := by
  rcases h with ⟨-, hnil, -⟩ | h
  · cases hnil
  obtain ⟨pool, hpool, hold⟩ := h.alloc
  have hnz := (h.isChunk mp List.mem_cons_self).ne_zero
  refine ⟨{ s with pool }, ?_,
    ⟨hlaid.p_eq, hlaid.dataOffset_eq, hlaid.dataLen_eq, hold.len_eq⟩, .inr hold⟩
  rw [SlabMemory.newMetaSlab, hpool]
  simp only [bind_eq_bind, bind_some, hnz, if_false, hlaid.p_eq, hlaid.dataOffset_eq]
  rfl

theorem HeadersHold.newMetaSlab {r : Option (ℕ × MetaSlab)} {s' : SlabMemory}
    (h : HeadersHold map hm mem s hn xs) (hlaid : s.Laid map n)
    (hr : s.newMetaSlab mem = some (r, s')) : s'.Laid map n ∧
      (xs = [] ∧ r = none ∧ HeadersHold map hm mem s' hn [] ∨
        ∃ mp xs', xs = mp :: xs' ∧ mp ∉ xs' ∧ r = some (mp, ⟨false, 0, map.pageOf n mp⟩) ∧
          HeadersHold map hm mem s' hn xs') := by
  rcases id h with ⟨-, -, hcap, hhead⟩ | hpool
  · -- the division by the capacity
    simp [SlabMemory.newMetaSlab, BasicPool.alloc, WeakPool.alloc, hcap, hhead] at hr
  cases xs with
  | nil =>
    rw [SlabMemory.newMetaSlab, hpool.alloc_nil] at hr
    cases hr
    exact ⟨⟨hlaid.p_eq, hlaid.dataOffset_eq, hlaid.dataLen_eq, hpool.len_eq⟩, .inl ⟨rfl, rfl, h⟩⟩
  | cons mp xs =>
    obtain ⟨s₁, hnew, hlaid₁, hold⟩ := h.newMetaSlab_cons hlaid
    rw [hnew] at hr
    cases hr
    exact ⟨hlaid₁, .inr ⟨mp, xs, rfl, (List.nodup_cons.1 hpool.nodup).1, rfl, hold⟩⟩

/-- `DestroyMetaSlab` puts the header back, with one store at the header. -/
theorem HeadersHold.destroyMetaSlab (h : HeadersHold map hm mem s hn xs) (hlaid : s.Laid map n)
    (hmp : (map.headers hm hn).IsChunk mp) (hnot : mp ∉ xs) :
    ∃ v s', s.destroyMetaSlab mem mp = some (store mem mp v, s') ∧ s'.Laid map n ∧
      HeadersHold map hm (store mem mp v) s' hn (mp :: xs) := by
  rcases h with ⟨hzero, -, -, -⟩ | h
  · obtain ⟨i, hi, -⟩ := hmp
    have hi : i < nrPages m := hi
    omega
  obtain ⟨pool, hpool, hold⟩ := h.free hmp hnot
  exact ⟨s.pool.head, { s with pool }, by rw [SlabMemory.destroyMetaSlab, hpool]; rfl,
    ⟨hlaid.p_eq, hlaid.dataOffset_eq, hlaid.dataLen_eq, hold.len_eq⟩, .inr hold⟩

/-- All nodes are laid out, and `free n` are the headers that the node `n` has to give. -/
structure NodesOk (map : Mapping nodes m) (hm : 0 < m) (mem : Memory) (slabmem : ℕ → SlabMemory)
    (free : ℕ → List ℕ) : Prop where
  laid : ∀ n < nodes, (slabmem n).Laid map n
  holds : ∀ n (hn : n < nodes), HeadersHold map hm mem (slabmem n) hn (free n)

namespace NodesOk

variable {slabmem : ℕ → SlabMemory} {free : ℕ → List ℕ}

/-- At first every header is free. -/
theorem init (map : Mapping nodes m) (hm : 0 < m) (mem : Memory) :
    NodesOk map hm (initNodes m map.base mem nodes).1 (initNodes m map.base mem nodes).2
      fun n => if hn : n < nodes then (map.headers hm hn).chunks else [] := by
  refine ⟨fun n hn => (initNodes_spec map hm mem le_rfl n hn hn).1, fun n hn => ?_⟩
  simpa only [dif_pos hn] using (initNodes_spec map hm mem le_rfl n hn hn).2

variable (h : NodesOk map hm mem slabmem free)

include h

theorem update {s' : SlabMemory} {ys : List ℕ} (hlaid : s'.Laid map n)
    (hys : HeadersHold map hm mem' s' hn ys)
    (hothers : ∀ k (hk : k < nodes), k ≠ n → HeadersHold map hm mem' (slabmem k) hk (free k)) :
    NodesOk map hm mem' (Function.update slabmem n s') (Function.update free n ys) := by
  refine ⟨fun k hk => ?_, fun k hk => ?_⟩
  · rcases eq_or_ne k n with rfl | hne
    · rwa [update_self]
    · rw [update_of_ne hne]
      exact h.laid k hk
  · rcases eq_or_ne k n with rfl | hne
    · rwa [update_self, update_self]
    · rw [update_of_ne hne, update_of_ne hne]
      exact hothers k hk hne

theorem newMetaSlab {r : Option (ℕ × MetaSlab)} {s' : SlabMemory} (hn : n < nodes)
    (hr : (slabmem n).newMetaSlab mem = some (r, s')) :
    free n = [] ∧ r = none ∧ NodesOk map hm mem (Function.update slabmem n s') free ∨
      ∃ mp xs, free n = mp :: xs ∧ mp ∉ xs ∧ r = some (mp, ⟨false, 0, map.pageOf n mp⟩) ∧
        NodesOk map hm mem (Function.update slabmem n s') (Function.update free n xs) := by
  obtain ⟨hlaid, ⟨hnil, rfl, hold⟩ | ⟨mp, xs, hcons, hnot, rfl, hold⟩⟩ :=
    (h.holds n hn).newMetaSlab (h.laid n hn) hr
  · have hfree : Function.update free n [] = free := by rw [← hnil, update_eq_self]
    exact .inl ⟨hnil, rfl, hfree ▸ h.update hlaid hold fun k hk _ => h.holds k hk⟩
  · exact .inr ⟨mp, xs, hcons, hnot, rfl, h.update hlaid hold fun k hk _ => h.holds k hk⟩

theorem destroyMetaSlab (hmp : (map.headers hm hn).IsChunk mp) (hnot : mp ∉ free n) :
    ∃ v s', (slabmem n).destroyMetaSlab mem mp = some (store mem mp v, s') ∧
      NodesOk map hm (store mem mp v) (Function.update slabmem n s')
        (Function.update free n (mp :: free n)) := by
  obtain ⟨v, s', hdestroy, hlaid, hold⟩ :=
    (h.holds n hn).destroyMetaSlab (h.laid n hn) hmp hnot
  refine ⟨v, s', hdestroy, h.update hlaid hold fun k hk hne => ?_⟩
  refine (h.holds k hk).frame (SameOutside.store mem mp v) fun x hx _ => ?_
  have hsize : 8 ≤ sizeofMetaSlab := by decide
  have := Mapping.headers_disjoint hx hmp fun he => hne (Mapping.header_node hx (he ▸ hmp))
  omega

/-- Writes that share no byte with the headers that are free. -/
theorem frame {lo hi : ℕ} (hsame : SameOutside lo hi mem mem')
    (hout : ∀ n (hn : n < nodes) x, (map.headers hm hn).IsChunk x → x ∈ free n →
      x + sizeofMetaSlab ≤ lo ∨ hi ≤ x) : NodesOk map hm mem' slabmem free :=
  ⟨h.laid, fun n hn => (h.holds n hn).frame hsame (hout n hn)⟩

/-- All headers of a node can be handed out. -/
theorem handAll (hn : n < nodes) (out : List (ℕ × ℕ × ℕ)) :
    ∃ es t, run (Pages.step nodes) ⟨mem, slabmem, out⟩ es = some t ∧ (∀ x ∈ out, x ∈ t.handed) ∧
      ∀ mp ∈ free n, (n, mp, map.pageOf n mp) ∈ t.handed := by
  generalize hxs : free n = xs
  induction xs generalizing slabmem free out with
  | nil => exact ⟨[], _, rfl, fun _ => id, by simp⟩
  | cons mp xs ih =>
    obtain ⟨s', hnew, hlaid, hold⟩ := (hxs ▸ h.holds n hn).newMetaSlab_cons (h.laid n hn)
    have hstep : Pages.step nodes ⟨mem, slabmem, out⟩ (.newMetaSlab n) =
        some ⟨mem, Function.update slabmem n s', (n, mp, map.pageOf n mp) :: out⟩ := by
      simp [Pages.step, hn, hnew]
    obtain ⟨es, t, hrun, hkeep, hall⟩ :=
      ih (h.update hlaid hold fun k hk _ => h.holds k hk) (_ :: out) (update_self ..)
    refine ⟨_ :: es, t, (run_cons _).2 ⟨_, hstep, hrun⟩,
      fun x hx => hkeep x (List.mem_cons_of_mem _ hx), fun x hx => ?_⟩
    rcases List.mem_cons.1 hx with rfl | hx
    · exact hkeep _ List.mem_cons_self
    · exact hall x hx

end NodesOk

end Nodes

/-! ## Finding a node -/

section Find

variable {nodes m n k d : ℕ} {map : Mapping nodes m} {slabmem : ℕ → SlabMemory} {a : ℕ}

theorem SlabMemory.Laid.contains_iff {s : SlabMemory} (h : s.Laid map n) :
    s.contains a = true ↔ map.base n < a ∧ a < map.base n + m := by
  rw [SlabMemory.contains, decide_eq_true_iff, h.p_eq, h.dataLen_eq]

/-- An address in the mapping of a node is found in this node, wherever the search starts. -/
theorem findSlabMemory_eq (hlaid : ∀ n < nodes, (slabmem n).Laid map n) (hn : n < nodes)
    (hd : d < nodes) (hlt : map.base n < a) (hend : a < map.base n + m) :
    findSlabMemory nodes slabmem a d = some n := by
  have hin : (slabmem n).contains a = true := (hlaid n hn).contains_iff.2 ⟨hlt, hend⟩
  have honly : ∀ k < nodes, (slabmem k).contains a = true → k = n := by
    intro k hk hcont
    by_contra hne
    have := (hlaid k hk).contains_iff.1 hcont
    have := map.disjoint k hk n hn hne
    omega
  unfold findSlabMemory
  split_ifs with hdef
  · rw [honly d hd hdef]
  · cases hk : (List.range nodes).find? fun n => (slabmem n).contains a with
    | none => exact absurd hin (List.find?_eq_none.1 hk n (List.mem_range.2 hn))
    | some k =>
      have hcont := List.find?_some hk
      rw [honly k (List.mem_range.1 (List.mem_of_find?_eq_some hk)) hcont]

end Find

/-! ## Runs -/

namespace Pages

section

variable {nodes m : ℕ} {map : Mapping nodes m} {hm : 0 < m} {s t : Pages}

/-- The headers that are out are not on the free lists, and have their own pages. -/
structure Inv (map : Mapping nodes m) (hm : 0 < m) (s : Pages) (free : ℕ → List ℕ) : Prop where
  nodesOk : NodesOk map hm s.mem s.slabmem free
  handed : ∀ n mp ptr, (n, mp, ptr) ∈ s.handed →
    ∃ hn : n < nodes, (map.headers hm hn).IsChunk mp ∧ ptr = map.pageOf n mp ∧ mp ∉ free n

variable {free : ℕ → List ℕ}

theorem Inv.newMetaSlab {n : ℕ} (h : Inv map hm s free)
    (hstep : step nodes s (.newMetaSlab n) = some t) : ∃ free', Inv map hm t free' := by
  simp only [step] at hstep
  split_ifs at hstep with hn
  obtain ⟨⟨r, m'⟩, hnew, ht⟩ := bind_eq_some_iff.1 hstep
  rcases h.nodesOk.newMetaSlab hn hnew with ⟨-, rfl, hnodes⟩ | ⟨mp, xs, hcons, hnot, rfl, hnodes⟩
  · cases ht
    exact ⟨free, hnodes, h.handed⟩
  · cases ht
    have hmp : mp ∈ free n := hcons ▸ List.mem_cons_self
    refine ⟨_, hnodes, fun k mp' ptr hmem => ?_⟩
    rcases List.mem_cons.1 hmem with heq | hmem
    · cases heq
      exact ⟨hn, (h.nodesOk.holds n hn).isChunk hmp, rfl, by simpa using hnot⟩
    · obtain ⟨hk, hchunk, hptr, hout⟩ := h.handed k mp' ptr hmem
      refine ⟨hk, hchunk, hptr, ?_⟩
      rcases eq_or_ne k n with rfl | hne
      · rw [update_self]
        exact fun hx => hout (hcons ▸ List.mem_cons_of_mem mp hx)
      · rwa [update_of_ne hne]

theorem Inv.destroyMetaSlab {n mp : ℕ} (h : Inv map hm s free)
    (hstep : step nodes s (.destroyMetaSlab n mp) = some t) : ∃ free', Inv map hm t free' := by
  simp only [step] at hstep
  split_ifs at hstep with hany
  obtain ⟨⟨n', mp', ptr⟩, hmem, heq⟩ := List.any_eq_true.1 hany
  obtain ⟨rfl, rfl⟩ : n' = n ∧ mp' = mp := by simpa using heq
  obtain ⟨hn, hchunk, -, hout⟩ := h.handed n' mp' ptr hmem
  obtain ⟨v, m', hdestroy, hnodes⟩ := h.nodesOk.destroyMetaSlab hchunk hout
  rw [hdestroy] at hstep
  cases hstep
  refine ⟨_, hnodes, fun k mp'' ptr' he => ?_⟩
  obtain ⟨he, hne⟩ : (k, mp'', ptr') ∈ s.handed ∧ ¬(k = n' ∧ mp'' = mp') := by
    simpa only [decide_eq_true_eq] using List.mem_filter.1 he
  obtain ⟨hk, hchunk', hptr, hout'⟩ := h.handed k mp'' ptr' he
  refine ⟨hk, hchunk', hptr, ?_⟩
  rcases eq_or_ne k n' with rfl | hkn
  · rw [update_self, List.mem_cons, not_or]
    exact ⟨fun h' => hne ⟨rfl, h'⟩, hout'⟩
  · rwa [update_of_ne hkn]

/-- A write to a header or a page that is out is outside of every header that is not. -/
theorem Inv.write {a : ℕ} {c : UInt8} (hfits : Fits m) (h : Inv map hm s free)
    (hstep : step nodes s (.write a c) = some t) : ∃ free', Inv map hm t free' := by
  simp only [step] at hstep
  split_ifs at hstep with howned
  cases hstep
  obtain ⟨⟨k, mp, ptr⟩, hmem, hin⟩ := howned
  obtain ⟨hk, hchunk, rfl, hout⟩ := h.handed k mp ptr hmem
  dsimp only at hin
  refine ⟨free, h.nodesOk.frame (SameOutside.update s.mem a c) fun n hn x hx hfree => ?_, h.handed⟩
  rcases hin with hheader | hpage
  · have hne : x ≠ mp := by
      rintro rfl
      obtain rfl := Mapping.header_node hx hchunk
      exact hout hfree
    have := Mapping.headers_disjoint hx hchunk hne
    omega
  · have := Mapping.header_outside_page hfits hx hchunk
    omega

theorem Inv.step (hfits : Fits m) (e : Event) (h : Inv map hm s free)
    (hstep : step nodes s e = some t) : ∃ free', Inv map hm t free' := by
  cases e with
  | newMetaSlab n => exact h.newMetaSlab hstep
  | destroyMetaSlab n mp => exact h.destroyMetaSlab hstep
  | write a c => exact h.write hfits hstep

/-- The page lies between the headers and the end of the mapping of its node, and each of its
addresses is found in this node. -/
structure Inside (map : Mapping nodes m) (s : Pages) (n ptr : ℕ) : Prop where
  offset_le : map.base n + (s.slabmem n).dataOffset ≤ ptr
  end_le : ptr + kLargeSlabPageSize ≤ map.base n + m
  headers : ∀ k < nodes, map.base k + (s.slabmem k).pool.len ≤ ptr ∨
    ptr + kLargeSlabPageSize ≤ map.base k
  found : ∀ a, ptr ≤ a → a < ptr + kLargeSlabPageSize → (s.slabmem n).contains a = true ∧
    ∀ d < nodes, findSlabMemory nodes s.slabmem a d = some n

theorem Inv.inside (hfits : Fits m) (h : Inv map hm s free) {n mp ptr : ℕ}
    (hmem : (n, mp, ptr) ∈ s.handed) : s.Inside map n ptr := by
  obtain ⟨hn, hchunk, rfl, -⟩ := h.handed n mp ptr hmem
  obtain ⟨hheaders, hoffset, hend⟩ := map.pageOf_spec hfits hchunk
  have hlaid := h.nodesOk.laid
  refine ⟨(hlaid n hn).dataOffset_eq ▸ hoffset, hend, fun k hk => ?_, fun a hle hlt => ?_⟩
  · rw [(hlaid k hk).len_eq]
    rcases eq_or_ne n k with rfl | hne
    · exact .inl hheaders
    · have hdisj := map.disjoint n hn k hk hne
      have := headers_fit hm (map.size_lt hk)
      omega
  · have hoff := dataOffset_pos (m := m)
    exact ⟨(hlaid n hn).contains_iff.2 ⟨by omega, by omega⟩,
      fun d hd => findSlabMemory_eq hlaid hn hd (by omega) (by omega)⟩

end

/-- **When the pages stay inside.** In every state of every run every page that is out lies between
the headers and the end of the mapping of its node, and each of its addresses is found in this
node, if and only if the size of the mappings is a multiple of the page size, or at most one page.
In the latter case there is no page to hand out. -/
theorem pages_inside {memsz nrCores : ℕ}
    (map : Mapping (nrNumaNodes nrCores) (memsz / nrNumaNodes nrCores)) (mem : Memory)
    (hm : 0 < memsz / nrNumaNodes nrCores) :
    (∀ es s, run (step (nrNumaNodes nrCores)) (init memsz nrCores map.base mem) es = some s →
      ∀ n mp ptr, (n, mp, ptr) ∈ s.handed → s.Inside map n ptr) ↔
    Fits (memsz / nrNumaNodes nrCores) := by
  have hnodes := NodesOk.init map hm mem
  constructor
  · intro hall
    have hn : 0 < nrNumaNodes nrCores := Nat.pos_of_ne_zero fun h0 => by simp [h0] at hm
    refine (fits_iff hm (map.size_lt hn)).2 (or_iff_not_imp_left.2 fun hpages => ?_)
    -- the last page of the first node
    obtain ⟨es, s, hrun, -, hout⟩ := hnodes.handAll hn []
    have hlast := (hall es s hrun 0 _ _ (hout ((map.headers hm hn).addr (nrPages _ - 1)) (by
      rw [dif_pos hn, Block.mem_chunks]
      exact ⟨_, Nat.sub_lt (Nat.pos_of_ne_zero hpages) Nat.one_pos, rfl⟩))).end_le
    obtain ⟨k, hk⟩ := Nat.exists_eq_succ_of_ne_zero hpages
    rw [map.pageOf_addr, Mapping.page, hk, Nat.succ_sub_one] at hlast
    rw [hk, Nat.succ_mul]
    omega
  · intro hfits es s hrun n mp ptr hmem
    obtain ⟨free, hinv⟩ := run_induction (I := fun s => ∃ free, Inv map hm s free)
      (fun s e t ⟨_, hs⟩ hstep => hs.step hfits e hstep)
      ⟨_, hnodes, fun _ _ _ hmem => absurd hmem List.not_mem_nil⟩ hrun
    exact hinv.inside hfits hmem

def twoNodes : Mapping (nrNumaNodes 16) (256 * 2 ^ 20 / nrNumaNodes 16) where
  base n := 4096 + n * 2 ^ 27
  base_pos n _ := by omega
  base_end n hn := by
    change n < 2 at hn
    change 4096 + n * 2 ^ 27 + 2 ^ 27 ≤ 2 ^ 64
    omega
  disjoint n _ k _ hne := by
    change 4096 + n * 2 ^ 27 + 2 ^ 27 ≤ 4096 + k * 2 ^ 27 ∨
      4096 + k * 2 ^ 27 + 2 ^ 27 ≤ 4096 + n * 2 ^ 27
    omega

theorem pages_inside_twoNodes : ∃ s : Pages,
    run (Pages.step (nrNumaNodes 16)) (init (256 * 2 ^ 20) 16 twoNodes.base fun _ => 0)
      [.newMetaSlab 1, .write (4096 + 192 * 2 ^ 20) 7] = some s ∧
    (1, 4096 + 2 ^ 27, 4096 + 192 * 2 ^ 20) ∈ s.handed ∧
    4096 + 192 * 2 ^ 20 + kLargeSlabPageSize ≤ twoNodes.base 1 + 256 * 2 ^ 20 / nrNumaNodes 16 := by
  obtain ⟨s, hrun, hmem⟩ : ∃ s, run (Pages.step (nrNumaNodes 16)) (init (256 * 2 ^ 20) 16
      twoNodes.base fun _ => 0) [.newMetaSlab 1, .write (4096 + 192 * 2 ^ 20) 7] = some s ∧ (1, 4096
      + 2 ^ 27, 4096 + 192 * 2 ^ 20) ∈ s.handed := by decide +kernel
  exact ⟨s, hrun, hmem,
    ((pages_inside twoNodes (fun _ => 0) (by decide)).2 (by decide) _ s hrun _ _ _ hmem).end_le⟩

def oddSize : Mapping (nrNumaNodes 8) (100 * 2 ^ 20 / nrNumaNodes 8) where
  base _ := 4096
  base_pos _ _ := by decide
  base_end _ _ := by decide
  disjoint n hn k hk hne := by
    change n < 1 at hn
    change k < 1 at hk
    omega

/-- The only page of a mapping of 100 MB ends 28 MB behind it, and its last addresses are in no
node. -/
theorem outside_oddSize : ∃ s : Pages,
    run (Pages.step (nrNumaNodes 8)) (init (100 * 2 ^ 20) 8 oddSize.base fun _ => 0)
      [.newMetaSlab 0] = some s ∧
    (0, 4096, 4096 + 64 * 2 ^ 20) ∈ s.handed ∧
    ¬4096 + 64 * 2 ^ 20 + kLargeSlabPageSize ≤ oddSize.base 0 + 100 * 2 ^ 20 / nrNumaNodes 8 ∧
    findSlabMemory (nrNumaNodes 8) s.slabmem (4096 + 100 * 2 ^ 20) 0 = none := by decide +kernel

end Pages

end Felis.Mem
