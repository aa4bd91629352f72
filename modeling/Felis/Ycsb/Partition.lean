import Mathlib.Tactic

/-!
# The partitioning of the distributed YCSB table

The upper 15 bits of a key are its slice. `YCSBDistSlicerRouter` gives every node and every core the
same number of slices, rounded down. The slices that are left over by the division belong to a node
that does not exist, and their keys are not loaded anywhere (`partition_misses`). All other keys are
loaded on the one core that the transactions are routed to (`partition_routes`); when the number of
nodes divides the number of slices, these are all the keys.
-/

namespace Felis.Ycsb

/-- `SliceLocator<YcsbDist>::Locate` -/
def locate (key : BitVec 64) : BitVec 16 :=
  let sliceIdRaw := key >>> 9
  BitVec.setWidth 16 (if sliceIdRaw = 0 then 0x01 else sliceIdRaw)

def maxSliceId : ℕ := 1 <<< 15

def sliceToNodeId (nrNodes : ℕ) (sliceId : BitVec 16) : ℕ :=
  let slicePerNode := maxSliceId / nrNodes
  sliceId.toNat / slicePerNode + 1

def sliceToCoreId (nrNodes nrThreadsPerNode : ℕ) (sliceId : BitVec 16) : ℕ :=
  let nrThreads := nrNodes * nrThreadsPerNode
  let slicePerThread := maxSliceId / nrThreads
  sliceId.toNat / slicePerThread % nrThreadsPerNode

/-- A row that a node has loaded with the affinity of a core. -/
structure Load where
  node : ℕ
  core : ℕ
  key : ℕ
  deriving DecidableEq

/-- `YcsbDistLoader::DoOnSlice` for the insertion of a key. -/
def doOnSlice (nrNodes nrThreads nodeId key coreId : ℕ) : List Load :=
  let sliceId := locate (BitVec.ofNat 64 key)
  if sliceToNodeId nrNodes sliceId = nodeId ∧ sliceToCoreId nrNodes nrThreads sliceId = coreId then
    [⟨nodeId, coreId, key⟩]
  else []

/-- `YcsbDistLoader::Run` on a node. -/
def loaderRun (nrNodes nrThreads tableSize nodeId : ℕ) : List Load :=
  (List.range nrThreads).flatMap fun t =>
    (List.range tableSize).flatMap fun i => doOnSlice nrNodes nrThreads nodeId i t

/-- The loaders of all nodes; node ids start at 1. -/
def loads (nrNodes nrThreads tableSize : ℕ) : List Load :=
  (List.range' 1 nrNodes).flatMap (loaderRun nrNodes nrThreads tableSize)

/-- The slice is not left over by the division among the nodes. -/
def Covered (nrNodes : ℕ) (sliceId : BitVec 16) : Prop :=
  sliceId.toNat < nrNodes * (maxSliceId / nrNodes)

variable {n T key : ℕ}

theorem locate_lt (hkey : key < 2 ^ 24) : (locate (BitVec.ofNat 64 key)).toNat < maxSliceId := by
  have hraw : (BitVec.ofNat 64 key >>> 9).toNat < 2 ^ 15 := by
    rw [BitVec.toNat_ushiftRight, BitVec.toNat_ofNat, Nat.shiftRight_eq_div_pow]
    omega
  rw [locate, BitVec.toNat_setWidth]
  refine (Nat.mod_le _ _).trans_lt ?_
  split_ifs
  · decide
  · exact hraw

theorem sliceToNodeId_le (hn : 1 ≤ n) (hmax : n ≤ maxSliceId) (s : BitVec 16) :
    sliceToNodeId n s ≤ n ↔ Covered n s := by
  have hq : 0 < maxSliceId / n := Nat.div_pos hmax hn
  rw [sliceToNodeId, Covered, Nat.succ_le_iff, Nat.div_lt_iff_lt_mul hq]

theorem mem_loads {tableSize : ℕ} {l : Load} : l ∈ loads n T tableSize ↔
    (1 ≤ l.node ∧ l.node ≤ n) ∧ l.core < T ∧ l.key < tableSize ∧
      sliceToNodeId n (locate (BitVec.ofNat 64 l.key)) = l.node ∧
      sliceToCoreId n T (locate (BitVec.ofNat 64 l.key)) = l.core := by
  simp only [loads, loaderRun, doOnSlice, List.mem_flatMap, List.mem_range, List.mem_range'_1]
  constructor
  · rintro ⟨node, hnode, core, hcore, i, hi, hl⟩
    split_ifs at hl with hroute
    · rw [List.mem_singleton] at hl
      subst hl
      exact ⟨⟨hnode.1, Nat.lt_one_add_iff.1 hnode.2⟩, hcore, hi, hroute⟩
    · cases hl
  · rintro ⟨hnode, hcore, hkey, hroute⟩
    refine ⟨l.node, by omega, l.core, hcore, l.key, hkey, ?_⟩
    rw [if_pos hroute]
    exact List.mem_singleton.2 rfl

/-- **The partitioning is a partition** of the keys whose slices are not left over. Such a key is
routed to a node in `1..n` and a core below `T`, and it is loaded there and nowhere else. If `n`
divides the number of slices, no slice is left over. -/
theorem partition_routes (n T tableSize key : ℕ) (hn : 1 ≤ n) (hT : 1 ≤ T) (hnT : n * T ≤ 2 ^ 15)
    (hkey : key < 2 ^ 24) (htable : key < tableSize) :
    let s := locate (BitVec.ofNat 64 key)
    (Covered n s ↔ 1 ≤ sliceToNodeId n s ∧ sliceToNodeId n s ≤ n) ∧ sliceToCoreId n T s < T ∧
      (Covered n s → ∀ node core, ⟨node, core, key⟩ ∈ loads n T tableSize ↔
        node = sliceToNodeId n s ∧ core = sliceToCoreId n T s) ∧
      (n ∣ 2 ^ 15 → Covered n s) := by
  intro s
  have hmax : n ≤ maxSliceId := (Nat.le_mul_of_pos_right n hT).trans hnT
  have hnode : 1 ≤ sliceToNodeId n s := Nat.succ_pos _
  have hcore : sliceToCoreId n T s < T := Nat.mod_lt _ hT
  refine ⟨?_, hcore, fun hs node core => ?_, fun hdvd => ?_⟩
  · rw [sliceToNodeId_le hn hmax]
    exact (and_iff_right hnode).symm
  · have hle := (sliceToNodeId_le hn hmax s).2 hs
    rw [mem_loads]
    constructor
    · rintro ⟨-, -, -, h₁, h₂⟩
      exact ⟨h₁.symm, h₂.symm⟩
    · rintro ⟨rfl, rfl⟩
      exact ⟨⟨hnode, hle⟩, hcore, htable, rfl, rfl⟩
  · have hall : n * (maxSliceId / n) = maxSliceId := Nat.mul_div_cancel' hdvd
    rw [Covered, hall]
    exact locate_lt hkey

/-- Two nodes with three cores each: the slice 20000 is on the core 0 of the node 2. -/
theorem partition_routes_twoNodes :
    locate (BitVec.ofNat 64 (20000 * 2 ^ 9)) = 20000 ∧
      ∀ node core, ⟨node, core, 20000 * 2 ^ 9⟩ ∈ loads 2 3 (2 ^ 24) ↔ node = 2 ∧ core = 0 := by
  have h := partition_routes 2 3 (2 ^ 24) (20000 * 2 ^ 9) (by decide) (by decide) (by decide)
    (by decide) (by decide)
  exact ⟨by decide, h.2.2.1 (h.2.2.2 (by decide))⟩

/-- With three nodes, the last slice is routed to the node 4, and its keys are not loaded. -/
theorem partition_misses : sliceToNodeId 3 (locate (BitVec.ofNat 64 (2 ^ 24 - 1))) = 4 ∧
    ∀ node core, ⟨node, core, 2 ^ 24 - 1⟩ ∉ loads 3 1 (2 ^ 24) := by
  refine ⟨by decide, fun node core hmem => ?_⟩
  obtain ⟨⟨-, hle⟩, -, -, hnode, -⟩ := mem_loads.1 hmem
  have hle' : sliceToNodeId 3 (locate (BitVec.ofNat 64 (2 ^ 24 - 1))) ≤ 3 := hnode.trans_le hle
  exact absurd hle' (by decide)

end Felis.Ycsb
