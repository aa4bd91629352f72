import Mathlib.Data.BitVec
import Felis.Foundations.MachineInts
import Felis.Phase.Inbound
import Felis.Slice.Mapping

/-!
# The plan of the buffers

Before the pieces of a phase are issued, every core counts them: a counter belongs to a level, to
the node that sends the piece and to the node that runs it. `CollectBufferPlan` walks over the trees
of pieces and adds to the counters of the core. A piece without a node runs where it is issued, and
one with the node 255 is dynamic: it may run on any node, and is counted for all of them. The
futures that a piece waits for are counted as well, with the node that they come from.

`issued` lists the pieces with the nodes that they are issued from, and `planned` says how often
each counter should be raised for them. The code does this for every piece exactly when a dynamic
piece has no children and waits for no future, and when the futures of a piece come from the same
node as those of the root of its tree (`collectBufferPlan_counts`). The node of the root is what the
code passes down, and the children of a dynamic piece are counted as issued from the node 255,
outside of the counters.
-/

namespace Felis.Piece

open MachineInts Function List
open Phase.Inbound (kPromiseMaxLevels)
open Slice (kMaxNrNode)

/-! ## `CollectBufferPlan` -/

/-- The nodes, and the one that the code runs on. -/
structure Cluster where
  nrNodes : ℕ
  nodeId : ℕ
  nrNodes_le : nrNodes ≤ kMaxNrNode
  nodeId_pos : 1 ≤ nodeId
  nodeId_le : nodeId ≤ nrNodes

inductive Fault
  /-- "promise level too deep" -/
  | tooDeep (level : ℕ)
  /-- An access behind the counters. -/
  | outOfBounds (index : ℕ)
  deriving DecidableEq

abbrev Counters := ℕ → BitVec 64

def Tree.routine : Tree → PieceRoutine
  | .node r _ _ => r

namespace Cluster

variable (c : Cluster)

def nrCounters : ℕ := kPromiseMaxLevels * c.nrNodes * c.nrNodes

/-- The arithmetic is in `int`, and the result is a `size_t`. -/
def batchBufferIndex (level srcNode dstNode : ℕ) : ℕ :=
  unsigned 64 (level * c.nrNodes * c.nrNodes + (srcNode - 1) * c.nrNodes + dstNode - 1)

/-- `cnts[index] += x`. -/
def increment (cnts : Counters) (index : ℕ) (x : BitVec 64) : Except Fault Counters :=
  if index < c.nrCounters then .ok (update cnts index (cnts index + x))
  else .error (.outOfBounds index)

def futureSrcNode (r : PieceRoutine) : ℕ :=
  if r.futureSourceNodeId = 0 then c.nodeId else r.futureSourceNodeId.toNat

def IsNode (v : ℕ) : Prop := 1 ≤ v ∧ v ≤ c.nrNodes

end Cluster

/-- The node of a routine is a `uint8_t`. -/
def PieceRoutine.dstNode (r : PieceRoutine) (srcNode : ℕ) : BitVec 8 :=
  if r.nodeId = 0 then BitVec.ofNat 8 srcNode else r.nodeId

namespace Cluster

variable (c : Cluster)

/-- `CollectBufferPlanImpl`, in front of the loop over `next`. -/
def countRoutine (level srcNode futureSrcNode : ℕ) (r : PieceRoutine) (cnts : Counters) :
    Except Fault Counters :=
  let dstNode := (r.dstNode srcNode).toNat
  if kPromiseMaxLevels ≤ level then .error (.tooDeep level)
  else if dstNode < 255 then do
    let cnts ← c.increment cnts (c.batchBufferIndex level srcNode dstNode) 1
    c.increment cnts (c.batchBufferIndex level futureSrcNode dstNode) (r.fvSignals.setWidth 64)
  else
    (List.range' 1 c.nrNodes).foldlM
      (fun cnts d => c.increment cnts (c.batchBufferIndex level srcNode d) 1) cnts

mutual

def collectBufferPlanImpl (level srcNode futureSrcNode : ℕ) :
    Tree → Counters → Except Fault (Tree × Counters)
  | .node r capture next, cnts => do
    let cnts ← c.countRoutine level srcNode futureSrcNode r cnts
    let (next, cnts) ←
      collectNext (level + 1) (r.dstNode srcNode).toNat futureSrcNode next cnts
    .ok (.node { r with level := BitVec.ofNat 8 level } capture next, cnts)

/-- The loop over `next`. -/
def collectNext (level srcNode futureSrcNode : ℕ) :
    List Tree → Counters → Except Fault (List Tree × Counters)
  | [], cnts => .ok ([], cnts)
  | t :: ts, cnts => do
    let (t, cnts) ← collectBufferPlanImpl level srcNode futureSrcNode t cnts
    let (ts, cnts) ← collectNext level srcNode futureSrcNode ts cnts
    .ok (t :: ts, cnts)

end

def collectBufferPlan : List Tree → Counters → Except Fault (List Tree × Counters)
  | [], cnts => .ok ([], cnts)
  | t :: ts, cnts => do
    let (t, cnts) ← c.collectBufferPlanImpl 0 c.nodeId (c.futureSrcNode t.routine) t cnts
    let (ts, cnts) ← collectBufferPlan ts cnts
    .ok (t :: ts, cnts)

end Cluster

/-! ## What should be counted -/

/-- The node that runs a routine; for a dynamic one, which may run on any, this is 255. -/
def PieceRoutine.runsOn (r : PieceRoutine) (src : ℕ) : ℕ :=
  if r.nodeId = 0 then src else r.nodeId.toNat

/-- A routine of a tree, with its depth, the node that it is issued from and the root of the
tree. -/
structure Issue where
  depth : ℕ
  src : ℕ
  root : PieceRoutine
  routine : PieceRoutine

namespace Tree

mutual

def issues (root : PieceRoutine) (depth src : ℕ) : Tree → List Issue
  | .node r _ next => ⟨depth, src, root, r⟩ :: issuesNext root (depth + 1) (r.runsOn src) next

def issuesNext (root : PieceRoutine) (depth src : ℕ) : List Tree → List Issue
  | [] => []
  | t :: ts => t.issues root depth src ++ issuesNext root depth src ts

end

mutual

/-- The tree with the depths as levels. -/
def withLevels (depth : ℕ) : Tree → Tree
  | .node r capture next =>
    .node { r with level := BitVec.ofNat 8 depth } capture (withLevelsNext (depth + 1) next)

def withLevelsNext (depth : ℕ) : List Tree → List Tree
  | [] => []
  | t :: ts => t.withLevels depth :: withLevelsNext depth ts

end

end Tree

namespace Issue

variable (c : Cluster) (x : Issue)

/-- The nodes that the routine is counted for. -/
def destinations : List ℕ :=
  if x.routine.nodeId = 255 then List.range' 1 c.nrNodes else [x.routine.runsOn x.src]

/-- A piece and `k` futures from the node `f`, by level, source and destination. -/
def addsFrom (f k : ℕ) : ℕ × ℕ × ℕ → ℕ :=
  ((x.destinations c).map fun t =>
    Pi.single (x.depth, x.src, t) 1 + Pi.single (x.depth, f, t) k).sum

/-- What the routine adds to the counters. -/
def adds : ℕ × ℕ × ℕ → ℕ := x.addsFrom c (c.futureSrcNode x.routine) x.routine.fvSignals.toNat

/-- The depth and the nodes are those of a plan. -/
@[mk_iff]
structure WellFormed : Prop where
  depth : x.depth < kPromiseMaxLevels
  node : x.routine.nodeId.toNat ≤ c.nrNodes ∨ x.routine.nodeId = 255
  future : x.routine.futureSourceNodeId.toNat ≤ c.nrNodes
  root : x.root.futureSourceNodeId.toNat ≤ c.nrNodes

/-- The routine is issued from a node, so not by a dynamic one; a dynamic routine waits for no
future; and the futures come from where those of the root come from. -/
@[mk_iff]
structure Plain : Prop where
  src : c.IsNode x.src
  dynamic : x.routine.nodeId = 255 → x.routine.fvSignals = 0
  future : x.routine.fvSignals ≠ 0 → c.futureSrcNode x.routine = c.futureSrcNode x.root

end Issue

namespace Cluster

variable (c : Cluster)

def issued (roots : List Tree) : List Issue :=
  roots.flatMap fun t => t.issues t.routine 0 c.nodeId

def planned (roots : List Tree) : ℕ × ℕ × ℕ → ℕ := ((c.issued roots).map (Issue.adds c)).sum

end Cluster

/-! ## The counters -/

section

variable {c : Cluster} {cnts cnts₁ cnts₂ : Counters} {d s t : ℕ}

theorem mul_add_inj {n a a' b b' : ℕ} (hb : b < n) (hb' : b' < n) (h : a * n + b = a' * n + b') :
    a = a' ∧ b = b' := by
  have hmod := congrArg (· % n) h
  simp only [Nat.mul_add_mod_of_lt hb, Nat.mul_add_mod_of_lt hb'] at hmod
  refine ⟨Nat.eq_of_mul_eq_mul_right (Nat.zero_lt_of_lt hb) ?_, hmod⟩
  omega

theorem mul_add_lt {n a b m : ℕ} (ha : a < m) (hb : b < n) : a * n + b < m * n :=
  calc
    a * n + b < a * n + n := Nat.add_lt_add_left hb _
    _ = (a + 1) * n := (Nat.succ_mul a n).symm
    _ ≤ m * n := Nat.mul_le_mul_right n ha

namespace Cluster

theorem nrCounters_lt (c : Cluster) : c.nrCounters < 2 ^ 64 := by
  have hle := c.nrNodes_le
  calc
    c.nrCounters ≤ kPromiseMaxLevels * kMaxNrNode * kMaxNrNode :=
      Nat.mul_le_mul (Nat.mul_le_mul_left _ hle) hle
    _ < 2 ^ 64 := by decide

variable (hd : d < kPromiseMaxLevels)

include hd

theorem flat_lt (hs : c.IsNode s) (ht : c.IsNode t) :
    (d * c.nrNodes + (s - 1)) * c.nrNodes + (t - 1) < c.nrCounters := by
  obtain ⟨hs1, hsn⟩ := hs
  obtain ⟨ht1, htn⟩ := ht
  exact mul_add_lt (mul_add_lt hd (by omega)) (by omega)

theorem batchBufferIndex_eq (hs : c.IsNode s) (ht : c.IsNode t) :
    c.batchBufferIndex d s t = (d * c.nrNodes + (s - 1)) * c.nrNodes + (t - 1) := by
  have hlt := (flat_lt hd hs ht).trans c.nrCounters_lt
  have hcast : ((d * c.nrNodes * c.nrNodes + (s - 1) * c.nrNodes + t - 1 : ℤ)) =
      (((d * c.nrNodes + (s - 1)) * c.nrNodes + (t - 1) : ℕ) : ℤ) := by
    push_cast [hs.1, ht.1]
    ring
  rw [batchBufferIndex, hcast, unsigned_natCast, Nat.mod_eq_of_lt hlt]

theorem batchBufferIndex_lt (hs : c.IsNode s) (ht : c.IsNode t) :
    c.batchBufferIndex d s t < c.nrCounters := by
  rw [batchBufferIndex_eq hd hs ht]
  exact flat_lt hd hs ht

theorem batchBufferIndex_inj {d' s' t' : ℕ} (hs : c.IsNode s) (ht : c.IsNode t)
    (hd' : d' < kPromiseMaxLevels) (hs' : c.IsNode s') (ht' : c.IsNode t')
    (h : c.batchBufferIndex d s t = c.batchBufferIndex d' s' t') : (d, s, t) = (d', s', t') := by
  rw [batchBufferIndex_eq hd hs ht, batchBufferIndex_eq hd' hs' ht'] at h
  obtain ⟨hs1, hsn⟩ := hs
  obtain ⟨ht1, htn⟩ := ht
  obtain ⟨hs1', hsn'⟩ := hs'
  obtain ⟨ht1', htn'⟩ := ht'
  obtain ⟨hrow, hcol⟩ := mul_add_inj (by omega) (by omega) h
  obtain ⟨rfl, hsrc⟩ := mul_add_inj (by omega) (by omega) hrow
  obtain rfl : s = s' := by omega
  obtain rfl : t = t' := by omega
  rfl

end Cluster

/-- The counters have been raised by `n`, and nothing else has changed. -/
structure Adds (c : Cluster) (n : ℕ × ℕ × ℕ → ℕ) (cnts cnts' : Counters) : Prop where
  inside : ∀ d s t, d < kPromiseMaxLevels → c.IsNode s → c.IsNode t →
    cnts' (c.batchBufferIndex d s t) =
      cnts (c.batchBufferIndex d s t) + BitVec.ofNat 64 (n (d, s, t))
  outside : ∀ i, c.nrCounters ≤ i → cnts' i = cnts i

namespace Adds

variable {n m : ℕ × ℕ × ℕ → ℕ}

theorem refl (c : Cluster) (cnts : Counters) : Adds c 0 cnts cnts where
  inside d s t _ _ _ := by rw [Pi.zero_apply, BitVec.add_zero]
  outside _ _ := rfl

theorem trans (h : Adds c n cnts cnts₁) (h' : Adds c m cnts₁ cnts₂) :
    Adds c (n + m) cnts cnts₂ where
  inside d s t hd hs ht := by
    rw [h'.inside d s t hd hs ht, h.inside d s t hd hs ht, Pi.add_apply, BitVec.ofNat_add,
      BitVec.add_assoc]
  outside i hi := (h'.outside i hi).trans (h.outside i hi)

theorem increment (hd : d < kPromiseMaxLevels) (hs : c.IsNode s) (ht : c.IsNode t) (k : ℕ)
    (cnts : Counters) : ∃ cnts', c.increment cnts (c.batchBufferIndex d s t) (BitVec.ofNat 64 k) =
      .ok cnts' ∧ Adds c (Pi.single (d, s, t) k) cnts cnts' := by
  refine ⟨_, if_pos (Cluster.batchBufferIndex_lt hd hs ht), ?_, ?_⟩
  · intro d' s' t' hd' hs' ht'
    by_cases heq : (d', s', t') = (d, s, t)
    · cases heq
      rw [update_self, Pi.single_eq_same]
    · rw [update_of_ne, Pi.single_eq_of_ne heq, BitVec.add_zero]
      exact fun hidx => heq (Cluster.batchBufferIndex_inj hd' hs' ht' hd hs ht hidx)
  · intro i hi
    exact update_of_ne ((Cluster.batchBufferIndex_lt hd hs ht).trans_le hi).ne' ..

theorem foldlM (hd : d < kPromiseMaxLevels) (hs : c.IsNode s) {ts : List ℕ}
    (hts : ∀ t ∈ ts, c.IsNode t) (cnts : Counters) :
    ∃ cnts', ts.foldlM (fun cnts t => c.increment cnts (c.batchBufferIndex d s t) 1) cnts =
      .ok cnts' ∧ Adds c (ts.map fun t => Pi.single (d, s, t) 1).sum cnts cnts' := by
  induction ts generalizing cnts with
  | nil => exact ⟨cnts, rfl, refl c cnts⟩
  | cons t ts ih =>
    obtain ⟨cnts₁, hfirst, hadds⟩ := increment hd hs (hts t mem_cons_self) 1 cnts
    obtain ⟨cnts₂, hrest, hadds'⟩ := ih (fun t ht => hts t (mem_cons_of_mem _ ht)) cnts₁
    refine ⟨cnts₂, ?_, ?_⟩
    · rw [foldlM_cons]
      exact (congrArg (· >>= _) hfirst).trans hrest
    · rw [map_cons, sum_cons]
      exact hadds.trans hadds'

end Adds

end

/-! ## One routine -/

section

variable {c : Cluster} {r : PieceRoutine} {x : Issue} {src : ℕ}

theorem Cluster.IsNode.lt (h : c.IsNode src) : src < 255 :=
  h.2.trans_lt (c.nrNodes_le.trans_lt (by decide))

theorem toNat_dstNode (h : c.IsNode src) : (r.dstNode src).toNat = r.runsOn src := by
  have hlt := h.lt
  unfold PieceRoutine.dstNode PieceRoutine.runsOn
  split_ifs with hzero
  · rw [BitVec.toNat_ofNat, Nat.mod_eq_of_lt (by omega)]
  · rfl

theorem pos_of_ne_zero {v : BitVec 8} (h : v ≠ 0) : 1 ≤ v.toNat := by
  apply Nat.pos_of_ne_zero
  intro hzero
  exact h (BitVec.eq_of_toNat_eq hzero)

theorem Issue.WellFormed.isNode_runsOn (h : x.WellFormed c) (hsrc : c.IsNode x.src)
    (hstatic : x.routine.nodeId ≠ 255) : c.IsNode (x.routine.runsOn x.src) := by
  unfold PieceRoutine.runsOn
  split_ifs with hzero
  · exact hsrc
  · exact ⟨pos_of_ne_zero hzero, h.node.resolve_right hstatic⟩

theorem isNode_futureSrcNode (h : r.futureSourceNodeId.toNat ≤ c.nrNodes) :
    c.IsNode (c.futureSrcNode r) := by
  unfold Cluster.futureSrcNode
  split_ifs with hzero
  · exact ⟨c.nodeId_pos, c.nodeId_le⟩
  · exact ⟨pos_of_ne_zero hzero, h⟩

theorem Issue.nodup_destinations (c : Cluster) (x : Issue) : (x.destinations c).Nodup := by
  unfold Issue.destinations
  split_ifs
  · exact nodup_range'
  · exact nodup_singleton _

theorem Issue.WellFormed.isNode_of_mem (h : x.WellFormed c) (hsrc : c.IsNode x.src) {t : ℕ}
    (ht : t ∈ x.destinations c) : c.IsNode t := by
  unfold Issue.destinations at ht
  split_ifs at ht with hdynamic
  · obtain ⟨hlo, hhi⟩ := mem_range'_1.1 ht
    exact ⟨hlo, by omega⟩
  · exact mem_singleton.1 ht ▸ h.isNode_runsOn hsrc hdynamic

/-- The futures that the code counts. -/
def PieceRoutine.signals (r : PieceRoutine) : ℕ := if r.nodeId = 255 then 0 else r.fvSignals.toNat

/-- The part of `CollectBufferPlanImpl` in front of the loop. -/
theorem Issue.WellFormed.countRoutine (h : x.WellFormed c) (hsrc : c.IsNode x.src)
    (cnts : Counters) :
    ∃ cnts', c.countRoutine x.depth x.src (c.futureSrcNode x.root) x.routine cnts = .ok cnts' ∧
      Adds c (x.addsFrom c (c.futureSrcNode x.root) x.routine.signals) cnts cnts' := by
  have hmem := fun t => h.isNode_of_mem hsrc (t := t)
  rw [Cluster.countRoutine, toNat_dstNode hsrc, if_neg (not_le.2 h.depth), Issue.addsFrom,
    PieceRoutine.signals]
  unfold Issue.destinations at hmem ⊢
  by_cases hdynamic : x.routine.nodeId = 255
  · have hrun : x.routine.runsOn x.src = 255 := by
      rw [PieceRoutine.runsOn, hdynamic]
      rfl
    rw [if_pos hdynamic] at hmem
    rw [if_neg (by rw [hrun]; exact lt_irrefl 255), if_pos hdynamic, if_pos hdynamic]
    simp only [Pi.single_zero, add_zero]
    exact Adds.foldlM h.depth hsrc hmem cnts
  · have hnode := h.isNode_runsOn hsrc hdynamic
    rw [if_pos hnode.lt, if_neg hdynamic, if_neg hdynamic, map_singleton, sum_singleton]
    obtain ⟨cnts₁, hfirst, hadds⟩ := Adds.increment h.depth hsrc hnode 1 cnts
    obtain ⟨cnts₂, hsecond, hadds'⟩ := Adds.increment h.depth (isNode_futureSrcNode h.root) hnode
      x.routine.fvSignals.toNat cnts₁
    rw [BitVec.ofNat_toNat] at hsecond
    exact ⟨cnts₂, (congrArg (· >>= _) hfirst).trans hsecond, hadds.trans hadds'⟩

theorem Issue.addsFrom_apply {t : ℕ} (ht : t ∈ x.destinations c) (f k f' : ℕ) :
    x.addsFrom c f k (x.depth, f', t) =
      (if f' = x.src then 1 else 0) + if f' = f then k else 0 := by
  rw [Issue.addsFrom, Pi.list_sum_apply, map_map, sum_map_eq_nsmul_single t,
    count_eq_one_of_mem (x.nodup_destinations c) ht]
  · simp [Pi.single_apply]
  · intro t' hne _
    simp [hne.symm]

/-- The routine is issued from a node, and the code adds for it what it should. -/
def Issue.Counted (c : Cluster) (x : Issue) : Prop :=
  c.IsNode x.src ∧ ∀ cnts, ∃ cnts',
    c.countRoutine x.depth x.src (c.futureSrcNode x.root) x.routine cnts = .ok cnts' ∧
      Adds c (x.adds c) cnts cnts'

theorem Issue.Plain.counted (h : x.Plain c) (hwf : x.WellFormed c) : x.Counted c := by
  have hadds : x.adds c = x.addsFrom c (c.futureSrcNode x.root) x.routine.signals := by
    rw [Issue.adds, PieceRoutine.signals]
    by_cases hzero : x.routine.fvSignals = 0
    · simp [Issue.addsFrom, hzero]
    · rw [h.future hzero, if_neg fun hdynamic => hzero (h.dynamic hdynamic)]
  rw [Issue.Counted, hadds]
  exact ⟨h.src, hwf.countRoutine h.src⟩

/-- The counter of the futures shows how many were added to it. -/
theorem Issue.Counted.plain (h : x.Counted c) (hwf : x.WellFormed c) : x.Plain c := by
  obtain ⟨hsrc, h⟩ := h
  obtain ⟨cnts, hcount, hadds⟩ := h 0
  obtain ⟨cnts', hcount', hadds'⟩ := hwf.countRoutine hsrc 0
  cases hcount.symm.trans hcount'
  obtain ⟨t, ht⟩ : ∃ t, t ∈ x.destinations c := by
    unfold Issue.destinations
    split_ifs
    · exact ⟨1, mem_range'_1.2 ⟨le_rfl, by have := hsrc.1.trans hsrc.2; omega⟩⟩
    · exact ⟨_, mem_singleton_self _⟩
  have hnode := hwf.isNode_of_mem hsrc ht
  have hfuture := isNode_futureSrcNode hwf.future
  have heq := (hadds.inside _ _ t hwf.depth hfuture hnode).symm.trans
    (hadds'.inside _ _ t hwf.depth hfuture hnode)
  rw [BitVec.add_right_inj, Issue.adds, Issue.addsFrom_apply ht, Issue.addsFrom_apply ht,
    if_pos rfl, ← BitVec.toNat_inj, BitVec.toNat_ofNat, BitVec.toNat_ofNat,
    PieceRoutine.signals] at heq
  have hlt := x.routine.fvSignals.isLt
  refine ⟨hsrc, fun hdynamic => BitVec.eq_of_toNat_eq ?_, fun hne => ?_⟩
  · rw [if_pos hdynamic, ite_self] at heq
    change _ = 0
    split_ifs at heq <;> omega
  · by_contra hother
    have hpos := pos_of_ne_zero hne
    rw [if_neg hother] at heq
    split_ifs at heq <;> omega

end

/-! ## Trees -/

section

variable {c : Cluster} {root : PieceRoutine} {xs ys : List Issue}

/-- What the code does with the trees is to add what their issues add. -/
def Collects {α : Type} (c : Cluster) (f : Counters → Except Fault (α × Counters)) (result : α)
    (xs : List Issue) : Prop :=
  ∀ cnts, ∃ cnts', f cnts = .ok (result, cnts') ∧ Adds c (xs.map (Issue.adds c)).sum cnts cnts'

theorem collects_cons {f : Counters → Except Fault (Tree × Counters)}
    {g : Counters → Except Fault (List Tree × Counters)} {t : Tree} {ts : List Tree}
    (hf : Collects c f t xs) (hg : Collects c g ts ys) :
    Collects c (fun cnts => do
      let (t, cnts) ← f cnts
      let (ts, cnts) ← g cnts
      .ok (t :: ts, cnts)) (t :: ts) (xs ++ ys) := by
  intro cnts
  obtain ⟨cnts₁, hfirst, hadds⟩ := hf cnts
  obtain ⟨cnts₂, hrest, hadds'⟩ := hg cnts₁
  refine ⟨cnts₂, ?_, ?_⟩
  · dsimp only
    rw [hfirst]
    dsimp only [bind, Except.bind]
    rw [hrest]
  · rw [map_append, sum_append]
    exact hadds.trans hadds'

theorem collects_next {next : List Tree} {depth src : ℕ}
    (ih : ∀ t ∈ next, ∀ depth src, (∀ x ∈ t.issues root depth src, x.Counted c) →
      Collects c (c.collectBufferPlanImpl depth src (c.futureSrcNode root) t) (t.withLevels depth)
        (t.issues root depth src))
    (h : ∀ x ∈ Tree.issuesNext root depth src next, x.Counted c) :
    Collects c (c.collectNext depth src (c.futureSrcNode root) next)
      (Tree.withLevelsNext depth next) (Tree.issuesNext root depth src next) := by
  induction next with
  | nil =>
    intro cnts
    exact ⟨cnts, by rw [Cluster.collectNext, Tree.withLevelsNext], Adds.refl c cnts⟩
  | cons t ts ihs =>
    rw [Tree.issuesNext] at h ⊢
    obtain ⟨hhead, htail⟩ := forall_mem_append.1 h
    rw [Tree.withLevelsNext]
    have hts := ihs (fun t ht => ih t (mem_cons_of_mem _ ht)) htail
    intro cnts
    rw [Cluster.collectNext]
    exact collects_cons (ih t mem_cons_self depth src hhead) hts cnts

theorem collects_impl : ∀ (t : Tree) (depth src : ℕ),
    (∀ x ∈ t.issues root depth src, x.Counted c) →
      Collects c (c.collectBufferPlanImpl depth src (c.futureSrcNode root) t) (t.withLevels depth)
        (t.issues root depth src) := by
  refine Tree.induct fun r capture next ih depth src h => ?_
  rw [Tree.issues] at h ⊢
  obtain ⟨⟨hsrc, hcounted⟩, hbelow⟩ := forall_mem_cons.1 h
  intro cnts
  obtain ⟨cnts₁, hcount, hadds⟩ := hcounted cnts
  obtain ⟨cnts₂, hnext, hadds'⟩ := collects_next ih hbelow cnts₁
  refine ⟨cnts₂, ?_, ?_⟩
  · rw [Cluster.collectBufferPlanImpl, Tree.withLevels, toNat_dstNode hsrc, hcount]
    dsimp only [bind, Except.bind]
    rw [hnext]
  · rw [map_cons, sum_cons]
    exact hadds.trans hadds'

theorem collects_plan {roots : List Tree} (h : ∀ x ∈ c.issued roots, x.Counted c) :
    Collects c (c.collectBufferPlan roots) (roots.map (Tree.withLevels 0)) (c.issued roots) := by
  induction roots with
  | nil =>
    intro cnts
    exact ⟨cnts, by rw [Cluster.collectBufferPlan, map_nil], Adds.refl c cnts⟩
  | cons t ts ih =>
    rw [Cluster.issued, flatMap_cons] at h ⊢
    obtain ⟨hhead, htail⟩ := forall_mem_append.1 h
    intro cnts
    rw [Cluster.collectBufferPlan, map_cons]
    exact collects_cons (collects_impl t 0 c.nodeId hhead) (ih htail) cnts

/-- **The counters of a plan.** The code adds for every routine what it should, and
`CollectBufferPlan` succeeds with the levels set to the depths, raises the counters of the plan as
the routines say, and no others, if and only if no dynamic routine has children or waits for
futures, and the futures of a routine come from where those of the root of its tree come from. -/
theorem collectBufferPlan_counts (c : Cluster) (roots : List Tree)
    (hwf : ∀ x ∈ c.issued roots, x.WellFormed c) :
    ((∀ x ∈ c.issued roots, x.Counted c) ∧ ∀ cnts, ∃ cnts',
      c.collectBufferPlan roots cnts = .ok (roots.map (Tree.withLevels 0), cnts') ∧
        Adds c (c.planned roots) cnts cnts') ↔ ∀ x ∈ c.issued roots, x.Plain c := by
  refine ⟨fun h x hx => (h.1 x hx).plain (hwf x hx), fun h => ?_⟩
  have hcounted := fun x hx => (h x hx).counted (hwf x hx)
  exact ⟨hcounted, collects_plan hcounted⟩

instance (v : ℕ) : Decidable (c.IsNode v) := inferInstanceAs (Decidable (_ ∧ _))

instance (x : Issue) : Decidable (x.WellFormed c) := decidable_of_iff' _ (x.wellFormed_iff c)

instance (x : Issue) : Decidable (x.Plain c) := decidable_of_iff' _ (x.plain_iff c)

end

def twoNodes : Cluster := ⟨2, 1, by decide, by decide, by decide⟩

/-- A piece with its node, its futures and the node that they come from. -/
def piece (nodeId fvSignals futureSourceNodeId : BitVec 8) (next : List Tree) : Tree :=
  .node ⟨0, 0, 0, nodeId, 0, 0, 0, 0, 0, fvSignals, futureSourceNodeId, 0⟩ [] next

/-- A piece with a child that waits for three futures, and a dynamic piece. -/
def plainPlan : List Tree := [piece 0 0 2 [piece 2 3 2 []], piece 255 0 0 []]

theorem collectBufferPlan_counts_plainPlan :
    (∀ x ∈ twoNodes.issued plainPlan, x.WellFormed twoNodes) ∧
      (∀ x ∈ twoNodes.issued plainPlan, x.Plain twoNodes) ∧
      twoNodes.planned plainPlan (1, 2, 2) = 3 ∧
      ∃ cnts, twoNodes.collectBufferPlan plainPlan 0 =
        .ok (plainPlan.map (Tree.withLevels 0), cnts) ∧
        Adds twoNodes (twoNodes.planned plainPlan) 0 cnts := by
  have hwf : ∀ x ∈ twoNodes.issued plainPlan, x.WellFormed twoNodes := by decide
  have hplain : ∀ x ∈ twoNodes.issued plainPlan, x.Plain twoNodes := by decide
  exact ⟨hwf, hplain, by decide, ((collectBufferPlan_counts twoNodes plainPlan hwf).2 hplain).2 0⟩

/-- The child of a dynamic piece, a child with futures from another node than those of its parent,
and a dynamic piece with a future. -/
def dynamicParent : List Tree := [piece 255 0 0 [piece 0 0 0 []]]

def otherSource : List Tree := [piece 1 0 0 [piece 1 1 2 []]]

def dynamicWaiter : List Tree := [piece 255 1 0 []]

/-- The first is counted outside of the counters, the future of the second for the node of its
parent, and that of the third not at all. -/
theorem collectBufferPlan_misses :
    (∀ x ∈ twoNodes.issued (dynamicParent ++ otherSource ++ dynamicWaiter),
      x.WellFormed twoNodes) ∧
    (twoNodes.collectBufferPlan dynamicParent 0).map Prod.fst = .error (.outOfBounds 512) ∧
    twoNodes.nrCounters ≤ 512 ∧
    (twoNodes.planned otherSource (1, 2, 1) = 1 ∧
      (twoNodes.collectBufferPlan otherSource 0).map
        (fun p => p.2 (twoNodes.batchBufferIndex 1 2 1)) = .ok 0) ∧
    (twoNodes.planned dynamicWaiter (0, 1, 1) = 2 ∧
      (twoNodes.collectBufferPlan dynamicWaiter 0).map
        (fun p => p.2 (twoNodes.batchBufferIndex 0 1 1)) = .ok 1) := by
  refine ⟨by decide, rfl, by decide, ⟨by decide, rfl⟩, by decide, rfl⟩

end Felis.Piece
