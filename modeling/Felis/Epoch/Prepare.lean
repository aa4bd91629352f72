import Felis.Foundations.Runs
import Felis.Row.Spec

/-!
# Appending the versions of an epoch

Before an epoch executes, the versions of all write sets are appended to their rows. The calls
come in any order and in any mixture of single appends and batches. `prepared_run` says what each
row looks like afterwards: the version it had, then the appended versions in order with pending
slots, and behind them only words that were there before or came with a new array.
-/

namespace Felis.Epoch

open Cells Row Runs Function
open scoped List

inductive AppendOp
  | one (svc : Services) (sid : ℕ) (weight : ℤ)
  | batch (svc : Services) (sids : List ℕ)

variable {epochNr : ℕ}

namespace AppendOp

def sids : AppendOp → List ℕ
  | .one _ sid _ => [sid]
  | .batch _ sids => sids

def svc : AppendOp → Services
  | .one svc _ _ => svc
  | .batch svc _ => svc

def apply (epochNr : ℕ) (row : VHandle) : AppendOp → Except Fault VHandle
  | .one svc sid weight => appendNewVersionNoLock svc row sid epochNr weight
  | .batch svc sids => appendBatch svc row sids epochNr

theorem apply_spec {row row' : VHandle} {op : AppendOp} (hcap : row.size ≤ row.capacity)
    (hlatest : row.latestVersion < row.size) (hs : row.versionList.Pairwise (· ≤ ·))
    (h : op.apply epochNr row = .ok row') : ∃ k, AppendSpec op.svc row row' op.sids epochNr k := by
  cases op with
  | one svc sid weight => exact appendNewVersionNoLock_spec hcap hlatest hs h
  | batch svc sids => exact appendBatch_spec hcap hlatest hs h

end AppendOp

/-- A row before the epoch: it holds one written version of an earlier epoch. Neither its object
nor a cell of its array that was never used is one of the serial ids `S`. -/
structure Loaded (epochNr : ℕ) (S : List ℕ) (row : VHandle) : Prop where
  size : row.size = 1
  size_le : row.size ≤ row.capacity
  latest : row.latestVersion = 0
  epoch : epochOf (row.versions 0) < epochNr
  object : isPendingVal (row.objects 0) = false
  object_sid : row.objects 0 ∉ S
  unused : ∀ i, row.size ≤ i → i < row.capacity → row.versions i ∉ S

/-- The row after `sids` have been appended to `row₀`. -/
structure Prepared (S : List ℕ) (row₀ row : VHandle) (sids : List ℕ) : Prop where
  size : row.size = sids.length + 1
  size_le : row.size ≤ row.capacity
  latest : row.latestVersion = 0
  version : row.versions 0 = row₀.versions 0
  object : row.objects 0 = row₀.objects 0
  sorted : row.versionList.Pairwise (· ≤ ·)
  perm : seg row.versions 1 sids.length ~ sids
  pending : ∀ i, 1 ≤ i → i < row.size → row.objects i = kPendingValue
  curStart : sids ≠ [] → row.curStart = 1
  unused : ∀ i, row.size ≤ i → i < row.capacity → row.versions i ∉ S
  addr : row.addr = row₀.addr
  inlineUsed : row.inlineUsed = row₀.inlineUsed

theorem Loaded.prepared {S : List ℕ} {row : VHandle} (h : Loaded epochNr S row) :
    Prepared S row row [] where
  size := h.size
  size_le := h.size_le
  latest := h.latest
  version := rfl
  object := rfl
  sorted := by simp [VHandle.versionList, h.size, seg]
  perm := List.Perm.nil
  pending := fun i hi hlt => by
    have := h.size
    omega
  curStart := fun hne => absurd rfl hne
  unused := h.unused
  addr := rfl
  inlineUsed := rfl

/-- New arrays hold none of the serial ids `S`. -/
def CleanMemory (S : List ℕ) (svc : Services) : Prop :=
  ∀ n mem, svc.alloc n = some mem → ∀ i, mem i ∉ S

/-- The versions that the epoch has appended to a row are of the epoch. -/
theorem Prepared.epochOf_eq {S sids : List ℕ} {row₀ row : VHandle} (h : Prepared S row₀ row sids)
    (hsids : ∀ s ∈ sids, epochOf s = epochNr) {i : ℕ} (hi : 1 ≤ i) (hlt : i < row.size) :
    epochOf (row.versions i) = epochNr := by
  have hsize := h.size
  exact hsids _ (h.perm.mem_iff.1 (mem_seg.2 ⟨i - 1, by omega, by congr 1; omega⟩))

/-- One call: nothing can be dropped, since the row has only one version of an earlier epoch. -/
theorem Prepared.append {S sids : List ℕ} {row₀ row row' : VHandle} {op : AppendOp}
    (hl : Loaded epochNr S row₀) (h : Prepared S row₀ row sids)
    (hsids : ∀ s ∈ sids, epochOf s = epochNr) (hop : ∀ s ∈ op.sids, epochOf s = epochNr)
    (hmem : CleanMemory S op.svc) (happ : op.apply epochNr row = .ok row') :
    Prepared S row₀ row' (sids ++ op.sids) := by
  have hsize := h.size
  have hlatest := h.latest
  obtain ⟨k, hspec⟩ := AppendOp.apply_spec h.size_le (by omega) h.sorted happ
  obtain rfl : k = 0 := by
    by_contra hk
    obtain ⟨hlt, hepoch⟩ := hspec.droppable (k - 1) (by omega)
    rw [show k - 1 + 1 = k by omega] at hlt hepoch
    exact absurd (h.epochOf_eq hsids (by omega) hlt) hepoch.ne
  have hsize' := hspec.size
  have hlatest' := hspec.latest
  obtain ⟨hlow, hhigh⟩ := hspec.split h.sorted (Nat.zero_le 1) (by omega) fun i hi s hs => by
    obtain rfl : i = 0 := by omega
    refine (lt_of_epochOf_lt ?_).le
    rw [h.version, hop s hs]
    exact hl.epoch
  have hobj : ∀ i < row'.size, row'.objects i =
      if i < row.size then row.objects i else kPendingValue := fun i hi => by
    simpa using objects_append hspec (Nat.zero_le _) hi
  refine ⟨by simp only [List.length_append]; omega, hspec.size_le, by omega, ?_, ?_, hspec.sorted,
    ?_, fun i hi hlt => ?_, fun _ => ?_, fun i hi hlt => ?_, ?_, ?_⟩
  · rw [hlow 0 (by omega), Nat.zero_add, h.version]
  · rw [hobj 0 (by omega), if_pos (by omega), h.object]
  · rw [show row'.size - (1 - 0) = (sids ++ op.sids).length by
      simp only [List.length_append]; omega, show row.size - 1 = sids.length by omega] at hhigh
    exact hhigh.trans (h.perm.append_right _)
  · rw [hobj i hlt]
    split_ifs with hir
    · exact h.pending i hi hir
    · rfl
  · have := hspec.curStart (by omega)
    omega
  · rcases hspec.unused rfl i hi hlt with ⟨hcap, heq⟩ | ⟨mem, halloc, heq⟩
    · rw [heq]
      exact h.unused i (by omega) hcap
    · rw [heq]
      exact hmem _ _ halloc i
  · rw [hspec.addr, h.addr]
  · rw [hspec.inlineUsed, h.inlineUsed]

/-! ## All calls -/

variable {R : Type} [DecidableEq R]

def appendStep (epochNr : ℕ) (rows : R → VHandle) (op : R × AppendOp) : Option (R → VHandle) :=
  (op.2.apply epochNr (rows op.1)).toOption.map fun row => update rows op.1 row

/-- The versions that a list of calls appends to the row `r`. -/
def appendedTo (r : R) (ops : List (R × AppendOp)) : List ℕ :=
  ops.flatMap fun op => if op.1 = r then op.2.sids else []

/-- **What the appends leave behind**, in whatever order they come. -/
theorem prepared_run {S : List ℕ} {rows₀ : R → VHandle} (hl : ∀ r, Loaded epochNr S (rows₀ r)) :
    ∀ (ops : List (R × AppendOp)) (rows rows' : R → VHandle) (acc : R → List ℕ),
      (∀ r, Prepared S (rows₀ r) (rows r) (acc r)) → (∀ r, ∀ s ∈ acc r, epochOf s = epochNr) →
      (∀ op ∈ ops, (∀ s ∈ op.2.sids, epochOf s = epochNr) ∧ CleanMemory S op.2.svc) →
      run (appendStep epochNr) rows ops = some rows' →
      ∀ r, Prepared S (rows₀ r) (rows' r) (acc r ++ appendedTo r ops) := by
  intro ops
  induction ops with
  | nil =>
    intro rows rows' acc h _ _ hrun r
    cases hrun
    simpa [appendedTo] using h r
  | cons op ops ih =>
    intro rows rows' acc h hacc hops hrun r
    obtain ⟨mid, hstep, hrun⟩ := (run_cons _).1 hrun
    obtain ⟨row, happ, rfl⟩ := toOption_map_eq_some.1 hstep
    obtain ⟨hsids, hmem⟩ := hops op (by simp)
    have hmid : ∀ r, Prepared S (rows₀ r) (update rows op.1 row r)
        (acc r ++ if op.1 = r then op.2.sids else []) := fun r => by
      by_cases hr : op.1 = r
      · subst hr
        rw [update_self, if_pos rfl]
        exact (h op.1).append (hl op.1) (hacc op.1) hsids hmem happ
      · rw [update_of_ne (Ne.symm hr), if_neg hr, List.append_nil]
        exact h r
    have hres := ih _ rows' (fun r => acc r ++ if op.1 = r then op.2.sids else []) hmid
      (fun r s hs => ?_) (fun o ho => hops o (by simp [ho])) hrun r
    · simpa [appendedTo, List.append_assoc] using hres
    · rcases List.mem_append.1 hs with hs | hs
      · exact hacc r s hs
      · split_ifs at hs
        · exact hsids s hs
        · cases hs

end Felis.Epoch
