import Felis.Foundations.MachineInts
import Felis.Mem.Layout

/-!
# The locality manager

`LocalityManager` plans how much of the contended work of a core is done by other cores. The weights
that were planned for the cores are collected by `Balance`. A core with more than the average keeps
the average, and offloads the rest to cores that have less: first to those on its NUMA node, and
then to the others. `GetScheduleCore` then selects a core at random, in proportion to what was
offloaded.

The arrays `dist` and `cores` of a core are consecutive parts of two arrays that are allocated once;
they are lists here, whose length is `nr_dist`. A `long` is an integer.
-/

namespace Felis.Locality

open MachineInts Function

variable {n : ℕ}

structure WeightDist (n : ℕ) where
  weight : ℤ
  dist : List ℤ
  cores : List (Fin n)
  load : ℤ
  weightsPerCore : Fin n → ℤ

def WeightDist.nrDist (w : WeightDist n) : ℕ := w.dist.length

/-- `per_core_weights`. -/
abbrev Manager (n : ℕ) := Fin n → WeightDist n

def kPrealloc : ℕ := 1024

/-- `memset` clears all fields but the array at the end of the structure. -/
def reset (m : Manager n) (core : Fin n) : WeightDist n :=
  { m core with weight := 0, dist := [], cores := [], load := 0 }

/-- `PlanLoad`, which runs on the core `current`. -/
def planLoad (m : Manager n) (current core : Fin n) (delta : ℤ) : Manager n :=
  let w := m current
  update m current
    { w with weightsPerCore :=
        update w.weightsPerCore core (w.weightsPerCore core + delta) }

/-! ## `Balance` -/

/-- One round of the inner loop: what `j` has planned for the core is added and cleared. -/
def takeFrom (core : Fin n) (m : Manager n) (j : Fin n) : Manager n :=
  let w := m core
  let m := update m core { w with weight := w.weight + (m j).weightsPerCore core }
  let w := m j
  update m j { w with weightsPerCore := update w.weightsPerCore core 0 }

/-- One round of the first loop, with `tot`. -/
def collectCore (s : Manager n × ℤ) (core : Fin n) : Manager n × ℤ :=
  let m := (List.finRange n).foldl (takeFrom core) s.1
  let w := m core
  (update m core { w with load := w.weight }, s.2 + w.weight)

def collect (m : Manager n) : Manager n × ℤ := (List.finRange n).foldl collectCore (m, 0)

/-- `tot / tot_cores`, where `tot_cores` is a `size_t`: a negative `tot` is divided as an unsigned
integer. -/
def average (n : ℕ) (tot : ℤ) : ℤ :=
  if tot < 0 then signed 64 (unsigned 64 tot / n : ℕ) else tot / n

/-- `core / mem::kNrCorePerNode`. -/
def numaNode (core : Fin n) : ℕ := core / Mem.kNrCorePerNode

/-- `walk_cores`: the cores with less than the limit, those of the same node first. -/
def walkCores (m : Manager n) (core : Fin n) (limit : ℤ) : List (Fin n) :=
  ((List.finRange n).filter fun i =>
      numaNode i = numaNode core ∧ i ≠ core ∧ (m i).load < limit) ++
    (List.finRange n).filter fun i => numaNode i ≠ numaNode core ∧ (m i).load < limit

/-- The loop of `OffloadCore`, with `load_cdf` and the rest of `walk_cores`. -/
def offloadLoop (core : Fin n) (limit : ℤ) : Manager n → ℤ → List (Fin n) → Manager n
  | m, _, [] => m
  | m, cdf, cur :: walk =>
    let w := m core
    if cdf < w.weight then
      let delta := min (w.weight - cdf) (limit - (m cur).load)
      let m := update m core
        { w with cores := w.cores ++ [cur], dist := w.dist ++ [cdf + delta] }
      let v := m cur
      offloadLoop core limit (update m cur { v with load := v.load + delta }) (cdf + delta)
        walk
    else m

def offloadCore (m : Manager n) (core : Fin n) (limit : ℤ) : Manager n :=
  offloadLoop core limit m limit (walkCores m core limit)

/-- One round of the second loop, with `nr_prealloc`. It is `none` when the program is aborted. -/
def balanceCore (average : ℤ) (s : Manager n × ℕ) (core : Fin n) : Option (Manager n × ℕ) :=
  let w := s.1 core
  let m :=
    if average < w.weight then
      offloadCore (update s.1 core
        { w with dist := [average], cores := [core], load := average }) core average
    else update s.1 core { w with dist := [w.weight], cores := [core] }
  let nrPrealloc := s.2 + (m core).nrDist
  if kPrealloc < nrPrealloc then none else some (m, nrPrealloc)

def balance (m : Manager n) : Option (Manager n) :=
  let s := collect m
  ((List.finRange n).foldlM (balanceCore (average n s.2)) (s.1, 0)).map Prod.fst

end Felis.Locality
