import Felis.Foundations.Runs
import Felis.Foundations.Collections
import Felis.Shipping.Session
import Felis.Util.LinkList

/-!
# The scan of a slice

A `Slice` keeps the handles of its rows in intrusive lists: one shared list and one list for every
core. The `SliceScanner` of the slice has a cursor into these lists, which is set when the slice is
installed and moves on with every call of `GetNextHandle`. A session scans the slice with it and
adds the rows that are older than the session to the shipment. The lists are sorted by `born`, so
the rest of a list is left out from the first handle on that is not old.

The model has the `next` and `prev` pointers of the list heads and of the handles. A handle is
appended once. The session word advances by increments; which of them abort is the matter of
`Felis.Shipping.Session`.
-/

namespace Felis.Shipping.Scan

open Runs Util Option

/-- The lists of a slice: `shared_q` and `per_core_q[i]`. -/
inductive Queue
  | shared
  | core (i : ℕ)
  deriving DecidableEq

variable {H : Type}

/-- `current_q` and `current_node` of a scanner. -/
structure Cursor (H : Type) where
  q : Option Queue
  node : Option (Queue ⊕ H)
  deriving DecidableEq

structure State (H : Type) where
  session : ℕ
  links : Links (Queue ⊕ H)
  cursor : Cursor H
  /-- The queue of the shipment, its front first. -/
  shipment : List H
  /-- The calls of `Append`, in order, with the list that each one went to. -/
  appended : Queue → List H

/-- What does not change: the number of threads and the handles. -/
structure Config (H : Type) where
  nrThreads : ℕ
  handle : H → ShippingHandle

inductive Event (H : Type)
  /-- The core, unless the call is made from a shared routine or outside of the scheduler. -/
  | append (core : Option ℕ) (h : H)
  | advanceSession
  | scan (fuel : ℕ)
  | scanShippingHandle (fuel : ℕ)

/-- `SliceScanner::ResetCursor`, which is also what the constructor does. -/
def resetCursor (l : Links (Queue ⊕ H)) : Cursor H := ⟨some .shared, l.next (.inl .shared)⟩

/-- A slice and its scanner after `InstallRowSlice`; no handle is linked yet. -/
def install (session : ℕ) : State H :=
  let links : Links (Queue ⊕ H) := ⟨some, some⟩
  { session := session
    links := links
    cursor := resetCursor links
    shipment := []
    appended := fun _ => [] }

/-- The list that `Slice::Append` chooses; core 0 uses the shared one. -/
def appendQueue : Option ℕ → Queue
  | some (i + 1) => .core (i + 1)
  | _ => .shared

/-- `Slice::Append`, of a handle that is in no list. -/
def append [DecidableEq H] (cfg : Config H) (s : State H) (core : Option ℕ) (h : H) :
    Option (State H) :=
  let q := appendQueue core
  if (∀ i ∈ core, i < cfg.nrThreads) ∧ s.links.next (.inr h) = some (.inr h) then
    ((s.links.prev (.inl q)).bind (s.links.insertAfter (.inr h))).map fun links =>
      { s with links := links, appended := Function.update s.appended q (s.appended q ++ [h]) }
  else none

/-- The queue that `GetNextHandle` switches to. -/
def nextQueue (nrThreads : ℕ) : Queue → Option Queue
  | .shared => some (.core 0)
  | .core i =>
    if i = nrThreads - 1 then none
    else if i < nrThreads - 1 then some (.core (i + 1))
    else some (.core i)

/-- `SliceScanner::GetNextHandle`, with a bound on the rounds of the loop. -/
def getNextHandle (cfg : Config H) (s : State H) : ℕ → Cursor H → Option (Option H × Cursor H)
  | 0, _ => none
  | fuel + 1, c =>
    match c.q with
    | none => some (none, c)
    | some q =>
      let q' := nextQueue cfg.nrThreads q
      let next : Cursor H := ⟨q', q'.bind fun q' => s.links.next (.inl q')⟩
      match c.node with
      | none => none
      | some (.inl q'') => if q'' = q then getNextHandle cfg s fuel next else none
      | some (.inr h) =>
        if (cfg.handle h).checkSession s.session then
          some (some h, ⟨some q, s.links.next (.inr h)⟩)
        else getNextHandle cfg s fuel next

/-- The loop of `ObjectSliceScanner::Scan`: the handles found, with the newest first, and the cursor
at the end. -/
def scanFrom (cfg : Config H) (s : State H) : ℕ → Cursor H → List H → Option (List H × Cursor H)
  | 0, _, _ => none
  | fuel + 1, c, found =>
    match getNextHandle cfg s (fuel + 1) c with
    | none => none
    | some (none, c) => some (found, c)
    | some (some h, c) => scanFrom cfg s fuel c (h :: found)

/-- `ObjectSliceScanner::Scan` of a slice with a shipment. -/
def scan (cfg : Config H) (s : State H) (fuel : ℕ) : Option (State H) :=
  (scanFrom cfg s fuel s.cursor s.shipment).map fun r =>
    { s with shipment := r.1, cursor := r.2 }

/-- `ObjectSliceScanner::ScanShippingHandle`, which only counts what it finds. -/
def scanShippingHandle (cfg : Config H) (s : State H) (fuel : ℕ) : Option (State H) :=
  (scanFrom cfg s fuel (resetCursor s.links) []).map fun r => { s with cursor := r.2 }

def step [DecidableEq H] (cfg : Config H) (s : State H) : Event H → Option (State H)
  | .append core h => append cfg s core h
  | .advanceSession => some { s with session := s.session + 1 }
  | .scan fuel => scan cfg s fuel
  | .scanShippingHandle fuel => scanShippingHandle cfg s fuel

/-! ## The lists -/

/-- The lists hold what was appended to them. -/
structure Inv (cfg : Config H) (s : State H) : Prop where
  arena : Arena s.links s.appended [] none
  cores : ∀ i, cfg.nrThreads ≤ i → s.appended (.core i) = []

theorem inv_install (cfg : Config H) (session : ℕ) : Inv cfg (install session) where
  arena :=
    { rings := fun q => ⟨by simp [install, Links.Linked], by simp [install]⟩
      path := rfl
      nodup := List.nodup_nil
      rings_disjoint := by simp [install]
      chain_disjoint := by simp
      loose := by simp [install] }
  cores := by simp [install]

theorem inv_step [DecidableEq H] {cfg : Config H} (s : State H) (e : Event H) (t : State H)
    (h : Inv cfg s) (ht : step cfg s e = some t) : Inv cfg t := by
  cases e with
  | append core x =>
    rw [step, append] at ht
    split_ifs at ht with hcond
    obtain ⟨l, hl, rfl⟩ := map_eq_some_iff.1 ht
    obtain ⟨l', hl', ha⟩ := h.arena.append (h.arena.notMem_of_next_self hcond.2) (by simp)
      (appendQueue core)
    rw [hl] at hl'
    cases hl'
    refine ⟨ha, fun i hi => ?_⟩
    have hne : Queue.core i ≠ appendQueue core := by
      intro heq
      match core, heq with
      | some (j + 1), heq =>
        cases heq
        have := hcond.1 (j + 1) rfl
        omega
    simpa [hne] using h.cores i hi
  | advanceSession =>
    cases ht
    exact ⟨h.arena, h.cores⟩
  | scan fuel =>
    obtain ⟨r, -, rfl⟩ := map_eq_some_iff.1 ht
    exact ⟨h.arena, h.cores⟩
  | scanShippingHandle fuel =>
    obtain ⟨r, -, rfl⟩ := map_eq_some_iff.1 ht
    exact ⟨h.arena, h.cores⟩

/-! ## The cursor -/

/-- The queues that are scanned after a queue. -/
def later (nrThreads : ℕ) : Queue → List Queue
  | .shared => (List.range nrThreads).map .core
  | .core i => (List.range' (i + 1) (nrThreads - (i + 1))).map .core

/-- A list of the slice. -/
def Queue.Valid (nrThreads : ℕ) : Queue → Prop
  | .shared => True
  | .core i => i < nrThreads

theorem later_of_nextQueue {nrThreads : ℕ} (hnr : 0 < nrThreads) {q : Queue}
    (hq : q.Valid nrThreads) :
    match nextQueue nrThreads q with
    | none => later nrThreads q = []
    | some q' => later nrThreads q = q' :: later nrThreads q' ∧ q'.Valid nrThreads := by
  match q, hq with
  | .shared, _ =>
    obtain ⟨n, rfl⟩ := Nat.exists_eq_add_of_lt hnr
    refine ⟨?_, hnr⟩
    simp [later, List.range_eq_range', List.range'_succ]
  | .core i, hi =>
    have hi : i < nrThreads := hi
    dsimp only [nextQueue]
    split_ifs with hlast hlt
    · have hzero : nrThreads - (i + 1) = 0 := by omega
      simp [later, hzero]
    · have hsucc : nrThreads - (i + 1) = nrThreads - (i + 1 + 1) + 1 := by omega
      have hlt : i + 1 < nrThreads := by omega
      refine ⟨?_, hlt⟩
      simp [later, hsucc, List.range'_succ]
    · omega

section

variable (cfg : Config H) (s : State H)

/-- The handles that are still to be found from a place in a queue on. -/
def todo (q : Queue) (rest : List H) : List H :=
  let old := fun h => (cfg.handle h).checkSession s.session
  rest.takeWhile old ++ (later cfg.nrThreads q).flatMap fun q => (s.appended q).takeWhile old

/-- The cursor is in front of the handles `rest` of the queue. -/
structure At (c : Cursor H) (q : Queue) (rest : List H) : Prop where
  valid : q.Valid cfg.nrThreads
  queue : c.q = some q
  node : c.node = (rest.map Sum.inr ++ [Sum.inl q]).head?
  suffix : ∃ before, s.appended q = before ++ rest

variable {cfg s}

theorem Inv.next_head (h : Inv cfg s) (q : Queue) :
    s.links.next (.inl q) = ((s.appended q).map Sum.inr ++ [Sum.inl q]).head? :=
  (h.arena.rings q).next_head

theorem Inv.next_handle (h : Inv cfg s) {q : Queue} {before rest : List H} {x : H}
    (hq : s.appended q = before ++ x :: rest) :
    s.links.next (.inr x) = (rest.map Sum.inr ++ [Sum.inl q]).head? := by
  have hr : Ring s.links (.inl q) (before.map .inr ++ .inr x :: rest.map .inr) := by
    simpa [hq] using h.arena.rings q
  exact hr.next_eq

/-- What `GetNextHandle` returns from a place in a queue, given enough rounds: the next old handle,
with the cursor behind it, or nothing when all the queues have been looked through. -/
theorem getNextHandle_of_at (h : Inv cfg s) (hnr : 0 < cfg.nrThreads) {fuel : ℕ} {c : Cursor H}
    {q : Queue} {rest : List H} (hat : At cfg s c q rest)
    (hfuel : (later cfg.nrThreads q).length + 1 < fuel) :
    match todo cfg s q rest with
    | [] => getNextHandle cfg s fuel c = some (none, ⟨none, none⟩)
    | x :: xs => ∃ c' q' rest', getNextHandle cfg s fuel c = some (some x, c') ∧
        At cfg s c' q' rest' ∧ todo cfg s q' rest' = xs := by
  induction fuel generalizing c q rest with
  | zero => omega
  | succ fuel ih =>
    obtain ⟨hvalid, hcq, hnode, before, hsuffix⟩ := hat
    -- The rest of the queue is left out, and the search goes on in the next one.
    have hadvance : rest.takeWhile (fun h => (cfg.handle h).checkSession s.session) = [] →
        getNextHandle cfg s (fuel + 1) c = getNextHandle cfg s fuel
          ⟨nextQueue cfg.nrThreads q, (nextQueue cfg.nrThreads q).bind fun q' =>
            s.links.next (.inl q')⟩ →
        match todo cfg s q rest with
        | [] => getNextHandle cfg s (fuel + 1) c = some (none, ⟨none, none⟩)
        | x :: xs => ∃ c' q' rest', getNextHandle cfg s (fuel + 1) c = some (some x, c') ∧
            At cfg s c' q' rest' ∧ todo cfg s q' rest' = xs := by
      intro hnil hget
      rw [hget]
      have hlater := later_of_nextQueue hnr hvalid
      cases hnext : nextQueue cfg.nrThreads q with
      | none =>
        rw [hnext] at hlater
        obtain ⟨fuel, rfl⟩ : ∃ n, fuel = n + 1 := ⟨fuel - 1, by omega⟩
        simp [todo, hnil, hlater, getNextHandle]
      | some q' =>
        rw [hnext] at hlater
        have htodo : todo cfg s q rest = todo cfg s q' (s.appended q') := by
          simp [todo, hnil, hlater.1]
        rw [htodo]
        refine ih ⟨hlater.2, rfl, h.next_head q', [], rfl⟩ ?_
        rw [hlater.1, List.length_cons] at hfuel
        omega
    cases rest with
    | nil =>
      apply hadvance rfl
      rw [getNextHandle, hcq, hnode]
      simp
    | cons x rest =>
      by_cases hold : (cfg.handle x).checkSession s.session = true
      · have htodo : todo cfg s q (x :: rest) = x :: todo cfg s q rest := by
          simp [todo, hold]
        rw [htodo]
        refine ⟨⟨some q, s.links.next (.inr x)⟩, q, rest, ?_, ⟨hvalid, rfl, ?_, before ++ [x], ?_⟩,
          rfl⟩
        · rw [getNextHandle, hcq, hnode]
          simp [hold]
        · exact h.next_handle hsuffix
        · simpa using hsuffix
      · apply hadvance (by simp [hold])
        rw [getNextHandle, hcq, hnode]
        simp [hold]

theorem length_later_le (nrThreads : ℕ) (q : Queue) :
    (later nrThreads q).length ≤ nrThreads := by
  cases q <;> simp [later]

/-- The scan adds all that is to be found, given enough rounds. -/
theorem scanFrom_of_at (h : Inv cfg s) (hnr : 0 < cfg.nrThreads) {fuel : ℕ} {c : Cursor H}
    {q : Queue} {rest xs found : List H} (hat : At cfg s c q rest) (htodo : todo cfg s q rest = xs)
    (hfuel : xs.length + cfg.nrThreads + 2 ≤ fuel) :
    scanFrom cfg s fuel c found = some (xs.reverse ++ found, ⟨none, none⟩) := by
  induction xs generalizing fuel c q rest found with
  | nil =>
    obtain ⟨fuel, rfl⟩ : ∃ n, fuel = n + 1 := ⟨fuel - 1, by omega⟩
    have hlt : (later cfg.nrThreads q).length + 1 < fuel + 1 := by
      have := length_later_le cfg.nrThreads q
      omega
    have hget := getNextHandle_of_at h hnr hat hlt
    rw [htodo] at hget
    rw [scanFrom, hget]
    rfl
  | cons x xs ih =>
    obtain ⟨fuel, rfl⟩ : ∃ n, fuel = n + 1 := ⟨fuel - 1, by omega⟩
    have hlt : (later cfg.nrThreads q).length + 1 < fuel + 1 := by
      have := length_later_le cfg.nrThreads q
      omega
    have hget := getNextHandle_of_at h hnr hat hlt
    rw [htodo] at hget
    obtain ⟨c', q', rest', hget, hat', htodo'⟩ := hget
    rw [List.length_cons] at hfuel
    rw [scanFrom, hget]
    dsimp only
    rw [ih hat' htodo' (by omega)]
    simp

end

/-! ## Old rows -/

/-- All the lists of a slice, in the order of the scan. -/
def queues (nrThreads : ℕ) : List Queue := .shared :: later nrThreads .shared

theorem mem_queues {nrThreads : ℕ} {q : Queue} : q ∈ queues nrThreads ↔ q.Valid nrThreads := by
  cases q <;> simp [queues, later, Queue.Valid]

theorem nodup_queues (nrThreads : ℕ) : (queues nrThreads).Nodup := by
  simp only [queues, later, List.nodup_cons, List.mem_map, reduceCtorEq, and_false, exists_false,
    not_false_eq_true, true_and]
  exact List.nodup_range.map fun i j hij => by simpa using hij

variable {cfg : Config H} {s : State H}

theorem Inv.valid (h : Inv cfg s) {q : Queue} {x : H} (hx : x ∈ s.appended q) :
    q.Valid cfg.nrThreads := by
  cases q with
  | shared => trivial
  | core i =>
    by_contra hi
    simp [h.cores i (not_lt.1 hi)] at hx

theorem Inv.nodup_old (h : Inv cfg s) (old : H → Bool) :
    ((queues cfg.nrThreads).flatMap fun q => (s.appended q).filter old).Nodup := by
  rw [List.nodup_flatMap]
  refine ⟨fun q _ => ?_, (nodup_queues _).imp fun {q q'} hne => ?_⟩
  · have hnd := (List.nodup_cons.1 (h.arena.rings q).nodup).2
    exact (List.Nodup.of_map _ hnd).filter old
  · intro x hx hx'
    exact h.arena.rings_disjoint q q' hne x (List.mem_of_mem_filter hx) (List.mem_of_mem_filter hx')

/-- **A scan finds all old rows.** When the cursor is where `ResetCursor` puts it and every list is
sorted by `born`, the scan adds each handle of the slice that is older than the session once, and no
other one. -/
theorem scan_finds_old [DecidableEq H] (cfg : Config H) (hnr : 0 < cfg.nrThreads) (session : ℕ)
    (es : List (Event H)) (s : State H) (hrun : run (step cfg) (install session) es = some s)
    (hsorted : ∀ q, (s.appended q).Pairwise fun x y => (cfg.handle x).born ≤ (cfg.handle y).born)
    (hcursor : s.cursor = resetCursor s.links) :
    ∃ (n : ℕ) (t : State H) (found : List H), (∀ fuel ≥ n, scan cfg s fuel = some t) ∧
      t.shipment = found.reverse ++ s.shipment ∧ found.Nodup ∧ ∀ x, x ∈ found ↔
      (∃ q, x ∈ s.appended q) ∧
        (cfg.handle x).born < timestamp s.session := by
  have h : Inv cfg s := run_induction inv_step (inv_install cfg session) hrun
  let old := fun x => (cfg.handle x).checkSession s.session
  have hat : At cfg s s.cursor .shared (s.appended .shared) := by
    rw [hcursor]
    exact ⟨trivial, rfl, h.next_head .shared, [], rfl⟩
  have hfilter : ∀ q, (s.appended q).takeWhile old = (s.appended q).filter old := by
    intro q
    refine Scans.takeWhile_eq_filter ((hsorted q).imp fun {x y} hle hy => ?_)
    simp only [old, ShippingHandle.checkSession, decide_eq_true_eq] at hy ⊢
    omega
  have htodo : todo cfg s .shared (s.appended .shared) =
      (queues cfg.nrThreads).flatMap fun q => (s.appended q).filter old := by
    simp [todo, queues, hfilter, old]
  generalize hfound : ((queues cfg.nrThreads).flatMap fun q => (s.appended q).filter old) = found
    at htodo
  refine ⟨found.length + cfg.nrThreads + 2,
    { s with shipment := found.reverse ++ s.shipment, cursor := ⟨none, none⟩ }, found,
    fun fuel hfuel => ?_, rfl, hfound ▸ h.nodup_old old, fun x => ?_⟩
  · rw [scan, scanFrom_of_at h hnr hat htodo hfuel]
    rfl
  · rw [← hfound]
    simp only [List.mem_flatMap, List.mem_filter, old, ShippingHandle.checkSession,
      decide_eq_true_eq]
    constructor
    · rintro ⟨q, -, hx, hborn⟩
      exact ⟨⟨q, hx⟩, hborn⟩
    · rintro ⟨⟨q, hx⟩, hborn⟩
      exact ⟨q, mem_queues.2 (h.valid hx), hx, hborn⟩

/-- All handles but `none` are older than session 4. -/
def threeThreads : Config (Option Bool) := ⟨3, fun h => .new (h.elim 4 fun _ => 3)⟩

def perCoreRun : List (Event (Option Bool)) :=
  [.append (some 1) (some false), .append (some 2) (some true), .advanceSession,
    .append (some 1) none]

theorem scan_finds_old_perCoreRun : ∃ s n t,
    run (step threeThreads) (install 3) perCoreRun = some s ∧
    s.appended (.core 1) = [some false, none] ∧ scan threeThreads s n = some t ∧
    t.shipment.Nodup ∧ ∀ x, x ∈ t.shipment ↔ x ≠ none := by
  obtain ⟨s, hs, happ, hall, hborn, hship, hsession, hcursor⟩ : ∃ s, run (step threeThreads)
      (install 3) perCoreRun = some s ∧ s.appended (.core 1) = [some false, none] ∧
      (∀ x, ∃ q ∈ queues 3, x ∈ s.appended q) ∧ (∀ q ∈ queues 3, (s.appended q).Pairwise fun x y =>
        (threeThreads.handle x).born ≤ (threeThreads.handle y).born) ∧ s.shipment = [] ∧
      s.session = 4 ∧ s.cursor = resetCursor s.links := by decide +kernel
  have hinv := run_induction inv_step (inv_install threeThreads 3) hs
  have hsorted : ∀ q, (s.appended q).Pairwise fun x y =>
      (threeThreads.handle x).born ≤ (threeThreads.handle y).born := by
    intro q
    by_cases hq : q ∈ queues 3
    · exact hborn q hq
    · have hnil : s.appended q = [] :=
        List.eq_nil_iff_forall_not_mem.2 fun x hx => hq (mem_queues.2 (hinv.valid hx))
      rw [hnil]
      exact .nil
  obtain ⟨n, t, found, hscan, ht, hnodup, hmem⟩ :=
    scan_finds_old threeThreads (by decide) 3 perCoreRun s hs hsorted hcursor
  rw [hship, List.append_nil] at ht
  refine ⟨s, n, t, hs, happ, hscan n le_rfl, by simpa [ht] using hnodup, fun x => ?_⟩
  have hold : (threeThreads.handle x).born < timestamp 4 ↔ x ≠ none := by
    revert x
    decide
  have hx : ∃ q, x ∈ s.appended q := (hall x).imp fun q h => h.2
  rw [ht, List.mem_reverse, hmem, hsession, hold, and_iff_right hx]

def twoThreads : Config Unit := ⟨2, fun _ => .new 3⟩

/-- The row is appended by a shared routine and the first session begins. -/
def sharedRun : List (Event Unit) := [.append none (), .advanceSession]

/-- The cursor was set when the shared list was empty, so it is taken for the end of the list, and
the row is not found. -/
theorem missed_sharedRun : ∃ s t, run (step twoThreads) (install 3) sharedRun = some s ∧
    s.appended .shared = [()] ∧ (twoThreads.handle ()).born < timestamp s.session ∧
    scan twoThreads s 10 = some t ∧ t.shipment = [] := by
  obtain ⟨s, hs, happ, hborn, t, ht, hship⟩ : ∃ s, run (step twoThreads) (install 3) sharedRun =
      some s ∧ s.appended .shared = [()] ∧ (twoThreads.handle ()).born < timestamp s.session ∧ ∃ t
      ∈ scan twoThreads s 10, t.shipment = [] := by decide +kernel
  exact ⟨s, t, hs, happ, hborn, ht, hship⟩

end Felis.Shipping.Scan
