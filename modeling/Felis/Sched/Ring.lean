import Felis.Sched.DispatchOrder

/-!
# The ring over long runs

`Add` and `ProcessPending` on batches that are for the ring and fit into its free space. Such an
`Add` does not go back to `again`, so that the ring is a queue: what has been added is handed over
in order, and a call of `ProcessPending` hands over everything, when the priority queue has the
memory for it (`ring_fifo`).

The counters of the ring are never reset. When the end wraps around after `2 ^ 32` routines and the
beginning has not yet done so, the length that `ProcessPending` computes in 64 bits is more than
`2 ^ 63`, and it hands over the slots of the ring again until the memory is used up (`ring_wraps`).
-/

namespace Felis.Sched.Dispatch

open Cells Runs List Option

variable {maxItem : ℕ} {s t : State}

/-- The batches are for the ring and fit into its free space. -/
def FitsRing (maxItem : ℕ) (s : State) : Event → Prop
  | .add batch => (∀ r ∈ batch, r.isZero = false) ∧
      s.pending.stop + batch.length ≤ s.pending.start + maxItem
  | _ => True

/-- The end of the ring does not wrap around when the batch is published. -/
def EndFits (s : State) : Event → Prop
  | .add batch => s.pending.stop + batch.length < 2 ^ 32
  | _ => True

instance (maxItem : ℕ) (s : State) (e : Event) : Decidable (FitsRing maxItem s e) := by
  unfold FitsRing
  split <;> infer_instance

instance (s : State) (e : Event) : Decidable (EndFits s e) := by
  unfold EndFits
  split <;> infer_instance

/-! ## The invariant -/

/-- The rest of the batch has room in the ring, and below the end of the counter. -/
def Adding.Roomy (maxItem : ℕ) (s : State) : Adding → Prop
  | .again todo => (∀ r ∈ todo, r.isZero = false) ∧
      s.pending.stop + todo.length ≤ s.pending.start + maxItem ∧
      s.pending.stop + todo.length < 2 ^ 32
  | .loop todo _ _ _ pdelta plimit => (∀ r ∈ todo, r.isZero = false) ∧
      pdelta + todo.length ≤ plimit ∧ s.pending.stop + (pdelta + todo.length) < 2 ^ 32
  | .publishZero _ pdelta => s.pending.stop + pdelta < 2 ^ 32
  | .publishPending pdelta => s.pending.stop + pdelta < 2 ^ 32
  | .unlock => True

structure RingInv (maxItem : ℕ) (s : State) : Prop where
  inv : Inv maxItem s
  roomy : ∀ a ∈ s.adding, a.Roomy maxItem s
  keyed : State.keyed s.added = s.added

/-- An `Add` with room does not go back to `again`. -/
theorem RingInv.published (h : RingInv maxItem s) (e : Event) : Published s e := by
  cases e with
  | adder =>
    rw [Published]
    cases ha : s.adding with
    | none => trivial
    | some a =>
      have hroomy := h.roomy a ha
      cases a with
      | loop todo zend zdelta pend pdelta plimit =>
        cases todo with
        | nil => trivial
        | cons r todo =>
          intro _ hfull
          have := hroomy.2.1
          rw [length_cons] at this
          omega
      | publishPending pdelta => exact hroomy
      | again todo => trivial
      | publishZero zdelta pdelta => trivial
      | unlock => trivial
  | add batch => trivial
  | processor => trivial
  | consume key => trivial
  | reset => trivial

theorem RingInv.addStep (h : RingInv maxItem s) (hmax : maxItem < 2 ^ 64) {a : Adding}
    (ha : s.adding = some a) (ht : s.addStep maxItem a = some t) :
    ∀ b ∈ t.adding, b.Roomy maxItem t := by
  have hroomy := h.roomy a ha
  have hstart := h.inv.start_le
  have hstop := h.inv.stop_lt
  cases a with
  | again todo =>
    obtain ⟨hkeyed, hroom, hend⟩ := hroomy
    have hlen : sub64 maxItem (sub64 s.pending.stop s.pending.start) =
        maxItem - (s.pending.stop - s.pending.start) := by
      rw [h.inv.sub64_pending, sub64_eq (by omega)]
      exact Nat.mod_eq_of_lt (by omega)
    cases ht
    rintro b ⟨⟩
    refine ⟨hkeyed, ?_, ?_⟩
    · omega
    · rwa [Nat.zero_add]
  | loop todo zend zdelta pend pdelta plimit =>
    obtain ⟨hkeyed, hlimit, hend⟩ := hroomy
    cases todo with
    | nil =>
      cases ht
      rintro b ⟨⟩
      exact hend
    | cons r todo =>
      have hr := hkeyed r (mem_cons_self ..)
      rw [length_cons] at hlimit hend
      rw [State.addStep, if_neg (by simp [hr]), if_neg (by omega)] at ht
      cases ht
      rintro b ⟨⟩
      refine ⟨fun r' hr' => hkeyed r' (mem_cons_of_mem r hr'), ?_, ?_⟩
      · omega
      · dsimp only
        omega
  | publishZero zdelta pdelta =>
    cases ht
    rintro b ⟨⟩
    exact hroomy
  | publishPending pdelta =>
    cases ht
    rintro b ⟨⟩
    trivial
  | unlock =>
    cases ht
    rintro b ⟨⟩

/-- What `ProcessPending` changes: the beginning moves on. -/
theorem Inv.processStep_frame (h : Inv maxItem s)
    (ht : s.processStep maxItem s.processing = some t) :
    t.adding = s.adding ∧ t.added = s.added ∧ t.pending.stop = s.pending.stop ∧
      s.pending.start ≤ t.pending.start := by
  have hfits := h.processing
  have hstop := h.stop_lt
  cases hp : s.processing with
  | idle | readEnd pstart =>
    rw [hp] at ht
    cases ht
    exact ⟨rfl, rfl, rfl, le_rfl⟩
  | loop pstart i plen =>
    rw [hp, State.processStep] at ht
    split_ifs at ht
    · obtain ⟨u, hu, rfl⟩ := map_eq_some_iff.1 ht
      obtain ⟨-, rfl⟩ := addToPriorityQueue_eq_some hu
      exact ⟨rfl, rfl, rfl, le_rfl⟩
    · cases ht
      exact ⟨rfl, rfl, rfl, le_rfl⟩
  | publish plen =>
    rw [hp] at hfits ht
    cases ht
    change s.pending.start + plen ≤ s.pending.stop at hfits
    refine ⟨rfl, rfl, rfl, ?_⟩
    change s.pending.start ≤ (s.pending.start + plen) % 2 ^ 32
    rw [Nat.mod_eq_of_lt (by omega)]
    exact Nat.le_add_right _ _

/-- Room in the ring is only taken by `Add` itself. -/
theorem Adding.Roomy.mono {a : Adding} (h : a.Roomy maxItem s)
    (hstop : t.pending.stop = s.pending.stop) (hstart : s.pending.start ≤ t.pending.start) :
    a.Roomy maxItem t := by
  cases a with
  | again todo =>
    obtain ⟨hkeyed, hroom, hend⟩ := h
    exact ⟨hkeyed, by omega, by omega⟩
  | loop todo zend zdelta pend pdelta plimit =>
    obtain ⟨hkeyed, hlimit, hend⟩ := h
    exact ⟨hkeyed, hlimit, by omega⟩
  | publishZero zdelta pdelta =>
    change t.pending.stop + pdelta < 2 ^ 32
    rwa [hstop]
  | publishPending pdelta =>
    change t.pending.stop + pdelta < 2 ^ 32
    rwa [hstop]
  | unlock => trivial

theorem added_of_addStep {a : Adding} (ht : s.addStep maxItem a = some t) : t.added = s.added := by
  cases a with
  | loop todo zend zdelta pend pdelta plimit =>
    cases todo with
    | nil =>
      cases ht
      rfl
    | cons r todo =>
      rw [State.addStep] at ht
      split_ifs at ht <;> cases ht <;> rfl
  | again todo =>
    cases ht
    rfl
  | publishZero zdelta pdelta =>
    cases ht
    rfl
  | publishPending pdelta =>
    cases ht
    rfl
  | unlock =>
    cases ht
    rfl

theorem RingInv.step (h : RingInv maxItem s) (hmax : maxItem < 2 ^ 64) {e : Event}
    (hok : FitsRing maxItem s e ∧ EndFits s e) (ht : s.step maxItem e = some t) :
    RingInv maxItem t := by
  have hinv := h.inv.step (h.published e) ht
  cases e with
  | add batch =>
    obtain ⟨⟨hkeyed, hroom⟩, hend⟩ := hok
    rw [State.step] at ht
    split_ifs at ht with ha
    cases ht
    refine ⟨hinv, ?_, ?_⟩
    · rintro b ⟨⟩
      exact ⟨hkeyed, hroom, hend⟩
    · have hbatch : State.keyed batch = batch :=
        filter_eq_self.2 fun r hr => by simp [hkeyed r hr]
      change State.keyed (s.added ++ batch) = s.added ++ batch
      rw [keyed_append, h.keyed, hbatch]
  | adder =>
    obtain ⟨a, ha, ht⟩ := bind_eq_some_iff.1 ht
    refine ⟨hinv, h.addStep hmax ha ht, ?_⟩
    rw [added_of_addStep ht, h.keyed]
  | processor =>
    obtain ⟨hadding, hadded, hstop, hstart⟩ := h.inv.processStep_frame ht
    refine ⟨hinv, fun a ha => ?_, ?_⟩
    · rw [hadding] at ha
      exact (h.roomy a ha).mono hstop hstart
    · rw [hadded, h.keyed]
  | consume key =>
    rw [State.step] at ht
    split_ifs at ht
    cases ht
    exact ⟨hinv, h.roomy, h.keyed⟩
  | reset =>
    rw [State.step] at ht
    split_ifs at ht with ha
    cases ht
    refine ⟨hinv, fun a ha' => ?_, h.keyed⟩
    rw [ha] at ha'
    cases ha'

theorem ringInv_init (zq pending : ℕ → RoutineRef) : RingInv maxItem (State.init zq pending) :=
  ⟨inv_init zq pending, fun _ h => (nomatch h), rfl⟩

/-! ## A whole call of `ProcessPending` -/

/-- The memory that the routines take in the priority queue. -/
def need : List ℕ → List RoutineRef → ℕ
  | _, [] => 0
  | entries, r :: rs => State.cost entries r + need (entries.insert r.schedKey) rs

variable (maxItem) in
/-- The rest of the loop, and the end of the call. -/
theorem run_processing {pstart plen : ℕ} (k i : ℕ) (hi : i + k = plen)
    (hp : s.processing = .loop pstart i plen)
    (hroom : s.brk + need s.entries (ringSeg maxItem s.pending.q (pstart + i) k) ≤
      State.brkLimit maxItem) :
    ∃ t, run (State.step maxItem) s (List.replicate (k + 2) .processor) = some t ∧
      t.processing = .idle ∧ t.adding = s.adding ∧ t.added = s.added ∧
      t.pending.stop = s.pending.stop ∧ t.pending.start = (s.pending.start + plen) % 2 ^ 32 := by
  induction k generalizing s i with
  | zero =>
    obtain rfl : i = plen := hi
    refine ⟨{ s with
      pending := { s.pending with start := (s.pending.start + i) % 2 ^ 32 }
      processing := .idle }, ?_, rfl, rfl, rfl, rfl, rfl⟩
    rw [replicate_succ, replicate_one, run, State.step, hp, State.processStep, if_neg (lt_irrefl i)]
    rfl
  | succ k ih =>
    rw [ringSeg_cons, need, ← Nat.add_assoc] at hroom
    generalize hr : s.pending.q ((pstart + i) % maxItem) = r at hroom
    have hstep : s.step maxItem .processor = some { s with
        brk := s.brk + State.cost s.entries r
        entries := s.entries.insert r.schedKey
        handed := s.handed ++ [r]
        processing := .loop pstart (i + 1) plen } := by
      rw [State.step, hp, State.processStep, if_pos (by omega), hr, State.addToPriorityQueue,
        if_neg (by omega)]
      rfl
    obtain ⟨t, ht, hidle, hadding, hadded, hstop, hstart⟩ := ih (i + 1) (by omega)
      (s := { s with
        brk := s.brk + State.cost s.entries r
        entries := s.entries.insert r.schedKey
        handed := s.handed ++ [r]
        processing := .loop pstart (i + 1) plen }) rfl hroom
    refine ⟨t, ?_, hidle, hadding, hadded, hstop, hstart⟩
    rw [show k + 1 + 2 = (k + 2) + 1 from rfl, replicate_succ]
    exact (run_cons _).2 ⟨_, hstep, ht⟩

/-- The priority queue has the memory for what is in the ring. -/
def RoomForPending (maxItem : ℕ) (s : State) : Prop :=
  s.brk + need s.entries (s.waiting maxItem) ≤ State.brkLimit maxItem

/-- A call of `ProcessPending` that is not interrupted empties the ring. -/
theorem Inv.run_processPending (h : Inv maxItem s) (hp : s.processing = .idle)
    (hroom : RoomForPending maxItem s) :
    ∃ t, run (State.step maxItem) s
        (List.replicate (s.pending.stop - s.pending.start + 4) .processor) = some t ∧
      t.processing = .idle ∧ t.adding = s.adding ∧ t.added = s.added ∧
      t.pending.start = t.pending.stop := by
  have hstart := h.start_le
  have hstop := h.stop_lt
  rw [RoomForPending, State.waiting, State.front, hp] at hroom
  obtain ⟨t, ht, hidle, hadding, hadded, hend, hbegin⟩ := run_processing maxItem
    (s := { s with processing := .loop s.pending.start 0 (s.pending.stop - s.pending.start) })
    (s.pending.stop - s.pending.start) 0 (Nat.zero_add _) rfl hroom
  refine ⟨t, ?_, hidle, hadding, hadded, ?_⟩
  · rw [replicate_succ, replicate_succ, run, State.step, hp, State.processStep,
      bind_some, run, State.step, State.processStep, h.sub64_pending, bind_some]
    exact ht
  · rw [hbegin, hend]
    dsimp only
    rw [Nat.add_sub_cancel' hstart]
    exact Nat.mod_eq_of_lt hstop

/-! ## First in, first out -/

/-- What has been handed over is what was added first. While no `Add` holds the lock the rest is in
the ring, and a call of `ProcessPending` with memory for it hands over all of it. -/
structure Fifo (maxItem : ℕ) (s : State) : Prop where
  handed : s.handed <+: s.added
  pending : s.adding = none → s.handed ++ s.waiting maxItem = s.added
  processPending : s.adding = none → s.processing = .idle → RoomForPending maxItem s →
    ∃ t, run (State.step maxItem) s
        (List.replicate (s.pending.stop - s.pending.start + 4) .processor) = some t ∧
      t.processing = .idle ∧ t.added = s.added ∧ t.handed = s.added

theorem RingInv.fifo (h : RingInv maxItem s) : Fifo maxItem s := by
  have hdelivered := h.inv.delivered
  refine ⟨?_, fun ha => ?_, fun ha hp hroom => ?_⟩
  · have := hdelivered.handed
    rwa [h.keyed] at this
  · have := hdelivered.handed_all ha
    rwa [h.keyed] at this
  · obtain ⟨t, ht, hidle, hadding, hadded, hempty⟩ := h.inv.run_processPending hp hroom
    have hinv : Inv maxItem t := by
      refine run_invariant ?_ _ s t h.inv
        (along_of_forall _ _ fun e he => eq_of_mem_replicate he) ht
      intro s e u hs he hu
      cases he
      have hpub : Published s .processor := trivial
      exact hs.step hpub hu
    refine ⟨t, ht, hidle, hadded, ?_⟩
    have hall := hinv.delivered.handed_all (hadding.trans ha)
    have hwaiting : t.waiting maxItem = [] := by
      simp only [State.waiting, State.front, hidle, Processing.taken, hempty, Nat.add_zero,
        Nat.sub_self]
      rfl
    rw [hwaiting, append_nil, hadded, h.keyed] at hall
    exact hall

/-- **The ring is a queue.** In every run whose batches are for the ring, fit into its free space
and do not let the end wrap around, the routines are handed over in the order in which they are
added, and a call of `ProcessPending` with memory for them hands over all of them. -/
theorem ring_fifo (maxItem : ℕ) (hmax : maxItem < 2 ^ 64) (zq pending : ℕ → RoutineRef)
    (evs : List Event) (s : State)
    (hok : Along (State.step maxItem) (fun s e => FitsRing maxItem s e ∧ EndFits s e)
      (State.init zq pending) evs)
    (hrun : run (State.step maxItem) (State.init zq pending) evs = some s) : Fifo maxItem s := by
  have h : RingInv maxItem s := run_invariant (fun _ _ _ h hok ht => h.step hmax hok ht) evs _ s
    (ringInv_init zq pending) hok hrun
  exact h.fifo

def twoBatches : List Event :=
  [.add [routine 1, routine 2]] ++ List.replicate 7 .adder ++ List.replicate 6 .processor ++
    [.add [routine 3]] ++ List.replicate 6 .adder

theorem ring_fifo_twoBatches :
    ∃ s, run (State.step 4) emptyQueues twoBatches = some s ∧ s.adding = none ∧
      s.processing = .idle ∧ s.handed = [routine 1, routine 2] ∧ s.waiting 4 = [routine 3] ∧
      Fifo 4 s := by
  obtain ⟨s, hs, hadd, hproc, hhanded, hwait⟩ : ∃ s, run (State.step 4) emptyQueues twoBatches =
      some s ∧ s.adding = none ∧ s.processing = .idle ∧ s.handed = [routine 1, routine 2] ∧
      s.waiting 4 = [routine 3] := by decide +kernel
  exact ⟨s, hs, hadd, hproc, hhanded, hwait,
    ring_fifo 4 (by decide) _ _ twoBatches s (by decide +kernel) hs⟩

/-! ## The end wraps around -/

/-- A ring of three slots after `k` rounds, each of which adds one routine, hands it over, consumes
it and ends the epoch. -/
def afterRounds (k : ℕ) : State where
  zq := ⟨fun _ => routine 0, 0, 0⟩
  pending := ⟨fun _ => routine 1, k, k⟩
  brk := 0
  entries := []
  adding := none
  processing := .idle
  added := List.replicate k (routine 1)
  zeros := []
  handed := List.replicate k (routine 1)

def addOne : List Event := .add [routine 1] :: List.replicate 6 .adder

def round : List Event := addOne ++ (List.replicate 5 .processor ++ [.consume 1, .reset])

def rounds : ℕ → List Event
  | 0 => []
  | k + 1 => rounds k ++ round

def afterAdd (k : ℕ) : State :=
  { afterRounds k with
    pending := ⟨fun _ => routine 1, k, (k + 1) % 2 ^ 32⟩
    added := List.replicate k (routine 1) ++ [routine 1] }

theorem sub64_self (k : ℕ) : sub64 k k = 0 := by rw [sub64_eq le_rfl, Nat.sub_self, Nat.zero_mod]

theorem run_addOne (k : ℕ) : run (State.step 3) (afterRounds k) addOne = some (afterAdd k) := by
  have hlimit : sub64 3 0 = 3 := rfl
  simp [addOne, run, State.step, State.addStep, afterRounds, afterAdd, sub64_self, hlimit,
    RoutineRef.isZero, routine]

theorem run_round (k : ℕ) (hk : k + 1 < 2 ^ 32) :
    run (State.step 3) (afterRounds k) round = some (afterRounds (k + 1)) := by
  have hsub : sub64 (k + 1) k = 1 := by
    rw [sub64_eq (by omega)]
    omega
  have hmod : (k + 1) % 4294967296 = k + 1 := Nat.mod_eq_of_lt hk
  refine (run_append _).2 ⟨_, run_addOne k, ?_⟩
  rw [afterAdd, Nat.mod_eq_of_lt hk]
  simp [run, State.step, State.processStep, State.addToPriorityQueue, State.cost, State.brkLimit,
    afterRounds, routine, hsub, hmod, replicate_succ']

theorem run_rounds (k : ℕ) (hk : k < 2 ^ 32) :
    run (State.step 3) (afterRounds 0) (rounds k) = some (afterRounds k) := by
  induction k with
  | zero => rfl
  | succ k ih => exact (run_append _).2 ⟨_, ih (by omega), run_round k hk⟩

theorem along_addOne (k : ℕ) : Along (State.step 3) (FitsRing 3) (afterRounds k) addOne := by
  refine ⟨⟨fun r hr => ?_, ?_⟩, fun t _ => along_of_all _ t fun e he s => ?_⟩
  · rw [mem_singleton.1 hr]
    rfl
  · change k + 1 ≤ k + 3
    omega
  · rw [eq_of_mem_replicate he]
    trivial

theorem along_processor (k : ℕ) (s : State) :
    Along (State.step 3) (FitsRing 3) s (List.replicate k .processor) := by
  refine along_of_all _ s fun e he s => ?_
  rw [eq_of_mem_replicate he]
  trivial

theorem along_rounds (k : ℕ) (hk : k < 2 ^ 32) :
    Along (State.step 3) (FitsRing 3) (afterRounds 0) (rounds k) := by
  induction k with
  | zero => trivial
  | succ k ih =>
    refine (along_append _).2 ⟨ih (by omega), fun t ht => ?_⟩
    rw [run_rounds k (by omega)] at ht
    obtain rfl := some.inj ht
    refine (along_append _).2 ⟨along_addOne k, fun t _ => (along_append _).2
      ⟨along_processor 5 t, fun t _ => ?_⟩⟩
    exact ⟨trivial, fun _ _ => ⟨trivial, fun _ _ => trivial⟩⟩

/-- The end wraps around to 0, and the beginning is before it. -/
theorem run_wrapped (k : ℕ) (hk : k + 1 = 2 ^ 32) :
    run (State.step 3) (afterAdd k) (List.replicate 4 .processor) = some { afterAdd k with
        brk := 192
        entries := [1]
        handed := List.replicate k (routine 1) ++ [routine 1, routine 1]
        processing := .loop k 2 (2 ^ 64 - k) } := by
  have hsub : sub64 0 k = 2 ^ 64 - k := by
    rw [sub64]
    omega
  have hlong : 1 < 2 ^ 64 - k := by omega
  generalize 2 ^ 64 - k = n at hsub hlong ⊢
  rw [afterAdd, hk, Nat.mod_self]
  simp [run, State.step, State.processStep, State.addToPriorityQueue, State.cost, State.brkLimit,
    afterRounds, routine, hsub, hlong, hlong.trans' Nat.one_pos]

/-- After `2 ^ 32 - 1` rounds, one more routine is added to the empty ring. The call of
`ProcessPending` hands over two, and does not stop there: the next one is too much for the memory of
the priority queue. -/
theorem ring_wraps :
    ∃ s, run (State.step 3) (State.init (fun _ => routine 0) fun _ => routine 1)
        (rounds (2 ^ 32 - 1) ++ (addOne ++ List.replicate 4 .processor)) = some s ∧
      Along (State.step 3) (FitsRing 3) (State.init (fun _ => routine 0) fun _ => routine 1)
        (rounds (2 ^ 32 - 1) ++ (addOne ++ List.replicate 4 .processor)) ∧
      s.added.length = 2 ^ 32 ∧ s.handed.length = 2 ^ 32 + 1 ∧ ¬Fifo 3 s ∧
      s.step 3 .processor = none := by
  generalize hk : 2 ^ 32 - 1 = k
  have hk : k + 1 = 2 ^ 32 := by omega
  have hrounds := run_rounds k (by omega)
  have hadded : (afterAdd k).added.length = 2 ^ 32 := by
    rw [afterAdd, length_append, length_replicate, ← hk]
    rfl
  have hhanded : (List.replicate k (routine 1) ++ [routine 1, routine 1]).length = 2 ^ 32 + 1 := by
    rw [length_append, length_replicate, ← hk]
    rfl
  refine ⟨_, (run_append _).2 ⟨_, hrounds, (run_append _).2 ⟨_, run_addOne k, run_wrapped k hk⟩⟩,
    ?_, hadded, hhanded, fun h => ?_, ?_⟩
  · refine (along_append _).2 ⟨along_rounds k (by omega), fun t ht => ?_⟩
    obtain rfl := some.inj (hrounds.symm.trans ht)
    exact (along_append _).2 ⟨along_addOne k, fun t _ => along_processor 4 t⟩
  · have hle := h.handed.length_le
    dsimp only at hle
    rw [hadded, hhanded] at hle
    omega
  · have hlong : 2 < 2 ^ 64 - k := by omega
    simp only [State.step, State.processStep, if_pos hlong]
    rfl

end Felis.Sched.Dispatch
