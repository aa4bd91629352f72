import Felis.Sched.DispatchQueue

/-!
# What `Add` puts in comes out

`Inv` says where the routines of the batches are: those for the zero queue are its contents, then
what `Add` has written behind its end and not yet published, then the rest of the batch; the others
have been handed over, or stand in the ring from where `ProcessPending` is up to where `Add` is, or
are in the rest of the batch. It is kept as long as `Add` does not go back to `again` with slots
that it has written and not published, and the end of the ring does not wrap around.
-/

namespace Felis.Sched.Dispatch

open Cells Runs List Option Function

/-! ## Positions -/

namespace Adding

/-- The rest of the batch. -/
def todo : Adding → List RoutineRef
  | .again todo => todo
  | .loop todo .. => todo
  | _ => []

/-- How many slots of the zero queue are written and not published. -/
def zdelta : Adding → ℕ
  | .loop _ _ zdelta .. => zdelta
  | .publishZero zdelta _ => zdelta
  | _ => 0

/-- How many slots of the ring are written and not published. -/
def pdelta : Adding → ℕ
  | .loop _ _ _ _ pdelta _ => pdelta
  | .publishZero _ pdelta => pdelta
  | .publishPending pdelta => pdelta
  | _ => 0

end Adding

/-- How many routines `ProcessPending` has handed over that are still before the beginning. -/
def Processing.taken : Processing → ℕ
  | .loop _ i _ => i
  | .publish plen => plen
  | _ => 0

namespace State

def todo (s : State) : List RoutineRef := s.adding.elim [] Adding.todo

def zdelta (s : State) : ℕ := s.adding.elim 0 Adding.zdelta

def pdelta (s : State) : ℕ := s.adding.elim 0 Adding.pdelta

/-- The position that `ProcessPending` hands over next. -/
def front (s : State) : ℕ := s.pending.start + s.processing.taken

/-- The routines for the ring. -/
def keyed (rs : List RoutineRef) : List RoutineRef := rs.filter (!·.isZero)

/-- What is in the zero queue. -/
def zeroContents (s : State) : List RoutineRef := seg s.zq.q 0 s.zq.stop

/-- What is in the ring and has not been handed over. -/
def waiting (maxItem : ℕ) (s : State) : List RoutineRef :=
  ringSeg maxItem s.pending.q s.front (s.pending.stop - s.front)

/-- The position of the ring that the next step of `Add` writes. -/
def writes (s : State) : Event → Option ℕ
  | .adder =>
    match s.adding with
    | some (.loop (r :: _) _ _ pend pdelta plimit) =>
      if !r.isZero ∧ pdelta < plimit then some (pend + pdelta) else none
    | _ => none
  | _ => none

end State

/-! ## The invariant -/

/-- The local variables of `Add` agree with the counters. -/
def Adding.Fits (maxItem : ℕ) (s : State) : Adding → Prop
  | .loop _ zend _ pend pdelta plimit =>
    zend = s.zq.stop ∧ pend = s.pending.stop ∧ pdelta ≤ plimit ∧
      s.pending.stop + plimit ≤ s.pending.start + maxItem
  | _ => True

/-- The local variables of `ProcessPending` agree with the counters. -/
def Processing.Fits (s : State) : Processing → Prop
  | .idle => True
  | .readEnd pstart => pstart = s.pending.start
  | .loop pstart i plen =>
    pstart = s.pending.start ∧ i ≤ plen ∧ s.pending.start + plen ≤ s.pending.stop
  | .publish plen => s.pending.start + plen ≤ s.pending.stop

structure Inv (maxItem : ℕ) (s : State) : Prop where
  start_le : s.pending.start ≤ s.pending.stop
  stop_lt : s.pending.stop < 2 ^ 32
  room : s.pending.stop + s.pdelta ≤ s.pending.start + maxItem
  adding : ∀ a ∈ s.adding, a.Fits maxItem s
  processing : s.processing.Fits s
  zeros : seg s.zq.q 0 (s.zq.stop + s.zdelta) ++ s.todo.filter (·.isZero) = s.zeros
  handed : s.handed ++ ringSeg maxItem s.pending.q s.front (s.pending.stop + s.pdelta - s.front) ++
    State.keyed s.todo = State.keyed s.added

variable {maxItem : ℕ} {s t : State} {r : RoutineRef} {todo : List RoutineRef}
  {zend zdelta pend pdelta plimit : ℕ}

theorem Inv.front_le (h : Inv maxItem s) : s.front ≤ s.pending.stop := by
  have hp := h.processing
  have hle := h.start_le
  unfold State.front
  cases hs : s.processing <;> rw [hs] at hp <;> simp only [Processing.taken] <;>
    simp only [Processing.Fits] at hp <;> omega

/-- The number of routines in the ring is computed without wrap-around. -/
theorem Inv.sub64_pending (h : Inv maxItem s) :
    sub64 s.pending.stop s.pending.start = s.pending.stop - s.pending.start := by
  rw [sub64_eq h.start_le]
  exact Nat.mod_eq_of_lt (by have := h.stop_lt; omega)

/-- The laws while `Add` is at `a`. -/
theorem Inv.laws (h : Inv maxItem s) {a : Adding} (ha : s.adding = some a) :
    s.pending.stop + a.pdelta ≤ s.pending.start + maxItem ∧
      seg s.zq.q 0 (s.zq.stop + a.zdelta) ++ a.todo.filter (·.isZero) = s.zeros ∧
      s.handed ++ ringSeg maxItem s.pending.q s.front (s.pending.stop + a.pdelta - s.front) ++
        State.keyed a.todo = State.keyed s.added := by
  have hroom := h.room
  have hz := h.zeros
  have hh := h.handed
  simp only [State.zdelta, State.pdelta, State.todo, ha, elim_some] at hroom hz hh
  exact ⟨hroom, hz, hh⟩

theorem inv_init (zq pending : ℕ → RoutineRef) : Inv maxItem (State.init zq pending) where
  start_le := le_rfl
  stop_lt := Nat.two_pow_pos 32
  room := Nat.zero_le _
  adding _ ha := by cases ha
  processing := trivial
  zeros := rfl
  handed := rfl

/-! ## Steps -/

/-- `Add` does not go back to `again` after it has written a slot since it was last there, and the
end of the ring does not wrap around. -/
def Published (s : State) : Event → Prop
  | .adder =>
    match s.adding with
    | some (.loop (r :: _) _ zdelta _ pdelta plimit) =>
      r.isZero = false → plimit ≤ pdelta → zdelta = 0 ∧ pdelta = 0
    | some (.publishPending pdelta) => s.pending.stop + pdelta < 2 ^ 32
    | _ => True
  | _ => True

instance (s : State) (e : Event) : Decidable (Published s e) := by
  unfold Published
  repeat' split
  all_goals infer_instance

theorem keyed_append (rs rs' : List RoutineRef) :
    State.keyed (rs ++ rs') = State.keyed rs ++ State.keyed rs' := filter_append ..

theorem keyed_cons_zero (hr : r.isZero = true) (rs : List RoutineRef) :
    State.keyed (r :: rs) = State.keyed rs := filter_cons_of_neg (by simp [hr])

theorem keyed_cons (hr : r.isZero = false) (rs : List RoutineRef) :
    State.keyed (r :: rs) = r :: State.keyed rs := filter_cons_of_pos (by simp [hr])

section

variable (h : Inv maxItem s)

include h

/-- `Add` goes on, and writes nothing. -/
theorem Inv.goTo {a b : Adding} (ha : s.adding = some a) (htodo : b.todo = a.todo)
    (hzdelta : b.zdelta = a.zdelta) (hpdelta : b.pdelta = a.pdelta) (hfits : b.Fits maxItem s) :
    Inv maxItem { s with adding := some b } := by
  obtain ⟨hroom, hz, hh⟩ := h.laws ha
  rw [← hpdelta] at hroom hh
  rw [← hzdelta, ← htodo] at hz
  rw [← htodo] at hh
  exact ⟨h.start_le, h.stop_lt, hroom, fun _ hmem => some.inj hmem ▸ hfits, h.processing, hz, hh⟩

theorem Inv.again (ha : s.adding = some (.again todo))
    (ht : s.addStep maxItem (.again todo) = some t) : Inv maxItem t := by
  cases ht
  refine h.goTo ha rfl rfl rfl ⟨rfl, rfl, Nat.zero_le _, ?_⟩
  have hroom := (h.laws ha).1
  have hstart := h.start_le
  have hlimit : sub64 maxItem (s.pending.stop - s.pending.start) ≤
      maxItem - (s.pending.stop - s.pending.start) := by
    rw [sub64_eq (by omega)]
    exact Nat.mod_le _ _
  change s.pending.stop + sub64 maxItem (sub64 s.pending.stop s.pending.start) ≤ _
  rw [h.sub64_pending]
  omega

theorem Inv.zeroWrite (ha : s.adding = some (.loop (r :: todo) zend zdelta pend pdelta plimit))
    (hr : r.isZero = true) :
    Inv maxItem { s with
      zq := { s.zq with q := update s.zq.q (zend + zdelta) r }
      adding := some (.loop todo zend (zdelta + 1) pend pdelta plimit) } := by
  obtain ⟨hroom, hz, hh⟩ := h.laws ha
  obtain ⟨hzend, hfits⟩ := h.adding _ ha
  dsimp only [Adding.todo, Adding.zdelta] at hz hh
  rw [keyed_cons_zero hr] at hh
  refine ⟨h.start_le, h.stop_lt, hroom, ?_, h.processing, ?_, hh⟩
  · intro a hmem
    cases hmem
    exact ⟨hzend, hfits⟩
  · change seg (update s.zq.q (zend + zdelta) r) 0 (s.zq.stop + (zdelta + 1)) ++
      todo.filter (·.isZero) = s.zeros
    have hseg := seg_update s.zq.q 0 (s.zq.stop + zdelta) r
    rw [Nat.zero_add] at hseg
    rw [← hz, filter_cons_of_pos hr, ← Nat.add_assoc, hzend, hseg, append_assoc,
      singleton_append]

theorem Inv.ringWrite (ha : s.adding = some (.loop (r :: todo) zend zdelta pend pdelta plimit))
    (hr : r.isZero = false) (hlt : pdelta < plimit) :
    Inv maxItem { s with
      pending := { s.pending with
        q := update s.pending.q ((pend + pdelta) % maxItem) r }
      adding := some (.loop todo zend zdelta pend (pdelta + 1) plimit) } := by
  obtain ⟨-, hz, hh⟩ := h.laws ha
  obtain ⟨hzend, hpend, -, hlimit⟩ := h.adding _ ha
  have hfront := h.front_le
  have hstart : s.pending.start ≤ s.front := Nat.le_add_right _ _
  dsimp only [Adding.todo, Adding.pdelta] at hz hh
  rw [filter_cons_of_neg (by simp [hr])] at hz
  rw [keyed_cons hr] at hh
  refine ⟨h.start_le, h.stop_lt, ?_, ?_, h.processing, hz, ?_⟩
  · change s.pending.stop + (pdelta + 1) ≤ s.pending.start + maxItem
    omega
  · intro a hmem
    cases hmem
    exact ⟨hzend, hpend, hlt, hlimit⟩
  · change s.handed ++ ringSeg maxItem (update s.pending.q ((pend + pdelta) % maxItem) r)
      s.front (s.pending.stop + (pdelta + 1) - s.front) ++ State.keyed todo = State.keyed s.added
    obtain ⟨n, hn⟩ := Nat.exists_eq_add_of_le (show s.front ≤ s.pending.stop + pdelta by omega)
    rw [show s.pending.stop + (pdelta + 1) - s.front = n + 1 by omega, hpend, hn,
      ringSeg_update s.pending.q s.front r (by omega)]
    rw [hn, Nat.add_sub_cancel_left] at hh
    rw [← hh]
    simp

theorem Inv.publishZero {zdelta pdelta : ℕ} (ha : s.adding = some (.publishZero zdelta pdelta)) :
    Inv maxItem { s with
      zq := { s.zq with stop := s.zq.stop + zdelta }
      adding := some (.publishPending pdelta) } := by
  obtain ⟨hroom, hz, hh⟩ := h.laws ha
  refine ⟨h.start_le, h.stop_lt, hroom, ?_, h.processing, hz, hh⟩
  intro a hmem
  cases hmem
  trivial

end

/-- What is before the new end has been published before. -/
theorem Processing.Fits.mono {p : Processing} (h : p.Fits s)
    (hstart : t.pending.start = s.pending.start) (hstop : s.pending.stop ≤ t.pending.stop) :
    p.Fits t := by
  cases p with
  | idle => trivial
  | readEnd pstart => exact h.trans hstart.symm
  | loop pstart i plen =>
    obtain ⟨hp, hi, hlen⟩ := h
    exact ⟨hp.trans hstart.symm, hi, hstart ▸ hlen.trans hstop⟩
  | publish plen =>
    change t.pending.start + plen ≤ t.pending.stop
    rw [hstart]
    exact h.trans hstop

section

variable (h : Inv maxItem s)

include h

theorem Inv.publishPending {pdelta : ℕ} (ha : s.adding = some (.publishPending pdelta))
    (hlt : s.pending.stop + pdelta < 2 ^ 32) :
    Inv maxItem { s with
      pending := { s.pending with stop := (s.pending.stop + pdelta) % 2 ^ 32 }
      adding := some .unlock } := by
  obtain ⟨hroom, hz, hh⟩ := h.laws ha
  rw [Nat.mod_eq_of_lt hlt]
  refine ⟨h.start_le.trans (Nat.le_add_right _ _), hlt, hroom, ?_,
    h.processing.mono rfl (Nat.le_add_right _ _), hz, hh⟩
  intro a hmem
  cases hmem
  trivial

theorem Inv.unlock (ha : s.adding = some .unlock) : Inv maxItem { s with adding := none } := by
  obtain ⟨hroom, hz, hh⟩ := h.laws ha
  refine ⟨h.start_le, h.stop_lt, hroom, ?_, h.processing, hz, hh⟩
  intro a hmem
  cases hmem

theorem Inv.addStep {a : Adding} (ha : s.adding = some a) (hok : Published s .adder)
    (ht : s.addStep maxItem a = some t) : Inv maxItem t := by
  simp only [Published, ha] at hok
  cases a with
  | again todo => exact h.again ha ht
  | loop todo zend zdelta pend pdelta plimit =>
    cases todo with
    | nil =>
      cases ht
      exact h.goTo ha rfl rfl rfl trivial
    | cons r todo =>
      rw [State.addStep] at ht
      split_ifs at ht with hr hfull hlimit <;> cases ht
      · exact h.zeroWrite ha hr
      · -- nothing is unpublished when `Add` goes back to `again`
        obtain ⟨rfl, rfl⟩ := hok (Bool.eq_false_iff.2 hr) hlimit
        exact h.goTo ha rfl rfl rfl trivial
      · exact h.ringWrite ha (Bool.eq_false_iff.2 hr) (Nat.lt_of_not_le hlimit)
  | publishZero zdelta pdelta =>
    cases ht
    exact h.publishZero ha
  | publishPending pdelta =>
    cases ht
    exact h.publishPending ha hok
  | unlock =>
    cases ht
    exact h.unlock ha

omit h in
theorem addToPriorityQueue_eq_some (ht : s.addToPriorityQueue maxItem r = some t) :
    s.brk + State.cost s.entries r ≤ State.brkLimit maxItem ∧ t = { s with
      brk := s.brk + State.cost s.entries r
      entries := s.entries.insert r.schedKey
      handed := s.handed ++ [r] } := by
  rw [State.addToPriorityQueue] at ht
  split_ifs at ht with hlt
  exact ⟨Nat.le_of_not_lt hlt, (some.inj ht).symm⟩

/-- `ProcessPending` goes on, and hands nothing over. -/
theorem Inv.goOn {p : Processing} (hp : p.Fits s) (htaken : p.taken = s.processing.taken) :
    Inv maxItem { s with processing := p } := by
  refine ⟨h.start_le, h.stop_lt, h.room, h.adding, hp, h.zeros, ?_⟩
  have hfront : State.front { s with processing := p } = s.front := by
    simp only [State.front, htaken]
  rw [hfront]
  exact h.handed

/-- `ProcessPending` hands over the routine in the next slot. -/
theorem Inv.hand {pstart i plen : ℕ} (hp : s.processing = .loop pstart i plen) (hi : i < plen)
    (brk : ℕ) (entries : List ℕ) :
    Inv maxItem { s with
      brk := brk
      entries := entries
      handed := s.handed ++ [s.pending.q ((pstart + i) % maxItem)]
      processing := .loop pstart (i + 1) plen } := by
  have hfits := h.processing
  have hh := h.handed
  rw [hp] at hfits
  obtain ⟨hstart, -, hlen⟩ := hfits
  refine ⟨h.start_le, h.stop_lt, h.room, h.adding, ⟨hstart, hi, hlen⟩, h.zeros, ?_⟩
  have hfront : s.front = pstart + i := by
    simp only [State.front, hp, Processing.taken, hstart]
  obtain ⟨n, hn⟩ := Nat.exists_eq_add_of_le
    (show s.front + 1 ≤ s.pending.stop + s.pdelta by omega)
  rw [show s.pending.stop + s.pdelta - s.front = n + 1 by omega, ringSeg_cons, hfront] at hh
  have hnext : State.front { s with processing := .loop pstart (i + 1) plen } = pstart + i + 1 := by
    simp only [State.front, Processing.taken, hstart]
    omega
  change (s.handed ++ [s.pending.q ((pstart + i) % maxItem)]) ++ ringSeg maxItem s.pending.q
    (State.front { s with processing := .loop pstart (i + 1) plen })
    (s.pending.stop + s.pdelta - State.front { s with processing := .loop pstart (i + 1) plen }) ++
      State.keyed s.todo = State.keyed s.added
  rw [hnext, show s.pending.stop + s.pdelta - (pstart + i + 1) = n by omega, ← hh]
  simp

theorem Inv.publish {plen : ℕ} (hp : s.processing = .publish plen) :
    Inv maxItem { s with
      pending := { s.pending with start := (s.pending.start + plen) % 2 ^ 32 }
      processing := .idle } := by
  have hfits := h.processing
  have hh := h.handed
  have hroom := h.room
  have hstop := h.stop_lt
  have hfront : s.front = s.pending.start + plen := by simp only [State.front, hp, Processing.taken]
  rw [hp] at hfits
  change s.pending.start + plen ≤ s.pending.stop at hfits
  rw [Nat.mod_eq_of_lt (hfits.trans_lt hstop)]
  refine ⟨hfits, hstop, hroom.trans (by dsimp only; omega), ?_, trivial, h.zeros, ?_⟩
  · intro a ha
    have hold := h.adding a ha
    cases a with
    | loop todo zend zdelta pend pdelta plimit =>
      obtain ⟨hzend, hpend, hle, hlimit⟩ := hold
      exact ⟨hzend, hpend, hle, hlimit.trans (by dsimp only; omega)⟩
    | again => trivial
    | publishZero => trivial
    | publishPending => trivial
    | unlock => trivial
  · rw [hfront] at hh
    exact hh

theorem Inv.processStep (ht : s.processStep maxItem s.processing = some t) : Inv maxItem t := by
  have hfits := h.processing
  have hstop := h.stop_lt
  have hstart := h.start_le
  cases hp : s.processing with
  | idle =>
    rw [hp] at ht
    cases ht
    exact h.goOn rfl (by rw [hp]; rfl)
  | readEnd pstart =>
    rw [hp] at ht
    cases ht
    rw [hp] at hfits
    refine h.goOn ⟨hfits, Nat.zero_le _, ?_⟩ (by rw [hp]; rfl)
    rw [hfits, h.sub64_pending]
    omega
  | loop pstart i plen =>
    rw [hp] at hfits ht
    rw [State.processStep] at ht
    split_ifs at ht with hi
    · obtain ⟨u, hu, rfl⟩ := map_eq_some_iff.1 ht
      obtain ⟨-, rfl⟩ := addToPriorityQueue_eq_some hu
      exact h.hand hp hi _ _
    · cases ht
      have hi : i = plen := le_antisymm hfits.2.1 (Nat.le_of_not_lt hi)
      exact h.goOn hfits.2.2 (by rw [hp, hi]; rfl)
  | publish plen =>
    rw [hp] at ht
    cases ht
    exact h.publish hp

theorem Inv.add (ha : s.adding = none) (batch : List RoutineRef) :
    Inv maxItem { s with
      adding := some (.again batch)
      added := s.added ++ batch
      zeros := s.zeros ++ batch.filter (·.isZero) } := by
  have hroom := h.room
  have hz := h.zeros
  have hh := h.handed
  simp only [State.zdelta, State.pdelta, State.todo, ha, elim_none, filter_nil,
    State.keyed, append_nil] at hroom hz hh
  refine ⟨h.start_le, h.stop_lt, hroom, ?_, h.processing, ?_, ?_⟩
  · intro a hmem
    cases hmem
    trivial
  · exact congrArg (· ++ batch.filter (·.isZero)) hz
  · change _ ++ State.keyed batch = State.keyed (s.added ++ batch)
    rw [keyed_append]
    exact congrArg (· ++ State.keyed batch) hh

theorem Inv.reset (ha : s.adding = none) :
    Inv maxItem { s with zq := { s.zq with start := 0, stop := 0 }, brk := 0, zeros := [] } := by
  refine ⟨h.start_le, h.stop_lt, h.room, ?_, h.processing, ?_, h.handed⟩
  · intro a hmem
    rw [ha] at hmem
    cases hmem
  · simp [State.zdelta, State.todo, ha]

theorem Inv.step {e : Event} (hok : Published s e) (ht : s.step maxItem e = some t) :
    Inv maxItem t := by
  cases e with
  | add batch =>
    rw [State.step] at ht
    split_ifs at ht with ha
    cases ht
    exact h.add ha batch
  | adder =>
    obtain ⟨a, ha, ht⟩ := bind_eq_some_iff.1 ht
    exact h.addStep ha hok ht
  | processor => exact h.processStep ht
  | consume key =>
    rw [State.step] at ht
    split_ifs at ht
    cases ht
    exact ⟨h.start_le, h.stop_lt, h.room, h.adding, h.processing, h.zeros, h.handed⟩
  | reset =>
    rw [State.step] at ht
    split_ifs at ht with ha
    cases ht
    exact h.reset ha

end

/-! ## Nothing is lost -/

/-- Every routine with the key 0 is placed once in the zero queue, every other one is handed over
once, both in the order in which they have been added, and `Add` writes no slot of the ring that has
not been consumed. While no `Add` holds the lock, what has not been handed over is in the ring. -/
structure Delivered (maxItem : ℕ) (s : State) : Prop where
  zeros : s.zeroContents <+: s.zeros
  zeros_all : s.adding = none → s.zeroContents = s.zeros
  handed : s.handed <+: State.keyed s.added
  handed_all : s.adding = none → s.handed ++ s.waiting maxItem = State.keyed s.added
  fresh : ∀ e, ∀ w ∈ s.writes e, ∀ p, s.pending.start ≤ p → p < w → p % maxItem ≠ w % maxItem

theorem Inv.fresh (h : Inv maxItem s) {e : Event} {w : ℕ} (hw : w ∈ s.writes e) {p : ℕ}
    (hp : s.pending.start ≤ p) (hlt : p < w) : p % maxItem ≠ w % maxItem := by
  unfold State.writes at hw
  split at hw
  · split at hw
    next r todo zend zdelta pend pdelta plimit ha =>
      obtain ⟨-, hpend, -, hlimit⟩ := h.adding _ ha
      split_ifs at hw with hroom <;> cases hw
      exact mod_ne_mod hlt (by omega)
    next => cases hw
  · cases hw

theorem Inv.delivered (h : Inv maxItem s) : Delivered maxItem s := by
  have hz := h.zeros
  have hh := h.handed
  refine ⟨?_, fun ha => ?_, ?_, fun ha => ?_, fun e w hw p hp hlt => h.fresh hw hp hlt⟩
  · rw [seg_add, append_assoc] at hz
    exact ⟨_, hz⟩
  · simp only [State.zdelta, State.todo, ha, elim_none, filter_nil, append_nil,
      Nat.add_zero] at hz
    exact hz
  · rw [append_assoc] at hh
    exact ⟨_, hh⟩
  · simp only [State.pdelta, State.todo, State.keyed, ha, elim_none, filter_nil,
      append_nil, Nat.add_zero] at hh
    exact hh

/-- **The queues lose nothing.** In every run in which `Add` does not go back to `again` after it
has written a slot since it was last there, and the end of the ring does not wrap around, what has
been added is placed in the zero queue or handed over, once and in order. -/
theorem add_delivered (maxItem : ℕ) (zq pending : ℕ → RoutineRef) (evs : List Event) (s : State)
    (hok : Along (State.step maxItem) Published (State.init zq pending) evs)
    (hrun : run (State.step maxItem) (State.init zq pending) evs = some s) : Delivered maxItem s :=
  run_invariant (fun _ _ _ h hok ht => h.step hok ht) evs _ s (inv_init zq pending) hok hrun
    |>.delivered

def routine (i : ℕ) : RoutineRef := ⟨i, i⟩

def emptyQueues : State := State.init (fun _ => routine 0) (fun _ => routine 0)

/-- Two batches go into a ring of four slots. `ProcessPending` starts while the first one is being
added, and the second one is left in the ring. -/
def mixedRun : List Event :=
  [.add [routine 0, routine 1, routine 2]] ++ List.replicate 5 .adder ++ [.processor] ++
    List.replicate 3 .adder ++ List.replicate 5 .processor ++ [.add [routine 3]] ++
    List.replicate 6 .adder

theorem add_delivered_mixedRun :
    ∃ s, run (State.step 4) emptyQueues mixedRun = some s ∧ s.adding = none ∧
      s.handed = [routine 1, routine 2] ∧ s.zeroContents = [routine 0] ∧
      s.waiting 4 = [routine 3] ∧ Delivered 4 s := by
  obtain ⟨s, hs, hadd, hhanded, hzeros, hwait⟩ : ∃ s, run (State.step 4) emptyQueues mixedRun = some
      s ∧ s.adding = none ∧ s.handed = [routine 1, routine 2] ∧ s.zeroContents = [routine 0] ∧
      s.waiting 4 = [routine 3] := by decide +kernel
  exact ⟨s, hs, hadd, hhanded, hzeros, hwait, add_delivered 4 _ _ mixedRun s (by decide +kernel) hs⟩

/-- A batch of three goes into a ring of two slots. `Add` writes the first two routines, goes back
to `again` and writes the third over the first. -/
def fullRun : List Event :=
  [.add [routine 1, routine 2, routine 3]] ++ List.replicate 10 .adder ++
    List.replicate 5 .processor

theorem add_fullRun_lost :
    ∃ s, run (State.step 2) emptyQueues fullRun = some s ∧ s.adding = none ∧
      s.processing = .idle ∧ s.added = [routine 1, routine 2, routine 3] ∧
      s.handed = [routine 3] ∧ s.waiting 2 = [] ∧ ¬ Delivered 2 s := by
  obtain ⟨s, hs, hadd, hproc, hadded, hhanded, hwait⟩ : ∃ s, run (State.step 2) emptyQueues fullRun
      = some s ∧ s.adding = none ∧ s.processing = .idle ∧
      s.added = [routine 1, routine 2, routine 3] ∧ s.handed = [routine 3] ∧
      s.waiting 2 = [] := by decide +kernel
  refine ⟨s, hs, hadd, hproc, hadded, hhanded, hwait, fun h => ?_⟩
  have hall := h.handed_all hadd
  rw [hhanded, hwait, hadded] at hall
  exact absurd hall (by decide)

end Felis.Sched.Dispatch
