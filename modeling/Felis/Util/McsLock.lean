import Mathlib.Tactic
import Felis.Foundations.Runs

/-!
# The MCS lock

`util::MCSSpinLock` is a queue of `QNode`s, one for each acquisition. `Lock` puts its node at the
end by an exchange of `tail`, and only then writes it into `next` of the node before it. `Unlock`
that finds no successor tries to take its node off the end; when that fails, a successor is on its
way, and it waits for the link.

The accesses to `tail`, `next` and `done` are the steps of the model. The first access of a call is
made with the call. A `QNode` is constructed for an acquisition, in memory that no acquisition in
progress uses. `queue`, `exchanged` and `acquired` are no part of the program: the acquisitions in
progress, and all those that were put on `tail` and that were successful, in this order.
-/

namespace Felis.Util.McsLock

open Runs Function List

structure QNode (Q : Type) where
  done : Bool
  next : Option Q

/-- Where a thread is, with its `QNode`. -/
inductive Pc (Q : Type)
  | idle
  /-- In `Lock`, at `last->next = qnode`. -/
  | link (q last : Q)
  /-- In the loop of `Lock`. -/
  | wait (q : Q)
  | critical (q : Q)
  /-- In `Unlock`, at the compare-and-swap. -/
  | swap (q : Q)
  /-- In the loop of `Unlock`. -/
  | spin (q : Q)
  /-- At the last load of `next`. -/
  | load (q : Q)
  /-- At `done = true`. -/
  | store (q next : Q)
  deriving DecidableEq

/-- From the acquisition to the end of `Unlock`. -/
def Pc.holds {Q : Type} : Pc Q → Bool
  | .idle | .link .. | .wait _ => false
  | .critical _ | .swap _ | .spin _ | .load _ | .store .. => true

def Pc.waits {Q : Type} : Pc Q → Bool
  | .link .. | .wait _ => true
  | _ => false

structure State (T Q : Type) where
  tail : Option Q
  node : Q → QNode Q
  pc : T → Pc Q
  queue : List (T × Q)
  exchanged : List (T × Q)
  acquired : List (T × Q)

inductive Event (Q : Type)
  | lock (q : Q)
  | tryLock (q : Q)
  | unlock
  | advance

namespace State

variable {T Q : Type}

/-- The lock before its first use; the memory for the nodes has any contents. -/
def init (node : Q → QNode Q) : State T Q := ⟨none, node, fun _ => .idle, [], [], []⟩

section

variable [DecidableEq T] [DecidableEq Q]

def setPc (s : State T Q) (t : T) (pc : Pc Q) : State T Q := { s with pc := update s.pc t pc }

def setNode (s : State T Q) (q : Q) (n : QNode Q) : State T Q :=
  { s with node := update s.node q n }

/-- A new `QNode` is put on `tail`. -/
def enqueue (s : State T Q) (t : T) (q : Q) : State T Q :=
  { s.setNode q ⟨false, none⟩ with
    tail := some q
    queue := s.queue ++ [(t, q)]
    exchanged := s.exchanged ++ [(t, q)] }

def acquire (s : State T Q) (t : T) (q : Q) : State T Q :=
  { s.setPc t (.critical q) with acquired := s.acquired ++ [(t, q)] }

def release (s : State T Q) (t : T) (q : Q) : State T Q :=
  { s.setPc t .idle with queue := s.queue.erase (t, q) }

/-- The next access of a thread in `Lock` or `Unlock`. -/
def advance (s : State T Q) (t : T) : Pc Q → Option (State T Q)
  | .idle | .critical _ => none
  | .link q last => some ((s.setNode last { s.node last with next := some q }).setPc t (.wait q))
  | .wait q => some (if (s.node q).done then s.acquire t q else s)
  | .swap q =>
    some (if s.tail = some q then { s with tail := none }.release t q else s.setPc t (.spin q))
  | .spin q => some (if (s.node q).next = none then s else s.setPc t (.load q))
  | .load q => (s.node q).next.map fun n => s.setPc t (.store q n)
  | .store q n => some ((s.setNode n { s.node n with done := true }).release t q)

def step (s : State T Q) : T × Event Q → Option (State T Q)
  | (t, .lock q) =>
    if s.pc t = .idle ∧ q ∉ s.queue.map Prod.snd then
      match s.tail with
      | none => some ((s.enqueue t q).acquire t q)
      | some last => some ((s.enqueue t q).setPc t (.link q last))
    else none
  | (t, .tryLock q) =>
    if s.pc t = .idle ∧ q ∉ s.queue.map Prod.snd then
      match s.tail with
      | none => some ((s.enqueue t q).acquire t q)
      | some _ => some (s.setNode q ⟨false, none⟩)
    else none
  | (t, .unlock) =>
    match s.pc t with
    | .critical q => some (s.setPc t (if (s.node q).next = none then .swap q else .load q))
    | _ => none
  | (t, .advance) => s.advance t (s.pc t)

end

/-! ## The queue -/

variable {s s' : State T Q} {t u : T} {p q last : Q} {l : List (T × Q)}

/-- The acquisitions behind the node `p`. Each of them has been linked, or is about to be. -/
def Behind (s : State T Q) : Q → List (T × Q) → Prop
  | p, [] => s.tail = some p ∧ (s.node p).next = none
  | p, (t, q) :: l => (s.node q).done = false ∧
      (s.pc t = .link q p ∧ (s.node p).next = none ∨
        s.pc t = .wait q ∧ (s.node p).next = some q) ∧ s.Behind q l

/-- The acquisition in front has the lock, or its flag is set. -/
def Front (s : State T Q) (t : T) (q : Q) : Prop :=
  match s.pc t with
  | .wait q' => q' = q ∧ (s.node q).done = true
  | .critical q' | .swap q' | .spin q' => q' = q
  | .load q' => q' = q ∧ (s.node q).next ≠ none
  | .store q' n => q' = q ∧ (s.node q).next = some n
  | _ => False

def Queued (s : State T Q) : List (T × Q) → Prop
  | [] => s.tail = none
  | (t, q) :: l => s.Front t q ∧ s.Behind q l

/-- The acquisition in front, when it is successful. -/
def served (s : State T Q) : List (T × Q) → List (T × Q)
  | [] => []
  | a :: _ => if (s.pc a.1).holds then [a] else []

structure Inv (s : State T Q) : Prop where
  queued : s.Queued s.queue
  threads : (s.queue.map Prod.fst).Nodup
  nodes : (s.queue.map Prod.snd).Nodup
  idle : ∀ t, t ∉ s.queue.map Prod.fst → s.pc t = .idle
  history : ∃ gone, s.exchanged = gone ++ s.queue ∧ s.acquired = gone ++ s.served s.queue

theorem Behind.congr (h : s.Behind p l) (htail : s'.tail = s.tail)
    (hnext : (s'.node p).next = (s.node p).next)
    (hnode : ∀ q ∈ l.map Prod.snd, s'.node q = s.node q)
    (hpc : ∀ u ∈ l.map Prod.fst, s'.pc u = s.pc u) : s'.Behind p l := by
  induction l generalizing p with
  | nil => exact ⟨htail.trans h.1, hnext.trans h.2⟩
  | cons a l ih =>
    obtain ⟨u, q⟩ := a
    have hq : s'.node q = s.node q := hnode q (by simp)
    have hu : s'.pc u = s.pc u := hpc u (by simp)
    obtain ⟨hdone, hlink, hrest⟩ := h
    refine ⟨by rw [hq, hdone], by rwa [hu, hnext], ?_⟩
    refine ih hrest (by rw [hq]) (fun r hr => hnode r ?_) fun v hv => hpc v ?_
    · exact mem_cons_of_mem _ hr
    · exact mem_cons_of_mem _ hv

/-- `tail` is the last node. -/
theorem Behind.tail_mem (h : s.Behind p l) : ∃ q ∈ p :: l.map Prod.snd, s.tail = some q := by
  induction l generalizing p with
  | nil => exact ⟨p, by simp, h.1⟩
  | cons a l ih =>
    obtain ⟨q, hq, htail⟩ := ih h.2.2
    exact ⟨q, mem_cons_of_mem _ hq, htail⟩

/-- A thread that waits is at its node, whose flag is not set. -/
theorem Behind.pc_of_mem (h : s.Behind p l) (ht : t ∈ l.map Prod.fst) :
    ∃ q, (t, q) ∈ l ∧ (s.node q).done = false ∧
      ((∃ r ∈ p :: l.map Prod.snd, s.pc t = .link q r ∧ (s.node r).next = none) ∨
        s.pc t = .wait q) := by
  induction l generalizing p with
  | nil => cases ht
  | cons a l ih =>
    obtain ⟨u, q⟩ := a
    obtain ⟨hdone, hlink, hrest⟩ := h
    rcases mem_cons.1 ht with rfl | ht
    · refine ⟨q, by simp, hdone, ?_⟩
      rcases hlink with ⟨hpc, hnext⟩ | ⟨hpc, -⟩
      · exact .inl ⟨p, by simp, hpc, hnext⟩
      · exact .inr hpc
    · obtain ⟨r, hr, hdone, hpc⟩ := ih hrest ht
      refine ⟨r, mem_cons_of_mem _ hr, hdone, hpc.imp_left ?_⟩
      rintro ⟨r', hr', hpc⟩
      exact ⟨r', mem_cons_of_mem _ hr', hpc⟩

theorem Queued.tail_eq_none (h : s.Queued l) (htail : s.tail = none) : l = [] := by
  cases l with
  | nil => rfl
  | cons a l =>
    obtain ⟨q, -, hq⟩ := h.2.tail_mem
    rw [htail] at hq
    cases hq

theorem Queued.pc_ne_idle (h : s.Queued l) (ht : t ∈ l.map Prod.fst) : s.pc t ≠ .idle := by
  cases l with
  | nil => cases ht
  | cons a l =>
    obtain ⟨u, q⟩ := a
    rcases mem_cons.1 ht with rfl | ht
    · intro hidle
      have hfront := h.1
      rw [Front, hidle] at hfront
      exact hfront
    · obtain ⟨r, -, -, ⟨last, -, hpc, -⟩ | hpc⟩ := h.2.pc_of_mem ht <;> rw [hpc] <;> simp

/-- A thread that is in `Lock` or has the lock is in the queue. -/
theorem Inv.place (h : s.Inv) (hpc : s.pc t ≠ .idle) : ∃ u p l, s.queue = (u, p) :: l ∧
    s.Front u p ∧ s.Behind p l ∧ (t = u ∨ t ∈ l.map Prod.fst) := by
  have hmem : t ∈ s.queue.map Prod.fst := not_not.1 fun hmem => hpc (h.idle t hmem)
  have hqueued := h.queued
  cases hl : s.queue with
  | nil =>
    rw [hl] at hmem
    cases hmem
  | cons a l =>
    rw [hl] at hqueued hmem
    exact ⟨a.1, a.2, l, rfl, hqueued.1, hqueued.2, mem_cons.1 hmem⟩

/-- No thread and no node is in the queue twice. -/
theorem Inv.once (h : s.Inv) (hl : s.queue = (t, q) :: l) :
    (t ∉ l.map Prod.fst ∧ (l.map Prod.fst).Nodup) ∧
      q ∉ l.map Prod.snd ∧ (l.map Prod.snd).Nodup := by
  have hthreads := h.threads
  have hnodes := h.nodes
  rw [hl] at hthreads hnodes
  exact ⟨nodup_cons.1 hthreads, nodup_cons.1 hnodes⟩

/-- A thread that has the lock, or whose flag is set, is in front. -/
theorem Inv.front (h : s.Inv)
    (ht : (s.pc t).holds = true ∨ ∃ q, s.pc t = .wait q ∧ (s.node q).done = true) :
    ∃ q l, s.queue = (t, q) :: l ∧ s.Front t q ∧ s.Behind q l := by
  have hpc : s.pc t ≠ .idle := by
    intro hidle
    rw [hidle] at ht
    simp [Pc.holds] at ht
  obtain ⟨u, p, l, hl, hfront, hbehind, rfl | hmem⟩ := h.place hpc
  · exact ⟨p, l, hl, hfront, hbehind⟩
  · obtain ⟨q, -, hdone, ⟨last, -, hpc, -⟩ | hpc⟩ := hbehind.pc_of_mem hmem <;> rw [hpc] at ht
    · simp [Pc.holds] at ht
    · rcases ht with ht | ⟨q', hq', hset⟩
      · cases ht
      · cases hq'
        rw [hdone] at hset
        cases hset

theorem inv_init (node : Q → QNode Q) : (init node : State T Q).Inv :=
  ⟨rfl, nodup_nil, nodup_nil, fun _ _ => rfl, [], rfl, rfl⟩

theorem Inv.exclusive (h : s.Inv) (ht : (s.pc t).holds = true) (hu : (s.pc u).holds = true) :
    t = u := by
  obtain ⟨q, l, hl, -⟩ := h.front (.inl ht)
  obtain ⟨r, k, hk, -⟩ := h.front (.inl hu)
  rw [hl] at hk
  cases hk
  rfl

theorem Inv.inOrder (h : s.Inv) : s.acquired <+: s.exchanged := by
  obtain ⟨gone, hexchanged, hacquired⟩ := h.history
  rw [hexchanged, hacquired, prefix_append_right_inj]
  cases s.queue with
  | nil => exact nil_prefix
  | cons a l =>
    rw [served]
    split_ifs
    · exact ⟨l, rfl⟩
    · exact nil_prefix

/-- Who finds its own node on `tail` is alone in the queue. -/
theorem Inv.queue_eq (h : s.Inv) (hpc : s.pc t = .swap q) (htail : s.tail = some q) :
    s.queue = [(t, q)] := by
  obtain ⟨p, l, hl, hfront, hbehind⟩ := h.front (t := t) (.inl (by rw [hpc]; rfl))
  rw [Front, hpc] at hfront
  subst hfront
  cases l with
  | nil => exact hl
  | cons a l =>
    obtain ⟨r, hr, hlast⟩ := hbehind.2.2.tail_mem
    rw [htail] at hlast
    cases hlast
    exact absurd hr (h.once hl).2.1

/-- What the holder finds in `next` is the node behind it, which has been linked. -/
theorem Inv.next_spec (h : s.Inv) (hpc : s.pc t = .store p q) :
    ∃ u l, s.queue = (t, p) :: (u, q) :: l ∧ s.pc u = .wait q ∧ s.Behind q l := by
  have ht : (s.pc t).holds = true := by rw [hpc]; rfl
  obtain ⟨p', l, hl, hfront, hbehind⟩ := h.front (.inl ht)
  rw [Front, hpc] at hfront
  obtain ⟨rfl, hnext⟩ := hfront
  cases l with
  | nil =>
    rw [hbehind.2] at hnext
    cases hnext
  | cons a l =>
    obtain ⟨u, r⟩ := a
    obtain ⟨-, ⟨-, hnone⟩ | ⟨hwait, hsome⟩, hrest⟩ := hbehind
    · rw [hnone] at hnext
      cases hnext
    · rw [hsome] at hnext
      cases hnext
      exact ⟨u, l, hl, hwait, hrest⟩

variable [DecidableEq T]

namespace Inv

variable (h : s.Inv)

include h

/-- The thread in front goes on, and the waiting ones stay. -/
theorem setFront (hl : s.queue = (t, q) :: l) (hbehind : s.Behind q l) {pc : Pc Q}
    (hfront : (s.setPc t pc).Front t q) {acquired : List (T × Q)}
    (hacquired : ∀ gone, s.acquired = gone ++ s.served s.queue →
      acquired = gone ++ if pc.holds then [(t, q)] else []) :
    ({ s.setPc t pc with acquired } : State T Q).Inv := by
  set s' : State T Q := { s.setPc t pc with acquired }
  have hother : ∀ u, u ≠ t → s'.pc u = s.pc u := fun u hu => update_of_ne hu ..
  have hl' : s'.queue = (t, q) :: l := hl
  obtain ⟨gone, hexchanged, hgone⟩ := h.history
  refine ⟨?_, h.threads, h.nodes, fun v hv => ?_, gone, hexchanged, ?_⟩
  · rw [hl']
    refine ⟨hfront, hbehind.congr rfl rfl (fun _ _ => rfl) fun v hv => hother v ?_⟩
    rintro rfl
    exact (h.once hl).1.1 hv
  · refine (hother v ?_).trans (h.idle v hv)
    rintro rfl
    rw [hl'] at hv
    exact hv mem_cons_self
  · rw [hl', served, show s'.pc t = pc from update_self ..]
    exact hacquired gone hgone

theorem acquire (hpc : s.pc t = .wait q) (hdone : (s.node q).done = true) :
    (s.acquire t q).Inv := by
  obtain ⟨p, l, hl, hfront, hbehind⟩ := h.front (.inr ⟨q, hpc, hdone⟩)
  rw [Front, hpc] at hfront
  obtain rfl := hfront.1
  refine h.setFront hl hbehind ?_ fun gone hgone => ?_
  · rw [Front, show (s.setPc t (.critical q)).pc t = .critical q from update_self ..]
  · rw [hgone, hl, served, hpc]
    simp [Pc.holds]

/-- The holder goes on in `Unlock`. -/
theorem moveHolder (ht : (s.pc t).holds = true) {pc : Pc Q} (hpc : pc.holds = true)
    (hfront : ∀ q l, s.queue = (t, q) :: l → s.Front t q → s.Behind q l →
      (s.setPc t pc).Front t q) : (s.setPc t pc).Inv := by
  obtain ⟨q, l, hl, hfr, hbehind⟩ := h.front (.inl ht)
  refine h.setFront hl hbehind (hfront q l hl hfr hbehind) fun gone hgone => ?_
  rw [hgone, hl, served, ht, hpc]

/-- The holder has given the lock back, and nobody else has got it yet. -/
theorem leave (hl : s.queue = (t, q) :: l) (ht : (s.pc t).holds = true) (hqueue : s'.queue = l)
    (hpc : s'.pc = update s.pc t .idle) (hexchanged : s'.exchanged = s.exchanged)
    (hacquired : s'.acquired = s.acquired) (hqueued : s'.Queued l) (hserved : s'.served l = []) :
    s'.Inv := by
  obtain ⟨⟨-, hthreads⟩, -, hnodes⟩ := h.once hl
  obtain ⟨gone, hex, hac⟩ := h.history
  rw [← hqueue] at hqueued hserved hthreads hnodes
  refine ⟨hqueued, hthreads, hnodes, fun v hv => ?_, gone ++ [(t, q)], ?_, ?_⟩
  · rw [hpc]
    by_cases hvt : v = t
    · rw [hvt, update_self]
    · rw [update_of_ne hvt]
      refine h.idle v ?_
      rw [hl, map_cons, mem_cons]
      rw [hqueue] at hv
      exact not_or.2 ⟨hvt, hv⟩
  · rw [hexchanged, hex, hl, hqueue, append_assoc, singleton_append]
  · rw [hacquired, hac, hl, hserved, served, ht, if_pos rfl, append_nil]

theorem unlock (hpc : s.pc t = .critical q) :
    (s.setPc t (if (s.node q).next = none then .swap q else .load q)).Inv := by
  refine h.moveHolder (by rw [hpc]; rfl) (by split_ifs <;> rfl) fun p l _ hfront _ => ?_
  rw [Front, hpc] at hfront
  subst hfront
  rw [Front, show State.pc (setPc ..) t = _ from update_self ..]
  split_ifs with hnone
  · rfl
  · exact ⟨rfl, hnone⟩

end Inv

variable [DecidableEq Q]

/-- A new acquisition goes to the end. -/
theorem Behind.enqueue (h : s.Behind p l) (htail : s.tail = some last) (ht : t ∉ l.map Prod.fst)
    (hq : q ∉ p :: l.map Prod.snd) :
    ((s.enqueue t q).setPc t (.link q last)).Behind p (l ++ [(t, q)]) := by
  set s' := (s.enqueue t q).setPc t (.link q last)
  have hnode : ∀ r, r ≠ q → s'.node r = s.node r := fun r hr => update_of_ne hr ..
  have hself : s'.node q = ⟨false, none⟩ := update_self ..
  induction l generalizing p with
  | nil =>
    have hp : p ≠ q := fun heq => hq (by simp [heq])
    obtain rfl : p = last := Option.some.inj (h.1.symm.trans htail)
    refine ⟨by rw [hself], .inl ⟨update_self .., ?_⟩, rfl, by rw [hself]⟩
    rw [hnode p hp]
    exact h.2
  | cons a l ih =>
    obtain ⟨u, r⟩ := a
    obtain ⟨hdone, hlink, hrest⟩ := h
    have hp : p ≠ q := fun heq => hq (by simp [heq])
    have hr : r ≠ q := fun heq => hq (by simp [heq])
    have hu : u ≠ t := fun heq => ht (by simp [heq])
    have hpc : s'.pc u = s.pc u := update_of_ne hu ..
    refine ⟨by rw [hnode r hr, hdone], by rwa [hpc, hnode p hp], ?_⟩
    refine ih hrest (fun hmem => ht ?_) fun hmem => hq ?_
    · exact mem_cons_of_mem _ hmem
    · exact mem_cons_of_mem _ hmem

/-- A waiting thread links its node to the one before it. -/
theorem Behind.link (h : s.Behind p l) (hpc : s.pc t = .link q last) (ht : t ∈ l.map Prod.fst)
    (hthreads : (l.map Prod.fst).Nodup) (hnodes : (p :: l.map Prod.snd).Nodup) :
    ((s.setNode last { s.node last with next := some q }).setPc t (.wait q)).Behind p l := by
  set s' := (s.setNode last { s.node last with next := some q }).setPc t (.wait q)
  have hnode : ∀ r, r ≠ last → s'.node r = s.node r := fun r hr => update_of_ne hr ..
  have hdone : ∀ r, (s'.node r).done = (s.node r).done := by
    intro r
    by_cases hr : r = last
    · rw [hr, show s'.node last = _ from update_self ..]
    · rw [hnode r hr]
  have hother : ∀ v, v ≠ t → s'.pc v = s.pc v := fun v hv => update_of_ne hv ..
  induction l generalizing p with
  | nil => cases ht
  | cons a l ih =>
    obtain ⟨u, r⟩ := a
    obtain ⟨hr, hlink, hrest⟩ := h
    obtain ⟨hp, hnodes⟩ := nodup_cons.1 hnodes
    obtain ⟨hnot, hthreads⟩ := nodup_cons.1 hthreads
    by_cases hu : u = t
    · subst hu
      rcases hlink with ⟨hlink, -⟩ | ⟨hwait, -⟩
      · rw [hpc] at hlink
        cases hlink
        have hself : s'.node last = { s.node last with next := some q } := update_self ..
        refine ⟨(hdone q).trans hr, .inr ⟨update_self .., by rw [hself]⟩, ?_⟩
        refine hrest.congr rfl ?_ (fun r hmem => hnode r ?_) fun v hv => hother v ?_
        · rw [hnode q fun heq => hp (by simp [heq])]
        · rintro rfl
          exact hp (mem_cons_of_mem _ hmem)
        · rintro rfl
          exact hnot hv
      · rw [hpc] at hwait
        cases hwait
    · have hmem : t ∈ l.map Prod.fst := (mem_cons.1 ht).resolve_left (Ne.symm hu)
      -- the node before is further behind
      have hlast : p ≠ last := by
        obtain ⟨q', -, -, ⟨last', hlast', hpc', -⟩ | hwait⟩ := hrest.pc_of_mem hmem
        · rw [hpc] at hpc'
          cases hpc'
          rintro rfl
          exact hp hlast'
        · rw [hpc] at hwait
          cases hwait
      refine ⟨(hdone r).trans hr, by rwa [hother u hu, hnode p hlast], ?_⟩
      exact ih hrest hmem hthreads hnodes

/-! ## The steps -/

namespace Inv

variable (h : s.Inv)

include h

/-- A call that finds the lock free. -/
theorem lockFree (htail : s.tail = none) (t : T) (q : Q) : ((s.enqueue t q).acquire t q).Inv := by
  have hnil := h.queued.tail_eq_none htail
  have hqueue : ((s.enqueue t q).acquire t q).queue = [(t, q)] := by
    change s.queue ++ _ = _
    rw [hnil, nil_append]
  have hpc : ((s.enqueue t q).acquire t q).pc t = .critical q := update_self ..
  have hnode : ((s.enqueue t q).acquire t q).node q = ⟨false, none⟩ := update_self ..
  obtain ⟨gone, hexchanged, hacquired⟩ := h.history
  rw [hnil, append_nil] at hexchanged
  rw [hnil, served, append_nil] at hacquired
  refine ⟨?_, ?_, ?_, fun u hu => ?_, gone, ?_, ?_⟩ <;> rw [hqueue] at *
  · refine ⟨?_, rfl, by rw [hnode]⟩
    rw [Front, hpc]
  · exact nodup_singleton _
  · exact nodup_singleton _
  · have hne : u ≠ t := by simpa using hu
    refine (update_of_ne hne ..).trans (h.idle u ?_)
    simp [hnil]
  · exact congrArg (· ++ [(t, q)]) hexchanged
  · rw [served, hpc, Pc.holds, if_pos rfl]
    exact congrArg (· ++ [(t, q)]) hacquired

theorem lockBehind (hidle : s.pc t = .idle) (htail : s.tail = some last)
    (hq : q ∉ s.queue.map Prod.snd) : ((s.enqueue t q).setPc t (.link q last)).Inv := by
  have ht : t ∉ s.queue.map Prod.fst := fun hmem => h.queued.pc_ne_idle hmem hidle
  have hother : ∀ u, u ≠ t → ((s.enqueue t q).setPc t (.link q last)).pc u = s.pc u :=
    fun u hu => update_of_ne hu ..
  have hnodup : ∀ {α : Type} (f : T × Q → α), (s.queue.map f).Nodup → f (t, q) ∉ s.queue.map f →
      ((s.queue ++ [(t, q)]).map f).Nodup := by
    intro α f hf hnot
    rw [map_append, map_singleton, nodup_append_comm, singleton_append]
    exact nodup_cons.2 ⟨hnot, hf⟩
  obtain ⟨gone, hexchanged, hacquired⟩ := h.history
  refine ⟨?_, hnodup _ h.threads ht, hnodup _ h.nodes hq, fun u hu => ?_, gone, ?_, ?_⟩
  · have hqueued := h.queued
    change Queued _ (s.queue ++ [(t, q)])
    cases hl : s.queue with
    | nil =>
      rw [hl, Queued, htail] at hqueued
      cases hqueued
    | cons a l =>
      obtain ⟨u, p⟩ := a
      rw [hl] at hqueued ht hq
      have hu : u ≠ t := fun heq => ht (by simp [heq])
      have hp : p ≠ q := fun heq => hq (by simp [heq])
      refine ⟨?_, hqueued.2.enqueue htail (fun hmem => ht (mem_cons_of_mem _ hmem)) hq⟩
      have hfront := hqueued.1
      rw [Front] at hfront ⊢
      rwa [hother u hu, show ((s.enqueue t q).setPc t (.link q last)).node p = _ from
        update_of_ne hp ..]
  · have hu : u ∉ s.queue.map Prod.fst ∧ u ≠ t := by
      change u ∉ (s.queue ++ [(t, q)]).map Prod.fst at hu
      simpa [not_or] using hu
    rw [hother u hu.2]
    exact h.idle u hu.1
  · exact (congrArg (· ++ [(t, q)]) hexchanged).trans (append_assoc ..)
  · have hserved : ((s.enqueue t q).setPc t (.link q last)).served (s.queue ++ [(t, q)]) =
        s.served s.queue := by
      cases hl : s.queue with
      | nil =>
        change (if (update s.pc t (.link q last) t).holds then _ else _) = _
        rw [update_self]
        rfl
      | cons a l =>
        have ha : a.1 ≠ t := fun heq => ht (by simp [hl, ← heq])
        rw [cons_append, served, served, hother _ ha]
    exact hacquired.trans (congrArg _ hserved.symm)

omit [DecidableEq T] in
/-- The `QNode` of a `TryLock` that fails. -/
theorem setNode (hq : q ∉ s.queue.map Prod.snd) (n : QNode Q) : (s.setNode q n).Inv := by
  refine ⟨?_, h.threads, h.nodes, h.idle, h.history⟩
  have hnode : ∀ r ∈ s.queue.map Prod.snd, (s.setNode q n).node r = s.node r := by
    intro r hr
    exact update_of_ne (ne_of_mem_of_not_mem hr hq) ..
  have hqueued := h.queued
  change Queued _ s.queue
  cases hl : s.queue with
  | nil =>
    rw [hl] at hqueued
    exact hqueued
  | cons a l =>
    rw [hl] at hqueued hnode
    have hp := hnode a.2 (by simp)
    refine ⟨?_, hqueued.2.congr rfl (by rw [hp]) (fun r hr => hnode r ?_) fun _ _ => rfl⟩
    · have hfront := hqueued.1
      rw [Front] at hfront ⊢
      rwa [hp]
    · exact mem_cons_of_mem _ hr

theorem link (hpc : s.pc t = .link q last) :
    ((s.setNode last { s.node last with next := some q }).setPc t (.wait q)).Inv := by
  set s' := (s.setNode last { s.node last with next := some q }).setPc t (.wait q) with hs'
  have hother : ∀ u, u ≠ t → s'.pc u = s.pc u := fun u hu => update_of_ne hu ..
  obtain ⟨u, p, l, hl, hfront, hbehind, hmem⟩ := h.place (t := t) (by rw [hpc]; simp)
  have hl' : s'.queue = (u, p) :: l := hl
  have hu : u ≠ t := by
    rintro rfl
    rw [Front, hpc] at hfront
    exact hfront
  have hmem : t ∈ l.map Prod.fst := hmem.resolve_left (Ne.symm hu)
  obtain ⟨⟨-, hthreads⟩, hnodes⟩ := h.once hl
  obtain ⟨gone, hexchanged, hacquired⟩ := h.history
  refine ⟨?_, h.threads, h.nodes, fun v hv => ?_, gone, hexchanged, hacquired.trans ?_⟩
  · rw [hl']
    refine ⟨?_, hbehind.link hpc hmem hthreads (nodup_cons.2 hnodes)⟩
    rw [Front] at hfront ⊢
    rw [hother u hu]
    by_cases hp : p = last
    · -- the node in front had no successor before
      have hnone : (s.node p).next = none := by
        obtain ⟨q', -, -, ⟨last', -, hpc', hnone⟩ | hwait⟩ := hbehind.pc_of_mem hmem
        · rw [hpc] at hpc'
          cases hpc'
          rw [hp]
          exact hnone
        · rw [hpc] at hwait
          cases hwait
      have hnode : s'.node p = { s.node p with next := some q } := by
        rw [hp]
        exact update_self ..
      rw [hnode]
      rw [hnone] at hfront
      revert hfront
      cases s.pc u <;> simp
    · rwa [show s'.node p = s.node p from update_of_ne hp ..]
  · refine (hother v ?_).trans (h.idle v hv)
    rintro rfl
    rw [hl'] at hv
    exact hv (mem_cons_of_mem _ hmem)
  · rw [hl, hl', served, served, hother _ hu]

theorem leaveLast (hpc : s.pc t = .swap q) (htail : s.tail = some q) :
    ({ s with tail := none }.release t q).Inv := by
  have hl := h.queue_eq hpc htail
  refine h.leave hl (by rw [hpc]; rfl) ?_ rfl rfl rfl rfl rfl
  change s.queue.erase (t, q) = []
  rw [hl, erase_cons_head]

theorem handOver (hpc : s.pc t = .store p q) :
    ((s.setNode q { s.node q with done := true }).release t p).Inv := by
  set s' := (s.setNode q { s.node q with done := true }).release t p
  obtain ⟨u, l, hl, hwait, hrest⟩ := h.next_spec hpc
  obtain ⟨⟨ht, -⟩, -, hnodes⟩ := h.once hl
  have hq := (nodup_cons.1 hnodes).1
  have hself : s'.node q = { s.node q with done := true } := update_self ..
  have hother : ∀ v ∈ u :: l.map Prod.fst, s'.pc v = s.pc v := fun v hv =>
    update_of_ne (ne_of_mem_of_not_mem hv ht) ..
  have hpcu : s'.pc u = .wait q := (hother u mem_cons_self).trans hwait
  refine h.leave hl (by rw [hpc]; rfl) ?_ rfl rfl rfl ⟨?_, ?_⟩ ?_
  · change s.queue.erase (t, p) = _
    rw [hl, erase_cons_head]
  · rw [Front, hpcu]
    exact ⟨rfl, by rw [hself]⟩
  · refine hrest.congr rfl (by rw [hself]) (fun r hr => ?_) fun v hv => hother v ?_
    · exact update_of_ne (ne_of_mem_of_not_mem hr hq) ..
    · exact mem_cons_of_mem _ hv
  · rw [served, hpcu]
    rfl

theorem advance (hs : s.advance t (s.pc t) = some s') : s'.Inv := by
  cases hpc : s.pc t with
  | idle | critical q =>
    rw [hpc] at hs
    cases hs
  | link q last =>
    rw [hpc] at hs
    cases hs
    exact h.link hpc
  | wait q =>
    rw [hpc] at hs
    cases hs
    split_ifs with hdone
    · exact h.acquire hpc hdone
    · exact h
  | swap q =>
    rw [hpc] at hs
    cases hs
    split_ifs with htail
    · exact h.leaveLast hpc htail
    · refine h.moveHolder (by rw [hpc]; rfl) rfl fun p l _ hfront _ => ?_
      rw [Front, hpc] at hfront
      rw [Front, show State.pc (setPc ..) t = _ from update_self ..]
      exact hfront
  | spin q =>
    rw [hpc] at hs
    cases hs
    split_ifs with hnone
    · exact h
    · refine h.moveHolder (by rw [hpc]; rfl) rfl fun p l _ hfront _ => ?_
      rw [Front, hpc] at hfront
      subst hfront
      rw [Front, show State.pc (setPc ..) t = _ from update_self ..]
      exact ⟨rfl, hnone⟩
  | load q =>
    rw [hpc] at hs
    obtain ⟨n, hn, rfl⟩ := Option.map_eq_some_iff.1 hs
    refine h.moveHolder (by rw [hpc]; rfl) rfl fun p l _ hfront _ => ?_
    rw [Front, hpc] at hfront
    obtain ⟨rfl, -⟩ := hfront
    rw [Front, show State.pc (setPc ..) t = _ from update_self ..]
    exact ⟨rfl, hn⟩
  | store q n =>
    rw [hpc] at hs
    cases hs
    exact h.handOver hpc

theorem step {e : T × Event Q} (hs : s.step e = some s') : s'.Inv := by
  obtain ⟨t, e⟩ := e
  cases e with
  | lock q =>
    obtain ⟨⟨hidle, hq⟩, hs⟩ := Option.ite_none_right_eq_some.1 hs
    split at hs <;> cases hs
    · rename_i htail
      exact h.lockFree htail t q
    · rename_i last htail
      exact h.lockBehind hidle htail hq
  | tryLock q =>
    obtain ⟨⟨-, hq⟩, hs⟩ := Option.ite_none_right_eq_some.1 hs
    split at hs <;> cases hs
    · rename_i htail
      exact h.lockFree htail t q
    · exact h.setNode hq _
  | unlock =>
    rw [State.step] at hs
    split at hs
    · rename_i q hpc
      cases hs
      exact h.unlock hpc
    · cases hs
  | advance => exact h.advance hs

end Inv

/-! ## Runs -/

/-- What the lock guarantees: one thread has it, and the threads get it in the order of their
exchanges. `TryLock` gets it when no thread has it or waits for it. When a thread gives it back and
others wait, the flag of the next one is set. -/
structure Orderly (s : State T Q) : Prop where
  exclusive : ∀ t u, (s.pc t).holds = true → (s.pc u).holds = true → t = u
  inOrder : s.acquired <+: s.exchanged
  tryLock : ∀ t q s', s.step (t, .tryLock q) = some s' → (s'.pc t).holds = true →
    ∀ u, s.pc u = .idle
  handOver : ∀ t e s', s.step (t, e) = some s' → (s.pc t).holds = true →
    (s'.pc t).holds = false → (∃ u, (s.pc u).waits = true) →
      ∃ u q, s.exchanged[s.acquired.length]? = some (u, q) ∧ s'.pc u = .wait q ∧
        (s'.node q).done = true

theorem Inv.free_of_tryLock (h : s.Inv) (hs : s.step (t, .tryLock q) = some s')
    (ht : (s'.pc t).holds = true) (u : T) : s.pc u = .idle := by
  obtain ⟨⟨hidle, -⟩, hs⟩ := Option.ite_none_right_eq_some.1 hs
  split at hs
  · rename_i htail
    refine h.idle u ?_
    rw [h.queued.tail_eq_none htail]
    exact not_mem_nil
  · cases hs
    change (s.pc t).holds = true at ht
    rw [hidle] at ht
    cases ht

/-- The two ways to give the lock back. -/
theorem unlocked {e : Event Q} (hs : s.step (t, e) = some s')
    (ht : (s.pc t).holds = true) (ht' : (s'.pc t).holds = false) :
    (∃ q, s.pc t = .swap q ∧ s.tail = some q) ∨ ∃ p q, s.pc t = .store p q ∧
      s' = (s.setNode q { s.node q with done := true }).release t p := by
  have hself : ∀ pc : Pc Q, (s.setPc t pc).pc t = pc := fun pc => update_self ..
  cases e with
  | lock q | tryLock q =>
    obtain ⟨⟨hidle, -⟩, -⟩ := Option.ite_none_right_eq_some.1 hs
    rw [hidle] at ht
    cases ht
  | unlock =>
    rw [State.step] at hs
    split at hs <;> cases hs
    rw [hself] at ht'
    split_ifs at ht' <;> cases ht'
  | advance =>
    rw [State.step] at hs
    cases hpc : s.pc t with
    | idle | critical q =>
      rw [hpc] at hs
      cases hs
    | link q last | wait q =>
      rw [hpc] at ht
      cases ht
    | swap q =>
      rw [hpc] at hs
      cases hs
      split_ifs at ht' with htail
      · exact .inl ⟨q, rfl, htail⟩
      · rw [hself] at ht'
        cases ht'
    | spin q =>
      rw [hpc] at hs
      cases hs
      split_ifs at ht'
      · rw [ht] at ht'
        cases ht'
      · rw [hself] at ht'
        cases ht'
    | load q =>
      rw [hpc] at hs
      obtain ⟨n, -, rfl⟩ := Option.map_eq_some_iff.1 hs
      rw [hself] at ht'
      cases ht'
    | store p q =>
      rw [hpc] at hs
      cases hs
      exact .inr ⟨p, q, rfl, rfl⟩

theorem Inv.handsOver (h : s.Inv) {e : Event Q} (hs : s.step (t, e) = some s')
    (ht : (s.pc t).holds = true) (ht' : (s'.pc t).holds = false)
    (hwait : ∃ u, (s.pc u).waits = true) :
    ∃ u q, s.exchanged[s.acquired.length]? = some (u, q) ∧ s'.pc u = .wait q ∧
      (s'.node q).done = true := by
  rcases unlocked hs ht ht' with ⟨q, hpc, htail⟩ | ⟨p, q, hpc, rfl⟩
  · -- nobody else is in the queue
    obtain ⟨u, hu⟩ := hwait
    have hidle : s.pc u ≠ .idle := by
      intro hidle
      rw [hidle] at hu
      cases hu
    obtain ⟨v, r, l, hl, -, -, hmem⟩ := h.place hidle
    rw [h.queue_eq hpc htail] at hl
    cases hl
    rcases hmem with rfl | hmem
    · rw [hpc] at hu
      cases hu
    · cases hmem
  · obtain ⟨u, l, hl, hpcu, -⟩ := h.next_spec hpc
    obtain ⟨gone, hexchanged, hacquired⟩ := h.history
    have hne : u ≠ t := by
      rintro rfl
      rw [hpc] at hpcu
      cases hpcu
    refine ⟨u, q, ?_, (update_of_ne hne ..).trans hpcu, ?_⟩
    swap
    · change (update s.node q _ q).done = true
      rw [update_self]
    rw [hl, served, hpc] at hacquired
    rw [hexchanged, hacquired, hl]
    simp [Pc.holds]

/-- **The MCS lock excludes and hands over in order.** -/
theorem mcs_orderly (node : Q → QNode Q) (es : List (T × Event Q)) (s : State T Q)
    (hrun : run step (init node) es = some s) : s.Orderly := by
  have h : s.Inv := run_induction (fun _ _ _ h => h.step) (inv_init node) hrun
  exact ⟨fun _ _ => h.exclusive, h.inOrder, fun _ _ _ => h.free_of_tryLock,
    fun _ _ _ => h.handsOver⟩

/-- The second thread is behind the first one, and has not linked its node when the first one
unlocks. -/
def gapRun : List (Bool × Event ℕ) :=
  [(false, .tryLock 0), (true, .lock 1), (false, .unlock), (false, .advance), (true, .advance),
    (false, .advance), (false, .advance)]

theorem mcs_orderly_gapRun : ∃ s s' : State Bool ℕ,
    run step (init fun _ => ⟨true, none⟩) gapRun = some s ∧ s.Orderly ∧ s.pc true = .wait 1 ∧
      s.step (false, .advance) = some s' ∧ (s'.node 1).done = true := by
  obtain ⟨s, hs, hpc, hstep⟩ : ∃ s, run step (init fun _ => ⟨true, none⟩) gapRun = some s ∧
      s.pc true = .wait 1 ∧ ∃ s', s.step (false, .advance) = some s' ∧
        (s'.node 1).done = true := by decide +kernel
  obtain ⟨s', hs', hdone⟩ := hstep
  exact ⟨s, s', hs, mcs_orderly _ gapRun s hs, hpc, hs', hdone⟩

end State

end Felis.Util.McsLock
