import Felis.Foundations.Runs

/-!
# The scheduler of the dependency graph

`PWVScheduler` keeps one entry for every transaction that has pieces on its core. An entry is in one
of three lists: `inactive` until the graph notifies that the transaction is free, then `free`, and
`rvp` while all the pieces left are rendezvous points (RVPs) with a non-zero in-degree. The owner of
the core picks a piece of the first free entry and consumes it. The other cores decrement the
in-degrees of the rendezvous points; the one that comes to zero goes on to notify the scheduler, in
a step of its own.

The sections under `qlock` are single steps. A section reads the in-degrees one after the other
while other cores decrement them. Such a decrement may be put before the section if the section sees
it and after the section otherwise, as its notification has to wait for the lock.
-/

namespace Felis.Pwv.Scheduler

open Runs Function List Option

variable {K V : Type} [DecidableEq K]

/-- What is fixed about the pieces: the key of a piece is the serial id of its transaction. -/
structure Pieces (K V : Type) where
  key : V → K
  isRvp : V → Bool

/-- The scheduler, with the entry of a transaction named by the key. -/
structure State (K V : Type) where
  free : List K
  inactive : List K
  rvp : List K
  values : K → List V
  inRvpQueue : K → Bool
  nrFree : ℕ
  len : ℕ
  isGraphBuilt : Bool
  indegree : V → ℕ
  /-- How many cores have seen an in-degree come to zero and have yet to call `OnNodeRVPChange`. -/
  outstanding : K → ℕ
  /-- The transactions that `OnNodeFree` has been called for. -/
  notified : K → Bool
  /-- The piece that the owner has picked and not consumed yet. -/
  picked : Option V

inductive Event (K V : Type)
  | ingestPending (v : V)
  | onNodeFree (k : K)
  | graphBuilt
  | decrement (v : V)
  | onNodeRvpChange (k : K)
  | pick
  | consume

/-- The `abort_if`s of `Consume`. -/
inductive Abort
  /-- "PWV: cannot Consume() because free is empty" -/
  | freeEmpty
  /-- "PWV: consume a different ptr than pick!" -/
  | differentPtr

/-- An empty scheduler, with the given in-degrees of the rendezvous points. -/
def init (indegree : V → ℕ) : State K V where
  free := []
  inactive := []
  rvp := []
  values := fun _ => []
  inRvpQueue := fun _ => false
  nrFree := 0
  len := 0
  isGraphBuilt := false
  indegree := indegree
  outstanding := fun _ => 0
  notified := fun _ => false
  picked := none

/-- `!info->is_rvp || info->indegree == 0` -/
def State.runnable (p : Pieces K V) (s : State K V) (v : V) : Bool :=
  !p.isRvp v || s.indegree v == 0

section

variable [DecidableEq V]

/-- `it->Remove(); it->InsertAfter(values)` -/
def moveToHead (v : V) (values : List V) : List V := v :: values.erase v

/-- `PWVScheduler::IngestPending`. -/
def ingestPending (p : Pieces K V) (s : State K V) (v : V) : Option (State K V) :=
  if s.isGraphBuilt then none
  else
    let k := p.key v
    let s' :=
      if s.values k = [] then
        { s with
          inactive := s.inactive ++ [k]
          inRvpQueue := update s.inRvpQueue k false
          len := s.len + 1 }
      else s
    some { s' with
      values := update s.values k
        (if s.runnable p v then v :: s.values k else s.values k ++ [v]) }

/-- `PWVScheduler::OnNodeFreeImpl`. The graph calls it at most once for a transaction, and only for
one that has been ingested. -/
def onNodeFree (s : State K V) (k : K) : Option (State K V) :=
  if s.notified k = true ∨ s.values k = [] then none
  else
    some { s with
      inactive := s.inactive.erase k
      free := s.free ++ [k]
      nrFree := s.nrFree + 1
      notified := update s.notified k true }

/-- `indegree.fetch_sub(1)`; when this was the last one, a notification follows. -/
def decrement (p : Pieces K V) (s : State K V) (v : V) : Option (State K V) :=
  if p.isRvp v = false ∨ s.indegree v = 0 then none
  else
    let k := p.key v
    some { s with
      indegree := update s.indegree v (s.indegree v - 1)
      outstanding :=
        if s.indegree v = 1 then update s.outstanding k (s.outstanding k + 1)
        else s.outstanding }

/-- `PWVScheduler::OnNodeRVPChangeImpl`. -/
def onNodeRvpChange (p : Pieces K V) (s : State K V) (k : K) : Option (State K V) :=
  if s.outstanding k = 0 then none
  else
    let s := { s with outstanding := update s.outstanding k (s.outstanding k - 1) }
    if s.isGraphBuilt = false then some s
    else if s.inRvpQueue k then
      let s' := { s with
        rvp := s.rvp.erase k
        free := s.free ++ [k]
        inRvpQueue := update s.inRvpQueue k false }
      match (s.values k).find? (s.runnable p) with
      | some v =>
        some { s' with
          values := update s.values k (moveToHead v (s.values k))
          nrFree := s.nrFree + 1 }
      | none => some s'
    else some s

/-- One round of the loop of `PWVScheduler::Pick`, which is in front of the lock while `nr_free` is
zero. The head of an empty list is no entry. -/
def pick (p : Pieces K V) (s : State K V) : Option (State K V) :=
  if s.isGraphBuilt = false ∨ s.picked ≠ none ∨ s.nrFree = 0 then none
  else
    match s.free with
    | [] => none
    | k :: free =>
      match (s.values k).find? (s.runnable p) with
      | some v =>
        some { s with
          values := update s.values k (moveToHead v (s.values k))
          picked := some v }
      | none =>
        some { s with
          free := free
          rvp := s.rvp ++ [k]
          inRvpQueue := update s.inRvpQueue k true
          nrFree := s.nrFree - 1 }

/-- `PWVScheduler::Consume`. -/
def consume (s : State K V) (v : V) : Except Abort (State K V) :=
  match s.free with
  | [] => .error .freeEmpty
  | k :: free =>
    if (s.values k).head? ≠ some v then .error .differentPtr
    else
      let s' := { s with
        values := update s.values k (s.values k).tail
        picked := none }
      if (s.values k).tail = [] then
        .ok { s' with
          free := free
          len := s.len - 1
          nrFree := s.nrFree - 1 }
      else .ok s'

def step (p : Pieces K V) (s : State K V) : Event K V → Option (State K V)
  | .ingestPending v => ingestPending p s v
  | .onNodeFree k => onNodeFree s k
  | .graphBuilt => if s.isGraphBuilt then none else some { s with isGraphBuilt := true }
  | .decrement v => decrement p s v
  | .onNodeRvpChange k => onNodeRvpChange p s k
  | .pick => pick p s
  | .consume => s.picked.bind fun v => (consume s v).toOption

end

/-! ## The invariant -/

structure Inv (p : Pieces K V) (s : State K V) : Prop where
  nrFree : s.nrFree = s.free.length
  len : s.len = s.free.length + s.inactive.length + s.rvp.length
  /-- An entry with pieces is in one place, and one without pieces is nowhere. -/
  place : ∀ k, s.free.count k + s.inactive.count k + s.rvp.count k =
    if s.values k = [] then 0 else 1
  keys : ∀ k, ∀ v ∈ s.values k, p.key v = k
  inRvpQueue : ∀ k, s.inRvpQueue k = true ↔ k ∈ s.rvp
  inactive : ∀ k, k ∈ s.inactive → s.notified k = false
  notified : ∀ k, k ∈ s.free ∨ k ∈ s.rvp → s.notified k = true
  /-- A piece that became runnable in the RVP queue has its notification on the way. -/
  waiting : ∀ k ∈ s.rvp, ∀ v ∈ s.values k, s.runnable p v = true → 0 < s.outstanding k
  picked : ∀ v, s.picked = some v → ∃ k, s.free.head? = some k ∧ (s.values k).head? = some v
  unbuilt : s.isGraphBuilt = false →
    s.rvp = [] ∧ s.picked = none ∧ ∀ k, s.notified k = true → s.values k ≠ []

theorem inv_init (p : Pieces K V) (indegree : V → ℕ) : Inv p (init indegree) := by
  constructor <;> simp [init]

namespace Inv

variable {p : Pieces K V} {s t : State K V} {k : K} {vs : List V}

variable (h : Inv p s)

include h

/-- The entries of a list have pieces. -/
theorem values_ne_nil (hk : k ∈ s.free ∨ k ∈ s.inactive ∨ k ∈ s.rvp) : s.values k ≠ [] := by
  intro hnil
  have hplace := h.place k
  rw [if_pos hnil] at hplace
  have := fun l : List K => count_pos_iff (a := k) (l := l)
  grind

/-- An entry is in at most one list. -/
theorem not_mem_of_mem_rvp (hk : k ∈ s.rvp) : k ∉ s.free ∧ k ∉ s.inactive := by
  have hnot := h.notified k (.inr hk)
  have hplace := h.place k
  have hpos := count_pos_iff.2 hk
  rw [if_neg (h.values_ne_nil (.inr (.inr hk)))] at hplace
  constructor <;> (rw [← List.count_eq_zero]; omega)

/-- Without the notification an entry is still inactive. -/
theorem mem_inactive (hne : s.values k ≠ []) (hnot : s.notified k = false) : k ∈ s.inactive := by
  have hplace := h.place k
  rw [if_neg hne] at hplace
  have hout : k ∉ s.free ∧ k ∉ s.rvp := by
    constructor <;> (intro hk; simp [h.notified k (by simp [hk])] at hnot)
  rw [List.count_eq_zero.2 hout.1, List.count_eq_zero.2 hout.2] at hplace
  exact count_pos_iff.1 (by omega)

theorem keys_update (hkeys : ∀ v ∈ vs, p.key v = k) :
    ∀ k', ∀ v ∈ update s.values k vs k', p.key v = k' := by
  intro k' v hv
  by_cases hk : k' = k
  · subst hk
    exact hkeys v (by simpa using hv)
  · exact h.keys k' v (by simpa [hk] using hv)

/-- More pieces for an entry before the graph is built. -/
theorem setValues (hb : s.isGraphBuilt = false) (hne : s.values k ≠ []) (hvs : vs ≠ [])
    (hkeys : ∀ v ∈ vs, p.key v = k) : Inv p { s with values := update s.values k vs } := by
  obtain ⟨hrvp, hpick, hnot⟩ := h.unbuilt hb
  have hnil : ∀ k', update s.values k vs k' = [] ↔ s.values k' = [] := by
    intro k'
    by_cases hk : k' = k
    · subst hk
      simp [hne, hvs]
    · rw [update_of_ne hk]
  exact { h with
    place := fun k' => by simpa only [hnil] using h.place k'
    keys := h.keys_update hkeys
    waiting := by simp [hrvp]
    picked := by simp [hpick]
    unbuilt := fun _ => ⟨hrvp, hpick, fun k' hk' => by simpa only [ne_eq, hnil] using hnot k' hk'⟩ }

theorem newEntry (hb : s.isGraphBuilt = false) (hnil : s.values k = []) (hvs : vs ≠ [])
    (hkeys : ∀ v ∈ vs, p.key v = k) :
    Inv p { s with
      inactive := s.inactive ++ [k]
      inRvpQueue := update s.inRvpQueue k false
      len := s.len + 1
      values := update s.values k vs } := by
  obtain ⟨hrvp, hpick, hnot⟩ := h.unbuilt hb
  have hknot : s.notified k = false := by
    by_contra hk
    exact hnot k (by simpa using hk) hnil
  exact { h with
    len := by simp [h.len]; omega
    place := by
      intro k'
      have := h.place k'
      by_cases hk : k' = k
      · subst hk
        simp_all
      · simp_all [Ne.symm hk]
    keys := h.keys_update hkeys
    inRvpQueue := by
      intro k'
      have := h.inRvpQueue k'
      by_cases hk : k' = k <;> simp_all
    inactive := by
      intro k' hk'
      rcases mem_append.1 hk' with hk' | hk'
      · exact h.inactive k' hk'
      · rwa [mem_singleton.1 hk']
    waiting := by simp [hrvp]
    picked := by simp [hpick]
    unbuilt := by
      refine fun _ => ⟨hrvp, hpick, fun k' hk' => ?_⟩
      have := hnot k' hk'
      by_cases hk : k' = k <;> simp_all }

theorem ingestPending {v : V} (ht : ingestPending p s v = some t) : Inv p t := by
  unfold Scheduler.ingestPending at ht
  split at ht
  · cases ht
  next hb =>
    rw [Bool.not_eq_true] at hb
    dsimp only at ht
    have hvs : (if s.runnable p v then v :: s.values (p.key v)
        else s.values (p.key v) ++ [v]) ≠ [] := by
      split <;> simp
    have hkeys : ∀ w ∈ (if s.runnable p v then v :: s.values (p.key v)
        else s.values (p.key v) ++ [v]), p.key w = p.key v := by
      intro w hw
      have hmem : w = v ∨ w ∈ s.values (p.key v) := by
        split at hw <;> simpa [or_comm] using hw
      rcases hmem with rfl | hw
      · rfl
      · exact h.keys _ w hw
    by_cases hnil : s.values (p.key v) = []
    · rw [if_pos hnil] at ht
      cases ht
      exact h.newEntry hb hnil hvs hkeys
    · rw [if_neg hnil] at ht
      cases ht
      exact h.setValues hb hnil hvs hkeys

theorem onNodeFree (ht : onNodeFree s k = some t) : Inv p t := by
  unfold Scheduler.onNodeFree at ht
  split at ht
  · cases ht
  next hnot =>
    rw [not_or, Bool.not_eq_true] at hnot
    have hmem := h.mem_inactive hnot.2 hnot.1
    have hpos := count_pos_iff.2 hmem
    have hone := h.place k
    rw [if_neg hnot.2] at hone
    cases ht
    exact { h with
      nrFree := by simp [h.nrFree]
      len := by
        have := length_pos_of_mem hmem
        simp [h.len, length_erase_of_mem hmem]
        omega
      place := by
        intro k'
        have := h.place k'
        by_cases hk : k = k'
        · subst hk
          simp
          omega
        · simpa [count_erase_of_ne (Ne.symm hk), hk] using this
      inactive := by
        intro k' hk'
        by_cases hk : k' = k
        · subst hk
          have := count_pos_iff.2 hk'
          simp at this
          omega
        · simpa [hk] using h.inactive k' (mem_of_mem_erase hk')
      notified := by
        intro k' hk'
        by_cases hk : k' = k
        · simp [hk]
        · simpa [hk] using h.notified k' (by simpa [hk] using hk')
      picked := by
        intro v hv
        obtain ⟨k', hk', hv'⟩ := h.picked v hv
        exact ⟨k', by simp [hk'], hv'⟩
      unbuilt := by
        intro hb
        obtain ⟨hrvp, hpick, hne⟩ := h.unbuilt hb
        refine ⟨hrvp, hpick, fun k' hk' => ?_⟩
        by_cases hk : k' = k
        · exact hk ▸ hnot.2
        · exact hne k' (by simpa [hk] using hk') }

theorem reorder (hvs : vs.Perm (s.values k)) (hhead : s.free.head? = some k → s.picked = none) :
    Inv p { s with values := update s.values k vs } := by
  have hperm : ∀ k', (update s.values k vs k').Perm (s.values k') := by
    intro k'
    by_cases hk : k' = k
    · subst hk
      simpa using hvs
    · rw [update_of_ne hk]
  have hnil : ∀ k', update s.values k vs k' = [] ↔ s.values k' = [] :=
    fun k' => ⟨fun h => by simpa [h] using (hperm k').symm, fun h => by simpa [h] using hperm k'⟩
  exact { h with
    place := fun k' => by simpa only [hnil] using h.place k'
    keys := fun k' v hv => h.keys k' v ((hperm k').mem_iff.1 hv)
    waiting := fun k' hk' v hv => h.waiting k' hk' v ((hperm k').mem_iff.1 hv)
    picked := by
      intro v hv
      obtain ⟨k', hk', hv'⟩ := h.picked v hv
      have hne : k' ≠ k := by
        rintro rfl
        simp [hhead hk'] at hv
      exact ⟨k', hk', by simpa [hne] using hv'⟩
    unbuilt := fun hb =>
      let ⟨hrvp, hpick, hne⟩ := h.unbuilt hb
      ⟨hrvp, hpick, fun k' hk' => by simpa only [ne_eq, hnil] using hne k' hk'⟩ }

/-- A notification for an entry that is not in the RVP queue. -/
theorem deliver (hk : k ∉ s.rvp) (n : ℕ) :
    Inv p { s with outstanding := update s.outstanding k n } := { h with
  waiting := by
    intro k' hk' v hv hrun
    have hne : k' ≠ k := fun heq => hk (heq ▸ hk')
    simpa [hne] using h.waiting k' hk' v hv hrun }

/-- An entry goes from the RVP queue to the free list. -/
theorem wake (hk : k ∈ s.rvp) (n : ℕ) :
    Inv p { s with
      rvp := s.rvp.erase k
      free := s.free ++ [k]
      inRvpQueue := update s.inRvpQueue k false
      nrFree := s.nrFree + 1
      outstanding := update s.outstanding k n } := by
  have hpos := count_pos_iff.2 hk
  have hone := h.place k
  rw [if_neg (h.values_ne_nil (.inr (.inr hk)))] at hone
  have hout : k ∉ s.rvp.erase k := by
    rw [← List.count_eq_zero, count_erase_self]
    omega
  have hne : ∀ k' ∈ s.rvp.erase k, k' ≠ k := fun k' hk' heq => hout (heq ▸ hk')
  exact { h with
    nrFree := by simp [h.nrFree]
    len := by
      have := length_pos_of_mem hk
      simp [h.len, length_erase_of_mem hk]
      omega
    place := by
      intro k'
      have := h.place k'
      by_cases hk' : k = k'
      · subst hk'
        simp
        omega
      · simpa [count_erase_of_ne (Ne.symm hk'), hk'] using this
    inRvpQueue := by
      intro k'
      by_cases hk' : k' = k
      · simp [hk', hout]
      · simpa [hk', mem_erase_of_ne hk'] using h.inRvpQueue k'
    notified := by
      intro k' hk'
      apply h.notified k'
      rcases hk' with hk' | hk'
      · rcases mem_append.1 hk' with hk' | hk'
        · exact .inl hk'
        · exact .inr (mem_singleton.1 hk' ▸ hk)
      · exact .inr (mem_of_mem_erase hk')
    waiting := by
      intro k' hk' v hv hrun
      simpa [hne k' hk'] using h.waiting k' (mem_of_mem_erase hk') v hv hrun
    picked := by
      intro v hv
      obtain ⟨k', hk', hv'⟩ := h.picked v hv
      exact ⟨k', by simp [hk'], hv'⟩
    unbuilt := by
      intro hb
      simp [(h.unbuilt hb).1] at hk }

/-- The first free entry, with no runnable piece, goes to the RVP queue. -/
theorem park {free : List K} (hfree : s.free = k :: free) (hb : s.isGraphBuilt = true)
    (hpick : s.picked = none) (hrun : ∀ v ∈ s.values k, s.runnable p v = false) :
    Inv p { s with
      free := free
      rvp := s.rvp ++ [k]
      inRvpQueue := update s.inRvpQueue k true
      nrFree := s.nrFree - 1 } := { h with
  nrFree := by simp [h.nrFree, hfree]
  len := by
    simp [h.len, hfree]
    omega
  place := by
    intro k'
    have := h.place k'
    rw [hfree] at this
    simp only [count_append, count_cons, count_nil] at this ⊢
    omega
  inRvpQueue := by
    intro k'
    by_cases hk : k' = k
    · simp [hk]
    · simpa [hk] using h.inRvpQueue k'
  notified := by
    intro k' hk'
    apply h.notified k'
    rw [hfree]
    simp only [mem_append, mem_cons] at hk' ⊢
    tauto
  waiting := by
    intro k' hk' v hv hr
    rcases mem_append.1 hk' with hk' | hk'
    · exact h.waiting k' hk' v hv hr
    · rw [mem_singleton.1 hk'] at hv
      have hr : s.runnable p v = true := hr
      simp [hrun v hv] at hr
  picked := by simp [hpick]
  unbuilt := by simp [hb] }

/-- The picked piece is the first one of the first free entry. -/
theorem picked_eq {v : V} (hv : s.picked = some v) :
    ∃ k free vs, s.free = k :: free ∧ s.values k = v :: vs := by
  obtain ⟨k, hk, hv⟩ := h.picked v hv
  obtain ⟨free, hfree⟩ := List.head?_eq_some_iff.1 hk
  obtain ⟨vs, hvs⟩ := List.head?_eq_some_iff.1 hv
  exact ⟨k, free, vs, hfree, hvs⟩

variable [DecidableEq V]

/-- A piece with one in-degree less: when it becomes runnable, its notification is outstanding. -/
theorem decrement {v : V} (ht : decrement p s v = some t) : Inv p t := by
  unfold Scheduler.decrement at ht
  split at ht
  · cases ht
  next hpos =>
    rw [not_or] at hpos
    cases ht
    refine { h with waiting := fun k hk w hw hrun => ?_ }
    dsimp only at hk hw ⊢
    have hle : s.outstanding k ≤ (if s.indegree v = 1 then
        update s.outstanding (p.key v) (s.outstanding (p.key v) + 1)
        else s.outstanding) k := by
      split
      · by_cases hkv : k = p.key v <;> simp [hkv]
      · exact Nat.le_refl _
    by_cases hwv : w = v ∧ s.indegree v = 1
    · obtain ⟨rfl, hone⟩ := hwv
      rw [if_pos hone, h.keys k w hw]
      simp
    · apply Nat.lt_of_lt_of_le (h.waiting k hk w hw ?_) hle
      by_cases hv : w = v
      · subst hv
        have : s.indegree w - 1 ≠ 0 := by
          have := hpos.2
          have : s.indegree w ≠ 1 := fun hone => hwv ⟨rfl, hone⟩
          omega
        simpa [State.runnable, this, hpos.2] using hrun
      · simpa [State.runnable, hv] using hrun

theorem pick (ht : pick p s = some t) : Inv p t := by
  unfold Scheduler.pick at ht
  split at ht
  · cases ht
  next hcond =>
    simp only [not_or, Bool.not_eq_false, not_not] at hcond
    obtain ⟨hb, hpick, -⟩ := hcond
    split at ht
    · cases ht
    next k free hfree =>
      split at ht
      next v hv =>
        have hmem := mem_of_find?_eq_some hv
        cases ht
        -- The entry stays at the head of the free list, now with the picked piece in front.
        have hord := h.reorder (k := k) (perm_cons_erase hmem).symm fun _ => hpick
        exact { hord with
          waiting := hord.waiting
          picked := by
            rintro _ ⟨⟩
            exact ⟨k, by simp [hfree], by simp [moveToHead]⟩
          unbuilt := by simp [hb] }
      next hnone =>
        cases ht
        exact h.park hfree hb hpick fun v hv => by simpa using List.find?_eq_none.1 hnone v hv

/-- A notification, under the condition that it finds a runnable piece in an entry of the RVP
queue. -/
theorem onNodeRvpChange (hrun : s.inRvpQueue k = true → ∃ v ∈ s.values k, s.runnable p v = true)
    (ht : onNodeRvpChange p s k = some t) : Inv p t := by
  unfold Scheduler.onNodeRvpChange at ht
  split at ht
  · cases ht
  dsimp only at ht
  split_ifs at ht with hb hq
  · cases ht
    exact h.deliver (by simp [(h.unbuilt hb).1]) _
  · have hk := (h.inRvpQueue k).1 hq
    obtain ⟨v, hv, hr⟩ := hrun hq
    split at ht
    next w hw =>
      cases ht
      have hmem := mem_of_find?_eq_some hw
      have hwake := h.wake hk (s.outstanding k - 1)
      -- The entry is not the first one of the free list when a piece is picked.
      have hhead : (s.free ++ [k]).head? = some k → s.picked = none := by
        intro hhead
        by_contra hne
        obtain ⟨u, hu⟩ := ne_none_iff_exists'.1 hne
        obtain ⟨k', hk', -⟩ := h.picked u hu
        obtain rfl : k' = k := by simpa [hk'] using hhead
        exact (h.not_mem_of_mem_rvp hk).1 (mem_of_head? hk')
      exact hwake.reorder (k := k) (perm_cons_erase hmem).symm hhead
    next hnone => exact absurd hr (List.find?_eq_none.1 hnone v hv)
  · cases ht
    exact h.deliver (fun hk => hq ((h.inRvpQueue k).2 hk)) _

theorem consume_ok {v : V} (hv : s.picked = some v) : ∃ t, consume s v = .ok t := by
  obtain ⟨k, free, vs, hfree, hvs⟩ := h.picked_eq hv
  rw [consume, hfree]
  simp only [hvs, List.head?_cons, ne_eq, not_true_eq_false, ↓reduceIte, tail_cons]
  split_ifs <;> simp

theorem consume {v : V} (hv : s.picked = some v) (ht : consume s v = .ok t) : Inv p t := by
  obtain ⟨k, free, vs, hfree, hvs⟩ := h.picked_eq hv
  have hb : s.isGraphBuilt = true := by
    by_contra hb
    simp [(h.unbuilt (by simpa using hb)).2.1] at hv
  have hone := h.place k
  rw [hvs, hfree, if_neg (by simp), count_cons_self] at hone
  have hkeys : ∀ w ∈ vs, p.key w = k := fun w hw => h.keys k w (by simp [hvs, hw])
  have hkrvp : k ∉ s.rvp := by
    rw [← List.count_eq_zero]
    omega
  have hwait : ∀ k' ∈ s.rvp, ∀ w ∈ update s.values k vs k', s.runnable p w = true →
      0 < s.outstanding k' := by
    intro k' hk' w hw
    have hne : k' ≠ k := fun heq => hkrvp (heq ▸ hk')
    exact h.waiting k' hk' w (by simpa [hne] using hw)
  rw [Scheduler.consume, hfree] at ht
  simp only [hvs, List.head?_cons, ne_eq, not_true_eq_false, ↓reduceIte, tail_cons] at ht
  split_ifs at ht with hnil
  · cases ht
    exact { h with
      nrFree := by simp [h.nrFree, hfree]
      len := by
        simp [h.len, hfree]
        omega
      place := by
        intro k'
        have := h.place k'
        by_cases hk : k = k'
        · subst hk
          simp [hnil]
          omega
        · simpa [hfree, hk, Ne.symm hk] using this
      keys := h.keys_update hkeys
      notified := fun k' hk' => h.notified k' (by simp only [hfree, mem_cons]; tauto)
      waiting := hwait
      picked := by simp
      unbuilt := by simp [hb] }
  · cases ht
    rw [← hfree]
    exact { h with
      place := by
        intro k'
        have := h.place k'
        by_cases hk : k' = k
        · subst hk
          simpa [hnil, hvs] using this
        · simpa [hk] using this
      keys := h.keys_update hkeys
      waiting := hwait
      picked := by simp
      unbuilt := by simp [hb] }

end Inv

/-! ## Runs -/

variable [DecidableEq V]

/-- The condition on a step: a notification for an entry of the RVP queue finds a runnable piece
there. -/
def NotifiesRunnable (p : Pieces K V) (s : State K V) : Event K V → Prop
  | .onNodeRvpChange k => s.inRvpQueue k = true → ∃ v ∈ s.values k, s.runnable p v = true
  | _ => True

instance (p : Pieces K V) (s : State K V) (e : Event K V) : Decidable (NotifiesRunnable p s e) := by
  cases e <;> unfold NotifiesRunnable <;> infer_instance

theorem inv_step {p : Pieces K V} (s : State K V) (e : Event K V) (t : State K V) (h : Inv p s)
    (hok : NotifiesRunnable p s e) (ht : step p s e = some t) : Inv p t := by
  cases e with
  | ingestPending v => exact h.ingestPending ht
  | onNodeFree k => exact h.onNodeFree ht
  | graphBuilt =>
    rw [step] at ht
    split_ifs at ht with hb
    cases ht
    exact { h with unbuilt := by simp, waiting := h.waiting }
  | decrement v => exact h.decrement ht
  | onNodeRvpChange k => exact h.onNodeRvpChange hok ht
  | pick => exact h.pick ht
  | consume =>
    obtain ⟨v, hv, ht⟩ := bind_eq_some_iff.1 ht
    obtain ⟨t', ht'⟩ := h.consume_ok hv
    rw [ht'] at ht
    cases ht
    exact h.consume hv ht'

theorem inv_run {p : Pieces K V} {indegree : V → ℕ} {es : List (Event K V)} {s : State K V}
    (hok : Along (step p) (NotifiesRunnable p) (init indegree) es)
    (hrun : run (step p) (init indegree) es = some s) : Inv p s :=
  run_invariant inv_step es _ _ (inv_init p indegree) hok hrun

/-- **No transaction is stranded.** In every run whose notifications find a runnable piece when they
find the entry in the RVP queue, `nr_free` and `len` are the lengths of the lists, `Consume` does
not abort, and a transaction that has been notified and has a runnable piece is in the free list,
unless a notification for it is outstanding. -/
theorem runnable_in_free (p : Pieces K V) (indegree : V → ℕ) (es : List (Event K V)) (s : State K V)
    (hok : Along (step p) (NotifiesRunnable p) (init indegree) es)
    (hrun : run (step p) (init indegree) es = some s) :
    s.nrFree = s.free.length ∧
    s.len = s.free.length + s.inactive.length + s.rvp.length ∧
    (∀ v ∈ s.picked, ∃ t, consume s v = .ok t) ∧
    ∀ k, s.notified k = true → ∀ v ∈ s.values k, s.runnable p v = true → s.outstanding k = 0 →
      k ∈ s.free := by
  have h := inv_run hok hrun
  refine ⟨h.nrFree, h.len, fun v hv => h.consume_ok hv, fun k hnot v hv hr hzero => ?_⟩
  have hplace := h.place k
  rw [if_neg (ne_nil_of_mem hv)] at hplace
  have hinactive : k ∉ s.inactive := fun hk => by simp [h.inactive k hk] at hnot
  have hrvp : k ∉ s.rvp := fun hk => absurd (h.waiting k hk v hv hr) (by omega)
  rw [List.count_eq_zero.2 hinactive, List.count_eq_zero.2 hrvp] at hplace
  exact count_pos_iff.1 (by omega)

def twoRvps : Pieces Unit Bool := ⟨fun _ => (), fun _ => true⟩

/-- The second piece is notified while the entry is in the RVP queue. -/
def wokenRun : List (Event Unit Bool) :=
  [.ingestPending false, .ingestPending true, .onNodeFree (), .graphBuilt, .decrement false,
    .onNodeRvpChange (), .pick, .consume, .pick, .decrement true, .onNodeRvpChange ()]

/-- The notification of the first piece comes after the piece has been consumed. -/
def delayedRun : List (Event Unit Bool) :=
  [.ingestPending false, .ingestPending true, .onNodeFree (), .graphBuilt, .decrement false,
    .pick, .consume, .pick, .onNodeRvpChange (), .decrement true, .onNodeRvpChange ()]

theorem runnable_in_free_wokenRun : ∃ s, run (step twoRvps) (init fun _ => 1) wokenRun = some s ∧
    s.nrFree = 1 ∧ s.nrFree = s.free.length := by
  obtain ⟨s, hs, hfree⟩ : ∃ s, run (step twoRvps) (init fun _ => 1) wokenRun = some s ∧ s.nrFree = 1
      := by decide +kernel
  exact ⟨s, hs, hfree,
    (runnable_in_free twoRvps (fun _ => 1) wokenRun s (by decide +kernel) hs).1⟩

/-- With the delayed notification the entry is in the free list with a runnable piece and no
notification to come, and `nr_free` is zero: `Pick` does not get to it. -/
theorem stranded_delayedRun : ∃ s, run (step twoRvps) (init fun _ => 1) delayedRun = some s ∧
    s.free = [()] ∧ s.nrFree = 0 ∧ s.values () = [true] ∧ s.runnable twoRvps true = true ∧
    s.outstanding () = 0 := by decide +kernel

end Felis.Pwv.Scheduler
