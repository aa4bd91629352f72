import Felis.Contention.Buffers

/-!
# Batch append is a sorted merge

Every critical section merges some versions into the row (`Merging.append`), and between critical
sections versions only move from the callers into the buffers. So the versions in the row and in
the buffers are always those that were there before plus those appended (`Inv`), and once every core
has run `FinalizeFlush` after its last append the row alone holds them all (`batch_append_merges`).

The collector may drop old versions at the first append of the epoch; a row with at least 512K
slots may lose more of them at a later append that does not fit (`merge_after_growth`).
-/

namespace Felis.Contention

open Cells Row Runs Function List Option

/-- A version that the epoch may append to the row `old`. -/
def NewVersion (epochNr : ℕ) (old : VHandle) (sid : ℕ) : Prop :=
  epochOf sid = epochNr ∧ ∀ v ∈ old.versionList, v < sid

instance (epochNr : ℕ) (old : VHandle) (sid : ℕ) : Decidable (NewVersion epochNr old sid) := by
  unfold NewVersion
  infer_instance

/-- The row is the merge of the versions of `old` but the first `k` with `flushed`. -/
structure Merging (old row : VHandle) (flushed : List ℕ) (k : ℕ) : Prop where
  size_le : row.size ≤ row.capacity
  latest_lt : row.latestVersion < row.size
  sorted : row.versionList.Pairwise (· ≤ ·)
  perm : row.versionList ~ old.versionList.drop k ++ flushed
  objects : row.objectList =
    old.objectList.drop k ++ List.replicate flushed.length kPendingValue
  lt_size : k ≠ 0 → k < old.size

@[simp] theorem length_versionList (row : VHandle) : row.versionList.length = row.size := by
  simp [VHandle.versionList]

@[simp] theorem length_objectList (row : VHandle) : row.objectList.length = row.size := by
  simp [VHandle.objectList]

section

variable {epochNr : ℕ} {old row row' : VHandle} {flushed sids : List ℕ} {k k' : ℕ} {svc : Services}

/-- The versions of the epoch stand behind the old ones. -/
theorem Merging.split (h : Merging old row flushed k) (hold : old.versionList.Pairwise (· ≤ ·))
    (hnew : ∀ s ∈ flushed, NewVersion epochNr old s) :
    ∃ new, row.versionList = old.versionList.drop k ++ new ∧ new ~ flushed :=
  eq_append_of_sorted h.sorted h.perm (hold.sublist (drop_sublist _ _)) fun v hv s hs =>
    ((hnew s hs).2 v (mem_of_mem_drop hv)).le

/-- Only old versions are dropped, and never the last one. -/
theorem Merging.lt_of_droppable (h : Merging old row flushed k)
    (hold : old.versionList.Pairwise (· ≤ ·)) (hnew : ∀ s ∈ flushed, NewVersion epochNr old s)
    (hdrop : ∀ i < k', Droppable row epochNr i) (h0 : k' ≠ 0) : k' + k < old.size := by
  obtain ⟨new, heq, hperm⟩ := h.split hold hnew
  obtain ⟨hsize, hepoch⟩ := hdrop (k' - 1) (by omega)
  rw [show k' - 1 + 1 = k' by omega] at hsize hepoch
  by_contra hc
  have hget : row.versionList[k']? = some (row.versions k') := by
    rw [VHandle.versionList, getElem?_seg _ _ _ hsize, Nat.zero_add]
  rw [heq, List.getElem?_append_right (by simp; omega)] at hget
  have hmem := hperm.mem_iff.1 (mem_of_getElem? hget)
  exact absurd (hnew _ hmem).1 hepoch.ne

/-- **One critical section.** -/
theorem Merging.append (h : Merging old row flushed k) (hold : old.versionList.Pairwise (· ≤ ·))
    (hnew : ∀ s ∈ flushed, NewVersion epochNr old s)
    (hspec : AppendSpec svc row row' sids epochNr k') :
    Merging old row' (flushed ++ sids) (k + k') := by
  obtain ⟨new, heq, hperm⟩ := h.split hold hnew
  have hk := h.lt_of_droppable hold hnew hspec.droppable
  have hle : k' ≤ old.size - k := by
    by_cases h0 : k' = 0
    · omega
    · have := hk h0
      omega
  have hsize := hspec.size
  have hlatest := hspec.latest
  have hlt := h.latest_lt
  refine ⟨hspec.size_le, by omega, hspec.sorted, ?_, ?_, fun h0 => ?_⟩
  · refine hspec.perm.trans ?_
    rw [heq, drop_append_of_le_length (by simpa using hle), drop_drop,
      append_assoc]
    exact (hperm.append_right sids).append_left _
  · rw [hspec.objects, h.objects, drop_append_of_le_length (by simpa using hle),
      drop_drop, append_assoc, replicate_append_replicate, length_append]
  · by_cases hk' : k' = 0
    · subst hk'
      exact h.lt_size (by omega)
    · have := hk hk'
      omega

end

/-! ## The row -/

variable {C : Type} {epochNr : ℕ} {old : VHandle} {s : State C} {flushed apps : List ℕ}

/-- The row after the critical sections so far. -/
structure RowInv (old : VHandle) (s : State C) (flushed : List ℕ) : Prop where
  merging : Merging old s.row flushed s.dropped
  first : s.firstDrop = none → s.laterDrops = 0
  /-- After the first append only a growing array makes the collector drop versions. -/
  started : s.firstDrop ≠ none →
    (s.row.curStart : ℤ) = s.row.latestVersion + 1 ∨ s.row.latestVersion ≤ 0
  later : s.outgrew = false → s.laterDrops = 0

theorem RowInv.commit (h : RowInv old s flushed) (hold : old.versionList.Pairwise (· ≤ ·))
    (hnew : ∀ v ∈ flushed, NewVersion epochNr old v) {svc : Services} {row' : VHandle}
    {sids : List ℕ} {k : ℕ} (hspec : AppendSpec svc s.row row' sids epochNr k) (n : ℤ) :
    RowInv old (s.commit sids (addOndsplt row' n)) (flushed ++ sids) := by
  have hmerge := h.merging.append hold hnew hspec
  have hsize := hspec.size
  have hk : s.row.size + sids.length - row'.size = k := by omega
  have hmerge' : ∀ d, d = s.dropped + k →
      Merging old (addOndsplt row' n) (flushed ++ sids) d := fun d hd => by
    rw [hd]
    obtain ⟨⟩ := hmerge
    constructor <;> assumption
  have hstarted : (row'.curStart : ℤ) = row'.latestVersion + 1 ∨ row'.latestVersion ≤ 0 := by
    by_cases hl : -1 ≤ row'.latestVersion
    · exact .inl (hspec.curStart hl)
    · exact .inr (by omega)
  simp only [State.commit, addOndsplt, hk]
  cases hfirst : s.firstDrop with
  | none =>
    have hlater := h.first hfirst
    refine ⟨hmerge' _ ?_, by simp, fun _ => hstarted, fun _ => hlater⟩
    simp only [State.dropped, hfirst, hlater]
    simp
  | some d =>
    refine ⟨hmerge' _ ?_, by simp, fun _ => hstarted, fun hout => ?_⟩
    · simp only [State.dropped, hfirst]
      omega
    · -- a later append that fits drops nothing
      simp only [Bool.or_eq_false_iff, Bool.and_eq_false_iff, decide_eq_false_iff_not] at hout
      have hk0 : k = 0 := by
        by_contra hk0
        rcases hspec.why hk0 with ⟨hcur, hlatest, -⟩ | hgrow
        · rcases h.started (by rw [hfirst]; simp) with hc | hc
          · exact hcur hc
          · omega
        · rcases hout.2 with hc | hc
          · exact hc hgrow.1
          · exact hc hgrow.2
      simp only [h.later hout.1, hk0]

/-! ## The buffers -/

def appendedBy (evs : List (Event C)) : List ℕ := evs.flatMap Event.sids

theorem appended_step [DecidableEq C] {s' : State C} {ev : Event C}
    (hstep : s.step epochNr ev = some s') :
    s'.appended = ev.sids ++ s.appended := by
  cases ev with
  | locked c svc sid weight =>
    obtain ⟨t, ht, rfl⟩ := map_eq_some_iff.1 hstep
    obtain ⟨row', -, rfl⟩ := toOption_map_eq_some.1 ht
    simp [State.called, Event.sids]
  | install c pos =>
    simp only [State.step, ite_none_right_eq_some, some_inj] at hstep
    obtain ⟨-, rfl⟩ := hstep
    rfl
  | push c sid ondemandSplit =>
    simp only [State.step, ite_none_right_eq_some, some_inj] at hstep
    obtain ⟨-, rfl⟩ := hstep
    rfl
  | fullFlush c svc svc' sid ondemandSplit =>
    simp only [State.step, ite_none_right_eq_some, bind_eq_some_iff, map_eq_some_iff] at hstep
    obtain ⟨-, t, ht, u, hu, rfl⟩ := hstep
    obtain ⟨row', -, rfl⟩ := toOption_map_eq_some.1 ht
    obtain ⟨row'', -, rfl⟩ := toOption_map_eq_some.1 hu
    simp [State.called, State.setBuf, Event.sids]
  | halfFlush c svc =>
    simp only [State.step, ite_none_right_eq_some] at hstep
    obtain ⟨row', -, rfl⟩ := toOption_map_eq_some.1 hstep.2
    simp [State.setBuf, Event.sids]
  | finalizeFlush c svc =>
    simp only [State.step] at hstep
    split_ifs at hstep
    · obtain ⟨t, ht, rfl⟩ := map_eq_some_iff.1 hstep
      obtain ⟨row', -, rfl⟩ := toOption_map_eq_some.1 ht
      simp [State.setBuf, Event.sids]
    · cases hstep
      rfl

theorem appended_run [DecidableEq C] : ∀ (evs : List (Event C)) (s s' : State C),
    run (State.step epochNr) s evs = some s' → s'.appended ~ appendedBy evs ++ s.appended := by
  intro evs
  induction evs with
  | nil =>
    intro s s' hrun
    cases hrun
    exact List.Perm.refl _
  | cons ev evs ih =>
    intro s s' hrun
    obtain ⟨t, ht, hrun⟩ := (run_cons _).1 hrun
    have := ih t s' hrun
    rw [appended_step ht, ← append_assoc] at this
    refine this.trans ?_
    rw [appendedBy, appendedBy, flatMap_cons]
    exact perm_append_comm.append_right _

variable [Fintype C] {s' : State C}

/-- The versions that are in some buffer. -/
def inBuffers (bufs : C → VersionBuffer) : Multiset ℕ := ∑ c, ((bufs c).versions : Multiset ℕ)

theorem inBuffers_update [DecidableEq C] (bufs : C → VersionBuffer) (c : C)
    (buf : VersionBuffer) :
    inBuffers (update bufs c buf) + ((bufs c).versions : Multiset ℕ) =
      inBuffers bufs + (buf.versions : Multiset ℕ) := by
  have hcomp : (fun c' => ((update bufs c buf c').versions : Multiset ℕ)) =
      update (fun c' => ((bufs c').versions : Multiset ℕ)) c
      (buf.versions : Multiset ℕ) := by
    funext c'
    by_cases h : c' = c
    · subst h
      simp
    · simp [update_of_ne h]
  have hsum : inBuffers bufs = ((bufs c).versions : Multiset ℕ) +
      ∑ c' ∈ Finset.univ \ {c}, ((bufs c').versions : Multiset ℕ) :=
    Finset.sum_eq_add_sum_sdiff_singleton_of_mem (Finset.mem_univ c) _
  rw [hsum, inBuffers, hcomp, Finset.sum_update_of_mem (Finset.mem_univ c)]
  abel

/-- The buffers and the row together hold everything that was appended. -/
structure BufInv (epochNr : ℕ) (old : VHandle) (s : State C) (flushed apps : List ℕ) : Prop where
  balance : (flushed : Multiset ℕ) + inBuffers s.bufs = (apps : Multiset ℕ)
  new : ∀ v ∈ apps, NewVersion epochNr old v
  bit : ∀ c, (s.bufs c).bit = !(s.bufs c).versions.isEmpty
  installed : ∀ c, (s.bufs c).versions ≠ [] → s.row.bufPos ≠ -1
  settled : ∀ c, s.settled c = true → (s.bufs c).versions = []

/-- The invariant: `flushed` has been merged into the row, `apps` has been appended. -/
structure Inv (epochNr : ℕ) (old : VHandle) (s : State C) (flushed apps : List ℕ) : Prop where
  old_sorted : old.versionList.Pairwise (· ≤ ·)
  row : RowInv old s flushed
  bufs : BufInv epochNr old s flushed apps

theorem inv_start {row : VHandle} (hcap : row.size ≤ row.capacity)
    (hlatest : row.latestVersion < row.size) (hs : row.versionList.Pairwise (· ≤ ·)) :
    Inv epochNr row (State.start row : State C) [] [] := by
  refine ⟨hs, ⟨⟨hcap, hlatest, hs, ?_, ?_, ?_⟩, ?_, ?_, ?_⟩, ?_, ?_, ?_, ?_, ?_⟩ <;>
    simp [State.start, State.dropped, inBuffers, VersionBuffer.empty]

theorem Inv.new_of_flushed (h : Inv epochNr old s flushed apps) :
    ∀ v ∈ flushed, NewVersion epochNr old v := fun v hv =>
  h.bufs.new v (Multiset.mem_coe.1 (h.bufs.balance ▸ Multiset.mem_add.2 (.inl hv)))

theorem Inv.install (h : Inv epochNr old s flushed apps) (pos : ℕ) :
    Inv epochNr old { s with row := { s.row with bufPos := pos } } flushed apps := by
  refine ⟨h.old_sorted, ?_, h.bufs.balance, h.bufs.new, h.bufs.bit, fun _ _ => ?_, h.bufs.settled⟩
  · obtain ⟨⟨⟩, -⟩ := id h.row
    obtain ⟨⟩ := h.row
    refine ⟨⟨?_, ?_, ?_, ?_, ?_, ?_⟩, ?_, ?_, ?_⟩ <;> assumption
  · simp only
    omega

theorem Inv.appendLocked (h : Inv epochNr old s flushed apps) {svc : Services} {sid : ℕ}
    {weight extra : ℤ} (hsid : NewVersion epochNr old sid)
    (hstep : s.appendLocked epochNr svc sid weight extra = some s') :
    Inv epochNr old s' (flushed ++ [sid]) (sid :: apps) ∧ s'.bufs = s.bufs ∧
      s'.settled = s.settled ∧ s'.appended = s.appended := by
  obtain ⟨row', hrow, rfl⟩ := toOption_map_eq_some.1 hstep
  have hm := h.row.merging
  obtain ⟨k, hspec⟩ := appendNewVersionNoLock_spec hm.size_le hm.latest_lt hm.sorted hrow
  refine ⟨⟨h.old_sorted, h.row.commit h.old_sorted h.new_of_flushed hspec extra, ?_⟩,
    State.commit_bufs .., State.commit_settled .., State.commit_appended ..⟩
  refine ⟨?_, fun v hv => ?_, ?_, ?_, ?_⟩
  · rw [State.commit_bufs, ← Multiset.coe_add, add_assoc,
      add_comm ([sid] : Multiset ℕ), ← add_assoc, h.bufs.balance, add_comm]
    rfl
  · rcases mem_cons.1 hv with rfl | hv
    · exact hsid
    · exact h.bufs.new v hv
  · simpa using h.bufs.bit
  · simpa [addOndsplt, hspec.bufPos] using h.bufs.installed
  · simpa using h.bufs.settled

variable [DecidableEq C]

namespace Inv

section

variable (h : Inv epochNr old s flushed apps)

include h

theorem flush {svc : Services} {c : C} (hstep : s.flush epochNr c svc = some s') :
    Inv epochNr old s' (flushed ++ (s.bufs c).versions) apps ∧ (s'.bufs c).versions = [] ∧
      s'.appended = s.appended := by
  obtain ⟨row', hrow, rfl⟩ := toOption_map_eq_some.1 hstep
  have hm := h.row.merging
  obtain ⟨k, hspec⟩ := appendBatch_spec hm.size_le hm.latest_lt hm.sorted hrow
  have hempty : ∀ c', (update s.bufs c VersionBuffer.empty c').versions ≠ [] →
      (s.bufs c').versions ≠ [] := fun c' hne => by
    by_cases hc : c' = c
    · subst hc
      simp [VersionBuffer.empty] at hne
    · rwa [update_of_ne hc] at hne
  refine ⟨⟨h.old_sorted, ?_, ?_⟩, ?_, ?_⟩
  · obtain ⟨⟩ := h.row.commit h.old_sorted h.new_of_flushed hspec (s.bufs c).ondspltCnt
    constructor <;> assumption
  · refine ⟨?_, h.bufs.new, fun c' => ?_, fun c' hne => ?_, fun c' hset => ?_⟩
    · -- what leaves the buffer is what enters the row
      have hupd := inBuffers_update s.bufs c VersionBuffer.empty
      rw [VersionBuffer.empty, Multiset.coe_nil, add_zero] at hupd
      simp only [State.setBuf, State.commit_bufs]
      rw [← h.bufs.balance, ← hupd, ← Multiset.coe_add, VersionBuffer.empty]
      abel
    · simp only [State.setBuf, State.commit_bufs]
      by_cases hc : c' = c
      · subst hc
        simp [VersionBuffer.empty]
      · rw [update_of_ne hc]
        exact h.bufs.bit c'
    · simp only [State.setBuf, State.commit_bufs, State.commit_row, addOndsplt] at hne ⊢
      rw [hspec.bufPos]
      exact h.bufs.installed c' (hempty c' hne)
    · simp only [State.setBuf, State.commit_bufs, State.commit_settled] at hset ⊢
      by_contra hne
      exact hempty c' hne (h.bufs.settled c' hset)
  · simp [State.setBuf, VersionBuffer.empty]
  · simp [State.setBuf]

/-- A call has been made; its version is in the row or in a buffer already. -/
theorem called (c : C) (sid : ℕ) : Inv epochNr old (s.called c sid) flushed apps := by
  refine ⟨h.old_sorted, ?_, h.bufs.balance, h.bufs.new, h.bufs.bit, h.bufs.installed,
    fun c' hset => ?_⟩
  · obtain ⟨⟩ := h.row
    constructor <;> assumption
  · simp only [State.called] at hset ⊢
    by_cases hc : c' = c
    · subst hc
      simp at hset
    · rw [update_of_ne hc] at hset
      exact h.bufs.settled c' hset

theorem push {c : C} {sid : ℕ} (n : ℕ) (hsid : NewVersion epochNr old sid)
    (hpos : s.row.bufPos ≠ -1) :
    Inv epochNr old ((s.setBuf c ⟨(s.bufs c).versions ++ [sid], n,
      (s.bufs c).bit || (s.bufs c).versions.isEmpty⟩).called c sid) flushed (sid :: apps) := by
  refine ⟨h.old_sorted, ?_, ?_, fun v hv => ?_, fun c' => ?_, fun _ _ => hpos, fun c' hset => ?_⟩
  · obtain ⟨⟩ := h.row
    constructor <;> assumption
  · have hupd := inBuffers_update s.bufs c ⟨(s.bufs c).versions ++ [sid], n,
      (s.bufs c).bit || (s.bufs c).versions.isEmpty⟩
    simp only [← Multiset.coe_add, Multiset.coe_singleton] at hupd
    have hcancel : inBuffers (s.setBuf c ⟨(s.bufs c).versions ++ [sid], n,
        (s.bufs c).bit || (s.bufs c).versions.isEmpty⟩).bufs = inBuffers s.bufs + {sid} := by
      refine add_right_cancel (b := ((s.bufs c).versions : Multiset ℕ)) (hupd.trans ?_)
      abel
    simp only [State.called]
    rw [hcancel, ← add_assoc, h.bufs.balance, add_comm, Multiset.singleton_add, Multiset.cons_coe]
  · rcases mem_cons.1 hv with rfl | hv
    · exact hsid
    · exact h.bufs.new v hv
  · simp only [State.called, State.setBuf]
    by_cases hc : c' = c
    · subst hc
      rw [update_self, h.bufs.bit c']
      simp
    · rw [update_of_ne hc]
      exact h.bufs.bit c'
  · simp only [State.called, State.setBuf] at hset ⊢
    by_cases hc : c' = c
    · subst hc
      simp at hset
    · rw [update_of_ne hc] at hset ⊢
      exact h.bufs.settled c' hset

end

theorem finalized (h : Inv epochNr old s flushed apps) {c : C} (hc : (s.bufs c).versions = []) :
    Inv epochNr old { s with settled := update s.settled c true } flushed apps := by
  refine ⟨h.old_sorted, ?_, h.bufs.balance, h.bufs.new, h.bufs.bit, h.bufs.installed,
    fun c' hset => ?_⟩
  · obtain ⟨⟩ := h.row
    constructor <;> assumption
  · simp only at hset ⊢
    by_cases hcc : c' = c
    · rw [hcc, hc]
    · rw [update_of_ne hcc] at hset
      exact h.bufs.settled c' hset

/-- **One step keeps the invariant.** -/
theorem step (h : Inv epochNr old s flushed s.appended) {ev : Event C}
    (hnew : ∀ sid ∈ ev.sids, NewVersion epochNr old sid) (hstep : s.step epochNr ev = some s') :
    ∃ flushed', Inv epochNr old s' flushed' s'.appended := by
  cases ev with
  | locked c svc sid weight =>
    obtain ⟨t, ht, rfl⟩ := map_eq_some_iff.1 hstep
    obtain ⟨hi, -, -, happ⟩ := h.appendLocked (hnew sid (by simp [Event.sids])) ht
    rw [← happ] at hi
    exact ⟨_, hi.called c sid⟩
  | install c pos =>
    simp only [State.step, ite_none_right_eq_some, some_inj] at hstep
    obtain ⟨-, rfl⟩ := hstep
    exact ⟨_, h.install pos⟩
  | push c sid ondemandSplit =>
    simp only [State.step, ite_none_right_eq_some, some_inj] at hstep
    obtain ⟨⟨hpos, -⟩, rfl⟩ := hstep
    exact ⟨_, h.push _ (hnew sid (by simp [Event.sids])) hpos⟩
  | fullFlush c svc svc' sid ondemandSplit =>
    simp only [State.step, ite_none_right_eq_some, bind_eq_some_iff, map_eq_some_iff] at hstep
    obtain ⟨-, t, ht, u, hu, rfl⟩ := hstep
    obtain ⟨hi, -, -, happ⟩ := h.appendLocked (hnew sid (by simp [Event.sids])) ht
    obtain ⟨hi', -, happ'⟩ := hi.flush hu
    rw [← happ, ← happ'] at hi'
    exact ⟨_, hi'.called c sid⟩
  | halfFlush c svc =>
    simp only [State.step, ite_none_right_eq_some] at hstep
    obtain ⟨-, hstep⟩ := hstep
    obtain ⟨hi, -, happ⟩ := h.flush hstep
    exact ⟨_, happ ▸ hi⟩
  | finalizeFlush c svc =>
    simp only [State.step] at hstep
    split_ifs at hstep with hbit
    · obtain ⟨t, ht, rfl⟩ := map_eq_some_iff.1 hstep
      obtain ⟨hi, hempty, happ⟩ := h.flush ht
      exact ⟨_, (happ ▸ hi).finalized hempty⟩
    · cases hstep
      -- the bit is clear, or the row has no position and no core has buffered anything
      refine ⟨_, h.finalized (c := c) ?_⟩
      by_contra hne
      refine hbit ⟨h.bufs.installed c hne, ?_⟩
      rw [h.bufs.bit c]
      simpa using hne

end Inv

/-! ## The result -/

/-- **Batch append loses, duplicates and reorders nothing.** Once every core has run
`FinalizeFlush` after its last append, the row is the sorted merge of the versions it had, but for
those that the collector dropped, with all appended versions; the old objects are unchanged, the
new slots are pending, and the buffers are empty. The collector drops versions at the first append,
or at a later one that does not fit into an array of at least 512K slots, and never the last one. -/
theorem batch_append_merges (epochNr : ℕ) (row : VHandle) (hcap : row.size ≤ row.capacity)
    (hlatest : row.latestVersion < row.size) (hs : row.versionList.Pairwise (· ≤ ·))
    (evs : List (Event C)) (hnew : ∀ ev ∈ evs, ∀ sid ∈ ev.sids, NewVersion epochNr row sid)
    (s : State C) (hrun : run (State.step epochNr) (State.start row) evs = some s)
    (hsettled : ∀ c, s.settled c = true) :
    s.row.versionList = (row.versionList.drop s.dropped ++ appendedBy evs).mergeSort (· ≤ ·) ∧
      s.row.objectList = row.objectList.drop s.dropped ++
        List.replicate (appendedBy evs).length kPendingValue ∧
      (∀ c, (s.bufs c).versions = [] ∧ (s.bufs c).bit = false) ∧
      (s.dropped ≠ 0 → s.dropped < row.size) ∧
      (s.outgrew = false → s.dropped = s.firstDrop.getD 0) := by
  obtain ⟨flushed, hi⟩ := run_invariant
    (I := fun s : State C => ∃ flushed, Inv epochNr row s flushed s.appended)
    (fun s e t ⟨flushed, hi⟩ hok hstep => hi.step hok hstep) evs _ s
    ⟨[], inv_start hcap hlatest hs⟩ (along_of_forall (State.step epochNr) _ hnew) hrun
  have hempty : ∀ c, (s.bufs c).versions = [] := fun c => hi.bufs.settled c (hsettled c)
  have hflushed : flushed ~ appendedBy evs := by
    have happ : s.appended ~ appendedBy evs := by
      simpa [State.start] using appended_run evs _ s hrun
    have hzero : inBuffers s.bufs = 0 := Finset.sum_eq_zero fun c _ => by rw [hempty c]; rfl
    have hbal := hi.bufs.balance
    rw [hzero, add_zero, Multiset.coe_eq_coe] at hbal
    exact hbal.trans happ
  have hm := hi.row.merging
  refine ⟨?_, ?_, fun c => ⟨hempty c, ?_⟩, hm.lt_size, fun hout => ?_⟩
  · refine List.Perm.eq_of_pairwise (fun x y _ _ => Nat.le_antisymm) hm.sorted
      (pairwise_mergeSort' _ _) ?_
    exact hm.perm.trans ((hflushed.append_left _).trans (mergeSort_perm _ _).symm)
  · rw [hm.objects, hflushed.length_eq]
  · rw [hi.bufs.bit c, hempty c]
    rfl
  · rw [State.dropped, hi.row.later hout, add_zero]

/-- Two cores append to a new row: one directly, the other one into its buffer. -/
def twoCores : List (Event Bool) :=
  [.locked true clearedMemory (generateSerialId 1 1 2) 0, .install false 3,
    .push false (generateSerialId 1 1 1) false, .finalizeFlush true clearedMemory,
    .finalizeFlush false clearedMemory]

theorem batch_append_merges_twoCores : ∃ s : State Bool,
    run (State.step 1) (State.start (newRow 0x8000 0 fun _ => 0)) twoCores = some s ∧
      s.row.versionList = (appendedBy twoCores).mergeSort (· ≤ ·) := by
  obtain ⟨s, hrun, hset⟩ : ∃ s : State Bool,
      run (State.step 1) (State.start (newRow 0x8000 0 fun _ => 0)) twoCores = some s ∧
        ∀ c, s.settled c = true := by decide +kernel
  refine ⟨s, hrun, ?_⟩
  have h := batch_append_merges 1 (newRow 0x8000 0 fun _ => 0) (by decide) (by decide) (by decide)
    twoCores (by simp [twoCores, Event.sids, NewVersion]; decide) s hrun hset
  simpa [VHandle.versionList, newRow] using h.1

/-! A row that is full but for one slot, of the smallest size that makes `IncreaseSize` collect
before it grows the array. It is not registered as garbage, so its first append drops nothing. -/

def largeRow : VHandle where
  addr := 0x8000
  inlineUsed := 0xFF
  capacity := 512 * 1024
  size := 512 * 1024 - 1
  curStart := 0
  latestVersion := 512 * 1024 - 2
  nrOndsplt := 0
  contAffinity := -1
  allocByRegionid := 0
  versions := fun i => if i < 512 * 1024 then i else 0
  bufPos := -1
  gcHandle := 0

def growthRun : List (Event Unit) :=
  [.locked () clearedMemory (generateSerialId 1 1 1) 0,
    .locked () clearedMemory (generateSerialId 1 1 2) 0, .finalizeFlush () clearedMemory]

theorem largeRow_sorted : largeRow.versionList.Pairwise (· ≤ ·) := by
  refine pairwise_seg.2 fun i j hij hj => ?_
  simp only [largeRow] at hj ⊢
  rw [if_pos (by omega), if_pos (by omega)]
  omega

theorem freeable_of_addr {row : VHandle} {p : ℕ} (haddr : row.addr = 0x8000)
    (hp : p = 0 ∨ p = kPendingValue) : Freeable row p := by
  rw [Freeable, isDataGarbage, haddr]
  rcases hp with rfl | rfl
  · exact ⟨false, rfl⟩
  · exact ⟨true, rfl⟩

theorem largeRow_objects {i : ℕ} : largeRow.objects i = 0 :=
  if_neg (not_lt.2 (Nat.le_add_right (512 * 1024) i))

/-- The first append fits and drops nothing. -/
theorem largeRow_first_append {row : VHandle}
    (h : appendNewVersionNoLock clearedMemory largeRow (generateSerialId 1 1 1) 1 0 = .ok row) :
    row.size = 512 * 1024 ∧ row.capacity = 512 * 1024 ∧ row.latestVersion < row.size ∧
      row.versionList.Pairwise (· ≤ ·) ∧ row.addr = 0x8000 ∧ row.bufPos = -1 ∧
      Droppable row 1 0 ∧ (∀ i < row.size, Freeable row (row.objects i)) ∧
      ∀ i, Droppable row 1 i → isPendingVal (row.objects i) = false := by
  obtain ⟨k, hspec⟩ := appendNewVersionNoLock_spec (by decide) (by decide) largeRow_sorted h
  obtain rfl : k = 0 := by
    by_contra hk
    rcases hspec.why hk with ⟨-, -, hc⟩ | ⟨hc, -⟩
    · exact hc rfl
    · exact absurd hc (by decide)
  have hsize : row.size = 512 * 1024 := hspec.size
  have hlatest := hspec.latest
  obtain ⟨hlow, -⟩ := hspec.split largeRow_sorted (Nat.zero_le largeRow.size) le_rfl
    fun i hi s hs => by
      rw [mem_singleton.1 hs]
      simp only [largeRow] at hi ⊢
      rw [if_pos (by omega)]
      exact (Nat.lt_of_lt_of_le hi (by decide)).le
  have hone : row.versions 1 = 1 := by
    rw [hlow 1 (by decide)]
    rfl
  refine ⟨hsize, hspec.keeps (by decide), ?_, hspec.sorted, hspec.addr, hspec.bufPos,
    ⟨by rw [hsize]; decide, by rw [hone]; decide⟩, fun i hi => freeable_of_addr hspec.addr ?_,
    fun i hi => ?_⟩
  · rw [hlatest, hsize]
    decide
  · rw [objects_append hspec (Nat.zero_le _) hi]
    split_ifs
    · exact .inl largeRow_objects
    · exact .inr rfl
  · -- the slot after a version that can be dropped is one of the row
    have hlt : i + 1 < 512 * 1024 := hsize ▸ hi.1
    rw [objects_append hspec (Nat.zero_le _) (by omega),
      if_pos (by change _ < 512 * 1024 - 1; omega), largeRow_objects]
    rfl

/-- **The second append drops old versions too**: the full array holds 512K versions, so
`IncreaseSize` collects before it would grow it. -/
theorem merge_after_growth : ∃ s : State Unit,
    run (State.step 1) (State.start largeRow) growthRun = some s ∧ (∀ c, s.settled c = true) ∧
      s.row.versionList ≠ (largeRow.versionList.drop (s.firstDrop.getD 0) ++
        appendedBy growthRun).mergeSort (· ≤ ·) := by
  have halloc : ∀ n, ∃ mem, clearedMemory.alloc n = some mem := fun n => ⟨_, rfl⟩
  obtain ⟨row₁, h₁⟩ : ∃ row₁, appendNewVersionNoLock clearedMemory largeRow
      (generateSerialId 1 1 1) 1 0 = .ok row₁ := by
    rw [appendNewVersionNoLock_eq]
    refine appendBatch_isOk _ (by decide) (by decide)
      (fun i _ => freeable_of_addr rfl (.inl largeRow_objects)) (fun i _ => ?_) halloc (by decide)
    rw [show (addOndsplt largeRow 0).objects i = 0 from largeRow_objects]
    rfl
  obtain ⟨hsize₁, hcap₁, hlatest₁, hsorted₁, haddr₁, hpos₁, hdrop₁, hfree₁, hwritten₁⟩ :=
    largeRow_first_append h₁
  obtain ⟨row₂, h₂⟩ : ∃ row₂, appendNewVersionNoLock clearedMemory (addOndsplt row₁ 0)
      (generateSerialId 1 1 2) 1 0 = .ok row₂ := by
    rw [appendNewVersionNoLock_eq]
    exact appendBatch_isOk _ (by simp only [addOndsplt]; omega) hlatest₁
      (fun i hi => (hfree₁ i hi).congr rfl rfl) hwritten₁ halloc (by decide)
  obtain ⟨k, hspec⟩ := appendNewVersionNoLock_spec (by simp only [addOndsplt]; omega)
    (by exact hlatest₁) (by exact hsorted₁) h₂
  have hk : k ≠ 0 := hspec.grows (by simp [addOndsplt, hsize₁, hcap₁])
    (by simp [addOndsplt, hcap₁]) hdrop₁
  have hsize₂ : row₂.size + k = row₁.size + 1 := hspec.size
  -- the three states
  set s₁ : State Unit := ((State.start largeRow).commit [generateSerialId 1 1 1]
    (addOndsplt row₁ 0)).called () (generateSerialId 1 1 1) with hs₁
  set s₂ : State Unit := (s₁.commit [generateSerialId 1 1 2]
    (addOndsplt row₂ 0)).called () (generateSerialId 1 1 2) with hs₂
  have hstep₁ : (State.start largeRow).step 1
      (.locked () clearedMemory (generateSerialId 1 1 1) 0) = some s₁ := by
    simp only [State.step, State.appendLocked, State.start, h₁, Except.toOption, map_some]
    rfl
  have hstep₂ : s₁.step 1 (.locked () clearedMemory (generateSerialId 1 1 2) 0) = some s₂ := by
    have hrow : s₁.row = addOndsplt row₁ 0 := rfl
    simp only [State.step, State.appendLocked, hrow, h₂, Except.toOption, map_some]
    rfl
  have hfirst : s₂.firstDrop = some 0 := by
    change some (largeRow.size + 1 - row₁.size) = some 0
    rw [hsize₁]
    rfl
  have hpos₂ : s₂.row.bufPos = -1 := hspec.bufPos.trans hpos₁
  refine ⟨{ s₂ with settled := update s₂.settled () true },
    (run_cons _).2 ⟨s₁, hstep₁, (run_cons _).2 ⟨s₂, hstep₂, (run_cons _).2 ⟨_, ?_, rfl⟩⟩⟩,
    fun c => by simp, fun hc => ?_⟩
  · simp only [State.step, hpos₂]
    exact if_neg (by simp)
  · have hlen := congrArg List.length hc
    simp only [hfirst, length_versionList, getD_some, length_mergeSort,
      length_append, length_drop] at hlen
    change row₂.size = 512 * 1024 - 1 - 0 + 2 at hlen
    omega

end Felis.Contention
