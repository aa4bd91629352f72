import Felis.Epoch.Serializability

/-!
# Deterministic and deadlock-free execution

`epoch_execution` puts the pieces together. After the versions of all write sets are appended, no
interleaving of the transactions aborts or gets stuck, every one can be continued to its end, and
every interleaving that ends agrees with the execution of the transactions one after another: on
every read, and on the versions and objects of every row.
-/

namespace Felis.Epoch

open Cells Row Runs Serial Function List Option

variable {R : Type} [DecidableEq R] {tx : Txns R} {B : R → VHandle} {s : State R} {sid : ℕ}
  {ops : List (R × AppendOp)}

/-! ## Rows that are ready -/

/-- The appends of an epoch: every row gets the versions of the transactions that write it. -/
structure AppendsAll (tx : Txns R) (ops : List (R × AppendOp)) : Prop where
  perm : ∀ r, appendedTo r ops ~ tx.sids.filter fun sid => r ∈ tx.writeSet sid
  memory : ∀ op ∈ ops, CleanMemory tx.sids op.2.svc

theorem AppendsAll.mem_appendedTo (h : AppendsAll tx ops) {r : R} :
    sid ∈ appendedTo r ops ↔ sid ∈ tx.sids ∧ r ∈ tx.writeSet sid := by
  rw [(h.perm r).mem_iff, mem_filter, decide_eq_true_eq]

theorem AppendsAll.epochOf_eq (h : AppendsAll tx ops) {op : R × AppendOp} (hop : op ∈ ops)
    (hsid : sid ∈ op.2.sids) : epochOf sid = tx.epochNr := by
  have hmem : sid ∈ appendedTo op.1 ops :=
    mem_flatMap.2 ⟨op, hop, by rw [if_pos rfl]; exact hsid⟩
  exact tx.epochOf_sid sid (h.mem_appendedTo.1 hmem).1

/-- A prepared row is in execution order. -/
theorem Prepared.executing {epochNr : ℕ} {S sids : List ℕ} {row₀ row : VHandle}
    (hl : Loaded epochNr S row₀) (h : Prepared S row₀ row sids) (hnd : sids.Nodup)
    (hsids : ∀ s ∈ sids, epochOf s = epochNr) : Executing row 1 := by
  have hsize := h.size
  have hlatest := h.latest
  have hlt : row.versionList.Pairwise (· < ·) := by
    have hcons : row.versionList = row.versions 0 :: seg row.versions 1 sids.length := by
      rw [VHandle.versionList, hsize, seg_cons]
    have hnodup : row.versionList.Nodup := by
      rw [hcons, nodup_cons, h.perm.nodup_iff]
      refine ⟨fun hmem => ?_, hnd⟩
      have := hsids _ (h.perm.mem_iff.1 hmem)
      rw [h.version] at this
      exact absurd this hl.epoch.ne
    exact (h.sorted.and hnodup).imp fun h => lt_of_le_of_ne h.1 h.2
  refine ⟨h.size_le, fun i j hij hj => ?_, by omega, fun hlt => h.curStart ?_, by omega, by omega⟩
  · simpa using pairwise_seg.1 hlt i j hij hj
  · rintro rfl
    simp only [length_nil] at hsize
    omega

/-- The rows are ready when all write sets are appended. -/
theorem ready_of_appends {rows₀ rows : R → VHandle} (hl : ∀ r, Loaded tx.epochNr tx.sids (rows₀ r))
    (hops : AppendsAll tx ops)
    (hvalid : ∀ sid ∈ tx.sids, (tx.prog sid).AllWrites fun r obj => ValidObject (rows₀ r) obj)
    (hrun : run (appendStep tx.epochNr) rows₀ ops = some rows) : Ready tx rows := by
  have hp : ∀ r, Prepared tx.sids (rows₀ r) (rows r) (appendedTo r ops) := fun r => by
    simpa using prepared_run hl ops rows₀ rows (fun _ => []) (fun r => (hl r).prepared) (by simp)
      (fun op hop => ⟨fun s hs => hops.epochOf_eq hop hs, hops.memory op hop⟩) hrun r
  have hepochs : ∀ r, ∀ s ∈ appendedTo r ops, epochOf s = tx.epochNr := fun r s hs =>
    tx.epochOf_sid s (hops.mem_appendedTo.1 hs).1
  have hnodup : ∀ r, (appendedTo r ops).Nodup := fun r =>
    (hops.perm r).nodup_iff.2 (tx.nodup.filter _)
  have hobj : ∀ r obj, ValidObject (rows₀ r) obj → ValidObject (rows r) obj := fun r obj h => by
    rw [ValidObject, VHandle.isInlined, (hp r).addr, (hp r).inlineUsed]
    exact h
  refine ⟨fun r => Nat.ne_zero_of_lt (hl r).epoch,
    fun r => (hp r).executing (hl r) (hnodup r) (hepochs r), fun r sid hsid hw => ?_,
    fun r i hi hlt => ?_, fun r i hi hlt => ?_, fun r => ?_, fun r => ?_, fun r sid hsid => ?_,
    fun r => (hp r).unused, fun sid hsid => ?_⟩
  · have hmem := (hp r).perm.mem_iff.2 (hops.mem_appendedTo.2 ⟨hsid, hw⟩)
    obtain ⟨i, hi, heq⟩ := mem_seg.1 hmem
    have := (hp r).size
    exact ⟨1 + i, by omega, by omega, heq⟩
  · have := (hp r).size
    exact hops.mem_appendedTo.1 ((hp r).perm.mem_iff.1
      (mem_seg.2 ⟨i - 1, by omega, by congr 1; omega⟩))
  · rw [(hp r).pending i hi hlt]
    rfl
  · rw [(hp r).object]
    exact (hl r).object
  · rw [(hp r).object]
    exact (hl r).object_sid
  · rw [(hp r).version]
    exact lt_of_epochOf_lt ((hl r).epoch.trans_eq (tx.epochOf_sid sid hsid).symm)
  · exact (hvalid sid hsid).imp hobj

/-! ## Progress -/

omit [DecidableEq R] in
theorem rest_of_finished (h : Txns.Finished s sid) : (s.thread sid).rest = .done := by
  rw [Txns.Finished] at h
  rw [Thread.rest, h]
  cases (s.thread sid).phase <;> rfl

/-- A reader whose predecessors are all finished finds its slot written. -/
theorem ExecInv.not_pending (hb : Ready tx B) (hi : ExecInv tx B s) {r : R} {sid pos : ℕ}
    (hpos : ReadSlot (B r) sid pos)
    (hmin : ∀ k ∈ tx.sids, k < sid → Txns.Finished s k) :
    isPendingVal ((s.rows r).objects pos) = false := by
  have hr := hi.rows r
  rcases Nat.eq_zero_or_pos pos with rfl | h0
  · rw [hr.object]
    exact hb.object r
  · obtain ⟨hsid', -⟩ := hb.mem_of_slot r pos h0 hpos.lt_size
    refine ((hr.slots pos h0 hpos.lt_size).written ?_).1
    rw [leftRows, rest_of_finished (hmin _ hsid' hpos.version_lt)]
    simp [Prog.writes]

/-- The unfinished transaction with the smallest serial id never waits. -/
theorem ExecInv.not_waits (hb : Ready tx B) (hi : ExecInv tx B s) (hsid : sid ∈ tx.sids)
    (hmin : ∀ k ∈ tx.sids, k < sid → Txns.Finished s k) : ¬ WaitsForData s sid := by
  rintro ⟨r, k, pos, hprog, hphase, hp⟩
  have hslot := (hi.threads sid hsid).phase
  rw [PhaseInv, hprog, hphase] at hslot
  rw [hi.not_pending hb hslot hmin] at hp
  cases hp

/-! ## Every execution can be finished -/

omit [DecidableEq R] in
theorem finished_iff : Txns.Finished s sid ↔ (s.thread sid).prog = .done := Iff.rfl

@[simp] theorem set_set (s : State R) (r : R) (row row' : VHandle) (sid : ℕ) (th th' : Thread R) :
    (s.set r row sid th).set r row' sid th' = s.set r row' sid th' := by
  simp [State.set]

@[simp] theorem set_rows_self (s : State R) (r : R) (row : VHandle) (sid : ℕ) (th : Thread R) :
    (s.set r row sid th).rows r = row := update_self _ _ _

@[simp] theorem set_thread_self (s : State R) (r : R) (row : VHandle) (sid : ℕ) (th : Thread R) :
    (s.set r row sid th).thread sid = th := update_self _ _ _

theorem set_thread_of_ne (s : State R) (r : R) (row : VHandle) {sid k : ℕ} (th : Thread R)
    (h : k ≠ sid) : (s.set r row sid th).thread k = s.thread k := update_of_ne h _ _

omit [DecidableEq R] in
/-- The first of the sorted serial ids has no unfinished predecessors. -/
theorem finished_below {sids l : List ℕ} (hsorted : (sid :: l).Pairwise (· < ·))
    (hf : ∀ k ∈ sids, k ∉ sid :: l → Txns.Finished s k) :
    ∀ k ∈ sids, k < sid → Txns.Finished s k := fun k hk hlt => hf k hk fun hmem => by
  rcases mem_cons.1 hmem with rfl | hmem
  · exact lt_irrefl _ hlt
  · exact lt_asymm hlt ((pairwise_cons.1 hsorted).1 k hmem)

/-- How many accesses a transaction that runs alone makes at most in its current read or write. -/
def accessesLeft (s : State R) (sid : ℕ) : ℕ :=
  match (s.thread sid).prog, (s.thread sid).phase with
  | .done, _ => 0
  | .read .., .waiting _ => 1
  | .read .., _ => 2
  | .write .., .registering _ => 1
  | .write .., .finishing _ => 2
  -- a compare-and-swap that fails has read the value for the next one
  | .write r .., .publishing it pos => if pos < it ∧ (s.rows r).latestVersion ≠ pos then 4 else 3
  | .write .., .offering .. => 5
  | .write .., _ => 6

/-- The program goes on behind its first read or write. -/
def Follows : Prog R ℕ → Prog R ℕ → Prop
  | .done, _ => False
  | .read _ k, q => ∃ v, q = k v
  | .write _ _ next, q => q = next

/-- An access of a transaction leaves the others alone. It ends the current read or write, or is
one of the accesses that were left. -/
theorem advance_progress {epochNr gchdl : ℕ} {s' : State R}
    (h : advance epochNr s sid gchdl = .next s') : (∀ k ≠ sid, s'.thread k = s.thread k) ∧
      ((s'.thread sid).prog = (s.thread sid).prog ∧ accessesLeft s' sid < accessesLeft s sid ∨
        Follows (s.thread sid).prog (s'.thread sid).prog) := by
  rw [advance] at h
  cases hth : s.thread sid with
  | mk prog phase rs =>
  rw [hth] at h
  cases prog with
  | done => cases h
  | read r k =>
    simp only [stepRead] at h
    split at h <;> cases h
    rename_i hstep
    refine ⟨fun _ hk => set_thread_of_ne _ _ _ _ hk, ?_⟩
    cases phase with
    | waiting pos =>
      dsimp only at hstep
      split_ifs at hstep
      cases hstep
      exact .inr ⟨(s.rows r).objects pos, by simp⟩
    | _ =>
      dsimp only at hstep
      split at hstep <;> cases hstep
      · exact .inr ⟨0, by simp⟩
      · exact .inl (by simp [accessesLeft, hth])
  | write r obj next =>
    simp only [stepWrite] at h
    split at h <;> cases h
    rename_i hstep
    refine ⟨fun _ hk => set_thread_of_ne _ _ _ _ hk, ?_⟩
    cases phase with
    | offering it pos =>
      cases hstep
      refine .inl ⟨by simp, ?_⟩
      simp only [accessesLeft, hth, set_thread_self]
      split_ifs <;> decide
    | publishing it pos =>
      dsimp only [casLatest] at hstep
      refine .inl ?_
      split_ifs at hstep <;> cases hstep <;> simp_all [accessesLeft]
      all_goals (split_ifs <;> decide)
    | finishing it =>
      dsimp only at hstep
      split at hstep <;> cases hstep
      · exact .inl (by simp [accessesLeft, hth])
      · exact .inr (by simp [Follows])
    | registering g =>
      cases hstep
      exact .inr (by simp [Follows])
    | _ =>
      dsimp only at hstep
      split at hstep <;> cases hstep
      exact .inl (by simp [accessesLeft, hth])

/-- The transaction can be run to its end while the others stay where they are. -/
def CanFinish (tx : Txns R) (B : R → VHandle) (sid : ℕ) (s : State R) : Prop :=
  ∃ evs s', run tx.step s evs = some s' ∧ ExecInv tx B s' ∧ Txns.Finished s' sid ∧
    ∀ k ≠ sid, s'.thread k = s.thread k

/-- All accesses of the current read or write are made, and then the rest of the program. -/
theorem canFinish_of_follows (hb : Ready tx B) (hsid : sid ∈ tx.sids) {p : Prog R ℕ}
    (hrest : ∀ q, Follows p q → ∀ s, ExecInv tx B s →
      (∀ k ∈ tx.sids, k < sid → Txns.Finished s k) → (s.thread sid).prog = q →
      CanFinish tx B sid s)
    (hi : ExecInv tx B s) (hmin : ∀ k ∈ tx.sids, k < sid → Txns.Finished s k)
    (hp : (s.thread sid).prog = p) : CanFinish tx B sid s := by
  induction hn : accessesLeft s sid using Nat.strong_induction_on generalizing s with
  | _ n ih =>
  rcases hi.advance_cases hb hsid 0 with ⟨-, hfin | hwait⟩ | ⟨mid, hnext, hmid⟩
  · exact ⟨[], s, rfl, hi, hfin, fun _ _ => rfl⟩
  · exact absurd hwait (hi.not_waits hb hsid hmin)
  · obtain ⟨hother, hprogress⟩ := advance_progress hnext
    have hmin' : ∀ k ∈ tx.sids, k < sid → Txns.Finished mid k := fun k hk hlt => by
      rw [finished_iff, hother k hlt.ne]
      exact hmin k hk hlt
    have hgoesOn : CanFinish tx B sid mid := by
      rcases hprogress with ⟨hsame, hlt⟩ | hfollows
      · exact ih _ (hn ▸ hlt) hmid hmin' (hsame.trans hp) rfl
      · exact hrest _ (hp ▸ hfollows) mid hmid hmin' rfl
    obtain ⟨evs, s', hrun, hs', hfin, hkeep⟩ := hgoesOn
    refine ⟨.advance sid 0 :: evs, s', (run_cons _).2 ⟨mid, ?_, hrun⟩, hs', hfin,
      fun k hk => (hkeep k hk).trans (hother k hk)⟩
    rw [Txns.step, if_pos hsid, hnext]

theorem ExecInv.canFinish (hb : Ready tx B) (hsid : sid ∈ tx.sids) : ∀ (p : Prog R ℕ)
    (s : State R), ExecInv tx B s → (∀ k ∈ tx.sids, k < sid → Txns.Finished s k) →
      (s.thread sid).prog = p → CanFinish tx B sid s := by
  intro p
  induction p with
  | done => exact fun s => canFinish_of_follows hb hsid fun _ h => h.elim
  | read r k ih => exact fun s => canFinish_of_follows hb hsid fun _ ⟨v, hv⟩ => hv ▸ ih v
  | write r obj next ih => exact fun s => canFinish_of_follows hb hsid fun _ h => h ▸ ih

/-- All transactions are run to their ends, in the order of their serial ids. -/
theorem ExecInv.finish_all (hb : Ready tx B) : ∀ (l : List ℕ) (s : State R),
    l.Pairwise (· < ·) → ExecInv tx B s → (∀ k ∈ l, k ∈ tx.sids) →
    (∀ k ∈ tx.sids, k ∉ l → Txns.Finished s k) →
    ∃ evs s', run tx.step s evs = some s' ∧ ∀ k ∈ tx.sids, Txns.Finished s' k := by
  intro l
  induction l with
  | nil => exact fun s _ _ _ hf => ⟨[], s, rfl, fun k hk => hf k hk not_mem_nil⟩
  | cons sid l ih =>
    intro s hsorted hi hl hf
    obtain ⟨evs, mid, hrun, hmid, hfin, hkeep⟩ := hi.canFinish hb (hl sid mem_cons_self) _ s
      (finished_below hsorted hf) rfl
    obtain ⟨evs', s', hrun', hfin'⟩ := ih mid hsorted.of_cons hmid
      (fun k hk => hl k (mem_cons_of_mem _ hk)) fun k hk hkl => by
        by_cases hks : k = sid
        · exact hks ▸ hfin
        · rw [finished_iff, hkeep k hks]
          exact hf k hk (by simp [hks, hkl])
    exact ⟨evs ++ evs', s', (run_append _).2 ⟨mid, hrun, hrun'⟩, hfin'⟩

/-! ## Finished executions agree -/

theorem ExecInv.reads_of_finished (hi : ExecInv tx B s) (hsid : sid ∈ tx.sids)
    (hf : Txns.Finished s sid) : (s.thread sid).reads = (tx.prog sid).reads (tx.db B sid) := by
  rw [← (hi.threads sid hsid).reads, rest_of_finished hf]
  simp [Prog.reads]

/-- Once all transactions are finished, the objects are those of the serial execution. -/
theorem ExecInv.entries_eq (hb : Ready tx B) {s' : State R} (hi : ExecInv tx B s)
    (hi' : ExecInv tx B s') (hf : ∀ sid ∈ tx.sids, Txns.Finished s sid)
    (hf' : ∀ sid ∈ tx.sids, Txns.Finished s' sid) (r : R) :
    (s.rows r).entries = (s'.rows r).entries := by
  have hr := hi.rows r
  have hr' := hi'.rows r
  rw [VHandle.entries, VHandle.entries, hr.size, hr'.size]
  refine seg_congr fun i hlt => ?_
  rw [Nat.zero_add, hr.versions_of_lt hb hlt, hr'.versions_of_lt hb hlt, Prod.mk.injEq]
  refine ⟨rfl, ?_⟩
  rcases Nat.eq_zero_or_pos i with rfl | h0
  · rw [hr.object, hr'.object]
  · obtain ⟨hsid, -⟩ := hb.mem_of_slot r i h0 hlt
    have hw := ((hr.slots i h0 hlt).written (by
      rw [leftRows, rest_of_finished (hf _ hsid)]; simp [Prog.writes])).2
    have hw' := ((hr'.slots i h0 hlt).written (by
      rw [leftRows, rest_of_finished (hf' _ hsid)]; simp [Prog.writes])).2
    have hnd := Txns.serialWrites_nodup (B := B) hsid
    exact some_inj.1 ((lookup_eq_some hnd hw).symm.trans (lookup_eq_some hnd hw'))

/-! ## One after another -/

/-- A whole read of a transaction whose predecessors are finished. -/
theorem ExecInv.read_alone (hb : Ready tx B) (hi : ExecInv tx B s) (hsid : sid ∈ tx.sids)
    (hmin : ∀ k ∈ tx.sids, k < sid → Txns.Finished s k) {r : R} {k : ℕ → Prog R ℕ}
    {rs : List (R × ℕ)} (hth : s.thread sid = ⟨.read r k, .ready, rs⟩) :
    ∃ pos obj, readWithVersion (s.rows r) sid = .ok (.object pos obj) ∧
      ExecInv tx B (s.set r (s.rows r) sid ⟨k obj, .ready, rs ++ [(r, obj)]⟩) := by
  obtain ⟨pos, hpos, hslot⟩ := (hi.rows r).locate_read hb hsid
  have hnp := hi.not_pending hb hslot hmin
  have ht := hi.threads sid hsid
  rw [hth] at ht
  refine ⟨pos, (s.rows r).objects pos, ?_, ?_⟩
  · simp only [readWithVersion, hpos]
    exact if_neg (by simp [hnp])
  · rw [hi.object_eq_db hb hslot hnp]
    refine hi.silent hb (Untouched.refl _) ⟨?_, ht.writes, ht.valid _, trivial⟩ ?_
    · rw [← ht.reads, append_assoc]
      rfl
    · rw [hth]
      rfl

/-- A second step of the same transaction on the same row that stores no object. -/
theorem ExecInv.silent_again (hb : Ready tx B) {r : R} {row row' : VHandle} {th th' : Thread R}
    (hi : ExecInv tx B (s.set r row sid th)) (hrow : Untouched row row')
    (hth : ThreadInv tx B sid th')
    (hrest : th'.rest.writes (tx.db B sid) = th.rest.writes (tx.db B sid)) :
    ExecInv tx B (s.set r row' sid th') := by
  rw [← set_set s r row row' sid th th']
  exact hi.silent hb (by rw [set_rows_self]; exact hrow) hth (by rw [set_thread_self]; exact hrest)

theorem ExecInv.write_alone (hb : Ready tx B) (hi : ExecInv tx B s) (svc : Services)
    (hsid : sid ∈ tx.sids) {r : R} {obj : ℕ} {next : Prog R ℕ} {rs : List (R × ℕ)}
    (hth : s.thread sid = ⟨.write r obj next, .ready, rs⟩) :
    ∃ row, writeWithVersion svc (s.rows r) sid obj tx.epochNr = .ok row ∧
      ExecInv tx B (s.set r row sid ⟨next, .ready, rs⟩) := by
  have ht := hi.threads sid hsid
  rw [hth] at ht
  obtain ⟨it, hit, hslot⟩ :=
    (hi.rows r).locate_write hb hsid (ht.mem_writeSet mem_cons_self)
  have hlt : it < (s.rows r).size := by rw [(hi.rows r).size]; exact hslot.2.1
  -- the accesses of the write, one after another
  have h1 : ExecInv tx B (s.set r (s.rows r) sid
      ⟨.write r obj next, .offering it (s.rows r).latestVersion, rs⟩) :=
    hi.silent hb (Untouched.refl _) ⟨ht.reads, ht.writes, ht.valid, hslot⟩ (by rw [hth]; rfl)
  have h2 := h1.offer hb hsid (set_thread_self ..)
  rw [set_rows_self, set_set] at h2
  have ht2 := h2.threads sid hsid
  rw [set_thread_self] at ht2
  set mid := publish (offerData (s.rows r) it obj) (s.rows r).latestVersion it with hmid
  have hpub : Untouched (offerData (s.rows r) it obj) mid := by
    rw [hmid, publish_offerData_eq]
    refine ⟨rfl, rfl, rfl, fun _ _ => rfl, fun _ => .inl rfl, le_max_left _ _,
      fun h => ?_, rfl, rfl⟩
    exact max_lt h (Int.ofNat_lt.2 hlt)
  have h3 : ExecInv tx B (s.set r mid sid ⟨.write r obj next, .finishing it, rs⟩) :=
    h2.silent_again hb hpub ⟨ht2.reads, ht2.writes, ht2.valid, ht2.phase⟩ rfl
  obtain ⟨b, hgarbage⟩ := (h3.rows r).leavesGarbage_ok hb ht.valid.1 it
  rw [set_rows_self] at hgarbage
  have hfin : finishWrite svc mid it obj tx.epochNr =
      .ok (if b then registerRow (endSplitting mid it) svc.addRow else endSplitting mid it) := by
    rw [finishWrite, hgarbage]
    rfl
  obtain ⟨n, a, g, heq⟩ := finishWrite_eq hfin
  rw [heq] at hfin
  refine ⟨{ mid with nrOndsplt := n, contAffinity := a, gcHandle := g }, ?_, ?_⟩
  · rw [writeWithVersion, hit]
    exact hfin
  · exact h3.silent_again hb (untouched_bookkeeping mid n a g)
      ⟨ht2.reads, ht2.writes, ht2.valid.2, trivial⟩ rfl

/-- A whole transaction whose predecessors are finished: it ends, and it leaves an invariant state
in which nothing but itself has moved. -/
theorem execAlone_spec (hb : Ready tx B) (svc : Services) (hsid : sid ∈ tx.sids) :
    ∀ (p : Prog R ℕ) (s : State R) (rs : List (R × ℕ)), ExecInv tx B s →
      (∀ k ∈ tx.sids, k < sid → Txns.Finished s k) → s.thread sid = ⟨p, .ready, rs⟩ →
      ∃ s' reads, execAlone tx.epochNr svc sid p s.rows = some (s'.rows, reads) ∧
        ExecInv tx B s' ∧ s'.thread sid = ⟨.done, .ready, rs ++ reads⟩ ∧
        ∀ k ≠ sid, s'.thread k = s.thread k := by
  intro p
  induction p with
  | done =>
    intro s rs hi _ hth
    exact ⟨s, [], rfl, hi, by rw [hth, append_nil], fun k _ => rfl⟩
  | read r k ih =>
    intro s rs hi hmin hth
    obtain ⟨pos, obj, hread, hi'⟩ := hi.read_alone hb hsid hmin hth
    have hkeep : ∀ j ≠ sid, (s.set r (s.rows r) sid ⟨k obj, .ready, rs ++ [(r, obj)]⟩).thread j =
        s.thread j := fun j hj => set_thread_of_ne _ _ _ _ hj
    obtain ⟨s', reads, hexec, hs', hth', hother⟩ := ih obj _ (rs ++ [(r, obj)]) hi'
      (fun j hj hlt => by rw [finished_iff, hkeep j hlt.ne]; exact hmin j hj hlt)
      (set_thread_self ..)
    have hrows : (s.set r (s.rows r) sid ⟨k obj, .ready, rs ++ [(r, obj)]⟩).rows = s.rows :=
      update_eq_self _ _
    rw [hrows] at hexec
    refine ⟨s', (r, obj) :: reads, ?_, hs', ?_, fun j hj => by rw [hother j hj, hkeep j hj]⟩
    · rw [execAlone, hread]
      simp [hexec]
    · rw [hth', append_assoc]
      rfl
  | write r obj next ih =>
    intro s rs hi hmin hth
    obtain ⟨row, hwrite, hi'⟩ := hi.write_alone hb svc hsid hth
    have hkeep : ∀ j ≠ sid, (s.set r row sid ⟨next, .ready, rs⟩).thread j = s.thread j :=
      fun j hj => set_thread_of_ne _ _ _ _ hj
    obtain ⟨s', reads, hexec, hs', hth', hother⟩ := ih _ rs hi'
      (fun j hj hlt => by rw [finished_iff, hkeep j hlt.ne]; exact hmin j hj hlt)
      (set_thread_self ..)
    refine ⟨s', reads, ?_, hs', hth', fun j hj => by rw [hother j hj, hkeep j hj]⟩
    rw [execAlone, hwrite]
    exact hexec

/-- All transactions, one after another: the state at the end is one that the interleavings
reach. -/
theorem execSerial_spec (hb : Ready tx B) (svc : Services) :
    ∀ (l : List ℕ) (s : State R), l.Pairwise (· < ·) → ExecInv tx B s →
      (∀ k ∈ l, k ∈ tx.sids ∧ s.thread k = ⟨tx.prog k, .ready, []⟩) →
      (∀ k ∈ tx.sids, k ∉ l → Txns.Finished s k) →
      ∃ s' out, execSerial tx svc l s.rows = some (s'.rows, out) ∧ ExecInv tx B s' ∧
        (∀ k ∈ tx.sids, Txns.Finished s' k) ∧ (∀ k ∉ l, s'.thread k = s.thread k) ∧
        ∀ k ∈ l, (k, (s'.thread k).reads) ∈ out := by
  intro l
  induction l with
  | nil =>
    intro s _ hi _ hf
    exact ⟨s, [], rfl, hi, fun k hk => hf k hk (by simp), fun _ _ => rfl, by simp⟩
  | cons sid l ih =>
    intro s hsorted hi hl hf
    have hmin := finished_below hsorted hf
    obtain ⟨hlt, hsorted⟩ := pairwise_cons.1 hsorted
    obtain ⟨hsid, hth⟩ := hl sid (by simp)
    have hnot : sid ∉ l := fun hc => absurd (hlt sid hc) (lt_irrefl _)
    obtain ⟨mid, reads, hexec, hmid, hth', hother⟩ :=
      execAlone_spec hb svc hsid _ s [] hi hmin hth
    obtain ⟨s', out, hserial, hs', hfin, hkeep, hout⟩ := ih mid hsorted hmid
      (fun k hk => ⟨(hl k (by simp [hk])).1, by
        rw [hother k (hlt k hk).ne']; exact (hl k (by simp [hk])).2⟩)
      (fun k hk hkl => by
        by_cases hks : k = sid
        · rw [hks, finished_iff, hth']
        · rw [finished_iff, hother k hks]
          exact hf k hk (by simp [hks, hkl]))
    refine ⟨s', (sid, reads) :: out, ?_, hs', hfin, fun k hk => ?_, fun k hk => ?_⟩
    · rw [execSerial, hexec]
      simp [hserial]
    · simp only [mem_cons, not_or] at hk
      rw [hkeep k hk.2, hother k hk.1]
    · rcases mem_cons.1 hk with rfl | hk
      · rw [hkeep k hnot, hth']
        exact mem_cons_self
      · exact mem_cons_of_mem _ (hout k hk)

/-! ## The result -/

/-- **Deterministic, deadlock-free execution of an epoch.** The rows hold one written version of an
earlier epoch each, and the versions of all write sets have been appended. In every state that an
interleaving reaches no access aborts, the unfinished transaction with the smallest serial id can
make its next access, and all transactions can be brought to their ends. The transactions can be
executed one after another in the order of their serial ids, and every finished interleaving has the
reads and the rows of that execution. -/
theorem epoch_execution (tx : Txns R) (rows₀ rows : R → VHandle)
    (hl : ∀ r, Loaded tx.epochNr tx.sids (rows₀ r))
    (hvalid : ∀ sid ∈ tx.sids, (tx.prog sid).AllWrites fun r obj => ValidObject (rows₀ r) obj)
    (ops : List (R × AppendOp)) (hops : AppendsAll tx ops)
    (hrun : run (appendStep tx.epochNr) rows₀ ops = some rows) (svc : Services) :
    (∀ evs s, run tx.step (tx.start rows) evs = some s →
      (∀ sid ∈ tx.sids, ∀ gchdl, (∀ f, advance tx.epochNr s sid gchdl ≠ .fault f) ∧
        (¬ Txns.Finished s sid → (∀ k ∈ tx.sids, k < sid → Txns.Finished s k) →
          ∃ s', advance tx.epochNr s sid gchdl = .next s')) ∧
      ∃ evs' s', run tx.step s evs' = some s' ∧ ∀ sid ∈ tx.sids, Txns.Finished s' sid) ∧
    ∃ rows' out, execSerial tx svc (tx.sids.mergeSort (· ≤ ·)) rows = some (rows', out) ∧
      ∀ evs s, run tx.step (tx.start rows) evs = some s →
        (∀ sid ∈ tx.sids, Txns.Finished s sid) →
        (∀ sid ∈ tx.sids, (sid, (s.thread sid).reads) ∈ out) ∧
        ∀ r, (s.rows r).entries = (rows' r).entries := by
  have hb : Ready tx rows := ready_of_appends hl hops hvalid hrun
  have hreach : ∀ evs s, run tx.step (tx.start rows) evs = some s → ExecInv tx rows s :=
    fun evs s hrun => run_induction (fun s e t hi hstep => hi.step hb hstep) (execInv_start hb) hrun
  have hsorted : (tx.sids.mergeSort (· ≤ ·)).Pairwise (· < ·) := by
    have hle : (tx.sids.mergeSort (· ≤ ·)).Pairwise (· ≤ ·) := pairwise_mergeSort' _ _
    exact (hle.and ((mergeSort_perm tx.sids _).nodup_iff.2 tx.nodup)).imp
      fun ⟨hle, hne⟩ => lt_of_le_of_ne hle hne
  have hmem : ∀ k, k ∈ tx.sids.mergeSort (· ≤ ·) ↔ k ∈ tx.sids := fun k =>
    (mergeSort_perm tx.sids _).mem_iff
  refine ⟨fun evs s hs => ⟨fun sid hsid gchdl => ?_, ?_⟩, ?_⟩
  · have hi := hreach evs s hs
    rcases hi.advance_cases hb hsid gchdl with ⟨hblocked, hwhy⟩ | ⟨s', hnext, -⟩
    · refine ⟨fun f => by simp [hblocked], fun hnf hmin => ?_⟩
      exact absurd (hwhy.resolve_left hnf) (hi.not_waits hb hsid hmin)
    · exact ⟨fun f => by simp [hnext], fun _ _ => ⟨s', hnext⟩⟩
  · exact (hreach evs s hs).finish_all hb _ s hsorted (fun k => (hmem k).1)
      fun k hk hnot => absurd ((hmem k).2 hk) hnot
  · obtain ⟨s', out, hserial, hs', hfin, -, hout⟩ := execSerial_spec hb svc _ (tx.start rows)
      hsorted (execInv_start hb) (fun k hk => ⟨(hmem k).1 hk, rfl⟩)
      (fun k hk hnot => absurd ((hmem k).2 hk) hnot)
    refine ⟨s'.rows, out, hserial, fun evs s hs hf => ⟨fun sid hsid => ?_, fun r => ?_⟩⟩
    · rw [(hreach evs s hs).reads_of_finished hsid (hf sid hsid),
        ← hs'.reads_of_finished hsid (hfin sid hsid)]
      exact hout sid ((hmem sid).2 hsid)
    · exact (hreach evs s hs).entries_eq hb hs' hf hfin r

/-! A small epoch: the first transaction writes what the second one reads. -/

def loadedRow : VHandle where
  addr := 0x8000
  inlineUsed := 0xFF
  capacity := 4
  size := 1
  curStart := 0
  latestVersion := 0
  nrOndsplt := 0
  contAffinity := -1
  allocByRegionid := 0
  versions := fun i => if i = 4 then 0x1000 else 0
  bufPos := -1
  gcHandle := 0

def firstSid : ℕ := generateSerialId 1 1 1

def secondSid : ℕ := generateSerialId 1 1 2

/-- The second transaction writes a value that depends on its read of the row `true`. -/
def twoTxns : Txns Bool where
  epochNr := 1
  sids := [secondSid, firstSid]
  prog := fun sid =>
    if sid = firstSid then .read false fun _ => .write true 0x2000 .done
    else .read true fun v => .write false (if v = 0x2000 then 0x3000 else 0x4000) .done
  writeSet := fun sid => if sid = firstSid then [true] else [false]
  core := fun _ => 3
  nodup := by decide
  epochOf_sid := by decide
  writes_once := by
    intro sid _
    split_ifs
    · exact fun _ => ⟨by decide, rfl⟩
    · exact fun _ => ⟨by decide, rfl⟩
  writeSet_nodup := by decide
  core_lt := by decide

def twoAppends : List (Bool × AppendOp) :=
  [(false, .one clearedMemory secondSid 0), (true, .one clearedMemory firstSid 0)]

/-- The second transaction waits for the write of the first one. -/
def twoRun : List Event :=
  [.advance secondSid 0, .wait secondSid] ++ List.replicate 6 (.advance firstSid 0) ++
    List.replicate 5 (.advance secondSid 0)

theorem epoch_execution_twoTxns : ∃ rows rows' out s,
    run (appendStep 1) (fun _ => loadedRow) twoAppends = some rows ∧
      execSerial twoTxns clearedMemory (twoTxns.sids.mergeSort (· ≤ ·)) rows =
        some (rows', out) ∧
      run twoTxns.step (twoTxns.start rows) twoRun = some s ∧
      (∀ sid ∈ twoTxns.sids, Txns.Finished s sid) ∧
      (∀ sid ∈ twoTxns.sids, (sid, (s.thread sid).reads) ∈ out) ∧
      ∀ r, (s.rows r).entries = (rows' r).entries := by
  obtain ⟨rows, hrun, s, hs, hfin⟩ : ∃ rows,
      run (appendStep 1) (fun _ => loadedRow) twoAppends = some rows ∧
      ∃ s, run twoTxns.step (twoTxns.start rows) twoRun = some s ∧
        ∀ sid ∈ twoTxns.sids, Txns.Finished s sid := by decide +kernel
  have hl : ∀ r : Bool, Loaded 1 twoTxns.sids loadedRow := fun _ =>
    ⟨rfl, by decide, rfl, by decide, by decide, by decide, by decide⟩
  have hvalid : ∀ sid ∈ twoTxns.sids,
      (twoTxns.prog sid).AllWrites fun _ obj => ValidObject loadedRow obj := by
    intro sid _
    simp only [twoTxns]
    split_ifs
    · exact fun _ => ⟨⟨by decide, by decide⟩, trivial⟩
    · intro v
      refine ⟨?_, trivial⟩
      split_ifs
      · exact ⟨by decide, by decide⟩
      · exact ⟨by decide, by decide⟩
  have hops : AppendsAll twoTxns twoAppends := by
    refine ⟨by decide, fun op hop => ?_⟩
    have hsvc : op.2.svc = clearedMemory := by
      simp only [twoAppends, mem_cons, not_mem_nil, or_false] at hop
      rcases hop with rfl | rfl <;> rfl
    rw [hsvc]
    intro n mem hmem i
    cases hmem
    change 0 ∉ twoTxns.sids
    decide
  obtain ⟨-, rows', out, hserial, hall⟩ :=
    epoch_execution twoTxns (fun _ => loadedRow) rows hl hvalid twoAppends hops hrun clearedMemory
  exact ⟨rows, rows', out, s, hrun, hserial, hs, hfin, hall twoRun s hs hfin⟩

end Felis.Epoch
