import Felis.Epoch.Execution

/-!
# The invariant of an executing epoch

The reference is the serial execution of the abstract database: `Txns.db sid` is what the
transactions before `sid` leave. In every reachable state each slot is pending as long as its
transaction has yet to write it, and holds the value of the serial execution afterwards; and each
transaction has read what it reads in the serial execution. The three search shortcuts need no
argument of their own here: `Executing` holds of every row in every state.
-/

namespace Felis.Epoch

open Cells Row Runs Serial Function List Option

variable {R : Type} [DecidableEq R] {sid : ℕ} {r : R}

namespace Txns

variable (tx : Txns R) (B : R → VHandle)

def txn (k : ℕ) : Option (Prog R ℕ) := if k ∈ tx.sids then some (tx.prog k) else none

/-- The database that `sid` sees in the serial execution; `B` are the rows at the start. -/
def db (sid : ℕ) : R → ℕ := serialDb tx.txn (fun r => (B r).objects 0) sid

def serialWrites (sid : ℕ) : List (R × ℕ) := writesOf tx.txn (fun r => (B r).objects 0) sid

variable {tx B}

theorem serialWrites_eq (hsid : sid ∈ tx.sids) :
    tx.serialWrites B sid = (tx.prog sid).writes (tx.db B sid) := by
  rw [serialWrites, writesOf, txn, if_pos hsid]
  rfl

theorem serialWrites_perm (hsid : sid ∈ tx.sids) :
    ((tx.serialWrites B sid).map Prod.fst).Perm (tx.writeSet sid) := by
  rw [serialWrites_eq hsid]
  exact Prog.writes_perm _ _ _ (tx.writes_once sid hsid)

theorem serialWrites_nodup (hsid : sid ∈ tx.sids) : ((tx.serialWrites B sid).map Prod.fst).Nodup :=
  (serialWrites_perm hsid).nodup_iff.2 (tx.writeSet_nodup sid hsid)

theorem mem_serialWrites (h : r ∈ (tx.serialWrites B sid).map Prod.fst) :
    sid ∈ tx.sids ∧ r ∈ tx.writeSet sid := by
  by_cases hsid : sid ∈ tx.sids
  · exact ⟨hsid, (serialWrites_perm hsid).mem_iff.1 h⟩
  · rw [serialWrites, writesOf, txn, if_neg hsid] at h
    cases h

end Txns

/-- The rows when the execution starts: one old version, then exactly the versions of the
transactions that write the row, all pending. -/
structure Ready (tx : Txns R) (B : R → VHandle) : Prop where
  epochNr_ne : R → tx.epochNr ≠ 0
  exec : ∀ r, Executing (B r) 1
  slot_of_mem : ∀ r, ∀ sid ∈ tx.sids, r ∈ tx.writeSet sid →
    ∃ i, 1 ≤ i ∧ i < (B r).size ∧ (B r).versions i = sid
  mem_of_slot : ∀ r i, 1 ≤ i → i < (B r).size →
    (B r).versions i ∈ tx.sids ∧ r ∈ tx.writeSet ((B r).versions i)
  pending : ∀ r i, 1 ≤ i → i < (B r).size → isPendingVal ((B r).objects i) = true
  object : ∀ r, isPendingVal ((B r).objects 0) = false
  object_sid : ∀ r, (B r).objects 0 ∉ tx.sids
  old : ∀ r, ∀ sid ∈ tx.sids, (B r).versions 0 < sid
  unused : ∀ r i, (B r).size ≤ i → i < (B r).capacity → (B r).versions i ∉ tx.sids
  valid : ∀ sid ∈ tx.sids, (tx.prog sid).AllWrites fun r obj => ValidObject (B r) obj

/-- The part of the program whose objects are still to be stored. -/
def Thread.rest (th : Thread R) : Prog R ℕ :=
  match th.phase, th.prog with
  | .publishing _ _, .write _ _ next => next
  | .finishing _, .write _ _ next => next
  | .registering _, .write _ _ next => next
  | _, p => p

/-- The rows that `sid` has still to write when it is at `th`. -/
def leftRows (tx : Txns R) (B : R → VHandle) (sid : ℕ) (th : Thread R) : List R :=
  (th.rest.writes (tx.db B sid)).map Prod.fst

/-- A slot is pending until its transaction stores the object, and then holds the value of the
serial execution. -/
structure SlotInv (tx : Txns R) (B : R → VHandle) (s : State R) (r : R) (i : ℕ) : Prop where
  pending : r ∈ leftRows tx B ((B r).versions i) (s.thread ((B r).versions i)) →
    isPendingVal ((s.rows r).objects i) = true
  written : r ∉ leftRows tx B ((B r).versions i) (s.thread ((B r).versions i)) →
    isPendingVal ((s.rows r).objects i) = false ∧
      (r, (s.rows r).objects i) ∈ tx.serialWrites B ((B r).versions i)

/-- A row during the execution: only objects, `latest_version` and the bookkeeping change. -/
structure RowInv (tx : Txns R) (B : R → VHandle) (s : State R) (r : R) : Prop where
  exec : Executing (s.rows r) 1
  size : (s.rows r).size = (B r).size
  capacity : (s.rows r).capacity = (B r).capacity
  versions : ∀ i < (B r).capacity, (s.rows r).versions i = (B r).versions i
  object : (s.rows r).objects 0 = (B r).objects 0
  slots : ∀ i, 1 ≤ i → i < (B r).size → SlotInv tx B s r i
  addr : (s.rows r).addr = (B r).addr
  inlineUsed : (s.rows r).inlineUsed = (B r).inlineUsed

/-- The slot that a transaction has found. -/
def PhaseInv (B : R → VHandle) (sid : ℕ) (th : Thread R) : Prop :=
  match th.phase, th.prog with
  | .ready, _ => True
  | .waiting pos, .read r _ => ReadSlot (B r) sid pos
  | .offering it _, .write r _ _ | .publishing it _, .write r _ _ | .finishing it, .write r _ _ =>
    1 ≤ it ∧ it < (B r).size ∧ (B r).versions it = sid
  | .registering _, .write _ _ _ => True
  | _, _ => False

/-- A transaction during the execution follows its serial execution. -/
structure ThreadInv (tx : Txns R) (B : R → VHandle) (sid : ℕ) (th : Thread R) : Prop where
  reads : th.reads ++ th.rest.reads (tx.db B sid) = (tx.prog sid).reads (tx.db B sid)
  writes : ∃ ws, ws ++ th.rest.writes (tx.db B sid) = tx.serialWrites B sid
  valid : th.prog.AllWrites fun r obj => ValidObject (B r) obj
  phase : PhaseInv B sid th

structure ExecInv (tx : Txns R) (B : R → VHandle) (s : State R) : Prop where
  rows : ∀ r, RowInv tx B s r
  threads : ∀ sid ∈ tx.sids, ThreadInv tx B sid (s.thread sid)

variable {tx : Txns R} {B : R → VHandle} {s : State R}

/-! ## At the start -/

section

variable (hb : Ready tx B)

include hb

theorem execInv_start : ExecInv tx B (tx.start B) := by
  refine ⟨fun r => ⟨hb.exec r, rfl, rfl, fun _ _ => rfl, rfl, fun i hi hlt => ⟨fun _ => ?_, ?_⟩,
    rfl, rfl⟩, fun sid hsid => ⟨rfl, ⟨[], ?_⟩, hb.valid sid hsid, trivial⟩⟩
  · exact hb.pending r i hi hlt
  · intro hnot
    obtain ⟨hsid, hmem⟩ := hb.mem_of_slot r i hi hlt
    refine absurd ?_ hnot
    have hperm := Txns.serialWrites_perm (B := B) hsid
    rw [Txns.serialWrites_eq hsid] at hperm
    exact hperm.mem_iff.2 hmem
  · rw [Txns.serialWrites_eq hsid]
    rfl

/-! ## What a read finds -/

/-- The slot before the reader belongs to the last transaction before it that writes the row. -/
theorem Ready.unwritten_between {sid pos k : ℕ} (hpos : ReadSlot (B r) sid pos)
    (hlt : (B r).versions pos < k) (hk : k < sid) :
    r ∉ (tx.serialWrites B k).map Prod.fst := fun hmem => by
  obtain ⟨hks, hw⟩ := Txns.mem_serialWrites hmem
  obtain ⟨j, -, hj, rfl⟩ := hb.slot_of_mem r k hks hw
  have hpj : pos < j := not_le.1 fun hc =>
    absurd ((hb.exec r).sorted_le hc hpos.lt_size) (not_le.2 hlt)
  exact absurd (hpos.last j hpj hj) (not_le.2 hk)

/-- **A read that does not wait gets the serial value.** -/
theorem ExecInv.object_eq_db (hi : ExecInv tx B s) {sid pos : ℕ} (hpos : ReadSlot (B r) sid pos)
    (hobj : isPendingVal ((s.rows r).objects pos) = false) :
    (s.rows r).objects pos = tx.db B sid r := by
  have hr := hi.rows r
  rcases Nat.eq_zero_or_pos pos with rfl | h0
  · rw [hr.object]
    have hdb := serialDb_eq_of_unwritten tx.txn (fun r => (B r).objects 0) (r := r)
      (Nat.zero_le sid) fun k _ hk hmem =>
        hb.unwritten_between hpos (hb.old r k (Txns.mem_serialWrites hmem).1) hk hmem
    exact hdb.symm
  · obtain ⟨hsid', -⟩ := hb.mem_of_slot r pos h0 hpos.lt_size
    have hw := ((hr.slots pos h0 hpos.lt_size).written fun hc => by
      rw [(hr.slots pos h0 hpos.lt_size).pending hc] at hobj
      cases hobj).2
    exact (serialDb_eq_of_last_write tx.txn _ hpos.version_lt (Txns.serialWrites_nodup hsid') hw
      fun k hlt hk => hb.unwritten_between hpos hlt hk).symm

/-! ## Steps -/

variable (hr : RowInv tx B s r)

include hr

theorem RowInv.past_ne (hsid : sid ∈ tx.sids) : (s.rows r).versions (s.rows r).size ≠ sid := by
  have hle := (hb.exec r).size_le
  rw [hr.size]
  rcases Nat.eq_or_lt_of_le hle with heq | hlt
  · -- the array is full: the cell past the versions is the first object
    have : (s.rows r).versions (B r).size = (B r).objects 0 := by
      rw [heq, ← hr.capacity, ← hr.object]
      rfl
    rw [this]
    exact fun hc => hb.object_sid r (hc ▸ hsid)
  · rw [hr.versions _ hlt]
    exact fun hc => hb.unused r _ le_rfl hlt (hc ▸ hsid)

theorem RowInv.versions_of_lt {i : ℕ} (hi : i < (B r).size) :
    (s.rows r).versions i = (B r).versions i :=
  hr.versions i (hi.trans_le (hb.exec r).size_le)

/-- Slots are found by their version, which never changes. -/
theorem RowInv.readSlot_iff {sid pos : ℕ} (h : ReadSlot (s.rows r) sid pos) :
    ReadSlot (B r) sid pos := by
  have hlt : pos < (B r).size := hr.size ▸ h.lt_size
  refine ⟨hlt, ?_, fun i hi hsize => ?_⟩
  · rw [← hr.versions_of_lt hb hlt]
    exact h.version_lt
  · rw [← hr.versions_of_lt hb hsize]
    exact h.last i hi (by rw [hr.size]; exact hsize)

theorem RowInv.locate_read (hsid : sid ∈ tx.sids) :
    ∃ pos, withVersion (s.rows r) sid = .ok (some pos) ∧ ReadSlot (B r) sid pos := by
  have h1 : 1 ≤ (B r).size := (hb.exec r).nrOld_le
  have hold : (s.rows r).versions 0 < sid := by
    rw [hr.versions_of_lt hb (by omega)]
    exact hb.old r sid hsid
  obtain ⟨pos, hpos, hslot⟩ := hr.exec.withVersion_spec ⟨0, by rw [hr.size]; omega, hold⟩
    fun i hi => by
      obtain rfl : i = 0 := by omega
      exact hold
  exact ⟨pos, hpos, hr.readSlot_iff hb hslot⟩

theorem RowInv.locate_write (hsid : sid ∈ tx.sids) (hw : r ∈ tx.writeSet sid) :
    ∃ it, writeSlot (s.rows r) sid = .ok it ∧ 1 ≤ it ∧ it < (B r).size ∧
      (B r).versions it = sid := by
  obtain ⟨it, h1, hlt, heq⟩ := hb.slot_of_mem r sid hsid hw
  have hv : (s.rows r).versions it = sid := by rw [hr.versions_of_lt hb hlt, heq]
  have hslot := hr.exec.writeSlot_spec h1 (by rw [hr.size]; exact hlt)
    fun _ => by rw [hv]; exact hr.past_ne hb hsid
  rw [hv] at hslot
  exact ⟨it, hslot, h1, hlt, heq⟩

end

/-- The rows a transaction has still to write are in its write set. -/
theorem ThreadInv.mem_writeSet {th : Thread R} (ht : ThreadInv tx B sid th)
    (hr : r ∈ leftRows tx B sid th) : r ∈ tx.writeSet sid := by
  obtain ⟨ws, hws⟩ := ht.writes
  have hmem : r ∈ (tx.serialWrites B sid).map Prod.fst := by
    rw [← hws, map_append]
    exact mem_append_right _ hr
  exact (Txns.mem_serialWrites hmem).2

/-- A step touches one row and one transaction: the invariant of the others only depends on which
rows that transaction has still to write. -/
theorem ExecInv.set (hi : ExecInv tx B s) {row : VHandle} {th : Thread R}
    (hrow : RowInv tx B (s.set r row sid th) r) (hth : ThreadInv tx B sid th)
    (hleft : ∀ r', r' ≠ r → (r' ∈ leftRows tx B sid th ↔ r' ∈ leftRows tx B sid (s.thread sid))) :
    ExecInv tx B (s.set r row sid th) := by
  refine ⟨fun r' => ?_, fun k hk => ?_⟩
  · by_cases hrr : r' = r
    · rw [hrr]
      exact hrow
    · have hr := hi.rows r'
      have hrows : (s.set r row sid th).rows r' = s.rows r' := update_of_ne hrr _ _
      have hkeys : ∀ k, r' ∈ leftRows tx B k ((s.set r row sid th).thread k) ↔
          r' ∈ leftRows tx B k (s.thread k) := fun k => by
        by_cases hk : k = sid
        · subst hk
          simp only [State.set, update_self]
          exact hleft r' hrr
        · simp only [State.set, update_of_ne hk]
      refine ⟨by rw [hrows]; exact hr.exec, by rw [hrows, hr.size], by rw [hrows, hr.capacity],
        fun i hlt => by rw [hrows, hr.versions i hlt], by rw [hrows, hr.object],
        fun i h1 hlt => ⟨fun hm => ?_, fun hm => ?_⟩, by rw [hrows, hr.addr],
        by rw [hrows, hr.inlineUsed]⟩
      · rw [hrows]
        exact (hr.slots i h1 hlt).pending ((hkeys _).1 hm)
      · rw [hrows]
        exact (hr.slots i h1 hlt).written fun hc => hm ((hkeys _).2 hc)
  · by_cases hks : k = sid
    · subst hks
      simpa [State.set] using hth
    · simpa [State.set, update_of_ne hks] using hi.threads k hk

/-- A change of the bookkeeping of a row and of the marks on its pending slots. -/
structure Untouched (row row' : VHandle) : Prop where
  size : row'.size = row.size
  capacity : row'.capacity = row.capacity
  curStart : row'.curStart = row.curStart
  versions : ∀ i < row.capacity, row'.versions i = row.versions i
  objects : ∀ i, row'.objects i = row.objects i ∨
    (isPendingVal (row'.objects i) = true ∧ isPendingVal (row.objects i) = true)
  latest_ge : row.latestVersion ≤ row'.latestVersion
  latest_lt : row.latestVersion < row.size → row'.latestVersion < row.size
  addr : row'.addr = row.addr
  inlineUsed : row'.inlineUsed = row.inlineUsed

theorem Untouched.refl (row : VHandle) : Untouched row row := by
  constructor <;> simp

theorem Untouched.executing {row row' : VHandle} (h : Untouched row row') {nrOld : ℕ}
    (he : Executing row nrOld) : Executing row' nrOld := by
  have hle := he.size_le
  refine ⟨by rw [h.size, h.capacity]; exact hle, fun i j hij hj => ?_,
    by rw [h.size]; exact he.nrOld_le,
    fun hlt => ?_, he.latest_ge.trans h.latest_ge, ?_⟩
  · rw [h.size] at hj
    rw [h.versions i (by omega), h.versions j (by omega)]
    exact he.sorted i j hij hj
  · rw [h.size] at hlt
    rw [h.curStart]
    exact he.curStart hlt
  · rw [h.size]
    exact h.latest_lt he.latest_lt

theorem ExecInv.silent (hb : Ready tx B) (hi : ExecInv tx B s) {row : VHandle} {th : Thread R}
    (hrow : Untouched (s.rows r) row) (hth : ThreadInv tx B sid th)
    (hrest : th.rest.writes (tx.db B sid) = (s.thread sid).rest.writes (tx.db B sid)) :
    ExecInv tx B (s.set r row sid th) := by
  have hr := hi.rows r
  have hrows : (s.set r row sid th).rows r = row := update_self _ _ _
  have hleft : ∀ k, leftRows tx B k ((s.set r row sid th).thread k) =
      leftRows tx B k (s.thread k) := fun k => by
    by_cases hk : k = sid
    · subst hk
      simp [State.set, leftRows, hrest]
    · simp only [State.set, update_of_ne hk]
  refine hi.set ⟨by rw [hrows]; exact hrow.executing hr.exec, by rw [hrows, hrow.size, hr.size],
    by rw [hrows, hrow.capacity, hr.capacity], fun i hlt => ?_, ?_,
    fun i h1 hlt => ⟨fun hm => ?_, fun hm => ?_⟩, by rw [hrows, hrow.addr, hr.addr],
    by rw [hrows, hrow.inlineUsed, hr.inlineUsed]⟩ hth fun r' _ => by rw [leftRows, hrest]; rfl
  · rw [hrows, hrow.versions i (by rw [hr.capacity]; exact hlt), hr.versions i hlt]
  · rw [hrows]
    rcases hrow.objects 0 with heq | ⟨-, hp⟩
    · rw [heq, hr.object]
    · rw [hr.object, hb.object r] at hp
      cases hp
  · rw [hleft] at hm
    rw [hrows]
    rcases hrow.objects i with heq | ⟨hp, -⟩
    · rw [heq]
      exact (hr.slots i h1 hlt).pending hm
    · exact hp
  · rw [hleft] at hm
    have hw := (hr.slots i h1 hlt).written hm
    rw [hrows]
    rcases hrow.objects i with heq | ⟨-, hp⟩
    · rw [heq]
      exact hw
    · rw [hp] at hw
      cases hw.1

theorem ExecInv.offer (hb : Ready tx B) (hi : ExecInv tx B s) {sid obj it : ℕ} {pos : ℤ}
    {next : Prog R ℕ} {rs : List (R × ℕ)} (hsid : sid ∈ tx.sids)
    (hth : s.thread sid = ⟨.write r obj next, .offering it pos, rs⟩) :
    ExecInv tx B (s.set r (offerData (s.rows r) it obj) sid
      ⟨.write r obj next, .publishing it pos, rs⟩) := by
  have hr := hi.rows r
  have ht := hi.threads sid hsid
  rw [hth] at ht
  obtain ⟨h1, hlt, hver⟩ := ht.phase
  have hle := (hb.exec r).size_le
  have hcapr := hr.capacity
  -- the transaction writes the row once, so afterwards it has no write of it left
  obtain ⟨ws, hws⟩ := ht.writes
  replace hws : ws ++ (r, obj) :: next.writes (tx.db B sid) = tx.serialWrites B sid := hws
  have hnot : r ∉ (next.writes (tx.db B sid)).map Prod.fst := by
    have hnd := Txns.serialWrites_nodup (B := B) hsid
    rw [← hws, map_append, map_cons, nodup_append] at hnd
    exact (nodup_cons.1 hnd.2.1).1
  have hver' : ∀ i < (B r).capacity, (offerData (s.rows r) it obj).versions i = (B r).versions i :=
    fun i hi' => by
      rw [← hr.versions i hi']
      exact update_of_ne (by omega) _ _
  have hobj : ∀ i, (offerData (s.rows r) it obj).objects i =
      if i = it then obj else (s.rows r).objects i := fun i => objects_update _ _ it obj i
  have hrows : ∀ th, (s.set r (offerData (s.rows r) it obj) sid th).rows r =
      offerData (s.rows r) it obj := fun th => update_self _ _ _
  have hinj : ∀ i < (B r).size, (B r).versions i = sid → i = it := fun i hi' heq =>
    (hb.exec r).eq_of_versions_eq hi' hlt (heq.trans hver.symm)
  refine hi.set ⟨?_, by rw [hrows]; exact hr.size, by rw [hrows]; exact hr.capacity,
    fun i hi' => by rw [hrows, hver' i hi'], ?_, fun i hi1 hi' => ?_, by rw [hrows]; exact hr.addr,
    by rw [hrows]; exact hr.inlineUsed⟩ ⟨ht.reads, ⟨ws ++ [(r, obj)], ?_⟩, ht.valid, ht.phase⟩
    fun r' hne => ?_
  · rw [hrows]
    obtain ⟨e1, e2, e3, e4, e5, e6⟩ := hr.exec
    refine ⟨e1, fun i j hij hj => ?_, e3, e4, e5, e6⟩
    have hj' : j < (B r).size := hr.size ▸ hj
    rw [hver' i (by omega), hver' j (by omega)]
    exact (hb.exec r).sorted i j hij hj'
  · rw [hrows, hobj, if_neg (by omega), hr.object]
  · by_cases heq : i = it
    · subst heq
      refine ⟨fun hm => ?_, fun _ => ?_⟩
      · rw [hver] at hm
        simp only [State.set, update_self] at hm
        exact absurd hm hnot
      · rw [hrows, hobj, if_pos rfl, hver, ← hws]
        exact ⟨ht.valid.1.1, mem_append_right _ mem_cons_self⟩
    · have hne : (B r).versions i ≠ sid := fun hc => heq (hinj i hi' hc)
      refine ⟨fun hm => ?_, fun hm => ?_⟩
      · simp only [State.set, update_of_ne hne] at hm
        rw [hrows, hobj, if_neg heq]
        exact (hr.slots i hi1 hi').pending hm
      · simp only [State.set, update_of_ne hne] at hm
        rw [hrows, hobj, if_neg heq]
        exact (hr.slots i hi1 hi').written hm
  · rw [append_assoc]
    exact hws
  · rw [hth]
    change r' ∈ (next.writes (tx.db B sid)).map Prod.fst ↔
      r' ∈ r :: (next.writes (tx.db B sid)).map Prod.fst
    simp [hne]

theorem untouched_bookkeeping (row : VHandle) (n a : ℤ) (g : ℕ) :
    Untouched row { row with nrOndsplt := n, contAffinity := a, gcHandle := g } := by
  constructor <;> simp [VHandle.objects]

theorem untouched_casLatest {row row' : VHandle} {pos : ℤ} {it : ℕ} (hlt : it < row.size)
    (hpos : pos < it) (h : casLatest row pos it = some row') : Untouched row row' := by
  rw [casLatest, ite_none_right_eq_some, some_inj] at h
  obtain ⟨heq, rfl⟩ := h
  refine ⟨rfl, rfl, rfl, fun _ _ => rfl, fun _ => .inl rfl, ?_, fun _ => ?_, rfl, rfl⟩
  · rw [heq]
    exact hpos.le
  · exact Int.ofNat_lt.2 hlt

theorem untouched_waitForData (row : VHandle) (pos : ℕ) {core : ℕ} (hcore : core < 32) :
    Untouched row (waitForData row pos core) := by
  rw [waitForData]
  split_ifs with hp
  · refine ⟨rfl, rfl, rfl, fun i hi => update_of_ne (by omega) _ _, fun i => ?_, le_rfl,
      fun h => h, rfl, rfl⟩
    simp only [VHandle.objects, objects_update]
    split_ifs with heq
    · subst heq
      refine .inr ⟨?_, hp⟩
      rw [isPendingVal_clearBit _ hcore]
      exact hp
    · exact .inl rfl
  · exact Untouched.refl row

/-- The end of a write never aborts: the object is valid and the epoch is not the loader's. -/
theorem RowInv.leavesGarbage_ok (hb : Ready tx B) (hr : RowInv tx B s r) {obj : ℕ}
    (hobj : ValidObject (B r) obj) (it : ℕ) :
    ∃ b, leavesGarbage (s.rows r) it obj tx.epochNr = .ok b := by
  have hgarbage : ∃ b, isDataGarbage (s.rows r) obj = .ok b := by
    rw [isDataGarbage, VHandle.isInlined, hr.addr, hr.inlineUsed]
    split_ifs with h0 hin hinl
    · exact ⟨_, rfl⟩
    · exact ⟨_, rfl⟩
    · exact absurd (hobj.2 hin.1 hin.2) hinl
    · exact ⟨_, rfl⟩
  obtain ⟨b, hgarbage⟩ := hgarbage
  rw [leavesGarbage, hgarbage, if_neg (hb.epochNr_ne r)]
  by_cases hlast : it + 1 = (s.rows r).size
  · exact ⟨false, if_pos hlast⟩
  · rw [if_neg hlast]
    cases hreg : b && (s.rows r).gcHandle == 0 with
    | true => exact ⟨true, if_pos hreg⟩
    | false => exact ⟨false, if_neg (by rw [hreg]; exact Bool.false_ne_true)⟩

/-- The transaction `sid` waits for data that its transaction has not stored yet. -/
def WaitsForData (s : State R) (sid : ℕ) : Prop :=
  ∃ r k pos, (s.thread sid).prog = .read r k ∧ (s.thread sid).phase = .waiting pos ∧
    isPendingVal ((s.rows r).objects pos) = true

/-- **One access.** A transaction that is not finished and does not wait for data makes its next
access; no access aborts, and the invariant is kept. -/
theorem ExecInv.advance_cases (hb : Ready tx B) (hi : ExecInv tx B s) (hsid : sid ∈ tx.sids)
    (gchdl : ℕ) :
    (advance tx.epochNr s sid gchdl = .blocked ∧ (Txns.Finished s sid ∨ WaitsForData s sid)) ∨
      ∃ s', advance tx.epochNr s sid gchdl = .next s' ∧ ExecInv tx B s' := by
  have ht := hi.threads sid hsid
  rw [advance]
  cases hth : s.thread sid with
  | mk prog phase rs =>
  rw [hth] at ht
  cases prog with
  | done => exact .inl ⟨rfl, .inl (by rw [Txns.Finished, hth])⟩
  | read r k =>
    have hr := hi.rows r
    cases phase with
    | ready =>
      obtain ⟨pos, hpos, hslot⟩ := hr.locate_read hb hsid
      simp only [stepRead, hpos]
      refine .inr ⟨_, rfl, hi.silent hb (Untouched.refl _)
        ⟨ht.reads, ht.writes, ht.valid, hslot⟩ ?_⟩
      rw [hth]
      rfl
    | waiting pos =>
      simp only [stepRead]
      by_cases hp : isPendingVal ((s.rows r).objects pos) = true
      · rw [if_pos hp]
        exact .inl ⟨rfl, .inr ⟨r, k, pos, by rw [hth], by rw [hth], hp⟩⟩
      · rw [if_neg hp]
        have hval := hi.object_eq_db hb ht.phase (Bool.eq_false_iff.2 hp)
        rw [hval]
        refine .inr ⟨_, rfl, hi.silent hb (Untouched.refl _)
          ⟨?_, ht.writes, ht.valid _, trivial⟩ ?_⟩
        · rw [← ht.reads, append_assoc]
          rfl
        · rw [hth]
          rfl
    | offering it pos => exact absurd ht.phase id
    | publishing it pos => exact absurd ht.phase id
    | finishing it => exact absurd ht.phase id
    | registering g => exact absurd ht.phase id
  | write r obj next =>
    have hr := hi.rows r
    cases phase with
    | ready =>
      obtain ⟨it, hit, hslot⟩ := hr.locate_write hb hsid (ht.mem_writeSet mem_cons_self)
      simp only [stepWrite, hit]
      refine .inr ⟨_, rfl, hi.silent hb (Untouched.refl _)
        ⟨ht.reads, ht.writes, ht.valid, hslot⟩ ?_⟩
      rw [hth]
      rfl
    | waiting pos => exact absurd ht.phase id
    | offering it pos => exact .inr ⟨_, rfl, hi.offer hb hsid hth⟩
    | publishing it pos =>
      obtain ⟨-, hlt, -⟩ := id ht.phase
      have hth' : ∀ phase', PhaseInv B sid ⟨.write r obj next, phase', rs⟩ →
          (⟨.write r obj next, phase', rs⟩ : Thread R).rest = next →
          ThreadInv tx B sid ⟨.write r obj next, phase', rs⟩ := fun phase' hp hrest =>
        ⟨by rw [hrest]; exact ht.reads, by rw [hrest]; exact ht.writes, ht.valid, hp⟩
      simp only [stepWrite]
      split_ifs with hpos
      · cases hcas : casLatest (s.rows r) pos it with
        | none =>
          refine .inr ⟨_, rfl, hi.silent hb (Untouched.refl _) (hth' _ ht.phase rfl) ?_⟩
          rw [hth]
          rfl
        | some row' =>
          refine .inr ⟨_, rfl, hi.silent hb (untouched_casLatest (by rw [hr.size]; exact hlt) hpos
            hcas) (hth' _ ht.phase rfl) ?_⟩
          rw [hth]
          rfl
      · refine .inr ⟨_, rfl, hi.silent hb (Untouched.refl _) (hth' _ ht.phase rfl) ?_⟩
        rw [hth]
        rfl
    | finishing it =>
      obtain ⟨b, hgarbage⟩ := hr.leavesGarbage_ok hb ht.valid.1 it
      obtain ⟨n, a, hend⟩ := endSplitting_eq (s.rows r) it
      have hrow : Untouched (s.rows r) (endSplitting (s.rows r) it) := by
        rw [hend]
        exact untouched_bookkeeping _ n a _
      simp only [stepWrite, hgarbage]
      cases b with
      | true =>
        refine .inr ⟨_, rfl, hi.silent hb hrow ⟨ht.reads, ht.writes, ht.valid, trivial⟩ ?_⟩
        rw [hth]
        rfl
      | false =>
        refine .inr ⟨_, rfl, hi.silent hb hrow ⟨ht.reads, ht.writes, ht.valid.2, trivial⟩ ?_⟩
        rw [hth]
        rfl
    | registering g =>
      obtain ⟨g', hreg⟩ := registerRow_eq (s.rows r) g
      have hrow : Untouched (s.rows r) (registerRow (s.rows r) g) := by
        rw [hreg]
        exact untouched_bookkeeping _ _ _ g'
      simp only [stepWrite]
      refine .inr ⟨_, rfl, hi.silent hb hrow ⟨ht.reads, ht.writes, ht.valid.2, trivial⟩ ?_⟩
      rw [hth]
      rfl

/-- **One step keeps the invariant.** -/
theorem ExecInv.step (hb : Ready tx B) (hi : ExecInv tx B s) {ev : Event} {s' : State R}
    (hstep : tx.step s ev = some s') : ExecInv tx B s' := by
  cases ev with
  | advance sid gchdl =>
    simp only [Txns.step, ite_none_right_eq_some] at hstep
    obtain ⟨hsid, hstep⟩ := hstep
    rcases hi.advance_cases hb hsid gchdl with ⟨hblocked, -⟩ | ⟨t, hnext, ht⟩
    · rw [hblocked] at hstep
      cases hstep
    · rw [hnext] at hstep
      cases hstep
      exact ht
  | wait sid =>
    simp only [Txns.step, ite_none_right_eq_some] at hstep
    obtain ⟨hsid, hstep⟩ := hstep
    have ht := hi.threads sid hsid
    split at hstep
    · rename_i r k pos hprog hphase
      cases hstep
      exact hi.silent hb (untouched_waitForData _ pos (tx.core_lt sid hsid)) ht rfl
    · cases hstep

end Felis.Epoch
