import Felis.Contention.Heads

/-!
# Running out of heads

When the head of a core is full and the pool of its zone is empty, `GetOrInstall` is meant to return
a null buffer, so that the version is appended under the lock. But `AllocHead` initialises the head
before it returns it, null or not.

* `append_survives`: as long as no call needs a head that the pool does not have, no memory is
  accessed through a null head, and every version is in its row or in one of the row's buffers;
* `append_nullHead`: with 65536 buffers for eight cores, the row number 8193 of a core crashes.
-/

namespace Felis.Contention

open MachineInts Row Runs Function List

theorem bind_ne_error {ε α β : Type} {x : Except ε α} {f : α → Except ε β} {e : ε}
    (hx : x ≠ .error e) (hf : ∀ a, f a ≠ .error e) : x >>= f ≠ .error e := by
  cases x with
  | error e' =>
    intro h
    cases h
    exact hx rfl
  | ok a => exact hf a

/-! ## The first heads -/

namespace Manager

variable {R : Type} {m : Manager R} {core : ℕ}

theorem allocHead_of_pos (h : 0 < (m.alloc (zone core)).free) :
    ∃ al head, m.allocHead core = .ok (m.setAlloc (zone core) al, head) ∧
      al.free + 1 = (m.alloc (zone core)).free := by
  rw [allocHead, if_neg (by omega)]
  exact ⟨_, _, rfl, Nat.succ_pred_eq_of_pos h⟩

/-- There are heads for all cores of the list. -/
theorem allocHeads_isOk {cores : List ℕ} (h : ∀ z, cores.countP (zone · = z) ≤ (m.alloc z).free) :
    ∃ m', m.allocHeads cores = .ok m' ∧ (∀ core ∈ cores, m'.bufferHeads core ≠ []) ∧
      ∀ core, m.bufferHeads core ≠ [] → m'.bufferHeads core ≠ [] := by
  induction cores generalizing m with
  | nil => exact ⟨m, rfl, by simp, fun _ h => h⟩
  | cons core cores ih =>
    have hpos : 0 < (m.alloc (zone core)).free := by
      have := h (zone core)
      rw [countP_cons_of_pos (by simp)] at this
      omega
    obtain ⟨al, head, halloc, hfree⟩ := allocHead_of_pos hpos
    have hrest : ∀ z, cores.countP (zone · = z) ≤
        (((m.setAlloc (zone core) al).setHeads core [head]).alloc z).free := by
      intro z
      have hz := h z
      change _ ≤ (update m.alloc (zone core) al z).free
      rcases eq_or_ne z (zone core) with rfl | hne
      · rw [countP_cons_of_pos (by simp)] at hz
        rw [update_self]
        omega
      · rw [countP_cons_of_neg (by simpa using hne.symm)] at hz
        rwa [update_of_ne hne]
    obtain ⟨m', hm', hall, hkeep⟩ := ih hrest
    have hset : ((m.setAlloc (zone core) al).setHeads core [head]).bufferHeads core ≠ [] := by
      change update m.bufferHeads core [head] core ≠ []
      rw [update_self]
      exact cons_ne_nil _ _
    refine ⟨m', ?_, ?_, fun core' hne => hkeep core' ?_⟩
    · rw [allocHeads, halloc]
      exact hm'
    · intro core' hmem
      rcases mem_cons.1 hmem with rfl | hmem
      · exact hkeep _ hset
      · exact hall core' hmem
    · rcases eq_or_ne core' core with rfl | hother
      · exact hset
      · change update m.bufferHeads core [head] core' ≠ []
        rwa [update_of_ne hother]

theorem freeHeads_of_empty (h : ∀ core, m.bufferHeads core = []) (cores : List ℕ) :
    m.freeHeads cores = m := by
  induction cores with
  | nil => rfl
  | cons core cores ih =>
    have hsame : m.setAlloc (zone core)
        { m.alloc (zone core) with
          free := (m.alloc (zone core)).free + (m.bufferHeads core).length } = m := by
      rw [h core]
      exact congrArg (fun alloc => { m with alloc := alloc }) (update_eq_self _ _)
    rw [freeHeads, hsame, ih]

/-- A zone has at most eight cores. -/
theorem countP_zone_le (n z : ℕ) : (List.range n).countP (zone · = z) ≤ Mem.kNrCorePerNode := by
  rw [countP_eq_length_filter]
  have hsub : (List.range n).filter (zone · = z) ⊆ List.range' (8 * z) 8 := by
    intro core hcore
    have hz : core / 8 = z := of_decide_eq_true (mem_filter.1 hcore).2
    rw [mem_range'_1]
    omega
  have hperm := subperm_of_subset (nodup_range.filter (zone · = z)) hsub
  exact hperm.length_le.trans (by simp [Mem.kNrCorePerNode])

theorem countP_zone_eq_zero {n z : ℕ} (hn : Mem.kNrCorePerNode ∣ n)
    (hz : n / Mem.kNrCorePerNode ≤ z) : (List.range n).countP (zone · = z) = 0 := by
  rw [countP_eq_zero]
  intro core hcore
  have hlt : core < n := mem_range.1 hcore
  rw [decide_eq_true_iff, zone]
  unfold Mem.kNrCorePerNode at *
  omega

/-- **The constructor.** Every core gets a head when the pools have eight of them. -/
theorem new_isOk (cfg : Config) (hn : Mem.kNrCorePerNode ∣ cfg.nrThreads)
    (hcap : Mem.kNrCorePerNode ≤ headCapacity cfg) :
    ∃ m : Manager R, new cfg = .ok m ∧ ∀ core < cfg.nrThreads, m.bufferHeads core ≠ [] := by
  have hcount : ∀ z, (List.range cfg.nrThreads).countP (zone · = z) ≤
      ((zeroPos cfg (unused cfg : Manager R)).alloc z).free := by
    intro z
    rw [free_zeroPos, unused]
    dsimp only
    split_ifs with hz
    · exact (countP_zone_le cfg.nrThreads z).trans hcap
    · rw [countP_zone_eq_zero hn (by omega)]
  obtain ⟨m, hm, hall, -⟩ := allocHeads_isOk hcount
  refine ⟨m, ?_, fun core hcore => hall core (mem_range.2 hcore)⟩
  rw [new, resetHeads, freeHeads_of_empty fun _ => rfl]
  exact hm

/-! ## Positions -/

theorem allocHead_heads {m' : Manager R} {head : VersionBufferHead R}
    (h : m.allocHead core = .ok (m', head)) : m'.bufferHeads = m.bufferHeads := by
  rw [allocHead] at h
  split_ifs at h
  cases h
  rfl

/-- No core loses its heads. -/
theorem getOrInstall_heads {r : R} {bufPos : ℤ} {m' : Manager R} {handle : Option ℤ}
    (h : m.getOrInstall core r bufPos = .ok (m', handle)) (core' : ℕ)
    (hne : m.bufferHeads core' ≠ []) : m'.bufferHeads core' ≠ [] := by
  have hset : ∀ (m₁ : Manager R) (head : VersionBufferHead R) (heads : List (VersionBufferHead R)),
      m₁.bufferHeads = m.bufferHeads →
        (m₁.setHeads core (head :: heads)).bufferHeads core' ≠ [] := by
    intro m₁ head heads hsame
    change update m₁.bufferHeads core (head :: heads) core' ≠ []
    rcases eq_or_ne core' core with rfl | hother
    · rw [update_self]
      exact cons_ne_nil _ _
    · rwa [update_of_ne hother, hsame]
  obtain ⟨⟨m₁, p⟩, hpos, heq⟩ := map_ok h
  cases heq
  rw [getOrInstallBufferPos] at hpos
  split at hpos
  · cases hpos
  · split_ifs at hpos
    · cases hpos
      exact hne
    · obtain ⟨⟨m₂, fresh⟩, halloc, heq⟩ := map_ok hpos
      cases heq
      exact hset m₂ _ _ (allocHead_heads halloc)
    · cases hpos
      exact hset m _ _ rfl

/-- The core has a head, and another one can be had when it is full and the row needs a position. -/
theorem getOrInstall_isOk {bufPos : ℤ} (r : R) (hne : m.bufferHeads core ≠ [])
    (hleft : bufPos = -1 → ∀ head ∈ (m.bufferHeads core).head?, kMaxPos ≤ head.pos →
      0 < (m.alloc (zone core)).free) :
    ∃ m' handle, m.getOrInstall core r bufPos = .ok (m', handle) := by
  rw [getOrInstall, getOrInstallBufferPos]
  split
  next hnil => exact absurd hnil hne
  next head next hheads =>
    split_ifs with hpos hfull
    · exact ⟨_, _, rfl⟩
    · have hfree := hleft (not_not.1 hpos) head (by rw [hheads]; rfl) hfull
      obtain ⟨al, fresh, halloc, -⟩ := allocHead_of_pos hfree
      rw [halloc]
      exact ⟨_, _, rfl⟩
    · exact ⟨_, _, rfl⟩

end Manager

/-! ## What a call does -/

namespace Store

variable {R : Type} [DecidableEq R] {n epochNr : ℕ} {cfg : Config} {s t u : Store R n}
  {c : AppendCall R n} {r : R}

/-- The events happen to one row, and no core loses its heads. -/
structure Steps (epochNr : ℕ) (s : Store R n) (r : R) (evs : List (Event (Fin n)))
    (t : Store R n) : Prop where
  events : run (State.step epochNr) (s.rows r) evs = some (t.rows r)
  others : ∀ r', r' ≠ r → t.rows r' = s.rows r'
  heads : ∀ core, s.manager.bufferHeads core ≠ [] → t.manager.bufferHeads core ≠ []

omit [DecidableEq R] in
theorem Steps.trans {evs evs' : List (Event (Fin n))} (h : Steps epochNr s r evs t)
    (h' : Steps epochNr t r evs' u) : Steps epochNr s r (evs ++ evs') u where
  events := (run_append _).2 ⟨_, h.events, h'.events⟩
  others r' hne := (h'.others r' hne).trans (h.others r' hne)
  heads core hne := h'.heads core (h.heads core hne)

theorem steps_stepRow {ev : Event (Fin n)} (h : s.stepRow epochNr r ev = .ok t) :
    Steps epochNr s r [ev] t := by
  rw [stepRow] at h
  split at h
  · cases h
  next row hrow =>
    cases h
    refine ⟨?_, fun r' hne => update_of_ne hne .., fun _ hne => hne⟩
    refine (run_cons _).2 ⟨row, hrow, ?_⟩
    change some row = some (update s.rows r row r)
    rw [update_self]

theorem stepRow_eq_ok {ev : Event (Fin n)} {st : State (Fin n)}
    (h : (s.rows r).step epochNr ev = some st) :
    s.stepRow epochNr r ev = .ok { s with rows := update s.rows r st } := by
  rw [stepRow, h]

theorem stepRow_ne_nullHead (s : Store R n) (r : R) (ev : Event (Fin n)) :
    s.stepRow epochNr r ev ≠ .error .nullHead := by
  rw [stepRow]
  split <;> simp

theorem steps_getOrInstall {handle : Option ℤ} (h : s.getOrInstall epochNr c = .ok (t, handle)) :
    ∃ evs, Steps epochNr s c.row evs t ∧ appendedBy evs = [] := by
  obtain ⟨⟨m, handle'⟩, hm, h⟩ := bind_ok h
  have hheads := Manager.getOrInstall_heads hm
  have hmanager : Steps epochNr s c.row [] { s with manager := m } :=
    ⟨rfl, fun _ _ => rfl, hheads⟩
  dsimp only at h
  split_ifs at h
  · cases handle' with
    | none =>
      cases h
      exact ⟨[], hmanager, rfl⟩
    | some pos =>
      obtain ⟨t', ht', h⟩ := bind_ok h
      cases h
      exact ⟨_, hmanager.trans (steps_stepRow ht'), rfl⟩
  · cases h
    exact ⟨[], hmanager, rfl⟩

theorem steps_appendBuffered (h : s.appendBuffered epochNr c = .ok t) :
    ∃ evs, Steps epochNr s c.row evs t ∧ appendedBy evs = [c.sid] := by
  rw [appendBuffered] at h
  split_ifs at h
  · exact ⟨_, steps_stepRow h, rfl⟩
  · obtain ⟨s', hs', h⟩ := bind_ok h
    exact ⟨_, (steps_stepRow hs').trans (steps_stepRow h), rfl⟩
  · obtain ⟨s', hs', h⟩ := bind_ok h
    cases h
    exact ⟨_, steps_stepRow hs', rfl⟩

/-- **A call appends its version to its row**, in the row or in a buffer. -/
theorem steps_appendNewVersion (h : s.appendNewVersion cfg epochNr c = .ok t) :
    ∃ evs, Steps epochNr s c.row evs t ∧ appendedBy evs = [c.sid] := by
  have hlocked : ∀ {s' : Store R n}, s'.appendLocked epochNr c = .ok t →
      ∃ evs, Steps epochNr s' c.row evs t ∧ appendedBy evs = [c.sid] :=
    fun h => ⟨_, steps_stepRow h, rfl⟩
  have hinstalled : ∀ {s' : Store R n} {handle : Option ℤ},
      s.getOrInstall epochNr c = .ok (s', handle) →
      (∃ evs, Steps epochNr s' c.row evs t ∧ appendedBy evs = [c.sid]) →
      ∃ evs, Steps epochNr s c.row evs t ∧ appendedBy evs = [c.sid] := by
    rintro s' handle hs' ⟨evs', hevs', happ'⟩
    obtain ⟨evs, hevs, happ⟩ := steps_getOrInstall hs'
    refine ⟨evs ++ evs', hevs.trans hevs', ?_⟩
    rw [appendedBy, flatMap_append]
    exact congrArg₂ (· ++ ·) happ happ'
  rw [appendNewVersion] at h
  split_ifs at h
  · exact hlocked h
  · exact hlocked h
  · obtain ⟨⟨s', handle⟩, hs', h⟩ := bind_ok h
    dsimp only at h
    split_ifs at h
    · exact hinstalled hs' (steps_appendBuffered h)
    · exact hinstalled hs' (hlocked h)
  · obtain ⟨⟨s', handle⟩, hs', h⟩ := bind_ok h
    exact hinstalled hs' (hlocked h)
  · exact hlocked h

/-! ## The condition -/

/-- The call gets to `GetOrInstall`. -/
def Asks (cfg : Config) (s : Store R n) (c : AppendCall R n) : Prop :=
  ¬(cfg.lockElision ∨ c.sid = 0) ∧
    if cfg.batchAppend then ¬s.appendsDirectly cfg c else s.marks cfg c

/-- A call that needs a new head finds one in the pool of its zone. -/
def HeadLeft (cfg : Config) (s : Store R n) (c : AppendCall R n) : Prop :=
  s.Asks cfg c → (s.rows c.row).row.bufPos = -1 →
    ∀ head ∈ (s.manager.bufferHeads c.core).head?, kMaxPos ≤ head.pos →
      0 < (s.manager.alloc (Manager.zone c.core)).free

theorem getOrInstall_ne_nullHead (hheads : s.manager.bufferHeads c.core ≠ [])
    (hleft : HeadLeft cfg s c) (hasks : s.Asks cfg c) :
    s.getOrInstall epochNr c ≠ .error .nullHead := by
  obtain ⟨m, handle, hm⟩ := Manager.getOrInstall_isOk c.row hheads (hleft hasks)
  refine bind_ne_error (by rw [hm]; simp) fun ⟨m, handle⟩ => ?_
  dsimp only
  split_ifs
  · cases handle with
    | none => simp
    | some pos => exact bind_ne_error (stepRow_ne_nullHead _ _ _) fun _ => by simp
  · simp

theorem appendBuffered_ne_nullHead (s : Store R n) (c : AppendCall R n) :
    s.appendBuffered epochNr c ≠ .error .nullHead := by
  rw [appendBuffered]
  split_ifs
  · exact stepRow_ne_nullHead _ _ _
  · exact bind_ne_error (stepRow_ne_nullHead _ _ _) fun s => stepRow_ne_nullHead s _ _
  · exact bind_ne_error (stepRow_ne_nullHead _ _ _) fun _ => by simp

/-- **No null head.** A call that finds a head when it needs one accesses no memory through a null
head. -/
theorem appendNewVersion_ne_nullHead (hheads : s.manager.bufferHeads c.core ≠ [])
    (hleft : HeadLeft cfg s c) : s.appendNewVersion cfg epochNr c ≠ .error .nullHead := by
  rw [appendNewVersion]
  split_ifs with helision hbatch hdirect hmarks
  · exact stepRow_ne_nullHead _ _ _
  · exact stepRow_ne_nullHead _ _ _
  · have hasks : s.Asks cfg c := ⟨helision, by rwa [if_pos hbatch]⟩
    refine bind_ne_error (getOrInstall_ne_nullHead hheads hleft hasks) fun ⟨s', handle⟩ => ?_
    dsimp only
    split_ifs
    · exact appendBuffered_ne_nullHead s' c
    · exact stepRow_ne_nullHead _ _ _
  · have hasks : s.Asks cfg c := ⟨helision, by rwa [if_neg hbatch]⟩
    refine bind_ne_error (getOrInstall_ne_nullHead hheads hleft hasks) fun ⟨s', handle⟩ => ?_
    exact stepRow_ne_nullHead _ _ _
  · exact stepRow_ne_nullHead _ _ _

/-! ## Runs -/

/-- The versions that the calls append to a row. -/
def sidsOf (calls : List (AppendCall R n)) (r : R) : List ℕ :=
  (calls.filter (·.row = r)).map AppendCall.sid

/-- The versions are in the row or in one of its buffers, next to the versions that the row had and
that have not been collected. -/
def Inserted (old : VHandle) (st : State (Fin n)) (sids : List ℕ) : Prop :=
  ∃ k flushed, st.row.versionList ~ old.versionList.drop k ++ flushed ∧
    (flushed : Multiset ℕ) + inBuffers st.bufs = (sids : Multiset ℕ)

/-- What holds after the calls. -/
structure Inv (epochNr : ℕ) (rows : R → VHandle) (s : Store R n) : Prop where
  heads : ∀ core : Fin n, s.manager.bufferHeads core ≠ []
  merging : ∀ r, ∃ flushed, Contention.Inv epochNr (rows r) (s.rows r) flushed (s.rows r).appended

theorem step_eq_some {c : AppendCall R n} (h : s.step cfg epochNr c = some t) :
    s.appendNewVersion cfg epochNr c = .ok t := by
  rw [step] at h
  cases happ : s.appendNewVersion cfg epochNr c with
  | error e =>
    rw [happ] at h
    cases h
  | ok t' =>
    rw [happ] at h
    cases h
    rfl

theorem Inv.step {rows : R → VHandle} (h : Inv epochNr rows s)
    (hnew : NewVersion epochNr (rows c.row) c.sid) (ht : s.step cfg epochNr c = some t) :
    Inv epochNr rows t := by
  obtain ⟨evs, hsteps, happ⟩ := steps_appendNewVersion (step_eq_some ht)
  refine ⟨fun core => hsteps.heads core (h.heads core), fun r => ?_⟩
  rcases eq_or_ne r c.row with rfl | hne
  · have hsids : ∀ ev ∈ evs, ∀ sid ∈ ev.sids, NewVersion epochNr (rows c.row) sid := by
      intro ev hev sid hsid
      have hmem : sid ∈ appendedBy evs := mem_flatMap.2 ⟨ev, hev, hsid⟩
      rw [happ, mem_singleton] at hmem
      rwa [hmem]
    exact run_invariant
      (I := fun st : State (Fin n) =>
        ∃ flushed, Contention.Inv epochNr (rows c.row) st flushed st.appended)
      (fun st e st' ⟨flushed, hi⟩ hok hstep => hi.step hok hstep) evs _ _ (h.merging c.row)
      (along_of_forall (State.step epochNr) _ hsids) hsteps.events
  · rw [hsteps.others r hne]
    exact h.merging r

/-- Every call is one append to its row. -/
theorem appended_calls {calls : List (AppendCall R n)}
    (hrun : run (Store.step cfg epochNr) s calls = some t) (r : R) :
    (t.rows r).appended ~ sidsOf calls r ++ (s.rows r).appended := by
  induction calls generalizing s with
  | nil =>
    cases hrun
    exact List.Perm.refl _
  | cons c calls ih =>
    obtain ⟨u, hu, hrun⟩ := (run_cons _).1 hrun
    obtain ⟨evs, hsteps, happ⟩ := steps_appendNewVersion (step_eq_some hu)
    refine (ih hrun).trans ?_
    rcases eq_or_ne r c.row with rfl | hne
    · have hrow := appended_run evs _ _ hsteps.events
      rw [happ] at hrow
      refine (hrow.append_left _).trans ?_
      rw [sidsOf, sidsOf, filter_cons_of_pos (by simp), map_cons]
      exact perm_middle
    · rw [hsteps.others r hne, sidsOf, sidsOf, filter_cons_of_neg (by simpa using hne.symm)]

end Store

/-- A row at the beginning of an epoch. -/
structure Ready (row : VHandle) : Prop where
  size_le : row.size ≤ row.capacity
  latest_lt : row.latestVersion < row.size
  sorted : row.versionList.Pairwise (· ≤ ·)

open Store in
/-- **Appends survive.** The constructor gives every core a head. In every run of appends to any
rows, in which every call that needs a new head finds one in the pool of its zone, all versions are
in their rows or in the buffers of their rows; and the next such call accesses no memory through a
null head. -/
theorem append_survives {R : Type} [DecidableEq R] (cfg : Config)
    (hn : Mem.kNrCorePerNode ∣ cfg.nrThreads)
    (hcap : Mem.kNrCorePerNode ≤ Manager.headCapacity cfg) (epochNr : ℕ) (rows : R → VHandle)
    (hrows : ∀ r, Ready (rows r)) :
    ∃ m : Manager R, Manager.new cfg = .ok m ∧
      ∀ calls (s : Store R cfg.nrThreads),
        (∀ c ∈ calls, NewVersion epochNr (rows c.row) c.sid) →
        Along (Store.step cfg epochNr) (HeadLeft cfg) (start m rows) calls →
        run (Store.step cfg epochNr) (start m rows) calls = some s →
          (∀ r, Inserted (rows r) (s.rows r) (sidsOf calls r)) ∧
            ∀ c, HeadLeft cfg s c → s.appendNewVersion cfg epochNr c ≠ .error .nullHead := by
  obtain ⟨m, hm, hheads⟩ := Manager.new_isOk (R := R) cfg hn hcap
  refine ⟨m, hm, fun calls s hnew hleft hrun => ?_⟩
  have hstart : Store.Inv epochNr rows (start m rows : Store R cfg.nrThreads) :=
    ⟨fun core => hheads core core.isLt,
      fun r => ⟨[], inv_start (hrows r).size_le (hrows r).latest_lt (hrows r).sorted⟩⟩
  have hinv : Store.Inv epochNr rows s := run_invariant
    (fun _ _ _ h hok ht => h.step hok.2 ht) calls _ s hstart (hleft.and hnew) hrun
  refine ⟨fun r => ?_, fun c hc => appendNewVersion_ne_nullHead (hinv.heads c.core) hc⟩
  obtain ⟨flushed, hi⟩ := hinv.merging r
  refine ⟨_, flushed, hi.row.merging.perm, ?_⟩
  have happ : (s.rows r).appended ~ sidsOf calls r := by
    simpa [start, State.start] using appended_calls hrun r
  rw [hi.bufs.balance]
  exact Multiset.coe_eq_coe.2 happ

/-! ## Eight cores with one head each -/

instance {R : Type} {n : ℕ} (cfg : Config) (s : Store R n) (c : AppendCall R n) :
    Decidable (s.Asks cfg c) := inferInstanceAs (Decidable (_ ∧ _))

instance {R : Type} {n : ℕ} (cfg : Config) (s : Store R n) (c : AppendCall R n) :
    Decidable (s.HeadLeft cfg c) := by
  unfold Store.HeadLeft
  infer_instance

/-- The pool of the only zone has a head for each of the eight cores. -/
def oneHead : Config where
  nrThreads := 8
  preallocCount := 65536
  splittingThreshold := 32
  lockElision := false
  batchAppend := true
  onDemandSplitting := false
  binpackSplitting := false

def newRows (r : ℕ) : VHandle := newRow (0x8000 + 256 * r) 0 fun _ => 0

/-- The first core appends to the row `r`, whose lock is taken. -/
def appendTo (r : ℕ) : AppendCall ℕ 8 where
  core := 0
  row := r
  sid := generateSerialId 1 1 1
  weight := 0
  svc := clearedMemory
  svc' := clearedMemory
  tryLock := false
  tryFlush := false

theorem ready_newRows (r : ℕ) : Ready (newRows r) :=
  ⟨Nat.zero_le _, show (-1 : ℤ) < 0 by decide, List.Pairwise.nil⟩

/-- Two rows get their positions, and the versions are in their buffers. -/
theorem append_survives_twoRows : ∃ (m : Manager ℕ) (s : Store ℕ 8),
    Manager.new oneHead = .ok m ∧
      run (Store.step oneHead 1) (.start m newRows) [appendTo 0, appendTo 1, appendTo 0] = some s ∧
      (s.rows 1).row.bufPos = 1 ∧
      Store.Inserted (newRows 0) (s.rows 0) [generateSerialId 1 1 1, generateSerialId 1 1 1] ∧
      s.appendNewVersion oneHead 1 (appendTo 2) ≠ .error .nullHead := by
  obtain ⟨m, hm, hall⟩ := append_survives oneHead (by decide) (by decide) 1 newRows ready_newRows
  have hany : (Manager.new oneHead).toOption.any (fun m : Manager ℕ =>
      (run (Store.step oneHead 1) (.start m newRows) [appendTo 0, appendTo 1, appendTo 0]).any
        fun s : Store ℕ 8 => decide ((s.rows 1).row.bufPos = 1 ∧ s.HeadLeft oneHead (appendTo 2) ∧
          Along (Store.step oneHead 1) (Store.HeadLeft oneHead) (.start m newRows)
            [appendTo 0, appendTo 1, appendTo 0])) = true := by decide +kernel
  rw [hm] at hany
  obtain ⟨m', hm', hany⟩ := (Option.any_eq_true _ _).1 hany
  cases hm'
  obtain ⟨s, hs, hst⟩ := (Option.any_eq_true _ _).1 hany
  obtain ⟨hpos, hleft, halong⟩ := of_decide_eq_true hst
  have hnew : ∀ c ∈ [appendTo 0, appendTo 1, appendTo 0],
      NewVersion 1 (newRows c.row) c.sid := by decide
  obtain ⟨hins, hnull⟩ := hall _ s hnew halong hs
  exact ⟨m, s, hm, hs, hpos, hins 0, hnull _ hleft⟩

/-- The first core has appended to the rows up to `k`. -/
structure Filled (k : ℕ) (s : Store ℕ 8) : Prop where
  heads : ∃ b, s.manager.bufferHeads 0 = [⟨b, 0, List.range k⟩]
  free : (s.manager.alloc 0).free = 0
  rows : ∀ r ≥ k, s.rows r = .start (newRows r)

theorem pos_range (b k : ℕ) : VersionBufferHead.pos ⟨b, 0, List.range k⟩ = k := length_range

theorem append_asks (s : Store ℕ 8) (r : ℕ) :
    s.appendNewVersion oneHead 1 (appendTo r) = s.getOrInstall 1 (appendTo r) >>= fun x =>
      if x.2.isSome then x.1.appendBuffered 1 (appendTo r)
      else x.1.appendLocked 1 (appendTo r) := by
  have hsid : ¬(oneHead.lockElision = true ∨ (appendTo r).sid = 0) := by
    change ¬(false = true ∨ generateSerialId 1 1 1 = 0)
    decide
  have hdirect : ¬s.appendsDirectly oneHead (appendTo r) := fun h => by cases h.2.2
  rw [Store.appendNewVersion, if_neg hsid, if_pos (show oneHead.batchAppend = true from rfl),
    if_neg hdirect]

/-- A row without a position gets one, and its version goes to the core's buffer. -/
theorem append_installs {s : Store ℕ 8} {r : ℕ} {m : Manager ℕ} {pos : ℤ}
    (hrow : s.rows r = .start (newRows r))
    (hm : s.manager.getOrInstall 0 r (-1) = .ok (m, some pos)) :
    ∃ st, s.step oneHead 1 (appendTo r) = some ⟨m, update s.rows r st⟩ := by
  have hbufPos : (s.rows r).row.bufPos = -1 := by
    rw [hrow]
    rfl
  obtain ⟨st, hst, hinst⟩ : ∃ st, (s.rows r).step 1 (.install 0 pos.toNat) = some st ∧
      st.row.bufPos ≠ -1 ∧ (st.bufs 0).versions = [] := by
    rw [hrow]
    refine ⟨_, rfl, ?_, rfl⟩
    change (pos.toNat : ℤ) ≠ -1
    omega
  obtain ⟨st', hst'⟩ : ∃ st', st.step 1 (.push 0 (generateSerialId 1 1 1) false) = some st' := by
    rw [State.step, if_pos ⟨hinst.1, by rw [hinst.2]; decide⟩]
    exact ⟨_, rfl⟩
  have hget : s.getOrInstall 1 (appendTo r) =
      .ok (⟨m, update s.rows r st⟩, some pos) := by
    have hstep : (⟨m, s.rows⟩ : Store ℕ 8).stepRow 1 r (.install 0 pos.toNat) = _ :=
      Store.stepRow_eq_ok hst
    simp only [Store.getOrInstall, appendTo, Fin.val_zero, hbufPos, hm]
    change (Store.stepRow 1 _ r _ >>= _) = _
    rw [hstep]
    rfl
  have hself : update s.rows r st r = st := update_self ..
  have hpush : (⟨m, update s.rows r st⟩ : Store ℕ 8).appendBuffered 1 (appendTo r) =
      .ok ⟨m, update s.rows r st'⟩ := by
    have hstep : (⟨m, update s.rows r st⟩ : Store ℕ 8).stepRow 1 r
        (.push 0 (generateSerialId 1 1 1) false) = _ :=
      Store.stepRow_eq_ok (show (update s.rows r st r).step 1 _ = _ by rw [hself, hst'])
    rw [update_idem] at hstep
    simp only [Store.appendBuffered, appendTo, hself, hinst.2, length_nil]
    rw [if_neg (by decide)]
    change (Store.stepRow 1 _ r (.push 0 (generateSerialId 1 1 1) false) >>= _) = _
    rw [hstep]
    rfl
  refine ⟨st', ?_⟩
  rw [Store.step, append_asks, hget]
  change (Store.appendBuffered 1 _ _).toOption = _
  rw [hpush]
  rfl

theorem Filled.append {k : ℕ} {s : Store ℕ 8} (h : Filled k s) (hk : k < kMaxPos) :
    ∃ t, s.step oneHead 1 (appendTo k) = some t ∧ Filled (k + 1) t := by
  obtain ⟨⟨b, hheads⟩, hfree, hrows⟩ := h
  have hmanager : s.manager.getOrInstall 0 k (-1) =
      .ok (s.manager.setHeads 0 [⟨b, 0, List.range (k + 1)⟩], some ((b : ℤ) + k)) := by
    rw [Manager.getOrInstall, Manager.getOrInstallBufferPos, hheads]
    dsimp only
    rw [if_neg (by simp), pos_range, if_neg (by omega), Manager.installAt, pos_range,
      range_succ]
    change Except.ok (_, if (b : ℤ) + k = -1 then none else some ((b : ℤ) + k)) = _
    rw [if_neg (by omega)]
  obtain ⟨st, hst⟩ := append_installs (hrows k le_rfl) hmanager
  have hset : (s.manager.setHeads 0 [⟨b, 0, List.range (k + 1)⟩]).bufferHeads 0 =
      [⟨b, 0, List.range (k + 1)⟩] := by
    simp [Manager.setHeads]
  refine ⟨_, hst, ⟨b, hset⟩, hfree, fun r hr => ?_⟩
  change update s.rows k st r = _
  rw [update_of_ne (by omega)]
  exact hrows r (by omega)

theorem filled_run {m : Manager ℕ} (hm : Filled 0 (.start m newRows)) {k : ℕ} (hk : k ≤ kMaxPos) :
    ∃ s, run (Store.step oneHead 1) (.start m newRows) ((List.range k).map appendTo) = some s ∧
      Filled k s := by
  induction k with
  | zero => exact ⟨_, rfl, hm⟩
  | succ k ih =>
    obtain ⟨s, hs, hfilled⟩ := ih (by omega)
    obtain ⟨t, ht, hfilled'⟩ := hfilled.append hk
    rw [range_succ, map_append]
    exact ⟨t, (run_append _).2 ⟨s, hs, (run_cons _).2 ⟨t, ht, rfl⟩⟩, hfilled'⟩

/-- A core appends to 8192 rows. Then its head is full, the pool is empty, and the append to one
more row writes through a null pointer. -/
theorem append_nullHead : ∃ (m : Manager ℕ) (s : Store ℕ 8), Manager.new oneHead = .ok m ∧
    run (Store.step oneHead 1) (.start m newRows) ((List.range kMaxPos).map appendTo) = some s ∧
    (s.manager.bufferHeads 0).map VersionBufferHead.pos = [kMaxPos] ∧
    (s.manager.alloc 0).free = 0 ∧
    s.appendNewVersion oneHead 1 (appendTo kMaxPos) = .error .nullHead := by
  obtain ⟨m, hm, -⟩ := Manager.new_isOk (R := ℕ) oneHead (by decide) (by decide)
  have hany : (Manager.new oneHead).toOption.any (fun m : Manager ℕ =>
      decide (m.bufferHeads 0 = [⟨0, 0, []⟩] ∧ (m.alloc 0).free = 0)) = true := by decide +kernel
  rw [hm] at hany
  obtain ⟨hhead, hpool⟩ := of_decide_eq_true hany
  obtain ⟨s, hs, ⟨b, hheads⟩, hfree, hrows⟩ :=
    filled_run (m := m) ⟨⟨0, hhead⟩, hpool, fun _ _ => rfl⟩ le_rfl
  refine ⟨m, s, hm, hs, ?_, hfree, ?_⟩
  · rw [hheads, map_singleton, pos_range]
  · have hmanager : s.manager.getOrInstall 0 kMaxPos (-1) = .error .nullHead := by
      rw [Manager.getOrInstall, Manager.getOrInstallBufferPos, hheads]
      dsimp only
      rw [if_neg (by simp), pos_range, if_pos le_rfl, Manager.allocHead,
        show Manager.zone 0 = 0 from rfl, if_pos hfree]
      rfl
    have hbufPos : (s.rows kMaxPos).row.bufPos = -1 := by
      rw [hrows _ le_rfl]
      rfl
    have hget : s.getOrInstall 1 (appendTo kMaxPos) = .error .nullHead := by
      simp only [Store.getOrInstall, appendTo, Fin.val_zero, hbufPos, hmanager]
      rfl
    rw [append_asks, hget]
    rfl

end Felis.Contention
