import Felis.Contention.Heads
import Felis.Foundations.Collections

/-!
# Positions of the version buffers

`GetOrInstall` is called by all cores at once. A core claims a position of its current head with a
compare-and-swap on the row; only when it has won does it enter the row into `backrefs` and move the
head on, and when it has lost it uses the position of the winner, in another core's head. A core
whose head is full takes another one: the memory from the pool of its zone, and the positions from
the zone's counter. Each access to something shared is a step, and so are the two writes to the
head.

The step `reset` is `Reset`, which runs when no call is in progress; the first one is the
constructor's. Heads come from the pools with what was in their `backrefs` before. The counters of
the zones are natural numbers; they stay at or below the number of positions of a zone.

`buffers_not_shared` is about every state of every run.
-/

namespace Felis.Contention.Positions

open Function Runs Finset Manager

structure Head (R : Type) where
  basePos : ℕ
  pos : ℕ
  ownerCore : ℕ
  backrefs : ℕ → Option R

/-- Where a core is in `GetOrInstall`. -/
inductive Pc (R : Type)
  | idle
  /-- Before `buf_pos.load()`. -/
  | load (r : R)
  /-- Before `pos.load()`. -/
  | next (r : R)
  /-- Before `pool.Alloc()`. -/
  | alloc (r : R)
  /-- Before `pos.fetch_add(kMaxPos)`. -/
  | fetch (r : R)
  /-- Before `compare_exchange_strong`, with `new_pos`. -/
  | cas (r : R) (i : ℕ)
  /-- Before `backrefs[new_pos] = handle`. -/
  | backref (r : R) (i : ℕ)
  /-- Before `IncrementPos`. -/
  | increment (r : R) (i : ℕ)
  | returned (r : R) (p : ℤ)

/-- A core's heads, the current one first. -/
structure Core (R : Type) where
  heads : List (Head R)
  pc : Pc R

structure State (R : Type) where
  alloc : ℕ → VersionBufferHeadAllocation
  core : ℕ → Core R
  bufPos : R → ℤ

inductive Event (R : Type)
  | getOrInstall (c : ℕ) (r : R)
  /-- The next step of a core, with what a new head has in its `backrefs`. -/
  | advance (c : ℕ) (stale : ℕ → Option R)
  | reset (stale : ℕ → ℕ → Option R)

variable {R : Type}

/-- No call is in progress. -/
def Pc.quiet : Pc R → Bool
  | .idle => true
  | .returned _ _ => true
  | _ => false

namespace State

def setCore (s : State R) (c : ℕ) (x : Core R) : State R := { s with core := update s.core c x }

def setPc (s : State R) (c : ℕ) (pc : Pc R) : State R := s.setCore c ⟨(s.core c).heads, pc⟩

def setAlloc (s : State R) (z : ℕ) (al : VersionBufferHeadAllocation) : State R :=
  { s with alloc := update s.alloc z al }

/-- `pool.Alloc()` in `AllocHead`, which writes through what it gets. -/
def takeHead (s : State R) (c : ℕ) : Option (State R) :=
  let al := s.alloc (zone c)
  if al.free = 0 then none else some (s.setAlloc (zone c) { al with free := al.free - 1 })

/-- The rest of `AllocHead`; the head becomes the first one of the core. -/
def placeHead (s : State R) (c : ℕ) (stale : ℕ → Option R) : State R :=
  let al := s.alloc (zone c)
  (s.setAlloc (zone c) { al with pos := al.pos + kMaxPos }).setCore c
    { s.core c with heads := ⟨al.basePos + al.pos, 0, c, stale⟩ :: (s.core c).heads }

variable [DecidableEq R]

/-- The next step of `GetOrInstallBufferPos`. -/
def advance (s : State R) (c : ℕ) (stale : ℕ → Option R) : Option (State R) :=
  match s.core c with
  | ⟨_, .load r⟩ =>
    some (s.setPc c (if s.bufPos r ≠ -1 then .returned r (s.bufPos r) else .next r))
  | ⟨h :: _, .next r⟩ => some (s.setPc c (if kMaxPos ≤ h.pos then .alloc r else .cas r h.pos))
  | ⟨_, .alloc r⟩ => (s.takeHead c).map (·.setPc c (.fetch r))
  -- and the call starts again with the new head
  | ⟨_, .fetch r⟩ => some ((s.placeHead c stale).setPc c (.load r))
  | ⟨h :: _, .cas r i⟩ =>
    if s.bufPos r = -1 then
      some ({ s with bufPos := update s.bufPos r (h.basePos + i) }.setPc c (.backref r i))
    else some (s.setPc c (.returned r (s.bufPos r)))
  | ⟨h :: hs, .backref r i⟩ =>
    some (s.setCore c ⟨{ h with backrefs := update h.backrefs i (some r) } :: hs, .increment r i⟩)
  | ⟨h :: hs, .increment r i⟩ =>
    some (s.setCore c ⟨{ h with pos := h.pos + 1 } :: hs, .returned r (h.basePos + i)⟩)
  | _ => none

/-- A quantity of the cores of a zone, added up. -/
def tally (n : ℕ) (s : State R) (f : Core R → ℕ) (z : ℕ) : ℕ :=
  ∑ c ∈ range n, if zone c = z then f (s.core c) else 0

/-- The rows in the heads, in the order in which `Reset` goes through them. -/
def backrefs (n : ℕ) (s : State R) : List (Option R) :=
  (List.range n).flatMap fun c => (s.core c).heads.flatMap fun h =>
    (List.range h.pos).map h.backrefs

/-- The loops of `Reset` before the last one: the rows lose their positions, the heads go back to
the pools, and the zones hand out their positions from the beginning. -/
def clear (cfg : Config) (s : State R) : State R where
  alloc z :=
    { s.alloc z with
      free := (s.alloc z).free + s.tally cfg.nrThreads (·.heads.length) z
      pos := if z < cfg.nrThreads / Mem.kNrCorePerNode then 0 else (s.alloc z).pos }
  core _ := ⟨[], .idle⟩
  bufPos r := if some r ∈ s.backrefs cfg.nrThreads then -1 else s.bufPos r

/-- The last loop of `Reset`: every core gets a head. -/
def allocHeads (s : State R) (stale : ℕ → ℕ → Option R) : List ℕ → Option (State R)
  | [] => some s
  | c :: cs => (s.takeHead c).bind fun s => (s.placeHead c (stale c)).allocHeads stale cs

def reset (cfg : Config) (s : State R) (stale : ℕ → ℕ → Option R) : Option (State R) :=
  -- a null pointer in the rows of the heads is followed
  if none ∈ s.backrefs cfg.nrThreads then none
  else (s.clear cfg).allocHeads stale (List.range cfg.nrThreads)

def step (cfg : Config) (s : State R) : Event R → Option (State R)
  | .getOrInstall c r =>
    if c < cfg.nrThreads ∧ (s.core c).pc.quiet then some (s.setPc c (.load r)) else none
  | .advance c stale => if c < cfg.nrThreads then s.advance c stale else none
  | .reset stale =>
    if ∀ c < cfg.nrThreads, (s.core c).pc.quiet then s.reset cfg stale else none

/-- The constructor before it calls `Reset`, with rows that have no positions. -/
def unused (cfg : Config) : State R where
  alloc := (Manager.unused cfg : Manager R).alloc
  core _ := ⟨[], .idle⟩
  bufPos _ := -1

/-- The constructor. -/
def new (cfg : Config) (stale : ℕ → ℕ → Option R) : Option (State R) :=
  (unused cfg).reset cfg stale

end State

/-! ## The invariant -/

/-- What a zone starts with. -/
def zoneAlloc (cfg : Config) (z : ℕ) : VersionBufferHeadAllocation :=
  (Manager.unused cfg : Manager Unit).alloc z

/-- The number of positions of a zone. -/
def zoneSize (cfg : Config) : ℕ := cfg.preallocCount / (cfg.nrThreads / Mem.kNrCorePerNode)

/-- The row whose position was claimed but is not yet below the head's `pos`. -/
def Pc.claims : Pc R → Option R
  | .backref r _ => some r
  | .increment r _ => some r
  | _ => none

/-- A head that was taken from the pool and has no positions yet. -/
def Pc.taken : Pc R → ℕ
  | .fetch _ => 1
  | _ => 0

def Pc.Plain (pc : Pc R) : Prop := pc.claims = none ∧ pc.taken = 0

theorem Pc.plain_of_quiet {pc : Pc R} (h : pc.quiet) : pc.Plain := by
  cases pc <;> first | exact ⟨rfl, rfl⟩ | cases h

/-- A head of the core gave the position to the row: it is below the head's `pos`, or it was claimed
from the current head. -/
def Core.Gave (x : Core R) (r : R) (p : ℤ) : Prop :=
  (∃ h ∈ x.heads, ∃ i < h.pos, h.backrefs i = some r ∧ p = h.basePos + i) ∨
    x.pc.claims = some r ∧ ∃ h hs, x.heads = h :: hs ∧ h.pos < kMaxPos ∧ p = h.basePos + h.pos

/-- What a core knows between two steps. -/
def Core.Fits (bufPos : R → ℤ) : Core R → Prop
  | ⟨heads, .cas _ i⟩ => ∃ h hs, heads = h :: hs ∧ h.pos = i ∧ i < kMaxPos
  | ⟨heads, .backref r i⟩ =>
    ∃ h hs, heads = h :: hs ∧ h.pos = i ∧ i < kMaxPos ∧ bufPos r = h.basePos + i
  | ⟨heads, .increment r i⟩ => ∃ h hs, heads = h :: hs ∧ h.pos = i ∧ i < kMaxPos ∧
    bufPos r = h.basePos + i ∧ h.backrefs i = some r
  | ⟨_, .returned r p⟩ => bufPos r = p ∧ p ≠ -1
  | _ => True

def Core.bases (x : Core R) : List ℕ := x.heads.map (·.basePos)

structure HeadOk (bufPos : R → ℤ) (c : ℕ) (h : Head R) : Prop where
  owner : h.ownerCore = c
  pos_le : h.pos ≤ kMaxPos
  rows : ∀ i < h.pos, ∃ r, h.backrefs i = some r ∧ bufPos r = h.basePos + i

structure CoreOk (bufPos : R → ℤ) (c : ℕ) (x : Core R) : Prop where
  heads : ∀ h ∈ x.heads, HeadOk bufPos c h
  fits : x.Fits bufPos

/-- The first positions of the heads that a zone has handed out. -/
def handedOut (cfg : Config) (z m : ℕ) : List ℕ :=
  (List.range m).map fun j => (zoneAlloc cfg z).basePos + kMaxPos * j

/-- Before `e z` more heads of each zone get their positions. -/
structure Inv (cfg : Config) (e : ℕ → ℕ) (s : State R) : Prop where
  basePos : ∀ z, (s.alloc z).basePos = (zoneAlloc cfg z).basePos
  free : ∀ z, (s.alloc z).free + s.tally cfg.nrThreads (·.heads.length) z + e z =
    (zoneAlloc cfg z).free
  pos : ∀ z, (s.alloc z).pos = kMaxPos * s.tally cfg.nrThreads (·.heads.length) z
  bases : ∀ z b, s.tally cfg.nrThreads (·.bases.count b) z =
    (handedOut cfg z (s.tally cfg.nrThreads (·.heads.length) z)).count b
  cores : ∀ c < cfg.nrThreads, CoreOk s.bufPos c (s.core c)
  held : ∀ r, s.bufPos r ≠ -1 → ∃ c < cfg.nrThreads, (s.core c).Gave r (s.bufPos r)

/-- Between two steps. -/
def State.Sound (cfg : Config) (s : State R) : Prop :=
  Inv cfg (s.tally cfg.nrThreads (·.pc.taken)) s

section Inv

variable {cfg : Config} {e : ℕ → ℕ} {s t : State R} {c n : ℕ} {r : R} {x : Core R} {f : Core R → ℕ}
  {hs : List (Head R)}

theorem core_self (s : State R) (c : ℕ) (x : Core R) : (s.setCore c x).core c = x :=
  update_self ..

theorem core_of_ne (s : State R) {c c' : ℕ} (h : c' ≠ c) (x : Core R) :
    (s.setCore c x).core c' = s.core c' :=
  update_of_ne h ..

/-- What stays at the core that changes stays at all of them. -/
theorem core_congr {α : Sort*} (f : Core R → α) (h : f x = f (s.core c)) (c' : ℕ) :
    f ((s.setCore c x).core c') = f (s.core c') := by
  by_cases hcc : c' = c
  · rw [hcc, core_self, h]
  · rw [core_of_ne s hcc]

/-- What the core that changes has given it still has given. -/
theorem gave_setCore {p : ℤ} (hx : (s.core c).Gave r p → x.Gave r p)
    (h : ∃ c' < n, (s.core c').Gave r p) : ∃ c' < n, ((s.setCore c x).core c').Gave r p := by
  obtain ⟨c', hc', h⟩ := h
  refine ⟨c', hc', ?_⟩
  by_cases hcc : c' = c
  · subst hcc
    rw [core_self]
    exact hx h
  · rwa [core_of_ne s hcc]

theorem core_placeHead_self (s : State R) (c : ℕ) (stale : ℕ → Option R) :
    (s.placeHead c stale).core c = ⟨⟨(s.alloc (zone c)).basePos + (s.alloc (zone c)).pos, 0, c,
      stale⟩ :: (s.core c).heads, (s.core c).pc⟩ :=
  update_self ..

theorem core_placeHead_of_ne (s : State R) {c c' : ℕ} (h : c' ≠ c) (stale : ℕ → Option R) :
    (s.placeHead c stale).core c' = s.core c' :=
  update_of_ne h ..

theorem pc_placeHead (s : State R) (c : ℕ) (stale : ℕ → Option R) (c' : ℕ) :
    ((s.placeHead c stale).core c').pc = (s.core c').pc := by
  by_cases h : c' = c
  · rw [h, core_placeHead_self]
  · rw [core_placeHead_of_ne s h]

theorem tally_setCore (f : Core R → ℕ) (z : ℕ) (hc : c < n) (x : Core R) :
    (s.setCore c x).tally n f z + (if zone c = z then f (s.core c) else 0) =
      s.tally n f z + (if zone c = z then f x else 0) :=
  Sums.sum_update_add (range n) (fun j y => if zone j = z then f y else 0) s.core
    (mem_range.2 hc) x

theorem tally_core (h : t.core = s.core) (n : ℕ) (f : Core R → ℕ) : t.tally n f = s.tally n f := by
  unfold State.tally
  rw [h]

theorem tally_congr (h : ∀ c, f (t.core c) = f (s.core c)) : t.tally n f = s.tally n f := by
  funext z
  unfold State.tally
  simp only [h]

theorem tally_eq_zero (h : ∀ c < n, f (s.core c) = 0) : s.tally n f = fun _ => 0 := by
  funext z
  refine sum_eq_zero fun c hc => ?_
  rw [h c (mem_range.1 hc), ite_self]

theorem le_tally (s : State R) (f : Core R → ℕ) (hc : c < n) :
    f (s.core c) ≤ s.tally n f (zone c) := by
  have := single_le_sum (f := fun j => if zone j = zone c then f (s.core j) else 0)
    (fun _ _ => Nat.zero_le _) (mem_range.2 hc)
  rwa [if_pos rfl] at this

theorem add_le_tally (s : State R) (f : Core R → ℕ) (hc : c < n) {c' : ℕ} (hc' : c' < n)
    (hne : c ≠ c') (hz : zone c' = zone c) :
    f (s.core c) + f (s.core c') ≤ s.tally n f (zone c) := by
  have := sum_le_sum_of_subset (f := fun j => if zone j = zone c then f (s.core j) else 0)
    (show {c, c'} ⊆ range n by simp [insert_subset_iff, hc, hc'])
  rwa [sum_pair hne, if_pos rfl, if_pos hz] at this

/-- The heads stay where they are. -/
theorem Inv.congr (h : Inv cfg e s) (halloc : t.alloc = s.alloc)
    (hbases : ∀ c, (t.core c).bases = (s.core c).bases)
    (hcores : ∀ c < cfg.nrThreads, CoreOk t.bufPos c (t.core c))
    (hheld : ∀ r, t.bufPos r ≠ -1 → ∃ c < cfg.nrThreads, (t.core c).Gave r (t.bufPos r)) :
    Inv cfg e t := by
  have hlen : t.tally cfg.nrThreads (·.heads.length) = s.tally cfg.nrThreads (·.heads.length) :=
    tally_congr fun c => by simpa [Core.bases] using congrArg List.length (hbases c)
  refine ⟨halloc ▸ h.basePos, ?_, ?_, fun z b => ?_, hcores, hheld⟩
  · rw [hlen, halloc]
    exact h.free
  · rw [hlen, halloc]
    exact h.pos
  · rw [hlen, ← h.bases]
    exact congrFun (tally_congr (f := (·.bases.count b)) fun c => by rw [hbases]) z

/-- A core changes what it has in its heads, or where it is, and claims nothing. -/
theorem Inv.setCore (h : Inv cfg e s) (hbases : x.bases = (s.core c).bases)
    (hok : CoreOk s.bufPos c x) (hgave : ∀ r p, (s.core c).Gave r p → x.Gave r p) :
    Inv cfg e (s.setCore c x) := by
  refine h.congr rfl (core_congr Core.bases hbases) ?_ fun r hr => ?_
  · exact (forall_update_iff s.core fun c y => c < cfg.nrThreads → CoreOk s.bufPos c y).2
      ⟨fun _ => hok, fun c' _ => h.cores c'⟩
  · exact gave_setCore (hgave r _) (h.held r hr)

/-- A core goes on. -/
theorem Inv.setPc (h : Inv cfg e s) (hc : c < cfg.nrThreads) {pc : Pc R}
    (hclaims : pc.claims = (s.core c).pc.claims)
    (hfits : Core.Fits s.bufPos ⟨(s.core c).heads, pc⟩) : Inv cfg e (s.setPc c pc) := by
  refine h.setCore rfl ⟨(h.cores c hc).heads, hfits⟩ fun r p hg => ?_
  rw [Core.Gave, ← hclaims] at hg
  exact hg

/-! ### Heads -/

/-- A zone has no more heads than its positions are enough for. -/
theorem zoneAlloc_free_le (cfg : Config) (z : ℕ) :
    kMaxPos * (zoneAlloc cfg z).free ≤ zoneSize cfg := by
  rw [zoneAlloc, Manager.unused]
  dsimp only
  split_ifs with hz
  · rw [mul_comm]
    exact Nat.div_mul_le_self _ _
  · exact Nat.zero_le _

theorem Inv.pos_le (h : Inv cfg e s) (z : ℕ) : (s.alloc z).pos ≤ zoneSize cfg := by
  refine le_trans ?_ (zoneAlloc_free_le cfg z)
  rw [h.pos, ← h.free z]
  exact Nat.mul_le_mul_left _ (by omega)

/-- A zone whose pool had a head is one of the zones of the constructor. -/
theorem zoneAlloc_basePos (cfg : Config) {z : ℕ} (hz : 0 < (zoneAlloc cfg z).free) :
    z < cfg.nrThreads / Mem.kNrCorePerNode ∧ (zoneAlloc cfg z).basePos = zoneSize cfg * z := by
  rw [zoneAlloc, Manager.unused] at hz ⊢
  dsimp only at hz ⊢
  split_ifs at hz ⊢ with h
  · exact ⟨h, rfl⟩
  · exact absurd hz (lt_irrefl 0)

theorem alloc_congr {α : Type*} {z : ℕ} (al : VersionBufferHeadAllocation)
    (f : VersionBufferHeadAllocation → α) (h : f al = f (s.alloc z)) (z' : ℕ) :
    f (update s.alloc z al z') = f (s.alloc z') := by
  by_cases hz : z' = z
  · rw [hz, update_self, h]
  · rw [update_of_ne hz]

/-- A head that has no positions yet is taken from the pool. -/
theorem Inv.take (h : Inv cfg e s) (ht : s.takeHead c = some t) :
    Inv cfg (update e (zone c) (e (zone c) + 1)) t ∧ t.core = s.core ∧ t.bufPos = s.bufPos := by
  rw [State.takeHead] at ht
  split_ifs at ht with hfree
  cases ht
  refine ⟨⟨fun z => ?_, fun z => ?_, fun z => ?_, h.bases, h.cores, h.held⟩, rfl, rfl⟩
  · exact Eq.trans (alloc_congr _ (·.basePos) (by rfl) z) (h.basePos z)
  · have := h.free z
    change _ + s.tally cfg.nrThreads (fun x => x.heads.length) z + _ = _
    rw [State.setAlloc]
    by_cases hz : z = zone c
    · subst hz
      simp only [update_self]
      omega
    · simp only [update_of_ne hz]
      exact this
  · exact Eq.trans (alloc_congr _ (·.pos) (by rfl) z) (h.pos z)

theorem tally_push {k : ℕ} (hc : c < n) (hf : f x = f (s.core c) + k) (z : ℕ) :
    (s.setCore c x).tally n f z = s.tally n f z + if zone c = z then k else 0 := by
  have hsum := tally_setCore (s := s) f z hc x
  rw [hf] at hsum
  split_ifs at hsum ⊢ <;> omega

/-- The head that was taken gets the next positions of its zone. -/
theorem Inv.place (h : Inv cfg e s) (hc : c < cfg.nrThreads) (he : 0 < e (zone c))
    (hclaims : (s.core c).pc.claims = none) (stale : ℕ → Option R)
    (hfits : ∀ hd, Core.Fits s.bufPos ⟨hd :: (s.core c).heads, (s.core c).pc⟩) :
    Inv cfg (update e (zone c) (e (zone c) - 1)) (s.placeHead c stale) := by
  obtain ⟨hd, hhd⟩ : ∃ hd : Head R, hd = ⟨(s.alloc (zone c)).basePos + (s.alloc (zone c)).pos, 0, c,
    stale⟩ := ⟨_, rfl⟩
  have hset : (s.placeHead c stale).core =
      (s.setCore c ⟨hd :: (s.core c).heads, (s.core c).pc⟩).core := hhd ▸ rfl
  have halloc : (s.placeHead c stale).alloc = update s.alloc (zone c)
      { s.alloc (zone c) with pos := (s.alloc (zone c)).pos + kMaxPos } := rfl
  have hlen : ∀ z, (s.placeHead c stale).tally cfg.nrThreads (·.heads.length) z =
      s.tally cfg.nrThreads (·.heads.length) z + if zone c = z then 1 else 0 := by
    rw [tally_core hset]
    exact tally_push hc rfl
  refine ⟨fun z => ?_, fun z => ?_, fun z => ?_, fun z b => ?_, ?_, fun r hr => ?_⟩
  · rw [halloc]
    exact Eq.trans (alloc_congr _ (·.basePos) (by rfl) z) (h.basePos z)
  · have hfree := h.free z
    rw [halloc, hlen]
    by_cases hz : z = zone c
    · subst hz
      rw [update_self, update_self, if_pos rfl]
      dsimp only
      omega
    · rwa [update_of_ne hz, update_of_ne hz, if_neg (Ne.symm hz)]
  · have hpos := h.pos z
    rw [halloc, hlen]
    by_cases hz : z = zone c
    · subst hz
      rw [update_self, if_pos rfl, Nat.mul_succ, ← hpos]
    · rwa [update_of_ne hz, if_neg (Ne.symm hz)]
  · rw [hlen, tally_core hset, tally_push hc (List.count_cons ..), h.bases]
    by_cases hz : zone c = z
    · subst hz
      have hbase : hd.basePos = (zoneAlloc cfg (zone c)).basePos +
          kMaxPos * s.tally cfg.nrThreads (·.heads.length) (zone c) := by rw [hhd, h.basePos, h.pos]
      rw [if_pos rfl, if_pos rfl, handedOut, handedOut, List.range_succ, List.map_append,
        List.count_append, List.map_singleton, List.count_singleton, ← hbase]
    · rw [if_neg hz, if_neg hz]
      rfl
  · rw [hset]
    refine (forall_update_iff s.core fun c y => c < cfg.nrThreads → CoreOk s.bufPos c y).2
      ⟨fun _ => ⟨List.forall_mem_cons.2 ⟨?_, (h.cores c hc).heads⟩, hfits hd⟩,
        fun c' _ => h.cores c'⟩
    rw [hhd]
    exact ⟨rfl, Nat.zero_le _, fun i hi => absurd hi (Nat.not_lt_zero i)⟩
  · rw [hset]
    refine gave_setCore (fun hg => ?_) (h.held r hr)
    rcases hg with ⟨hd', hmem, hrow⟩ | ⟨hc', -⟩
    · exact .inl ⟨hd', List.mem_cons_of_mem _ hmem, hrow⟩
    · rw [hclaims] at hc'
      cases hc'

/-! ### Rows -/

theorem CoreOk.update [DecidableEq R] {bufPos : R → ℤ} (h : CoreOk bufPos c x)
    (hr : bufPos r = -1) (v : ℤ) : CoreOk (update bufPos r v) c x := by
  have hkeep : ∀ {r' q}, bufPos r' = q → q ≠ -1 → Function.update bufPos r v r' = q := by
    intro r' q hq hne
    rw [update_of_ne, hq]
    rintro rfl
    exact hne (hq.symm.trans hr)
  refine ⟨fun hd hhd => ?_, ?_⟩
  · obtain ⟨howner, hle, hrows⟩ := h.heads hd hhd
    refine ⟨howner, hle, fun i hi => ?_⟩
    obtain ⟨r', hback, hpos⟩ := hrows i hi
    exact ⟨r', hback, hkeep hpos (by omega)⟩
  · have hfits := h.fits
    obtain ⟨heads, pc⟩ := x
    cases pc with
    | backref r' i =>
      obtain ⟨hd, hs, heq, hpos, hlt, hrow⟩ := hfits
      exact ⟨hd, hs, heq, hpos, hlt, hkeep hrow (by omega)⟩
    | increment r' i =>
      obtain ⟨hd, hs, heq, hpos, hlt, hrow, hback⟩ := hfits
      exact ⟨hd, hs, heq, hpos, hlt, hkeep hrow (by omega), hback⟩
    | returned r' p => exact ⟨hkeep hfits.1 hfits.2, hfits.2⟩
    | _ => exact hfits

/-- The compare-and-swap on a row without a position. -/
theorem Inv.claim [DecidableEq R] (h : Inv cfg e s) (hc : c < cfg.nrThreads) {hd : Head R} {i : ℕ}
    (hcore : s.core c = ⟨hd :: hs, .cas r i⟩) (hr : s.bufPos r = -1) :
    Inv cfg e ({ s with bufPos := update s.bufPos r (hd.basePos + i) }.setPc c (.backref r i)) := by
  have hfits := (h.cores c hc).fits
  rw [hcore] at hfits
  obtain ⟨hd', hs', heq, hpos, hlt⟩ := hfits
  cases heq
  have hok := fun c' hc' => (h.cores c' hc').update hr (hd.basePos + i)
  have hnew : Core.Fits (update s.bufPos r (hd.basePos + i)) ⟨hd :: hs, .backref r i⟩ :=
    ⟨hd, hs, rfl, hpos, hlt, update_self ..⟩
  rw [State.setPc, hcore]
  refine h.congr rfl (core_congr Core.bases (by rw [hcore]; rfl)) ?_ fun r' hr' => ?_
  · refine (forall_update_iff s.core fun c y => c < cfg.nrThreads → CoreOk _ c y).2
      ⟨fun _ => ⟨?_, hnew⟩, fun c' _ => hok c'⟩
    have := (hok c hc).heads
    rwa [hcore] at this
  · by_cases hrr : r' = r
    · subst hrr
      refine ⟨c, hc, ?_⟩
      rw [core_self]
      exact .inr ⟨rfl, hd, hs, rfl, hpos ▸ hlt, (update_self ..).trans (by rw [hpos])⟩
    · have hsame : update s.bufPos r (hd.basePos + i) r' = s.bufPos r' := update_of_ne hrr ..
      change update s.bufPos r (hd.basePos + i) r' ≠ -1 at hr'
      change ∃ c' < _, Core.Gave _ r' (update s.bufPos r (hd.basePos + i) r')
      rw [hsame] at hr' ⊢
      refine gave_setCore (fun hg => ?_) (h.held r' hr')
      rw [hcore] at hg
      rcases hg with hg | ⟨hclaims, -⟩
      · exact .inl hg
      · cases hclaims

/-- The row is entered into the head. -/
theorem Inv.enter (h : Inv cfg e s) (hc : c < cfg.nrThreads) {hd : Head R} {i : ℕ}
    (hcore : s.core c = ⟨hd :: hs, .backref r i⟩) :
    Inv cfg e (s.setCore c
      ⟨{ hd with backrefs := update hd.backrefs i (some r) } :: hs, .increment r i⟩) := by
  have hx := h.cores c hc
  rw [hcore] at hx
  obtain ⟨hd', hs', heq, hpos, hlt, hrow⟩ := hx.fits
  cases heq
  obtain ⟨hok, hoks⟩ := List.forall_mem_cons.1 hx.heads
  have hbelow : ∀ j < hd.pos, update hd.backrefs i (some r) j = hd.backrefs j :=
    fun j hj => update_of_ne (by omega) ..
  refine h.setCore (by rw [hcore]; rfl)
    ⟨List.forall_mem_cons.2 ⟨⟨hok.owner, hok.pos_le, fun j hj => ?_⟩, hoks⟩,
      _, hs, rfl, hpos, hlt, hrow, update_self ..⟩ fun r' p hg => ?_
  · dsimp only
    rw [hbelow j hj]
    exact hok.rows j hj
  · rw [hcore] at hg
    rcases hg with ⟨h', hmem, j, hj, hback, hp⟩ | ⟨hclaims, h', hs', heq, hg⟩
    · rcases List.mem_cons.1 hmem with rfl | hmem
      · exact .inl ⟨_, List.mem_cons_self, j, hj, (hbelow j hj).trans hback, hp⟩
      · exact .inl ⟨h', List.mem_cons_of_mem _ hmem, j, hj, hback, hp⟩
    · cases heq
      exact .inr ⟨hclaims, _, hs, rfl, hg⟩

/-- The head moves on. -/
theorem Inv.moveOn (h : Inv cfg e s) (hc : c < cfg.nrThreads) {hd : Head R} {i : ℕ}
    (hcore : s.core c = ⟨hd :: hs, .increment r i⟩) :
    Inv cfg e (s.setCore c
      ⟨{ hd with pos := hd.pos + 1 } :: hs, .returned r (hd.basePos + i)⟩) := by
  have hx := h.cores c hc
  rw [hcore] at hx
  obtain ⟨hd', hs', heq, rfl, hlt, hrow, hback⟩ := hx.fits
  cases heq
  obtain ⟨hok, hoks⟩ := List.forall_mem_cons.1 hx.heads
  refine h.setCore (by rw [hcore]; rfl)
    ⟨List.forall_mem_cons.2 ⟨⟨hok.owner, hlt, fun j hj => ?_⟩, hoks⟩, hrow, by omega⟩
    fun r' p hg => ?_
  · rcases Nat.lt_succ_iff_lt_or_eq.1 hj with hj | rfl
    · exact hok.rows j hj
    · exact ⟨r, hback, hrow⟩
  · rw [hcore] at hg
    rcases hg with ⟨h', hmem, j, hj, hback', hp⟩ | ⟨hclaims, h', hs', heq, -, hp⟩
    · rcases List.mem_cons.1 hmem with rfl | hmem
      · exact .inl ⟨_, List.mem_cons_self, j, Nat.lt_succ_of_lt hj, hback', hp⟩
      · exact .inl ⟨h', List.mem_cons_of_mem _ hmem, j, hj, hback', hp⟩
    · cases heq
      cases hclaims
      exact .inl ⟨_, List.mem_cons_self, hd.pos, Nat.lt_succ_self _, hback, hp⟩

/-! ### Steps -/

theorem Inv.sound (h : Inv cfg (s.tally cfg.nrThreads (·.pc.taken)) t)
    (htaken : ∀ c, (t.core c).pc.taken = (s.core c).pc.taken) : t.Sound cfg := by
  rw [State.Sound, tally_congr htaken]
  exact h

/-- A step between two accesses that claim nothing and take nothing. -/
theorem State.Sound.setPc (h : s.Sound cfg) (hc : c < cfg.nrThreads) (hold : (s.core c).pc.Plain)
    {pc : Pc R} (hnew : pc.Plain) (hfits : Core.Fits s.bufPos ⟨(s.core c).heads, pc⟩) :
    (s.setPc c pc).Sound cfg :=
  (Inv.setPc h hc (hnew.1.trans hold.1.symm) hfits).sound
    (core_congr (·.pc.taken) (hnew.2.trans hold.2.symm))

/-- The number of heads on their way changes at one zone. -/
theorem tally_taken (hc : c < n) {pc : Pc R} {m : ℕ}
    (h : s.tally n (·.pc.taken) (zone c) + pc.taken = m + (s.core c).pc.taken) :
    (s.setPc c pc).tally n (·.pc.taken) = update (s.tally n (·.pc.taken)) (zone c) m := by
  funext z
  have hsum := tally_setCore (s := s) (·.pc.taken) z hc ⟨(s.core c).heads, pc⟩
  dsimp only at hsum
  rw [← State.setPc] at hsum
  by_cases hz : z = zone c
  · subst hz
    rw [if_pos rfl, if_pos rfl] at hsum
    rw [update_self]
    omega
  · rw [if_neg (Ne.symm hz), if_neg (Ne.symm hz)] at hsum
    rw [update_of_ne hz]
    exact hsum

/-! ### The loops of `Reset` -/

theorem inv_unused (cfg : Config) : Inv cfg (fun _ => 0) (State.unused cfg : State R) := by
  have htally : (State.unused cfg : State R).tally cfg.nrThreads (·.heads.length) = fun _ => 0 :=
    tally_eq_zero fun _ _ => rfl
  refine ⟨fun _ => rfl, fun z => by rw [htally]; rfl, fun z => ?_, fun z b => ?_,
    fun c _ => ⟨fun h hh => absurd hh List.not_mem_nil, trivial⟩, fun r hr => absurd rfl hr⟩
  · rw [htally, State.unused, Manager.unused]
    dsimp only
    split_ifs <;> rfl
  · rw [htally, tally_eq_zero fun _ _ => rfl]
    rfl

theorem sound_unused (cfg : Config) : (State.unused cfg : State R).Sound cfg := by
  rw [State.Sound, tally_eq_zero fun _ _ => rfl]
  exact inv_unused cfg

theorem mem_backrefs {o : Option R} :
    o ∈ s.backrefs n ↔ ∃ c < n, ∃ h ∈ (s.core c).heads, ∃ i < h.pos, h.backrefs i = o := by
  simp [State.backrefs]

/-- What the last loop of `Reset` does. -/
theorem Inv.allocHeads {stale : ℕ → ℕ → Option R} (cs : List ℕ) : ∀ {s : State R}, Inv cfg e s →
    (∀ c ∈ cs, c < cfg.nrThreads) → (∀ c, (s.core c).pc = .idle) →
    s.allocHeads stale cs = some t → Inv cfg e t ∧ (∀ c, (t.core c).pc = .idle) ∧
      t.bufPos = s.bufPos ∧ ∀ c, (t.core c).heads.length = (s.core c).heads.length + cs.count c ∧
        ∀ h ∈ (t.core c).heads, h ∈ (s.core c).heads ∨ h.pos = 0 := by
  induction cs with
  | nil =>
    intro s h _ hpc ht
    cases ht
    exact ⟨h, hpc, rfl, fun c => ⟨rfl, fun _ => .inl⟩⟩
  | cons c cs ih =>
    intro s h hcs hpc ht
    rw [List.forall_mem_cons] at hcs
    obtain ⟨u, hu, ht⟩ := Option.bind_eq_some_iff.1 ht
    obtain ⟨hinv, hcore, hbuf⟩ := h.take hu
    have hidle : (u.core c).pc = .idle := by rw [hcore, hpc]
    have hplace := hinv.place hcs.1 (by rw [update_self]; omega) (by rw [hidle]; rfl) (stale c)
      fun hd => by rw [hidle]; trivial
    rw [update_self, Nat.add_sub_cancel, update_idem, update_eq_self] at hplace
    have hpc' : ∀ c', ((u.placeHead c (stale c)).core c').pc = .idle := fun c' => by
      rw [pc_placeHead, hcore, hpc]
    obtain ⟨hinv', hpcs, hbuf', hheads⟩ := ih hplace hcs.2 hpc' ht
    refine ⟨hinv', hpcs, hbuf'.trans hbuf, fun c' => ?_⟩
    obtain ⟨hlen, hmem⟩ := hheads c'
    by_cases hcc : c' = c
    · subst hcc
      rw [core_placeHead_self, hcore] at hlen hmem
      rw [List.count_cons_self]
      refine ⟨by rw [hlen, List.length_cons]; omega, fun hd hhd => ?_⟩
      rcases hmem hd hhd with hold | hnew
      · rcases List.mem_cons.1 hold with rfl | hold
        · exact .inr rfl
        · exact .inl hold
      · exact .inr hnew
    · rw [core_placeHead_of_ne u hcc, hcore] at hlen hmem
      rw [List.count_cons_of_ne (Ne.symm hcc)]
      exact ⟨hlen, hmem⟩

/-- Whether the pools have enough heads does not depend on what is in them. -/
theorem allocHeads_isSome {stale : ℕ → ℕ → Option R} (stale' : ℕ → ℕ → Option R)
    (cs : List ℕ) : ∀ {s t : State R}, s.alloc = t.alloc → (s.allocHeads stale cs).isSome →
      (t.allocHeads stale' cs).isSome := by
  induction cs with
  | nil =>
    intro s t _ _
    rfl
  | cons c cs ih =>
    intro s t halloc hs
    rw [State.allocHeads, State.takeHead, halloc] at hs
    rw [State.allocHeads, State.takeHead]
    split_ifs at hs ⊢ with hfree
    · cases hs
    · refine ih ?_ hs
      simp only [State.placeHead, State.setAlloc, State.setCore, halloc]

variable [DecidableEq R] {stale : ℕ → Option R}

theorem State.Sound.advance (h : s.Sound cfg) (hc : c < cfg.nrThreads)
    (hs : s.advance c stale = some t) : t.Sound cfg := by
  rw [State.advance] at hs
  split at hs
  case h_1 hcore =>
    cases hs
    refine h.setPc hc (hcore ▸ ⟨rfl, rfl⟩) (by split_ifs <;> exact ⟨rfl, rfl⟩) ?_
    split_ifs with hpos
    · exact ⟨rfl, hpos⟩
    · trivial
  case h_2 hd hs' r hcore =>
    cases hs
    refine h.setPc hc (hcore ▸ ⟨rfl, rfl⟩) (by split_ifs <;> exact ⟨rfl, rfl⟩) ?_
    split_ifs with hpos
    · trivial
    · exact ⟨hd, hs', by rw [hcore], rfl, not_le.1 hpos⟩
  case h_3 r hcore =>
    obtain ⟨u, hu, rfl⟩ := Option.map_eq_some_iff.1 hs
    obtain ⟨hinv, hcores, -⟩ := Inv.take h hu
    rw [State.Sound, tally_taken hc (m := u.tally cfg.nrThreads (·.pc.taken) (zone c) + 1)
      (by rw [hcores, hcore]; rfl), tally_core hcores]
    exact hinv.setPc hc (by rw [hcores, hcore]; rfl) trivial
  case h_4 r hcore =>
    cases hs
    have hpc : ((s.placeHead c stale).core c).pc = .fetch r := by rw [pc_placeHead, hcore]
    have hsame : (s.placeHead c stale).tally cfg.nrThreads (·.pc.taken) =
        s.tally cfg.nrThreads (·.pc.taken) :=
      tally_congr fun c' => congrArg Pc.taken (pc_placeHead s c stale c')
    have hle := le_tally s (·.pc.taken) hc
    rw [hcore] at hle
    change 1 ≤ _ at hle
    rw [State.Sound, tally_taken hc (m := s.tally cfg.nrThreads (·.pc.taken) (zone c) - 1)
      (by rw [hpc, hsame]; change _ + 0 = _ + 1; omega), hsame]
    have hinv := Inv.place h hc (by omega) (by rw [hcore]; rfl) stale fun hd => hcore ▸ trivial
    exact hinv.setPc hc (by rw [hpc]; rfl) trivial
  case h_5 hd hs' r i hcore =>
    split_ifs at hs with hr <;> cases hs
    · exact (Inv.claim h hc hcore hr).sound (core_congr (·.pc.taken) (by rw [hcore]; rfl))
    · exact h.setPc hc (hcore ▸ ⟨rfl, rfl⟩) ⟨rfl, rfl⟩ ⟨rfl, hr⟩
  case h_6 hcore =>
    cases hs
    exact (Inv.enter h hc hcore).sound (core_congr (·.pc.taken) (by rw [hcore]; rfl))
  case h_7 hcore =>
    cases hs
    exact (Inv.moveOn h hc hcore).sound (core_congr (·.pc.taken) (by rw [hcore]; rfl))
  case h_8 => cases hs

/-! ### `Reset` -/

/-- Between calls `Reset` finds every row that has a position, and all heads. -/
theorem State.Sound.reset_eq (h : s.Sound cfg)
    (hq : ∀ c < cfg.nrThreads, (s.core c).pc.quiet) (stale : ℕ → ℕ → Option R) :
    s.reset cfg stale =
      (State.unused cfg : State R).allocHeads stale (List.range cfg.nrThreads) := by
  have hnull : none ∉ s.backrefs cfg.nrThreads := by
    intro hmem
    obtain ⟨c, hc, hd, hhd, i, hi, hnone⟩ := mem_backrefs.1 hmem
    obtain ⟨r, hr, -⟩ := ((h.cores c hc).heads hd hhd).rows i hi
    rw [hnone] at hr
    cases hr
  have htaken : s.tally cfg.nrThreads (·.pc.taken) = fun _ => 0 :=
    tally_eq_zero fun c hc => (Pc.plain_of_quiet (hq c hc)).2
  have halloc : (s.clear cfg).alloc = (State.unused cfg : State R).alloc := by
    funext z
    have hfree := h.free z
    have hbase := h.basePos z
    have hpos := h.pos z
    rw [htaken, Nat.add_zero] at hfree
    rw [State.clear]
    dsimp only
    rw [hbase, hfree, hpos]
    rw [zoneAlloc, Manager.unused] at hfree ⊢
    rw [State.unused, Manager.unused]
    dsimp only at hfree ⊢
    split_ifs at hfree ⊢ with hz
    · rfl
    · have : s.tally cfg.nrThreads (·.heads.length) z = 0 := by
        dsimp only at hfree
        omega
      rw [this, Nat.mul_zero]
  have hrows : (s.clear cfg).bufPos = (State.unused cfg : State R).bufPos := by
    funext r
    change (if some r ∈ s.backrefs cfg.nrThreads then -1 else s.bufPos r) = -1
    split_ifs with hmem
    · rfl
    · by_contra hr
      obtain ⟨c, hc, ⟨hd, hhd, i, hi, hback, -⟩ | ⟨hclaims, -⟩⟩ := h.held r hr
      · exact hmem (mem_backrefs.2 ⟨c, hc, hd, hhd, i, hi, hback⟩)
      · rw [(Pc.plain_of_quiet (hq c hc)).1] at hclaims
        cases hclaims
  have hclear : s.clear cfg = State.unused cfg := by
    rw [show s.clear cfg = ⟨(s.clear cfg).alloc, fun _ => ⟨[], .idle⟩, (s.clear cfg).bufPos⟩
      from rfl, halloc, hrows]
    rfl
  rw [State.reset, if_neg hnull, hclear]

/-- A quiet state goes through `Reset`, and starts again. -/
theorem State.Sound.reset {stale : ℕ → ℕ → Option R} (h : s.Sound cfg)
    (hq : ∀ c < cfg.nrThreads, (s.core c).pc.quiet) (ht : s.reset cfg stale = some t) :
    t.Sound cfg ∧ (∀ r, t.bufPos r = -1) ∧
      ∀ c < cfg.nrThreads, ∃ hd, (t.core c).heads = [hd] ∧ hd.pos = 0 ∧ hd.ownerCore = c := by
  rw [h.reset_eq hq] at ht
  obtain ⟨hinv, hpc, hbuf, hheads⟩ := (inv_unused cfg).allocHeads (List.range cfg.nrThreads)
    (fun c hc => List.mem_range.1 hc) (fun _ => rfl) ht
  refine ⟨?_, congrFun hbuf, fun c hc => ?_⟩
  · rw [State.Sound, tally_eq_zero fun c _ => by rw [hpc]; rfl]
    exact hinv
  obtain ⟨hlen, hmem⟩ := hheads c
  rw [List.count_eq_one_of_mem List.nodup_range (List.mem_range.2 hc)] at hlen
  obtain ⟨hd, hhd⟩ := List.length_eq_one_iff.1 hlen
  have hin : hd ∈ (t.core c).heads := hhd ▸ List.mem_singleton_self hd
  exact ⟨hd, hhd, (hmem hd hin).resolve_left List.not_mem_nil,
    ((hinv.cores c hc).heads hd hin).owner⟩

theorem State.Sound.step {ev : Event R} (h : s.Sound cfg)
    (hs : s.step cfg ev = some t) : t.Sound cfg := by
  cases ev with
  | getOrInstall c r =>
    rw [State.step] at hs
    split_ifs at hs with hg
    cases hs
    exact h.setPc hg.1 (Pc.plain_of_quiet hg.2) ⟨rfl, rfl⟩ trivial
  | advance c stale =>
    rw [State.step] at hs
    split_ifs at hs with hc
    exact h.advance hc hs
  | reset stale =>
    rw [State.step] at hs
    split_ifs at hs with hq
    exact (h.reset hq hs).1

end Inv

/-! ## The result -/

/-- Head `k.2` of core `k.1` covers the position. -/
def State.Covers (n : ℕ) (s : State R) (k : ℕ × ℕ) (h : Head R) (p : ℕ) : Prop :=
  k.1 < n ∧ (s.core k.1).heads[k.2]? = some h ∧ h.basePos ≤ p ∧ p < h.basePos + kMaxPos

section Result

variable {cfg : Config} {e : ℕ → ℕ} {s t : State R} {k k' : ℕ × ℕ} {hd hd' : Head R} {p : ℕ}

theorem State.Covers.count_pos {n : ℕ} (h : s.Covers n k hd p) :
    0 < (s.core k.1).bases.count hd.basePos :=
  List.count_pos_iff.2 (List.mem_map_of_mem (List.mem_of_getElem? h.2.1))

/-- The first position of a head is one that its zone has handed out. -/
theorem Inv.base_eq (h : Inv cfg e s) (hp : s.Covers cfg.nrThreads k hd p) :
    ∃ j < s.tally cfg.nrThreads (·.heads.length) (zone k.1),
      hd.basePos = (zoneAlloc cfg (zone k.1)).basePos + kMaxPos * j := by
  have hcount := hp.count_pos.trans_le (le_tally s (·.bases.count hd.basePos) hp.1)
  rw [h.bases, List.count_pos_iff, handedOut, List.mem_map] at hcount
  obtain ⟨j, hj, heq⟩ := hcount
  exact ⟨j, List.mem_range.1 hj, heq.symm⟩

/-- Where the positions of a head are. -/
theorem Inv.covers_zone (h : Inv cfg e s) (hp : s.Covers cfg.nrThreads k hd p) :
    zone k.1 < cfg.nrThreads / Mem.kNrCorePerNode ∧ zoneSize cfg * zone k.1 ≤ p ∧
      p < zoneSize cfg * (zone k.1 + 1) := by
  obtain ⟨j, hj, heq⟩ := h.base_eq hp
  obtain ⟨-, -, hlo, hhi⟩ := hp
  have hfree := h.free (zone k.1)
  obtain ⟨hz, hbase⟩ := zoneAlloc_basePos cfg (z := zone k.1) (by omega)
  have hpos := h.pos_le (zone k.1)
  have hmul : kMaxPos * (j + 1) ≤ (s.alloc (zone k.1)).pos := by
    rw [h.pos]
    exact Nat.mul_le_mul_left _ hj
  rw [Nat.mul_succ] at hmul ⊢
  exact ⟨hz, by omega, by omega⟩

/-- The ranges of two heads are disjoint. -/
theorem Inv.covers_unique (h : Inv cfg e s) (h₁ : s.Covers cfg.nrThreads k hd p)
    (h₂ : s.Covers cfg.nrThreads k' hd' p) : k = k' := by
  have hzone : zone k'.1 = zone k.1 := by
    obtain ⟨-, hlo, hhi⟩ := h.covers_zone h₁
    obtain ⟨-, hlo', hhi'⟩ := h.covers_zone h₂
    rw [mul_comm] at hlo hhi hlo' hhi'
    exact (Nat.div_eq_of_lt_le hlo' hhi').symm.trans (Nat.div_eq_of_lt_le hlo hhi)
  have hbase : hd'.basePos = hd.basePos := by
    obtain ⟨j, -, heq⟩ := h.base_eq h₁
    obtain ⟨j', -, heq'⟩ := h.base_eq h₂
    obtain ⟨-, -, hlo, hhi⟩ := h₁
    obtain ⟨-, -, hlo', hhi'⟩ := h₂
    rw [hzone] at heq'
    have hj : j' = j := by
      unfold kMaxPos at *
      omega
    rw [heq, heq', hj]
  have hone : ∀ b, s.tally cfg.nrThreads (·.bases.count b) (zone k.1) ≤ 1 := by
    intro b
    rw [h.bases]
    refine List.nodup_iff_count_le_one.1 (List.nodup_range.map fun j j' hj => ?_) b
    exact Nat.eq_of_mul_eq_mul_left (by decide) (Nat.add_left_cancel hj)
  obtain ⟨c, j⟩ := k
  obtain ⟨c', j'⟩ := k'
  obtain rfl : c = c' := by
    by_contra hne
    have hle := add_le_tally s (·.bases.count hd.basePos) h₁.1 h₂.1 hne hzone
    have hc := h₁.count_pos
    have hc' := hbase ▸ h₂.count_pos
    have := hone hd.basePos
    dsimp only at *
    omega
  have hnd : (s.core c).bases.Nodup := List.nodup_iff_count_le_one.2 fun b =>
    (le_tally s (·.bases.count b) h₁.1).trans (hone b)
  have hget : (s.core c).bases[j]? = some hd.basePos := by simp [Core.bases, h₁.2.1]
  have hget' : (s.core c).bases[j']? = some hd.basePos := by simp [Core.bases, h₂.2.1, hbase]
  rw [(List.getElem?_inj (List.getElem?_eq_some_iff.1 hget).1 hnd).1 (hget.trans hget'.symm)]

/-- The head and the offset of a position that a core gave. -/
theorem CoreOk.covers {c n : ℕ} {r : R} {q : ℤ} (h : CoreOk s.bufPos c (s.core c)) (hc : c < n)
    (hg : (s.core c).Gave r q) : ∃ k hd i, q = (hd.basePos + i : ℕ) ∧
      s.Covers n (c, k) hd (hd.basePos + i) ∧
        (i < hd.pos ∧ hd.backrefs i = some r ∨ i = hd.pos ∧ (s.core c).pc.claims = some r) := by
  rcases hg with ⟨hd, hmem, i, hi, hback, hq⟩ | ⟨hclaims, hd, hs, heq, hlt, hq⟩
  · obtain ⟨k, hk⟩ := List.mem_iff_getElem?.1 hmem
    have := (h.heads hd hmem).pos_le
    exact ⟨k, hd, i, hq, ⟨hc, hk, by omega, by omega⟩, .inl ⟨hi, hback⟩⟩
  · exact ⟨0, hd, hd.pos, hq, ⟨hc, by rw [heq]; rfl, by omega, by omega⟩, .inr ⟨rfl, hclaims⟩⟩

/-- A position was given to one row. -/
theorem Inv.row_unique (h : Inv cfg e s) {c c' : ℕ} {r r' : R} {q : ℤ} (hc : c < cfg.nrThreads)
    (hc' : c' < cfg.nrThreads) (h₁ : (s.core c).Gave r q) (h₂ : (s.core c').Gave r' q) :
    r = r' := by
  obtain ⟨k, hd, i, hq, hcov, hrow⟩ := (h.cores c hc).covers hc h₁
  obtain ⟨k', hd', i', hq', hcov', hrow'⟩ := (h.cores c' hc').covers hc' h₂
  have hp : hd'.basePos + i' = hd.basePos + i := by omega
  rw [hp] at hcov'
  cases h.covers_unique hcov hcov'
  cases hcov.2.1.symm.trans hcov'.2.1
  have hi : i' = i := by omega
  subst hi
  rcases hrow with ⟨hlt, hr⟩ | ⟨heq, hr⟩ <;> rcases hrow' with ⟨hlt', hr'⟩ | ⟨heq', hr'⟩
  · exact Option.some.inj (hr.symm.trans hr')
  · omega
  · omega
  · exact Option.some.inj (hr.symm.trans hr')

theorem Inv.lt_preallocCount (h : Inv cfg e s) (hp : s.Covers cfg.nrThreads k hd p) :
    p < cfg.preallocCount := by
  obtain ⟨hz, -, hend⟩ := h.covers_zone hp
  exact hend.trans_le ((Nat.mul_le_mul_left _ hz).trans (Nat.div_mul_le_self _ _))

variable [DecidableEq R]

/-- No version buffer is shared. -/
structure Unshared (cfg : Config) (s : State R) : Prop where
  /-- A position is one of the buffers, and in the range of exactly one head. -/
  located : ∀ r, s.bufPos r ≠ -1 → ∃ p : ℕ, s.bufPos r = p ∧ p < cfg.preallocCount ∧
    ∃! k, ∃ h, s.Covers cfg.nrThreads k h p
  distinct : ∀ r r', r ≠ r' → s.bufPos r ≠ -1 → s.bufPos r ≠ s.bufPos r'
  disjoint : ∀ k k' h h' p, s.Covers cfg.nrThreads k h p → s.Covers cfg.nrThreads k' h' p → k = k'
  backref : ∀ c < cfg.nrThreads, ∀ h ∈ (s.core c).heads, ∀ i < h.pos, ∀ r,
    s.bufPos r = h.basePos + i → h.backrefs i = some r
  /-- What a call returned is the row's position. -/
  returned : ∀ c < cfg.nrThreads, ∀ r p, (s.core c).pc = .returned r p → s.bufPos r = p ∧ p ≠ -1
  /-- A row keeps its position until the next `Reset`. -/
  stable : ∀ ev t, s.step cfg ev = some t → (∀ stale, ev ≠ .reset stale) →
    ∀ r, s.bufPos r ≠ -1 → t.bufPos r = s.bufPos r
  /-- `Reset` succeeds when no call is in progress. -/
  reset : (∀ c < cfg.nrThreads, (s.core c).pc.quiet) → ∀ stale, ∃ t,
    s.step cfg (.reset stale) = some t ∧ (∀ r, t.bufPos r = -1) ∧
      ∀ c < cfg.nrThreads, ∃ h, (t.core c).heads = [h] ∧ h.pos = 0 ∧ h.ownerCore = c
  /-- The counters of the zones stay small. -/
  counter : ∀ z, (s.alloc z).pos ≤ zoneSize cfg

/-- Only the compare-and-swap writes to a row, when it has no position. -/
theorem bufPos_of_advance {c : ℕ} {stale : ℕ → Option R} (hs : s.advance c stale = some t) (r : R)
    (hr : s.bufPos r ≠ -1) : t.bufPos r = s.bufPos r := by
  rw [State.advance] at hs
  split at hs
  case h_3 =>
    obtain ⟨u, hu, rfl⟩ := Option.map_eq_some_iff.1 hs
    rw [State.takeHead] at hu
    split_ifs at hu
    cases hu
    rfl
  case h_5 =>
    split_ifs at hs with hcas
    · cases hs
      refine update_of_ne ?_ ..
      rintro rfl
      exact hr hcas
    · cases hs
      rfl
  all_goals
    cases hs
    try rfl

theorem State.Sound.unshared (h : s.Sound cfg)
    (hnew : ∃ stale, (State.new cfg stale : Option (State R)).isSome) : Unshared cfg s := by
  have hdistinct : ∀ r r', s.bufPos r ≠ -1 → s.bufPos r = s.bufPos r' → r = r' := by
    intro r r' hr heq
    obtain ⟨c, hc, hgave⟩ := h.held r hr
    obtain ⟨c', hc', hgave'⟩ := h.held r' (heq ▸ hr)
    exact h.row_unique hc hc' hgave (heq ▸ hgave')
  refine ⟨fun r hr => ?_, fun r r' hne hr heq => hne (hdistinct r r' hr heq),
    fun k k' hd hd' p h₁ h₂ => h.covers_unique h₁ h₂, fun c hc hd hhd i hi r hr => ?_,
    fun c hc r p hpc => ?_, fun ev t hs hev r hr => ?_, fun hq stale => ?_, fun z => ?_⟩
  · obtain ⟨c, hc, hgave⟩ := h.held r hr
    obtain ⟨k, hd, i, hp, hcov, -⟩ := (h.cores c hc).covers hc hgave
    refine ⟨_, hp, h.lt_preallocCount hcov, (c, k), ⟨hd, hcov⟩, ?_⟩
    rintro k' ⟨hd', hcov'⟩
    exact h.covers_unique hcov' hcov
  · obtain ⟨r', hr', hpos⟩ := ((h.cores c hc).heads hd hhd).rows i hi
    rw [hr', hdistinct r r' (by omega) (hr.trans hpos.symm)]
  · have hfits := (h.cores c hc).fits
    generalize s.core c = x at hfits hpc
    obtain ⟨heads, pc⟩ := x
    cases hpc
    exact hfits
  · cases ev with
    | getOrInstall c r' =>
      rw [State.step] at hs
      split_ifs at hs
      cases hs
      rfl
    | advance c stale =>
      rw [State.step] at hs
      split_ifs at hs
      exact bufPos_of_advance hs r hr
    | reset stale => exact absurd rfl (hev stale)
  · obtain ⟨stale₀, hnew⟩ := hnew
    rw [State.new, (sound_unused cfg).reset_eq fun _ _ => rfl] at hnew
    obtain ⟨t, ht⟩ := Option.isSome_iff_exists.1 (allocHeads_isSome stale _ rfl hnew)
    rw [← h.reset_eq hq] at ht
    exact ⟨t, (if_pos hq).trans ht, (h.reset hq ht).2⟩
  · exact h.pos_le z

/-- **Version buffers are never shared by two rows.** After the constructor, for every set of rows
and every interleaving of the cores' calls of `GetOrInstall` and of calls of `Reset` between them,
every row that has a position has one position, below the number of buffers and in the range of
exactly one head, and keeps it until the next `Reset`; rows have different positions, heads have
disjoint ranges, and below a head's `pos` the `backrefs` name the rows of the positions. `Reset`
leaves all rows without a position and every core with one fresh head. -/
theorem buffers_not_shared (cfg : Config) (stale : ℕ → ℕ → Option R) (s₀ : State R)
    (hnew : State.new cfg stale = some s₀) (evs : List (Event R))
    (hrun : run (State.step cfg) s₀ evs = some s) : Unshared cfg s := by
  have hsound := run_induction (I := fun s => s.Sound cfg) (fun _ _ _ h hs => h.step hs)
    ((sound_unused cfg).reset (fun _ _ => rfl) hnew).1 hrun
  exact hsound.unshared ⟨stale, by rw [hnew]; rfl⟩

/-- Eight cores with one head each. -/
def eightHeads : Config where
  nrThreads := 8
  preallocCount := 65536
  splittingThreshold := 0
  lockElision := false
  batchAppend := true
  onDemandSplitting := false
  binpackSplitting := false

/-- Two cores find a row without a position. The second one loses the compare-and-swap, and gets the
position of the first one before this one has entered the row into its head. -/
def race : List (Event Bool) :=
  [.getOrInstall 0 true, .getOrInstall 1 true, .advance 0 default, .advance 1 default,
    .advance 0 default, .advance 1 default, .advance 0 default, .advance 1 default,
    .advance 0 default, .advance 0 default]

theorem buffers_not_shared_race : ∃ s₀ s, State.new eightHeads default = some s₀ ∧
    run (State.step eightHeads) s₀ race = some s ∧ s.bufPos true = 0 ∧ Unshared eightHeads s := by
  have h : ((State.new eightHeads default).bind fun s₀ =>
      (run (State.step eightHeads) s₀ race).map (·.bufPos true)) = some 0 := by decide +kernel
  obtain ⟨s₀, h₀, h⟩ := Option.bind_eq_some_iff.1 h
  obtain ⟨s, hs, hp⟩ := Option.map_eq_some_iff.1 h
  exact ⟨s₀, s, h₀, hs, hp, buffers_not_shared eightHeads default s₀ h₀ race hs⟩

end Result

end Felis.Contention.Positions
