import Mathlib.Tactic
import Felis.Foundations.Runs

/-!
# The commit buffer

The commit buffer finds out which rows a transaction writes more than once in an epoch. `AddRef`
looks for an entry of the row and the transaction in `ref_hashtable`; for the second write it links
a new entry to the field `dup` of the first one and into `dup_hashtable`, where `LookupDuplicate`
finds it.

A new entry is constructed with the sequence number of the transaction, but entries are compared
with the lower half of its serial id, and the two are never the same. So no `AddRef` ever finds the
entry of an earlier one, and duplicate writes are not detected (`duplicate_missed`). For pairs that
are added once, everything is as it should be (`refs_coalesced`).

An event is one access to shared memory by one core. The runs start after `Clear`.
-/

namespace Felis.Txn.CommitBuffer

open Runs Function

structure Config (V : Type) where
  /-- `g_txn_per_epoch` -/
  txnPerEpoch : ℕ
  /-- `XXH32(&r, sizeof(uintptr_t), seq)` for the address of a row -/
  xxh32 : V → ℕ → ℕ

def kPerTxnHashSize : ℕ := 16

def shortSid (sid : ℕ) : ℕ := sid % 2 ^ 32

def seqOf (sid : ℕ) : ℕ := (shortSid sid / 2 ^ 8 + (2 ^ 32 - 1)) % 2 ^ 32 % 2 ^ 24

section

variable {C V : Type}

/-- The slot of `ref_hashtable`. -/
def Config.hash (cfg : Config V) (v : V) (sid : ℕ) : ℕ :=
  (seqOf sid * kPerTxnHashSize + cfg.xxh32 v (seqOf sid) % (kPerTxnHashSize - 1)) % 2 ^ 32 %
    (cfg.txnPerEpoch * kPerTxnHashSize)

/-- The union `u`. -/
inductive Payload (C : Type)
  | dup (p : Option (C × ℕ))
  /-- `none` is `kPendingValue`. -/
  | value (obj : Option ℕ)

/-- An entry is at a place in the brk of a core. -/
structure Entry (C V : Type) where
  vhandle : V
  shortSid : ℕ
  wcnt : ℤ
  u : Payload C
  next : Option (C × ℕ)

def Entry.new (v : V) (sid : ℕ) : Entry C V := ⟨v, sid, 1, .dup none, none⟩

def Entry.dup (e : Entry C V) : Option (C × ℕ) :=
  match e.u with
  | .dup p => p
  | .value _ => none

/-- What `pp` points to. -/
inductive Link (C : Type)
  | slot (i : ℕ)
  | next (a : C × ℕ)
  | dup (a : C × ℕ)

/-- Where a core is in `AddRef`. -/
inductive Pc (C V : Type)
  | idle
  | load (v : V) (sid : ℕ)
  /-- At `while (p)`. -/
  | scan (v : V) (sid : ℕ) (pp : Link C) (p : Option (C × ℕ))
  /-- At the compare-and-swap, with a new entry at the top of the brk. -/
  | cas (v : V) (sid : ℕ) (pp : Link C) (p : Option (C × ℕ))
  | loadLast (v : V) (sid : ℕ)
  | casDup (v : V) (sid : ℕ) (last : Option (C × ℕ))
  | setPending (v : V) (sid : ℕ)
  | addNew (v : V) (sid : ℕ)
  | addTail (v : V) (sid : ℕ) (tail : C × ℕ)
  /-- A slot outside of a table has been accessed. -/
  | outside

structure Result (V : Type) where
  vhandle : V
  sid : ℕ
  isDup : Bool
  deriving DecidableEq

structure State (C V : Type) where
  pc : C → Pc C V
  /-- The number of entries in the brk of a core. -/
  top : C → ℕ
  entry : C × ℕ → Entry C V
  ref : ℕ → Option (C × ℕ)
  dup : ℕ → Option (C × ℕ)
  results : List (Result V)

inductive Event (V : Type)
  | addRef (v : V) (sid : ℕ)
  | advance

namespace State

variable [DecidableEq C] [DecidableEq V]

def start (v : V) : State C V :=
  ⟨fun _ => .idle, fun _ => 0, fun _ => .new v 0, fun _ => none, fun _ => none, []⟩

def setPc (s : State C V) (c : C) (pc : Pc C V) : State C V := { s with pc := update s.pc c pc }

def setEntry (s : State C V) (a : C × ℕ) (e : Entry C V) : State C V :=
  { s with entry := update s.entry a e }

def read (s : State C V) : Link C → Option (C × ℕ)
  | .slot i => s.ref i
  | .next a => (s.entry a).next
  | .dup a => (s.entry a).dup

def write (s : State C V) (a : C × ℕ) : Link C → State C V
  | .slot i => { s with ref := update s.ref i (some a) }
  | .next b => s.setEntry b { s.entry b with next := some a }
  | .dup b => s.setEntry b { s.entry b with u := .dup (some a) }

/-- A new entry at the top of the brk; it is not allocated yet. -/
def construct (s : State C V) (c : C) (v : V) (sid : ℕ) (pp : Link C) (p : Option (C × ℕ)) :
    State C V :=
  (s.setEntry (c, s.top c) (.new v (seqOf sid))).setPc c (.cas v sid pp p)

/-- `brk->Alloc(sizeof(Entry))` -/
def alloc (s : State C V) (c : C) : State C V := { s with top := update s.top c (s.top c + 1) }

def finish (s : State C V) (c : C) (v : V) (sid : ℕ) (isDup : Bool) : State C V :=
  { s.setPc c .idle with results := s.results ++ [⟨v, sid, isDup⟩] }

variable (cfg : Config V)

def advance (s : State C V) (c : C) : Option (State C V) :=
  let new := (c, s.top c)
  match s.pc c with
  | .idle | .outside => none
  | .load v sid =>
    some (s.setPc c (.scan v sid (.slot (cfg.hash v sid)) (s.ref (cfg.hash v sid))))
  | .scan v sid pp none => some (s.construct c v sid pp none)
  | .scan v sid _ (some p) =>
    if (s.entry p).shortSid = shortSid sid ∧ (s.entry p).vhandle = v then
      match (s.entry p).dup with
      | some tail => some (s.setPc c (.addTail v sid tail))
      | none => some (s.construct c v sid (.dup p) (some p))
    else some (s.setPc c (.scan v sid (.next p) (s.entry p).next))
  | .cas v sid pp p =>
    match s.read pp, p with
    | none, none => some (((s.write new pp).alloc c).finish c v sid false)
    | none, some _ => some ((s.write new pp).setPc c (.loadLast v sid))
    | some tail, none => some (s.setPc c (.scan v sid pp (some tail)))
    | some tail, some _ => some (s.setPc c (.addTail v sid tail))
  | .loadLast v sid =>
    -- The index is not reduced modulo the size of the table here.
    if seqOf sid < cfg.txnPerEpoch then some (s.setPc c (.casDup v sid (s.dup (seqOf sid))))
    else some (s.setPc c .outside)
  | .casDup v sid last =>
    let i := seqOf sid % cfg.txnPerEpoch
    let s := s.setEntry new { s.entry new with next := last }
    if s.dup i = last then
      some ({ s with dup := update s.dup i (some new) }.setPc c (.setPending v sid))
    else some (s.setPc c (.casDup v sid (s.dup i)))
  | .setPending v sid =>
    some ((s.setEntry new { s.entry new with u := .value none }).setPc c (.addNew v sid))
  | .addNew v sid =>
    let e := s.entry new
    some (((s.setEntry new { e with wcnt := e.wcnt + 1 }).alloc c).finish c v sid true)
  | .addTail v sid tail =>
    let e := s.entry tail
    some ((s.setEntry tail { e with wcnt := e.wcnt + 1 }).finish c v sid true)

def step (s : State C V) : C × Event V → Option (State C V)
  | (c, .addRef v sid) =>
    match s.pc c with
    | .idle => some (s.setPc c (.load v sid))
    | _ => none
  | (c, .advance) => s.advance cfg c

/-- The loop of `LookupDuplicate`. -/
def findDuplicate (s : State C V) (v : V) (sid : ℕ) : ℕ → Option (C × ℕ) → Option (C × ℕ)
  | 0, _ | _, none => none
  | fuel + 1, some p =>
    if (s.entry p).vhandle = v ∧ (s.entry p).shortSid = shortSid sid then some p
    else findDuplicate s v sid fuel (s.entry p).next

/-- `LookupDuplicate`; there are not more entries than calls of `AddRef`. -/
def lookupDuplicate (s : State C V) (v : V) (sid : ℕ) : Option (C × ℕ) :=
  s.findDuplicate v sid s.results.length (s.dup (seqOf sid % cfg.txnPerEpoch))

/-- `WriteVarStr`, and whether it installs the value in the row. -/
def writeVarStr (s : State C V) (v : V) (sid obj : ℕ) : State C V × Bool :=
  match s.lookupDuplicate cfg v sid with
  | some a =>
    let e := s.entry a
    (s.setEntry a { e with u := .value (some obj), wcnt := e.wcnt - 1 }, e.wcnt - 1 ≤ 0)
  | none => (s, true)

/-- Which of successive calls of `WriteVarStr` install their values. -/
def installs (v : V) (sid : ℕ) : List ℕ → State C V → List Bool
  | [], _ => []
  | obj :: objs, s =>
    (s.writeVarStr cfg v sid obj).2 :: installs v sid objs (s.writeVarStr cfg v sid obj).1

def resultsOf (s : State C V) (v : V) (sid : ℕ) : List Bool :=
  (s.results.filter fun r => r.vhandle = v ∧ r.sid = sid).map Result.isDup

/-- The pair has been added `n` times: the first time it was new. There is an entry for it if it was
added twice, which counts the writes, and only the last write is installed. -/
structure Coalesced (s : State C V) (v : V) (sid n : ℕ) : Prop where
  results : s.resultsOf v sid = (List.range n).map (· != 0)
  lookup : (s.lookupDuplicate cfg v sid).isSome ↔ 2 ≤ n
  wcnt : ∀ a, s.lookupDuplicate cfg v sid = some a → (s.entry a).wcnt = n
  installs : ∀ objs : List ℕ, objs.length = n →
    s.installs cfg v sid objs = (List.range n).map (· + 1 == n)

end State

/-- A serial id with a sequence number in `1..g_txn_per_epoch`. -/
def Config.Valid (cfg : Config V) (sid : ℕ) : Prop :=
  1 ≤ shortSid sid / 2 ^ 8 ∧ shortSid sid / 2 ^ 8 ≤ cfg.txnPerEpoch

def ValidCall (cfg : Config V) : C × Event V → Prop
  | (_, .addRef _ sid) => cfg.Valid sid
  | (_, .advance) => True

/-! ## The identifiers -/

variable {cfg : Config V} {sid : ℕ}

theorem seqOf_add_one (h : cfg.Valid sid) : seqOf sid + 1 = shortSid sid / 2 ^ 8 := by
  have hlt : shortSid sid < 2 ^ 32 := Nat.mod_lt _ (by decide)
  have := h.1
  unfold seqOf
  omega

/-- What is stored is never what is compared. -/
theorem seqOf_ne_shortSid (h : cfg.Valid sid) : seqOf sid ≠ shortSid sid := by
  have := seqOf_add_one h
  omega

/-- The slots of a sequence number are its own. -/
theorem hash_div (h : cfg.Valid sid) (v : V) : cfg.hash v sid / kPerTxnHashSize = seqOf sid := by
  have hseq := seqOf_add_one h
  have hle := h.2
  have hlt : seqOf sid < 2 ^ 24 := Nat.mod_lt _ (by decide)
  have hx := Nat.mod_lt (cfg.xxh32 v (seqOf sid)) (by decide : 15 > 0)
  rw [Config.hash, kPerTxnHashSize]
  generalize cfg.xxh32 v (seqOf sid) % (16 - 1) = x at *
  rw [Nat.mod_eq_of_lt (by omega), Nat.mod_eq_of_lt (by omega)]
  omega

/-! ## The invariant -/

namespace State

variable {s t : State C V} {c : C}

/-- An allocated entry with a given number. -/
def Has (s : State C V) (a : C × ℕ) (seq : ℕ) : Prop :=
  a.2 < s.top a.1 ∧ (s.entry a).shortSid = seq

/-- The link belongs to the entries of a sequence number. -/
def Links (s : State C V) (seq : ℕ) : Link C → Prop
  | .slot i => i / kPerTxnHashSize = seq
  | .next a => s.Has a seq
  | .dup _ => False

/-- No core is in the part of `AddRef` for duplicates. -/
def Good (cfg : Config V) (s : State C V) (c : C) : Pc C V → Prop
  | .idle => True
  | .load _ sid => cfg.Valid sid
  | .scan _ sid pp p => cfg.Valid sid ∧ s.Links (seqOf sid) pp ∧ ∀ a ∈ p, s.Has a (seqOf sid)
  | .cas v sid pp p =>
    cfg.Valid sid ∧ s.Links (seqOf sid) pp ∧ p = none ∧
      s.entry (c, s.top c) = .new v (seqOf sid)
  | _ => False

structure Inv (cfg : Config V) (s : State C V) : Prop where
  dup : ∀ i, s.dup i = none
  linked : ∀ pp seq, s.Links seq pp → ∀ a ∈ s.read pp, s.Has a seq
  good : ∀ c, s.Good cfg c (s.pc c)
  results : ∀ r ∈ s.results, r.isDup = false

/-- The step keeps the allocated entries and what is at the tops of the other cores. -/
structure Extends (s : State C V) (c : C) (t : State C V) : Prop where
  has : ∀ a seq, s.Has a seq → t.Has a seq
  top : ∀ c', c' ≠ c → t.top c' = s.top c' ∧ t.entry (c', t.top c') = s.entry (c', s.top c')
  pc : ∀ c', c' ≠ c → t.pc c' = s.pc c'

theorem Extends.links (h : s.Extends c t) {seq : ℕ} {pp : Link C} (hpp : s.Links seq pp) :
    t.Links seq pp := by
  cases pp with
  | slot i => exact hpp
  | next a => exact h.has a seq hpp
  | dup a => exact hpp

theorem Links.unique {seq seq' : ℕ} {pp : Link C} (h : s.Links seq pp) (h' : s.Links seq' pp) :
    seq = seq' := by
  cases pp with
  | slot i => exact h.symm.trans h'
  | next a => exact h.2.symm.trans h'.2
  | dup a => exact h.elim

section

variable [DecidableEq V]

theorem Inv.lookupDuplicate_eq_none (h : s.Inv cfg) (v : V) (sid : ℕ) :
    s.lookupDuplicate cfg v sid = none := by
  rw [lookupDuplicate, h.dup]
  cases s.results.length <;> rfl

theorem Inv.resultsOf_eq (h : s.Inv cfg) (v : V) (sid : ℕ) :
    s.resultsOf v sid = List.replicate (s.resultsOf v sid).length false := by
  refine List.eq_replicate_iff.2 ⟨rfl, fun b hb => ?_⟩
  obtain ⟨r, hr, rfl⟩ := List.mem_map.1 hb
  exact h.results r (List.mem_filter.1 hr).1

theorem length_resultsOf (s : State C V) (v : V) (sid : ℕ) : (s.resultsOf v sid).length =
    (s.results.map fun r => (r.vhandle, r.sid)).count (v, sid) := by
  rw [resultsOf, List.length_map, ← List.countP_eq_length_filter, List.count, List.countP_map]
  refine List.countP_congr fun r _ => ?_
  simp

end

variable [DecidableEq C]

theorem Inv.of_extends (h : s.Inv cfg) (hext : s.Extends c t) (hdup : t.dup = s.dup)
    (hlinked : ∀ pp seq, t.Links seq pp → ∀ a ∈ t.read pp, t.Has a seq)
    (hgood : t.Good cfg c (t.pc c)) (hresults : ∀ r ∈ t.results, r.isDup = false) : t.Inv cfg := by
  refine ⟨fun i => by rw [hdup, h.dup], hlinked, fun c' => ?_, hresults⟩
  by_cases hc : c' = c
  · rw [hc]
    exact hgood
  · have hold := h.good c'
    rw [hext.pc c' hc]
    revert hold
    cases s.pc c' with
    | scan v sid pp p =>
      exact fun h' => ⟨h'.1, hext.links h'.2.1, fun a ha => hext.has a _ (h'.2.2 a ha)⟩
    | cas v sid pp p =>
      exact fun h' => ⟨h'.1, hext.links h'.2.1, h'.2.2.1, (hext.top c' hc).2.trans h'.2.2.2⟩
    | _ => exact id

theorem extends_setPc (pc : Pc C V) : s.Extends c (s.setPc c pc) :=
  ⟨fun _ _ h => h, fun _ _ => ⟨rfl, rfl⟩, fun _ hc => update_of_ne hc _ _⟩

theorem Inv.setPc (h : s.Inv cfg) {pc : Pc C V} (hgood : s.Good cfg c pc) :
    (s.setPc c pc).Inv cfg := by
  refine h.of_extends (extends_setPc pc) rfl (fun pp seq hpp => ?_) ?_ h.results
  · cases pp with
    | slot i => exact h.linked (.slot i) seq hpp
    | next a => exact h.linked (.next a) seq hpp
    | dup a => exact hpp.elim
  · have hpc : (s.setPc c pc).pc c = pc := update_self ..
    rw [hpc]
    cases pc <;> exact hgood

theorem Inv.construct (h : s.Inv cfg) {v : V} {pp : Link C} (hsid : cfg.Valid sid)
    (hpp : s.Links (seqOf sid) pp) : (s.construct c v sid pp none).Inv cfg := by
  have hne : ∀ a, a.2 < s.top a.1 → a ≠ (c, s.top c) := by
    rintro a ha rfl
    exact lt_irrefl _ ha
  have hentry : ∀ a, a.2 < s.top a.1 → (s.construct c v sid pp none).entry a = s.entry a :=
    fun a ha => update_of_ne (hne a ha) _ _
  have hext : s.Extends c (s.construct c v sid pp none) := by
    refine ⟨fun a seq ha => ⟨ha.1, ?_⟩, fun c' hc => ⟨rfl, ?_⟩, fun c' hc => update_of_ne hc _ _⟩
    · rw [hentry a ha.1, ha.2]
    · exact update_of_ne (fun heq => hc (congrArg Prod.fst heq)) _ _
  have hback : ∀ a seq, (s.construct c v sid pp none).Has a seq → s.Has a seq := fun a seq ha =>
    ⟨ha.1, (congrArg Entry.shortSid (hentry a ha.1)).symm.trans ha.2⟩
  refine h.of_extends hext rfl (fun pp' seq hpp' b hb => ?_) ?_ h.results
  · cases pp' with
    | slot i => exact hext.has b seq (h.linked (.slot i) seq hpp' b hb)
    | next a =>
      rw [State.read, hentry a hpp'.1] at hb
      exact hext.has b seq (h.linked (.next a) seq (hback a seq hpp') b hb)
    | dup a => exact hpp'.elim
  · have hpc : (s.construct c v sid pp none).pc c = .cas v sid pp none := update_self ..
    rw [hpc]
    exact ⟨hsid, hext.links hpp, rfl, update_self ..⟩

/-- The compare-and-swap links the new entry behind the others of its number. -/
def linkEntry (s : State C V) (c : C) (v : V) (sid : ℕ) (pp : Link C) : State C V :=
  ((s.write (c, s.top c) pp).alloc c).finish c v sid false

section

variable {v : V} {pp pp' : Link C} {a : C × ℕ} {seq seq' : ℕ}

theorem top_linkEntry : (s.linkEntry c v sid pp).top = update s.top c (s.top c + 1) := by
  cases pp <;> rfl

theorem lt_top_linkEntry :
    a.2 < (s.linkEntry c v sid pp).top a.1 ↔ a.2 < s.top a.1 ∨ a = (c, s.top c) := by
  obtain ⟨c', k⟩ := a
  rw [top_linkEntry]
  by_cases hc : c' = c
  · subst hc
    simp [le_iff_lt_or_eq]
  · simp [hc]

theorem shortSid_linkEntry (hpp : s.Links seq pp) (a : C × ℕ) :
    ((s.linkEntry c v sid pp).entry a).shortSid = (s.entry a).shortSid := by
  cases pp with
  | slot i => rfl
  | next b =>
    change (update s.entry b _ a).shortSid = _
    by_cases hab : a = b
    · rw [hab, update_self]
    · rw [update_of_ne hab]
  | dup b => exact hpp.elim

theorem has_linkEntry (hpp : s.Links seq pp) (hnew : s.entry (c, s.top c) = .new v (seqOf sid)) :
    (s.linkEntry c v sid pp).Has a seq' ↔
      s.Has a seq' ∨ a = (c, s.top c) ∧ seqOf sid = seq' := by
  rw [Has, Has, lt_top_linkEntry, shortSid_linkEntry hpp, or_and_right]
  refine or_congr_right (and_congr_right fun ha => ?_)
  rw [ha, hnew]
  exact Iff.rfl

theorem extends_linkEntry (hpp : s.Links seq pp)
    (hnew : s.entry (c, s.top c) = .new v (seqOf sid)) :
    s.Extends c (s.linkEntry c v sid pp) := by
  refine ⟨fun a seq ha => (has_linkEntry hpp hnew).2 (.inl ha), fun c' hc => ?_, fun c' hc => ?_⟩
  · have htop : (s.linkEntry c v sid pp).top c' = s.top c' := by
      rw [top_linkEntry, update_of_ne hc]
    refine ⟨htop, ?_⟩
    rw [htop]
    cases pp with
    | slot i => rfl
    | next b =>
      refine update_of_ne (fun heq => ?_) _ _
      have hlt := hpp.1
      rw [← heq] at hlt
      exact lt_irrefl _ hlt
    | dup b => exact hpp.elim
  · cases pp <;> exact update_of_ne hc _ _

/-- What is read is the new entry, at the link that was written, or what was there before. -/
theorem read_linkEntry (hpp : s.Links seq pp) (hpp' : (s.linkEntry c v sid pp).Links seq' pp')
    (ha : (s.linkEntry c v sid pp).read pp' = some a) :
    pp' = pp ∧ a = (c, s.top c) ∨ s.read pp' = some a := by
  cases pp with
  | slot j =>
    cases pp' with
    | slot i =>
      change update s.ref j _ i = some a at ha
      by_cases hij : i = j
      · rw [hij, update_self] at ha
        cases ha
        exact .inl ⟨by rw [hij], rfl⟩
      · rw [update_of_ne hij] at ha
        exact .inr ha
    | next b => exact .inr ha
    | dup b => exact hpp'.elim
  | next b =>
    cases pp' with
    | slot i => exact .inr ha
    | next b' =>
      change (update s.entry b _ b').next = some a at ha
      by_cases hb : b' = b
      · rw [hb, update_self] at ha
        cases ha
        exact .inl ⟨by rw [hb], rfl⟩
      · rw [update_of_ne hb] at ha
        exact .inr ha
    | dup b' => exact hpp'.elim
  | dup b => exact hpp.elim

theorem Inv.linkEntry (h : s.Inv cfg) (hpc : s.pc c = .cas v sid pp none) :
    (s.linkEntry c v sid pp).Inv cfg := by
  have hgood := h.good c
  rw [hpc] at hgood
  obtain ⟨-, hpp, -, hnew⟩ := hgood
  have hext := extends_linkEntry hpp hnew
  refine h.of_extends hext (by cases pp <;> rfl) (fun pp' seq hpp' b hb => ?_) ?_ ?_
  · rcases read_linkEntry hpp hpp' hb with ⟨rfl, rfl⟩ | hb
    · exact (has_linkEntry hpp hnew).2 (.inr ⟨rfl, (hext.links hpp).unique hpp'⟩)
    · refine hext.has b seq (h.linked pp' seq ?_ b hb)
      cases pp' with
      | slot i => exact hpp'
      | next a =>
        rcases (has_linkEntry hpp hnew).1 hpp' with ha | ⟨rfl, -⟩
        · exact ha
        · -- the new entry has no successor
          rw [State.read, hnew] at hb
          cases hb
      | dup a => exact hpp'
  · have hidle : (s.linkEntry c v sid pp).pc c = .idle := by cases pp <;> exact update_self ..
    rw [hidle]
    trivial
  · have hres : (s.linkEntry c v sid pp).results = s.results ++ [⟨v, sid, false⟩] := by
      cases pp <;> rfl
    rw [hres]
    intro r hr
    rcases List.mem_append.1 hr with hr | hr
    · exact h.results r hr
    · rw [List.mem_singleton.1 hr]

end

variable [DecidableEq V]

theorem Inv.advance (h : s.Inv cfg) (hs : s.advance cfg c = some t) : t.Inv cfg := by
  have hgood := h.good c
  rw [State.advance] at hs
  split at hs <;> rename_i hpc <;> rw [hpc] at hgood
  case h_1 | h_2 => cases hs
  case h_3 v sid =>
    cases hs
    have hlink : s.Links (seqOf sid) (.slot (cfg.hash v sid)) := hash_div hgood v
    exact h.setPc ⟨hgood, hlink, fun a ha => h.linked _ _ hlink a ha⟩
  case h_4 v sid pp =>
    cases hs
    exact h.construct hgood.1 hgood.2.1
  case h_5 v sid pp p =>
    obtain ⟨hsid, -, hp⟩ := hgood
    have hhas := hp p rfl
    rw [if_neg fun heq => seqOf_ne_shortSid hsid (hhas.2.symm.trans heq.1)] at hs
    cases hs
    exact h.setPc ⟨hsid, hhas, fun a ha => h.linked (.next p) _ hhas a ha⟩
  case h_6 v sid pp p =>
    obtain ⟨hsid, hpp, rfl, -⟩ := hgood
    split at hs
    case h_1 =>
      cases hs
      exact h.linkEntry hpc
    case h_3 tail hread hnone =>
      cases hs
      exact h.setPc ⟨hsid, hpp, fun a ha => h.linked pp _ hpp a (hread.trans ha)⟩
    case h_2 | h_4 =>
      rename_i heq
      cases heq
  all_goals exact hgood.elim

theorem inv_run {es : List (C × Event V)} {v : V} (hvalid : ∀ e ∈ es, ValidCall cfg e)
    (hrun : run (step cfg) (start v) es = some s) : s.Inv cfg := by
  have halong : Along (step cfg) (fun _ e => ValidCall cfg e) (start v) es :=
    along_of_forall _ _ hvalid
  refine run_invariant (fun s e t h hok hs => ?_) es _ s ?_ halong hrun
  · obtain ⟨c, e⟩ := e
    cases e with
    | addRef v sid =>
      rw [State.step] at hs
      split at hs
      · cases hs
        exact h.setPc hok
      · cases hs
    | advance => exact h.advance hs
  · refine ⟨fun _ => rfl, fun pp seq hpp a ha => ?_, fun _ => trivial, fun _ hr => (nomatch hr)⟩
    cases pp with
    | slot i => cases ha
    | next b => cases ha
    | dup b => exact hpp.elim

/-- Nothing is found, so that the first write is installed, and the second one as well. -/
theorem Inv.coalesced_iff (h : s.Inv cfg) (v : V) (sid : ℕ) :
    s.Coalesced cfg v sid (s.resultsOf v sid).length ↔ (s.resultsOf v sid).length ≤ 1 := by
  have hnone := h.lookupDuplicate_eq_none v sid
  have hfalse := h.resultsOf_eq v sid
  generalize (s.resultsOf v sid).length = n at hfalse ⊢
  refine ⟨fun hco => ?_, fun hone => ?_⟩
  · have hlookup := hco.lookup
    rw [hnone] at hlookup
    simp at hlookup
    omega
  refine ⟨?_, by simp [hnone]; omega, fun a ha => by simp [hnone] at ha, fun objs hobjs => ?_⟩
  · rw [hfalse]
    interval_cases n <;> rfl
  · match n, objs with
    | 0, [] => rfl
    | 1, [obj] =>
      rw [installs, writeVarStr, hnone, installs]
      rfl

/-- **Pairs that are added once are coalesced**, and only they are. In every run no slot outside of
the tables is accessed; the results of `AddRef`, the entries that `LookupDuplicate` finds and the
writes that are installed are the right ones if and only if no pair of a row and a serial id is
added twice. -/
theorem refs_coalesced (cfg : Config V) (v₀ : V) (es : List (C × Event V)) (s : State C V)
    (hvalid : ∀ e ∈ es, ValidCall cfg e) (hrun : run (step cfg) (start v₀) es = some s) :
    (∀ v sid, cfg.Valid sid → cfg.hash v sid < cfg.txnPerEpoch * kPerTxnHashSize) ∧
      (∀ c, s.pc c ≠ .outside) ∧
      ((∀ v sid, s.Coalesced cfg v sid (s.resultsOf v sid).length) ↔
        (s.results.map fun r => (r.vhandle, r.sid)).Nodup) := by
  have h := inv_run hvalid hrun
  refine ⟨fun v sid hsid => ?_, fun c hc => ?_, ?_⟩
  · have hpos : 0 < cfg.txnPerEpoch := hsid.1.trans hsid.2
    exact Nat.mod_lt _ (Nat.mul_pos hpos (by decide))
  · have hgood := h.good c
    rw [hc] at hgood
    exact hgood
  · simp only [h.coalesced_iff]
    simp only [List.nodup_iff_count_le_one, Prod.forall, length_resultsOf]

def smallConfig : Config ℕ := ⟨4, fun _ _ => 0⟩

/-- The call of a core from its start to its end, when the bucket has so many entries. -/
def addRefRun (c : Bool) (v sid n : ℕ) : List (Bool × Event ℕ) :=
  (c, .addRef v sid) :: List.replicate (n + 3) (c, .advance)

theorem refs_coalesced_twoRows : ∃ s, run (step smallConfig) (start 0)
    (addRefRun false 7 (1 <<< 8) 0 ++ addRefRun true 8 (1 <<< 8) 1) = some s ∧
      s.resultsOf 7 (1 <<< 8) = [false] ∧ s.Coalesced smallConfig 7 (1 <<< 8) 1 := by
  obtain ⟨s, hs, hres⟩ : ∃ s, run (step smallConfig) (start 0)
      (addRefRun false 7 (1 <<< 8) 0 ++ addRefRun true 8 (1 <<< 8) 1) = some s ∧
        s.results = [⟨7, 1 <<< 8, false⟩, ⟨8, 1 <<< 8, false⟩] := by decide +kernel
  have hof : s.resultsOf 7 (1 <<< 8) = [false] := by
    rw [resultsOf, hres]
    decide
  have h := (refs_coalesced smallConfig 0 _ s (by
    simp [addRefRun, ValidCall, Config.Valid, smallConfig, shortSid]) hs).2.2.2
    (by rw [hres]; decide) 7 (1 <<< 8)
  rw [hof] at h
  exact ⟨s, hs, hof, h⟩

/-- The same pair is added twice. Both calls return false, and nothing is found afterwards. -/
theorem duplicate_missed : ∃ s, run (step smallConfig) (start 0)
    (addRefRun false 7 (1 <<< 8) 0 ++ addRefRun true 7 (1 <<< 8) 1) = some s ∧
      s.resultsOf 7 (1 <<< 8) = [false, false] ∧
      s.lookupDuplicate smallConfig 7 (1 <<< 8) = none := by decide +kernel

end State

end

end Felis.Txn.CommitBuffer
