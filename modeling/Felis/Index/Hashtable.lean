import Felis.Foundations.Parts
import Felis.Foundations.Runs

/-!
# The hash index

`HashtableIndex` of `hashtable_index_impl.cc`. A bucket is an entry in the table itself, with a word
that says whether it is in use: the entries of the bucket are chained from there, and a new entry is
linked to the last one by a compare-and-swap. Entries are never unlinked.

Any number of `SearchOrCreate` and `Search` calls run concurrently. An event is one atomic step of
one call: a load, a store or a compare-and-swap of shared memory, with the work on the call's own
data that follows it.
-/

namespace Felis.Index

open Parts Runs Function List

/-- An entry: the one in the table for a bucket, or the one inside of a row from `NewRow()`. -/
inductive Entry where
  | bucket (idx : ℕ)
  | row (addr : ℕ)
  deriving DecidableEq

/-- The word `next` of an entry. -/
inductive Next where
  | uninitialized
  | initializing
  | last
  | entry (e : Entry)
  deriving DecidableEq

abbrev Key := List UInt8

/-- `HashEntry::Convert(k)`: the key, filled up with zeros to 16 bytes. -/
def convert (k : Key) : Key := (k ++ List.replicate 16 0).take 16

theorem convert_injective {k k' : Key} {n : ℕ} (hn : n ≤ 16) (hk : k.length = n)
    (hk' : k'.length = n) (h : convert k = convert k') : k = k' := by
  have htake : ∀ l : Key, l.length = n → (convert l).take n = l := by
    intro l hl
    rw [convert, take_take, Nat.min_eq_left hn, take_append_of_le_length hl.ge,
      take_of_length_le hl.le]
  rw [← htake k hk, h, htake k' hk']

inductive Op where
  | searchOrCreate
  | search
  deriving DecidableEq

/-- What a call does next. -/
inductive Pc where
  /-- Load `first->next` and compare it with `kNextForUninitialized`. -/
  | check
  /-- The compare-and-swap of `first->next` to `kNextForInitializing`. -/
  | claim
  /-- Set `first->key` and construct the row. -/
  | fill
  /-- Set `first->next` to `kNextForEnd` and return. -/
  | publish
  /-- Load `first->next` until it is not `kNextForInitializing`. -/
  | spin
  /-- `p->Compare(x)` -/
  | compare (p : Entry)
  /-- Load `p->next`. -/
  | load (p : Entry)
  /-- `NewRow()` -/
  | newRow (parent : Entry)
  /-- The compare-and-swap of `parent->next` to the new entry. -/
  | link (parent : Entry)
  | done (row : Option Entry) (created : Bool)
  /-- The call has followed a word that is not a pointer. -/
  | fault
  deriving DecidableEq

structure Call where
  op : Op
  key : Key
  /-- The row that `NewRow()` has given and that is not linked. -/
  row : Option ℕ
  pc : Pc
  deriving DecidableEq

structure Table where
  key : Entry → Key
  next : Entry → Next
  /-- The rows of `NewRow()` that have not been deleted. -/
  used : List ℕ
  call : ℕ → Option Call

/-- The hash function and the number of buckets. -/
structure Config where
  hash : Key → ℕ
  nrBuckets : ℕ

namespace Config

def idx (cfg : Config) (k : Key) : ℕ := cfg.hash k % cfg.nrBuckets

def first (cfg : Config) (k : Key) : Entry := .bucket (cfg.idx k)

theorem update_first_row {α : Type} (cfg : Config) (f : Entry → α) (k : Key) (v : α) (a : ℕ) :
    update f (cfg.first k) v (.row a) = f (.row a) := by
  have hne : Entry.row a ≠ cfg.first k := nofun
  exact update_of_ne hne _ _

theorem update_row_first {α : Type} (cfg : Config) (f : Entry → α) (a : ℕ) (v : α) (k : Key) :
    update f (.row a) v (cfg.first k) = f (cfg.first k) := by
  have hne : cfg.first k ≠ .row a := nofun
  exact update_of_ne hne _ _

end Config

namespace Table

/-- The table after `mmap`, without calls. -/
def init : Table where
  key := fun _ => []
  next := fun _ => .uninitialized
  used := []
  call := fun _ => none

def goto (s : Table) (i : ℕ) (c : Call) (pc : Pc) : Table :=
  { s with call := update s.call i (some { c with pc }) }

variable (cfg : Config)

/-- The next step of a call. `addr` is the address that `NewRow()` gives, if this is the step. -/
def advance (s : Table) (i : ℕ) (c : Call) (addr : ℕ) : Option Table :=
  let first := cfg.first c.key
  let x := convert c.key
  match c.pc with
  | .check =>
    if s.next first = .uninitialized then
      match c.op with
      | .searchOrCreate => some (s.goto i c .claim)
      | .search => some (s.goto i c (.done none false))
    else some (s.goto i c .spin)
  | .claim =>
    if s.next first = .uninitialized then
      some { s.goto i c .fill with next := update s.next first .initializing }
    else some (s.goto i c .spin)
  | .fill => some { s.goto i c .publish with key := update s.key first x }
  | .publish =>
    some { s.goto i c (.done (some first) true) with next := update s.next first .last }
  | .spin =>
    if s.next first = .initializing then some s else some (s.goto i c (.compare first))
  | .compare p =>
    if s.key p = x then
      let used := c.row.elim s.used s.used.erase
      some { s.goto i { c with row := none } (.done (some p) false) with used }
    else some (s.goto i c (.load p))
  | .load p =>
    match s.next p with
    | .last =>
      match c.op with
      | .searchOrCreate =>
        if c.row = none then some (s.goto i c (.newRow p)) else some (s.goto i c (.link p))
      | .search => some (s.goto i c (.done none false))
    | .entry e => some (s.goto i c (.compare e))
    | _ => some (s.goto i c .fault)
  | .newRow p =>
    if addr ∈ s.used then none
    else some { s.goto i { c with row := some addr } (.link p) with
      used := addr :: s.used
      key := update s.key (.row addr) x
      next := update s.next (.row addr) .last }
  | .link p =>
    match c.row with
    | none => some (s.goto i c .fault)
    | some a =>
      match s.next p with
      | .last =>
        some { s.goto i { c with row := none } (.done (some (.row a)) true) with
          next := update s.next p (.entry (.row a)) }
      | .entry e => some (s.goto i c (.compare e))
      | _ => some (s.goto i c .fault)
  | .done .. => none
  | .fault => none

inductive Event where
  | start (i : ℕ) (op : Op) (key : Key)
  | advance (i addr : ℕ)

/-- The step function for keys of the length `len`. -/
def step (len : ℕ) (s : Table) : Event → Option Table
  | .start i op key =>
    if s.call i = none ∧ key.length = len then
      some { s with call := update s.call i (some { op, key, row := none, pc := .check }) }
    else none
  | .advance i addr => (s.call i).bind fun c => s.advance cfg i c addr

/-- The entry is reached from the bucket by following `next`. -/
def Reach (s : Table) (b : ℕ) (e : Entry) : Prop :=
  Relation.ReflTransGen (fun p q => s.next p = .entry q) (.bucket b) e

/-- The call `i` is a `SearchOrCreate(k, &created)` that has returned `row`. -/
def Created (s : Table) (i : ℕ) (k : Key) (row : Option Entry) (created : Bool) : Prop :=
  ∃ c, s.call i = some c ∧ c.op = .searchOrCreate ∧ c.key = k ∧ c.pc = .done row created

/-- The call `i` is a `Search(k)` that has returned `row`. -/
def Found (s : Table) (i : ℕ) (k : Key) (row : Option Entry) : Prop :=
  ∃ c b, s.call i = some c ∧ c.op = .search ∧ c.key = k ∧ c.pc = .done row b

/-! ## Chains -/

/-- The entries are linked one after the other, and the last one ends the chain. -/
def Links (next : Entry → Next) : List Entry → Prop
  | [] => True
  | [e] => next e = .last
  | e :: e' :: l => next e = .entry e' ∧ Links next (e' :: l)

variable {next next' : Entry → Next} {e p : Entry} {l r : List Entry}

theorem Links.congr (h : Links next l) (hsame : ∀ e ∈ l, next' e = next e) : Links next' l := by
  induction l with
  | nil => trivial
  | cons e l ih =>
    cases l with
    | nil => exact (hsame e mem_cons_self).trans h
    | cons e' l =>
      exact ⟨(hsame e mem_cons_self).trans h.1, ih h.2 fun d hd => hsame d (mem_cons_of_mem e hd)⟩

theorem Links.next_eq (h : Links next (l ++ p :: r)) :
    next p = r.head?.elim .last .entry := by
  induction l with
  | nil =>
    cases r with
    | nil => exact h
    | cons e r => exact h.1
  | cons d l ih =>
    cases l with
    | nil => exact ih h.2
    | cons d' l => exact ih h.2

/-- An entry that ends the chain is linked behind its last entry. -/
theorem Links.concat (h : Links next (l ++ [p])) (hp : p ∉ l) (he : next e = .last)
    (hep : e ≠ p) : Links (update next p (.entry e)) (l ++ [p] ++ [e]) := by
  induction l with
  | nil =>
    refine ⟨update_self .., ?_⟩
    rw [Links, update_of_ne hep, he]
  | cons d l ih =>
    have hd : d ≠ p := fun heq => hp (heq ▸ mem_cons_self)
    have hl : p ∉ l := fun hmem => hp (mem_cons_of_mem d hmem)
    cases l with
    | nil =>
      refine ⟨?_, ih h.2 hl⟩
      rw [update_of_ne hd]
      exact h.1
    | cons d' l =>
      refine ⟨?_, ih h.2 hl⟩
      rw [update_of_ne hd]
      exact h.1

theorem Links.reach {s : Table} {b : ℕ} (h : Links s.next (.bucket b :: l))
    (he : e ∈ Entry.bucket b :: l) : s.Reach b e := by
  suffices hfrom : ∀ l p, Links s.next (p :: l) → e ∈ p :: l →
      Relation.ReflTransGen (fun p q => s.next p = .entry q) p e from hfrom l _ h he
  intro l
  induction l with
  | nil =>
    intro p _ hmem
    rw [mem_singleton.1 hmem]
  | cons d l ih =>
    intro p hlinks hmem
    rcases mem_cons.1 hmem with rfl | hmem
    · exact .refl
    · exact .head hlinks.1 (ih d hlinks.2 hmem)

end Table

end Felis.Index
