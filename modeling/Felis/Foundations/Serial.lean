import Mathlib.Data.List.Perm.Basic

/-!
# Transactions and their serial execution

A transaction is a deterministic program that reads and writes rows of a database. It is run
against a snapshot: its reads see the values before its own writes. `serialDb` executes
transactions one after another in the order of their serial numbers, and `serialDb_eq_of_unwritten`
and `serialDb_eq_of_last_write` say what a row holds then: the value of the last write before.
-/

namespace Felis.Serial

open List

/-- A deterministic transaction over rows `R` with values `V`. -/
inductive Prog (R V : Type)
  | done
  | read (r : R) (k : V → Prog R V)
  | write (r : R) (v : V) (next : Prog R V)

variable {R V : Type} [DecidableEq R]

namespace Prog

/-- The reads of the program on the snapshot `db`, with the values they get. -/
def reads (db : R → V) : Prog R V → List (R × V)
  | .done => []
  | .read r k => (r, db r) :: (k (db r)).reads db
  | .write _ _ next => next.reads db

/-- The writes of the program on the snapshot `db`. -/
def writes (db : R → V) : Prog R V → List (R × V)
  | .done => []
  | .read r k => (k (db r)).writes db
  | .write r v next => (r, v) :: next.writes db

/-- On every path the program writes each row of `ws` exactly once, and no other row. -/
def WritesOnce : Prog R V → List R → Prop
  | .done, ws => ws = []
  | .read _ k, ws => ∀ v, (k v).WritesOnce ws
  | .write r _ next, ws => r ∈ ws ∧ next.WritesOnce (ws.erase r)

/-- Every write on every path satisfies `P`. -/
def AllWrites (P : R → V → Prop) : Prog R V → Prop
  | .done => True
  | .read _ k => ∀ v, (k v).AllWrites P
  | .write r v next => P r v ∧ next.AllWrites P

omit [DecidableEq R] in
theorem AllWrites.imp {P Q : R → V → Prop} (h : ∀ r v, P r v → Q r v) :
    ∀ {p : Prog R V}, p.AllWrites P → p.AllWrites Q := by
  intro p
  induction p with
  | done => exact id
  | read r k ih => exact fun hp v => ih v (hp v)
  | write r v next ih => exact fun hp => ⟨h r v hp.1, ih hp.2⟩

theorem writes_perm (db : R → V) :
    ∀ (p : Prog R V) (ws : List R), p.WritesOnce ws → ((p.writes db).map Prod.fst).Perm ws := by
  intro p
  induction p with
  | done =>
    intro ws h
    rw [WritesOnce] at h
    rw [h]
    exact List.Perm.nil
  | read r k ih =>
    intro ws h
    exact ih (db r) ws (h (db r))
  | write r v next ih =>
    intro ws h
    obtain ⟨hmem, hnext⟩ := h
    exact ((ih _ hnext).cons r).trans (perm_cons_erase hmem).symm

end Prog

def applyWrites (ws : List (R × V)) (db : R → V) (r : R) : V := (ws.lookup r).getD (db r)

theorem lookup_eq_some {ws : List (R × V)} (hnd : (ws.map Prod.fst).Nodup) {r : R} {v : V}
    (h : (r, v) ∈ ws) : ws.lookup r = some v := by
  induction ws with
  | nil => cases h
  | cons w ws ih =>
    obtain ⟨r', v'⟩ := w
    rw [map_cons, nodup_cons] at hnd
    rcases mem_cons.1 h with heq | htail
    · cases heq
      simp
    · have hne : r ≠ r' := by
        rintro rfl
        exact hnd.1 (mem_map.2 ⟨_, htail, rfl⟩)
      rw [lookup_cons, beq_false_of_ne hne]
      exact ih hnd.2 htail

theorem lookup_eq_none {ws : List (R × V)} {r : R} (h : r ∉ ws.map Prod.fst) :
    ws.lookup r = none := by
  induction ws with
  | nil => rfl
  | cons w ws ih =>
    obtain ⟨r', v'⟩ := w
    rw [map_cons, mem_cons, not_or] at h
    rw [lookup_cons, beq_false_of_ne h.1]
    exact ih h.2

/-- The database that serial number `n` sees when the transactions are executed one after
another: `txn k` is the transaction with serial number `k`, if there is one. -/
def serialDb (txn : ℕ → Option (Prog R V)) (base : R → V) : ℕ → R → V
  | 0 => base
  | n + 1 =>
    match txn n with
    | none => serialDb txn base n
    | some p => applyWrites (p.writes (serialDb txn base n)) (serialDb txn base n)

section

variable (txn : ℕ → Option (Prog R V)) (base : R → V)

/-- The rows that serial number `k` writes. -/
def writesOf (k : ℕ) : List (R × V) :=
  match txn k with
  | none => []
  | some p => p.writes (serialDb txn base k)

theorem serialDb_succ (n : ℕ) (r : R) :
    serialDb txn base (n + 1) r = ((writesOf txn base n).lookup r).getD
    (serialDb txn base n r) := by
  rw [serialDb, writesOf]
  cases txn n with
  | none => rfl
  | some p => rfl

theorem serialDb_eq_of_unwritten {r : R} {m n : ℕ} (hmn : m ≤ n)
    (h : ∀ k, m ≤ k → k < n → r ∉ (writesOf txn base k).map Prod.fst) :
    serialDb txn base n r = serialDb txn base m r := by
  induction hmn with
  | refl => rfl
  | @step n hmn ih =>
    rw [serialDb_succ, lookup_eq_none (h n hmn (Nat.lt_succ_self n))]
    exact ih fun k hk hlt => h k hk (Nat.lt_succ_of_lt hlt)

/-- **A row holds the last write before the reader.** -/
theorem serialDb_eq_of_last_write {r : R} {v : V} {m n : ℕ} (hmn : m < n)
    (hnd : ((writesOf txn base m).map Prod.fst).Nodup) (hv : (r, v) ∈ writesOf txn base m)
    (h : ∀ k, m < k → k < n → r ∉ (writesOf txn base k).map Prod.fst) :
    serialDb txn base n r = v := by
  rw [serialDb_eq_of_unwritten txn base (m := m + 1) hmn fun k hk => h k hk, serialDb_succ,
    lookup_eq_some hnd hv]
  rfl

end

end Felis.Serial
