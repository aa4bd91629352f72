import Mathlib.Data.Nat.Basic
import Mathlib.Tactic.Common

/-!
# Linked stacks

A stack that several threads push to and pop from by exchanging its head, when the head is still the
one that they have read. The nodes come from memory that is not given back, so that a node is
written only by the thread that has allocated it, until it has pushed it. `priv t` is the node that
the thread `t` has allocated and not pushed yet.

`Holds` says which values are on the stack. It is kept when a thread allocates a node, writes the
link of its node, pushes it, and when a thread exchanges the head for the link of the head.
-/

namespace Felis

open Function List

structure LinkedStack.Node (α : Type*) where
  val : α
  next : Option ℕ

structure LinkedStack (α : Type*) where
  head : Option ℕ
  node : ℕ → LinkedStack.Node α
  brk : ℕ

namespace LinkedStack

variable {α τ : Type*} {s : LinkedStack α} {priv : τ → Option ℕ} {xs : List α} {as : List ℕ}
  {a : ℕ} {o : Option ℕ} {t : τ} {v : α}

/-! ## Operations -/

def alloc (s : LinkedStack α) (v : α) : LinkedStack α :=
  { s with node := update s.node s.brk ⟨v, none⟩, brk := s.brk + 1 }

/-- A thread writes the link of its node. -/
def link (s : LinkedStack α) (a : ℕ) (next : Option ℕ) : LinkedStack α :=
  { s with node := update s.node a ⟨(s.node a).val, next⟩ }

def setHead (s : LinkedStack α) (head : Option ℕ) : LinkedStack α := { s with head := head }

/-! ## What is on the stack -/

/-- The nodes from `o` on. -/
def Chain (node : ℕ → Node α) : Option ℕ → List ℕ → Prop
  | o, [] => o = none
  | o, a :: as => o = some a ∧ Chain node (node a).next as

theorem Chain.congr {node node' : ℕ → Node α} (h : Chain node o as)
    (hsame : ∀ a ∈ as, node' a = node a) : Chain node' o as := by
  induction as generalizing o with
  | nil => exact h
  | cons a as ih =>
    refine ⟨h.1, ?_⟩
    rw [hsame a mem_cons_self]
    exact ih h.2 fun b hb => hsame b (mem_cons_of_mem a hb)

def Published (s : LinkedStack α) (priv : τ → Option ℕ) (a : ℕ) : Prop :=
  a < s.brk ∧ ∀ t, priv t ≠ some a

structure Holds (s : LinkedStack α) (priv : τ → Option ℕ) (xs : List α) : Prop where
  chain : ∃ as, Chain s.node s.head as ∧ as.map (fun a => (s.node a).val) = xs ∧
    ∀ a ∈ as, s.Published priv a
  priv_lt : ∀ t a, priv t = some a → a < s.brk
  priv_inj : ∀ t t' a, priv t = some a → priv t' = some a → t = t'

theorem holds_empty (node : ℕ → Node α) (hpriv : ∀ t, priv t = none) :
    Holds ⟨none, node, 0⟩ priv [] where
  chain := ⟨[], rfl, rfl, fun _ ha => absurd ha not_mem_nil⟩
  priv_lt t a ha := by rw [hpriv t] at ha; cases ha
  priv_inj t t' a ha := by rw [hpriv t] at ha; cases ha

theorem Holds.head_eq_none (h : Holds s priv xs) (hhead : s.head = none) : xs = [] := by
  obtain ⟨as, hchain, rfl, -⟩ := h.chain
  cases as with
  | nil => rfl
  | cons a as =>
    rw [hhead] at hchain
    cases hchain.1

theorem Holds.published_head (h : Holds s priv xs) (hhead : s.head = some a) :
    s.Published priv a := by
  obtain ⟨as, hchain, -, hpub⟩ := h.chain
  cases as with
  | nil =>
    rw [hhead] at hchain
    cases hchain
  | cons b as =>
    rw [hhead] at hchain
    cases hchain.1
    exact hpub a mem_cons_self

/-- The nodes that have been pushed do not change. -/
theorem Holds.congr (h : Holds s priv xs) {s' : LinkedStack α} {priv' : τ → Option ℕ}
    (hhead : s'.head = s.head)
    (hnode : ∀ a, s.Published priv a → s'.node a = s.node a ∧ s'.Published priv' a)
    (hlt : ∀ t a, priv' t = some a → a < s'.brk)
    (hinj : ∀ t t' a, priv' t = some a → priv' t' = some a → t = t') : Holds s' priv' xs := by
  obtain ⟨as, hchain, hxs, hpub⟩ := h.chain
  refine ⟨⟨as, ?_, ?_, fun a ha => (hnode a (hpub a ha)).2⟩, hlt, hinj⟩
  · rw [hhead]
    exact hchain.congr fun a ha => (hnode a (hpub a ha)).1
  · rw [← hxs]
    exact map_congr_left fun a ha => by rw [(hnode a (hpub a ha)).1]

/-! ## Steps -/

variable {priv' : τ → Option ℕ}

theorem Holds.alloc (h : Holds s priv xs) (v : α) (hself : priv' t = some s.brk)
    (hother : ∀ u, u ≠ t → priv' u = priv u) : Holds (s.alloc v) priv' xs := by
  -- the other threads have older nodes
  have hold : ∀ u, u ≠ t → ∀ a, priv' u = some a → a < s.brk := by
    intro u hu a hua
    rw [hother u hu] at hua
    exact h.priv_lt u a hua
  refine h.congr rfl (fun a hpub => ⟨?_, ?_, fun u hu => ?_⟩) ?_ ?_
  · exact update_of_ne (Nat.ne_of_lt hpub.1) ..
  · exact Nat.lt_succ_of_lt hpub.1
  · by_cases hut : u = t
    · rw [hut, hself] at hu
      exact Nat.ne_of_gt hpub.1 (Option.some.inj hu)
    · exact hpub.2 u ((hother u hut).symm.trans hu)
  · intro u a ha
    by_cases hut : u = t
    · rw [hut, hself] at ha
      cases ha
      exact Nat.lt_succ_self _
    · exact Nat.lt_succ_of_lt (hold u hut a ha)
  · intro u u' a hu hu'
    by_cases hut : u = t
    · by_cases hut' : u' = t
      · rw [hut, hut']
      · rw [hut, hself] at hu
        cases hu
        exact absurd (hold u' hut' _ hu') (lt_irrefl _)
    · by_cases hut' : u' = t
      · rw [hut', hself] at hu'
        cases hu'
        exact absurd (hold u hut _ hu) (lt_irrefl _)
      · rw [hother u hut] at hu
        rw [hother u' hut'] at hu'
        exact h.priv_inj u u' a hu hu'

theorem val_link (s : LinkedStack α) (a b : ℕ) (next : Option ℕ) :
    ((s.link a next).node b).val = (s.node b).val := by
  change (update s.node a _ b).val = _
  by_cases hb : b = a
  · rw [hb, update_self]
  · rw [update_of_ne hb]

theorem published_link (hpriv : priv t = some a) {b : ℕ} (hpub : s.Published priv b)
    (next : Option ℕ) : (s.link a next).node b = s.node b := by
  refine update_of_ne ?_ ..
  rintro rfl
  exact hpub.2 t hpriv

theorem Holds.link (h : Holds s priv xs) (hpriv : priv t = some a) (next : Option ℕ) :
    Holds (s.link a next) priv xs :=
  h.congr rfl (fun _ hpub => ⟨published_link hpriv hpub next, hpub⟩) h.priv_lt h.priv_inj

/-- A thread pushes its node. -/
theorem Holds.push (h : Holds s priv xs) (hpriv : priv t = some a)
    (hnext : (s.node a).next = s.head) (hself : priv' t = none)
    (hother : ∀ u, u ≠ t → priv' u = priv u) :
    Holds (s.setHead (some a)) priv' ((s.node a).val :: xs) := by
  obtain ⟨as, hchain, rfl, hpub⟩ := h.chain
  have hold : ∀ u b, priv' u = some b → priv u = some b := by
    intro u b hu
    by_cases hut : u = t
    · rw [hut, hself] at hu
      cases hu
    · exact (hother u hut).symm.trans hu
  refine ⟨⟨a :: as, ⟨rfl, ?_⟩, rfl, ?_⟩, fun u b hu => h.priv_lt u b (hold u b hu),
    fun u u' b hu hu' => h.priv_inj u u' b (hold u b hu) (hold u' b hu')⟩
  · change Chain s.node (s.node a).next as
    rw [hnext]
    exact hchain
  · intro b hb
    rcases mem_cons.1 hb with rfl | hb
    · refine ⟨h.priv_lt t b hpriv, fun u hu => ?_⟩
      rw [h.priv_inj u t b (hold u b hu) hpriv, hself] at hu
      cases hu
    · exact ⟨(hpub b hb).1, fun u hu => (hpub b hb).2 u (hold u b hu)⟩

/-- A thread exchanges the head for its link. -/
theorem Holds.pop (h : Holds s priv xs) (hhead : s.head = some a) :
    ∃ ys, xs = (s.node a).val :: ys ∧ Holds (s.setHead (s.node a).next) priv ys := by
  obtain ⟨as, hchain, rfl, hpub⟩ := h.chain
  cases as with
  | nil =>
    rw [hhead] at hchain
    cases hchain
  | cons b as =>
    rw [hhead] at hchain
    cases hchain.1
    exact ⟨_, rfl, ⟨as, hchain.2, rfl, fun b hb => hpub b (mem_cons_of_mem a hb)⟩, h.priv_lt,
      h.priv_inj⟩

/-- A node that has been pushed stays pushed. -/
theorem Published.mono {s' : LinkedStack α} (h : s.Published priv a) (hbrk : s.brk ≤ s'.brk)
    (hpriv : ∀ u, priv' u = some a → priv u = some a) : s'.Published priv' a :=
  ⟨lt_of_lt_of_le h.1 hbrk, fun u hu => h.2 u (hpriv u hu)⟩

end LinkedStack

end Felis
