import Mathlib.Tactic

/-!
# The intrusive lists of `util/linklist.h`

A `GenericListNode` is a pair of pointers, `prev` and `next`. The memory of all nodes is one
`Links`: two maps from nodes to pointers, where `none` is the null pointer. `InsertAfter` and
`Initialize` are modelled as the stores they do; a dereferenced null pointer has no result.

Two shapes are built from the nodes. A `Ring` is the circular list of a head node. A `Path` follows
the `next` pointers only, from a pointer to a pointer. `Arena` says that a family of heads and one
null-terminated path divide the nodes in use among them; the theorems of the last section say what
each operation does to an arena.
-/

namespace Felis.Util

open List Function

variable {N : Type*}

/-- The `prev` and `next` pointers of all nodes. -/
@[ext]
structure Links (N : Type*) where
  next : N → Option N
  prev : N → Option N

namespace Links

section

variable [DecidableEq N]

/-- `x->Initialize()`. -/
def initializeNode (l : Links N) (x : N) : Links N where
  next := update l.next x (some x)
  prev := update l.prev x (some x)

/-- `x->InsertAfter(parent)`. -/
def insertAfter (l : Links N) (x parent : N) : Option (Links N) :=
  (l.next parent).map fun n =>
    { next := update (update l.next x (some n)) parent (some x)
      prev := update (update l.prev x (some parent)) n (some x) }

/-- `x->empty()`. -/
def isEmpty (l : Links N) (x : N) : Bool := l.next x = some x

def setNext (l : Links N) (x : N) (p : Option N) : Links N := { l with next := update l.next x p }

variable (l : Links N) {x y : N}

theorem setNext_comm (h : x ≠ y) (p q : Option N) :
    (l.setNext x p).setNext y q = (l.setNext y q).setNext x p := by
  simp only [setNext, update_comm h]

theorem initializeNode_comm (h : x ≠ y) :
    (l.initializeNode x).initializeNode y = (l.initializeNode y).initializeNode x := by
  simp only [initializeNode, update_comm h]

theorem initializeNode_setNext (h : x ≠ y) (p : Option N) :
    (l.setNext x p).initializeNode y = (l.initializeNode y).setNext x p := by
  simp only [initializeNode, setNext, update_comm h]

end

/-- The two links between a node and the one after it. -/
def Linked (l : Links N) (a b : N) : Prop := l.next a = some b ∧ l.prev b = some a

/-- The pointers of a node are the same in both memories. -/
def Same (l l' : Links N) (x : N) : Prop := l'.next x = l.next x ∧ l'.prev x = l.prev x

end Links

open Links

/-- Only the links between neighbours matter: the last node has no successor and the first one no
predecessor in the list. -/
theorem isChain_congr {R S : N → N → Prop} : ∀ {xs : List N}, xs.IsChain R →
    (∀ a ∈ xs.dropLast, ∀ b ∈ xs.tail, R a b → S a b) → xs.IsChain S
  | [], _, _ => isChain_nil
  | [x], _, _ => isChain_singleton x
  | x :: y :: t, h, hRS => by
    rw [isChain_cons_cons] at h ⊢
    refine ⟨hRS x (by simp) y (by simp) h.1, isChain_congr h.2 fun a ha b hb => ?_⟩
    exact hRS a (by simp [ha]) b (by simp_all)

theorem head_notMem_tail {xs : List N} {n : N} (hnd : xs.Nodup) (hn : xs.head? = some n) :
    n ∉ xs.tail := by
  cases xs with
  | nil => cases hn
  | cons x t =>
    cases hn
    exact (nodup_cons.1 hnd).1

/-! ## Rings -/

/-- The circular list of the head `h` holds `xs`, in the order of the `next` pointers. -/
structure Ring (l : Links N) (h : N) (xs : List N) : Prop where
  linked : (h :: (xs ++ [h])).IsChain (Linked l)
  nodup : (h :: xs).Nodup

namespace Ring

variable {l l' : Links N} {h x : N} {xs as bs : List N}

theorem congr (hr : Ring l h xs) (hsame : ∀ y ∈ h :: xs, Same l l' y) : Ring l' h xs := by
  refine ⟨hr.linked.imp_of_mem_imp fun a b ha hb hab => ?_, hr.nodup⟩
  have hmem : ∀ y ∈ h :: (xs ++ [h]), y ∈ h :: xs := fun y hy => by
    simp only [mem_cons, mem_append, not_mem_nil, or_false] at hy ⊢
    tauto
  exact ⟨(hsame a (hmem a ha)).1.trans hab.1, (hsame b (hmem b hb)).2.trans hab.2⟩

theorem next_head (hr : Ring l h xs) : l.next h = (xs ++ [h]).head? := by
  obtain ⟨y, hy⟩ : ∃ y, (xs ++ [h]).head? = some y := by cases xs <;> simp
  rw [hy]
  exact ((isChain_cons.1 hr.linked).1 y hy).1

theorem prev_head (hr : Ring l h xs) : l.prev h = (h :: xs).getLast? := by
  have hl : ((h :: xs) ++ [h]).IsChain (Linked l) := hr.linked
  obtain ⟨y, hy⟩ : ∃ y, (h :: xs).getLast? = some y :=
    ⟨_, List.getLast?_eq_some_getLast (by simp)⟩
  rw [hy]
  exact ((isChain_append.1 hl).2.2 y hy h (by simp)).2

theorem next_eq (hr : Ring l h (as ++ x :: bs)) : l.next x = (bs ++ [h]).head? := by
  have hl : ((h :: as) ++ x :: (bs ++ [h])).IsChain (Linked l) := by simpa using hr.linked
  obtain ⟨y, hy⟩ : ∃ y, (bs ++ [h]).head? = some y := by cases bs <;> simp
  rw [hy]
  exact ((isChain_cons.1 (isChain_append.1 hl).2.1).1 y hy).1

/-- Any node of a ring can be taken for its head. -/
theorem rotate (hr : Ring l h (as ++ x :: bs)) : Ring l x (bs ++ h :: as) := by
  have hl : ((h :: as) ++ x :: (bs ++ [h])).IsChain (Linked l) := by simpa using hr.linked
  obtain ⟨hax, hxb⟩ := isChain_split.1 hl
  have hx : ((x :: bs) ++ h :: (as ++ [x])).IsChain (Linked l) := isChain_split.2 ⟨hxb, hax⟩
  have hperm : ((h :: as) ++ (x :: bs)).Perm ((x :: bs) ++ (h :: as)) := perm_append_comm
  exact ⟨by simpa using hx, hperm.nodup_iff.1 hr.nodup⟩

section

variable [DecidableEq N]

theorem isEmpty_iff (hr : Ring l h xs) : l.isEmpty h = true ↔ xs = [] := by
  rw [Links.isEmpty, decide_eq_true_iff, hr.next_head]
  cases xs with
  | nil => simp
  | cons y ys =>
    have hne : y ≠ h := by
      rintro rfl
      simpa using hr.nodup
    simp [hne]

theorem initializeNode (l : Links N) (h : N) : Ring (l.initializeNode h) h [] := by
  refine ⟨?_, nodup_singleton h⟩
  rw [nil_append, isChain_cons_cons]
  exact ⟨⟨by simp [Links.initializeNode], by simp [Links.initializeNode]⟩, isChain_singleton h⟩

/-- Resetting the head of an empty ring changes nothing. -/
theorem initializeNode_eq (hr : Ring l h []) : l.initializeNode h = l := by
  unfold Links.initializeNode
  congr 1
  · rw [update_eq_self_iff, hr.next_head]
    rfl
  · rw [update_eq_self_iff, hr.prev_head]
    rfl

/-- Inserting a node after the head puts it in front of the list. -/
theorem insertAfter (hr : Ring l h xs) (hx : x ∉ h :: xs) :
    ∃ l', l.insertAfter x h = some l' ∧ Ring l' h (x :: xs) ∧
      ∀ y, y ≠ x → y ∉ h :: xs → Same l l' y := by
  obtain ⟨n, hn⟩ : ∃ n, (xs ++ [h]).head? = some n := by cases xs <;> simp
  have hnmem : n ∈ h :: xs := by
    have := mem_of_mem_head? hn
    simp only [mem_cons, mem_append, not_mem_nil, or_false] at this ⊢
    tauto
  have hxh : x ≠ h := by
    rintro rfl
    simp at hx
  have hxn : x ≠ n := by
    rintro rfl
    exact hx hnmem
  refine ⟨_, by rw [Links.insertAfter, hr.next_head, hn, Option.map_some], ⟨?_, ?_⟩, ?_⟩
  · rw [cons_append, isChain_cons_cons, isChain_cons]
    refine ⟨⟨by simp, ?_⟩, fun y hy => ?_, ?_⟩
    · simp [hxn]
    · cases hn.symm.trans hy
      exact ⟨by simp [hxh], by simp⟩
    · -- neither the successors of `xs` nor the predecessors after its first node have changed
      refine isChain_congr (isChain_cons.1 hr.linked).2 fun a ha b hb hab => ?_
      have hnd : (xs ++ [h]).Nodup := (perm_append_singleton h xs).nodup_iff.2 hr.nodup
      have ha' : a ∈ xs := by simpa using ha
      obtain ⟨hah, hax⟩ : a ≠ h ∧ a ≠ x :=
        ⟨fun he => (nodup_cons.1 hr.nodup).1 (he ▸ ha'), fun he => hx (by simp [← he, ha'])⟩
      have hbn : b ≠ n := fun he => head_notMem_tail hnd hn (he ▸ hb)
      have hbx : b ≠ x := by
        rintro rfl
        have hmem := mem_of_mem_tail hb
        exact hx (by simpa [or_comm] using hmem)
      exact ⟨by simpa [hah, hax] using hab.1, by simpa [hbn, hbx] using hab.2⟩
  · rw [nodup_cons, mem_cons, not_or, nodup_cons]
    obtain ⟨hh, hnd⟩ := nodup_cons.1 hr.nodup
    exact ⟨⟨Ne.symm hxh, hh⟩, fun hmem => hx (by simp [hmem]), hnd⟩
  · intro y hyx hy
    have hyh : y ≠ h := fun he => hy (by simp [he])
    have hyn : y ≠ n := fun he => hy (he ▸ hnmem)
    exact ⟨by simp [hyh, hyx], by simp [hyn, hyx]⟩

/-- Inserting a node after the last one, `x->InsertAfter(h->prev)`, puts it at the end of the
list. -/
theorem append (hr : Ring l h xs) (hx : x ∉ h :: xs) :
    ∃ l', (l.prev h).bind (l.insertAfter x) = some l' ∧ Ring l' h (xs ++ [x]) ∧
      ∀ y, y ≠ x → y ∉ h :: xs → Same l l' y := by
  rw [hr.prev_head]
  rcases eq_nil_or_concat xs with rfl | ⟨ys, p, rfl⟩
  · exact hr.insertAfter hx
  · rw [concat_eq_append] at hr hx ⊢
    have hmem : ∀ y, y ∈ p :: ([] ++ h :: ys) ↔ y ∈ h :: (ys ++ [p]) := by
      intro y
      simp only [nil_append, mem_cons, mem_append, not_mem_nil, or_false]
      tauto
    obtain ⟨l', hl', hr', hsame⟩ := hr.rotate.insertAfter (x := x) (by rwa [hmem])
    have hr' : Ring l' p ([x] ++ h :: ys) := hr'
    refine ⟨l', ?_, by simpa using hr'.rotate, fun y hyx hy => hsame y hyx (by rwa [hmem])⟩
    rw [← cons_append, List.getLast?_concat]
    exact hl'
end

end Ring

/-! ## Paths -/

/-- The `next` pointers lead from the pointer `a` through `xs` to the pointer `o`. -/
def Path (l : Links N) (o : Option N) : Option N → List N → Prop
  | a, [] => a = o
  | a, x :: xs => a = some x ∧ Path l o (l.next x) xs

namespace Path

variable {l l' : Links N} {a o m : Option N} {x : N} {xs ys : List N}

theorem congr (hp : Path l o a xs) (hsame : ∀ y ∈ xs, l'.next y = l.next y) : Path l' o a xs := by
  induction xs generalizing a with
  | nil => exact hp
  | cons x xs ih =>
    refine ⟨hp.1, ?_⟩
    rw [hsame x (by simp)]
    exact ih hp.2 fun y hy => hsame y (by simp [hy])

theorem append_iff : Path l o a (xs ++ ys) ↔ ∃ m, Path l m a xs ∧ Path l o m ys := by
  induction xs generalizing a with
  | nil => simp [Path]
  | cons x xs ih => simp only [cons_append, Path, ih, and_assoc, exists_and_left]

/-- The last node of the path decides where it leads. -/
theorem setNext_last [DecidableEq N] (hp : Path l m a (xs ++ [x])) (hx : x ∉ xs) (o : Option N) :
    Path (l.setNext x o) o a (xs ++ [x]) := by
  obtain ⟨k, hk, hlast⟩ := append_iff.1 hp
  refine append_iff.2 ⟨k, hk.congr fun y hy => ?_, hlast.1, by simp [Path, setNext]⟩
  exact update_of_ne (fun he => hx (by rwa [← he])) _ _

end Path

theorem Ring.path {l : Links N} {h : N} {xs : List N} (hr : Ring l h xs) :
    Path l (some h) (l.next h) xs := by
  suffices hseg : ∀ (ys : List N) (a : N), (a :: (ys ++ [h])).IsChain (Linked l) →
      Path l (some h) (l.next a) ys from hseg xs h hr.linked
  intro ys
  induction ys with
  | nil => exact fun a ha => (isChain_cons_cons.1 ha).1.1
  | cons y ys ih =>
    intro a ha
    obtain ⟨hay, hrest⟩ := isChain_cons_cons.1 ha
    exact ⟨hay.1, ih y hrest⟩

/-- The tail of a ring, redirected: the ring becomes a path to `o`. -/
theorem Ring.detach [DecidableEq N] {l : Links N} {h : N} {xs : List N} (hr : Ring l h xs)
    (hne : xs ≠ []) (o : Option N) :
    ∃ t ∈ xs, l.prev h = some t ∧ Path (l.setNext t o) o (l.next h) xs := by
  rcases xs.eq_nil_or_concat' with rfl | ⟨ys, t, rfl⟩
  · exact absurd rfl hne
  · have hnd : (ys ++ [t]).Nodup := (nodup_cons.1 hr.nodup).2
    refine ⟨t, by simp, ?_, hr.path.setNext_last ?_ o⟩
    · rw [hr.prev_head, ← cons_append, List.getLast?_concat]
    · exact fun hmem => (nodup_append.1 hnd).2.2 t hmem t (by simp) rfl

/-! ## Arenas

The nodes are the heads `H` of the rings and the items `B`. -/

variable {H B : Type*}

/-- The items are divided among the rings of the heads and one path that starts at `top` and ends
with the null pointer. An item that is in none of them is detached, or linked to itself. -/
structure Arena (l : Links (H ⊕ B)) (ring : H → List B) (chain : List B)
    (top : Option (H ⊕ B)) : Prop where
  rings : ∀ h, Ring l (.inl h) ((ring h).map .inr)
  path : Path l none top (chain.map .inr)
  nodup : chain.Nodup
  rings_disjoint : ∀ h h', h ≠ h' → ∀ b ∈ ring h, b ∉ ring h'
  chain_disjoint : ∀ h, ∀ b ∈ ring h, b ∉ chain
  loose : ∀ b, (∀ h, b ∉ ring h) → b ∉ chain →
    l.next (.inr b) = none ∨ l.next (.inr b) = some (.inr b)

/-- An item that is linked to itself is in none of the rings. -/
theorem Arena.notMem_of_next_self {l : Links (H ⊕ B)} {ring : H → List B} {chain : List B}
    {top : Option (H ⊕ B)} {b : B} (ha : Arena l ring chain top)
    (hb : l.next (.inr b) = some (.inr b)) (h : H) : b ∉ ring h := by
  intro hmem
  obtain ⟨as, bs, heq⟩ := append_of_mem hmem
  have hr : Ring l (.inl h) (as.map .inr ++ .inr b :: bs.map .inr) := by
    simpa [heq] using ha.rings h
  rw [hr.next_eq] at hb
  have hmem := mem_of_mem_head? hb
  have hnd : (Sum.inr b :: bs.map .inr : List (H ⊕ B)).Nodup := by
    have hnd := (nodup_cons.1 hr.nodup).2
    exact (nodup_append.1 hnd).2.1
  simp only [mem_append, mem_singleton, reduceCtorEq, or_false] at hmem
  exact (nodup_cons.1 hnd).1 hmem

namespace Arena

variable [DecidableEq H] [DecidableEq B] {l : Links (H ⊕ B)} {ring : H → List B} {chain : List B}
  {top : Option (H ⊕ B)} {h : H} {b : B}

/-- An operation that only touches the nodes of one ring, and gives it other items that the other
lists do not hold, keeps the arena. -/
theorem update_ring (ha : Arena l ring chain top) {l' : Links (H ⊕ B)} {xs : List B}
    (hr : Ring l' (.inl h) (xs.map .inr)) (hsame : ∀ h', h' ≠ h → Same l l' (.inl h'))
    (hitems : ∀ c, c ∉ xs → c ∉ ring h →
      Same l l' (.inr c))
    (hnew : ∀ c ∈ xs, c ∈ ring h ∨ (∀ h', c ∉ ring h') ∧ c ∉ chain)
    (hold : ∀ c ∈ ring h, c ∉ xs → l'.next (.inr c) = none) :
    Arena l' (update ring h xs) chain top := by
  have hout : ∀ h', h' ≠ h → ∀ c ∈ ring h', c ∉ xs ∧ c ∉ ring h := fun h' hne c hc => by
    have hnot := ha.rings_disjoint h' h hne c hc
    refine ⟨fun hmem => ?_, hnot⟩
    rcases hnew c hmem with hin | hin
    · exact hnot hin
    · exact hin.1 h' hc
  have hchain : ∀ c ∈ chain, c ∉ xs ∧ c ∉ ring h := fun c hc => by
    have hnot : c ∉ ring h := fun hmem => ha.chain_disjoint h c hmem hc
    refine ⟨fun hmem => ?_, hnot⟩
    rcases hnew c hmem with hin | hin
    · exact hnot hin
    · exact hin.2 hc
  refine ⟨fun h' => ?_, ?_, ha.nodup, fun h₁ h₂ hne c hc => ?_, fun h' c hc hmem => ?_,
    fun c hc hc' => ?_⟩
  · by_cases he : h' = h
    · subst he
      rwa [update_self]
    · rw [update_of_ne he]
      refine (ha.rings h').congr fun y hy => ?_
      rcases mem_cons.1 hy with rfl | hy
      · exact hsame h' he
      · obtain ⟨c, hc, rfl⟩ := mem_map.1 hy
        exact hitems c (hout h' he c hc).1 (hout h' he c hc).2
  · refine ha.path.congr fun y hy => ?_
    obtain ⟨c, hc, rfl⟩ := mem_map.1 hy
    exact (hitems c (hchain c hc).1 (hchain c hc).2).1
  · by_cases h₁h : h₁ = h
    · subst h₁h
      rw [update_self] at hc
      rw [update_of_ne (Ne.symm hne)]
      exact fun hmem => (hout h₂ (Ne.symm hne) c hmem).1 hc
    · rw [update_of_ne h₁h] at hc
      by_cases h₂h : h₂ = h
      · subst h₂h
        rw [update_self]
        exact (hout h₁ h₁h c hc).1
      · rw [update_of_ne h₂h]
        exact ha.rings_disjoint h₁ h₂ hne c hc
  · by_cases he : h' = h
    · subst he
      rw [update_self] at hc
      exact (hchain c hmem).1 hc
    · rw [update_of_ne he] at hc
      exact ha.chain_disjoint h' c hc hmem
  · have hxs : c ∉ xs := by simpa using hc h
    by_cases hmem : c ∈ ring h
    · exact .inl (hold c hmem hxs)
    · rw [(hitems c hxs hmem).1]
      refine ha.loose c (fun h' => ?_) hc'
      by_cases he : h' = h
      · rwa [he]
      · simpa [he] using hc h'

theorem append (ha : Arena l ring chain top) (hb : ∀ h, b ∉ ring h) (hb' : b ∉ chain)
    (h : H) : ∃ l', (l.prev (.inl h)).bind (l.insertAfter (.inr b)) = some l' ∧
      Arena l' (update ring h (ring h ++ [b])) chain top := by
  obtain ⟨l', hl', hr, hsame⟩ := (ha.rings h).append (x := .inr b) (by simpa using hb h)
  have hr : Ring l' (.inl h) ((ring h ++ [b]).map .inr) := by simpa using hr
  refine ⟨l', hl', ha.update_ring hr (fun h' hne => ?_) (fun c hc hc' => ?_) (fun c hc => ?_)
    fun c hc hnot => absurd (mem_append_left [b] hc) hnot⟩
  · exact hsame _ (by simp) (by simp [hne])
  · refine hsame _ (fun he => hc ?_) (by simpa using hc')
    cases he
    simp
  · rcases mem_append.1 hc with hc | hc
    · exact .inl hc
    · rw [mem_singleton.1 hc]
      exact .inr ⟨hb, hb'⟩

/-- The items of a ring are put in front of the path, and its head is reset. -/
theorem detach (ha : Arena l ring chain top) (hne : ring h ≠ []) :
    ∃ t ∈ ring h, l.prev (.inl h) = some (.inr t) ∧
      Arena ((l.setNext (.inr t) top).initializeNode (.inl h)) (update ring h [])
        (ring h ++ chain) (l.next (.inl h)) := by
  obtain ⟨t', ht', hprev, hpath⟩ := (ha.rings h).detach (by simpa using hne) top
  obtain ⟨t, ht, rfl⟩ := mem_map.1 ht'
  have hsame : ∀ y, y ≠ .inr t → y ≠ .inl h →
      Same l ((l.setNext (.inr t) top).initializeNode (.inl h)) y := fun y hyt hyh => by
    simp [Same, Links.initializeNode, setNext, hyt, hyh]
  have hitem : ∀ c, c ∉ ring h →
      Same l ((l.setNext (.inr t) top).initializeNode (.inl h)) (.inr c) := fun c hc =>
    hsame _ (fun he => hc (Sum.inr.inj he ▸ ht)) (by simp)
  have hring : ∀ h' c, c ∈ update ring h [] h' ↔ h' ≠ h ∧ c ∈ ring h' := by
    intro h' c
    by_cases he : h' = h <;> simp [he]
  refine ⟨t, ht, hprev, fun h' => ?_, ?_, ?_, fun h₁ h₂ hne c => ?_, fun h' c => ?_,
    fun c hc hc' => ?_⟩
  · by_cases he : h' = h
    · subst he
      rw [update_self]
      exact Ring.initializeNode _ _
    · rw [update_of_ne he]
      refine (ha.rings h').congr fun y hy => ?_
      rcases mem_cons.1 hy with rfl | hy
      · exact hsame _ (by simp) (by simpa using he)
      · obtain ⟨c, hc, rfl⟩ := mem_map.1 hy
        exact hitem c (ha.rings_disjoint h' h he c hc)
  · rw [map_append]
    refine Path.append_iff.2 ⟨top, hpath.congr fun y hy => ?_, ha.path.congr fun y hy => ?_⟩
    · obtain ⟨c, -, rfl⟩ := mem_map.1 hy
      simp [Links.initializeNode]
    · obtain ⟨c, hc, rfl⟩ := mem_map.1 hy
      exact (hitem c fun hmem => ha.chain_disjoint h c hmem hc).1
  · have hnd : (ring h).Nodup := (nodup_cons.1 (ha.rings h).nodup).2.of_map _
    exact hnd.append ha.nodup (ha.chain_disjoint h)
  · rw [hring, hring]
    exact fun hc hc' => ha.rings_disjoint h₁ h₂ hne c hc.2 hc'.2
  · rw [hring, mem_append, not_or]
    exact fun hc => ⟨ha.rings_disjoint h' h hc.1 c hc.2, ha.chain_disjoint h' c hc.2⟩
  · rw [mem_append, not_or] at hc'
    rw [(hitem c hc'.1).1]
    refine ha.loose c (fun h' hmem => ?_) hc'.2
    by_cases he : h' = h
    · exact hc'.1 (he ▸ hmem)
    · exact hc h' ((hring h' c).2 ⟨he, hmem⟩)

end Arena

end Felis.Util
