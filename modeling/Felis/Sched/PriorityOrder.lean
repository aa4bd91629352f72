import Felis.Sched.PriorityQueue

/-!
# The order of the priority queue

`Rep` relates the priority queue to the list of the values that have been added and not consumed, in
the order in which they were added. `es` are the hash entries in use: each has its own key, a heap
entry that points to it, a place in the chain of its key, and a list, which is never empty, of the
values with its key. So `Pick` takes the first of the values with the least key.
-/

namespace Felis.Sched.PriorityQueue

open BinaryHeap Cells Function Option
open PriorityQueueHeapEntry (greater)

variable {pq pq' : PriorityQueue} {pending : List PriorityQueueValue} {es : List ℕ} {limit : ℕ}
  {e : ℕ} {v : PriorityQueueValue}

theorem strictWeakOrder_greater : StrictWeakOrder greater where
  asymm x y h := by
    simp only [greater, decide_eq_true_eq, decide_eq_false_iff_not] at h ⊢
    omega
  not_trans x y z hxy hyz := by
    simp only [greater, decide_eq_false_iff_not] at hxy hyz ⊢
    omega

theorem perm_cons_filter_ne {α : Type*} [DecidableEq α] {l : List α} {a : α} (hl : l.Nodup)
    (ha : a ∈ l) : l.Perm (a :: l.filter (· ≠ a)) := by
  have hperm := List.perm_cons_erase ha
  rw [hl.erase_eq_filter] at hperm
  refine hperm.trans (.of_eq (congrArg _ (List.filter_congr fun x _ => ?_)))
  rw [bne, Bool.beq_eq_decide_eq, decide_not]

def withKey (k : ℕ) (vs : List PriorityQueueValue) : List PriorityQueueValue :=
  vs.filter (·.key = k)

theorem withKey_append (k : ℕ) (vs ws : List PriorityQueueValue) :
    withKey k (vs ++ ws) = withKey k vs ++ withKey k ws := List.filter_append ..

theorem mem_withKey {k : ℕ} {vs : List PriorityQueueValue} :
    v ∈ withKey k vs ↔ v ∈ vs ∧ v.key = k := by simp [withKey]

theorem withKey_singleton (v : PriorityQueueValue) : withKey v.key [v] = [v] := by simp [withKey]

theorem withKey_singleton_of_ne {k : ℕ} (h : v.key ≠ k) : withKey k [v] = [] := by
  simp [withKey, h]

def heapEntry (pq : PriorityQueue) (e : ℕ) : PriorityQueueHeapEntry := ⟨(pq.ent e).key, some e⟩

@[simp] theorem heapEntry_setValues (pq : PriorityQueue) (e : ℕ)
    (values : List PriorityQueueValue) : (pq.setValues e values).heapEntry = pq.heapEntry := by
  funext e'
  rw [heapEntry, key_setValues, heapEntry]

/-- The value that is to be picked: it has the least key and is the first with this key. -/
structure First (pending : List PriorityQueueValue) (v : PriorityQueueValue) : Prop where
  mem : v ∈ pending
  least : ∀ w ∈ pending, v.key ≤ w.key
  oldest : (withKey v.key pending).head? = some v

structure Rep (pq : PriorityQueue) (pending : List PriorityQueueValue) (es : List ℕ) : Prop where
  keys : (es.map fun e => (pq.ent e).key).Nodup
  heap : (seg pq.q 0 pq.len).Perm (es.map pq.heapEntry)
  order : IsHeap greater pq.q pq.len
  mem_ht : ∀ b e, e ∈ pq.ht b ↔ e ∈ es ∧ bucket (pq.ent e).key = b
  ht_nodup : ∀ b, (pq.ht b).Nodup
  values : ∀ e ∈ es, (pq.ent e).values = withKey (pq.ent e).key pending
  nonempty : ∀ e ∈ es, (pq.ent e).values ≠ []
  covered : ∀ v ∈ pending, ∃ e ∈ es, (pq.ent e).key = v.key
  ent_lt : ∀ e ∈ es, e < pq.brk
  addr_lt : ∀ v ∈ pending, v.addr < pq.brk
  nodup : pending.Nodup

theorem rep_empty (q : ℕ → PriorityQueueHeapEntry) (ent : ℕ → PriorityQueueHashEntry) :
    Rep (empty q ent) [] [] where
  keys := List.nodup_nil
  heap := .refl _
  order _ _ hlt := absurd hlt (Nat.not_lt_zero _)
  mem_ht b e := by simp [empty]
  ht_nodup _ := List.nodup_nil
  values _ he := absurd he List.not_mem_nil
  nonempty _ he := absurd he List.not_mem_nil
  covered _ hv := absurd hv List.not_mem_nil
  ent_lt _ he := absurd he List.not_mem_nil
  addr_lt _ hv := absurd hv List.not_mem_nil
  nodup := List.nodup_nil

theorem mem_update_concat {ht : ℕ → List ℕ} {b b' e' : ℕ} :
    e' ∈ update ht b' (ht b' ++ [e]) b ↔ e' ∈ ht b ∨ b = b' ∧ e' = e := by
  by_cases hb : b = b'
  · simp [hb]
  · simp [hb]

theorem brk_ingestPending : (pq.ingestPending e v).brk = pq.brk := by
  rw [ingestPending]
  split_ifs <;> rfl

theorem brk_consume (h : pq.consume v = some pq') : pq'.brk = pq.brk := by
  obtain ⟨top, -, rfl⟩ := map_eq_some_iff.1 h
  split_ifs <;> rfl

theorem ingestPending_of_empty (h : (pq.ent e).values = []) :
    pq.ingestPending e v = { pq with
      q := pushHeap greater (update pq.q pq.len ⟨(pq.ent e).key, some e⟩) (pq.len + 1)
      len := pq.len + 1
      ent := update pq.ent e ⟨(pq.ent e).key, [v]⟩ } := by
  rw [ingestPending, if_pos h, setValues, h]
  rfl

namespace Rep

variable (h : Rep pq pending es)

include h

theorem eq_of_key_eq {e e' : ℕ} (he : e ∈ es) (he' : e' ∈ es)
    (hk : (pq.ent e).key = (pq.ent e').key) : e = e' :=
  List.inj_on_of_nodup_map h.keys he he' hk

theorem es_nodup : es.Nodup := h.keys.of_map _

theorem mem_heap (he : e ∈ es) : ∃ i < pq.len, pq.q i = pq.heapEntry e := by
  have hmem := h.heap.mem_iff.2 (List.mem_map_of_mem he)
  simpa [mem_seg] using hmem

theorem of_mem_heap {i : ℕ} (hi : i < pq.len) : ∃ e ∈ es, pq.q i = pq.heapEntry e := by
  have hmem : pq.q i ∈ seg pq.q 0 pq.len := mem_seg.2 ⟨i, hi, by rw [Nat.zero_add]⟩
  obtain ⟨e, he, hq⟩ := List.mem_map.1 (h.heap.mem_iff.1 hmem)
  exact ⟨e, he, hq.symm⟩

theorem length_eq : pq.len = es.length := by
  have := h.heap.length_eq
  rwa [length_seg, List.length_map] at this

theorem len_eq_zero : pq.len = 0 ↔ pending = [] := by
  constructor
  · intro hlen
    rw [h.length_eq, List.length_eq_zero_iff] at hlen
    refine List.eq_nil_iff_forall_not_mem.2 fun v hv => ?_
    obtain ⟨e, he, -⟩ := h.covered v hv
    rw [hlen] at he
    cases he
  · rintro rfl
    rw [h.length_eq, List.length_eq_zero_iff]
    refine List.eq_nil_iff_forall_not_mem.2 fun e he => h.nonempty e he ?_
    rw [h.values e he]
    rfl

/-! ## `AddToPriorityQueue` -/

/-- The new offset is not in use. -/
theorem alloc {a : ℕ} (ha : pq.alloc limit = some (a, pq')) :
    a = pq.brk ∧ pq' = { pq with brk := pq.brk + 64 } ∧ Rep pq' pending es := by
  unfold PriorityQueue.alloc at ha
  split_ifs at ha
  cases ha
  refine ⟨rfl, rfl, h.keys, h.heap, h.order, h.mem_ht, h.ht_nodup, h.values, h.nonempty, h.covered,
    fun e he => ?_, fun v hv => ?_, h.nodup⟩
  · have := h.ent_lt e he
    dsimp only
    omega
  · have := h.addr_lt v hv
    dsimp only
    omega

theorem nodup_concat (hv : v ∉ pending) : (pending ++ [v]).Nodup := by
  rw [List.nodup_append_comm, List.singleton_append]
  exact List.nodup_cons.2 ⟨hv, h.nodup⟩

theorem append (he : e ∈ es) (hkey : (pq.ent e).key = v.key) (hlt : v.addr < pq.brk)
    (hv : v ∉ pending) : Rep (pq.ingestPending e v) (pending ++ [v]) es := by
  rw [ingestPending, if_neg (h.nonempty e he)]
  have hvalues : ∀ e' ∈ es, ((pq.setValues e ((pq.ent e).values ++ [v])).ent e').values =
      withKey (pq.ent e').key (pending ++ [v]) := by
    intro e' he'
    rw [withKey_append, ← h.values e' he']
    by_cases hee : e' = e
    · rw [hee, values_setValues, hkey, withKey_singleton]
    · rw [values_setValues_of_ne pq hee, withKey_singleton_of_ne, List.append_nil]
      rw [← hkey]
      exact fun hk => hee (h.eq_of_key_eq he' he hk.symm)
  refine ⟨?_, ?_, h.order, ?_, h.ht_nodup, ?_, ?_, ?_, h.ent_lt, ?_, ?_⟩
  · simpa using h.keys
  · rw [heapEntry_setValues]
    exact h.heap
  · simp only [key_setValues]
    exact h.mem_ht
  · simpa using hvalues
  · intro e' he'
    rw [hvalues e' he', withKey_append, ← h.values e' he']
    exact fun hnil => h.nonempty e' he' (List.append_eq_nil_iff.1 hnil).1
  · intro w hw
    simp only [key_setValues]
    rcases List.mem_append.1 hw with hw | hw
    · exact h.covered w hw
    · rw [List.mem_singleton.1 hw]
      exact ⟨e, he, hkey⟩
  · intro w hw
    rcases List.mem_append.1 hw with hw | hw
    · exact h.addr_lt w hw
    · rw [List.mem_singleton.1 hw]
      exact hlt
  · exact h.nodup_concat hv

theorem newEntry (hnew : ∀ e ∈ es, (pq.ent e).key ≠ v.key) (hlt : v.addr < pq.brk)
    (hv : v ∉ pending) (hfresh : e ∉ es) (he : e < pq.brk)
    (hold : ∀ e' ∈ es, pq'.ent e' = pq.ent e') (hent : pq'.ent e = ⟨v.key, [v]⟩)
    (hht : pq'.ht = update pq.ht (bucket v.key) (pq.ht (bucket v.key) ++ [e]))
    (hq : pq'.q = pushHeap greater (update pq.q pq.len ⟨v.key, some e⟩) (pq.len + 1))
    (hlen : pq'.len = pq.len + 1) (hbrk : pq'.brk = pq.brk) :
    Rep pq' (pending ++ [v]) (es ++ [e]) := by
  have hnone : withKey v.key pending = [] := by
    refine List.eq_nil_iff_forall_not_mem.2 fun w hw => ?_
    obtain ⟨hw, hkey⟩ := mem_withKey.1 hw
    obtain ⟨e', he', hk⟩ := h.covered w hw
    exact hnew e' he' (hk.trans hkey)
  have hmem : ∀ e', e' ∈ es ++ [e] ↔ e' ∈ es ∨ e' = e := by simp
  refine ⟨?_, ?_, ?_, ?_, ?_, ?_, ?_, ?_, ?_, ?_, h.nodup_concat hv⟩
  · rw [List.map_append, List.map_singleton, hent, List.nodup_append_comm, List.singleton_append,
      List.map_congr_left fun e' he' => congrArg PriorityQueueHashEntry.key (hold e' he')]
    refine List.nodup_cons.2 ⟨fun hin => ?_, h.keys⟩
    obtain ⟨e', he', hk⟩ := List.mem_map.1 hin
    exact hnew e' he' hk
  · have hentries : (es ++ [e]).map pq'.heapEntry = es.map pq.heapEntry ++ [⟨v.key, some e⟩] := by
      rw [List.map_append, List.map_singleton, heapEntry, hent]
      refine congrArg (· ++ _) (List.map_congr_left fun e' he' => ?_)
      rw [heapEntry, hold e' he', heapEntry]
    have hseg : seg (update pq.q pq.len ⟨v.key, some e⟩) 0 (pq.len + 1) =
        seg pq.q 0 pq.len ++ [⟨v.key, some e⟩] := by
      have hseg := seg_update pq.q 0 pq.len ⟨v.key, some e⟩
      rwa [Nat.zero_add] at hseg
    rw [hentries, hq, hlen]
    refine (rearranged_pushHeap (Nat.succ_pos _) _).perm.trans ?_
    rw [hseg]
    exact h.heap.append_right _
  · rw [hq, hlen]
    refine isHeap_pushHeap strictWeakOrder_greater (Nat.succ_pos _) (h.order.congr fun k hk => ?_)
    exact update_of_ne (Nat.ne_of_lt hk) ..
  · intro b e'
    rw [hmem, hht, mem_update_concat, h.mem_ht]
    constructor
    · rintro (⟨hes, hk⟩ | ⟨rfl, rfl⟩)
      · exact ⟨.inl hes, by rw [hold e' hes, hk]⟩
      · exact ⟨.inr rfl, by rw [hent]⟩
    · rintro ⟨hes | rfl, hk⟩
      · exact .inl ⟨hes, by rw [← hold e' hes, hk]⟩
      · rw [hent] at hk
        exact .inr ⟨hk.symm, rfl⟩
  · intro b
    rw [hht]
    by_cases hb : b = bucket v.key
    · subst hb
      rw [update_self, List.nodup_append_comm, List.singleton_append]
      exact List.nodup_cons.2 ⟨fun hin => hfresh ((h.mem_ht _ e).1 hin).1, h.ht_nodup _⟩
    · rw [update_of_ne hb]
      exact h.ht_nodup b
  · intro e' he'
    rcases (hmem e').1 he' with hes | rfl
    · rw [hold e' hes, withKey_append, h.values e' hes,
        withKey_singleton_of_ne (hnew e' hes).symm, List.append_nil]
    · rw [hent, withKey_append, hnone, withKey_singleton, List.nil_append]
  · intro e' he'
    rcases (hmem e').1 he' with hes | rfl
    · rw [hold e' hes]
      exact h.nonempty e' hes
    · rw [hent]
      exact List.cons_ne_nil v []
  · intro w hw
    rcases List.mem_append.1 hw with hw | hw
    · obtain ⟨e', he', hk⟩ := h.covered w hw
      exact ⟨e', (hmem e').2 (.inl he'), by rw [hold e' he', hk]⟩
    · rw [List.mem_singleton.1 hw]
      exact ⟨e, (hmem e).2 (.inr rfl), by rw [hent]⟩
  · intro e' he'
    rw [hbrk]
    rcases (hmem e').1 he' with hes | rfl
    · exact h.ent_lt e' hes
    · exact he
  · intro w hw
    rw [hbrk]
    rcases List.mem_append.1 hw with hw | hw
    · exact h.addr_lt w hw
    · rw [List.mem_singleton.1 hw]
      exact hlt

theorem notMem_of_le (hle : pq.brk ≤ v.addr) : v ∉ pending :=
  fun hv => absurd (h.addr_lt v hv) (Nat.not_lt.2 hle)

theorem add {rt : RoutineRef} (hadd : pq.addToPriorityQueue limit rt = some pq') :
    (∃ es', Rep pq' (pending ++ [⟨pq.brk, rt⟩]) es') ∧ pq.brk < pq'.brk := by
  obtain ⟨⟨node, pq₁⟩, hnode, hadd⟩ := bind_eq_some_iff.1 hadd
  obtain ⟨⟨ent, pq₂⟩, hent, hadd⟩ := bind_eq_some_iff.1 hadd
  obtain ⟨rfl, hpq₁, h₁⟩ := h.alloc hnode
  have hlt : pq.brk < pq₁.brk := by
    rw [hpq₁]
    exact Nat.lt_add_of_pos_right (by decide)
  have hv : (⟨pq.brk, rt⟩ : PriorityQueueValue) ∉ pending := h.notMem_of_le le_rfl
  cases hadd
  rw [brk_ingestPending]
  dsimp only [findEntry] at hent
  split at hent
  next e' hfind =>
    cases hent
    have hmem := List.mem_of_find?_eq_some hfind
    have hkey := List.find?_some hfind
    rw [decide_eq_true_eq] at hkey
    exact ⟨⟨es, h₁.append ((h₁.mem_ht _ ent).1 hmem).1 hkey hlt hv⟩, hlt⟩
  next hfind =>
    obtain ⟨⟨e, pq₃⟩, halloc, hent⟩ := map_eq_some_iff.1 hent
    cases hent
    obtain ⟨rfl, hpq₃, h₃⟩ := h₁.alloc halloc
    have hlt₃ : pq₁.brk < pq₃.brk := by
      rw [hpq₃]
      exact Nat.lt_add_of_pos_right (by decide)
    have hfresh : pq₁.brk ∉ es := fun hin => absurd (h₁.ent_lt _ hin) (lt_irrefl _)
    have hnew : ∀ e ∈ es, (pq₃.ent e).key ≠ rt.schedKey := by
      intro e he hk
      rw [hpq₃] at hk
      have hin := (h₁.mem_ht _ e).2 ⟨he, rfl⟩
      rw [hk] at hin
      exact absurd hk (by simpa using List.find?_eq_none.1 hfind e hin)
    have hself : update pq₃.ent pq₁.brk ⟨rt.schedKey, []⟩ pq₁.brk = ⟨rt.schedKey, []⟩ :=
      update_self ..
    rw [ingestPending_of_empty (congrArg PriorityQueueHashEntry.values hself)]
    refine ⟨⟨es ++ [pq₁.brk], ?_⟩, hlt.trans hlt₃⟩
    refine h₃.newEntry hnew (hlt.trans hlt₃) hv hfresh hlt₃ ?_ ?_ rfl ?_ rfl rfl
    · intro e he
      have hne : e ≠ pq₁.brk := fun heq => hfresh (heq ▸ he)
      dsimp only
      rw [update_of_ne hne, update_of_ne hne]
    · dsimp only
      rw [update_self, hself]
      rfl
    · dsimp only
      rw [hself]
      rfl

/-! ## `Pick` and `Consume` -/

/-- The heap entry in front has the least key. -/
theorem front (hlen : 0 < pq.len) :
    ∃ e ∈ es, pq.q 0 = pq.heapEntry e ∧ ∀ w ∈ pending, (pq.ent e).key ≤ w.key := by
  obtain ⟨e, he, hq⟩ := h.of_mem_heap hlen
  refine ⟨e, he, hq, fun w hw => ?_⟩
  obtain ⟨e', he', hk⟩ := h.covered w hw
  obtain ⟨i, hi, hqi⟩ := h.mem_heap he'
  have hroot := h.order.root strictWeakOrder_greater i hi
  rw [hq, hqi] at hroot
  rw [← hk]
  exact Nat.le_of_not_lt (of_decide_eq_false hroot)

theorem pick_spec (hlen : 0 < pq.len) :
    ∃ e ∈ es, ∃ v, pq.q 0 = pq.heapEntry e ∧ pq.pick = some v ∧ (pq.ent e).key = v.key ∧
      First pending v := by
  obtain ⟨e, he, hq, hleast⟩ := h.front hlen
  obtain ⟨v, vs, hvs⟩ := List.exists_cons_of_ne_nil (h.nonempty e he)
  have hhead : (withKey (pq.ent e).key pending).head? = some v := by
    rw [← h.values e he, hvs, List.head?_cons]
  obtain ⟨hv, hkey⟩ := mem_withKey.1 (List.mem_of_mem_head? hhead)
  refine ⟨e, he, v, hq, ?_, hkey.symm, hv, ?_, ?_⟩
  · simp [pick, hq, heapEntry, hvs]
  · rwa [hkey]
  · rwa [hkey]

theorem values_removeValue (he : e ∈ es) (v : PriorityQueueValue) :
    ((pq.removeValue v).ent e).values = withKey (pq.ent e).key (pending.filter (· ≠ v)) := by
  simp only [removeValue, h.values e he, withKey, List.filter_comm]

/-- The lists of the other keys stay as they are. -/
theorem values_removeValue_of_ne (he : e ∈ es) (hne : (pq.ent e).key ≠ v.key) :
    ((pq.removeValue v).ent e).values = (pq.ent e).values := by
  simp only [removeValue, h.values e he]
  refine List.filter_eq_self.2 fun w hw => ?_
  obtain ⟨-, hk⟩ := mem_withKey.1 hw
  exact decide_eq_true fun hwv => hne (by rw [← hk, hwv])

/-- A value is removed that is not the last one of its key. -/
theorem removeValue (he : e ∈ es) (hkey : (pq.ent e).key = v.key)
    (hne : ((pq.removeValue v).ent e).values ≠ []) :
    Rep (pq.removeValue v) (pending.filter (· ≠ v)) es := { h with
  values e' he' := h.values_removeValue he' v
  nonempty e' he' := by
    by_cases hee : e' = e
    · rwa [hee]
    · rw [h.values_removeValue_of_ne he']
      · exact h.nonempty e' he'
      · rw [← hkey]
        exact fun hk => hee (h.eq_of_key_eq he' he hk)
  covered w hw := h.covered w (List.mem_filter.1 hw).1
  addr_lt w hw := h.addr_lt w (List.mem_filter.1 hw).1
  nodup := h.nodup.filter _ }

/-- With the last value of a key, the entry in front is removed too. -/
theorem removeEntry (he : e ∈ es) (hq : pq.q 0 = pq.heapEntry e) (hlen : 0 < pq.len)
    (hkey : (pq.ent e).key = v.key) (hnil : ((pq.removeValue v).ent e).values = [])
    (x : PriorityQueueHeapEntry) :
    Rep { pq.removeValue v with
      q := update (popHeap greater pq.q pq.len) (pq.len - 1) x
      len := pq.len - 1
      ht := fun b => (pq.ht b).filter (· ≠ e) } (pending.filter (· ≠ v)) (es.filter (· ≠ e)) := by
  have hsub : (es.filter (· ≠ e)).Sublist es := List.filter_sublist
  have hne : ∀ e' ∈ es.filter (· ≠ e), e' ∈ es ∧ (pq.ent e').key ≠ v.key := by
    intro e' he'
    obtain ⟨hes, hee⟩ := List.mem_filter.1 he'
    refine ⟨hes, fun hk => of_decide_eq_true hee (h.eq_of_key_eq hes he ?_)⟩
    rw [hk, hkey]
  have hsame : ∀ i < pq.len - 1, update (popHeap greater pq.q pq.len) (pq.len - 1) x i =
      popHeap greater pq.q pq.len i := fun i hi => update_of_ne (Nat.ne_of_lt hi) ..
  refine ⟨h.keys.sublist (hsub.map _), ?_, ?_, ?_, fun b => (h.ht_nodup b).filter _,
    fun e' he' => h.values_removeValue (hne e' he').1 v, ?_, ?_,
    fun e' he' => h.ent_lt e' (hne e' he').1,
    fun w hw => h.addr_lt w (List.mem_filter.1 hw).1, h.nodup.filter _⟩
  · have hperm : (pq.heapEntry e :: seg (popHeap greater pq.q pq.len) 0 (pq.len - 1)).Perm
        (pq.heapEntry e :: (es.filter (· ≠ e)).map pq.heapEntry) := by
      have hes := (perm_cons_filter_ne h.es_nodup he).map pq.heapEntry
      rw [← hq]
      rw [List.map_cons, ← hq] at hes
      exact ((perm_popHeap greater hlen pq.q).trans h.heap).trans hes
    refine List.Perm.trans (.of_eq (seg_congr fun i hi => ?_)) hperm.cons_inv
    rw [Nat.zero_add]
    exact hsame i hi
  · exact (isHeap_popHeap strictWeakOrder_greater h.order).congr hsame
  · intro b e'
    simp only [List.mem_filter, h.mem_ht]
    exact and_right_comm
  · intro e' he'
    obtain ⟨hes, hk⟩ := hne e' he'
    exact (h.values_removeValue_of_ne hes hk).trans_ne (h.nonempty e' hes)
  · intro w hw
    obtain ⟨e', he', hk⟩ := h.covered w (List.mem_filter.1 hw).1
    refine ⟨e', List.mem_filter.2 ⟨he', decide_eq_true ?_⟩, hk⟩
    rintro rfl
    rw [h.values_removeValue he v] at hnil
    exact List.eq_nil_iff_forall_not_mem.1 hnil w (mem_withKey.2 ⟨hw, hk.symm⟩)

theorem consume (hlen : 0 < pq.len) :
    ∃ v, pq.pick = some v ∧ First pending v ∧
      ∃ pq', pq.consume v = some pq' ∧ ∃ es', Rep pq' (pending.filter (· ≠ v)) es' := by
  obtain ⟨e, he, v, hq, hpick, hkey, hfirst⟩ := h.pick_spec hlen
  refine ⟨v, hpick, hfirst, ?_⟩
  have htop : ((pq.removeValue v).q 0).ent = some e := by
    change (pq.q 0).ent = some e
    rw [hq]
    rfl
  rw [PriorityQueue.consume, htop, map_some]
  refine ⟨_, rfl, ?_⟩
  split_ifs with hnil
  · exact ⟨_, h.removeEntry he hq hlen hkey hnil _⟩
  · exact ⟨es, h.removeValue he hkey hnil⟩

theorem key_injective {i j : ℕ} (hi : i < pq.len) (hj : j < pq.len)
    (hk : (pq.q i).key = (pq.q j).key) : i = j := by
  have hnd : ((seg pq.q 0 pq.len).map (·.key)).Nodup := by
    rw [(h.heap.map (·.key)).nodup_iff, List.map_map]
    exact h.keys
  have hlen : ((seg pq.q 0 pq.len).map (·.key)).length = pq.len := by
    rw [List.length_map, length_seg]
  rw [← hlen] at hi hj
  have heq : ((seg pq.q 0 pq.len).map (·.key))[i] = ((seg pq.q 0 pq.len).map (·.key))[j] := by
    simpa using hk
  exact hnd.getElem_inj_iff.1 heq

end Rep

/-! ## Runs -/

/-- The priority queue, with the values that have been added, those of them that have not been
consumed, and the others in the order in which they were picked. -/
structure State where
  pq : PriorityQueue
  added : List PriorityQueueValue
  pending : List PriorityQueueValue
  picked : List PriorityQueueValue

inductive Event
  | add (rt : RoutineRef)
  | pick
  deriving DecidableEq

def State.init (q : ℕ → PriorityQueueHeapEntry) (ent : ℕ → PriorityQueueHashEntry) : State :=
  ⟨empty q ent, [], [], []⟩

def step (limit : ℕ) (s : State) : Event → Option State
  | .add rt =>
    (s.pq.addToPriorityQueue limit rt).map fun pq =>
      { s with
        pq := pq
        added := s.added ++ [⟨s.pq.brk, rt⟩]
        pending := s.pending ++ [⟨s.pq.brk, rt⟩] }
  | .pick =>
    if s.pq.len = 0 then none
    else do
      let v ← s.pq.pick
      let pq ← s.pq.consume v
      return { s with pq := pq, pending := s.pending.filter (· ≠ v), picked := s.picked ++ [v] }

structure Inv (s : State) : Prop where
  rep : ∃ es, Rep s.pq s.pending es
  perm : (s.picked ++ s.pending).Perm s.added
  nodup : s.added.Nodup
  addr_lt : ∀ v ∈ s.added, v.addr < s.pq.brk

theorem Inv.step {s t : State} {ev : Event} (h : Inv s) (ht : step limit s ev = some t) :
    Inv t := by
  obtain ⟨es, hrep⟩ := h.rep
  cases ev with
  | add rt =>
    obtain ⟨pq', hadd, rfl⟩ := map_eq_some_iff.1 ht
    obtain ⟨hrep', hlt⟩ := hrep.add hadd
    have hv : (⟨s.pq.brk, rt⟩ : PriorityQueueValue) ∉ s.added :=
      fun hin => absurd (h.addr_lt _ hin) (lt_irrefl _)
    refine ⟨hrep', ?_, ?_, ?_⟩
    · rw [← List.append_assoc]
      exact h.perm.append_right _
    · rw [List.nodup_append_comm, List.singleton_append]
      exact List.nodup_cons.2 ⟨hv, h.nodup⟩
    · intro v hmem
      rcases List.mem_append.1 hmem with hmem | hmem
      · exact (h.addr_lt v hmem).trans hlt
      · rw [List.mem_singleton.1 hmem]
        exact hlt
  | pick =>
    rw [PriorityQueue.step] at ht
    split_ifs at ht with hlen
    obtain ⟨v, hpick, hfirst, pq', hcons, hrep'⟩ := hrep.consume (Nat.pos_of_ne_zero hlen)
    rw [hpick] at ht
    simp only [bind_eq_bind, bind_some, hcons] at ht
    cases ht
    refine ⟨hrep', ?_, h.nodup, ?_⟩
    · rw [List.append_assoc, List.singleton_append]
      exact ((perm_cons_filter_ne hrep.nodup hfirst.mem).symm.append_left _).trans h.perm
    · intro w hw
      dsimp only
      rw [brk_consume hcons]
      exact h.addr_lt w hw

theorem inv_init (q : ℕ → PriorityQueueHeapEntry) (ent : ℕ → PriorityQueueHashEntry) :
    Inv (State.init q ent) where
  rep := ⟨[], rep_empty q ent⟩
  perm := .refl _
  nodup := List.nodup_nil
  addr_lt _ hv := absurd hv List.not_mem_nil

/-- What holds in every state of the queue. -/
structure Ordered (s : State) : Prop where
  /-- Every key with pending values has one heap entry, and there are no others. -/
  heap_entry : ∀ k, (∃ v ∈ s.pending, v.key = k) ↔ ∃! i, i < s.pq.len ∧ (s.pq.q i).key = k
  /-- It points to the hash entry of the key, which has these values. -/
  points : ∀ i < s.pq.len, ∃ e ∈ s.pq.ht (bucket (s.pq.q i).key), (s.pq.q i).ent = some e ∧
    (s.pq.ent e).key = (s.pq.q i).key ∧ (s.pq.ent e).values = withKey (s.pq.q i).key s.pending
  /-- No key has two hash entries. -/
  hash_entry : (∀ b, (s.pq.ht b).Nodup) ∧ ∀ b b' e e', e ∈ s.pq.ht b → e' ∈ s.pq.ht b' →
    (s.pq.ent e).key = (s.pq.ent e').key → e = e'
  /-- `Pick` returns the first value of the least key, and `Consume` takes it. -/
  pick : s.pending ≠ [] → ∃ v, s.pq.pick = some v ∧ First s.pending v ∧ (s.pq.consume v).isSome
  /-- Every value that has been added is pending, or has been picked once. -/
  once : s.added.Nodup ∧ (s.picked ++ s.pending).Perm s.added
  /-- When the queue is drained, every value has been picked. -/
  drained : s.pq.len = 0 → s.picked.Perm s.added

theorem Inv.ordered {s : State} (h : Inv s) : Ordered s := by
  obtain ⟨es, hrep⟩ := h.rep
  refine ⟨fun k => ⟨?_, ?_⟩, ?_, ⟨hrep.ht_nodup, ?_⟩, ?_, ⟨h.nodup, h.perm⟩, ?_⟩
  · rintro ⟨v, hv, rfl⟩
    obtain ⟨e, he, hk⟩ := hrep.covered v hv
    obtain ⟨i, hi, hq⟩ := hrep.mem_heap he
    have hik : (s.pq.q i).key = v.key := by rw [hq, ← hk, heapEntry]
    refine ⟨i, ⟨hi, hik⟩, fun j hj => hrep.key_injective hj.1 hi ?_⟩
    rw [hj.2, hik]
  · rintro ⟨i, ⟨hi, rfl⟩, -⟩
    obtain ⟨e, he, hq⟩ := hrep.of_mem_heap hi
    obtain ⟨v, hv⟩ := List.exists_mem_of_ne_nil _ (hrep.nonempty e he)
    rw [hrep.values e he] at hv
    obtain ⟨hv, hk⟩ := mem_withKey.1 hv
    exact ⟨v, hv, by rw [hk, hq, heapEntry]⟩
  · intro i hi
    obtain ⟨e, he, hq⟩ := hrep.of_mem_heap hi
    rw [hq]
    exact ⟨e, (hrep.mem_ht _ e).2 ⟨he, rfl⟩, rfl, rfl, hrep.values e he⟩
  · intro b b' e e' he he' hk
    exact hrep.eq_of_key_eq ((hrep.mem_ht b e).1 he).1 ((hrep.mem_ht b' e').1 he').1 hk
  · intro hne
    have hlen : 0 < s.pq.len := Nat.pos_of_ne_zero fun hlen => hne (hrep.len_eq_zero.1 hlen)
    obtain ⟨v, hpick, hfirst, pq', hcons, -⟩ := hrep.consume hlen
    exact ⟨v, hpick, hfirst, by rw [hcons]; rfl⟩
  · intro hlen
    have hperm := h.perm
    rwa [hrep.len_eq_zero.1 hlen, List.append_nil] at hperm

/-- **The order of dispatch.** After every sequence of `AddToPriorityQueue` and of `Pick` with
`Consume`, from the empty queue, the heap and the hash table have one entry for every key with
pending values, `Pick` returns the first value of the least key, and nothing is picked twice or
lost. -/
theorem dispatch_ordered (limit : ℕ) (q : ℕ → PriorityQueueHeapEntry)
    (ent : ℕ → PriorityQueueHashEntry) (evs : List Event) (s : State)
    (hrun : Runs.run (step limit) (State.init q ent) evs = some s) : Ordered s :=
  (Runs.run_induction (fun _ _ _ h ht => h.step ht) (inv_init q ent) hrun).ordered

/-- Two keys, in one bucket; the entry of the smaller one is removed and made again. -/
def collidingRun : List Event :=
  [.add ⟨0, 512 + 256 * kHashTableSize⟩, .add ⟨1, 512⟩, .add ⟨2, 512⟩, .pick, .pick, .add ⟨3, 512⟩,
    .pick, .pick]

theorem dispatch_ordered_collidingRun :
    ∃ s, Runs.run (step 1024) (State.init (fun _ => ⟨0, none⟩) fun _ => ⟨0, []⟩) collidingRun =
    some s ∧
      s.pq.len = 0 ∧ s.picked.map (·.routine.id) = [1, 2, 3, 0] ∧ Ordered s := by
  obtain ⟨s, hs, hlen, hpicked⟩ : ∃ s, Runs.run (step 1024) (State.init (fun _ => ⟨0, none⟩) fun _
      => ⟨0, []⟩) collidingRun = some s ∧ s.pq.len = 0 ∧ s.picked.map (·.routine.id) = [1, 2, 3, 0]
      := by decide +kernel
  exact ⟨s, hs, hlen, hpicked, dispatch_ordered 1024 _ _ collidingRun s hs⟩

end Felis.Sched.PriorityQueue
