import Felis.Index.Hashtable

/-!
# One row for every key

The entries of a bucket form a chain that only grows at its end (`Inv.chain`), and its keys are
different. A call that stands at an entry has compared its key with all entries before it, so that
what it links behind the last entry has a new key. What a step does to the calls other than the one
that takes it is said once, in `CallOk.frame` and `Inv.update`.
-/

namespace Felis.Index.Table

open Parts Runs Function List Option

/-- The call has claimed its bucket and not published it. -/
def Claims (c : Call) : Prop := c.pc = .fill ∨ c.pc = .publish

/-- The key is not that of any entry up to `p`, which is in the chain. -/
def Passed (s : Table) (l : List Entry) (x : Key) (p : Entry) : Prop :=
  ∃ l' r, l = l' ++ p :: r ∧ s.key p ≠ x ∧ ∀ e ∈ l', s.key e ≠ x

/-- What holds of a call, by what it does next. -/
def PcOk (cfg : Config) (s : Table) (C : ℕ → List Entry) (c : Call) : Prop :=
  let first := cfg.first c.key
  let x := convert c.key
  let l := C (cfg.idx c.key)
  match c.pc with
  | .check => True
  | .claim => c.op = .searchOrCreate
  | .fill => c.op = .searchOrCreate ∧ s.next first = .initializing
  | .publish => c.op = .searchOrCreate ∧ s.next first = .initializing ∧ s.key first = x
  | .spin => s.next first ≠ .uninitialized
  | .compare p => ∃ l' r, l = l' ++ p :: r ∧ ∀ e ∈ l', s.key e ≠ x
  | .load p => s.Passed l x p
  | .newRow p => c.op = .searchOrCreate ∧ c.row = none ∧ s.Passed l x p
  | .link p => c.op = .searchOrCreate ∧ c.row ≠ none ∧ s.Passed l x p
  | .done row created =>
    (c.op = .searchOrCreate → row ≠ none) ∧ (c.op = .search → created = false) ∧
      ∀ e, row = some e → e ∈ l ∧ s.key e = x
  | .fault => False

/-- The row that a call has made is not linked, and ready to be. -/
structure RowOk (s : Table) (C : ℕ → List Entry) (x : Key) (a : ℕ) : Prop where
  used : a ∈ s.used
  notLinked : ∀ b, .row a ∉ C b
  next_eq : s.next (.row a) = .last
  key_eq : s.key (.row a) = x

theorem RowOk.congr {s s' : Table} {C C' : ℕ → List Entry} {x : Key} {a : ℕ} (h : RowOk s C x a)
    (hused : a ∈ s'.used) (hC : ∀ b, .row a ∉ C' b) (hnext : s'.next (.row a) = s.next (.row a))
    (hkey : s'.key (.row a) = s.key (.row a)) : RowOk s' C' x a :=
  ⟨hused, hC, hnext.trans h.next_eq, hkey.trans h.key_eq⟩

structure CallOk (cfg : Config) (len : ℕ) (s : Table) (C : ℕ → List Entry) (c : Call) : Prop where
  length_eq : c.key.length = len
  pc : PcOk cfg s C c
  row : ∀ a, c.row = some a → c.op = .searchOrCreate ∧ RowOk s C (convert c.key) a

def ChainOk (s : Table) (b : ℕ) (l : List Entry) : Prop :=
  l = [] ∧ (s.next (.bucket b) = .uninitialized ∨ s.next (.bucket b) = .initializing) ∨
    (∃ r, l = .bucket b :: r) ∧ Links s.next l

/-- The entry has been linked by a `SearchOrCreate` for its key, which has returned. -/
def Linked (cfg : Config) (s : Table) (b : ℕ) (e : Entry) (i : ℕ) : Prop :=
  ∃ c, s.call i = some c ∧ c.op = .searchOrCreate ∧ c.pc = .done (some e) true ∧
    cfg.idx c.key = b ∧ s.key e = convert c.key

structure MemOk (s : Table) (C : ℕ → List Entry) : Prop where
  parted : Parted C
  bucket : ∀ b b', .bucket b' ∈ C b → b' = b
  chain : ∀ b, s.ChainOk b (C b)
  keys : ∀ b, ∀ e ∈ C b, ∀ e' ∈ C b, s.key e = s.key e' → e = e'
  used : ∀ b a, .row a ∈ C b → a ∈ s.used

structure Inv (cfg : Config) (len : ℕ) (s : Table) (C : ℕ → List Entry) : Prop extends
    MemOk s C where
  call : ∀ i c, s.call i = some c → CallOk cfg len s C c
  claims : ∀ i j c d, s.call i = some c → s.call j = some d → Claims c → Claims d →
    cfg.idx c.key = cfg.idx d.key → i = j
  rows : ∀ i j c d a, s.call i = some c → s.call j = some d → c.row = some a → d.row = some a →
    i = j
  linked : ∀ b, ∀ e ∈ C b, ∃ i, s.Linked cfg b e i
  created : ∀ i j c d e, s.call i = some c → s.call j = some d → c.pc = .done (some e) true →
    d.pc = .done (some e) true → i = j

variable {cfg : Config} {len i a b : ℕ} {s s' : Table} {C C' : ℕ → List Entry} {c c' : Call}
  {e p : Entry} {x : Key} {l l' : List Entry} {k : Key} {r : Option Entry}

theorem Passed.mono (h : s.Passed l x p) (hl : l <+: l') (hkey : ∀ e ∈ l, s'.key e = s.key e) :
    s'.Passed l' x p := by
  obtain ⟨l₁, r, rfl, hp, hpre⟩ := h
  obtain ⟨t, rfl⟩ := hl
  refine ⟨l₁, r ++ t, by simp, ?_, fun e he => ?_⟩
  · rwa [hkey p (by simp)]
  · rw [hkey e (by simp [he])]
    exact hpre e he

/-- The chains only get longer, and their keys stay. -/
structure Grows (s s' : Table) (C C' : ℕ → List Entry) : Prop where
  chains : ∀ b, C b <+: C' b
  key_eq : ∀ b, ∀ e ∈ C b, s'.key e = s.key e
  init : ∀ b, s.next (.bucket b) ≠ .uninitialized → s'.next (.bucket b) ≠ .uninitialized

/-- A step from `s` to `s'` that keeps the invariant. -/
structure Keeps (cfg : Config) (len : ℕ) (s s' : Table) (C C' : ℕ → List Entry) : Prop where
  inv : Inv cfg len s' C'
  grows : Grows s s' C C'

/-- A step of another call that lets the chains grow keeps what holds of a call. -/
theorem CallOk.frame (h : CallOk cfg len s C c) (hgrow : Grows s s' C C')
    (hclaim : Claims c → s'.next (cfg.first c.key) = s.next (cfg.first c.key) ∧
      s'.key (cfg.first c.key) = s.key (cfg.first c.key))
    (hrow : ∀ a, c.row = some a → RowOk s' C' (convert c.key) a) : CallOk cfg len s' C' c where
  length_eq := h.length_eq
  pc := by
    have hpc := h.pc
    have hmono := hgrow.chains (cfg.idx c.key)
    have hkeys := hgrow.key_eq (cfg.idx c.key)
    unfold PcOk at hpc ⊢
    cases hc : c.pc with
    | check => trivial
    | claim => simpa only [hc] using hpc
    | fault => simp only [hc] at hpc
    | fill =>
      simp only [hc] at hpc ⊢
      rw [(hclaim (.inl hc)).1]
      exact hpc
    | publish =>
      simp only [hc] at hpc ⊢
      rw [(hclaim (.inr hc)).1, (hclaim (.inr hc)).2]
      exact hpc
    | spin =>
      simp only [hc] at hpc ⊢
      exact hgrow.init _ hpc
    | compare p =>
      simp only [hc] at hpc ⊢
      obtain ⟨l₁, r, hl, hpre⟩ := hpc
      obtain ⟨t, ht⟩ := hmono
      refine ⟨l₁, r ++ t, by rw [← ht, hl]; simp, fun e he => ?_⟩
      rw [hkeys e (by simp [hl, he])]
      exact hpre e he
    | load p =>
      simp only [hc] at hpc ⊢
      exact hpc.mono hmono hkeys
    | newRow p =>
      simp only [hc] at hpc ⊢
      exact ⟨hpc.1, hpc.2.1, hpc.2.2.mono hmono hkeys⟩
    | link p =>
      simp only [hc] at hpc ⊢
      exact ⟨hpc.1, hpc.2.1, hpc.2.2.mono hmono hkeys⟩
    | done row created =>
      simp only [hc] at hpc ⊢
      refine ⟨hpc.1, hpc.2.1, fun e he => ?_⟩
      obtain ⟨hmem, hx⟩ := hpc.2.2 e he
      exact ⟨hmono.subset hmem, by rw [hkeys e hmem, hx]⟩
  row := fun a ha => ⟨(h.row a ha).1, hrow a ha⟩

/-- What holds at a program counter, with the program counter put in. -/
theorem CallOk.pcOk (h : CallOk cfg len s C c) {pc : Pc} (hc : c.pc = pc) :
    PcOk cfg s C { c with pc } := by
  subst hc
  exact h.pc

theorem CallOk.initializing (h : CallOk cfg len s C c) (hc : Claims c) :
    s.next (cfg.first c.key) = .initializing :=
  hc.elim (fun hc => (h.pcOk hc).2) fun hc => (h.pcOk hc).2.1

theorem CallOk.mem_of_done (h : CallOk cfg len s C c) {created : Bool}
    (hc : c.pc = .done (some e) created) : e ∈ C (cfg.idx c.key) ∧ s.key e = convert c.key :=
  (h.pcOk hc).2.2 e rfl

theorem ChainOk.eq_nil (h : s.ChainOk b l)
    (hb : s.next (.bucket b) = .uninitialized ∨ s.next (.bucket b) = .initializing) : l = [] := by
  rcases h with h | ⟨⟨r, rfl⟩, hlinks⟩
  · exact h.1
  · have hnext : s.next (.bucket b) = r.head?.elim .last .entry := Links.next_eq (l := []) hlinks
    rw [hnext] at hb
    cases r with
    | nil => rcases hb with hb | hb <;> cases hb
    | cons e r => rcases hb with hb | hb <;> cases hb

theorem ChainOk.exists_cons (h : s.ChainOk b l) (hu : s.next (.bucket b) ≠ .uninitialized)
    (hi : s.next (.bucket b) ≠ .initializing) : ∃ r, l = .bucket b :: r := by
  rcases h with ⟨-, h⟩ | ⟨h, -⟩
  · exact absurd h (not_or.2 ⟨hu, hi⟩)
  · exact h

theorem ChainOk.next_eq {l₁ r : List Entry} (h : s.ChainOk b (l₁ ++ p :: r)) :
    s.next p = r.head?.elim .last .entry := by
  rcases h with ⟨h, -⟩ | ⟨-, hlinks⟩
  · simp at h
  · exact hlinks.next_eq

/-- Words of no entry of the chain and not of its bucket do not matter. -/
theorem ChainOk.congr (h : s.ChainOk b l) (hb : s'.next (.bucket b) = s.next (.bucket b))
    (hsame : ∀ e ∈ l, s'.next e = s.next e) : s'.ChainOk b l :=
  h.imp (fun h => ⟨h.1, hb.symm ▸ h.2⟩) fun h => ⟨h.1, h.2.congr hsame⟩

/-- A fact about two calls, when it holds for no other call with the one that has moved. -/
theorem eq_of_update {f : ℕ → Option Call} {R : Call → Call → Prop}
    (hsymm : ∀ d d', R d d' → R d' d)
    (hold : ∀ j k d d', f j = some d → f k = some d' → R d d' → j = k)
    (hmoved : ∀ k d, k ≠ i → f k = some d → ¬R c' d) {j k : ℕ} {d d' : Call}
    (hj : update f i (some c') j = some d) (hk : update f i (some c') k = some d') (hR : R d d') :
    j = k := by
  by_cases hji : j = i <;> by_cases hki : k = i
  · rw [hji, hki]
  · rw [hji, update_self] at hj
    rw [update_of_ne hki] at hk
    cases hj
    exact absurd hR (hmoved k d' hki hk)
  · rw [update_of_ne hji] at hj
    rw [hki, update_self] at hk
    cases hk
    exact absurd (hsymm d c' hR) (hmoved j d hji hj)
  · rw [update_of_ne hji] at hj
    rw [update_of_ne hki] at hk
    exact hold j k d d' hj hk hR

namespace Inv

section

variable (h : Inv cfg len s C)

include h

/-- A call begins or takes a step: what has to be shown for the invariant. A row that the call
gives away, and only that, may change. -/
theorem update {o : Option Call} (hi : s.call i = o)
    (hcall : s'.call = Function.update s.call i (some c'))
    (hsame : ∀ c ∈ o, c'.key = c.key ∧ c'.op = c.op ∧ ∀ r b, c.pc ≠ .done r b)
    (hmem : MemOk s' C') (hgrow : Grows s s' C C')
    (hclaim : ∀ j d, j ≠ i → s.call j = some d → Claims d →
      s'.next (cfg.first d.key) = s.next (cfg.first d.key) ∧
        s'.key (cfg.first d.key) = s.key (cfg.first d.key))
    (hrow : ∀ x a, (∀ c ∈ o, c.row = some a → c'.row = some a) → RowOk s C x a → RowOk s' C' x a)
    (hlen : c'.key.length = len) (hpc : PcOk cfg s' C' c')
    (hclaims : Claims c' → (∃ c ∈ o, Claims c) ∨ s.next (cfg.first c'.key) = .uninitialized)
    (hrows : ∀ a, c'.row = some a → (∃ c ∈ o, c.row = some a) ∨
      a ∉ s.used ∧ c'.op = .searchOrCreate ∧ RowOk s' C' (convert c'.key) a)
    (hlinked : ∀ b, ∀ e ∈ C' b, e ∈ C b ∨ s'.Linked cfg b e i)
    (hcreated : ∀ e, c'.pc = .done (some e) true → ∀ b, e ∉ C b) : Keeps cfg len s s' C C' := by
  have hother : ∀ j, j ≠ i → s'.call j = s.call j := fun j hj => by
    rw [hcall, update_of_ne hj]
  refine ⟨⟨hmem, ?_, ?_, ?_, ?_, ?_⟩, hgrow⟩
  · intro j d hj
    rcases eq_or_ne j i with rfl | hji
    · rw [hcall, update_self] at hj
      cases hj
      refine ⟨hlen, hpc, fun a ha => ?_⟩
      rcases hrows a ha with ⟨c, hc, hca⟩ | ⟨-, hnew⟩
      · obtain ⟨hkey, hop, -⟩ := hsame c hc
        rw [hkey, hop]
        exact ((h.call j c (hi.trans hc)).row a hca).imp_right (hrow _ a fun _ _ _ => ha)
      · exact hnew
    · rw [hother j hji] at hj
      refine (h.call j d hj).frame hgrow (hclaim j d hji hj) fun a ha =>
        hrow _ a (fun c hc hca => ?_) ((h.call j d hj).row a ha).2
      exact absurd (h.rows j i d c a hj (hi.trans hc) ha hca) hji
  · intro j k d d' hj hk hd hd' heq
    rw [hcall] at hj hk
    refine eq_of_update (R := fun d d' => Claims d ∧ Claims d' ∧ cfg.idx d.key = cfg.idx d'.key)
      (fun _ _ hR => ⟨hR.2.1, hR.1, hR.2.2.symm⟩)
      (fun j k d d' hj hk hR => h.claims j k d d' hj hk hR.1 hR.2.1 hR.2.2)
      (fun k d' hk hd' hR => ?_) hj hk ⟨hd, hd', heq⟩
    obtain ⟨hc', hd'c, hidx⟩ := hR
    rcases hclaims hc' with ⟨c, hc, hcl⟩ | hun
    · rw [(hsame c hc).1] at hidx
      exact hk (h.claims k i d' c hd' (hi.trans hc) hd'c hcl hidx.symm)
    · -- the bucket of a call that has claimed it is not uninitialized
      have hinit := (h.call k d' hd').initializing hd'c
      rw [Config.first, ← hidx, ← Config.first, hun] at hinit
      cases hinit
  · intro j k d d' a hj hk hd hd'
    rw [hcall] at hj hk
    refine eq_of_update (R := fun d d' => d.row = some a ∧ d'.row = some a) (fun _ _ hR => hR.symm)
      (fun j k d d' hj hk hR => h.rows j k d d' a hj hk hR.1 hR.2)
      (fun k d' hk hd' hR => ?_) hj hk ⟨hd, hd'⟩
    rcases hrows a hR.1 with ⟨c, hc, hca⟩ | ⟨hnot, -⟩
    · exact hk (h.rows k i d' c a hd' (hi.trans hc) hR.2 hca)
    · exact hnot ((h.call k d' hd').row a hR.2).2.used
  · intro b e he
    rcases hlinked b e he with hold | hnew
    · obtain ⟨j, d, hj, hop, hdone, hidx, hx⟩ := h.linked b e hold
      have hji : j ≠ i := by
        rintro rfl
        exact (hsame d (hi.symm.trans hj)).2.2 _ _ hdone
      exact ⟨j, d, (hother j hji).trans hj, hop, hdone, hidx, by rw [hgrow.key_eq b e hold, hx]⟩
    · exact ⟨i, hnew⟩
  · intro j k d d' e hj hk hd hd'
    rw [hcall] at hj hk
    refine eq_of_update
      (R := fun d d' => d.pc = .done (some e) true ∧ d'.pc = .done (some e) true)
      (fun _ _ hR => hR.symm) (fun j k d d' hj hk hR => h.created j k d d' e hj hk hR.1 hR.2)
      (fun k d' _ hd' hR => ?_) hj hk ⟨hd, hd'⟩
    exact hcreated e hR.1 _ ((h.call k d' hd').mem_of_done hR.2).1

/-- The table stays as it is. -/
theorem update_call {o : Option Call} (hi : s.call i = o)
    (hsame : ∀ c ∈ o, c'.key = c.key ∧ c'.op = c.op ∧ ∀ r b, c.pc ≠ .done r b)
    (hlen : c'.key.length = len) (hok : PcOk cfg s C c') (hclaims : ¬Claims c')
    (hrows : ∀ a, c'.row = some a → ∃ c ∈ o, c.row = some a)
    (hcreated : ∀ e, c'.pc ≠ .done (some e) true) :
    Keeps cfg len s { s with call := Function.update s.call i (some c') } C C :=
  h.update hi rfl hsame ⟨h.parted, h.bucket, h.chain, h.keys, h.used⟩
    ⟨fun _ => prefix_rfl, fun _ _ _ => rfl, fun _ hb => hb⟩ (fun _ _ _ _ _ => ⟨rfl, rfl⟩)
    (fun _ _ _ hr => ⟨hr.used, hr.notLinked, hr.next_eq, hr.key_eq⟩) hlen hok
    (fun hc => absurd hc hclaims) (fun a ha => .inl (hrows a ha)) (fun _ _ he => .inl he)
    (fun e he => absurd he (hcreated e))

theorem goto (hi : s.call i = some c) (hpc : ∀ r b, c.pc ≠ .done r b) (pc : Pc)
    (hok : PcOk cfg s C { c with pc }) (hclaims : pc ≠ .fill ∧ pc ≠ .publish := by simp)
    (hcreated : ∀ e, pc ≠ .done (some e) true := by simp) : Keeps cfg len s (s.goto i c pc) C C :=
  h.update_call hi (by simpa using hpc) (h.call i c hi).length_eq hok (not_or.2 hclaims)
    (fun _ ha => ⟨c, rfl, ha⟩) hcreated

/-- A bucket that is not published has no entries, and is in no chain. -/
theorem first_notMem
    (hk : s.next (cfg.first k) = .uninitialized ∨ s.next (cfg.first k) = .initializing) :
    C (cfg.idx k) = [] ∧ ∀ b, ∀ e ∈ C b, e ≠ cfg.first k := by
  have hnil := (h.chain (cfg.idx k)).eq_nil hk
  refine ⟨hnil, ?_⟩
  rintro b e he rfl
  rw [h.bucket b _ he] at hnil
  rw [hnil] at he
  cases he

/-! ## The steps that write -/

section

variable (hi : s.call i = some c)

include hi

/-- The compare-and-swap that claims the bucket. -/
theorem claim (hc : c.pc = .claim) (hun : s.next (cfg.first c.key) = .uninitialized) :
    Keeps cfg len s { s.goto i c .fill with
      next := Function.update s.next (cfg.first c.key) .initializing } C C := by
  have hok := h.call i c hi
  have hop : c.op = .searchOrCreate := hok.pcOk hc
  obtain ⟨hnil, hne⟩ := h.first_notMem (.inl hun)
  refine h.update hi rfl (by simp [hc]) ⟨h.parted, h.bucket, fun b => ?_, h.keys, h.used⟩
    ⟨fun _ => prefix_rfl, fun _ _ _ => rfl, fun b hb => ?_⟩ (fun j d _ hj hd => ?_)
    (fun x a _ hr => ?_) hok.length_eq ⟨hop, update_self ..⟩ (fun _ => .inr hun)
    (fun _ ha => .inl ⟨c, rfl, ha⟩) (fun _ _ he => .inl he) (by simp)
  · rcases eq_or_ne b (cfg.idx c.key) with rfl | hb
    · exact .inl ⟨hnil, .inr (update_self ..)⟩
    · exact (h.chain b).congr (update_of_ne (by simpa [Config.first] using hb) _ _)
        fun e he => update_of_ne (hne b e he) _ _
  · dsimp only
    rcases eq_or_ne (Entry.bucket b) (cfg.first c.key) with he | he
    · rw [he, update_self]
      simp
    · rwa [update_of_ne he]
  · refine ⟨update_of_ne (fun he => ?_) _ _, rfl⟩
    have hinit := (h.call j d hj).initializing hd
    rw [he, hun] at hinit
    cases hinit
  · exact hr.congr hr.used hr.notLinked (cfg.update_first_row s.next c.key .initializing a) rfl

theorem fill (hc : c.pc = .fill) :
    Keeps cfg len s { s.goto i c .publish with
      key := Function.update s.key (cfg.first c.key) (convert c.key) } C C := by
  have hok := h.call i c hi
  obtain ⟨hop, hinit⟩ := hok.pcOk hc
  obtain ⟨hnil, hne⟩ := h.first_notMem (.inr hinit)
  have hkey : ∀ b, ∀ e ∈ C b, Function.update s.key (cfg.first c.key) (convert c.key) e = s.key e :=
    fun b e he => update_of_ne (hne b e he) _ _
  refine h.update hi rfl (by simp [hc])
    ⟨h.parted, h.bucket, h.chain, fun b e he e' he' heq => ?_, h.used⟩
    ⟨fun _ => prefix_rfl, hkey, fun _ hb => hb⟩ (fun j d hji hj hd => ?_)
    (fun x a _ hr => ?_) hok.length_eq ⟨hop, hinit, update_self ..⟩
    (fun _ => .inl ⟨c, rfl, .inl hc⟩) (fun _ ha => .inl ⟨c, rfl, ha⟩) (fun _ _ he => .inl he)
    (by simp)
  · dsimp only at heq
    rw [hkey b e he, hkey b e' he'] at heq
    exact h.keys b e he e' he' heq
  · refine ⟨rfl, update_of_ne (fun he => hji ?_) _ _⟩
    exact h.claims j i d c hj hi hd (.inl hc) (by simpa [Config.first] using he)
  · exact hr.congr hr.used hr.notLinked rfl (cfg.update_first_row s.key c.key (convert c.key) a)

/-- The call links an entry at the end of the chain, where it writes the word of `p`, and returns
the entry. When this is its row, it gives the row away. -/
theorem concat (hop : c.op = .searchOrCreate) (hpc : ∀ r b, c.pc ≠ .done r b) {v : Next}
    {row : Option ℕ} (hp : p = cfg.first c.key ∨ p ∈ C (cfg.idx c.key))
    (hnot : ∀ b, e ∉ C b) (hb : ∀ b, e = .bucket b → b = cfg.idx c.key)
    (hx : s.key e = convert c.key) (hnew : ∀ d ∈ C (cfg.idx c.key), s.key d ≠ convert c.key)
    (hchain : ∀ t : Table, t.next = Function.update s.next p v →
      t.ChainOk (cfg.idx c.key) (C (cfg.idx c.key) ++ [e]))
    (hclaim : ∀ j d, j ≠ i → s.call j = some d → Claims d → cfg.first d.key ≠ p)
    (hgive : ∀ a, e = .row a → c.row = some a ∧ row = none)
    (hrow : ∀ a, row = some a → c.row = some a) (hv : v ≠ .uninitialized) :
    Keeps cfg len s { s.goto i { c with row } (.done (some e) true) with
        next := Function.update s.next p v }
      C (Function.update C (cfg.idx c.key) (C (cfg.idx c.key) ++ [e])) := by
  have hmem : ∀ {b d}, d ∈ Function.update C (cfg.idx c.key) (C (cfg.idx c.key) ++ [e]) b →
      d ∈ C b ∨ b = cfg.idx c.key ∧ d = e := mem_concat.1
  have hpb : ∀ b, Entry.bucket b = p ∨ p ∈ C b → b = cfg.idx c.key := by
    rintro b (rfl | hpb)
    · exact hp.elim (by simp [Config.first]) (h.bucket _ b)
    · rcases hp with rfl | hp
      · exact (h.bucket b _ hpb).symm
      · exact h.parted.eq_of_mem b _ p hpb hp
  refine h.update hi rfl (by simpa using hpc)
    ⟨h.parted.concat hnot, fun b b' hbb => ?_, fun b => ?_, fun b d hd d' hd' heq => ?_,
      fun b a ha => ?_⟩
    ⟨fun b => prefix_concat b, fun _ _ _ => rfl, fun b hne => ?_⟩
    (fun j d hji hj hd => ⟨update_of_ne (hclaim j d hji hj hd) _ _, rfl⟩) (fun x a hkeep hr => ?_)
    (h.call i c hi).length_eq ⟨by simp, by simp [hop], fun d hd => ?_⟩
    (fun hcl => hcl.elim nofun nofun) (fun a ha => .inl ⟨c, rfl, hrow a ha⟩) (fun b d hd => ?_)
    (fun d hd => ?_)
  · rcases hmem hbb with hbb | ⟨rfl, he⟩
    · exact h.bucket b b' hbb
    · exact hb b' he.symm
  · rcases eq_or_ne b (cfg.idx c.key) with rfl | hne
    · rw [update_self]
      exact hchain _ rfl
    · rw [update_of_ne hne]
      exact (h.chain b).congr (update_of_ne (fun he => hne (hpb b (.inl he))) _ _) fun d hd =>
        update_of_ne (fun he : d = p => hne (hpb b (.inr (he ▸ hd)))) _ _
  · rcases hmem hd with h₁ | ⟨rfl, rfl⟩ <;> rcases hmem hd' with h₂ | ⟨hb', rfl⟩
    · exact h.keys b d h₁ d' h₂ heq
    · exact absurd (heq.trans hx) (hnew d (hb' ▸ h₁))
    · exact absurd (heq.symm.trans hx) (hnew d' h₂)
    · rfl
  · rcases hmem ha with ha | ⟨-, he⟩
    · exact h.used b a ha
    · exact ((h.call i c hi).row a (hgive a he.symm).1).2.used
  · rcases eq_or_ne (Entry.bucket b) p with rfl | he
    · exact (update_self ..).trans_ne hv
    · exact (update_of_ne he ..).trans_ne hne
  · refine hr.congr hr.used (fun b ha => ?_) (update_of_ne (fun he => ?_) _ _) rfl
    · rcases hmem ha with ha | ⟨-, he⟩
      · exact hr.notLinked b ha
      · obtain ⟨hca, rfl⟩ := hgive a he.symm
        cases hkeep c rfl hca
    · exact hp.elim (fun hp => by cases he.trans hp) fun hp => hr.notLinked _ (he ▸ hp)
  · cases hd
    exact ⟨mem_concat.2 (.inr ⟨rfl, rfl⟩), hx⟩
  · rcases hmem hd with hold | ⟨rfl, rfl⟩
    · exact .inl hold
    · exact .inr ⟨_, update_self .., hop, rfl, rfl, hx⟩
  · cases hd
    exact hnot

/-- The bucket is published, with the entry of the call. -/
theorem publish (hc : c.pc = .publish) :
    Keeps cfg len s { s.goto i c (.done (some (cfg.first c.key)) true) with
        next := Function.update s.next (cfg.first c.key) .last }
      C (Function.update C (cfg.idx c.key) (C (cfg.idx c.key) ++ [cfg.first c.key])) := by
  obtain ⟨(hop : c.op = .searchOrCreate), hinit, hx⟩ := (h.call i c hi).pcOk hc
  obtain ⟨hnil, hne⟩ := h.first_notMem (.inr hinit)
  refine h.concat hi hop (by simp [hc]) (.inl rfl) (fun b he => hne b _ he rfl)
    (by simp [Config.first]) hx (by simp [hnil]) (fun t ht => ?_) (fun j d hji hj hd he => hji ?_)
    nofun (fun _ ha => ha) nofun
  · rw [hnil]
    refine .inr ⟨⟨[], rfl⟩, ?_⟩
    rw [ht]
    exact update_self ..
  · exact h.claims j i d c hj hi hd (.inr hc) (by simpa [Config.first] using he)

theorem newRow (hc : c.pc = .newRow p) (ha : a ∉ s.used) :
    Keeps cfg len s { s.goto i { c with row := some a } (.link p) with
      used := a :: s.used
      key := Function.update s.key (.row a) (convert c.key)
      next := Function.update s.next (.row a) .last } C C := by
  have hok := h.call i c hi
  obtain ⟨hop, -, hpassed⟩ := hok.pcOk hc
  have hnot : ∀ b, .row a ∉ C b := fun b hb => ha (h.used b a hb)
  have hne : ∀ b, ∀ e ∈ C b, e ≠ .row a := fun b e he heq => hnot b (heq ▸ he)
  have hkey : ∀ b, ∀ e ∈ C b, Function.update s.key (.row a) (convert c.key) e = s.key e :=
    fun b e he => update_of_ne (hne b e he) _ _
  refine h.update hi rfl (by simp [hc])
    ⟨h.parted, h.bucket, fun b => ?_, fun b e he e' he' heq => ?_, fun b a' ha' => ?_⟩
    ⟨fun _ => prefix_rfl, hkey, fun b hb => ?_⟩ (fun j d _ _ _ => ?_) (fun x a' _ hr => ?_)
    hok.length_eq ⟨hop, by simp, hpassed.mono prefix_rfl (hkey _)⟩
    (fun hcl => hcl.elim nofun nofun) (fun a' ha' => ?_) (fun _ _ he => .inl he) (by simp)
  · have hne' : Entry.bucket b ≠ .row a := nofun
    exact (h.chain b).congr (update_of_ne hne' .last s.next) fun e he =>
      update_of_ne (hne b e he) _ _
  · dsimp only at heq
    rw [hkey b e he, hkey b e' he'] at heq
    exact h.keys b e he e' he' heq
  · exact mem_cons_of_mem a (h.used b a' ha')
  · dsimp only
    rwa [update_of_ne (by simp)]
  · exact ⟨cfg.update_row_first s.next a .last d.key,
      cfg.update_row_first s.key a (convert c.key) d.key⟩
  · have hne' : Entry.row a' ≠ .row a := by
      rintro ⟨⟩
      exact ha hr.used
    exact hr.congr (mem_cons_of_mem a hr.used) hr.notLinked (update_of_ne hne' _ _)
      (update_of_ne hne' _ _)
  · cases ha'
    exact .inr ⟨ha, hop, mem_cons_self, hnot, update_self .., update_self ..⟩

/-- The compare-and-swap that links the row of the call. -/
theorem link (hc : c.pc = .link p) (hrow : c.row = some a) (hlast : s.next p = .last) :
    Keeps cfg len s { s.goto i { c with row := none } (.done (some (.row a)) true) with
        next := Function.update s.next p (.entry (.row a)) }
      C (Function.update C (cfg.idx c.key) (C (cfg.idx c.key) ++ [.row a])) := by
  have hok := h.call i c hi
  obtain ⟨(hop : c.op = .searchOrCreate), -, l, r, hl, hp, hpre⟩ := hok.pcOk hc
  have hr := (hok.row a hrow).2
  have hend : C (cfg.idx c.key) = l ++ [p] := by
    have hnext := (hl ▸ h.chain (cfg.idx c.key)).next_eq
    cases r with
    | nil => exact hl
    | cons e r =>
      rw [hlast] at hnext
      cases hnext
  have hpmem : p ∈ C (cfg.idx c.key) := by simp [hend]
  have hpl : p ∉ l := by
    have hnodup := h.parted.nodup (cfg.idx c.key)
    rw [hend, nodup_append] at hnodup
    exact fun hp => hnodup.2.2 p hp p mem_cons_self rfl
  have hrp : .row a ≠ p := fun he => hr.notLinked _ (he ▸ hpmem)
  have hnew : ∀ e ∈ C (cfg.idx c.key), s.key e ≠ convert c.key := by
    intro e he
    rw [hend, mem_append, mem_singleton] at he
    rcases he with he | rfl
    · exact hpre e he
    · exact hp
  refine h.concat hi hop (by simp [hc]) (.inr hpmem) hr.notLinked nofun hr.key_eq hnew
    (fun t ht => ?_) (fun j d _ hj hd he => ?_) (fun a' ha' => ?_) nofun nofun
  · rw [hend]
    rcases hend ▸ h.chain (cfg.idx c.key) with ⟨hnil, -⟩ | ⟨⟨r', hr'⟩, hlinks⟩
    · simp at hnil
    · refine .inr ⟨⟨r' ++ [.row a], by rw [hr', cons_append]⟩, ?_⟩
      rw [ht]
      exact hlinks.concat hpl hr.next_eq hrp
  · have hinit := (h.call j d hj).initializing hd
    rw [he, hlast] at hinit
    cases hinit
  · cases ha'
    exact ⟨hrow, rfl⟩

/-- The key has been found, and the row that the call has made is deleted. -/
theorem found (hc : c.pc = .compare p) (hx : s.key p = convert c.key) :
    Keeps cfg len s { s.goto i { c with row := none } (.done (some p) false) with
      used := c.row.elim s.used s.used.erase } C C := by
  have hok := h.call i c hi
  have hp : p ∈ C (cfg.idx c.key) := by
    obtain ⟨l, r, hl, -⟩ := hok.pcOk hc
    simp [show C (cfg.idx c.key) = _ from hl]
  have hkept : ∀ a, (∀ a', c.row = some a' → a ≠ a') → a ∈ s.used →
      a ∈ c.row.elim s.used s.used.erase := by
    intro a hne hused
    cases hrow : c.row with
    | none => exact hused
    | some a' => exact (mem_erase_of_ne (hne a' hrow)).2 hused
  refine h.update hi rfl (by simp [hc])
    ⟨h.parted, h.bucket, h.chain, h.keys,
      fun b a ha => hkept a (fun a' ha' he => ?_) (h.used b a ha)⟩
    ⟨fun _ => prefix_rfl, fun _ _ _ => rfl, fun _ hb => hb⟩ (fun _ _ _ _ _ => ⟨rfl, rfl⟩)
    (fun x a hgive hr => ?_) hok.length_eq ⟨by simp, by simp, fun e he => ?_⟩
    (fun hcl => hcl.elim nofun nofun) nofun (fun _ _ he => .inl he) (by simp)
  · exact (hok.row a' ha').2.notLinked b (he ▸ ha)
  · refine hr.congr (hkept a (fun a' ha' he => ?_) hr.used) hr.notLinked rfl rfl
    cases hgive c rfl (he ▸ ha')
  · cases he
    exact ⟨hp, hx⟩

end

/-! ## Runs -/

/-- A call that has compared its key with `p` and finds `e` behind it. -/
theorem compare_next (hpass : s.Passed (C b) x p) (hnext : s.next p = .entry e) :
    ∃ l r, C b = l ++ e :: r ∧ ∀ d ∈ l, s.key d ≠ x := by
  obtain ⟨l, r, hl, hp, hpre⟩ := hpass
  have heq := (hl ▸ h.chain b).next_eq
  rw [hnext] at heq
  cases r with
  | nil => cases heq
  | cons e' r =>
    cases heq
    refine ⟨l ++ [p], r, by simp [hl], fun d hd => ?_⟩
    rcases mem_append.1 hd with hd | hd
    · exact hpre d hd
    · exact mem_singleton.1 hd ▸ hp

theorem next_of_passed (hpass : s.Passed (C b) x p) :
    s.next p = .last ∨ ∃ e, s.next p = .entry e := by
  obtain ⟨l, r, hl, -⟩ := hpass
  have heq := (hl ▸ h.chain b).next_eq
  cases r with
  | nil => exact .inl heq
  | cons e r => exact .inr ⟨e, heq⟩

/-- Every step of a call keeps the invariant. -/
theorem advance (hi : s.call i = some c) (hadv : s.advance cfg i c a = some s') :
    ∃ C', Keeps cfg len s s' C C' := by
  have hok := h.call i c hi
  unfold Table.advance at hadv
  cases hc : c.pc with
  | check =>
    simp only [hc] at hadv
    split_ifs at hadv with hun
    · cases hop : c.op with
      | searchOrCreate =>
        simp only [hop, Option.some.injEq] at hadv
        exact ⟨C, hadv ▸ h.goto hi (by simp [hc]) .claim hop⟩
      | search =>
        simp only [hop, Option.some.injEq] at hadv
        exact ⟨C, hadv ▸ h.goto hi (by simp [hc]) (.done none false)
          ⟨by simp [hop], by simp, by simp⟩⟩
    · cases hadv
      exact ⟨C, h.goto hi (by simp [hc]) .spin hun⟩
  | claim =>
    simp only [hc] at hadv
    split_ifs at hadv with hun
    · cases hadv
      exact ⟨C, h.claim hi hc hun⟩
    · cases hadv
      exact ⟨C, h.goto hi (by simp [hc]) .spin hun⟩
  | fill =>
    simp only [hc, Option.some.injEq] at hadv
    exact ⟨C, hadv ▸ h.fill hi hc⟩
  | publish =>
    simp only [hc, Option.some.injEq] at hadv
    exact ⟨_, hadv ▸ h.publish hi hc⟩
  | spin =>
    have hun : s.next (cfg.first c.key) ≠ .uninitialized := hok.pcOk hc
    simp only [hc] at hadv
    split_ifs at hadv with hinit
    · cases hadv
      exact ⟨C, h, fun _ => prefix_rfl, fun _ _ _ => rfl, fun _ hb => hb⟩
    · cases hadv
      obtain ⟨r, hr⟩ := (h.chain (cfg.idx c.key)).exists_cons hun hinit
      exact ⟨C, h.goto hi (by simp [hc]) (.compare _) ⟨[], r, hr, by simp⟩⟩
  | compare p =>
    obtain ⟨l, r, hl, hpre⟩ : ∃ l r, C (cfg.idx c.key) = l ++ p :: r ∧
        ∀ e ∈ l, s.key e ≠ convert c.key := hok.pcOk hc
    simp only [hc] at hadv
    split_ifs at hadv with hx
    · cases hadv
      exact ⟨C, h.found hi hc hx⟩
    · cases hadv
      exact ⟨C, h.goto hi (by simp [hc]) (.load p) ⟨l, r, hl, hx, hpre⟩⟩
  | load p =>
    have hpass : s.Passed (C (cfg.idx c.key)) (convert c.key) p := hok.pcOk hc
    simp only [hc] at hadv
    rcases h.next_of_passed hpass with hlast | ⟨e, he⟩
    · simp only [hlast] at hadv
      cases hop : c.op with
      | searchOrCreate =>
        simp only [hop] at hadv
        split_ifs at hadv with hrow
        · cases hadv
          exact ⟨C, h.goto hi (by simp [hc]) (.newRow p) ⟨hop, hrow, hpass⟩⟩
        · cases hadv
          exact ⟨C, h.goto hi (by simp [hc]) (.link p) ⟨hop, hrow, hpass⟩⟩
      | search =>
        simp only [hop, Option.some.injEq] at hadv
        exact ⟨C, hadv ▸ h.goto hi (by simp [hc]) (.done none false)
          ⟨by simp [hop], by simp, by simp⟩⟩
    · simp only [he, Option.some.injEq] at hadv
      exact ⟨C, hadv ▸ h.goto hi (by simp [hc]) (.compare e) (h.compare_next hpass he)⟩
  | newRow p =>
    simp only [hc] at hadv
    split_ifs at hadv with ha
    cases hadv
    exact ⟨C, h.newRow hi hc ha⟩
  | link p =>
    obtain ⟨-, hrow, hpass⟩ : c.op = .searchOrCreate ∧ c.row ≠ none ∧
        s.Passed (C (cfg.idx c.key)) (convert c.key) p := hok.pcOk hc
    obtain ⟨a', ha'⟩ := ne_none_iff_exists'.1 hrow
    simp only [hc, ha'] at hadv
    rcases h.next_of_passed hpass with hlast | ⟨e, he⟩
    · simp only [hlast, Option.some.injEq] at hadv
      exact ⟨_, hadv ▸ h.link hi hc ha' hlast⟩
    · simp only [he, Option.some.injEq] at hadv
      exact ⟨C, hadv ▸ h.goto hi (by simp [hc]) (.compare e) (h.compare_next hpass he)⟩
  | done row created => simp [hc] at hadv
  | fault => simp [hc] at hadv

theorem start (hi : s.call i = none) {op : Op} (hk : k.length = len) :
    Keeps cfg len s { s with
      call := Function.update s.call i (some { op, key := k, row := none, pc := .check }) } C C :=
  h.update_call hi nofun hk trivial (not_or.2 ⟨nofun, nofun⟩) nofun nofun

theorem step {ev : Event} (hstep : s.step cfg len ev = some s') :
    ∃ C', Keeps cfg len s s' C C' := by
  cases ev with
  | start i op k =>
    rw [Table.step] at hstep
    split_ifs at hstep with hpos
    cases hstep
    exact ⟨C, h.start hpos.1 hpos.2⟩
  | advance i addr =>
    obtain ⟨c, hi, hadv⟩ := bind_eq_some_iff.1 hstep
    exact h.advance hi hadv

end

theorem init : Inv cfg len Table.init fun _ => [] where
  parted := .nil
  bucket := by simp
  chain := fun _ => .inl ⟨rfl, .inl rfl⟩
  keys := by simp
  used := by simp
  call := fun i c hi => by simp [Table.init] at hi
  claims := fun i j c d hi => by simp [Table.init] at hi
  rows := fun i j c d a hi => by simp [Table.init] at hi
  linked := by simp
  created := fun i j c d e hi => by simp [Table.init] at hi

variable (h : Inv cfg len s C)

include h

theorem run {es : List Event} (hrun : Runs.run (Table.step cfg len) s es = some s') :
    ∃ C', Keeps cfg len s s' C C' := by
  refine run_induction (I := fun t => ∃ C', Keeps cfg len s t C C') (fun t ev u hI hstep => ?_)
    ⟨C, h, fun _ => prefix_rfl, fun _ _ _ => rfl, fun _ hb => hb⟩ hrun
  obtain ⟨C₁, hinv, hgrow⟩ := hI
  obtain ⟨C₂, hinv', hgrow'⟩ := hinv.step hstep
  refine ⟨C₂, hinv', fun b => (hgrow.chains b).trans (hgrow'.chains b), fun b e he => ?_,
    fun b hb => hgrow'.init b (hgrow.init b hb)⟩
  rw [hgrow'.key_eq b e ((hgrow.chains b).subset he), hgrow.key_eq b e he]

/-! ## What the calls return -/

theorem reach_of_mem (he : e ∈ C b) : s.Reach b e := by
  rcases h.chain b with ⟨hnil, -⟩ | ⟨⟨r, hr⟩, hlinks⟩
  · rw [hnil] at he
    cases he
  · rw [hr] at he hlinks
    exact hlinks.reach he

theorem mem_of_reach (he : s.Reach b e) : e = .bucket b ∨ e ∈ C b := by
  induction he with
  | refl => exact .inl rfl
  | @tail p q _ hnext ih =>
    have hp : p ∈ C b := by
      rcases ih with rfl | hp
      · obtain ⟨r, hr⟩ := (h.chain b).exists_cons (by simp [hnext]) (by simp [hnext])
        simp [hr]
      · exact hp
    obtain ⟨l, r, hl⟩ := append_of_mem hp
    have heq := (hl ▸ h.chain b).next_eq
    rw [hnext] at heq
    cases r with
    | nil => cases heq
    | cons q' r =>
      cases heq
      exact .inr (by simp [hl])

theorem created_spec {cr : Bool} (hc : s.Created i k r cr) :
    k.length = len ∧ ∃ e, r = some e ∧ e ∈ C (cfg.idx k) ∧ s.key e = convert k := by
  obtain ⟨c, hi, hop, rfl, hpc⟩ := hc
  have hok : PcOk cfg s C { c with pc := .done r cr } := (h.call i c hi).pcOk hpc
  obtain ⟨e, rfl⟩ := ne_none_iff_exists'.1 (hok.1 hop)
  exact ⟨(h.call i c hi).length_eq, e, rfl, hok.2.2 e rfl⟩

/-- What is in the chain of a key has been created by one call. -/
theorem exists_created (hlen : len ≤ 16) (hk : k.length = len) (he : e ∈ C b)
    (hx : s.key e = convert k) : ∃ i, s.Created i k (some e) true := by
  obtain ⟨i, c, hi, hop, hpc, -, hkey⟩ := h.linked b e he
  have hck : c.key = k :=
    convert_injective hlen (h.call i c hi).length_eq hk (hkey.symm.trans hx)
  exact ⟨i, c, hi, hop, hck, hpc⟩

theorem created_unique {r r' : Option Entry} {j : ℕ} {cr cr' : Bool} (hc : s.Created i k r cr)
    (hc' : s.Created j k r' cr') : r = r' := by
  obtain ⟨-, e, rfl, he, hx⟩ := h.created_spec hc
  obtain ⟨-, e', rfl, he', hx'⟩ := h.created_spec hc'
  rw [h.keys _ e he e' he' (hx.trans hx'.symm)]

theorem creator_unique {r r' : Option Entry} {j : ℕ} (hc : s.Created i k r true)
    (hc' : s.Created j k r' true) : i = j := by
  have heq := h.created_unique hc hc'
  obtain ⟨-, e, rfl, -⟩ := h.created_spec hc
  obtain ⟨c, hi, -, -, hpc⟩ := hc
  obtain ⟨c', hj, -, -, hpc'⟩ := hc'
  exact h.created i j c c' e hi hj hpc (by rw [hpc', ← heq])

/-- A row is only deleted when it is not linked. -/
theorem not_reach_of_deleted {ev : Event} (hstep : s.step cfg len ev = some s')
    (ha' : a ∉ s'.used) : ¬s.Reach b (.row a) := by
  intro hreach
  have hmem : .row a ∈ C b := (h.mem_of_reach hreach).resolve_left nofun
  obtain ⟨C', hinv, hgrow⟩ := h.step hstep
  exact ha' (hinv.used b a ((hgrow.chains b).subset hmem))

/-- A `Search` for a key that is in its chain returns the entry with this key. -/
theorem search_done (hi : s.call i = some c) (hop : c.op = .search) (he : e ∈ C (cfg.idx c.key))
    (hx : s.key e = convert c.key) (hadv : s.advance cfg i c a = some s')
    (hi' : s'.call i = some c') {cr : Bool} (hpc : c'.pc = .done r cr) : r = some e := by
  have hne : c.op ≠ .searchOrCreate := by simp [hop]
  have hgoto : ∀ pc, s' = s.goto i c pc → c'.pc = pc := by
    rintro pc rfl
    have hi' : Function.update s.call i (some { c with pc }) i = some c' := hi'
    rw [update_self] at hi'
    cases hi'
    rfl
  unfold Table.advance at hadv
  cases hc : c.pc with
  | check =>
    simp only [hc, hop] at hadv
    split_ifs at hadv with hun
    · -- the chain would be empty
      rw [(h.chain _).eq_nil (.inl hun)] at he
      cases he
    · cases (hgoto .spin (some.inj hadv).symm).symm.trans hpc
  | claim => exact absurd ((h.call i c hi).pcOk hc) hne
  | fill => exact absurd ((h.call i c hi).pcOk hc).1 hne
  | publish => exact absurd ((h.call i c hi).pcOk hc).1 hne
  | spin =>
    simp only [hc] at hadv
    split_ifs at hadv
    · cases hadv
      rw [hi] at hi'
      cases hi'
      simp [hc] at hpc
    · cases (hgoto (.compare _) (some.inj hadv).symm).symm.trans hpc
  | compare p =>
    obtain ⟨l, r', hl, -⟩ : ∃ l r, C (cfg.idx c.key) = l ++ p :: r ∧
        ∀ e ∈ l, s.key e ≠ convert c.key := (h.call i c hi).pcOk hc
    simp only [hc] at hadv
    split_ifs at hadv with hp
    · cases hadv
      have hi' : Function.update s.call i
        (some { c with row := none, pc := .done (some p) false }) i =
        some c' := hi'
      rw [update_self] at hi'
      cases hi'
      cases hpc
      rw [h.keys _ p (by simp [hl]) e he (hp.trans hx.symm)]
    · cases (hgoto (.load p) (some.inj hadv).symm).symm.trans hpc
  | load p =>
    have hpass : s.Passed (C (cfg.idx c.key)) (convert c.key) p := (h.call i c hi).pcOk hc
    simp only [hc, hop] at hadv
    rcases h.next_of_passed hpass with hlast | ⟨d, hd⟩
    · -- the call would have passed all entries of the chain
      obtain ⟨l, r', hl, hp, hpre⟩ := hpass
      have heq := (hl ▸ h.chain (cfg.idx c.key)).next_eq
      rw [hlast] at heq
      cases r' with
      | cons => cases heq
      | nil =>
        rw [hl, mem_append, mem_singleton] at he
        rcases he with he | rfl
        · exact absurd hx (hpre e he)
        · exact absurd hx hp
    · simp only [hd] at hadv
      cases (hgoto (.compare d) (some.inj hadv).symm).symm.trans hpc
  | newRow p => exact absurd ((h.call i c hi).pcOk hc).1 hne
  | link p => exact absurd ((h.call i c hi).pcOk hc).1 hne
  | done row created => simp [hc] at hadv
  | fault => simp [hc] at hadv

end Inv

/-- A step of a call changes nothing about the other calls, and not what the call is for. -/
theorem advance_call (hadv : s.advance cfg i c a = some s') :
    s' = s ∨ ∃ c', s'.call = Function.update s.call i (some c') ∧ c'.op = c.op ∧
    c'.key = c.key := by
  unfold advance at hadv
  cases hc : c.pc <;> simp only [hc] at hadv <;> (repeat' split at hadv) <;> cases hadv <;>
    first | exact .inl rfl | exact .inr ⟨_, rfl, rfl, rfl⟩

namespace Inv

/-- A `Search` that has not returned when the key is in its chain returns the entry. -/
theorem found_step (h : Inv cfg len s C) {j : ℕ} (he : e ∈ C (cfg.idx k)) (hx : s.key e = convert k)
    (hold : ∀ r, s.Found j k r → r = some e) {ev : Event} (hstep : s.step cfg len ev = some s') :
    ∀ r, s'.Found j k r → r = some e := by
  rintro r ⟨c', cr, hj', hop, hk, hpc⟩
  have hsame : s'.call j = s.call j → r = some e := fun heq =>
    hold r ⟨c', cr, heq ▸ hj', hop, hk, hpc⟩
  cases ev with
  | start i op key =>
    rw [Table.step] at hstep
    split_ifs at hstep
    cases hstep
    rcases eq_or_ne j i with rfl | hji
    · have hj' : Function.update s.call j (some { op, key, row := none, pc := Pc.check }) j =
        some c' := hj'
      rw [update_self] at hj'
      cases hj'
      cases hpc
    · exact hsame (update_of_ne hji _ _)
  | advance i addr =>
    obtain ⟨c, hi, hadv⟩ := bind_eq_some_iff.1 hstep
    rcases advance_call hadv with rfl | ⟨d, hcall, hopd, hkd⟩
    · exact hsame rfl
    · rcases eq_or_ne j i with rfl | hji
      · have hd : s'.call j = some d := by rw [hcall, update_self]
        rw [hd] at hj'
        cases hj'
        subst hk
        rw [hkd] at he hx
        exact h.search_done hi (hopd.symm.trans hop) he hx hadv hd hpc
      · exact hsame (by rw [hcall, update_of_ne hji])

theorem found_run (h : Inv cfg len s C) {j : ℕ} (he : e ∈ C (cfg.idx k)) (hx : s.key e = convert k)
    (hj : s.call j = none) {es : List Event} (hrun : Runs.run (Table.step cfg len) s es = some s')
    (hfound : s'.Found j k r) : r = some e := by
  have hI := run_induction
    (I := fun t => (∃ C', Inv cfg len t C' ∧ e ∈ C' (cfg.idx k) ∧ t.key e = convert k) ∧
      ∀ r, t.Found j k r → r = some e)
    (fun t ev u hI hstep => ?_) ⟨⟨C, h, he, hx⟩, fun r hr => ?_⟩ hrun
  · exact hI.2 r hfound
  · obtain ⟨⟨C₁, hinv, he, hx⟩, hold⟩ := hI
    obtain ⟨C₂, hinv', hgrow⟩ := hinv.step hstep
    exact ⟨⟨C₂, hinv', (hgrow.chains _).subset he, (hgrow.key_eq _ e he).trans hx⟩,
      hinv.found_step he hx hold hstep⟩
  · obtain ⟨c, cr, hc, -⟩ := hr
    rw [hj] at hc
    cases hc

end Inv

/-- What holds of the index in every state of a run. -/
structure OneRow (cfg : Config) (len : ℕ) (s : Table) : Prop where
  /-- Once a `SearchOrCreate` for a key has returned, exactly one has reported the creation. -/
  creator : ∀ i k r cr, s.Created i k r cr → ∃! j, ∃ r', s.Created j k r' true
  /-- All calls for a key return the same row. -/
  same : ∀ i j k r r' cr cr', s.Created i k r cr → s.Created j k r' cr' → r = r' ∧ r ≠ none
  /-- Different keys get different rows. -/
  distinct : ∀ i j k k' r cr cr', s.Created i k r cr → s.Created j k' r cr' → k = k'
  /-- A `Search` finds nothing but rows that have been created for the key. -/
  search : ∀ j k e, s.Found j k (some e) → ∃ i, s.Created i k (some e) true
  /-- A `Search` that starts when a `SearchOrCreate` has returned finds its row. -/
  finds : ∀ i j k r cr, s.Created i k r cr → s.call j = none → ∀ es s',
    run (step cfg len) s es = some s' → ∀ r', s'.Found j k r' → r' = r
  /-- Entries stay reachable. -/
  reach : ∀ b e, s.Reach b e → ∀ es s', run (step cfg len) s es = some s' → s'.Reach b e
  /-- No linked row is deleted. -/
  kept : ∀ ev s', step cfg len s ev = some s' → ∀ a ∈ s.used, a ∉ s'.used → ∀ b, ¬s.Reach b (.row a)
  /-- No call follows a word that is not a pointer. -/
  safe : ∀ i c, s.call i = some c → c.pc ≠ .fault

theorem Inv.oneRow (h : Inv cfg len s C) (hlen : len ≤ 16) : OneRow cfg len s where
  creator := fun i k r cr hc => by
    obtain ⟨hk, e, rfl, he, hx⟩ := h.created_spec hc
    obtain ⟨j, hj⟩ := h.exists_created hlen hk he hx
    refine ⟨j, ⟨_, hj⟩, ?_⟩
    rintro j' ⟨r', hj'⟩
    exact h.creator_unique hj' hj
  same := fun i j k r r' cr cr' hc hc' => by
    refine ⟨h.created_unique hc hc', ?_⟩
    obtain ⟨-, e, rfl, -⟩ := h.created_spec hc
    simp
  distinct := fun i j k k' r cr cr' hc hc' => by
    obtain ⟨hk, e, rfl, -, hx⟩ := h.created_spec hc
    obtain ⟨hk', e', heq, -, hx'⟩ := h.created_spec hc'
    cases heq
    exact convert_injective hlen hk hk' (hx.symm.trans hx')
  search := fun j k e hf => by
    obtain ⟨c, cr, hj, -, rfl, hpc⟩ := hf
    obtain ⟨he, hx⟩ := (h.call j c hj).mem_of_done hpc
    exact h.exists_created hlen (h.call j c hj).length_eq he hx
  finds := fun i j k r cr hc hj es s' hrun r' hf => by
    obtain ⟨-, e, rfl, he, hx⟩ := h.created_spec hc
    exact h.found_run he hx hj hrun hf
  reach := fun b e he es s' hrun => by
    obtain ⟨C', hinv, hgrow⟩ := h.run hrun
    rcases h.mem_of_reach he with rfl | he
    · exact .refl
    · exact hinv.reach_of_mem ((hgrow.chains b).subset he)
  kept := fun ev s' hstep a _ ha' b => h.not_reach_of_deleted hstep ha'
  safe := fun i c hi hpc => (h.call i c hi).pcOk hpc

/-- **One row for every key.** For every hash function, every number of buckets and keys of one
length up to 16 bytes, in every state of every interleaving of the calls. -/
theorem one_row_per_key (cfg : Config) (hlen : len ≤ 16) {es : List Event}
    (hrun : run (step cfg len) init es = some s) : OneRow cfg len s := by
  obtain ⟨C, hinv, -⟩ := Inv.init.run hrun
  exact hinv.oneRow hlen

/-- Two calls make a row for the same key behind an entry in the same bucket. The one that comes
late deletes its row. -/
def raceEvents : List Event :=
  [Event.start 0 .searchOrCreate [1]] ++ List.replicate 4 (Event.advance 0 0) ++
    [Event.start 1 .searchOrCreate [2], Event.start 2 .searchOrCreate [2]] ++
    List.replicate 5 (Event.advance 1 10) ++ List.replicate 5 (Event.advance 2 20) ++
    [Event.advance 1 0, Event.advance 2 0, Event.advance 2 0, Event.start 3 .search [2]] ++
    List.replicate 5 (Event.advance 3 0)

theorem one_row_per_key_race : ∃ s,
    run (step { hash := fun _ => 0, nrBuckets := 1 } 1) init raceEvents = some s ∧
      OneRow { hash := fun _ => 0, nrBuckets := 1 } 1 s ∧ s.used = [10] ∧
      (s.call 3).map (·.pc) = some (.done (some (.row 10)) false) := by
  obtain ⟨s, hs, hfinal⟩ : ∃ s, run (step { hash := fun _ => 0, nrBuckets := 1 } 1) init raceEvents
      = some s ∧ s.used = [10] ∧ (s.call 3).map (·.pc) = some (.done (some (.row 10)) false) := by
      decide +kernel
  exact ⟨s, hs, one_row_per_key _ (by decide) hs, hfinal⟩

end Felis.Index.Table
