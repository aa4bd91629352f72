import Felis.Foundations.Cells
import Felis.Foundations.Locks
import Felis.Foundations.Runs

/-!
# Buffers that others flush

Every thread has a buffer to which it alone appends, in frames of one or more items. Any thread may
flush it: under the lock of the buffer it takes what is between `flusherStart` and `appendStart`.
When the buffer is full, its owner flushes it and rewinds it to the beginning, also under the lock.

The frames that are finished and not yet copied out lie one after the other in the buffer
(`Layout`). What `flusherStart` and `appendStart` say about them depends on the thread that holds
the lock of the buffer: between its accesses they disagree with the frames that are left, and the
thread knows by how much (`View`). The owner of the buffer needs no lock to append to it. It does so
only when it is not rewinding the buffer itself, so that `appendStart` is then the end of what is
left, whatever a flusher is doing (`View.Foreign`).

A program is given by what a thread knows about the buffers at each of its points: `view` is the
buffer whose lock it holds and what it knows about it, `own` what it knows about its own
`appendStart`. `Inv` is the invariant of all interleavings, and there is one rule for each kind of
step.

A thread that flushes all buffers goes round them until it has got every lock once. `flush_covers`
says that it has then taken, from every buffer, at least what was there when it began.
-/

namespace Felis.FlushBuffer

open Cells Locks Runs Function List

variable {E T A : Type}

/-! ## Frames in memory -/

/-- A finished frame: its place in the buffer, and its contents. -/
structure Frame (E : Type) where
  off : ℕ
  items : List E
  deriving DecidableEq

/-- The buffer of a thread. `frames` and `copies` are no part of the program: the frames that have
been finished, and what has been copied out. -/
structure Buffer (E : Type) where
  mem : ℕ → E
  flusherStart : ℕ
  appendStart : ℕ
  lock : Bool
  frames : List (Frame E)
  copies : List (List E)

/-- The frames lie one after the other between the two places, with their contents. -/
def Layout (mem : ℕ → E) : ℕ → List (Frame E) → ℕ → Prop
  | lo, [], hi => lo = hi
  | lo, f :: l, hi =>
    -- it does not matter where a frame without contents lies
    (f.items ≠ [] → f.off = lo) ∧ seg mem lo f.items.length = f.items ∧
      Layout mem (lo + f.items.length) l hi

section

variable {mem : ℕ → E} {lo hi : ℕ} {l r : List (Frame E)}

theorem layout_append : Layout mem lo (l ++ r) hi ↔
    ∃ mid, Layout mem lo l mid ∧ Layout mem mid r hi := by
  induction l generalizing lo with
  | nil => simp [Layout]
  | cons f l ih => simp [Layout, ih, and_assoc]

theorem layout_nil : Layout mem lo [] lo := rfl

theorem layout_singleton (mem : ℕ → E) (lo n : ℕ) :
    Layout mem lo [⟨lo, seg mem lo n⟩] (lo + n) := by
  simp [Layout, length_seg]

section

variable (h : Layout mem lo l hi)

include h

theorem Layout.le : lo ≤ hi := by
  induction l generalizing lo with
  | nil => exact Nat.le_of_eq h
  | cons f l ih => exact (Nat.le_add_right _ _).trans (ih h.2.2)

theorem Layout.seg_eq : seg mem lo (hi - lo) = l.flatMap Frame.items := by
  induction l generalizing lo with
  | nil =>
    obtain rfl : lo = hi := h
    simp
  | cons f l ih =>
    obtain ⟨-, hf, hl⟩ := h
    have hle := hl.le
    rw [show hi - lo = f.items.length + (hi - (lo + f.items.length)) by omega, seg_add, hf, ih hl,
      flatMap_cons]

theorem Layout.length_eq : (l.flatMap Frame.items).length = hi - lo := by
  rw [← h.seg_eq, length_seg]

/-- Writing behind the frames does not touch them. -/
theorem Layout.write {p : ℕ} (hp : hi ≤ p) (e : E) : Layout (Function.update mem p e) lo l hi := by
  induction l generalizing lo with
  | nil => exact h
  | cons f l ih =>
    obtain ⟨hoff, hf, hl⟩ := h
    have hle := hl.le
    have hsame : seg (Function.update mem p e) lo f.items.length = seg mem lo f.items.length :=
      seg_congr fun k hk => update_of_ne (by omega) _ _
    exact ⟨hoff, hsame.trans hf, ih hl⟩

theorem Layout.intact {f : Frame E} (hf : f ∈ l) : seg mem f.off f.items.length = f.items := by
  induction l generalizing lo with
  | nil => cases hf
  | cons g l ih =>
    obtain ⟨hoff, hg, hl⟩ := h
    rcases mem_cons.1 hf with rfl | hf
    · by_cases hnil : f.items = []
      · simp [hnil]
      · rw [hoff hnil, hg]
    · exact ih hl hf

end

/-- Frames without contents lie anywhere. -/
theorem Layout.move (h : Layout mem lo l lo) (p : ℕ) : Layout mem p l p := by
  induction l with
  | nil => rfl
  | cons f l ih =>
    obtain ⟨-, -, hl⟩ := h
    have hnil : f.items = [] := length_eq_zero_iff.1 (by have := hl.le; omega)
    simp only [Layout, hnil, ne_eq, not_true_eq_false, false_imp_iff, length_nil, Nat.add_zero,
      true_and] at hl ⊢
    exact ⟨seg_zero _ _, ih hl⟩

end

/-! ## The invariant of a buffer -/

/-- What the thread with the lock of a buffer knows about it. -/
inductive View
  | plain
  | start (a : ℕ)
  | range (a b : ℕ)
  /-- `Alloc` has set `flusher_start` to 0. -/
  | zeroed (a b : ℕ)
  /-- A flusher has set `flusher_start` to the end of the range. -/
  | taken (a b : ℕ)
  /-- `Alloc` has set both to 0. -/
  | rewound (a b : ℕ)

/-- Where the frames are that have not been copied out. -/
def Buffer.Placed (c : Buffer E) (left : List (Frame E)) : View → Prop
  | .plain => Layout c.mem c.flusherStart left c.appendStart
  | .start a => a = c.flusherStart ∧ Layout c.mem a left c.appendStart
  | .range a b => a = c.flusherStart ∧ ∃ l r, left = l ++ r ∧ Layout c.mem a l b ∧
    Layout c.mem b r c.appendStart
  | .zeroed a b => c.flusherStart = 0 ∧ b = c.appendStart ∧ Layout c.mem a left b
  | .taken a b => c.flusherStart = b ∧ ∃ l r, left = l ++ r ∧ Layout c.mem a l b ∧
    Layout c.mem b r c.appendStart
  | .rewound a b => c.flusherStart = 0 ∧ c.appendStart = 0 ∧ Layout c.mem a left b

/-- A frame that has not been copied out is where it was finished. -/
theorem Buffer.Placed.intact {c : Buffer E} {left : List (Frame E)} {v : View} (h : c.Placed left v)
    {f : Frame E} (hf : f ∈ left) : seg c.mem f.off f.items.length = f.items := by
  cases v with
  | plain => exact Layout.intact h hf
  | start a => exact h.2.intact hf
  | zeroed a b => exact h.2.2.intact hf
  | rewound a b => exact h.2.2.intact hf
  | range a b | taken a b =>
    obtain ⟨-, l, r, rfl, hl, hr⟩ := h
    exact (layout_append.2 ⟨_, hl, hr⟩).intact hf

/-- The copies are made of whole frames, in order and without a gap, and the other frames are in the
buffer. -/
def Buffer.Inv (c : Buffer E) (v : View) : Prop :=
  ∃ (segs : List (List (Frame E))) (left : List (Frame E)), c.frames = segs.flatten ++ left ∧
    c.copies = segs.map (fun l => l.flatMap Frame.items) ∧ c.Placed left v

/-- The views that only the owner of the buffer has exclude that it appends to it. -/
def View.Foreign : View → Prop
  | .zeroed _ _ => False
  | .rewound _ _ => False
  | _ => True

/-! ## Steps of a buffer -/

namespace Buffer

variable {c : Buffer E} {v : View}

theorem Inv.setLock (h : c.Inv v) (b : Bool) : { c with lock := b }.Inv v := by
  cases v <;> exact h

theorem Inv.readStart (h : c.Inv .plain) : c.Inv (.start c.flusherStart) := by
  obtain ⟨segs, left, hframes, hcopies, hleft⟩ := h
  exact ⟨segs, left, hframes, hcopies, rfl, hleft⟩

theorem Inv.readEnd {a : ℕ} (h : c.Inv (.start a)) : c.Inv (.range a c.appendStart) := by
  obtain ⟨segs, left, hframes, hcopies, ha, hleft⟩ := h
  exact ⟨segs, left, hframes, hcopies, ha, left, [], (append_nil _).symm, hleft, layout_nil⟩

theorem Inv.update {a b : ℕ} (h : c.Inv (.range a b)) :
    { c with flusherStart := b }.Inv (.taken a b) := by
  obtain ⟨segs, left, hframes, hcopies, -, hleft⟩ := h
  exact ⟨segs, left, hframes, hcopies, rfl, hleft⟩

theorem Inv.rewindFlusher {a b : ℕ} (h : c.Inv (.range a b)) (hb : b = c.appendStart) :
    { c with flusherStart := 0 }.Inv (.zeroed a b) := by
  obtain ⟨segs, left, hframes, hcopies, -, l, r, rfl, hl, hr⟩ := h
  subst hb
  exact ⟨segs, l ++ r, hframes, hcopies, rfl, rfl, layout_append.2 ⟨_, hl, hr⟩⟩

theorem Inv.rewindAppend {a b : ℕ} (h : c.Inv (.zeroed a b)) :
    { c with appendStart := 0 }.Inv (.rewound a b) := by
  obtain ⟨segs, left, hframes, hcopies, hzero, -, hleft⟩ := h
  exact ⟨segs, left, hframes, hcopies, hzero, rfl, hleft⟩

/-- `memcpy` takes whole frames, and they are not left any more. -/
theorem Inv.copy {a b : ℕ} (h : c.Inv (.taken a b) ∨ c.Inv (.rewound a b)) :
    { c with copies := c.copies ++ [seg c.mem a (b - a)] }.Inv .plain := by
  rcases h with h | h
  · obtain ⟨segs, left, hframes, hcopies, rfl, l, r, rfl, hl, hr⟩ := h
    refine ⟨segs ++ [l], r, ?_, ?_, hr⟩
    · simp [hframes]
    · simp [hcopies, hl.seg_eq]
  · obtain ⟨segs, left, hframes, hcopies, hstart, happ, hleft⟩ := h
    refine ⟨segs ++ [left], [], ?_, ?_, ?_⟩
    · simp [hframes]
    · simp [hcopies, hleft.seg_eq]
    · exact hstart.trans happ.symm

theorem Inv.skip {a b : ℕ} (h : c.Inv (.taken a b) ∨ c.Inv (.rewound a b)) (hab : ¬ 0 < b - a) :
    c.Inv .plain := by
  rcases h with h | h
  · obtain ⟨segs, left, hframes, hcopies, rfl, l, r, rfl, hl, hr⟩ := h
    obtain rfl : a = c.flusherStart := by have := hl.le; omega
    exact ⟨segs, l ++ r, hframes, hcopies, layout_append.2 ⟨_, hl, hr⟩⟩
  · obtain ⟨segs, left, hframes, hcopies, hstart, happ, hleft⟩ := h
    obtain rfl : a = b := by have := hleft.le; omega
    refine ⟨segs, left, hframes, hcopies, ?_⟩
    rw [Placed, hstart, happ]
    exact hleft.move 0

/-- The owner writes behind `append_start`, whatever a flusher is doing. -/
theorem Inv.write (h : c.Inv v) (hv : v.Foreign) {p : ℕ} (hp : c.appendStart ≤ p) (e : E) :
    { c with mem := Function.update c.mem p e }.Inv v := by
  obtain ⟨segs, left, hframes, hcopies, hleft⟩ := h
  refine ⟨segs, left, hframes, hcopies, ?_⟩
  cases v with
  | plain => exact hleft.write hp e
  | start a => exact ⟨hleft.1, hleft.2.write hp e⟩
  | range a b =>
    obtain ⟨ha, l, r, hlr, hl, hr⟩ := hleft
    exact ⟨ha, l, r, hlr, hl.write (hr.le.trans hp) e, hr.write hp e⟩
  | taken a b =>
    obtain ⟨ha, l, r, hlr, hl, hr⟩ := hleft
    exact ⟨ha, l, r, hlr, hl.write (hr.le.trans hp) e, hr.write hp e⟩
  | zeroed => exact hv.elim
  | rewound => exact hv.elim

/-- The owner appends what it has written to what is left. -/
theorem Inv.append (h : c.Inv v) (hv : v.Foreign) (sz : ℕ) :
    { c with
      appendStart := c.appendStart + sz
      frames := c.frames ++ [(⟨c.appendStart, seg c.mem c.appendStart sz⟩ : Frame E)] }.Inv v := by
  obtain ⟨segs, left, hframes, hcopies, hleft⟩ := h
  refine ⟨segs, left ++ [(⟨c.appendStart, seg c.mem c.appendStart sz⟩ : Frame E)], ?_, hcopies, ?_⟩
  · simp [hframes]
  have hnew := layout_singleton c.mem c.appendStart sz
  cases v with
  | plain => exact layout_append.2 ⟨_, hleft, hnew⟩
  | start a => exact ⟨hleft.1, layout_append.2 ⟨_, hleft.2, hnew⟩⟩
  | range a b =>
    obtain ⟨ha, l, r, rfl, hl, hr⟩ := hleft
    exact ⟨ha, l, r ++ _, append_assoc _ _ _, hl, layout_append.2 ⟨_, hr, hnew⟩⟩
  | taken a b =>
    obtain ⟨ha, l, r, rfl, hl, hr⟩ := hleft
    exact ⟨ha, l, r ++ _, append_assoc _ _ _, hl, layout_append.2 ⟨_, hr, hnew⟩⟩
  | zeroed => exact hv.elim
  | rewound => exact hv.elim

/-! ### Counting -/

def items (c : Buffer E) : List E := c.frames.flatMap Frame.items

def copied (c : Buffer E) : List E := c.copies.flatten

theorem flatten_copies (segs : List (List (Frame E))) :
    (segs.map fun l => l.flatMap Frame.items).flatten = segs.flatten.flatMap Frame.items := by
  induction segs with
  | nil => rfl
  | cons l segs ih => simp [ih]

theorem Inv.copied_prefix (h : c.Inv v) : c.copied <+: c.items := by
  obtain ⟨segs, left, hframes, hcopies, -⟩ := h
  rw [copied, items, hframes, hcopies, flatMap_append, flatten_copies]
  exact prefix_append _ _

/-- What is not between the two places has been copied. -/
theorem Inv.length_items {start : ℕ} (h : c.Inv (.start start)) :
    c.items.length = c.copied.length + (c.appendStart - start) := by
  obtain ⟨segs, left, hframes, hcopies, -, hleft⟩ := h
  rw [items, copied, hframes, hcopies, flatMap_append, flatten_copies, length_append,
    hleft.length_eq]

end Buffer

/-! ## Threads -/

/-- The lock whose critical section a thread is in. -/
def crit (view : T → A → Option (T × View)) (t : T) (a : A) : Option T := (view t a).map Prod.fst

structure Inv (view : T → A → Option (T × View)) (own : T → ℕ → A → Prop) (act : T → A)
    (buf : T → Buffer E) : Prop where
  locks : Exclusive (crit view) act fun i => (buf i).lock
  free : ∀ i, (buf i).lock = false → (buf i).Inv .plain
  held : ∀ t i v, view t (act t) = some (i, v) → (buf i).Inv v
  own : ∀ t, own t (buf t).appendStart (act t)

variable {view : T → A → Option (T × View)} {own : T → ℕ → A → Prop} {act : T → A}
  {buf : T → Buffer E} {t i : T} {v v' : View} {a : A} {c : Buffer E}

theorem Inv.exists_view (h : Inv view own act buf) (i : T) : ∃ v, (buf i).Inv v := by
  cases hlock : (buf i).lock with
  | false => exact ⟨_, h.free i hlock⟩
  | true =>
    obtain ⟨t, ht⟩ := (h.locks.held i).1 hlock
    obtain ⟨⟨j, v⟩, hv, rfl⟩ := Option.map_eq_some_iff.1 ht
    exact ⟨v, h.held t j v hv⟩

/-- No other thread is in the critical section of the thread. -/
theorem Inv.not_view (h : Inv view own act buf) (hv : view t (act t) = some (i, v)) {u : T}
    {w : View} (hu : u ≠ t) : view u (act u) ≠ some (i, w) := by
  intro hw
  refine hu (h.locks.unique u t i ?_ ?_)
  · simp [crit, hw]
  · simp [crit, hv]

variable [DecidableEq T]

/-- A buffer is replaced by one that agrees with it in a field. -/
theorem field_update {β : Type} (f : Buffer E → β) (hf : f c = f (buf i)) (j : T) :
    f (Function.update buf i c j) = f (buf j) := by
  by_cases hji : j = i
  · rw [hji, update_self, hf]
  · rw [update_of_ne hji]

section

variable (h : Inv view own act buf)

include h

/-- A thread goes on to `a`, and the buffer `i` becomes `c`. -/
theorem Inv.update (hlocks : Exclusive (crit view) (Function.update act t a)
      fun j => (Function.update buf i c j).lock) (hfree : c.lock = false → c.Inv .plain)
    (hview : ∀ j v, view t a = some (j, v) → j = i ∧ c.Inv v)
    (hothers : ∀ u v, u ≠ t → view u (act u) = some (i, v) → c.Inv v)
    (happ : i = t ∨ c.appendStart = (buf i).appendStart)
    (hown : own t (Function.update buf i c t).appendStart a) :
    Inv view own (Function.update act t a) (Function.update buf i c) := by
  constructor
  case locks => exact hlocks
  case free =>
    intro j hj
    by_cases hji : j = i
    · subst hji
      rw [update_self] at hj ⊢
      exact hfree hj
    · rw [update_of_ne hji] at hj ⊢
      exact h.free j hj
  case held =>
    intro u j w hw
    by_cases hut : u = t
    · subst hut
      rw [update_self] at hw
      obtain ⟨rfl, hc⟩ := hview j w hw
      rwa [update_self]
    · rw [update_of_ne hut] at hw
      by_cases hji : j = i
      · subst hji
        rw [update_self]
        exact hothers u w hut hw
      · rw [update_of_ne hji]
        exact h.held u j w hw
  case own =>
    intro u
    by_cases hut : u = t
    · subst hut
      rwa [update_self]
    · rw [update_of_ne hut]
      have hu := h.own u
      by_cases hui : u = i
      · subst hui
        rwa [update_self, happ.resolve_left hut]
      · rwa [update_of_ne hui]

/-- The thread holds no lock, and the buffers stay as they are. -/
theorem Inv.quiet (hv : view t (act t) = none) (hv' : view t a = none)
    (hown : own t (buf t).appendStart a) : Inv view own (Function.update act t a) buf := by
  have hupdate := h.update (t := t) (i := t) (a := a) (c := buf t) ?_ (h.free t) ?_
    (fun u v _ hu => h.held u t v hu) (.inl rfl) ?_
  · rwa [update_eq_self] at hupdate
  · refine h.locks.keep ?_ fun j => ?_
    · simp [crit, hv, hv']
    · rw [update_eq_self]
  · intro j v hj
    rw [hv'] at hj
    cases hj
  · rwa [update_self]

/-- The thread goes on in its critical section. -/
theorem Inv.critical (hv : view t (act t) = some (i, v)) (hv' : view t a = some (i, v'))
    (hlock : c.lock = (buf i).lock) (hc : c.Inv v')
    (happ : i = t ∨ c.appendStart = (buf i).appendStart)
    (hown : own t (Function.update buf i c t).appendStart a) :
    Inv view own (Function.update act t a) (Function.update buf i c) := by
  have hlocked : (buf i).lock = true := (h.locks.held i).2 ⟨t, by simp [crit, hv]⟩
  refine h.update (h.locks.keep ?_ fun j => ?_) ?_ ?_ ?_ happ hown
  · simp [crit, hv, hv']
  · exact field_update Buffer.lock hlock j
  · intro hfree
    rw [hlock, hlocked] at hfree
    cases hfree
  · intro j w hj
    rw [hv'] at hj
    cases hj
    exact ⟨rfl, hc⟩
  · intro u w hu hw
    exact absurd hw (h.not_view hv hu)

/-- The thread goes on in its critical section, and `appendStart` stays as it is. -/
theorem Inv.modify (hv : view t (act t) = some (i, v)) (hv' : view t a = some (i, v'))
    (hlock : c.lock = (buf i).lock) (hc : c.Inv v') (happ : c.appendStart = (buf i).appendStart)
    (hown : own t (buf t).appendStart a) :
    Inv view own (Function.update act t a) (Function.update buf i c) := by
  refine h.critical hv hv' hlock hc (.inr happ) ?_
  rwa [field_update Buffer.appendStart happ]

/-- The thread goes on in its critical section, and the buffer stays as it is. -/
theorem Inv.inspect (hv : view t (act t) = some (i, v)) (hv' : view t a = some (i, v'))
    (hc : (buf i).Inv v') (hown : own t (buf t).appendStart a) :
    Inv view own (Function.update act t a) buf := by
  have hmodify := h.modify (c := buf i) hv hv' rfl hc rfl hown
  rwa [update_eq_self] at hmodify

theorem Inv.acquire (hlock : (buf i).lock = false) (hv : view t (act t) = none)
    (hv' : view t a = some (i, .plain)) (hown : own t (buf t).appendStart a) :
    Inv view own (Function.update act t a) (Function.update buf i { buf i with lock := true }) := by
  refine h.update (h.locks.acquire hlock ?_ ?_ ?_ fun j hj => ?_) (fun hf => by cases hf) ?_ ?_
    (.inr rfl) ?_
  · simp [crit, hv]
  · simp [crit, hv']
  · rw [update_self]
  · rw [update_of_ne hj]
  · intro j w hj
    rw [hv'] at hj
    cases hj
    exact ⟨rfl, (h.free i hlock).setLock true⟩
  · intro u w _ hw
    exact (h.held u i w hw).setLock true
  · rwa [field_update Buffer.appendStart (by rfl)]

theorem Inv.release (hv : view t (act t) = some (i, .plain)) (hv' : view t a = none)
    (hown : own t (buf t).appendStart a) :
    Inv view own (Function.update act t a)
      (Function.update buf i { buf i with lock := false }) := by
  refine h.update (h.locks.release (i := i) ?_ ?_ ?_ fun j hj => ?_) ?_ ?_ ?_ (.inr rfl) ?_
  · simp [crit, hv]
  · simp [crit, hv']
  · rw [update_self]
  · rw [update_of_ne hj]
  · exact fun _ => (h.held t i .plain hv).setLock false
  · intro j w hj
    rw [hv'] at hj
    cases hj
  · intro u w hu hw
    exact absurd hw (h.not_view hv hu)
  · rwa [field_update Buffer.appendStart (by rfl)]

/-- The owner appends to its buffer. Others may hold the lock, but they are not rewinding. -/
theorem Inv.append (hv : view t (act t) = none) (hv' : view t a = none)
    (hforeign : ∀ u v, u ≠ t → view u (act u) = some (t, v) → v.Foreign)
    (hlock : c.lock = (buf t).lock) (hc : ∀ v, v.Foreign → (buf t).Inv v → c.Inv v)
    (hown : own t c.appendStart a) :
    Inv view own (Function.update act t a) (Function.update buf t c) := by
  refine h.update (h.locks.keep ?_ fun j => ?_) ?_ ?_ ?_ (.inl rfl) ?_
  · simp [crit, hv, hv']
  · exact field_update Buffer.lock hlock j
  · intro hfree
    exact hc _ trivial (h.free t (hlock ▸ hfree))
  · intro j w hj
    rw [hv'] at hj
    cases hj
  · intro u w hu hw
    exact hc w (hforeign u w hu hw) (h.held u t w hw)
  · rwa [update_self]

end

/-! ## Flushing all buffers -/

/-- Where a thread is in the loop over the buffers: the ones that it will have flushed when the loop
goes on, the one that it is flushing, and how many items of it the thread has taken and not yet
passed on. -/
structure Loop (T : Type) where
  flushed : Finset T
  current : Option (T × Option ℕ)

/-- The thread has passed on `goal j` items of every buffer that it has flushed, or it is going
to. -/
def Loop.Covers (goal done : T → ℕ) (l : Loop T) : Prop :=
  ∀ j ∈ l.flushed,
    match l.current with
    | none => goal j ≤ done j
    | some (i, none) => j ≠ i → goal j ≤ done j
    | some (i, some n) => goal j ≤ done j + if j = i then n else 0

section

variable {goal done done' : T → ℕ} {l : Loop T} {flushed : Finset T} {m n : ℕ}

theorem Loop.Covers.mono (h : l.Covers goal done) (hle : ∀ j, done j ≤ done' j) :
    l.Covers goal done' := by
  intro j hj
  have hcover := h j hj
  split at hcover
  · exact hcover.trans (hle j)
  · exact fun hne => (hcover hne).trans (hle j)
  · exact hcover.trans (Nat.add_le_add_right (hle j) _)

theorem covers_empty {current : Option (T × Option ℕ)} : Loop.Covers goal done ⟨∅, current⟩ := by
  intro j hj
  cases hj

/-- The thread takes what is in the buffer. -/
theorem Loop.Covers.take (h : Loop.Covers goal done ⟨flushed, some (i, none)⟩)
    (hi : goal i ≤ done i + n) : Loop.Covers goal done ⟨flushed, some (i, some n)⟩ := by
  intro j hj
  change goal j ≤ done j + if j = i then n else 0
  split
  · subst j
    exact hi
  · exact h j hj ‹_›

theorem Loop.Covers.pass (h : Loop.Covers goal done ⟨flushed, some (i, some n)⟩)
    (hle : ∀ j, done j ≤ done' j) (hi : done i + n ≤ done' i + m) :
    Loop.Covers goal done' ⟨flushed, some (i, some m)⟩ := by
  intro j hj
  have hcover : goal j ≤ done j + if j = i then n else 0 := h j hj
  change goal j ≤ done' j + if j = i then m else 0
  split
  · subst j
    rw [if_pos rfl] at hcover
    exact hcover.trans hi
  · rw [if_neg ‹_›] at hcover
    exact hcover.trans (hle j)

theorem Loop.Covers.leave (h : Loop.Covers goal done ⟨flushed, some (i, some 0)⟩) :
    Loop.Covers goal done ⟨flushed, none⟩ := by
  intro j hj
  have hcover : goal j ≤ done j + if j = i then 0 else 0 := h j hj
  rwa [ite_self] at hcover

end

section

variable {σ ε : Type} {step : σ → T × ε → Option σ} {I : σ → Prop} {L : σ → Loop T}
  {total done : σ → T → ℕ}

/-- A flush that has returned has passed on everything that was there when it began. -/
theorem flush_covers [Fintype T] (hI : ∀ s e s', I s → step s e = some s' → I s')
    (htotal : ∀ s e s' j, I s → step s e = some s' → total s j ≤ total s' j)
    (hdone : ∀ s e s' j, I s → step s e = some s' → done s j ≤ done s' j)
    (hloop : ∀ goal s e s', I s → (∀ j, goal j ≤ total s j) → (L s).Covers goal (done s) →
      step s e = some s' → (L s').Covers goal (done s'))
    {begin finish : T × ε} (hflush : ∀ s s', step s begin = some s' → (L s).flushed = ∅)
    (hreturn : ∀ s s', step s finish = some s' → L s = ⟨Finset.univ, none⟩)
    {s s' : σ} {evs : List (T × ε)} (hs : I s) (hrun : run step s (begin :: evs) = some s')
    (hmem : finish ∈ evs) (j : T) : total s j ≤ done s' j := by
  obtain ⟨evs₁, evs₂, rfl⟩ := append_of_mem hmem
  obtain ⟨s₁, hstep, hrun⟩ := (run_cons step).1 hrun
  obtain ⟨s₂, hrun₁, hrun⟩ := (run_append step).1 hrun
  obtain ⟨s₃, hstep', hrun₂⟩ := (run_cons step).1 hrun
  have hall : ∀ u e u', (I u ∧ (∀ j, total s j ≤ total u j) ∧ (L u).Covers (total s) (done u)) →
      step u e = some u' →
      (I u' ∧ (∀ j, total s j ≤ total u' j) ∧ (L u').Covers (total s) (done u')) := by
    rintro u e u' ⟨hu, hle, hcover⟩ he
    exact ⟨hI u e u' hu he, fun j => (hle j).trans (htotal u e u' j hu he),
      hloop (total s) u e u' hu hle hcover he⟩
  have hstart : (L s).Covers (total s) (done s) := by
    intro j hj
    rw [hflush s s₁ hstep] at hj
    cases hj
  have h₂ := run_induction hall (hall s _ s₁ ⟨hs, fun _ => le_rfl, hstart⟩ hstep) hrun₁
  have hcopied : total s j ≤ done s₂ j := by
    have hcover := h₂.2.2
    rw [hreturn s₂ s₃ hstep'] at hcover
    exact hcover j (Finset.mem_univ j)
  -- what has been passed on stays so
  have hmono : ∀ u e u', (I u ∧ total s j ≤ done u j) → step u e = some u' →
      (I u' ∧ total s j ≤ done u' j) :=
    fun u e u' hu he => ⟨hI u e u' hu.1 he, hu.2.trans (hdone u e u' j hu.1 he)⟩
  exact (run_induction hmono (hmono _ _ _ ⟨h₂.1, hcopied⟩ hstep') hrun₂).2

end

end Felis.FlushBuffer
