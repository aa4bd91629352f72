import Felis.Foundations.Bits
import Felis.Foundations.Runs
import Felis.Row.Spec

/-!
# Waiting for a version

`SpinnerSlot` of `vhandle_sync.cc`, for one object word. A reader that finds the word pending clears
the bit of its core in the lower half of the word and spins on the flag of its core. The writer
exchanges the word for the object and raises the flags of the cores whose bits it finds cleared.

The flag of a core is shared by all its routines and by all rows. The routines of a core take turns:
one of them runs, and a routine in `Spin` hands over when it is preempted. When it comes back from
`Preempt` it leaves `Spin` and reads the word again. `WaitForVHandleVal` of the coroutine scheduler
can also pause the routine for another one. The other one may take the notification of the core, and
nothing ever goes back to a routine that is paused (`stuck_pausedRun`).
-/

namespace Felis.Row

open Bits Runs Function Option

/-! ## Bits of the word -/

/-- Clearing a bit keeps the other ones. -/
theorem testBit_clearBit (val core j : ℕ) :
    (clearBit val core).testBit j = (val.testBit j && decide (j ≠ core)) := by
  rw [clearBit, Nat.and_two_pow]
  cases hbit : val.testBit core with
  | false =>
    rw [Bool.toNat_false, Nat.zero_mul, Nat.sub_zero]
    rcases eq_or_ne j core with rfl | hne
    · simp [hbit]
    · simp [hne]
  | true =>
    rw [Bool.toNat_true, Nat.one_mul]
    obtain ⟨y, hy⟩ : ∃ y, val = 2 ^ core + y :=
      Nat.exists_eq_add_of_le (Nat.ge_two_pow_of_testBit hbit)
    have hclear : y.testBit core = false := by
      have := Nat.testBit_two_pow_add_eq y core
      rw [← hy, hbit] at this
      simpa using this.symm
    rw [hy, Nat.add_sub_cancel_left]
    rcases lt_trichotomy j core with hlt | rfl | hgt
    · rw [Nat.testBit_two_pow_add_gt hlt]
      simp [hlt.ne]
    · simp [hclear]
    · -- no carry goes past the bit
      have hhigh : (2 ^ core + y) / 2 ^ (core + 1) = y / 2 ^ (core + 1) := by
        rw [Nat.testBit_eq_decide_div_mod_eq, decide_eq_false_iff_not] at hclear
        rw [pow_succ, ← Nat.div_div_eq_div_mul, ← Nat.div_div_eq_div_mul,
          Nat.add_div_left _ (Nat.two_pow_pos core)]
        omega
      have hshift : ∀ x : ℕ, x.testBit j = (x / 2 ^ (core + 1)).testBit (j - (core + 1)) := by
        intro x
        rw [Nat.testBit_div_two_pow, Nat.sub_add_cancel hgt]
      rw [hshift y, hshift (2 ^ core + y), hhigh]
      simp [hgt.ne']

/-- The cores that have cleared their bits: `mask - (oldval & mask)`. -/
def waiters (oldval : ℕ) : BitVec 64 := BitVec.ofNat 64 (2 ^ 32 - 1 - oldval % 2 ^ 32)

theorem getLsbD_waiters {oldval c : ℕ} :
    (waiters oldval).getLsbD c = (decide (c < 32) && !oldval.testBit c) := by
  have hlt : oldval % 2 ^ 32 < 2 ^ 32 := Nat.mod_lt _ (by norm_num)
  have hsub : 2 ^ 32 - 1 - oldval % 2 ^ 32 = 2 ^ 32 - (oldval % 2 ^ 32 + 1) := by omega
  rw [waiters, BitVec.getLsbD_ofNat, hsub, Nat.testBit_two_pow_sub_succ hlt,
    Nat.testBit_mod_two_pow]
  by_cases hc : c < 32
  · simp [hc, hc.trans (by norm_num : 32 < 64)]
  · simp [hc]

/-! ## The steps -/

/-- What a routine does next about the word. -/
inductive Wait where
  | idle
  /-- The compare-and-swap that clears the bit of the core, for the value that was read. -/
  | cas (val : ℕ)
  | spin
  /-- `Spin` has seen the flag and resets it. -/
  | clear
  | reread
  /-- The routine is preempted in `Spin`. -/
  | away
  | returned
  deriving DecidableEq

/-- What `OfferData` does next. -/
inductive Offer where
  | load
  | cas (oldval : ℕ)
  | notify (bitmap : BitVec 64)
  | finished
  deriving DecidableEq

/-- The word of a version, the flags of the cores, and what goes on about the word. -/
structure Spinner where
  word : ℕ
  /-- `slot(core)->done` -/
  done : ℕ → Bool
  running : ℕ → ℕ
  wait : ℕ → Wait
  offer : Offer
  /-- The word that the compare-and-swap of `OfferData` has replaced. -/
  installed : Option ℕ
  notified : List ℕ

namespace Spinner

/-- The cores of the routines, and the object that is offered. -/
structure Config where
  core : ℕ → ℕ
  obj : ℕ
  core_lt : ∀ r, core r < 32
  obj_ne : isPendingVal obj = false

inductive Event where
  | call (r : ℕ)
  | advance (r : ℕ)
  /-- `Preempt` in `Spin` lets `r'` run. -/
  | preempt (r r' : ℕ)
  /-- `WaitForVHandleVal` in `Spin` leaves `r` as `paused_coro` and lets `r'` run. -/
  | pause (r r' : ℕ)
  /-- A routine that does not wait for the word lets `r'` run. -/
  | switch (r r' : ℕ)
  | offer
  /-- A notification for another row. -/
  | notifyOther (c : ℕ)
  /-- A routine that waits for another row resets the flag. -/
  | clearOther (r : ℕ)
  deriving DecidableEq

/-- The word is pending, and flags may have been left set. -/
def init (done : ℕ → Bool) (running : ℕ → ℕ) : Spinner where
  word := kPendingValue
  done
  running
  wait := fun _ => .idle
  offer := .load
  installed := none
  notified := []

def setWait (s : Spinner) (r : ℕ) (w : Wait) : Spinner :=
  { s with wait := update s.wait r w }

/-- What `WaitForData` does with a value of the word. -/
def look (val : ℕ) : Wait := if isPendingVal val then .cas val else .returned

/-- A routine in the middle of `WaitForData`, or in another call for the word. -/
def Outside (s : Spinner) (r : ℕ) : Prop := s.wait r = .idle ∨ s.wait r = .returned

instance (s : Spinner) (r : ℕ) : Decidable (s.Outside r) := inferInstanceAs (Decidable (_ ∨ _))

variable (cfg : Config)

/-- The routine is paused in `Spin`. No routine goes back to it: `GetNewPiece` has already cleared
`paused_coro` when it switches to it. -/
def Paused (s : Spinner) (r : ℕ) : Prop := s.wait r = .spin ∧ s.running (cfg.core r) ≠ r

instance (s : Spinner) (r : ℕ) : Decidable (s.Paused cfg r) := inferInstanceAs (Decidable (_ ∧ _))

def advance (s : Spinner) (r : ℕ) : Option Spinner :=
  match s.wait r with
  | .cas val =>
    if s.word = val then
      some { s.setWait r .spin with word := clearBit val (cfg.core r) }
    else some (s.setWait r (look s.word))
  | .spin => if s.done (cfg.core r) then some (s.setWait r .clear) else some s
  | .clear =>
    some { s.setWait r .reread with done := update s.done (cfg.core r) false }
  | .reread => some (s.setWait r (look s.word))
  | .away => some (s.setWait r .reread)
  | .idle => none
  | .returned => none

/-- A step of `OfferData`. An `int` is not shifted by 32 or more. -/
def offerStep (s : Spinner) : Option Spinner :=
  match s.offer with
  | .load => some { s with offer := .cas s.word }
  | .cas oldval =>
    if s.word = oldval then
      some { s with word := cfg.obj, installed := some oldval, offer := .notify (waiters oldval) }
    else some { s with offer := .cas s.word }
  | .notify bitmap =>
    if bitmap = 0 then some { s with offer := .finished }
    else (lowestSet bitmap.toNat).bind fun idx =>
      if 32 ≤ idx then none
      else some { s with
        done := update s.done idx true
        notified := s.notified ++ [idx]
        offer := .notify (bitmap &&& unmark idx) }
  | .finished => none

def step (s : Spinner) : Event → Option Spinner
  | .call r =>
    if s.running (cfg.core r) = r ∧ s.Outside r then some (s.setWait r (look s.word)) else none
  | .advance r => if s.running (cfg.core r) = r then s.advance cfg r else none
  | .preempt r r' =>
    if s.running (cfg.core r) = r ∧ s.wait r = .spin ∧ cfg.core r' = cfg.core r ∧
        ¬s.Paused cfg r' then
      some { s.setWait r .away with running := update s.running (cfg.core r) r' }
    else none
  | .pause r r' =>
    if s.running (cfg.core r) = r ∧ s.wait r = .spin ∧ cfg.core r' = cfg.core r ∧
        ¬s.Paused cfg r' then
      some { s with running := update s.running (cfg.core r) r' }
    else none
  | .switch r r' =>
    if s.running (cfg.core r) = r ∧ s.Outside r ∧ cfg.core r' = cfg.core r ∧
        ¬s.Paused cfg r' then
      some { s with running := update s.running (cfg.core r) r' }
    else none
  | .offer => s.offerStep cfg
  | .notifyOther c => some { s with done := update s.done c true }
  | .clearOther r =>
    if s.running (cfg.core r) = r ∧ s.Outside r then
      some { s with done := update s.done (cfg.core r) false }
    else none

/-- No routine is paused in `Spin`. -/
def NotPaused (_ : Spinner) (e : Event) : Prop := ∀ r r', e ≠ .pause r r'

/-! ## The invariant -/

/-- `Notify` will still write the slot. -/
def ToNotify (s : Spinner) (c : ℕ) : Prop :=
  ∃ bitmap, s.offer = .notify bitmap ∧ bitmap.getLsbD c = true

/-- A routine on the core that spins will leave the loop: it is registered in the pending word, or
`OfferData` is going to notify the core, or has done so. -/
def Heard (s : Spinner) (c : ℕ) : Prop :=
  s.installed = none ∧ s.word.testBit c = false ∨ s.ToNotify c ∨ s.done c = true

structure Inv (s : Spinner) : Prop where
  pending : s.installed = none → isPendingVal s.word = true
  installed : ∀ w, s.installed = some w →
    s.word = cfg.obj ∧ ((∃ bitmap, s.offer = .notify bitmap) ∨ s.offer = .finished)
  waiting : s.installed = none →
    (∀ bitmap, s.offer ≠ .notify bitmap) ∧ s.offer ≠ .finished ∧ s.notified = []
  notified : ∀ w, s.installed = some w → ∀ c,
    c ∈ s.notified ∨ s.ToNotify c ↔ c < 32 ∧ w.testBit c = false
  returned : ∀ r, s.wait r = .returned → s.installed ≠ none
  cas : ∀ r val, s.wait r = .cas val → isPendingVal val = true
  spin : ∀ r, s.wait r = .spin → s.running (cfg.core r) = r ∧ s.Heard (cfg.core r)

variable {cfg} {s s' : Spinner} {r : ℕ}

theorem inv_init (done : ℕ → Bool) (running : ℕ → ℕ) : Inv cfg (init done running) where
  pending := fun _ => (by decide : isPendingVal kPendingValue = true)
  installed := by simp [init]
  waiting := by simp [init]
  notified := by simp [init]
  returned := by simp [init]
  cas := by simp [init]
  spin := by simp [init]

namespace Inv

section

variable (h : Inv cfg s)

include h

theorem not_pending : isPendingVal s.word = false ↔ s.installed ≠ none := by
  constructor
  · intro hp hnone
    rw [h.pending hnone] at hp
    cases hp
  · intro hne
    obtain ⟨w, hw⟩ := ne_none_iff_exists'.1 hne
    rw [(h.installed w hw).1, cfg.obj_ne]

/-- A routine that spins has its core to itself. -/
theorem core_ne {r' : ℕ} (hr : s.running (cfg.core r) = r) (hne : s.wait r ≠ .spin)
    (hr' : s.wait r' = .spin) : cfg.core r' ≠ cfg.core r := by
  intro he
  have hrun := (h.spin r' hr').1
  rw [he, hr] at hrun
  exact hne (hrun ▸ hr')

/-- A step of a routine that only looks at the word or the flag. -/
theorem setWait {w : Wait} (hret : w = .returned → s.installed ≠ none)
    (hcas : ∀ val, w = .cas val → isPendingVal val = true) (hspin : w ≠ .spin) :
    Inv cfg (s.setWait r w) := { h with
  returned := fun r' hr' => by
    rcases eq_or_ne r' r with rfl | hne
    · exact hret (by simpa [Spinner.setWait] using hr')
    · exact h.returned r' (by simpa [Spinner.setWait, hne] using hr')
  cas := fun r' val hr' => by
    rcases eq_or_ne r' r with rfl | hne
    · exact hcas val (by simpa [Spinner.setWait] using hr')
    · exact h.cas r' val (by simpa [Spinner.setWait, hne] using hr')
  spin := fun r' hr' => by
    rcases eq_or_ne r' r with rfl | hne
    · exact absurd (by simpa [Spinner.setWait] using hr') hspin
    · exact h.spin r' (by simpa [Spinner.setWait, hne] using hr') }

theorem look : Inv cfg (s.setWait r (look s.word)) := by
  unfold Spinner.look
  split_ifs with hp
  · exact h.setWait (by simp) (fun val hval => by cases hval; exact hp) (by simp)
  · exact h.setWait (fun _ => h.not_pending.1 (by simpa using hp)) (by simp) (by simp)

/-- The flags change, but not that of a core on which a routine spins. -/
theorem setDone {done : ℕ → Bool}
    (hdone : ∀ r, s.wait r = .spin → s.done (cfg.core r) = true → done (cfg.core r) = true) :
    Inv cfg { s with done } := { h with
  spin := fun r hr => by
    obtain ⟨hrun, hword | hnote | hd⟩ := h.spin r hr
    · exact ⟨hrun, .inl hword⟩
    · exact ⟨hrun, .inr (.inl hnote)⟩
    · exact ⟨hrun, .inr (.inr (hdone r hr hd))⟩ }

/-- Another routine runs on a core on which no routine spins. -/
theorem setRunning {c r' : ℕ} (hspin : ∀ r, s.wait r = .spin → cfg.core r ≠ c) :
    Inv cfg { s with running := update s.running c r' } := { h with
  spin := fun r hr => by
    obtain ⟨hrun, hheard⟩ := h.spin r hr
    exact ⟨by simpa [update_of_ne (hspin r hr)] using hrun, hheard⟩ }

/-- The compare-and-swap that clears the bit of the core. -/
theorem register (hr : s.running (cfg.core r) = r) (hw : s.wait r = .cas s.word) :
    Inv cfg { s.setWait r .spin with word := clearBit s.word (cfg.core r) } := by
  have hpend := h.cas r s.word hw
  have hnone : s.installed = none := by
    by_contra hne
    rw [h.not_pending.2 hne] at hpend
    cases hpend
  exact
    { h with
      pending := fun _ => by
        dsimp only
        rwa [isPendingVal_clearBit _ (cfg.core_lt r)]
      installed := fun w hw => absurd (hw.symm.trans hnone) (by simp)
      notified := fun w hw => absurd (hw.symm.trans hnone) (by simp)
      returned := fun r' hr' => by
        rcases eq_or_ne r' r with rfl | hne
        · simp [Spinner.setWait] at hr'
        · exact h.returned r' (by simpa [Spinner.setWait, hne] using hr')
      cas := fun r' val hr' => by
        rcases eq_or_ne r' r with rfl | hne
        · simp [Spinner.setWait] at hr'
        · exact h.cas r' val (by simpa [Spinner.setWait, hne] using hr')
      spin := fun r' hr' => by
        rcases eq_or_ne r' r with rfl | hne
        · exact ⟨hr, .inl ⟨hnone, by simp [testBit_clearBit]⟩⟩
        · obtain ⟨hrun, hword | hnote | hd⟩ := h.spin r' (by simpa [Spinner.setWait, hne] using hr')
          · exact ⟨hrun, .inl ⟨hnone, by simp [testBit_clearBit, hword.2]⟩⟩
          · exact ⟨hrun, .inr (.inl hnote)⟩
          · exact ⟨hrun, .inr (.inr hd)⟩ }

theorem advance (hr : s.running (cfg.core r) = r) (hadv : s.advance cfg r = some s') :
    Inv cfg s' := by
  unfold Spinner.advance at hadv
  cases hw : s.wait r with
  | idle => simp [hw] at hadv
  | cas val =>
    simp only [hw] at hadv
    split_ifs at hadv with hval
    · cases hadv
      subst hval
      exact h.register hr hw
    · cases hadv
      exact h.look
  | spin =>
    simp only [hw] at hadv
    split_ifs at hadv
    · cases hadv
      exact h.setWait (by simp) (by simp) (by simp)
    · cases hadv
      exact h
  | clear =>
    simp only [hw, Option.some.injEq] at hadv
    subst hadv
    have hreread : Inv cfg (s.setWait r .reread) := h.setWait (by simp) (by simp) (by simp)
    refine hreread.setDone fun r' hr' hd => ?_
    have hne : r' ≠ r := by
      rintro rfl
      simp [Spinner.setWait] at hr'
    have hspin : s.wait r' = .spin := by simpa [Spinner.setWait, hne] using hr'
    rw [update_of_ne (h.core_ne hr (by simp [hw]) hspin)]
    exact hd
  | reread =>
    simp only [hw, Option.some.injEq] at hadv
    exact hadv ▸ h.look
  | away =>
    simp only [hw, Option.some.injEq] at hadv
    exact hadv ▸ h.setWait (by simp) (by simp) (by simp)
  | returned => simp [hw] at hadv

/-- The compare-and-swap that installs the object. -/
theorem install (hoff : s.offer = .cas s.word) :
    Inv cfg { s with
      word := cfg.obj, installed := some s.word, offer := .notify (waiters s.word) } := by
  have hnone : s.installed = none := by
    by_contra hne
    obtain ⟨w, hw⟩ := ne_none_iff_exists'.1 hne
    rcases (h.installed w hw).2 with ⟨bitmap, hb⟩ | hb
    · rw [hoff] at hb
      cases hb
    · rw [hoff] at hb
      cases hb
  exact
    { h with
      pending := fun hn => by simp at hn
      installed := fun w _ => ⟨rfl, .inl ⟨_, rfl⟩⟩
      waiting := fun hn => by simp at hn
      notified := fun w hw c => by
        cases hw
        simp [ToNotify, (h.waiting hnone).2.2, getLsbD_waiters]
      returned := fun r hr => by simp
      spin := fun r hr => by
        obtain ⟨hrun, hword | ⟨bitmap, hb, -⟩ | hd⟩ := h.spin r hr
        · refine ⟨hrun, .inr (.inl ⟨_, rfl, ?_⟩)⟩
          simp [getLsbD_waiters, hword.2, cfg.core_lt r]
        · rw [hoff] at hb
          cases hb
        · exact ⟨hrun, .inr (.inr hd)⟩ }

end

variable {bitmap : BitVec 64}

variable (h : Inv cfg s)

include h

/-- A round of the loop of `Notify`. -/
theorem notify {idx : ℕ} (hoff : s.offer = .notify bitmap) (hset : bitmap.getLsbD idx = true)
    (hidx : idx < 32) :
    Inv cfg { s with
      done := update s.done idx true
      notified := s.notified ++ [idx]
      offer := .notify (bitmap &&& unmark idx) } := by
  obtain ⟨w, hw⟩ : ∃ w, s.installed = some w := by
    apply ne_none_iff_exists'.1
    intro hn
    exact (h.waiting hn).1 bitmap hoff
  have hbits : ∀ c, (bitmap &&& unmark idx).getLsbD c = true ↔
    bitmap.getLsbD c = true ∧ c ≠ idx := by
    intro c
    have hlow : bitmap.getLsbD c = true → c < 32 := fun hc =>
      ((h.notified w hw c).1 (.inr ⟨bitmap, hoff, hc⟩)).1
    by_cases hc : bitmap.getLsbD c = true
    · have h32 := hlow hc
      rw [BitVec.getLsbD_and, getLsbD_unmark idx hidx c (by omega), hc]
      simp only [Bool.true_and, Bool.not_eq_true', decide_eq_false_iff_not, true_and]
      omega
    · simp [hc]
  exact
    { h with
      installed := fun w' hw' => ⟨(h.installed w' hw').1, .inl ⟨_, rfl⟩⟩
      waiting := fun hn => absurd (hn.symm.trans hw) (by simp)
      notified := fun w' hw' c => by
        rw [← h.notified w' hw' c]
        simp only [ToNotify, List.mem_append, List.mem_singleton, Offer.notify.injEq,
          exists_eq_left', hbits, hoff]
        by_cases hc : c = idx
        · subst hc
          simp [hset]
        · simp [hc]
      spin := fun r hr => by
        obtain ⟨hrun, hword | ⟨b, hb, hbit⟩ | hd⟩ := h.spin r hr
        · exact absurd (hword.1.symm.trans hw) (by simp)
        · rw [hoff] at hb
          cases hb
          by_cases hc : cfg.core r = idx
          · exact ⟨hrun, .inr (.inr (by simp [hc]))⟩
          · exact ⟨hrun, .inr (.inl ⟨_, rfl, (hbits _).2 ⟨hbit, hc⟩⟩)⟩
        · refine ⟨hrun, .inr (.inr ?_)⟩
          rcases eq_or_ne (cfg.core r) idx with hc | hc
          · simp [hc]
          · simpa [update_of_ne hc] using hd }

theorem installed_eq_none (hnote : ∀ bitmap, s.offer ≠ .notify bitmap)
    (hfin : s.offer ≠ .finished) : s.installed = none := by
  by_contra hne
  obtain ⟨w, hw⟩ := ne_none_iff_exists'.1 hne
  rcases (h.installed w hw).2 with ⟨bitmap, hb⟩ | hb
  · exact hnote bitmap hb
  · exact hfin hb

theorem load (hnone : s.installed = none) : Inv cfg { s with offer := .cas s.word } := { h with
  installed := fun w hw => absurd (hw.symm.trans hnone) (by simp)
  waiting := fun _ => ⟨by simp, by simp, (h.waiting hnone).2.2⟩
  notified := fun w hw => absurd (hw.symm.trans hnone) (by simp)
  spin := fun r hr => by
    obtain ⟨hrun, hword | ⟨bitmap, hb, -⟩ | hd⟩ := h.spin r hr
    · exact ⟨hrun, .inl hword⟩
    · exact absurd hb ((h.waiting hnone).1 bitmap)
    · exact ⟨hrun, .inr (.inr hd)⟩ }

theorem finish (hoff : s.offer = .notify 0) : Inv cfg { s with offer := .finished } := by
  have hnote : ∀ c, ¬s.ToNotify c := by
    rintro c ⟨bitmap, hb, hbit⟩
    rw [hoff] at hb
    cases hb
    simp at hbit
  exact
    { h with
      installed := fun w hw => ⟨(h.installed w hw).1, .inr rfl⟩
      waiting := fun hn => absurd hoff ((h.waiting hn).1 0)
      notified := fun w hw c => by
        rw [← h.notified w hw c]
        simp [ToNotify, hoff]
      spin := fun r hr => by
        obtain ⟨hrun, hword | hb | hd⟩ := h.spin r hr
        · exact absurd hoff ((h.waiting hword.1).1 0)
        · exact absurd hb (hnote _)
        · exact ⟨hrun, .inr (.inr hd)⟩ }

/-- The bits that `Notify` goes through are below 32. -/
theorem lt_of_notify (hoff : s.offer = .notify bitmap) {c : ℕ} (hc : bitmap.getLsbD c = true) :
    c < 32 := by
  obtain ⟨w, hw⟩ : ∃ w, s.installed = some w := by
    apply ne_none_iff_exists'.1
    intro hn
    exact (h.waiting hn).1 bitmap hoff
  exact ((h.notified w hw c).1 (.inr ⟨bitmap, hoff, hc⟩)).1

theorem offerStep (hstep : s.offerStep cfg = some s') : Inv cfg s' := by
  unfold Spinner.offerStep at hstep
  cases hoff : s.offer with
  | load =>
    simp only [hoff, Option.some.injEq] at hstep
    exact hstep ▸ h.load (h.installed_eq_none (by simp [hoff]) (by simp [hoff]))
  | cas oldval =>
    simp only [hoff] at hstep
    split_ifs at hstep with hval
    · cases hstep
      subst hval
      exact h.install hoff
    · cases hstep
      exact h.load (h.installed_eq_none (by simp [hoff]) (by simp [hoff]))
  | notify bitmap =>
    simp only [hoff] at hstep
    split_ifs at hstep with hz
    · cases hstep
      exact h.finish (hz ▸ hoff)
    · obtain ⟨idx, hidx, hset, -⟩ := exists_lowestSet hz
      have hlt := h.lt_of_notify hoff hset
      simp only [hidx, bind_some, if_neg (not_le.2 hlt), Option.some.injEq] at hstep
      exact hstep ▸ h.notify hoff hset hlt
  | finished => simp [hoff] at hstep

/-- Every step keeps the invariant, unless it pauses a routine in `Spin`. -/
theorem step {e : Event} (hok : NotPaused s e) (hstep : s.step cfg e = some s') : Inv cfg s' := by
  cases e with
  | call r =>
    rw [Spinner.step] at hstep
    split_ifs at hstep
    cases hstep
    exact h.look
  | advance r =>
    rw [Spinner.step] at hstep
    split_ifs at hstep with hr
    exact h.advance hr hstep
  | preempt r r' =>
    rw [Spinner.step] at hstep
    split_ifs at hstep with hpos
    cases hstep
    have haway : Inv cfg (s.setWait r .away) := h.setWait (by simp) (by simp) (by simp)
    refine haway.setRunning fun q hq => ?_
    have hne : q ≠ r := by
      rintro rfl
      simp [Spinner.setWait] at hq
    have hspin : s.wait q = .spin := by simpa [Spinner.setWait, hne] using hq
    intro hc
    have hrun := (h.spin q hspin).1
    rw [hc, hpos.1] at hrun
    exact hne hrun.symm
  | pause r r' => exact absurd rfl (hok r r')
  | switch r r' =>
    rw [Spinner.step] at hstep
    split_ifs at hstep with hpos
    cases hstep
    refine h.setRunning fun q hq => h.core_ne hpos.1 ?_ hq
    rcases hpos.2.1 with hw | hw <;> simp [hw]
  | offer => exact h.offerStep hstep
  | notifyOther c =>
    cases hstep
    refine h.setDone fun q _ hd => ?_
    rcases eq_or_ne (cfg.core q) c with hc | hc
    · simp [hc]
    · rwa [update_of_ne hc]
  | clearOther r =>
    rw [Spinner.step] at hstep
    split_ifs at hstep with hpos
    cases hstep
    refine h.setDone fun q hq hd => ?_
    have hne : cfg.core q ≠ cfg.core r := by
      refine h.core_ne hpos.1 ?_ hq
      rcases hpos.2 with hw | hw <;> simp [hw]
    rwa [update_of_ne hne]

/-- `Notify` ends: every round takes one of the bits. -/
theorem notify_terminates (hoff : s.offer = .notify bitmap) :
    ∃ t, run (Spinner.step cfg) s (List.replicate (popcount bitmap.toNat + 1) .offer) = some t ∧
      t.offer = .finished := by
  induction hn : popcount bitmap.toNat generalizing s bitmap with
  | zero =>
    have hz : bitmap = 0 := by
      by_contra hz
      obtain ⟨idx, -, hset, -⟩ := exists_lowestSet hz
      rw [popcount, Finset.card_eq_zero] at hn
      exact absurd (mem_bits_toNat.2 hset) (hn ▸ Finset.notMem_empty idx)
    refine ⟨{ s with offer := .finished }, ?_, rfl⟩
    simp [Runs.run, Spinner.step, Spinner.offerStep, hoff, hz]
  | succ n ih =>
    have hz : bitmap ≠ 0 := by
      rintro rfl
      simp [popcount, bits] at hn
    obtain ⟨idx, hidx, hset, -⟩ := exists_lowestSet hz
    have hlt := h.lt_of_notify hoff hset
    have hbits : bits (bitmap &&& unmark idx).toNat = (bits bitmap.toNat).erase idx := by
      ext c
      rw [Finset.mem_erase, mem_bits_toNat, mem_bits_toNat]
      by_cases hc : bitmap.getLsbD c = true
      · have hc32 := h.lt_of_notify hoff hc
        rw [BitVec.getLsbD_and, getLsbD_unmark idx hlt c (by omega), hc]
        simp only [Bool.true_and, Bool.not_eq_true', decide_eq_false_iff_not, and_true]
        omega
      · simp [hc]
    have hcard : popcount (bitmap &&& unmark idx).toNat = n := by
      have := Finset.card_erase_add_one (mem_bits_toNat.2 hset)
      rw [popcount, hbits]
      rw [popcount] at hn
      omega
    obtain ⟨t, ht, hfin⟩ := ih (h.notify hoff hset hlt) rfl hcard
    refine ⟨t, ?_, hfin⟩
    rw [List.replicate_succ, run_cons]
    refine ⟨_, ?_, ht⟩
    simp only [Spinner.step, Spinner.offerStep, hoff, if_neg hz, hidx, bind_some,
      if_neg (not_le.2 hlt)]

end Inv

/-- What holds of the waiting routines in every state. -/
structure Woken (cfg : Config) (s : Spinner) : Prop where
  /-- `WaitForData` returns when the word is no longer pending. -/
  returned : ∀ r, s.wait r = .returned → isPendingVal s.word = false
  /-- `OfferData` notifies the cores whose bits were cleared in the word that it has replaced. -/
  notified : s.offer = .finished → ∃ w, s.installed = some w ∧
    ∀ c, c ∈ s.notified ↔ c < 32 ∧ w.testBit c = false
  /-- `Notify` ends after at most one round for every core. -/
  terminates : ∀ bitmap, s.offer = .notify bitmap → ∃ k ≤ 33, ∃ t,
    run (step cfg) s (List.replicate k .offer) = some t ∧ t.offer = .finished
  /-- When `OfferData` has finished, a routine in the loop of `Spin` finds the flag of its core set,
  and the word is not the one that a routine wants to register in. -/
  awake : s.offer = .finished → ∀ r, (s.wait r = .spin → s.done (cfg.core r) = true) ∧
    s.wait r ≠ .cas s.word

theorem Inv.woken (h : Inv cfg s) : Woken cfg s where
  returned := fun r hr => h.not_pending.2 (h.returned r hr)
  notified := fun hfin => by
    obtain ⟨w, hw⟩ : ∃ w, s.installed = some w := by
      apply ne_none_iff_exists'.1
      intro hn
      exact (h.waiting hn).2.1 hfin
    refine ⟨w, hw, fun c => ?_⟩
    rw [← h.notified w hw c]
    simp [ToNotify, hfin]
  terminates := fun bitmap hoff => by
    obtain ⟨t, ht, hfin⟩ := h.notify_terminates hoff
    refine ⟨_, ?_, t, ht, hfin⟩
    have hsub : bits bitmap.toNat ⊆ Finset.range 32 := fun c hc =>
      Finset.mem_range.2 (h.lt_of_notify hoff (mem_bits_toNat.1 hc))
    have hcard := Finset.card_le_card hsub
    rw [Finset.card_range] at hcard
    rw [popcount]
    omega
  awake := fun hfin r => by
    have hne : s.installed ≠ none := fun hn => (h.waiting hn).2.1 hfin
    constructor
    · intro hr
      obtain ⟨-, hword | ⟨bitmap, hb, -⟩ | hd⟩ := h.spin r hr
      · exact absurd hword.1 hne
      · rw [hfin] at hb
        cases hb
      · exact hd
    · intro hw
      have hpend := h.cas r s.word hw
      rw [h.not_pending.2 hne] at hpend
      cases hpend

/-- **No wakeup is lost**, in every run in which no routine is paused in `Spin`. -/
theorem no_lost_wakeup {done : ℕ → Bool} {running : ℕ → ℕ} {es : List Event}
    (hok : Along (step cfg) NotPaused (init done running) es)
    (hrun : run (step cfg) (init done running) es = some s) : Woken cfg s :=
  (run_invariant (fun _ _ _ h hok hstep => h.step hok hstep) es _ s (inv_init done running) hok
    hrun).woken

def oneCore : Config where
  core := fun _ => 0
  obj := 4096
  core_lt := fun _ => by decide
  obj_ne := by decide

/-- A stale flag lets the first routine register twice. It is preempted for the second one, which
is notified, and comes back. -/
def preemptedRun : List Event :=
  [.call 0, .advance 0, .advance 0, .advance 0, .advance 0, .advance 0, .preempt 0 1, .call 1,
    .advance 1, .offer, .offer, .offer, .offer, .advance 1, .advance 1, .advance 1, .switch 1 0,
    .advance 0, .advance 0]

theorem no_lost_wakeup_preempted : ∃ s,
    run (step oneCore) (init (fun _ => true) fun _ => 0) preemptedRun = some s ∧ Woken oneCore s ∧
      s.wait 0 = .returned ∧ s.wait 1 = .returned := by
  obtain ⟨s, hs, hfinal⟩ : ∃ s, run (step oneCore) (init (fun _ => true) fun _ => 0) preemptedRun =
      some s ∧ s.wait 0 = .returned ∧ s.wait 1 = .returned := by decide +kernel
  have hok : ∀ e ∈ preemptedRun, ∀ r r', e ≠ .pause r r' := by
    simp [preemptedRun]
  exact ⟨s, hs, no_lost_wakeup (along_of_forall _ _ hok) hs, hfinal⟩

/-- The first routine is paused for the second one, which waits for the same version, takes the
notification of the core and returns. -/
def pausedRun : List Event :=
  [.call 0, .advance 0, .pause 0 1, .call 1, .advance 1, .offer, .offer, .offer, .offer, .advance 1,
    .advance 1, .advance 1]

/-- After this run `OfferData` has finished, and the first routine is paused in `Spin` with a flag
that is not set. -/
theorem stuck_pausedRun : ∃ s,
    run (step oneCore) (init (fun _ => false) fun _ => 0) pausedRun = some s ∧
      s.offer = .finished ∧ s.wait 1 = .returned ∧ s.Paused oneCore 0 ∧ s.done 0 = false ∧
      ¬Woken oneCore s := by
  obtain ⟨s, hs, hoff, hreturned, hpaused, hd⟩ : ∃ s,
      run (step oneCore) (init (fun _ => false) fun _ => 0) pausedRun = some s ∧
        s.offer = .finished ∧ s.wait 1 = .returned ∧ s.Paused oneCore 0 ∧ s.done 0 = false := by
    decide +kernel
  refine ⟨s, hs, hoff, hreturned, hpaused, hd, fun h => ?_⟩
  have hset := (h.awake hoff 0).1 hpaused.1
  rw [show oneCore.core 0 = 0 from rfl, hd] at hset
  cases hset

end Spinner

end Felis.Row
