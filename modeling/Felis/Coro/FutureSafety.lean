import Felis.Coro.Future

/-!
# No wakeup is lost

`Fine` is what holds of a future, `CoreFine` what holds of a core. The heart of the first is
`dekker`: when a call of `SetReady` is over while the coroutine is still the waiter, then the call
has not seen it, so the future was ready before the coroutine was attached; and the coroutine has
not yet looked again.
-/

namespace Felis.Coro.Future

open Runs Function List Option

variable {C F S : Type}

/-! ## Views -/

def CoreAct.pc [DecidableEq F] (f : F) : CoreAct F → Option Wait
  | .wait g pc => if g = f then some pc else none
  | _ => none

namespace Signal

/-- The call has taken the coroutine and not yet put it into the queue. -/
def holds : Signal → Bool
  | .alloc => true
  | .loadHead _ => true
  | .pushHead _ _ => true
  | _ => false

/-- The node that the call has allocated and not pushed. -/
def node : Signal → Option ℕ
  | .loadHead a => some a
  | .pushHead a _ => some a
  | _ => none

end Signal

/-- How often the coroutine has been put into the queue of its core. -/
def Place.pushes : Place S → ℕ
  | .queued => 1
  | .popped => 1
  | _ => 0

def Place.pops : Place S → ℕ
  | .popped => 1
  | _ => 0

namespace Futures

variable [DecidableEq C] [DecidableEq F] (P : Futures C F S) (s : State C F S)

/-- Where the wait for a future is, while it is in progress. -/
def pc (f : F) : Option Wait := (s.core (P.core f)).pc f

/-- The node for the queue of `c` that a call of `SetReady` has allocated and not pushed. -/
def priv (c : C) (σ : S) : Option ℕ :=
  if P.core (P.target σ) = c then (s.signal σ).node else none

end Futures

/-! ## The invariant -/

/-- How far the wait for a future is, and where the coroutine can be then. -/
def Status.Fits : Status → Place S → Option Wait → Prop
  | .notCalled, p, pc => p = .nowhere ∧ pc = none
  | .waiting, p, pc => ∃ w, pc = some w ∧ (p = .nowhere ↔ w = .check ∨ w = .attach)
  | .returned, p, pc => p = .nowhere ∧ pc = none
  | .detached, p, pc => p ≠ .nowhere ∧ pc = none

/-- What a core in `Pop` has read is right. -/
def PopFits (q : LinkedStack F) (priv : S → Option ℕ) : CoreAct F → Prop
  | .popNext old => q.Published priv old
  | .popTake old new => q.Published priv old ∧ new = (q.node old).next
  | _ => True

/-- The nodes that have been pushed are the same. -/
theorem PopFits.mono {q q' : LinkedStack F} {priv priv' : S → Option ℕ} {b : CoreAct F}
    (h : PopFits q priv b)
    (hnode : ∀ x, q.Published priv x → q'.node x = q.node x ∧ q'.Published priv' x) :
    PopFits q' priv' b := by
  cases b with
  | idle => trivial
  | wait f w => trivial
  | popHead => trivial
  | popNext old => exact (hnode old h).2
  | popTake old new =>
    refine ⟨(hnode old h.1).2, ?_⟩
    rw [(hnode old h.1).1]
    exact h.2

section

variable [DecidableEq C] {P : Futures C F S} {s t : State C F S} {f g : F} {c : C}
  {σ : S}

structure CoreFine (P : Futures C F S) (s : State C F S) (c : C) : Prop where
  own : ∀ f pc, s.core c = .wait f pc → P.core f = c
  items : ∃ xs, (s.queue c).Holds (P.priv s c) xs ∧ xs.Nodup ∧
    ∀ f, f ∈ xs ↔ s.place f = .queued ∧ P.core f = c
  val : ∀ σ a, P.priv s c σ = some a → ((s.queue c).node a).val = P.target σ
  pop : PopFits (s.queue c) (P.priv s c) (s.core c)

/-- The queue of the core stays as it is. -/
theorem CoreFine.stay (h : CoreFine P s c) (hown : ∀ f w, t.core c = .wait f w → P.core f = c)
    (hqueue : t.queue c = s.queue c) (hpriv : P.priv t c = P.priv s c)
    (hplace : ∀ f, P.core f = c → (t.place f = .queued ↔ s.place f = .queued))
    (hpop : PopFits (s.queue c) (P.priv s c) (t.core c)) : CoreFine P t c where
  own := hown
  items := by
    obtain ⟨xs, hxs, hnd, hmem⟩ := h.items
    refine ⟨xs, by rw [hqueue, hpriv]; exact hxs, hnd, fun f => ?_⟩
    rw [hmem]
    exact and_congr_left fun hf => (hplace f hf).symm
  val := by rw [hqueue, hpriv]; exact h.val
  pop := by rw [hqueue, hpriv]; exact hpop

theorem CoreFine.congr (h : CoreFine P s c) (hcore : t.core c = s.core c)
    (hqueue : t.queue c = s.queue c) (hpriv : P.priv t c = P.priv s c)
    (hplace : ∀ f, P.core f = c → (t.place f = .queued ↔ s.place f = .queued)) :
    CoreFine P t c :=
  h.stay (hcore ▸ h.own) hqueue hpriv hplace (hcore ▸ h.pop)

/-- The queue of the core has changed, but not the nodes that have been pushed. -/
theorem CoreFine.setQueue (h : CoreFine P s c) {q : LinkedStack F} {xs : List F}
    (hcore : t.core = s.core) (hqueue : t.queue c = q) (hxs : q.Holds (P.priv t c) xs)
    (hnd : xs.Nodup) (hmem : ∀ f, f ∈ xs ↔ t.place f = .queued ∧ P.core f = c)
    (hval : ∀ τ x, P.priv t c τ = some x → (q.node x).val = P.target τ)
    (hnode : ∀ x, (s.queue c).Published (P.priv s c) x →
      q.node x = (s.queue c).node x ∧ q.Published (P.priv t c) x) : CoreFine P t c := by
  subst hqueue
  refine ⟨?_, ⟨xs, hxs, hnd, hmem⟩, hval, ?_⟩
  · rw [hcore]
    exact h.own
  · rw [hcore]
    exact h.pop.mono hnode

variable [DecidableEq F]

structure Fine (P : Futures C F S) (s : State C F S) (f : F) : Prop where
  waiter : s.waiter f = true ↔ s.place f = .waiter
  status : (s.status f).Fits (s.place f) (P.pc s f)
  holds : ∀ σ, P.target σ = f → ((s.signal σ).holds = true ↔ s.place f = .signal σ)
  target : ∀ σ, s.place f = .signal σ → P.target σ = f
  ready : ∀ σ, P.target σ = f → s.signal σ ≠ .idle → s.ready f = true
  dekker : s.place f = .waiter → ∀ σ, P.target σ = f → s.signal σ = .done →
    P.pc s f = some .recheck ∨ P.pc s f = some .cancel
  pushed : ∀ c, s.pushed c f = if c = P.core f then (s.place f).pushes else 0
  popped : ∀ c, s.popped c f = if c = P.core f then (s.place f).pops else 0

structure Inv (P : Futures C F S) (s : State C F S) : Prop where
  fine : ∀ f, Fine P s f
  core : ∀ c, CoreFine P s c

theorem inv_init (node : C → ℕ → LinkedStack.Node F) : Inv P (State.init node) where
  fine f := by
    constructor <;> simp [State.init, Status.Fits, Futures.pc, CoreAct.pc, Signal.holds,
      Place.pushes, Place.pops]
  core c := by
    refine ⟨fun _ _ h => (by cases h), ⟨[], ?_, nodup_nil, by simp [State.init]⟩, ?_, trivial⟩
    · exact LinkedStack.holds_empty _ fun σ => by simp [Futures.priv, State.init, Signal.node]
    · intro σ a h
      simp [Futures.priv, State.init, Signal.node] at h

/-! ## What a step leaves as it is -/

/-- The coroutine stays where it is. -/
theorem Fine.stay (h : Fine P s f) (hwaiter : t.waiter f = s.waiter f)
    (hplace : t.place f = s.place f) (hstatus : (t.status f).Fits (s.place f) (P.pc t f))
    (hholds : ∀ σ, P.target σ = f → (t.signal σ).holds = (s.signal σ).holds)
    (hready : ∀ σ, P.target σ = f → t.signal σ ≠ .idle → t.ready f = true)
    (hdekker : s.place f = .waiter → ∀ σ, P.target σ = f → t.signal σ = .done →
      P.pc t f = some .recheck ∨ P.pc t f = some .cancel)
    (hpushed : ∀ c, t.pushed c f = s.pushed c f) (hpopped : ∀ c, t.popped c f = s.popped c f) :
    Fine P t f where
  waiter := by rw [hwaiter, hplace]; exact h.waiter
  status := by rw [hplace]; exact hstatus
  holds σ hσ := by rw [hholds σ hσ, hplace]; exact h.holds σ hσ
  target := by rw [hplace]; exact h.target
  ready := hready
  dekker := by rw [hplace]; exact hdekker
  pushed c := by rw [hpushed, hplace]; exact h.pushed c
  popped c := by rw [hpopped, hplace]; exact h.popped c

theorem Fine.congr (h : Fine P s f) (hready : t.ready f = s.ready f)
    (hwaiter : t.waiter f = s.waiter f) (hplace : t.place f = s.place f)
    (hstatus : t.status f = s.status f) (hpc : P.pc t f = P.pc s f)
    (hsignal : ∀ σ, P.target σ = f → t.signal σ = s.signal σ)
    (hpushed : ∀ c, t.pushed c f = s.pushed c f) (hpopped : ∀ c, t.popped c f = s.popped c f) :
    Fine P t f := by
  refine h.stay hwaiter hplace ?_ ?_ ?_ ?_ hpushed hpopped
  · rw [hstatus, hpc]
    exact h.status
  · intro σ hσ
    rw [hsignal σ hσ]
  · intro σ hσ
    rw [hsignal σ hσ, hready]
    exact h.ready σ hσ
  · intro hp σ hσ
    rw [hsignal σ hσ, hpc]
    exact h.dekker hp σ hσ

/-- A core goes on to `a`, with the same waits. -/
theorem pc_of_core {a : CoreAct F} (hcore : t.core = update s.core c a)
    (hpc : P.core f = c → a.pc f = (s.core c).pc f) : P.pc t f = P.pc s f := by
  unfold Futures.pc
  rw [hcore]
  by_cases hc : P.core f = c
  · rw [hc, update_self, hpc hc]
  · rw [update_of_ne hc]

theorem pc_wait_of_ne (h : g ≠ f) (w : Wait) : (CoreAct.wait g w).pc f = none := if_neg h

theorem pc_wait_self (f : F) (w : Wait) : (CoreAct.wait f w).pc f = some w := if_pos rfl

/-- A step of a core in the wait for `f`, or to it. -/
theorem Inv.waitFor (h : Inv P s) {a : CoreAct F}
    (hold : ∀ g, g ≠ f → (s.core (P.core f)).pc g = none) (ha : a = .idle ∨ ∃ w, a = .wait f w)
    (hcore : t.core = update s.core (P.core f) a)
    (hqueue : t.queue = s.queue) (hsignal : t.signal = s.signal) (hready : t.ready = s.ready)
    (hpushed : t.pushed = s.pushed) (hpopped : t.popped = s.popped)
    (hother : ∀ g, g ≠ f → t.waiter g = s.waiter g ∧ t.place g = s.place g ∧
      t.status g = s.status g)
    (hplace : t.place f = .queued ↔ s.place f = .queued) (hfine : Fine P t f) : Inv P t := by
  have hpriv : ∀ c, P.priv t c = P.priv s c := by
    intro c
    funext σ
    rw [Futures.priv, hsignal, Futures.priv]
  have hqueued : ∀ g, t.place g = .queued ↔ s.place g = .queued := by
    intro g
    by_cases hg : g = f
    · rw [hg, hplace]
    · rw [(hother g hg).2.1]
  have hnew : ∀ g, g ≠ f → a.pc g = none := by
    intro g hg
    rcases ha with rfl | ⟨w, rfl⟩
    · rfl
    · exact pc_wait_of_ne hg.symm _
  constructor
  · intro g
    by_cases hg : g = f
    · rw [hg]
      exact hfine
    · obtain ⟨hw, hp, hst⟩ := hother g hg
      refine (h.fine g).congr (by rw [hready]) hw hp hst (pc_of_core hcore fun _ => ?_)
        (fun σ _ => by rw [hsignal]) (fun c => by rw [hpushed]) (fun c => by rw [hpopped])
      rw [hold g hg, hnew g hg]
  · intro c
    by_cases hc : c = P.core f
    · subst hc
      refine (h.core _).stay ?_ (by rw [hqueue]) (hpriv _) (fun g _ => hqueued g) ?_
      · rw [hcore, update_self]
        intro g w hg
        by_contra hne
        have := hnew g fun hgf => hne (by rw [hgf])
        rw [hg, pc_wait_self] at this
        cases this
      · rw [hcore, update_self]
        rcases ha with rfl | ⟨w, rfl⟩ <;> trivial
    · refine (h.core c).congr ?_ (by rw [hqueue]) (hpriv c) fun g _ => hqueued g
      rw [hcore, update_of_ne hc]

/-! ## `WaitForFutureValue` -/

/-- The coroutine becomes the waiter, or stops being it. -/
theorem Fine.setWaiter (h : Fine P s f) {b : Bool}
    (hold : s.place f = .nowhere ∨ s.place f = .waiter)
    (hready : t.ready f = s.ready f) (hwaiter : t.waiter f = b)
    (hplace : t.place f = if b then .waiter else .nowhere) (hsignal : t.signal = s.signal)
    (hpushed : t.pushed = s.pushed) (hpopped : t.popped = s.popped)
    (hstatus : (t.status f).Fits (t.place f) (P.pc t f))
    (hdekker : b = true → P.pc t f = some .recheck ∨ P.pc t f = some .cancel) : Fine P t f := by
  have hfree : ∀ σ, P.target σ = f → (s.signal σ).holds = false := by
    intro σ hσ
    rw [← Bool.not_eq_true, h.holds σ hσ]
    rcases hold with hp | hp <;> rw [hp] <;> simp
  have hnot : ∀ σ, t.place f ≠ .signal σ := by
    intro σ
    rw [hplace]
    split_ifs <;> simp
  have hcounts : (t.place f).pushes = (s.place f).pushes ∧ (t.place f).pops = (s.place f).pops := by
    rw [hplace]
    rcases hold with hp | hp <;> rw [hp] <;> split_ifs <;> exact ⟨rfl, rfl⟩
  refine ⟨?_, hstatus, ?_, fun σ hσ => absurd hσ (hnot σ), ?_, ?_, ?_, ?_⟩
  · rw [hwaiter, hplace]
    cases b <;> simp
  · intro σ hσ
    rw [hsignal, hfree σ hσ]
    exact iff_of_false (by simp) (hnot σ)
  · rw [hsignal, hready]
    exact h.ready
  · intro hp σ _ _
    refine hdekker ?_
    rw [hplace] at hp
    cases b
    · cases hp
    · rfl
  · rw [hpushed, hcounts.1]
    exact h.pushed
  · rw [hpopped, hcounts.2]
    exact h.popped

theorem Fine.waiting (h : Fine P s f) {w : Wait} (hpc : P.pc s f = some w) :
    s.status f = .waiting ∧ (s.place f = .nowhere ↔ w = .check ∨ w = .attach) := by
  have hst := h.status
  rw [hpc] at hst
  cases hs : s.status f with
  | waiting =>
    rw [hs] at hst
    obtain ⟨w', hw, hp⟩ := hst
    cases hw
    exact ⟨rfl, hp⟩
  | notCalled | returned | detached =>
    rw [hs] at hst
    cases hst.2

theorem pc_setCore_self (s : State C F S) (a : CoreAct F) :
    P.pc (s.setCore (P.core f) a) f = a.pc f := by
  unfold Futures.pc State.setCore
  dsimp only
  rw [update_self]

theorem Inv.wait (h : Inv P s) (hidle : s.core (P.core f) = .idle) (hst : s.status f = .notCalled) :
    Inv P ((s.setStatus f .waiting).setCore (P.core f) (.wait f .check)) := by
  have hplace := (h.fine f).status
  rw [hst] at hplace
  refine h.waitFor (f := f) (fun g _ => by rw [hidle]; rfl) (.inr ⟨.check, rfl⟩) rfl rfl rfl rfl
    rfl rfl (fun g hg => ⟨rfl, rfl, update_of_ne hg ..⟩) Iff.rfl ((h.fine f).stay rfl rfl ?_
      (fun _ _ => rfl) (h.fine f).ready ?_ (fun _ => rfl) fun _ => rfl)
  · rw [pc_setCore_self, pc_wait_self]
    change (update s.status f Status.waiting f).Fits _ _
    rw [update_self]
    exact ⟨.check, rfl, iff_of_true hplace.1 (.inl rfl)⟩
  · intro hp
    rw [hplace.1] at hp
    cases hp

section

variable (h : Inv P s) (hold : ∀ g, g ≠ f → (s.core (P.core f)).pc g = none)

include h hold

/-- A step within the wait, with the coroutine where it is. -/
theorem Inv.waitOn (hst : s.status f = .waiting) {w : Wait}
    (hp : s.place f = .nowhere ↔ w = .check ∨ w = .attach)
    (hd : s.place f = .waiter → ∀ σ, P.target σ = f → s.signal σ = .done →
      w = .recheck ∨ w = .cancel) : Inv P (s.setCore (P.core f) (.wait f w)) := by
  refine h.waitFor hold (.inr ⟨w, rfl⟩) rfl rfl rfl rfl rfl rfl (fun g _ => ⟨rfl, rfl, rfl⟩)
    Iff.rfl ((h.fine f).stay rfl rfl ?_ (fun _ _ => rfl) (h.fine f).ready ?_ (fun _ => rfl)
      fun _ => rfl)
  · rw [pc_setCore_self, pc_wait_self]
    change (s.status f).Fits _ _
    rw [hst]
    exact ⟨w, rfl, hp⟩
  · intro hpw σ hσ hdone
    rw [pc_setCore_self, pc_wait_self, some_inj, some_inj]
    exact hd hpw σ hσ hdone

/-- A step that ends the wait, with the coroutine where it is. -/
theorem Inv.waitEnd {a : Status} (ha : a.Fits (s.place f) none)
    (hd : s.place f = .waiter → ∀ σ, P.target σ = f → s.signal σ ≠ .done) :
    Inv P ((s.setStatus f a).setCore (P.core f) .idle) := by
  refine h.waitFor hold (.inl rfl) rfl rfl rfl rfl rfl rfl
    (fun g hg => ⟨rfl, rfl, update_of_ne hg ..⟩) Iff.rfl
    ((h.fine f).stay rfl rfl ?_ (fun _ _ => rfl) (h.fine f).ready ?_ (fun _ => rfl) fun _ => rfl)
  · rw [pc_setCore_self]
    change (update s.status f a f).Fits _ _
    rw [update_self]
    exact ha
  · intro hpw σ hσ hdone
    exact absurd hdone (hd hpw σ hσ)

end

theorem Inv.waitStep (h : Inv P s) {w : Wait} (hw : s.core (P.core f) = .wait f w) :
    Inv P (s.waitStep (P.core f) f w) := by
  have hpc : P.pc s f = some w := by
    unfold Futures.pc
    rw [hw, pc_wait_self]
  have hold : ∀ g, g ≠ f → (s.core (P.core f)).pc g = none := fun g hg => by
    rw [hw]
    exact pc_wait_of_ne hg.symm _
  have hf := h.fine f
  obtain ⟨hst, hnowhere⟩ := hf.waiting hpc
  cases w with
  | check =>
    have hp := hnowhere.2 (.inl rfl)
    have hd : s.place f ≠ .waiter := by
      rw [hp]
      exact nofun
    rw [State.waitStep]
    split_ifs with hready
    · exact h.waitEnd hold (a := .returned) ⟨hp, rfl⟩ fun hpw => absurd hpw hd
    · exact h.waitOn hold hst (iff_of_true hp (.inr rfl)) fun hpw => absurd hpw hd
  | attach =>
    have hp := hnowhere.2 (.inr rfl)
    have hplace : (s.waitStep (P.core f) f .attach).place f = .waiter := update_self ..
    have hpc' : P.pc (s.waitStep (P.core f) f .attach) f = some .recheck := by
      rw [State.waitStep, pc_setCore_self, pc_wait_self]
    refine h.waitFor hold (.inr ⟨.recheck, rfl⟩) rfl rfl rfl rfl rfl rfl
      (fun g hg => ⟨update_of_ne hg .., update_of_ne hg .., rfl⟩) ?_
      (hf.setWaiter (b := true) (.inl hp) rfl (update_self ..) hplace rfl rfl rfl ?_ ?_)
    · rw [hplace, hp]
      exact iff_of_false nofun nofun
    · rw [hplace, hpc']
      change (s.status f).Fits _ _
      rw [hst]
      exact ⟨.recheck, rfl, iff_of_false nofun (by simp)⟩
    · intro _
      exact .inl hpc'
  | recheck =>
    have hp : s.place f ≠ .nowhere := fun hp => by simpa using hnowhere.1 hp
    rw [State.waitStep]
    split_ifs with hready
    · exact h.waitOn hold hst (iff_of_false hp (by simp)) fun _ _ _ _ => .inr rfl
    · refine h.waitOn hold hst (iff_of_false hp (by simp)) fun _ σ hσ hdone => ?_
      exact absurd (hf.ready σ hσ (by rw [hdone]; exact nofun)) hready
  | cancel =>
    have hp : s.place f ≠ .nowhere := fun hp => by simpa using hnowhere.1 hp
    rw [State.waitStep]
    split_ifs with hwaiter
    · have hpw := hf.waiter.1 hwaiter
      refine h.waitFor hold (.inl rfl) rfl rfl rfl rfl rfl rfl
        (fun g hg => ⟨update_of_ne hg .., update_of_ne hg ..,
          update_of_ne hg ..⟩) ?_
        (hf.setWaiter (b := false) (.inr hpw) rfl (update_self ..)
          (update_self ..) rfl rfl rfl ?_ nofun)
      · change update s.place f Place.nowhere f = _ ↔ _
        rw [update_self, hpw]
        exact iff_of_false nofun nofun
      · rw [pc_setCore_self]
        change (update s.status f Status.returned f).Fits
          (update s.place f Place.nowhere f) none
        rw [update_self, update_self]
        exact ⟨rfl, rfl⟩
    · refine h.waitOn hold hst (iff_of_false hp (by simp)) fun hpw => ?_
      exact absurd (hf.waiter.2 hpw) hwaiter
  | detach =>
    have hp : s.place f ≠ .nowhere := fun hp => by simpa using hnowhere.1 hp
    refine h.waitEnd hold (a := .detached) ⟨hp, rfl⟩ fun hpw σ hσ hdone => ?_
    have := hf.dekker hpw σ hσ hdone
    rw [hpc] at this
    simp at this

/-! ## `ReadyQueue::Pop` -/

/-- Once the coroutine has been attached, it does not matter to the wait where it goes. -/
theorem Status.Fits.transfer {a : Status} {p p' : Place S} {pc : Option Wait} (h : a.Fits p pc)
    (hp : p ≠ .nowhere) (hp' : p' ≠ .nowhere) : a.Fits p' pc := by
  cases a with
  | notCalled => exact absurd h.1 hp
  | waiting =>
    obtain ⟨w, hw, hiff⟩ := h
    exact ⟨w, hw, iff_of_false hp' fun hc => hp (hiff.2 hc)⟩
  | returned => exact absurd h.1 hp
  | detached => exact ⟨hp', h.2⟩

/-- The coroutine goes from one place to the next. -/
theorem Fine.transfer (h : Fine P s f) {p : Place S} (hold : s.place f ≠ .nowhere)
    (hnew : p ≠ .nowhere ∧ p ≠ .waiter) (hplace : t.place f = p) (hwaiter : t.waiter f = false)
    (hstatus : t.status f = s.status f) (hpc : P.pc t f = P.pc s f)
    (hholds : ∀ σ, P.target σ = f → ((t.signal σ).holds = true ↔ p = .signal σ))
    (htarget : ∀ σ, p = .signal σ → P.target σ = f)
    (hready : ∀ σ, P.target σ = f → t.signal σ ≠ .idle → t.ready f = true)
    (hpushed : ∀ c, t.pushed c f = if c = P.core f then p.pushes else 0)
    (hpopped : ∀ c, t.popped c f = if c = P.core f then p.pops else 0) : Fine P t f := by
  subst hplace
  refine ⟨?_, ?_, hholds, htarget, hready, fun hp => absurd hp hnew.2, hpushed, hpopped⟩
  · rw [hwaiter]
    exact iff_of_false nofun hnew.2
  · rw [hstatus, hpc]
    exact h.status.transfer hold hnew.1

theorem count_self (n : C → F → ℕ) (c : C) (f : F) : State.count n c f c f = n c f + 1 := by
  rw [State.count, update_self, update_self]

theorem count_of_ne (n : C → F → ℕ) (c d : C) (h : g ≠ f) : State.count n c f d g = n d g := by
  unfold State.count
  by_cases hd : d = c
  · rw [hd, update_self, update_of_ne h]
  · rw [update_of_ne hd]

theorem count_core {n : C → F → ℕ} {k : ℕ}
    (h : ∀ c, n c f = if c = P.core f then k else 0) (c : C) :
    State.count n (P.core f) f c f = if c = P.core f then k + 1 else 0 := by
  split_ifs with hc
  · rw [hc, count_self, h, if_pos rfl]
  · rw [State.count, update_of_ne hc, h, if_neg hc]

/-- A core that is not in a wait goes on to something that is not in a wait. -/
theorem Inv.setCore (h : Inv P s) {a : CoreAct F} (hold : ∀ g, (s.core c).pc g = none)
    (hnew : ∀ g, a.pc g = none) (hpop : PopFits (s.queue c) (P.priv s c) a) :
    Inv P (s.setCore c a) := by
  constructor
  · intro g
    refine (h.fine g).congr rfl rfl rfl rfl (pc_of_core rfl fun _ => ?_) (fun _ _ => rfl)
      (fun _ => rfl) (fun _ => rfl)
    rw [hold, hnew]
  · intro d
    by_cases hd : d = c
    · subst hd
      have hcore : (s.setCore d a).core d = a := update_self ..
      refine (h.core d).stay (fun f w hf => ?_) rfl rfl (fun _ _ => Iff.rfl)
        (by rw [hcore]; exact hpop)
      rw [hcore] at hf
      have := hnew f
      rw [hf, pc_wait_self] at this
      cases this
    · exact (h.core d).congr (update_of_ne hd ..) rfl rfl fun _ _ => Iff.rfl

/-- The exchange of `list_head` in `Pop` is successful. -/
theorem Inv.popTake (h : Inv P s) {old : ℕ} {new : Option ℕ} (hc : s.core c = .popTake old new)
    (hhead : (s.queue c).head = some old) (hf : ((s.queue c).node old).val = f) :
    Inv P { ((s.setQueue c ((s.queue c).setHead new)).setPlace f .popped).setCore c .idle with
      popped := State.count s.popped c f } := by
  obtain ⟨xs, hxs, hnd, hmem⟩ := (h.core c).items
  have hpop := (h.core c).pop
  rw [hc] at hpop
  obtain ⟨-, rfl⟩ := hpop
  obtain ⟨ys, rfl, hys⟩ := hxs.pop hhead
  rw [hf] at hmem hnd
  obtain ⟨hq, rfl⟩ := (hmem f).1 mem_cons_self
  have hfine := h.fine f
  have hnotWaiter : s.waiter f = false := by
    rw [← Bool.not_eq_true, hfine.waiter, hq]
    exact nofun
  have hpc : ∀ g, (s.core (P.core f)).pc g = none := fun g => by rw [hc]; rfl
  constructor
  · intro g
    by_cases hg : g = f
    · subst hg
      refine hfine.transfer (p := .popped) (by rw [hq]; exact nofun) ⟨nofun, nofun⟩
        (update_self ..) hnotWaiter rfl (pc_of_core rfl fun _ => (hpc g).symm) ?_ nofun
        hfine.ready ?_ ?_
      · intro σ hσ
        refine iff_of_false ?_ nofun
        change ¬(s.signal σ).holds = true
        rw [hfine.holds σ hσ, hq]
        exact nofun
      · have := hfine.pushed
        rw [hq] at this
        exact this
      · have := hfine.popped
        rw [hq] at this
        exact count_core this
    · refine (h.fine g).congr rfl rfl (update_of_ne hg ..) rfl
        (pc_of_core rfl fun _ => (hpc g).symm) (fun _ _ => rfl) (fun _ => rfl)
        fun d => count_of_ne _ _ _ hg
  · intro d
    by_cases hd : d = P.core f
    · subst hd
      refine ⟨?_, ⟨ys, ?_, hnd.of_cons, fun g => ?_⟩, ?_, ?_⟩
      · intro g w hg
        rw [show (State.setCore _ _ _).core (P.core f) = .idle from update_self ..] at hg
        cases hg
      · change (update s.queue _ _ _).Holds (P.priv s _) ys
        rw [update_self]
        exact hys
      · change g ∈ ys ↔ update s.place f .popped g = .queued ∧ P.core g = P.core f
        by_cases hg : g = f
        · rw [hg, update_self]
          exact iff_of_false (nodup_cons.1 hnd).1 fun hc => nomatch hc.1
        · rw [update_of_ne hg, ← hmem, mem_cons]
          exact ⟨.inr, fun hc => hc.resolve_left hg⟩
      · change ∀ σ a, P.priv s _ σ = some a →
          ((update s.queue _ _ (P.core f)).node a).val = P.target σ
        rw [update_self]
        exact (h.core (P.core f)).val
      · rw [show (State.setCore _ _ _).core (P.core f) = .idle from update_self ..]
        trivial
    · refine (h.core d).congr (update_of_ne hd ..) (update_of_ne hd ..) rfl ?_
      intro g hg
      have hgf : g ≠ f := by
        rintro rfl
        exact hd hg.symm
      change update s.place f .popped g = .queued ↔ _
      rw [update_of_ne hgf]

theorem Inv.coreStep (h : Inv P s) (ht : s.coreStep c (s.core c) = some t) : Inv P t := by
  cases hc : s.core c with
  | idle =>
    rw [hc] at ht
    cases ht
  | wait f w =>
    obtain rfl := (h.core c).own f w hc
    rw [hc] at ht
    cases ht
    exact h.waitStep hc
  | popHead =>
    have hpc : ∀ g, (s.core c).pc g = none := fun g => by rw [hc]; rfl
    rw [hc, State.coreStep] at ht
    split at ht
    · cases ht
      exact h.setCore hpc (fun _ => rfl) trivial
    · rename_i old hhead
      cases ht
      obtain ⟨xs, hxs, -⟩ := (h.core c).items
      exact h.setCore hpc (fun _ => rfl) (hxs.published_head hhead)
  | popNext old =>
    have hpop := (h.core c).pop
    rw [hc] at hpop ht
    cases ht
    exact h.setCore (fun g => by rw [hc]; rfl) (fun _ => rfl) ⟨hpop, rfl⟩
  | popTake old new =>
    rw [hc, State.coreStep] at ht
    split_ifs at ht with hhead
    · cases ht
      exact h.popTake hc hhead rfl
    · cases ht
      exact h.setCore (fun g => by rw [hc]; rfl) (fun _ => rfl) trivial

theorem Inv.place_of_holds (h : Inv P s) (hholds : (s.signal σ).holds = true) :
    s.place (P.target σ) = .signal σ :=
  ((h.fine _).holds σ rfl).1 hholds

/-- The wait for the future is over, `SetReady` has been called for it, every call has returned, and
there is nothing left in the ready queue of the core. -/
structure Quiescent (P : Futures C F S) (s : State C F S) (f : F) : Prop where
  waited : s.status f = .returned ∨ s.status f = .detached
  called : ∃ σ, P.target σ = f ∧ s.signal σ = .done
  signals : ∀ σ, P.target σ = f → s.signal σ = .idle ∨ s.signal σ = .done
  empty : (s.queue (P.core f)).head = none

/-- `WaitForFutureValue` has returned, and the coroutine was never in a ready queue. -/
def Kept (s : State C F S) (f : F) : Prop := s.status f = .returned ∧ ∀ c, s.pushed c f = 0

/-- The coroutine has been detached, and it was put into the queue of its core and taken out of it
once, and into no other queue. -/
def Woken (P : Futures C F S) (s : State C F S) (f : F) : Prop :=
  s.status f = .detached ∧ ∀ c, s.pushed c f = (if c = P.core f then 1 else 0) ∧
    s.popped c f = if c = P.core f then 1 else 0

theorem Inv.kept (h : Inv P s) (hst : s.status f = .returned) : Kept s f := by
  refine ⟨hst, fun c => ?_⟩
  have hfits := (h.fine f).status
  rw [hst] at hfits
  rw [(h.fine f).pushed, hfits.1]
  exact ite_self 0

/-- A coroutine that has been detached has been taken from the queue in the end. -/
theorem Inv.popped_of_quiescent (h : Inv P s) (hq : Quiescent P s f)
    (hst : s.status f = .detached) :
    s.place f = .popped := by
  have hf := h.fine f
  have hfits := hf.status
  rw [hst] at hfits
  obtain ⟨hp, hpc⟩ := hfits
  cases hplace : s.place f with
  | nowhere => exact absurd hplace hp
  | waiter =>
    -- a call that is over has not seen the waiter, so the wait has still to look at `ready` again
    obtain ⟨σ, hσ, hdone⟩ := hq.called
    have := hf.dekker hplace σ hσ hdone
    rw [hpc] at this
    simp at this
  | signal σ =>
    have hσ := hf.target σ hplace
    have hholds := (hf.holds σ hσ).2 hplace
    rcases hq.signals σ hσ with hs | hs
    · rw [hs] at hholds
      cases hholds
    · rw [hs] at hholds
      cases hholds
  | queued =>
    obtain ⟨xs, hxs, -, hmem⟩ := (h.core (P.core f)).items
    have hf := (hmem f).2 ⟨hplace, rfl⟩
    rw [hxs.head_eq_none hq.empty] at hf
    cases hf
  | popped => rfl

theorem Inv.woken (h : Inv P s) (hq : Quiescent P s f) (hst : s.status f = .detached) :
    Woken P s f := by
  have hp := h.popped_of_quiescent hq hst
  refine ⟨hst, fun c => ⟨?_, ?_⟩⟩
  · rw [(h.fine f).pushed, hp, Place.pushes]
  · rw [(h.fine f).popped, hp, Place.pops]

end

/-! ## `SetReady` -/

section

variable [DecidableEq C] [DecidableEq S] {P : Futures C F S} {s t : State C F S}
  {f g : F} {c : C} {σ : S} {a : Signal}

/-- The node of the call is the same. -/
theorem priv_of_signal (hsignal : t.signal = update s.signal σ a)
    (hnode : a.node = (s.signal σ).node) (c : C) : P.priv t c = P.priv s c := by
  funext τ
  unfold Futures.priv
  rw [hsignal]
  by_cases hτ : τ = σ
  · rw [hτ, update_self, hnode]
  · rw [update_of_ne hτ]

theorem priv_self (hsignal : t.signal = update s.signal σ a)
    (hc : P.core (P.target σ) = c) : P.priv t c σ = a.node := by
  unfold Futures.priv
  rw [if_pos hc, hsignal, update_self]

theorem priv_of_ne (hsignal : t.signal = update s.signal σ a) (c : C) {τ : S} (hτ : τ ≠ σ) :
    P.priv t c τ = P.priv s c τ := by
  unfold Futures.priv
  rw [hsignal, update_of_ne hτ]

theorem CoreFine.alloc (h : CoreFine P s c) (hc : P.core (P.target σ) = c)
    (hsignal : t.signal = update s.signal σ (.loadHead (s.queue c).brk))
    (hqueue : t.queue c = (s.queue c).alloc (P.target σ)) (hcore : t.core = s.core)
    (hplace : t.place = s.place) : CoreFine P t c := by
  obtain ⟨xs, hxs, hnd, hmem⟩ := h.items
  have hself : P.priv t c σ = some (s.queue c).brk := priv_self hsignal hc
  have hother : ∀ τ, τ ≠ σ → P.priv t c τ = P.priv s c τ := fun τ => priv_of_ne hsignal c
  refine h.setQueue hcore hqueue (hxs.alloc _ hself hother) hnd (by rw [hplace]; exact hmem) ?_ ?_
  · intro τ x hx
    by_cases hτ : τ = σ
    · rw [hτ, hself] at hx
      cases hx
      change (update (s.queue c).node _ _ _).val = _
      rw [hτ, update_self]
    · rw [hother τ hτ] at hx
      have hlt := hxs.priv_lt τ x hx
      change (update (s.queue c).node _ _ x).val = _
      rw [update_of_ne (Nat.ne_of_lt hlt)]
      exact h.val τ x hx
  · intro x hpub
    refine ⟨update_of_ne (Nat.ne_of_lt hpub.1) .., Nat.lt_succ_of_lt hpub.1, fun τ hτx => ?_⟩
    by_cases hτ : τ = σ
    · rw [hτ, hself] at hτx
      exact Nat.ne_of_gt hpub.1 (some.inj hτx)
    · exact hpub.2 τ ((hother τ hτ).symm.trans hτx)

/-- The exchange of `list_head` in `Add` fails: the call has written the link of its node. -/
theorem CoreFine.relink (h : CoreFine P s c) (hc : P.core (P.target σ) = c) {x : ℕ}
    {old new : Option ℕ} (hσ : (s.signal σ).node = some x)
    (hsignal : t.signal = update s.signal σ (.pushHead x new))
    (hqueue : t.queue c = (s.queue c).link x old) (hcore : t.core = s.core)
    (hplace : t.place = s.place) : CoreFine P t c := by
  obtain ⟨xs, hxs, hnd, hmem⟩ := h.items
  have hpriv : P.priv t c = P.priv s c := priv_of_signal hsignal hσ.symm c
  have hself : P.priv s c σ = some x := by rw [Futures.priv, if_pos hc, hσ]
  refine h.setQueue hcore hqueue (by rw [hpriv]; exact hxs.link hself old) hnd
    (by rw [hplace]; exact hmem) ?_ ?_
  · intro τ y hy
    rw [hpriv] at hy
    rw [LinkedStack.val_link]
    exact h.val τ y hy
  · intro y hpub
    rw [hpriv]
    exact ⟨LinkedStack.published_link hself hpub old, hpub⟩

variable [DecidableEq F]

/-- A step of `SetReady` for `f` changes nothing of the other futures and of the other cores. -/
theorem Inv.signalOn (h : Inv P s) (hf : P.target σ = f) (hc : P.core f = c)
    (hsignal : t.signal = update s.signal σ a)
    (hcore : t.core = s.core) (hpopped : t.popped = s.popped) (hstatus : t.status = s.status)
    (hqueue : ∀ d, d ≠ c → t.queue d = s.queue d)
    (hother : ∀ g, g ≠ f → t.ready g = s.ready g ∧ t.waiter g = s.waiter g ∧ t.place g = s.place g ∧
      ∀ c, t.pushed c g = s.pushed c g)
    (hfine : Fine P t f) (hcoreFine : CoreFine P t c) : Inv P t := by
  subst hf hc
  constructor
  · intro g
    by_cases hg : g = P.target σ
    · rw [hg]
      exact hfine
    · obtain ⟨hr, hw, hp, hpu⟩ := hother g hg
      refine (h.fine g).congr hr hw hp (by rw [hstatus]) ?_ ?_ hpu (fun c => by rw [hpopped])
      · rw [Futures.pc, hcore, Futures.pc]
      · intro τ hτ
        rw [hsignal, update_of_ne]
        rintro rfl
        exact hg hτ.symm
  · intro d
    by_cases hd : d = P.core (P.target σ)
    · rw [hd]
      exact hcoreFine
    · refine (h.core d).congr (by rw [hcore]) (hqueue d hd) ?_ ?_
      · funext τ
        by_cases hτ : τ = σ
        · rw [hτ, Futures.priv, Futures.priv, if_neg (Ne.symm hd), if_neg (Ne.symm hd)]
        · exact priv_of_ne hsignal d hτ
      · intro g hg
        rw [(hother g _).2.2.1]
        rintro rfl
        exact hd hg.symm

/-- The call goes on, and the coroutine stays where it is. -/
theorem Fine.signalMove (h : Fine P s f)
    (hsignal : t.signal = update s.signal σ a) (hholds : a.holds = (s.signal σ).holds)
    (hdone : a = .done → s.waiter f = false) (hready : t.ready f = true)
    (hwaiter : t.waiter f = s.waiter f) (hplace : t.place f = s.place f)
    (hstatus : t.status f = s.status f) (hcore : t.core = s.core)
    (hpushed : t.pushed = s.pushed) (hpopped : t.popped = s.popped) : Fine P t f := by
  have hpc : P.pc t f = P.pc s f := by rw [Futures.pc, hcore, Futures.pc]
  refine h.stay hwaiter hplace (by rw [hstatus, hpc]; exact h.status) ?_ (fun _ _ _ => hready) ?_
    (fun c => by rw [hpushed]) fun c => by rw [hpopped]
  · intro τ _
    rw [hsignal]
    by_cases hτ : τ = σ
    · rw [hτ, update_self, hholds]
    · rw [update_of_ne hτ]
  · intro hp τ hτ hd
    rw [hpc]
    by_cases hτσ : τ = σ
    · rw [hτσ, hsignal, update_self] at hd
      rw [← h.waiter, hdone hd] at hp
      cases hp
    · rw [hsignal, update_of_ne hτσ] at hd
      exact h.dekker hp τ hτ hd

/-- The call goes on with the same node, and the queue is not touched. -/
theorem Inv.signalMove (h : Inv P s) (hf : P.target σ = f) (hc : P.core f = c)
    (hsignal : t.signal = update s.signal σ a) (hnode : a.node = (s.signal σ).node)
    (hqueue : t.queue = s.queue) (hcore : t.core = s.core) (hpopped : t.popped = s.popped)
    (hstatus : t.status = s.status) (hpushed : t.pushed = s.pushed)
    (hother : ∀ g, g ≠ f → t.ready g = s.ready g ∧ t.waiter g = s.waiter g ∧ t.place g = s.place g)
    (hplace : t.place f = .queued ↔ s.place f = .queued) (hfine : Fine P t f) : Inv P t := by
  refine h.signalOn hf hc hsignal hcore hpopped hstatus (fun d _ => by rw [hqueue]) ?_ hfine ?_
  · intro g hg
    obtain ⟨hr, hw, hp⟩ := hother g hg
    exact ⟨hr, hw, hp, fun c => by rw [hpushed]⟩
  · refine (h.core c).congr (by rw [hcore]) (by rw [hqueue]) (priv_of_signal hsignal hnode c) ?_
    intro g _
    by_cases hg : g = f
    · rw [hg, hplace]
    · rw [(hother g hg).2.2]

theorem Inv.call (h : Inv P s) (hidle : s.signal σ = .idle) :
    Inv P { s.setSignal σ .readWaiter with
      ready := update s.ready (P.target σ) true } := by
  refine h.signalMove rfl rfl rfl (by rw [hidle]; rfl) rfl rfl rfl rfl rfl
    (fun g hg => ⟨update_of_ne hg .., rfl, rfl⟩) Iff.rfl ?_
  exact (h.fine _).signalMove rfl (by rw [hidle]; rfl) nofun (update_self ..)
    rfl rfl rfl rfl
    rfl rfl

/-- The call goes on without the coroutine. -/
theorem Inv.setSignal (h : Inv P s) (hne : s.signal σ ≠ .idle) (hnode : a.node = (s.signal σ).node)
    (hholds : a.holds = (s.signal σ).holds) (hdone : a = .done → s.waiter (P.target σ) = false) :
    Inv P (s.setSignal σ a) := by
  refine h.signalMove rfl rfl rfl hnode rfl rfl rfl rfl rfl (fun _ _ => ⟨rfl, rfl, rfl⟩) Iff.rfl ?_
  exact (h.fine _).signalMove rfl hholds hdone ((h.fine _).ready σ rfl hne) rfl rfl rfl rfl rfl rfl

theorem Inv.takeWaiter (h : Inv P s) (hσ : s.signal σ = .takeWaiter)
    (hwaiter : s.waiter (P.target σ) = true) :
    Inv P (((s.setWaiter (P.target σ) false).setPlace (P.target σ) (.signal σ)).setSignal
      σ .alloc) := by
  have hfine := h.fine (P.target σ)
  have hp := hfine.waiter.1 hwaiter
  have hcounts : (s.place (P.target σ)).pushes = 0 ∧ (s.place (P.target σ)).pops = 0 := by
    rw [hp]
    exact ⟨rfl, rfl⟩
  refine h.signalMove rfl rfl rfl (by rw [hσ]; rfl) rfl rfl rfl rfl rfl
    (fun g hg => ⟨rfl, update_of_ne hg .., update_of_ne hg ..⟩) ?_
    (hfine.transfer (p := .signal σ) (by rw [hp]; exact nofun) ⟨nofun, nofun⟩
      (update_self ..) (update_self ..) rfl rfl ?_ ?_ ?_ ?_ ?_)
  · change update s.place _ (Place.signal σ) _ = _ ↔ _
    rw [update_self, hp]
    exact iff_of_false nofun nofun
  · intro τ hτ
    change (update s.signal σ .alloc τ).holds = true ↔ _
    by_cases hτσ : τ = σ
    · rw [hτσ, update_self]
      exact iff_of_true rfl rfl
    · rw [update_of_ne hτσ, hfine.holds τ hτ, hp]
      exact iff_of_false nofun fun hc => hτσ (Place.signal.inj hc).symm
  · intro τ hτ
    cases hτ
    rfl
  · intro _ _ _
    exact hfine.ready σ rfl (by rw [hσ]; exact nofun)
  · have := hfine.pushed
    rw [hcounts.1] at this
    exact this
  · have := hfine.popped
    rw [hcounts.2] at this
    exact this

theorem Inv.alloc (h : Inv P s) (hc : P.core (P.target σ) = c) (hσ : s.signal σ = .alloc) :
    Inv P ((s.setQueue c ((s.queue c).alloc (P.target σ))).setSignal σ
      (.loadHead (s.queue c).brk)) := by
  have hholds : (Signal.loadHead (s.queue c).brk).holds = (s.signal σ).holds := by
    rw [hσ]
    rfl
  refine h.signalOn rfl hc rfl rfl rfl rfl (fun d hd => update_of_ne hd ..)
    (fun _ _ => ⟨rfl, rfl, rfl, fun _ => rfl⟩)
    ((h.fine _).signalMove rfl hholds nofun
      ((h.fine _).ready σ rfl (by rw [hσ]; exact nofun)) rfl rfl rfl rfl rfl rfl) ?_
  exact (h.core c).alloc hc rfl (update_self ..) rfl rfl

theorem CoreFine.push (h : CoreFine P s c) (hc : P.core (P.target σ) = c) {x : ℕ} {old : Option ℕ}
    (hσ : (s.signal σ).node = some x) (hhead : (s.queue c).head = old)
    (hsignal : t.signal = update s.signal σ .done)
    (hqueue : t.queue c = ((s.queue c).link x old).setHead (some x)) (hcore : t.core = s.core)
    (hplace : t.place = update s.place (P.target σ) .queued)
    (hold : s.place (P.target σ) ≠ .queued) : CoreFine P t c := by
  obtain ⟨xs, hxs, hnd, hmem⟩ := h.items
  have hself : P.priv s c σ = some x := by rw [Futures.priv, if_pos hc, hσ]
  have hother : ∀ τ, τ ≠ σ → P.priv t c τ = P.priv s c τ := fun τ => priv_of_ne hsignal c
  have hdone : P.priv t c σ = none := priv_self hsignal hc
  have hval : (((s.queue c).link x old).node x).val = P.target σ := by
    rw [LinkedStack.val_link]
    exact h.val σ x hself
  have hnext : (((s.queue c).link x old).node x).next = ((s.queue c).link x old).head := by
    change (update (s.queue c).node x _ x).next = (s.queue c).head
    rw [update_self, hhead]
  have hxs' := (hxs.link hself old).push hself hnext hdone hother
  rw [hval] at hxs'
  have hsub : ∀ τ y, P.priv t c τ = some y → P.priv s c τ = some y := by
    intro τ y hy
    by_cases hτ : τ = σ
    · rw [hτ, hdone] at hy
      cases hy
    · exact (hother τ hτ).symm.trans hy
  refine h.setQueue hcore hqueue hxs' ?_ ?_ ?_ ?_
  · exact nodup_cons.2 ⟨fun hf => hold ((hmem _).1 hf).1, hnd⟩
  · intro g
    rw [hplace, mem_cons, hmem]
    by_cases hg : g = P.target σ
    · rw [hg, update_self]
      exact iff_of_true (.inl rfl) ⟨rfl, hc⟩
    · rw [update_of_ne hg]
      exact ⟨fun hm => hm.resolve_left hg, .inr⟩
  · intro τ y hy
    change (((s.queue c).link x old).node y).val = _
    rw [LinkedStack.val_link]
    exact h.val τ y (hsub τ y hy)
  · intro y hpub
    exact ⟨LinkedStack.published_link hself hpub old, hpub.mono le_rfl fun τ => hsub τ y⟩

theorem Inv.relink (h : Inv P s) (hc : P.core (P.target σ) = c) {x : ℕ} {old new : Option ℕ}
    (hσ : s.signal σ = .pushHead x old) :
    Inv P ((s.setQueue c ((s.queue c).link x old)).setSignal σ (.pushHead x new)) := by
  refine h.signalOn rfl hc rfl rfl rfl rfl (fun d hd => update_of_ne hd ..)
    (fun _ _ => ⟨rfl, rfl, rfl, fun _ => rfl⟩)
    ((h.fine _).signalMove rfl (by rw [hσ]; rfl) nofun
      ((h.fine _).ready σ rfl (by rw [hσ]; exact nofun)) rfl rfl rfl rfl rfl rfl) ?_
  exact (h.core c).relink hc (by rw [hσ]; rfl) rfl (update_self ..) rfl rfl

theorem Inv.push (h : Inv P s) (hc : P.core (P.target σ) = c) {x : ℕ} {old : Option ℕ}
    (hσ : s.signal σ = .pushHead x old) (hhead : (s.queue c).head = old) :
    Inv P { ((s.setQueue c (((s.queue c).link x old).setHead (some x))).setPlace (P.target σ)
      .queued).setSignal σ .done with pushed := State.count s.pushed c (P.target σ) } := by
  have hfine := h.fine (P.target σ)
  have hp : s.place (P.target σ) = .signal σ := h.place_of_holds (by rw [hσ]; rfl)
  refine h.signalOn rfl hc rfl rfl rfl rfl (fun d hd => update_of_ne hd ..)
    (fun g hg => ⟨rfl, rfl, update_of_ne hg .., fun d => count_of_ne _ _ _ hg⟩)
    (hfine.transfer (p := .queued) (by rw [hp]; exact nofun) ⟨nofun, nofun⟩
      (update_self ..) ?_ rfl rfl ?_ nofun ?_ ?_ ?_) ?_
  · rw [← Bool.not_eq_true]
    change ¬s.waiter (P.target σ) = true
    rw [hfine.waiter, hp]
    exact nofun
  · intro τ hτ
    change (update s.signal σ .done τ).holds = true ↔ _
    refine iff_of_false ?_ nofun
    by_cases hτσ : τ = σ
    · rw [hτσ, update_self]
      exact nofun
    · rw [update_of_ne hτσ, hfine.holds τ hτ, hp]
      exact fun hc => hτσ (Place.signal.inj hc).symm
  · intro _ _ _
    exact hfine.ready σ rfl (by rw [hσ]; exact nofun)
  · have := hfine.pushed
    rw [hp] at this
    subst hc
    exact count_core this
  · have := hfine.popped
    rw [hp] at this
    exact this
  · exact (h.core c).push hc (by rw [hσ]; rfl) hhead rfl (update_self ..) rfl rfl
      (by rw [hp]; exact nofun)

theorem Inv.signalStep (h : Inv P s)
    (ht : s.signalStep σ (P.target σ) (P.core (P.target σ)) (s.signal σ) = some t) : Inv P t := by
  cases hσ : s.signal σ with
  | idle =>
    rw [hσ] at ht
    cases ht
  | done =>
    rw [hσ] at ht
    cases ht
  | readWaiter =>
    rw [hσ] at ht
    cases ht
    refine h.setSignal (by rw [hσ]; exact nofun) ?_ ?_ ?_
    · rw [hσ]
      split_ifs <;> rfl
    · rw [hσ]
      split_ifs <;> rfl
    · split_ifs with hw
      · exact nofun
      · exact fun _ => Bool.not_eq_true _ ▸ hw
  | takeWaiter =>
    rw [hσ, State.signalStep] at ht
    split_ifs at ht with hw
    · cases ht
      exact h.takeWaiter hσ hw
    · cases ht
      exact h.setSignal (by rw [hσ]; exact nofun) (by rw [hσ]; rfl) (by rw [hσ]; rfl)
        fun _ => Bool.not_eq_true _ ▸ hw
  | alloc =>
    rw [hσ, State.signalStep] at ht
    split_ifs at ht
    cases ht
    exact h.alloc rfl hσ
  | loadHead x =>
    rw [hσ] at ht
    cases ht
    exact h.setSignal (by rw [hσ]; exact nofun) (by rw [hσ]; rfl) (by rw [hσ]; rfl) nofun
  | pushHead x old =>
    rw [hσ, State.signalStep] at ht
    dsimp only at ht
    split_ifs at ht with hhead
    · cases ht
      exact h.push rfl hσ hhead
    · cases ht
      exact h.relink rfl hσ

/-! ## Runs -/

theorem Inv.step (h : Inv P s) {e : Event C F S} (ht : P.step s e = some t) : Inv P t := by
  cases e with
  | wait f =>
    rw [Futures.step] at ht
    split_ifs at ht with hc
    cases ht
    exact h.wait hc.1 hc.2
  | pop c =>
    rw [Futures.step] at ht
    split_ifs at ht with hc
    cases ht
    exact h.setCore (fun g => by rw [hc]; rfl) (fun _ => rfl) trivial
  | core c => exact h.coreStep ht
  | call σ =>
    rw [Futures.step] at ht
    split_ifs at ht with hc
    cases ht
    exact h.call hc
  | signal σ => exact h.signalStep ht

/-- **The handshake of a future.** In every run, when the wait for a future and the calls of
`SetReady` for it, one or more, are over and the core has emptied its ready queue, then the
coroutine has either gone on without having been in a ready queue, or has been detached and has been
taken from the ready queue of its core exactly once. -/
theorem wait_exactly_once (P : Futures C F S) (node : C → ℕ → LinkedStack.Node F)
    (evs : List (Event C F S)) (s : State C F S)
    (hrun : run P.step (State.init node) evs = some s) (f : F) (hq : Quiescent P s f) :
    Xor (Kept s f) (Woken P s f) := by
  have h : Inv P s := run_induction (fun _ _ _ h ht => h.step ht) (inv_init node) hrun
  rcases hq.waited with hst | hst
  · refine .inl ⟨h.kept hst, fun hw => ?_⟩
    rw [hw.1] at hst
    cases hst
  · refine .inr ⟨h.woken hq hst, fun hk => ?_⟩
    rw [hk.1] at hst
    cases hst

def oneFuture : Futures Unit Unit Bool where
  core _ := ()
  target _ := ()

/-- The first call sees the coroutine before it looks at `ready` again, and takes it before it
can. -/
def takenRun : List (Event Unit Unit Bool) :=
  [.wait (), .core (), .core (), .call false, .signal false, .core (), .signal false, .core (),
    .core (), .call true, .signal true, .signal false, .signal false, .signal false,
    .pop (), .core (), .core (), .core ()]

theorem wait_exactly_once_takenRun : ∃ s, run oneFuture.step (State.init fun _ _ => ⟨(), none⟩)
    takenRun = some s ∧ s.status () = .detached ∧ Xor (Kept s ()) (Woken oneFuture s ()) := by
  obtain ⟨s, hs, hst, hσ, hhead⟩ : ∃ s, run oneFuture.step (State.init fun _ _ => ⟨(), none⟩)
      takenRun = some s ∧ s.status () = .detached ∧ (∀ σ, s.signal σ = .done) ∧ (s.queue ()).head =
      none := by decide +kernel
  exact ⟨s, hs, hst, wait_exactly_once oneFuture _ takenRun s hs ()
    ⟨.inr hst, ⟨true, rfl, hσ true⟩, fun σ _ => .inr (hσ σ), hhead⟩⟩

end

end Felis.Coro.Future
