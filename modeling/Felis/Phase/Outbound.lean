import Felis.Phase.Progress
import Felis.Transport.SendChannel

/-!
# The outgoing stream to another node

The frames for another node are collected in one buffer per core (`SendChannel`). They are written
to the connection when the buffer is full (`Alloc`), when the core does its periodic I/O, and by a
worker in `FinishCompletion`, which may flush the buffers of all cores. A flush first takes the
frames out of the buffer and unlocks it, and then writes them (`PushRelease`), so another thread can
write in between. The next `CallTxns` writes `StartPhase` when `comp_count` is 0.

The model extends that of a phase on one node by the buffers for one destination. `fence` proves
that `StartPhase` comes after all frames of the phase in the runs in which a core reports
completions only with an empty buffer; `frame_behind_startPhase` is a run in which it does not.
-/

namespace Felis.Phase.Outbound

open Finset Runs Sums Function
open Transport.Send (kPerThreadBuffer)

/-- What the nodes send to one destination: the frames with their sizes, and what counts for
`FinishCompletion(0)`, the pieces of level 0 and the counter of this node and the destination. -/
structure Route (V C X I F : Type) extends Plan V C X I where
  size : F → ℕ
  /-- `AddRoute` counts the frame at level 0. -/
  routed : F → Bool
  /-- What the plan of a core, or the message of a node, adds to the counter. -/
  plannedHere : C → ℕ
  plannedThere : V → ℕ

/-- Where the worker of a core is after it has flushed its plan. -/
inductive Worker (C : Type)
  | issuing
  /-- In `FinishCompletion`, with the buffers it has still to flush. -/
  | finishing (todo : Finset C)
  deriving DecidableEq

structure Buffer (F : Type) where
  /-- The frames from `flusher_start` to `append_start`. -/
  frames : List F
  appendStart : ℕ

inductive Message (F : Type)
  | frame (f : F)
  | startPhase
  deriving DecidableEq

structure State (V C X I F : Type) where
  node : Phase.State V C X I
  buffer : C → Buffer F
  /-- What a core has taken out of a buffer, and has still to write. -/
  writing : C → List F
  worker : C → Worker C
  /-- `delta` of a core for the destination, and the sum, both at level 0. -/
  delta : C → ℕ
  merged : ℕ
  /-- `TotalBatchCounter` at level 0 from this node to the destination. -/
  target : ℕ
  /-- What has been written to the connection in this phase. -/
  wire : List (Message F)
  /-- All frames that were put into a buffer. -/
  produced : Multiset F

inductive Event (V C I F : Type)
  | node (ev : Phase.Event V C I)
  /-- `Alloc` finds room, and `Finish` after it. -/
  | finish (c : C) (f : F)
  /-- `Alloc` finds the buffer full. -/
  | allocFull (c : C) (f : F)
  | finishCompletion (c : C)
  /-- `TryFlushForThread` of `Flush` in `FinishCompletion`. -/
  | flushThread (c d : C)
  /-- `TryFlushForThread` of `PeriodicIO`. -/
  | periodicIo (c : C)
  /-- `WriteToNetwork` of `PushRelease`. -/
  | write (c : C)
  /-- `SendStartPhase` of the next `CallTxns`. -/
  | sendStartPhase
  deriving DecidableEq

section

variable {V C X I F : Type}

def State.init : State V C X I F where
  node := .init
  buffer _ := { frames := [], appendStart := 0 }
  writing _ := []
  worker _ := .issuing
  delta _ := 0
  merged := 0
  target := 0
  wire := []
  produced := 0

variable [DecidableEq V] [DecidableEq C] [DecidableEq X] [DecidableEq I] [Fintype C]
  [DecidableEq F]

/-- The first half of `PushRelease`: the frames leave the buffer of `d`. Nothing is written when it
is empty. -/
def State.take (s : State V C X I F) (c d : C) (appendStart : ℕ) : State V C X I F :=
  { s with
    buffer := update s.buffer d { frames := [], appendStart := appendStart }
    writing := update s.writing c (s.buffer d).frames }

namespace Route

variable (P : Route V C X I F)

/-- A core produces frames while its worker issues pieces, and while it executes one. -/
def Active (s : State V C X I F) (c : C) : Prop :=
  s.writing c = [] ∧
    ((s.node.stage c).isIssued = true ∧ s.worker c = .issuing ∨
      ∃ i ∈ P.items, s.node.status i = .running c)

instance (s : State V C X I F) (c : C) : Decidable (P.Active s c) := by
  unfold Active
  infer_instance

/-- What a step of the cores adds to the counter at level 0. -/
def addedTarget : Phase.Event V C I → ℕ
  | .flushEnd c => P.plannedHere c
  | .counterMessage v _ => P.plannedThere v
  | _ => 0

/-- The order in which a core does things: it writes what it has taken out of a buffer before
anything else, and the worker completes at the end of `FinishCompletion`. -/
def Next (s : State V C X I F) (ev : Phase.Event V C I) : Prop :=
  (∀ c ∈ s.node.actor ev, s.writing c = []) ∧
    ∀ c, ev = .workerComplete c → s.worker c = .finishing ∅

instance (s : State V C X I F) (ev : Phase.Event V C I) : Decidable (Next s ev) := by
  unfold Next
  infer_instance

def step (s : State V C X I F) : Event V C I F → Option (State V C X I F)
  | .node ev =>
    if Next s ev then
      (P.toPlan.step s.node ev).map fun n =>
        { s with node := n, target := s.target + P.addedTarget ev }
    else none
  | .finish c f =>
    let b := s.buffer c
    if P.Active s c ∧ b.appendStart + P.size f < kPerThreadBuffer then
      some { s with
        buffer := update s.buffer c
          { frames := b.frames ++ [f], appendStart := b.appendStart + P.size f }
        delta := update s.delta c (s.delta c + (P.routed f).toNat)
        produced := f ::ₘ s.produced }
    else none
  | .allocFull c f =>
    if P.Active s c ∧ kPerThreadBuffer ≤ (s.buffer c).appendStart + P.size f then
      some (s.take c c 0)
    else none
  | .finishCompletion c =>
    if (s.node.stage c).isIssued = true ∧ s.worker c = .issuing ∧ s.writing c = [] then
      let merged := s.merged + s.delta c
      some { s with
        delta := update s.delta c 0
        merged := merged
        worker := update s.worker c
          (.finishing (if merged = s.target ∧ 0 < merged then univ else ∅)) }
    else none
  | .flushThread c d =>
    match s.worker c with
    | .finishing todo =>
      if d ∈ todo ∧ s.writing c = [] then
        some { s.take c d (s.buffer d).appendStart with
          worker := update s.worker c (.finishing (todo.erase d)) }
      else none
    | .issuing => none
  | .periodicIo c =>
    if s.writing c = [] then some (s.take c c (s.buffer c).appendStart) else none
  | .write c =>
    if s.writing c = [] then none
    else
      some { s with
        wire := s.wire ++ (s.writing c).map .frame
        writing := update s.writing c [] }
  | .sendStartPhase =>
    if s.node.begun = true ∧ s.node.comp = 0 ∧ .startPhase ∉ s.wire then
      some { s with wire := s.wire ++ [.startPhase] }
    else none

/-- A core reports completions only when its buffer is empty. -/
def Flushed (s : State V C X I F) : Event V C I F → Prop
  | .node (.workerComplete c) => (s.buffer c).frames = []
  | .node (.peek c) => (s.buffer c).frames = []
  | _ => True

instance (s : State V C X I F) (ev : Event V C I F) : Decidable (Flushed s ev) := by
  unfold Flushed
  split <;> infer_instance

end Route

end

/-! ## The invariant -/

section

variable {V C X I F : Type}

/-- The frames that have been written. -/
def framesOf (wire : List (Message F)) : List F :=
  wire.filterMap fun
    | .frame f => some f
    | .startPhase => none

theorem framesOf_map (fs : List F) : framesOf (fs.map .frame) = fs := by
  simp [framesOf, List.filterMap_map]

theorem framesOf_append (l m : List (Message F)) :
    framesOf (l ++ m) = framesOf l ++ framesOf m :=
  List.filterMap_append

theorem map_framesOf {l : List (Message F)} (h : .startPhase ∉ l) :
    (framesOf l).map .frame = l := by
  induction l with
  | nil => rfl
  | cons m l ih =>
    cases m with
    | frame f => simp [framesOf, show (List.filterMap _ l).map _ = l from ih (by simp_all)]
    | startPhase => simp at h

namespace Route

variable {P : Route V C X I F} {s t : State V C X I F}

theorem obligated_of_issued {n : Phase.State V C X I} {c : C} (h : (n.stage c).isIssued = true) :
    Running.Obligated n c := by
  refine .inr (.inr ?_)
  cases hst : n.stage c with
  | issued last => exact Nat.one_pos
  | planning pos => exact Nat.one_pos
  | extra => rw [hst] at h; cases h
  | done => rw [hst] at h; cases h

theorem Active.obligated {c : C} (h : P.Active s c) : Running.Obligated s.node c := by
  rcases h.2 with ⟨hst, -⟩ | ⟨i, -, hi⟩
  · exact obligated_of_issued hst
  · exact .inl ⟨i, hi⟩

variable [DecidableEq V] [DecidableEq C] [DecidableEq X] [Fintype C]

/-- While a core has frames in its buffer, or has still to write some, it has something to
report. -/
structure Inv (P : Route V C X I F) (s : State V C X I F) : Prop where
  running : s.node = .init ∨ Running P.toPlan s.node
  buffered : ∀ c, (s.buffer c).frames ≠ [] → Running.Obligated s.node c
  writing : ∀ c, s.writing c ≠ [] → Running.Obligated s.node c
  finishing : ∀ c todo, s.worker c = .finishing todo → todo.Nonempty →
    (s.node.stage c).isIssued = true
  conserved : s.produced = ↑(framesOf s.wire) + ∑ c, (↑(s.buffer c).frames : Multiset F) +
    ∑ c, (↑(s.writing c) : Multiset F)
  fenced : .startPhase ∈ s.wire → s.node.begun = true ∧ s.node.comp = 0 ∧
    ∃ fs : List F, s.wire = fs.map .frame ++ [.startPhase]

theorem Inv.take (h : P.Inv s) {c d : C} (a : ℕ) (hwriting : s.writing c = [])
    (hd : (s.buffer d).frames ≠ [] → Running.Obligated s.node c) : P.Inv (s.take c d a) := by
  have hbuffer := sum_update_add univ (fun _ (b : Buffer F) => (↑b.frames : Multiset F)) s.buffer
    (mem_univ d) { frames := [], appendStart := a }
  have hwrite := sum_update_add univ (fun _ (l : List F) => (↑l : Multiset F)) s.writing
    (mem_univ c)
    (s.buffer d).frames
  rw [hwriting, Multiset.coe_nil, add_zero] at hwrite
  simp only [Multiset.coe_nil, add_zero] at hbuffer
  refine ⟨h.running, fun e he => ?_, fun e he => ?_, h.finishing, ?_, h.fenced⟩
  · by_cases hed : e = d
    · subst hed
      simp [State.take] at he
    · exact h.buffered e (by simpa [State.take, update_of_ne hed] using he)
  · by_cases hec : e = c
    · subst hec
      exact hd (by simpa [State.take] using he)
    · exact h.writing e (by simpa [State.take, update_of_ne hec] using he)
  · rw [State.take, h.conserved, hwrite, ← hbuffer]
    abel

theorem inv_init : P.Inv State.init := by
  refine ⟨.inl rfl, fun c hc => absurd rfl hc, fun c hc => absurd rfl hc, fun c todo hw => ?_, ?_,
    fun hwire => ?_⟩
  · cases hw
  · simp [State.init, framesOf]
  · cases hwire

section

variable (hK : ∀ v ∈ P.remotes, P.planned (.inl v) < kMaxPiecesPerPhase)
include hK

theorem Inv.over (h : P.Inv s) (hbegun : s.node.begun = true) (hzero : s.node.comp = 0) :
    Running P.toPlan s.node ∧ Running.Over P.toPlan s.node := by
  rcases h.running with hinit | hrunning
  · rw [hinit] at hbegun
    cases hbegun
  · exact ⟨hrunning, hrunning.over_of_comp_eq_zero hK hzero⟩

theorem Inv.not_obligated (h : P.Inv s) (hwire : .startPhase ∈ s.wire) (c : C) :
    ¬ Running.Obligated s.node c := by
  obtain ⟨hbegun, hzero, -⟩ := h.fenced hwire
  obtain ⟨hrunning, hover⟩ := h.over hK hbegun hzero
  exact Running.Over.not_obligated hrunning hover c

variable [DecidableEq I] [DecidableEq F]

theorem Inv.node [Nonempty C] (h : P.Inv s) {ev : Phase.Event V C I}
    (hok : Flushed s (.node ev)) (ht : P.step s (.node ev) = some t) : P.Inv t := by
  simp only [step] at ht
  split_ifs at ht with hnext
  obtain ⟨n, hn, rfl⟩ := Option.map_eq_some_iff.1 ht
  obtain ⟨hwritten, hfinished⟩ := hnext
  refine ⟨.inr (running_step hK h.running hn).1, fun c hc => ?_, fun c hc => ?_,
    fun c todo hw hne => ?_, h.conserved, fun hwire => ?_⟩
  · refine (h.buffered c hc).step h.running hn ?_ ?_
    · rintro rfl
      exact hc hok
    · rintro rfl
      exact hc hok
  · refine (h.writing c hc).step h.running hn ?_ ?_
    · rintro rfl
      exact hc (hwritten c rfl)
    · rintro rfl
      exact hc (hwritten c rfl)
  · have hissued := h.finishing c todo hw hne
    rcases move_or_callTxns h.running hn with ⟨hinit, -, -⟩ | ⟨-, hmove⟩
    · rw [hinit] at hissued
      cases hissued
    · refine hmove.isIssued ?_ hissued
      rintro rfl
      rw [hfinished c rfl] at hw
      cases hw
      exact absurd hne Finset.not_nonempty_empty
  · obtain ⟨hbegun, hzero, -⟩ := h.fenced hwire
    obtain ⟨hrunning, hover⟩ := h.over hK hbegun hzero
    rw [P.step_of_begun hbegun] at hn
    exact absurd (Plan.move_of_stepBegun hn) (Running.Over.not_move hrunning hover)

theorem Inv.finish (h : P.Inv s) {c : C} {f : F} (ht : P.step s (.finish c f) = some t) :
    P.Inv t := by
  simp only [step] at ht
  split_ifs at ht with hactive
  cases ht
  have hobligated := hactive.1.obligated
  have hbuffer := sum_update_add univ (fun _ (b : Buffer F) => (↑b.frames : Multiset F)) s.buffer
    (mem_univ c) { frames := (s.buffer c).frames ++ [f],
                   appendStart := (s.buffer c).appendStart + P.size f }
  refine ⟨h.running, fun d hd => ?_, h.writing, h.finishing, ?_, fun hwire => ?_⟩
  · by_cases hdc : d = c
    · rw [hdc]
      exact hobligated
    · exact h.buffered d (by simpa [update_of_ne hdc] using hd)
  · rw [← Multiset.coe_add, Multiset.coe_singleton, add_comm (↑(s.buffer c).frames : Multiset F),
      ← add_assoc] at hbuffer
    have hsum := add_right_cancel hbuffer
    simp only [hsum, h.conserved, ← Multiset.singleton_add]
    abel
  · exact absurd hobligated (h.not_obligated hK hwire c)

theorem Inv.write (h : P.Inv s) {c : C} (ht : P.step s (.write c) = some t) : P.Inv t := by
  simp only [step] at ht
  split_ifs at ht with hc
  cases ht
  have hwrite := sum_update_add univ (fun _ (l : List F) => (↑l : Multiset F)) s.writing
    (mem_univ c)
    []
  rw [Multiset.coe_nil, add_zero] at hwrite
  refine ⟨h.running, h.buffered, fun d hd => ?_, h.finishing, ?_, fun hwire => ?_⟩
  · by_cases hdc : d = c
    · subst hdc
      simp at hd
    · exact h.writing d (by simpa [update_of_ne hdc] using hd)
  · rw [h.conserved, framesOf_append, framesOf_map, ← Multiset.coe_add, ← hwrite]
    abel
  · have hwire : .startPhase ∈ s.wire := by simpa using hwire
    exact absurd (h.writing c hc) (h.not_obligated hK hwire c)

omit hK in
theorem Inv.sendStartPhase (h : P.Inv s) (ht : P.step s .sendStartPhase = some t) : P.Inv t := by
  simp only [step] at ht
  split_ifs at ht with hzero
  cases ht
  obtain ⟨hbegun, hzero, hwire⟩ := hzero
  refine ⟨h.running, h.buffered, h.writing, h.finishing, ?_, fun _ => ⟨hbegun, hzero, ?_⟩⟩
  · rw [h.conserved, framesOf_append]
    simp [framesOf]
  · exact ⟨framesOf s.wire, by rw [map_framesOf hwire]⟩

theorem Inv.step [Nonempty C] (h : P.Inv s) {ev : Event V C I F} (hok : Flushed s ev)
    (ht : P.step s ev = some t) : P.Inv t := by
  cases ev with
  | node ev => exact h.node hK hok ht
  | finish c f => exact h.finish hK ht
  | allocFull c f =>
    simp only [Route.step] at ht
    split_ifs at ht with hactive
    cases ht
    exact h.take 0 hactive.1.1 (h.buffered c)
  | finishCompletion c =>
    simp only [Route.step] at ht
    split at ht
    next hc =>
      cases ht
      refine ⟨h.running, h.buffered, h.writing, fun d todo hd hne => ?_, h.conserved, h.fenced⟩
      by_cases hdc : d = c
      · rw [hdc]
        exact hc.1
      · exact h.finishing d todo (by simpa [update_of_ne hdc] using hd) hne
    next => cases ht
  | flushThread c d =>
    simp only [Route.step] at ht
    split at ht
    next todo hworker =>
      split_ifs at ht with hd
      cases ht
      have hissued := h.finishing c todo hworker ⟨d, hd.1⟩
      have htake := h.take (d := d) (s.buffer d).appendStart hd.2 fun _ =>
        obligated_of_issued hissued
      refine ⟨htake.running, htake.buffered, htake.writing, fun e todo' he hne => ?_,
        htake.conserved, htake.fenced⟩
      by_cases hec : e = c
      · rw [hec]
        exact hissued
      · exact h.finishing e todo' (by simpa [State.take, update_of_ne hec] using he) hne
    next => cases ht
  | periodicIo c =>
    simp only [Route.step] at ht
    split_ifs at ht with hc
    cases ht
    exact h.take _ hc (h.buffered c)
  | write c => exact h.write hK ht
  | sendStartPhase => exact h.sendStartPhase ht

end

variable [DecidableEq I] [DecidableEq F]

/-- **`StartPhase` is a fence when the cores flush before they report.** In a run in which every
core that reports completions has an empty buffer, `StartPhase` is written after all frames that the
cores have produced in the phase, and each has been written once. -/
theorem fence [Nonempty C] (P : Route V C X I F)
    (hK : ∀ v ∈ P.remotes, P.planned (.inl v) < kMaxPiecesPerPhase) (evs : List (Event V C I F))
    (s : State V C X I F) (hok : Along P.step Flushed State.init evs)
    (hrun : run P.step State.init evs = some s) (hwire : .startPhase ∈ s.wire) :
    ∃ fs : List F, s.wire = fs.map .frame ++ [.startPhase] ∧ (↑fs : Multiset F) = s.produced := by
  have h : P.Inv s := run_invariant (fun _ _ _ h hok ht => h.step hK hok ht) evs _ s
    inv_init hok hrun
  obtain ⟨-, -, fs, hfs⟩ := h.fenced hwire
  refine ⟨fs, hfs, ?_⟩
  -- nobody has anything to report, so all buffers are empty
  have hbuffer : ∀ c, (s.buffer c).frames = [] := fun c =>
    by_contra fun hc => h.not_obligated hK hwire c (h.buffered c hc)
  have hwriting : ∀ c, s.writing c = [] := fun c =>
    by_contra fun hc => h.not_obligated hK hwire c (h.writing c hc)
  rw [h.conserved, hfs, framesOf_append, framesOf_map]
  simp [hbuffer, hwriting, framesOf]

/-- Two cores and one other node, the destination. The core `true` plans a piece for itself, which
sends a frame of 64 bytes. -/
def sender : Route Unit Bool Unit Unit Unit where
  remotes := {()}
  items := {()}
  origin _ := .inr true
  index _ := ()
  indices := [()]
  indices_nodup := List.nodup_singleton ()
  index_mem := by decide
  origin_mem _ _ v _ := mem_singleton_self v
  size _ := 64
  routed _ := false
  plannedHere _ := 0
  plannedThere _ := 0

def executePiece : List (Event Unit Bool Unit Unit) :=
  [.node .callTxns, .node (.flushIndex false), .node (.flushEnd false), .finishCompletion false,
    .node (.workerComplete false), .node (.flushIndex true), .node (.flushEnd true),
    .finishCompletion true, .node (.workerComplete true), .node (.extraComplete true),
    .node (.start () true), .finish true (), .node (.finish ())]

/-- The core reports its completion before its periodic I/O, and the other core reads the counters
of the other node. -/
def reportFirst : List (Event Unit Bool Unit Unit) :=
  executePiece ++ [.node (.peek true), .node (.counterMessage () false), .sendStartPhase,
    .periodicIo true, .write true]

/-- `StartPhase` has been written before the frame. -/
theorem frame_behind_startPhase :
    (run sender.step State.init reportFirst).map State.wire = some [.startPhase, .frame ()] := by
  decide +kernel

/-- With the periodic I/O first, the frame is written before `StartPhase`. -/
def flushFirst : List (Event Unit Bool Unit Unit) :=
  executePiece ++ [.periodicIo true, .write true, .node (.peek true),
    .node (.counterMessage () false), .sendStartPhase]

theorem fence_sender :
    ∃ s, run sender.step State.init flushFirst = some s ∧
      ∃ fs : List Unit, s.wire = fs.map .frame ++ [.startPhase] ∧ (↑fs : Multiset Unit) = {()} := by
  obtain ⟨s, hs, hwire⟩ : ∃ s, run sender.step State.init flushFirst = some s ∧
      Message.startPhase ∈ s.wire ∧ s.produced = {()} := by decide +kernel
  obtain ⟨fs, hfs, hproduced⟩ := fence sender (by decide) flushFirst s
    (by decide +kernel) hs hwire.1
  exact ⟨s, hs, fs, hfs, hproduced.trans hwire.2⟩

end Route

end

end Felis.Phase.Outbound
