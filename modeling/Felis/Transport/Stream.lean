import Felis.Phase.Inbound
import Felis.Transport.Frames

/-!
# Reading a stream

The bytes of a stream arrive in pieces of any size, and every `Poll` parses what has arrived as far
as it can. `PollRoutines` gives up after a number of pieces, in front of a frame that is not
complete, and in front of the next `StartPhase`; the next `Poll` goes on there.

`inbound_stream` says that it makes no difference how the bytes arrive: what has been received is
what was sent, in order, up to some frame of a phase that the channel has entered; and as long as a
phase is not ended before its last frame has been read, no `Poll` aborts and polling gets
everything.
-/

namespace Felis.Transport

open Bytes Runs List

/-! ## The channel -/

structure State where
  wire : List UInt8
  input : List UInt8
  status : Phase.Inbound.Status
  allocs : ℕ
  events : List Received
  /-- How many phases the channel has entered. -/
  entered : ℕ

inductive Event
  | deliver (n : ℕ)
  | poll (cnt : ℕ)
  /-- `Complete` has counted everything of the phase. -/
  | endOfPhase
  | continueInbound
  deriving DecidableEq

def State.receive (s : State) (e : Received) (allocs : ℕ) (rest : List UInt8) : State :=
  { s with input := rest, allocs := allocs, events := s.events ++ [e] }

section

variable (nrNodes : ℕ) (alloc : ℕ → BitVec 64)

/-- The loop of `PollRoutines`, with room for `cnt` pieces. Every frame has bytes, so what has
arrived bounds the rounds. -/
def pollRoutines : ℕ → ℕ → State → Option State
  | 0, _, s => some s
  | fuel + 1, cnt, s =>
    if cnt = 0 then some s
    else
      match pollRoutine nrNodes alloc s.allocs s.input with
      | .wait => some s
      | .abort => none
      | .got e allocs rest =>
        pollRoutines fuel (if e.isPiece then cnt - 1 else cnt) (s.receive e allocs rest)

/-- `Poll`. After the mapping table it goes on with the routines. -/
def poll (cnt : ℕ) (s : State) : Option State :=
  match s.status with
  | .endOfPhase => some s
  | .pollRoutines => pollRoutines nrNodes alloc s.input.length cnt s
  | .pollMappingTable =>
    match pollMappingTable s.allocs s.input with
    | .wait => some s
    | .abort => none
    | .got e allocs rest =>
      pollRoutines nrNodes alloc rest.length cnt
        { s.receive e allocs rest with status := s.status.advance }

def step (s : State) : Event → Option State
  | .deliver n => some { s with wire := s.wire.drop n, input := s.input ++ s.wire.take n }
  | .poll cnt => poll nrNodes alloc cnt s
  | .endOfPhase =>
    if s.status = .pollRoutines then some { s with status := s.status.advance } else none
  | .continueInbound =>
    -- the code aborts when the channel has not ended its phase
    if s.status = .endOfPhase then
      some { s with status := s.status.advance, entered := s.entered + 1 }
    else none

end

/-! ## What is sent -/

/-- The frames of one phase: `StartPhase`, and any sequence of the others. -/
structure PhaseFrames where
  nodeId : BitVec 32
  entries : List (BitVec 32)
  body : List Frame
  body_routine : ∀ f ∈ body, f.isStart = false

namespace PhaseFrames

def frames (p : PhaseFrames) : List Frame := .startPhase p.nodeId p.entries :: p.body

def Valid (nrNodes : ℕ) (p : PhaseFrames) : Prop :=
  ∀ f ∈ p.frames, f.Valid nrNodes

end PhaseFrames

/-- The channel before anything has arrived. -/
def State.init (phases : List PhaseFrames) : State where
  wire := (phases.flatMap PhaseFrames.frames).flatMap Frame.bytes
  input := []
  status := .endOfPhase
  allocs := 0
  events := []
  entered := 0

/-- Everything of the phases that the channel has entered has been received. -/
def Drained (phases : List PhaseFrames) (s : State) : Prop :=
  s.events.length = ((phases.take s.entered).flatMap PhaseFrames.frames).length

instance (phases : List PhaseFrames) (s : State) : Decidable (Drained phases s) := by
  unfold Drained
  infer_instance

/-! ## Frames and phases -/

def starts (l : List Frame) : ℕ := l.countP Frame.isStart

theorem starts_append (l l' : List Frame) : starts (l ++ l') = starts l + starts l' :=
  countP_append

theorem starts_concat (l : List Frame) (f : Frame) :
    starts (l ++ [f]) = starts l + f.isStart.toNat := by
  rw [starts_append, starts, starts, countP_singleton]
  cases f.isStart <;> rfl

theorem starts_frames (p : PhaseFrames) : starts p.frames = 1 := by
  have hbody : p.body.countP Frame.isStart = 0 :=
    countP_eq_zero.2 fun f hf => by simp [p.body_routine f hf]
  rw [starts, PhaseFrames.frames, countP_cons, hbody]
  rfl

theorem starts_flatMap (phases : List PhaseFrames) :
    starts (phases.flatMap PhaseFrames.frames) = phases.length := by
  induction phases with
  | nil => rfl
  | cons p phases ih =>
    rw [flatMap_cons, starts_append, starts_frames, ih, length_cons, Nat.add_comm]

/-- The next frame is a `StartPhase`, or there is none. -/
def Boundary (rest : List Frame) : Prop := ∀ f ∈ rest.head?, f.isStart = true

theorem boundary_flatMap (phases : List PhaseFrames) :
    Boundary (phases.flatMap PhaseFrames.frames) := by
  cases phases with
  | nil => simp [Boundary]
  | cons p phases => simp [Boundary, PhaseFrames.frames, Frame.isStart]

section

variable {phases : List PhaseFrames} {read rest : List Frame} {k : ℕ}

theorem flatMap_take_append_drop (phases : List PhaseFrames) (k : ℕ) :
    phases.flatMap PhaseFrames.frames = (phases.take k).flatMap PhaseFrames.frames ++
      (phases.drop k).flatMap PhaseFrames.frames := by
  rw [← flatMap_append, take_append_drop]

variable (hsplit : phases.flatMap PhaseFrames.frames = read ++ rest)

include hsplit

/-- Frames with at most `k` `StartPhase` frames among them belong to the first `k` phases. -/
theorem prefix_of_starts_le (hk : starts read ≤ k) :
    read <+: (phases.take k).flatMap PhaseFrames.frames := by
  have htake := flatMap_take_append_drop phases k
  rw [hsplit] at htake
  rcases append_eq_append_iff.1 htake with ⟨l, hl, -⟩ | ⟨l, hl, hdrop⟩
  · exact ⟨l, hl.symm⟩
  · -- what goes beyond them begins with another `StartPhase`
    cases l with
    | nil => exact ⟨[], by simp [hl]⟩
    | cons f l =>
      have hstart : f.isStart = true := by
        have := boundary_flatMap (phases.drop k)
        rw [hdrop] at this
        exact this f rfl
      have hlen : k ≤ phases.length := by
        by_contra hlt
        rw [drop_of_length_le (by omega)] at hdrop
        simp at hdrop
      have hcount : starts read = k + starts (f :: l) := by
        rw [hl, starts_append, starts_flatMap, length_take, min_eq_left hlen]
      have hpos : 0 < starts (f :: l) := countP_pos_iff.2 ⟨f, mem_cons_self, hstart⟩
      omega

/-- At a boundary, all frames of the first `k` phases have been read. -/
theorem eq_of_boundary (hk : starts read = k ∨ phases.length ≤ starts read ∧ starts read ≤ k)
    (hb : Boundary rest) : read = (phases.take k).flatMap PhaseFrames.frames := by
  obtain ⟨l, hl⟩ := prefix_of_starts_le hsplit (hk.elim Eq.le And.right)
  have htake := flatMap_take_append_drop phases k
  rw [hsplit, ← hl, append_assoc, append_cancel_left_eq] at htake
  have hcount : starts read + starts l = min k phases.length := by
    rw [← starts_append, hl, starts_flatMap, length_take]
  cases l with
  | nil => rw [← hl, append_nil]
  | cons f l =>
    have hstart : f.isStart = true := hb f (by rw [htake]; rfl)
    have hpos : 0 < starts (f :: l) := countP_pos_iff.2 ⟨f, mem_cons_self, hstart⟩
    omega

theorem boundary_of_length (hk : starts read ≤ k)
    (hlen : read.length = ((phases.take k).flatMap PhaseFrames.frames).length) : Boundary rest := by
  have hread := (prefix_of_starts_le hsplit hk).eq_of_length hlen
  have htake := flatMap_take_append_drop phases k
  rw [hsplit, ← hread, append_cancel_left_eq] at htake
  rw [htake]
  exact boundary_flatMap _

end

/-! ## Where the channel is -/

/-- The frames in `read` have been received and those in `rest` have not; the channel has read the
`StartPhase` of every phase that it has entered, except when it is about to. -/
structure At (phases : List PhaseFrames) (s : State) (read rest : List Frame) : Prop where
  split : phases.flatMap PhaseFrames.frames = read ++ rest
  events : s.events.map Received.strip = read.map Frame.content
  bytes : s.input ++ s.wire = rest.flatMap Frame.bytes
  entered : starts read + (decide (s.status = .pollMappingTable)).toNat = s.entered

/-- A parser on what has arrived: it waits for the rest of the frame, or it gets the frame. -/
theorem Parses.cases {parse : ℕ → List UInt8 → Result} {f : Frame} (h : Parses parse f)
    {input wire more : List UInt8} (hbytes : input ++ wire = f.bytes ++ more) (k : ℕ) :
    (parse k input = .wait ∧ wire ≠ []) ∨ ∃ e k' rest, parse k input = .got e k' rest ∧
      e.strip = f.content ∧ rest ++ wire = more := by
  rcases append_eq_append_iff.1 hbytes with ⟨l, hl, hwire⟩ | ⟨rest, rfl, hmore⟩
  · cases l with
    | nil =>
      right
      obtain ⟨e, k', hgot, hstrip⟩ := h.got k []
      rw [hl, append_nil, append_nil] at hgot
      exact ⟨e, k', [], hgot, hstrip, by simpa using hwire⟩
    | cons b l =>
      refine .inl ⟨h.wait k input ⟨b :: l, hl.symm⟩ ?_, by simp [hwire]⟩
      rw [hl, length_append, length_cons]
      omega
  · obtain ⟨e, k', hgot, hstrip⟩ := h.got k rest
    exact .inr ⟨e, k', rest, hgot, hstrip, hmore.symm⟩

section

variable {nrNodes : ℕ} {phases : List PhaseFrames} {s : State} {read rest : List Frame}

theorem At.receive {f : Frame} (h : At phases s read (f :: rest)) {e : Received} (allocs : ℕ)
    {input : List UInt8} (he : e.strip = f.content)
    (hbytes : input ++ s.wire = rest.flatMap Frame.bytes) {st : Phase.Inbound.Status}
    (hst : starts (read ++ [f]) + (decide (st = .pollMappingTable)).toNat = s.entered) :
    At phases { s.receive e allocs input with status := st } (read ++ [f]) rest where
  split := by rw [append_assoc]; exact h.split
  events := by rw [State.receive, map_append, h.events, map_append]; simp [he]
  bytes := hbytes
  entered := hst

variable (hn : 16 + 128 * nrNodes ^ 2 ≤ kTcpBufferSize)
  (hvalid : ∀ p ∈ phases, p.Valid nrNodes) (alloc : ℕ → BitVec 64)
include hn hvalid

omit hn in
theorem At.valid {f : Frame} (h : At phases s read (f :: rest)) : f.Valid nrNodes := by
  have hmem : f ∈ phases.flatMap PhaseFrames.frames := by
    rw [h.split]
    simp
  obtain ⟨p, hp, hf⟩ := mem_flatMap.1 hmem
  exact hvalid p hp f hf

/-- One round of `PollRoutines`: it stops, or it gets the next frame. It stops at a boundary, or
because something has not arrived. -/
theorem At.pollRoutine_cases (h : At phases s read rest) :
    (pollRoutine nrNodes alloc s.allocs s.input = .wait ∧ (Boundary rest ∨ s.wire ≠ [])) ∨
    ∃ f rest' e allocs input, rest = f :: rest' ∧ f.isStart = false ∧
      pollRoutine nrNodes alloc s.allocs s.input = .got e allocs input ∧ e.strip = f.content ∧
      input ++ s.wire = rest'.flatMap Frame.bytes := by
  have hbytes := h.bytes
  cases rest with
  | nil =>
    have hinput : s.input = [] := (append_eq_nil_iff.1 hbytes).1
    refine .inl ⟨?_, .inl (by simp [Boundary])⟩
    rw [hinput]
    rfl
  | cons f rest =>
    have hf := h.valid hvalid
    cases hstart : f.isStart with
    | true =>
      cases f with
      | startPhase nodeId entries =>
        exact .inl ⟨pollRoutine_startPhase hf s.allocs ⟨s.wire, hbytes⟩,
          .inl (by simp [Boundary, Frame.isStart])⟩
      | counter | future | piece => cases hstart
    | false =>
      have hparses : Parses (pollRoutine nrNodes alloc) f := parses_routine hn hf hstart
      rcases hparses.cases hbytes s.allocs with
        ⟨hwait, hwire⟩ | ⟨e, k', input, hgot, hstrip, hrest⟩
      · exact .inl ⟨hwait, .inr hwire⟩
      · exact .inr ⟨f, rest, e, k', input, rfl, hstart, hgot, hstrip, hrest⟩

/-- What a channel that polls routines gets from one call: it goes on to a frame of the same phase,
and if everything has arrived and the phase has a frame left, it gets one. -/
theorem At.pollRoutines (h : At phases s read rest) (hst : s.status = .pollRoutines)
    (fuel cnt : ℕ) : ∃ t read' rest', Transport.pollRoutines nrNodes alloc fuel cnt s = some t ∧
      At phases t read' rest' ∧ t.status = .pollRoutines ∧ t.wire = s.wire ∧
      t.entered = s.entered ∧ rest'.length ≤ rest.length ∧
      (0 < fuel → 0 < cnt → s.wire = [] → ¬ Boundary rest → rest'.length < rest.length) := by
  induction fuel generalizing cnt s read rest with
  | zero => exact ⟨s, read, rest, rfl, h, hst, rfl, rfl, le_rfl, fun h0 => absurd h0 (lt_irrefl 0)⟩
  | succ fuel ih =>
    rw [Transport.pollRoutines]
    by_cases hcnt : cnt = 0
    · exact ⟨s, read, rest, if_pos hcnt, h, hst, rfl, rfl, le_rfl, fun _ hpos => by omega⟩
    · rw [if_neg hcnt]
      rcases h.pollRoutine_cases hn hvalid alloc with
        ⟨hwait, hstop⟩ | ⟨f, rest', e, allocs, input, rfl, hstart, hgot, hstrip, hbytes⟩
      · rw [hwait]
        refine ⟨s, read, rest, rfl, h, hst, rfl, rfl, le_rfl, fun _ _ hwire hb => ?_⟩
        exact (hstop.elim hb fun hne => hne hwire).elim
      · rw [hgot]
        have hentered : starts (read ++ [f]) +
            (decide (s.status = .pollMappingTable)).toNat = s.entered := by
          rw [starts_concat, hstart]
          exact h.entered
        obtain ⟨t, read', rest'', ht, hat, hst', hwire, hent, hle, -⟩ :=
          ih (h.receive allocs hstrip hbytes hentered) hst (if e.isPiece then cnt - 1 else cnt)
        exact ⟨t, read', rest'', ht, hat, hst', hwire, hent,
          hle.trans (by simp), fun _ _ _ _ => Nat.lt_of_le_of_lt hle (by simp)⟩

/-- The same for a channel that polls the mapping table, at a boundary. -/
theorem At.pollMappingTable (h : At phases s read rest) (hst : s.status = .pollMappingTable)
    (hb : Boundary rest) (cnt : ℕ) : ∃ t read' rest', poll nrNodes alloc cnt s = some t ∧
      At phases t read' rest' ∧ (t.status = .pollRoutines ∨ t = s ∧ rest' = rest) ∧
      t.wire = s.wire ∧
      t.entered = s.entered ∧ rest'.length ≤ rest.length ∧
      (s.wire = [] → rest ≠ [] → rest'.length < rest.length) := by
  have hbytes := h.bytes
  simp only [poll, hst]
  cases rest with
  | nil =>
    have hinput : s.input = [] := (append_eq_nil_iff.1 hbytes).1
    have hwait : Transport.pollMappingTable s.allocs s.input = .wait := by
      rw [hinput]
      rfl
    rw [hwait]
    exact ⟨s, read, [], rfl, h, .inr ⟨rfl, rfl⟩, rfl, rfl, le_rfl, fun _ hne => absurd rfl hne⟩
  | cons f rest =>
    have hf := h.valid hvalid
    have hparses : Parses Transport.pollMappingTable f := by
      cases f with
      | startPhase nodeId entries => exact parses_startPhase hf
      | counter | future | piece => simp [Boundary, Frame.isStart] at hb
    rcases hparses.cases hbytes s.allocs with
      ⟨hwait, hwire⟩ | ⟨e, allocs, input, hgot, hstrip, hrest⟩
    · rw [hwait]
      exact ⟨s, read, f :: rest, rfl, h, .inr ⟨rfl, rfl⟩, rfl, rfl, le_rfl,
        fun hempty => absurd hempty hwire⟩
    · rw [hgot]
      have hstart : f.isStart = true := hb f rfl
      have hentered : starts (read ++ [f]) +
          (decide (s.status.advance = .pollMappingTable)).toNat = s.entered := by
        have := h.entered
        rw [hst] at this ⊢
        rw [starts_concat, hstart]
        exact this
      obtain ⟨t, read', rest', ht, hat, hst', hwire, hent, hle, -⟩ :=
        (h.receive allocs hstrip hrest hentered).pollRoutines hn hvalid alloc
          (by rw [hst]; rfl) input.length cnt
      refine ⟨t, read', rest', ?_, hat, .inl hst', hwire, hent, hle.trans (by simp),
        fun _ _ => Nat.lt_of_le_of_lt hle (by simp)⟩
      rw [hst] at ht
      exact ht

omit hn in
/-- Away from a boundary, a channel that polls the mapping table gets nothing. -/
theorem At.pollMappingTable_of_not_boundary (h : At phases s read rest)
    (hst : s.status = .pollMappingTable) (hb : ¬ Boundary rest) {cnt : ℕ} {t : State}
    (ht : poll nrNodes alloc cnt s = some t) : t = s := by
  cases rest with
  | nil => simp [Boundary] at hb
  | cons f rest =>
    have hstart : f.isStart = false := by simpa [Boundary] using hb
    simp only [poll, hst] at ht
    rcases pollMappingTable_routine (h.valid hvalid) hstart s.allocs ⟨s.wire, h.bytes⟩ with
      hwait | habort
    · rw [hwait] at ht
      cases ht
      rfl
    · rw [habort] at ht
      cases ht

/-! ## Runs -/

variable {alloc} {t : State}

omit hn hvalid in
theorem At.deliver (h : At phases s read rest) (n : ℕ) :
    At phases { s with wire := s.wire.drop n, input := s.input ++ s.wire.take n } read rest := by
  refine ⟨h.split, h.events, ?_, h.entered⟩
  rw [append_assoc, take_append_drop]
  exact h.bytes

omit hn hvalid in
theorem At.endOfPhase (h : At phases s read rest) (hst : s.status = .pollRoutines) :
    At phases { s with status := s.status.advance } read rest := by
  refine ⟨h.split, h.events, h.bytes, ?_⟩
  have := h.entered
  rw [hst] at this ⊢
  exact this

omit hn hvalid in
theorem At.continueInbound (h : At phases s read rest) (hst : s.status = .endOfPhase) :
    At phases { s with status := s.status.advance, entered := s.entered + 1 } read rest := by
  refine ⟨h.split, h.events, h.bytes, ?_⟩
  have := h.entered
  rw [hst] at this ⊢
  exact congrArg (· + 1) this

theorem At.step (h : At phases s read rest) {ev : Event}
    (ht : Transport.step nrNodes alloc s ev = some t) :
    ∃ read' rest', At phases t read' rest' := by
  cases ev with
  | deliver n =>
    cases ht
    exact ⟨read, rest, h.deliver n⟩
  | poll cnt =>
    cases hst : s.status with
    | endOfPhase =>
      simp only [Transport.step, poll, hst] at ht
      cases ht
      exact ⟨read, rest, h⟩
    | pollRoutines =>
      obtain ⟨u, read', rest', hu, hat, -⟩ := h.pollRoutines hn hvalid alloc hst s.input.length cnt
      simp only [Transport.step, poll, hst, hu] at ht
      cases ht
      exact ⟨read', rest', hat⟩
    | pollMappingTable =>
      by_cases hb : Boundary rest
      · obtain ⟨u, read', rest', hu, hat, -⟩ := h.pollMappingTable hn hvalid alloc hst hb cnt
        rw [Transport.step, hu] at ht
        cases ht
        exact ⟨read', rest', hat⟩
      · rw [h.pollMappingTable_of_not_boundary hvalid alloc hst hb ht]
        exact ⟨read, rest, h⟩
  | endOfPhase =>
    simp only [Transport.step] at ht
    split_ifs at ht with hst
    cases ht
    exact ⟨read, rest, h.endOfPhase hst⟩
  | continueInbound =>
    simp only [Transport.step] at ht
    split_ifs at ht with hst
    cases ht
    exact ⟨read, rest, h.continueInbound hst⟩

/-- When every phase is ended after its last frame, the channel is at a boundary between two
phases. -/
structure Sound (phases : List PhaseFrames) (s : State) (read rest : List Frame) : Prop where
  pos : At phases s read rest
  boundary : s.status ≠ .pollRoutines → Boundary rest

omit hn hvalid in
theorem At.boundary_of_drained (h : At phases s read rest) (hdrained : Drained phases s) :
    Boundary rest := by
  have hlen : s.events.length = read.length := by
    simpa using congrArg List.length h.events
  have hle : starts read ≤ s.entered := by
    rw [← h.entered]
    exact Nat.le_add_right _ _
  exact boundary_of_length h.split hle (hlen.symm.trans hdrained)

theorem Sound.step (h : Sound phases s read rest) {ev : Event}
    (hev : ev = .endOfPhase → Drained phases s) (ht : Transport.step nrNodes alloc s ev = some t) :
    ∃ read' rest', Sound phases t read' rest' := by
  cases ev with
  | deliver n =>
    cases ht
    exact ⟨read, rest, h.pos.deliver n, h.boundary⟩
  | poll cnt =>
    cases hst : s.status with
    | endOfPhase =>
      simp only [Transport.step, poll, hst] at ht
      cases ht
      exact ⟨read, rest, h⟩
    | pollRoutines =>
      obtain ⟨u, read', rest', hu, hat, hst', -⟩ :=
        h.pos.pollRoutines hn hvalid alloc hst s.input.length cnt
      simp only [Transport.step, poll, hst, hu] at ht
      cases ht
      exact ⟨read', rest', hat, fun hne => absurd hst' hne⟩
    | pollMappingTable =>
      have hb := h.boundary (by rw [hst]; simp)
      obtain ⟨u, read', rest', hu, hat, hst', -⟩ :=
        h.pos.pollMappingTable hn hvalid alloc hst hb cnt
      rw [Transport.step, hu] at ht
      cases ht
      refine ⟨read', rest', hat, fun hne => ?_⟩
      rcases hst' with hst' | ⟨-, hrest⟩
      · exact absurd hst' hne
      · rwa [hrest]
  | endOfPhase =>
    simp only [Transport.step] at ht
    split_ifs at ht with hst
    cases ht
    exact ⟨read, rest, h.pos.endOfPhase hst, fun _ => h.pos.boundary_of_drained (hev rfl)⟩
  | continueInbound =>
    simp only [Transport.step] at ht
    split_ifs at ht with hst
    cases ht
    exact ⟨read, rest, h.pos.continueInbound hst, fun _ => h.boundary (by rw [hst]; simp)⟩

theorem Sound.exists_poll (h : Sound phases s read rest) (cnt : ℕ) :
    ∃ t, Transport.step nrNodes alloc s (.poll cnt) = some t := by
  cases hst : s.status with
  | endOfPhase => exact ⟨s, by simp only [Transport.step, poll, hst]⟩
  | pollRoutines =>
    obtain ⟨t, -, -, ht, -⟩ := h.pos.pollRoutines hn hvalid alloc hst s.input.length cnt
    exact ⟨t, by simp only [Transport.step, poll, hst, ht]⟩
  | pollMappingTable =>
    obtain ⟨t, -, -, ht, -⟩ :=
      h.pos.pollMappingTable hn hvalid alloc hst (h.boundary (by rw [hst]; simp)) cnt
    exact ⟨t, ht⟩

omit hn hvalid in
/-- At a boundary, with no `StartPhase` to be read, everything has been received. -/
theorem At.events_eq (h : At phases s read rest) (hb : Boundary rest)
    (hst : s.status ≠ .pollMappingTable ∨ rest = []) :
    s.events.map Received.strip =
      ((phases.take s.entered).flatMap PhaseFrames.frames).map Frame.content := by
  have hentered := h.entered
  have hread : read = (phases.take s.entered).flatMap PhaseFrames.frames := by
    refine eq_of_boundary h.split ?_ hb
    rcases hst with hst | hrest
    · left
      simpa [hst] using hentered
    · right
      have hall := congrArg starts h.split
      rw [hrest, append_nil, starts_flatMap] at hall
      omega
  rw [h.events, ← hread]

/-- A `Poll` gets a frame, when there is one to be got. -/
theorem Sound.poll_lt (h : Sound phases s read rest) (hwire : s.wire = []) {cnt : ℕ}
    (hcnt : 0 < cnt) (hleft : ¬ (Boundary rest ∧ (s.status ≠ .pollMappingTable ∨ rest = []))) :
    ∃ t read' rest', Transport.step nrNodes alloc s (.poll cnt) = some t ∧
      Sound phases t read' rest' ∧ t.wire = [] ∧ t.entered = s.entered ∧
      rest'.length < rest.length := by
  by_cases hb : Boundary rest
  · -- the next frame is a `StartPhase`, and the channel waits for it
    rw [not_and_or, not_or, not_not] at hleft
    obtain ⟨hst, hrest⟩ := hleft.resolve_left (not_not.2 hb)
    obtain ⟨t, read', rest', ht, hat, hst', hw, hent, -, hlt⟩ :=
      h.pos.pollMappingTable hn hvalid alloc hst hb cnt
    have hlt := hlt hwire hrest
    refine ⟨t, read', rest', ht, ⟨hat, fun hne => ?_⟩, hw.trans hwire, hent, hlt⟩
    rcases hst' with hst' | ⟨-, hsame⟩
    · exact absurd hst' hne
    · rw [hsame] at hlt
      exact absurd hlt (lt_irrefl _)
  · have hst : s.status = .pollRoutines := by
      by_contra hne
      exact hb (h.boundary hne)
    have hinput : 0 < s.input.length := by
      rcases h.pos.pollRoutine_cases hn hvalid alloc with ⟨-, hstop⟩ |
        ⟨f, l, e, k, p, -, -, hgot, -⟩
      · exact (hstop.elim hb fun hne => hne hwire).elim
      · by_contra hempty
        rw [eq_nil_of_length_eq_zero (Nat.eq_zero_of_not_pos hempty)] at hgot
        cases hgot
    obtain ⟨t, read', rest', ht, hat, hst', hw, hent, -, hlt⟩ :=
      h.pos.pollRoutines hn hvalid alloc hst s.input.length cnt
    exact ⟨t, read', rest', by simp only [Transport.step, poll, hst, ht],
      ⟨hat, fun hne => absurd hst' hne⟩, hw.trans hwire, hent, hlt hinput hcnt hwire hb⟩

/-- Polling gets everything of the phases that have been entered. -/
theorem Sound.drain (h : Sound phases s read rest) (hwire : s.wire = []) {cnt : ℕ}
    (hcnt : 0 < cnt) : ∃ m t,
      run (Transport.step nrNodes alloc) s (List.replicate m (.poll cnt)) = some t ∧
      t.entered = s.entered ∧ t.events.map Received.strip =
        ((phases.take s.entered).flatMap PhaseFrames.frames).map Frame.content := by
  induction hlen : rest.length using Nat.strong_induction_on generalizing s read rest with
  | _ n ih =>
    by_cases hdone : Boundary rest ∧ (s.status ≠ .pollMappingTable ∨ rest = [])
    · exact ⟨0, s, rfl, rfl, h.pos.events_eq hdone.1 hdone.2⟩
    · obtain ⟨u, read', rest', hu, hsound, hwire', hent, hlt⟩ :=
        h.poll_lt hn hvalid hwire hcnt hdone
      obtain ⟨m, t, hrun, hent', hev⟩ := ih rest'.length (hlen ▸ hlt) hsound hwire' rfl
      rw [hent] at hent' hev
      refine ⟨m + 1, t, ?_, hent', hev⟩
      rw [replicate_succ]
      exact (run_cons _).2 ⟨u, hu, hrun⟩

end

theorem sound_init (phases : List PhaseFrames) :
    Sound phases (.init phases) [] (phases.flatMap PhaseFrames.frames) :=
  ⟨⟨rfl, rfl, rfl, rfl⟩, fun _ => boundary_flatMap phases⟩

/-- **Reading a stream.** However the bytes arrive and whenever the channel is polled, what has been
received are the frames that were sent, in order and with their contents, and none of a phase that
the channel has not entered. If moreover every phase is ended after its last frame has been read,
then no `Poll` aborts, and when all bytes have arrived some number of calls of `Poll` gets exactly
the frames of the phases that the channel has entered. -/
theorem inbound_stream (nrNodes : ℕ) (hn : 16 + 128 * nrNodes ^ 2 ≤ kTcpBufferSize)
    (alloc : ℕ → BitVec 64) (phases : List PhaseFrames) (hvalid : ∀ p ∈ phases, p.Valid nrNodes)
    (evs : List Event) (s : State) (hrun : run (step nrNodes alloc) (.init phases) evs = some s) :
    s.events.map Received.strip <+:
      ((phases.take s.entered).flatMap PhaseFrames.frames).map Frame.content ∧
    (Along (step nrNodes alloc) (fun s ev => ev = .endOfPhase → Drained phases s)
      (.init phases) evs →
      (∀ cnt, ∃ t, step nrNodes alloc s (.poll cnt) = some t) ∧
      (s.wire = [] → ∀ cnt, 0 < cnt → ∃ m t,
        run (step nrNodes alloc) s (List.replicate m (.poll cnt)) = some t ∧
        t.entered = s.entered ∧ t.events.map Received.strip =
          ((phases.take s.entered).flatMap PhaseFrames.frames).map Frame.content)) := by
  constructor
  · obtain ⟨read, rest, hat⟩ := run_induction (I := fun s => ∃ read rest, At phases s read rest)
      (fun _ _ _ ⟨_, _, h⟩ ht => h.step hn hvalid ht) ⟨[], _, (sound_init phases).pos⟩ hrun
    rw [hat.events]
    refine (prefix_of_starts_le hat.split ?_).map Frame.content
    rw [← hat.entered]
    exact Nat.le_add_right _ _
  · intro halong
    obtain ⟨read, rest, hsound⟩ :=
      run_invariant (I := fun s => ∃ read rest, Sound phases s read rest)
        (fun _ _ _ ⟨_, _, h⟩ hok ht => h.step hn hvalid hok ht) evs _ s
        ⟨[], _, sound_init phases⟩ halong hrun
    exact ⟨hsound.exists_poll hn hvalid, fun hwire cnt hcnt => hsound.drain hn hvalid hwire hcnt⟩

/-- A phase with a future, a piece and the counters of one node, and a phase without frames. -/
def twoPhases : List PhaseFrames :=
  [⟨2, [7], [.future 1 2 3 4, .piece Piece.oneChild (List.replicate 160 0),
      .counter 2 (List.replicate 16 5)], by simp [Frame.isStart]⟩, ⟨2, [], [], by simp⟩]

def twoPhasesRun : List Event :=
  [.continueInbound, .deliver 21, .poll 128, .deliver 100, .poll 128, .deliver 1000, .poll 128,
    .endOfPhase, .continueInbound]

theorem twoPhases_valid : ∀ p ∈ twoPhases, p.Valid 1 := by
  have hvalid : Piece.oneChild.Valid := ⟨rfl, by decide, ⟨rfl, by decide, trivial⟩, trivial⟩
  have hsize : Piece.oneChild.nodeSize = 160 := by decide +kernel
  have hpiece : (Frame.piece Piece.oneChild (List.replicate 160 0)).Valid 1 :=
    ⟨hvalid, by rw [hsize, length_replicate], by rw [hsize]; decide⟩
  simp only [twoPhases, mem_cons, not_mem_nil, or_false, PhaseFrames.Valid,
    PhaseFrames.frames, forall_eq_or_imp, forall_eq]
  exact ⟨⟨by simp [Frame.Valid], trivial, hpiece, rfl⟩, by simp [Frame.Valid]⟩

theorem inbound_stream_twoPhases : ∃ s,
    run (step 1 fun k => k) (.init twoPhases) twoPhasesRun = some s ∧ ∃ m t,
      run (step 1 fun k => k) s (List.replicate m (.poll 128)) = some t ∧
      t.events.map Received.strip = (twoPhases.flatMap PhaseFrames.frames).map Frame.content := by
  obtain ⟨s, hrun, hwire, hentered⟩ : ∃ s, run (step 1 fun k => k) (.init twoPhases) twoPhasesRun =
      some s ∧ s.wire = [] ∧ s.entered = 2 := by decide +kernel
  have hstream := (inbound_stream 1 (by decide)
    (fun k => k) twoPhases twoPhases_valid twoPhasesRun s
    hrun).2 (by decide +kernel)
  obtain ⟨m, t, hpolls, -, hevents⟩ := hstream.2 hwire 128 (by decide)
  rw [hentered] at hevents
  exact ⟨s, hrun, m, t, hpolls, hevents⟩

end Felis.Transport
