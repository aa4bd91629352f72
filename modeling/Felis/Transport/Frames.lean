import Felis.Phase.Inbound
import Felis.Piece.Codec

/-!
# The frames between two nodes

The four kinds of frames in the stream between two nodes, as the sender builds them, and the parser
of the receiver for one frame. All begin with a word that says which kind it is: the high byte is
`0xFF` for `StartPhase`, one number stands for the counters, a flag at bit 55 marks a future, and
everything else is the size of a piece.

`Parses` is the specification of a parser: it gets back what was sent when the frame has arrived,
whatever comes behind it, and takes nothing as long as a part of the frame is missing. It holds of
`PollRoutines` for all frames but `StartPhase` (`parses_routine`), at which `PollRoutines` stops
(`pollRoutine_startPhase`), and of `PollMappingTable` for that one (`parses_startPhase`).
-/

namespace Felis.Transport

open Bytes Piece List
open Phase.Inbound (kPromiseMaxLevels)

def kTcpBufferSize : ℕ := 1024 * 1024

def kMaxMappingTableBuffer : ℕ := 1024

/-- `PieceRoutine::kUpdateBatchCounter`. -/
def kUpdateBatchCounter : ℕ := 2 ^ 64 - 1 - 1 <<< 56

/-! ## Sending -/

def sendStartPhase (nodeId : BitVec 32) (entries : List (BitVec 32)) : List UInt8 :=
  le 8 (0xFF <<< 56 ||| entries.length) ++ (word (n := 4) nodeId ++ words (n := 4) entries)

/-- The counters at the end of `FlushBufferPlan`. -/
def flushBufferPlan (nodeId : BitVec 64) (counters : List (BitVec 64)) : List UInt8 :=
  le 8 kUpdateBatchCounter ++ (word (n := 8) nodeId ++ words (n := 8) counters)

/-- `TransportFutureValue` and `TransportDistributedFutureValue`, which differ in what they take for
the future on the other node. -/
def transportFutureValue (epochNr offset : BitVec 64) (nodeId value : BitVec 32) : List UInt8 :=
  let bufferSize := 4 + 3 * 8 + 4
  le 8 (bufferSize - 8 + 1 <<< 55) ++ (word (n := 8) epochNr ++ (word (n := 8) offset ++
    (word (n := 4) nodeId ++ word (n := 4) value)))

/-- `TransportPromiseRoutine` for another node. The piece is encoded behind its size, where `mem`
was before. -/
def transportPromiseRoutine (t : Tree) (mem : List UInt8) : Option (List UInt8) :=
  (t.encodeNode mem).map fun b => le 8 t.nodeSize ++ b.1

inductive Frame
  | startPhase (nodeId : BitVec 32) (entries : List (BitVec 32))
  | counter (nodeId : BitVec 64) (counters : List (BitVec 64))
  | future (epochNr offset : BitVec 64) (nodeId value : BitVec 32)
  /-- A piece, with the memory that it is encoded to. -/
  | piece (t : Tree) (mem : List UInt8)

namespace Frame

def bytes : Frame → List UInt8
  | .startPhase nodeId entries => sendStartPhase nodeId entries
  | .counter nodeId counters => flushBufferPlan nodeId counters
  | .future epochNr offset nodeId value => transportFutureValue epochNr offset nodeId value
  | .piece t mem => (transportPromiseRoutine t mem).getD []

def isStart : Frame → Bool
  | .startPhase _ _ => true
  | _ => false

/-- What the senders of a cluster of `nrNodes` put into the stream: a mapping table that fits the
buffer of the receiver, the counters of all levels and pairs of nodes, and pieces that fit. -/
def Valid (nrNodes : ℕ) : Frame → Prop
  | .startPhase _ entries => entries.length ≤ 253
  | .counter _ counters => counters.length = kPromiseMaxLevels * nrNodes * nrNodes
  | .future _ _ _ _ => True
  | .piece t mem => t.Valid ∧ t.nodeSize ≤ mem.length ∧ t.nodeSize < kTcpBufferSize - 8

end Frame

/-! ## Receiving -/

/-- What the receiver does with a frame: it updates its mapping tables or its counters, makes a
future ready, or has a piece to execute. -/
inductive Received
  | startPhase (nodeId : BitVec 32) (ops : List (BitVec 32))
  | counter (nodeId : BitVec 64) (counters : List (BitVec 64))
  | future (epochNr offset : BitVec 64) (nodeId value : BitVec 32)
  | piece (t : Tree)

namespace Received

def isPiece : Received → Bool
  | .piece _ => true
  | _ => false

/-- The contents, without the pointers of a piece. -/
def strip : Received → Received
  | .piece t => .piece t.strip
  | e => e

end Received

/-- What is to be received of a frame. -/
def Frame.content : Frame → Received
  | .startPhase nodeId entries => .startPhase nodeId entries
  | .counter nodeId counters => .counter nodeId counters
  | .future epochNr offset nodeId value => .future epochNr offset nodeId value
  | .piece t _ => .piece t.strip

/-- The outcome of parsing one frame. -/
inductive Result
  /-- Nothing is taken from the stream. -/
  | wait
  | abort
  /-- The frame, the number of allocations after it, and the rest of what has arrived. -/
  | got (e : Received) (allocs : ℕ) (rest : List UInt8)

/-- `Peek(buf, n)`, when all `n` bytes have arrived. -/
def peek (n : ℕ) (input : List UInt8) : Option (List UInt8) :=
  if n ≤ input.length then some (input.take n) else none

/-- `Peek(&header, 8)`, and what is done with the header when it has arrived. -/
def withHeader (input : List UInt8) (use : ℕ → Result) : Result :=
  match peek 8 input with
  | none => .wait
  | some h => use (ofLe h)

/-- `Peek` into `recv_channel_buffer`, and `Skip` after the frame has been used. A frame that is
larger than the buffer would be written past its end; the model aborts. -/
def withFrame (buflen : ℕ) (input : List UInt8) (use : List UInt8 → Option (Received × ℕ)) :
    Result :=
  if kTcpBufferSize < buflen then .abort
  else
    match peek buflen input with
    | none => .wait
    | some buf =>
      match use buf with
      | none => .abort
      | some (e, allocs) => .got e allocs (input.drop buflen)

variable (nrNodes : ℕ) (alloc : ℕ → BitVec 64)

/-- The loop body of `PollRoutines` after the header has been read, `allocs` allocations after the
beginning. -/
def pollHeader (header allocs : ℕ) (input : List UInt8) : Result :=
  if (header >>> 56) &&& 0xFF = 0xFF then .wait
  else if header = kUpdateBatchCounter then
    let bufferSize := 8 + kPromiseMaxLevels * nrNodes * nrNodes * 8
    withFrame (8 + bufferSize) input fun buf =>
      some (.counter (field 8 8 buf) (fields 8 16 (kPromiseMaxLevels * nrNodes * nrNodes) buf),
        allocs)
  else if header &&& 0xFFFF000000000000 = 1 <<< 55 then
    withFrame (8 + (header - 1 <<< 55)) input fun buf =>
      some (.future (field 8 8 buf) (field 8 16 buf) (field 4 24 buf) (field 4 28 buf), allocs)
  else if header % 8 ≠ 0 then .abort
  else
    withFrame (8 + header) input fun buf =>
      (createFromPacket alloc allocs (buf.drop 8) header).map fun c => (.piece c.1, c.2)

/-- One round of the loop in `PollRoutines`. -/
def pollRoutine (allocs : ℕ) (input : List UInt8) : Result :=
  withHeader input fun header => pollHeader nrNodes alloc header allocs input

/-- `PollMappingTable`. The lengths are computed in `unsigned int`. -/
def pollMappingTable (allocs : ℕ) (input : List UInt8) : Result :=
  withHeader input fun header =>
    if (header >>> 56) &&& 0xFF ≠ 0xFF then .abort
    else
      let nrOps := header &&& (2 ^ 31 - 1)
      let len := (4 + 4 * nrOps) % 2 ^ 32
      let buflen := (8 + len) % 2 ^ 32
      if kMaxMappingTableBuffer < buflen then .abort
      else
        withFrame buflen input fun buf =>
          some (.startPhase (field 4 8 buf) (fields 4 12 nrOps buf), allocs)

/-! ## Parsing what was sent -/

theorem peek_append {n : ℕ} {l : List UInt8} (p : List UInt8) (h : l.length = n) :
    peek n (l ++ p) = some l := by
  subst h
  simp [peek]

theorem peek_of_lt {n : ℕ} {input : List UInt8} (h : input.length < n) : peek n input = none :=
  if_neg (not_le.2 h)

/-- The parser gets the frame back when it has arrived, and waits for it until then. -/
structure Parses (parse : ℕ → List UInt8 → Result) (f : Frame) : Prop where
  got : ∀ k rest, ∃ e k', parse k (f.bytes ++ rest) = .got e k' rest ∧ e.strip = f.content
  wait : ∀ k input, input <+: f.bytes → input.length < f.bytes.length → parse k input = .wait

theorem withHeader_append {header : ℕ} (h : header < 2 ^ 64) (p : List UInt8)
    (use : ℕ → Result) : withHeader (le 8 header ++ p) use = use header := by
  have hbytes : header < 256 ^ 8 := h.trans_le (by norm_num)
  simp only [withHeader, peek_append p (length_le 8 header), ofLe_le hbytes]

/-- The rule for a frame: its header leads to `withFrame` with its length. -/
theorem parses_of_header {body : ℕ → ℕ → List UInt8 → Result} {f : Frame} {tail : List UInt8}
    (header : ℕ) (use : ℕ → List UInt8 → Option (Received × ℕ)) (hlt : header < 2 ^ 64)
    (hbytes : f.bytes = le 8 header ++ tail) (hle : f.bytes.length ≤ kTcpBufferSize)
    (hbody : ∀ k input, body header k input = withFrame f.bytes.length input (use k))
    (huse : ∀ k, ∃ e k', use k f.bytes = some (e, k') ∧ e.strip = f.content) :
    Parses (fun k input => withHeader input fun h => body h k input) f := by
  constructor
  · intro k rest
    obtain ⟨e, k', he, hstrip⟩ := huse k
    refine ⟨e, k', ?_, hstrip⟩
    have hheader : withHeader (f.bytes ++ rest) (fun h => body h k (f.bytes ++ rest)) =
        body header k (f.bytes ++ rest) := by
      nth_rewrite 1 [hbytes]
      rw [append_assoc, withHeader_append hlt]
    rw [hheader, hbody, withFrame, if_neg (not_lt.2 hle), peek_append rest rfl]
    simp only [he, drop_left]
  · intro k input hprefix hshort
    by_cases hlen : input.length < 8
    · simp only [withHeader, peek_of_lt hlen]
    · -- the header has arrived
      rw [hbytes] at hprefix
      obtain ⟨p, rfl⟩ : le 8 header <+: input :=
        prefix_of_prefix_length_le (prefix_append _ _) hprefix
          (by rw [length_le]; omega)
      rw [withHeader_append hlt, hbody, withFrame, if_neg (not_lt.2 hle), peek_of_lt hshort]

variable {nrNodes alloc}

theorem length_sendStartPhase (nodeId : BitVec 32) (entries : List (BitVec 32)) :
    (sendStartPhase nodeId entries).length = 12 + 4 * entries.length := by
  simp only [sendStartPhase, length_append, length_le, length_word, length_words]
  omega

theorem length_flushBufferPlan (nodeId : BitVec 64) (counters : List (BitVec 64)) :
    (flushBufferPlan nodeId counters).length = 16 + 8 * counters.length := by
  simp only [flushBufferPlan, length_append, length_le, length_word, length_words]
  omega

theorem parses_counter (hn : 16 + 128 * nrNodes ^ 2 ≤ kTcpBufferSize) {nodeId : BitVec 64}
    {counters : List (BitVec 64)} (hf : (Frame.counter nodeId counters).Valid nrNodes) :
    Parses (pollRoutine nrNodes alloc) (.counter nodeId counters) := by
  have hlen : (Frame.counter nodeId counters).bytes.length =
      8 + (8 + kPromiseMaxLevels * nrNodes * nrNodes * 8) := by
    rw [Frame.bytes, length_flushBufferPlan, show counters.length = _ from hf]
    ring
  refine parses_of_header kUpdateBatchCounter (fun k buf => some (.counter (field 8 8 buf)
    (fields 8 16 (kPromiseMaxLevels * nrNodes * nrNodes) buf), k)) (by decide) rfl ?_
    (fun k input => ?_) fun k => ⟨_, _, rfl, ?_⟩
  · rw [hlen, kPromiseMaxLevels]
    linarith
  · rw [pollHeader, if_neg (by decide), if_pos rfl, hlen]
  · rw [← show counters.length = _ from hf]
    simp [Frame.bytes, flushBufferPlan, Received.strip, Frame.content, field_append, field_word,
      fields_append]
    exact fields_words_self (n := 8) counters

theorem parses_future (epochNr offset : BitVec 64) (nodeId value : BitVec 32) :
    Parses (pollRoutine nrNodes alloc) (.future epochNr offset nodeId value) := by
  have hlen : (Frame.future epochNr offset nodeId value).bytes.length = 32 := by
    simp [Frame.bytes, transportFutureValue]
  refine parses_of_header (4 + 3 * 8 + 4 - 8 + 1 <<< 55) (fun k buf =>
    some (.future (field 8 8 buf) (field 8 16 buf) (field 4 24 buf) (field 4 28 buf), k))
    (by decide) rfl ?_ (fun k input => ?_) fun k => ⟨_, _, rfl, ?_⟩
  · rw [hlen]
    decide
  · rw [pollHeader, if_neg (by decide), if_neg (by decide), if_pos (by decide), hlen,
      Nat.add_sub_cancel]
  · simp [Frame.bytes, transportFutureValue, Received.strip, Frame.content, field_append,
      field_word, field_word_self]

/-- The size of a piece is none of the other headers. -/
theorem pollHeader_small {header : ℕ} (hlt : header < kTcpBufferSize) (hdvd : 8 ∣ header) (k : ℕ)
    (input : List UInt8) : pollHeader nrNodes alloc header k input =
      withFrame (8 + header) input fun buf =>
        (createFromPacket alloc k (buf.drop 8) header).map fun c => (.piece c.1, c.2) := by
  have hlt' : header < 2 ^ 20 := hlt
  have hhigh : header >>> 56 = 0 := by
    rw [Nat.shiftRight_eq_div_pow]
    omega
  have hflag : header &&& 0xFFFF000000000000 ≠ 1 <<< 55 := by
    have hle : header &&& 0xFFFF000000000000 ≤ header := Nat.and_le_left
    have hbig : 2 ^ 20 ≤ 1 <<< 55 := by decide
    omega
  have hcounter : header ≠ kUpdateBatchCounter := by
    have hbig : 2 ^ 20 ≤ kUpdateBatchCounter := by decide
    omega
  rw [pollHeader, hhigh, if_neg (by decide), if_neg hcounter, if_neg hflag,
    if_neg (not_not.2 (Nat.mod_eq_zero_of_dvd hdvd))]

theorem parses_piece {t : Tree} {mem : List UInt8} (hf : (Frame.piece t mem).Valid nrNodes) :
    Parses (pollRoutine nrNodes alloc) (.piece t mem) := by
  obtain ⟨ht, hmem, hsize⟩ := hf
  have hround : t.RoundTrips alloc := t.roundTrips ht
  obtain ⟨enc, henc, hlen, hdec⟩ := hround mem hmem
  have hbytes : (Frame.piece t mem).bytes = le 8 t.nodeSize ++ enc := by
    rw [Frame.bytes, transportPromiseRoutine, henc]
    rfl
  have hlen' : (Frame.piece t mem).bytes.length = 8 + t.nodeSize := by
    rw [hbytes, length_append, length_le, hlen]
  have hlt : t.nodeSize < kTcpBufferSize := hsize.trans_le (Nat.sub_le _ _)
  refine parses_of_header t.nodeSize (fun k buf =>
    (createFromPacket alloc k (buf.drop 8) t.nodeSize).map fun c => (.piece c.1, c.2))
    (hlt.trans (by decide)) hbytes ?_ (fun k input => ?_) fun k => ?_
  · rw [hlen']
    omega
  · rw [hlen', pollHeader_small hlt t.eight_dvd_nodeSize]
  · have hcreate := Tree.createFromPacket_eq hlen hdec k []
    rw [append_nil] at hcreate
    refine ⟨.piece (t.relocate alloc (k + 1)).1, (t.relocate alloc (k + 1)).2, ?_, ?_⟩
    · simp [hbytes, hcreate]
    · rw [Received.strip, Tree.strip_relocate, Frame.content]

/-- The header of a `StartPhase` frame. -/
theorem startPhase_header {m : ℕ} (hm : m ≤ 253) : 0xFF <<< 56 ||| m = 255 * 2 ^ 56 + m := by
  rw [← Nat.shiftLeft_add_eq_or_of_lt (hm.trans_lt (by norm_num)), Nat.shiftLeft_eq]

theorem startPhase_header_high {m : ℕ} (hm : m ≤ 253) :
    ((0xFF <<< 56 ||| m) >>> 56) &&& 0xFF = 0xFF := by
  have hshift : (255 * 2 ^ 56 + m) >>> 56 = 255 := by
    rw [Nat.shiftRight_eq_div_pow]
    omega
  rw [startPhase_header hm, hshift]
  rfl

theorem parses_startPhase {nodeId : BitVec 32} {entries : List (BitVec 32)}
    (hf : (Frame.startPhase nodeId entries).Valid nrNodes) :
    Parses pollMappingTable (.startPhase nodeId entries) := by
  have hm : entries.length ≤ 253 := hf
  have hops : (0xFF <<< 56 ||| entries.length) &&& (2 ^ 31 - 1) = entries.length := by
    rw [Nat.and_two_pow_sub_one_eq_mod, startPhase_header hm]
    omega
  have hlen : (Frame.startPhase nodeId entries).bytes.length = 12 + 4 * entries.length :=
    length_sendStartPhase nodeId entries
  refine parses_of_header (0xFF <<< 56 ||| entries.length) (fun k buf =>
    some (.startPhase (field 4 8 buf) (fields 4 12 entries.length buf), k)) ?_ rfl ?_
    (fun k input => ?_) fun k => ⟨_, _, rfl, ?_⟩
  · rw [startPhase_header hm]
    omega
  · rw [hlen, kTcpBufferSize]
    omega
  · have hbuflen : (8 + (4 + 4 * entries.length) % 2 ^ 32) % 2 ^ 32 = 12 + 4 * entries.length := by
      omega
    have hmax : ¬ kMaxMappingTableBuffer < 12 + 4 * entries.length := by
      rw [kMaxMappingTableBuffer]
      omega
    rw [if_neg (not_not.2 (startPhase_header_high hm))]
    simp only [hops, hbuflen, if_neg hmax, hlen]
  · simp [Frame.bytes, sendStartPhase, Received.strip, Frame.content, field_append, field_word,
      fields_append]
    exact fields_words_self (n := 4) entries

/-- `PollRoutines` does not go past the `StartPhase` frame of the next phase. -/
theorem pollRoutine_startPhase {nodeId : BitVec 32} {entries : List (BitVec 32)}
    (hf : (Frame.startPhase nodeId entries).Valid nrNodes) (k : ℕ) {input rest : List UInt8}
    (hinput : input <+: (Frame.startPhase nodeId entries).bytes ++ rest) :
    pollRoutine nrNodes alloc k input = .wait := by
  have hm : entries.length ≤ 253 := hf
  by_cases hlen : input.length < 8
  · simp only [pollRoutine, withHeader, peek_of_lt hlen]
  · rw [Frame.bytes, sendStartPhase, append_assoc] at hinput
    obtain ⟨p, rfl⟩ : le 8 (0xFF <<< 56 ||| entries.length) <+: input :=
      prefix_of_prefix_length_le (prefix_append _ _) hinput (by rw [length_le]; omega)
    rw [pollRoutine, withHeader_append (by rw [startPhase_header hm]; omega), pollHeader,
      if_pos (startPhase_header_high hm)]

theorem parses_routine (hn : 16 + 128 * nrNodes ^ 2 ≤ kTcpBufferSize) {f : Frame}
    (hf : f.Valid nrNodes) (hstart : f.isStart = false) : Parses (pollRoutine nrNodes alloc) f := by
  cases f with
  | startPhase nodeId entries => cases hstart
  | counter nodeId counters => exact parses_counter hn hf
  | future epochNr offset nodeId value => exact parses_future epochNr offset nodeId value
  | piece t mem => exact parses_piece hf

/-- `PollMappingTable` takes nothing else for a `StartPhase` frame. -/
theorem pollMappingTable_routine {f : Frame} (hf : f.Valid nrNodes) (hstart : f.isStart = false)
    (k : ℕ) {input rest : List UInt8} (hinput : input <+: f.bytes ++ rest) :
    pollMappingTable k input = .wait ∨ pollMappingTable k input = .abort := by
  obtain ⟨header, tail, hlt, hhigh, hbytes⟩ : ∃ header tail, header < 2 ^ 64 ∧
      (header >>> 56) &&& 0xFF ≠ 0xFF ∧ f.bytes = le 8 header ++ tail := by
    cases f with
    | startPhase nodeId entries => cases hstart
    | counter nodeId counters => exact ⟨kUpdateBatchCounter, _, by decide, by decide, rfl⟩
    | future epochNr offset nodeId value =>
      exact ⟨4 + 3 * 8 + 4 - 8 + 1 <<< 55, _, by decide, by decide, rfl⟩
    | piece t mem =>
      obtain ⟨ht, hmem, hsize⟩ := hf
      have hround : t.RoundTrips fun _ => 0 := t.roundTrips ht
      obtain ⟨enc, henc, -⟩ := hround mem hmem
      have hlt : t.nodeSize < 2 ^ 20 := hsize.trans_le (Nat.sub_le _ _)
      have hhigh : t.nodeSize >>> 56 = 0 := by
        rw [Nat.shiftRight_eq_div_pow]
        omega
      refine ⟨t.nodeSize, enc, by omega, by rw [hhigh]; decide, ?_⟩
      rw [Frame.bytes, transportPromiseRoutine, henc]
      rfl
  by_cases hlen : input.length < 8
  · left
    simp only [pollMappingTable, withHeader, peek_of_lt hlen]
  · right
    rw [hbytes, append_assoc] at hinput
    obtain ⟨p, rfl⟩ : le 8 header <+: input :=
      prefix_of_prefix_length_le (prefix_append _ _) hinput (by rw [length_le]; omega)
    rw [pollMappingTable, withHeader_append hlt, if_pos hhigh]

end Felis.Transport
