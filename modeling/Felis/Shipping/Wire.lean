import Felis.Foundations.Bytes
import Felis.Foundations.MachineInts
import Felis.Shipping.SendIOVec
import Felis.Shipping.Session

/-!
# The wire format of a shipment

`RunSend` sends the rows of a shipment as frames: the length of the row, and the row as
`EncodeIOVec` describes it. The frames are not put together in memory. `EncodeIOVec` hands out
pointers to the fields of the row, and `writev` reads them later, when the vector is full or the
batch is done. The pointer to the length of the key is one to a local variable of `EncodeIOVec`,
which has returned by then, so what `writev` finds there is not known: it is `Writev.stack` here.
After each batch eight zero bytes ask the receiver for an acknowledgement.

The receiver reads a length and as many bytes, and `DecodeIOVec` lays out the key and the value in a
buffer of 1024 bytes that its caller has prepared.

Whatever is found in place of the lengths of the keys, the stream has the form of a shipment
(`runSend_spec`), and the receiver gets the rows that were sent if and only if each call has written
the right lengths and the rows fit the buffer (`shipment_arrives`).
-/

namespace Felis.Shipping.Wire

open Bytes Gather MachineInts Option

structure Row where
  relId : BitVec 32
  slice : BitVec 32
  key : List UInt8
  value : List UInt8
  deriving DecidableEq

/-- The lengths fit a `uint16_t` and are not zero. -/
structure Row.Valid (r : Row) : Prop where
  key_pos : 0 < r.key.length
  key_lt : r.key.length < 2 ^ 16
  value_pos : 0 < r.value.length
  value_lt : r.value.length < 2 ^ 16

/-- `encoded_len` after `EncodeIOVec`. -/
def Row.encodedLen (r : Row) : ℕ := 10 + r.key.length + r.value.length

/-- What an entry of the vector points to. -/
inductive Base
  | encodedLen (r : Row)
  | relId (r : Row)
  | slice (r : Row)
  /-- The local variable of the call of `EncodeIOVec` for this row. -/
  | klen (r : Row)
  | key (r : Row)
  | value (r : Row)

/-- A call of `writev`: how many bytes it may write, and what it finds in place of the local
variables of `EncodeIOVec`. -/
structure Writev where
  res : ℕ
  stack : Row → ℕ

/-- What is at a place when a call of `writev` runs. -/
def memory (stack : Row → ℕ) : Base → List UInt8
  | .encodedLen r => le 8 r.encodedLen
  | .relId r => word (n := 4) r.relId
  | .slice r => word (n := 4) r.slice
  | .klen r => le 2 (stack r)
  | .key r => r.key
  | .value r => r.value

/-- `RowEntity::EncodeIOVec`: the entries that it writes, none if it returns 0. -/
def encodeIOVec (r : Row) (maxNrVec : ℕ) : Option (List (Entry Base)) :=
  if maxNrVec < 4 then none
  else
    some [⟨.relId r, 0, 4⟩, ⟨.slice r, 0, 4⟩, ⟨.klen r, 0, 2⟩, ⟨.key r, 0, r.key.length⟩,
      ⟨.value r, 0, r.value.length⟩]

/-- The entry for the length of a row. -/
def header (r : Row) : Entry Base := ⟨.encodedLen r, 0, 8⟩

/-- What `RunSend` does with a batch: the vectors that it passes to `SendIOVec`, and for each
successful call of `EncodeIOVec` how many entries it was offered and how many it wrote. -/
structure Encoded where
  vecs : List (List (Entry Base))
  calls : List (ℕ × ℕ)

/-- The loop of `RunSend` over the rows of a batch, with the entries `vec[0..cur_iov]`. -/
def encodeRows : List Row → List (Entry Base) → Encoded
  | [], vec => ⟨[vec], []⟩
  | r :: rows, vec =>
    let offered := iovMax - vec.length - 1
    match if vec.length = iovMax then none else encodeIOVec r offered with
    | some entries =>
      let e := encodeRows rows (vec ++ header r :: entries)
      ⟨e.vecs, (offered, entries.length) :: e.calls⟩
    | none =>
      -- The vector is sent, and the row is tried again with an empty one.
      match encodeIOVec r (iovMax - 1) with
      | some entries =>
        let e := encodeRows rows (header r :: entries)
        ⟨vec :: e.vecs, (iovMax - 1, entries.length) :: e.calls⟩
      | none => ⟨[vec], []⟩

/-- `BaseShipment::SendIOVec` of the vectors of a batch, from the `i`-th call of `writev` on. Every
call writes something, so there are no more calls than bytes. -/
def sendVecs (ws : ℕ → Writev) :
    ℕ → List (List (Entry Base)) → Option (List UInt8 × List (Written Base))
  | _, [] => some ([], [])
  | i, vec :: vecs =>
    let fuel := (bytes (memory (ws i).stack) vec).length
    (sendIOVec (fun i => memory (ws i).stack) (fun i => (ws i).res) fuel i vec).toOption.bind
      fun r => (sendVecs ws (i + r.2.length) vecs).map fun r' => (r.1 ++ r'.1, r.2 ++ r'.2)

/-- What a shipment has sent: the bytes on the stream, the calls of `EncodeIOVec` and those of
`writev`. -/
structure Sent where
  stream : List UInt8
  calls : List (ℕ × ℕ)
  writes : List (Written Base)

/-- `Shipment::AddObject`, for all the rows in order. -/
def addObjects (rows : List Row) : List Row := rows.foldl (fun queue r => r :: queue) []

/-- `RunSend` until it finds the queue empty. -/
def runSend (ws : ℕ → Writev) : ℕ → ℕ → List Row → Option Sent
  | 0, _, _ => none
  | fuel + 1, i, queue =>
    if queue = [] then some ⟨[], [], []⟩
    else
      let obj := queue.reverse.take Migration.kSendBatch
      let rest := (queue.reverse.drop Migration.kSendBatch).reverse
      let e := encodeRows obj []
      (sendVecs ws i e.vecs).bind fun r =>
        -- `ReceiveACK`
        (runSend ws fuel (i + r.2.length) rest).map fun s =>
          ⟨r.1 ++ le 8 0 ++ s.stream, e.calls ++ s.calls, r.2 ++ s.writes⟩

/-! ## The receiver -/

/-- `sizeof(VarStr)`: the length and the region. -/
def varStrSize : ℕ := 4

structure Decoded where
  row : Row
  /-- How far `DecodeIOVec` writes into the prepared buffer. -/
  extent : ℕ
  deriving DecidableEq

/-- `RowEntity::DecodeIOVec`. The assertions that the key and the value are not empty are kept; the
length of the value is a `uint16_t` in its `VarStr`. -/
def decodeIOVec (p : List UInt8) : Option Decoded :=
  let keySize := (field 2 8 p).toNat
  if keySize = 0 ∨ p.length < 10 + keySize then none
  else
    let valueSize := p.length - 10 - keySize
    if valueSize = 0 then none
    else
      some {
        row :=
          { relId := field 4 0 p
            slice := field 4 4 p
            key := (p.drop 10).take keySize
            value := ((p.drop (10 + keySize)).take valueSize).take (valueSize % 2 ^ 16) }
        extent := align (varStrSize + keySize) 8 + varStrSize + valueSize }

/-- `ShipmentReceiver::Receive`, until the end of the stream. -/
def receive : ℕ → List UInt8 → Option (List Decoded)
  | 0, _ => none
  | fuel + 1, input =>
    match read 8 input with
    | none => some []
    | some (header, input) =>
      let psz := ofLe header
      if psz = 0 then receive fuel input
      else
        match read psz input with
        | none => none
        | some (p, input) => (decodeIOVec p).bind fun d => (receive fuel input).map (d :: ·)

/-! ## What is sent -/

/-- The memory while the local variables of `EncodeIOVec` still hold the lengths of the keys. -/
abbrev kept : Base → List UInt8 := memory fun r => r.key.length

def entries (r : Row) : List (Entry Base) :=
  [header r, ⟨.relId r, 0, 4⟩, ⟨.slice r, 0, 4⟩, ⟨.klen r, 0, 2⟩, ⟨.key r, 0, r.key.length⟩,
    ⟨.value r, 0, r.value.length⟩]

/-- A row behind its length on the stream, with two bytes in place of the length of the key. -/
def bodyWith (r : Row) (l : List UInt8) : List UInt8 :=
  word (n := 4) r.relId ++ (word (n := 4) r.slice ++ (l ++ (r.key ++ r.value)))

/-- A row with its length. -/
def frame (p : Row × List UInt8) : List UInt8 := le 8 p.1.encodedLen ++ bodyWith p.1 p.2

theorem length_bodyWith {r : Row} {l : List UInt8} (hl : l.length = 2) :
    (bodyWith r l).length = r.encodedLen := by
  simp [bodyWith, Row.encodedLen, hl]
  omega

theorem length_frame {p : Row × List UInt8} (hp : p.2.length = 2) :
    (frame p).length = 8 + p.1.encodedLen := by
  rw [frame, List.length_append, length_le, length_bodyWith hp]

theorem bytes_entries (r : Row) : bytes kept (entries r) = frame (r, le 2 r.key.length) := by
  simp [entries, header, Entry.bytes, memory, List.take_of_length_le, frame, bodyWith]

variable {rows : List Row}

theorem encodeRows_of_room {r : Row} {vec : List (Entry Base)} (h : vec.length ≤ 1019) :
    encodeRows (r :: rows) vec =
      ⟨(encodeRows rows (vec ++ entries r)).vecs,
        (1023 - vec.length, 5) :: (encodeRows rows (vec ++ entries r)).calls⟩ := by
  have hoffered : iovMax - vec.length - 1 = 1023 - vec.length := by
    unfold iovMax
    omega
  have hne : vec.length ≠ iovMax := by
    unfold iovMax
    omega
  have hencode : ¬ 1023 - vec.length < 4 := by omega
  simp only [encodeRows, hoffered, if_neg hne, encodeIOVec, if_neg hencode]
  rfl

theorem encodeRows_of_full {r : Row} {vec : List (Entry Base)} (h : vec.length = 1020) :
    encodeRows (r :: rows) vec =
      ⟨vec :: (encodeRows rows (entries r)).vecs,
        (1023, 5) :: (encodeRows rows (entries r)).calls⟩ := by
  simp [encodeRows, h, iovMax, encodeIOVec, entries]

/-- A batch is encoded row by row: a vector has room for 170 rows, and the room that is left then is
too small for `EncodeIOVec` to use. -/
theorem encodeRows_spec (rows : List Row) (vec : List (Entry Base)) {m : ℕ}
    (hvec : vec.length = 6 * m) (hm : m ≤ 170) :
    (encodeRows rows vec).vecs.flatten = vec ++ rows.flatMap entries ∧
      ∀ c ∈ (encodeRows rows vec).calls, c.2 ≤ c.1 := by
  induction rows generalizing vec m with
  | nil => simp [encodeRows]
  | cons r rows ih =>
    by_cases hroom : m ≤ 169
    · have hlen : (vec ++ entries r).length = 6 * (m + 1) := by
        simp [entries, hvec]
        omega
      obtain ⟨hvecs, hcalls⟩ := ih (vec ++ entries r) hlen (by omega)
      rw [encodeRows_of_room (by omega)]
      refine ⟨?_, List.forall_mem_cons.2 ⟨by dsimp only; omega, hcalls⟩⟩
      rw [hvecs, List.flatMap_cons, List.append_assoc]
    · have hlen : (entries r).length = 6 * 1 := rfl
      obtain ⟨hvecs, hcalls⟩ := ih (entries r) hlen (by omega)
      rw [encodeRows_of_full (by omega)]
      refine ⟨?_, List.forall_mem_cons.2 ⟨by decide, hcalls⟩⟩
      rw [List.flatten_cons, hvecs, List.flatMap_cons]

section

variable {w : ℕ → Writev}

/-- The call has written the lengths of the keys where it has written them. -/
abbrev Intact (w : ℕ → Writev) (c : Written Base) : Prop :=
  c.Intact kept fun i => memory (w i).stack

/-- The entries of a row are not empty, and only what they point to may change. -/
theorem alike_entries {r : Row} (hr : r.Valid) : ∀ e ∈ entries r,
    0 < e.len ∧ Alike kept (fun i => memory (w i).stack) e := by
  intro e he
  have hkey := hr.key_pos
  have hvalue := hr.value_pos
  simp only [entries, header, List.mem_cons, List.not_mem_nil, or_false] at he
  rcases he with rfl | rfl | rfl | rfl | rfl | rfl <;>
    refine ⟨by simp [hkey, hvalue], by simp [Entry.Inside, memory], fun i => ?_⟩ <;>
    simp [memory]

/-- A mixture of what the calls have seen of some rows has the form of the rows. -/
theorem frames_of_mixed {out : List UInt8}
    (h : Mixed kept (fun i => memory (w i).stack) (rows.flatMap entries) out) :
    ∃ items : List (Row × List UInt8), items.map Prod.fst = rows ∧ (∀ p ∈ items, p.2.length = 2) ∧
      out = items.flatMap frame := by
  induction rows generalizing out with
  | nil =>
    cases h
    exact ⟨[], rfl, by simp, rfl⟩
  | cons r rows ih =>
    rw [List.flatMap_cons] at h
    rcases h with _ | ⟨-, hlen, _ | ⟨-, hrel, _ | ⟨-, hslice, _ | ⟨hl, -, _ | ⟨-, hkey, _ |
      ⟨-, hvalue, h⟩⟩⟩⟩⟩⟩
    rename_i len relId slice l key value out
    obtain ⟨items, rfl, hitems, rfl⟩ := ih h
    have hl : l.length = 2 := hl
    refine ⟨(r, l) :: items, rfl, List.forall_mem_cons.2 ⟨hl, hitems⟩, ?_⟩
    rw [hlen fun _ => rfl, hrel fun _ => rfl, hslice fun _ => rfl, hkey fun _ => rfl,
      hvalue fun _ => rfl]
    simp [header, Entry.bytes, memory, List.take_of_length_le, frame, bodyWith]

/-- Some rows are as they should be if and only if the lengths of their keys are. -/
theorem frames_eq_iff {items : List (Row × List UInt8)} (hitems : ∀ p ∈ items, p.2.length = 2) :
    items.flatMap frame = bytes kept ((items.map Prod.fst).flatMap entries) ↔
      ∀ p ∈ items, p.2 = le 2 p.1.key.length := by
  induction items with
  | nil => simp
  | cons p items ih =>
    obtain ⟨hp, hitems⟩ := List.forall_mem_cons.1 hitems
    have hframe : frame p = frame (p.1, le 2 p.1.key.length) ↔ p.2 = le 2 p.1.key.length := by
      simp [frame, bodyWith]
    rw [List.map_cons, List.flatMap_cons, List.flatMap_cons, bytes_append, bytes_entries,
      List.forall_mem_cons, ← ih hitems, ← hframe]
    refine ⟨fun hall => List.append_inj hall ?_, fun ⟨hfirst, hrest⟩ => by rw [hfirst, hrest]⟩
    rw [length_frame hp, length_frame (length_le 2 _)]

theorem sendVecs_spec {vecs : List (List (Entry Base))} (i : ℕ)
    (h : ∀ e ∈ vecs.flatten, 0 < e.len ∧ Alike kept (fun i => memory (w i).stack) e) :
    ∃ out log, sendVecs w i vecs = some (out, log) ∧
      Mixed kept (fun i => memory (w i).stack) vecs.flatten out ∧
      (out = bytes kept vecs.flatten ↔ ∀ c ∈ log, Intact w c) := by
  induction vecs generalizing i with
  | nil => exact ⟨[], [], rfl, .nil, by simp⟩
  | cons v vecs ih =>
    rw [List.flatten_cons, List.forall_mem_append] at h
    have halike := fun e he => (h.1 e he).2
    obtain ⟨out, log, hsend, hmix, hout⟩ := sendIOVec_eq (i := i) halike
      (fun e he => (h.1 e (List.mem_of_getLast? he)).1) (fun i => (w i).res)
      (length_bytes_mems halike i).ge
    obtain ⟨out', log', hsend', hmix', hout'⟩ := ih (i + log.length) h.2
    refine ⟨out ++ out', log ++ log', ?_, hmix.append hmix', ?_⟩
    · rw [sendVecs, hsend]
      simp only [Except.toOption, bind_some, hsend', map_some]
    · rw [List.flatten_cons, bytes_append, List.forall_mem_append, ← hout, ← hout']
      refine ⟨fun hall => List.append_inj hall ?_, fun ⟨hfirst, hrest⟩ => by rw [hfirst, hrest]⟩
      rw [hmix.length_eq, length_bytes fun e he => (halike e he).inside]

/-- What the stream carries: rows behind their lengths, and the zeros that ask for an
acknowledgement. -/
inductive Carries : List UInt8 → List (Row × List UInt8) → Prop
  | nil : Carries [] []
  | ack {stream : List UInt8} {items : List (Row × List UInt8)} : Carries stream items →
      Carries (le 8 0 ++ stream) items
  | row {stream : List UInt8} {items : List (Row × List UInt8)} {p : Row × List UInt8} :
      p.2.length = 2 → Carries stream items → Carries (frame p ++ stream) (p :: items)

variable {stream : List UInt8} {items : List (Row × List UInt8)}

theorem Carries.append (h : Carries stream items) {batch : List (Row × List UInt8)}
    (hbatch : ∀ p ∈ batch, p.2.length = 2) :
    Carries (batch.flatMap frame ++ stream) (batch ++ items) := by
  induction batch with
  | nil => exact h
  | cons p batch ih =>
    obtain ⟨hp, hbatch⟩ := List.forall_mem_cons.1 hbatch
    rw [List.flatMap_cons, List.append_assoc]
    exact (ih hbatch).row hp

/-- `RunSend` sends the rows in the order in which they were added. The lengths of the keys are
right if and only if each call has written what was there. -/
theorem runSend_spec (hvalid : ∀ r ∈ rows, r.Valid) {fuel i : ℕ} (hfuel : rows.length < fuel) :
    ∃ s items, runSend w fuel i rows.reverse = some s ∧ (∀ c ∈ s.calls, c.2 ≤ c.1) ∧
      items.map Prod.fst = rows ∧ Carries s.stream items ∧
      ((∀ p ∈ items, p.2 = le 2 p.1.key.length) ↔ ∀ c ∈ s.writes, Intact w c) := by
  induction fuel generalizing rows i with
  | zero => omega
  | succ fuel ih =>
    rw [runSend]
    split_ifs with hnil
    · obtain rfl : rows = [] := by simpa using hnil
      exact ⟨_, [], rfl, by simp, rfl, .nil, by simp⟩
    · rw [List.reverse_reverse]
      obtain ⟨hvecs, hcalls⟩ := encodeRows_spec (rows.take Migration.kSendBatch) []
        (m := 0) rfl (by omega)
      rw [List.nil_append] at hvecs
      obtain ⟨out, log, hsend, hmix, hout⟩ := sendVecs_spec (w := w) i (fun e he => by
        rw [hvecs] at he
        obtain ⟨r, hr, he⟩ := List.mem_flatMap.1 he
        exact alike_entries (hvalid r (List.mem_of_mem_take hr)) e he)
      rw [hvecs] at hmix hout
      obtain ⟨batch, hrows, hbatch, rfl⟩ := frames_of_mixed hmix
      rw [← hrows, frames_eq_iff hbatch] at hout
      have hpos : 0 < rows.length := List.length_pos_iff.2 (by simpa using hnil)
      obtain ⟨s, items, hs, hscalls, hsrows, hcarries, hintact⟩ := ih (i := i + log.length)
        (fun r hr => hvalid r (List.mem_of_mem_drop hr))
        (show (rows.drop Migration.kSendBatch).length < fuel by
          rw [List.length_drop]
          unfold Migration.kSendBatch iovMax
          omega)
      refine ⟨_, batch ++ items, by simp only [hsend, bind_some, hs, map_some]; rfl,
        List.forall_mem_append.2 ⟨hcalls, hscalls⟩, ?_, ?_, ?_⟩
      · rw [List.map_append, hrows, hsrows, List.take_append_drop]
      · rw [List.append_assoc]
        exact hcarries.ack.append hbatch
      · rw [List.forall_mem_append, List.forall_mem_append, hout, hintact]

end

theorem addObjects_eq (rows : List Row) : addObjects rows = rows.reverse := by
  simp [addObjects]

/-! ## What is received -/

/-- What `DecodeIOVec` makes of a row. -/
def decoded (r : Row) : Decoded :=
  ⟨r, align (varStrSize + r.key.length) 8 + varStrSize + r.value.length⟩

section

variable {r : Row} {l : List UInt8} {d : Decoded}

/-- What `DecodeIOVec` finds in a row. -/
theorem fields_bodyWith (hl : l.length = 2) : field 4 0 (bodyWith r l) = r.relId ∧
    field 4 4 (bodyWith r l) = r.slice ∧ (field 2 8 (bodyWith r l)).toNat = ofLe l ∧
      (bodyWith r l).drop 10 = r.key ++ r.value := by
  have hlt : ofLe l < 2 ^ (8 * 2) := by
    have h := ofLe_lt l
    rw [hl] at h
    omega
  have hword : l = word (n := 2) (BitVec.ofNat 16 (ofLe l)) := by
    rw [word, BitVec.toNat_ofNat, Nat.mod_eq_of_lt hlt]
    exact hl ▸ (le_ofLe l).symm
  have hhead : (word (n := 4) r.relId ++ (word (n := 4) r.slice ++ l)).length = 10 := by simp [hl]
  have hbody : bodyWith r l =
      (word (n := 4) r.relId ++ (word (n := 4) r.slice ++ l)) ++ (r.key ++ r.value) := by
    simp [bodyWith]
  refine ⟨field_word (n := 4) r.relId _, ?_, ?_, by rw [hbody, List.drop_left' hhead]⟩
  · rw [bodyWith, field_append _ (by simp), length_word]
    exact field_word (n := 4) r.slice _
  · rw [bodyWith, field_append _ (by simp), field_append _ (by simp), length_word, length_word,
      show 8 - 4 - 4 = 0 from rfl, hword, field_word, ← hword, BitVec.toNat_ofNat,
      Nat.mod_eq_of_lt hlt]

theorem decodeIOVec_bodyWith (hr : r.Valid) :
    decodeIOVec (bodyWith r (le 2 r.key.length)) = some (decoded r) := by
  obtain ⟨hkey, hkey', hvalue, hvalue'⟩ := hr
  obtain ⟨hrel, hslice, hsize, hdrop⟩ := fields_bodyWith (r := r) (length_le 2 r.key.length)
  have hlen := length_bodyWith (r := r) (length_le 2 r.key.length)
  rw [ofLe_le (n := 2) hkey'] at hsize
  unfold Row.encodedLen at hlen
  have hdrop' : (bodyWith r (le 2 r.key.length)).drop (10 + r.key.length) = r.value := by
    rw [← List.drop_drop, hdrop, List.drop_left]
  have hvalueSize : (bodyWith r (le 2 r.key.length)).length - 10 - r.key.length =
      r.value.length := by omega
  unfold decodeIOVec
  simp only [hsize, hrel, hslice, hdrop, hdrop', hvalueSize]
  rw [if_neg (by omega), if_neg (by omega), List.take_left, List.take_length,
    Nat.mod_eq_of_lt hvalue', List.take_length]
  rfl

/-- With another length a row is not decoded as it was sent. -/
theorem decodeIOVec_iff (hr : r.Valid) (hl : l.length = 2) :
    (decodeIOVec (bodyWith r l) = some d ∧ d.row = r) ↔
      l = le 2 r.key.length ∧ d = decoded r := by
  constructor
  · rintro ⟨hd, hrow⟩
    have hlen : ofLe l = r.key.length := by
      obtain ⟨-, -, hsize, hdrop⟩ := fields_bodyWith (r := r) hl
      unfold decodeIOVec at hd
      simp only [hsize, hdrop] at hd
      split_ifs at hd with hcut hempty
      cases hd
      have hkey := congrArg (fun r => r.key.length) hrow
      have hbody := congrArg List.length hdrop
      rw [List.length_drop] at hbody
      simp only [List.length_take] at hkey
      omega
    have hle : l = le 2 r.key.length := by
      rw [← hlen, ← hl, le_ofLe]
    rw [hle, decodeIOVec_bodyWith hr] at hd
    exact ⟨hle, (Option.some.inj hd).symm⟩
  · rintro ⟨rfl, rfl⟩
    exact ⟨decodeIOVec_bodyWith hr, rfl⟩

theorem receive_iff {stream : List UInt8} {items : List (Row × List UInt8)}
    (h : Carries stream items) (hvalid : ∀ p ∈ items, p.1.Valid) {fuel : ℕ}
    (hfuel : stream.length < fuel) (ds : List Decoded) :
    (receive fuel stream = some ds ∧ ds.map Decoded.row = items.map Prod.fst) ↔
      (∀ p ∈ items, p.2 = le 2 p.1.key.length) ∧ ds = items.map fun p => decoded p.1 := by
  obtain ⟨fuel, rfl⟩ : ∃ n, fuel = n + 1 := ⟨fuel - 1, by omega⟩
  induction h generalizing fuel ds with
  | nil =>
    refine ⟨fun ⟨hds, _⟩ => ⟨by simp, (Option.some.inj hds).symm⟩, fun ⟨_, hds⟩ => ?_⟩
    subst hds
    exact ⟨rfl, rfl⟩
  | @ack stream items _ ih =>
    rw [List.length_append, length_le] at hfuel
    obtain ⟨fuel, rfl⟩ : ∃ n, fuel = n + 1 := ⟨fuel - 1, by omega⟩
    rw [receive, read_append stream (length_le 8 0)]
    exact ih hvalid ds fuel (by omega)
  | @row stream items p hp _ ih =>
    obtain ⟨hr, hvalid⟩ := List.forall_mem_cons.1 hvalid
    have hlen : p.1.encodedLen < 256 ^ 8 := by
      have := hr.key_lt
      have := hr.value_lt
      unfold Row.encodedLen
      omega
    have hne : p.1.encodedLen ≠ 0 := by
      unfold Row.encodedLen
      omega
    rw [List.length_append, length_frame hp] at hfuel
    obtain ⟨fuel, rfl⟩ : ∃ n, fuel = n + 1 := ⟨fuel - 1, by omega⟩
    rw [frame, List.append_assoc, receive, read_append _ (length_le 8 _)]
    dsimp only
    rw [ofLe_le hlen, if_neg hne, read_append stream (length_bodyWith hp)]
    simp only [bind_eq_some_iff, map_eq_some_iff, List.map_cons, List.forall_mem_cons]
    constructor
    · rintro ⟨⟨d, hd, ds, hds, rfl⟩, hrows⟩
      rw [List.map_cons, List.cons.injEq] at hrows
      obtain ⟨hfirst, rfl⟩ := (decodeIOVec_iff hr hp).1 ⟨hd, hrows.1⟩
      obtain ⟨hitems, rfl⟩ := (ih hvalid ds fuel (by omega)).1 ⟨hds, hrows.2⟩
      exact ⟨⟨hfirst, hitems⟩, rfl⟩
    · rintro ⟨⟨hfirst, hitems⟩, rfl⟩
      obtain ⟨hd, hrow⟩ := (decodeIOVec_iff hr hp).2 ⟨hfirst, rfl⟩
      obtain ⟨hds, hrows⟩ := (ih hvalid _ fuel (by omega)).2 ⟨hitems, rfl⟩
      exact ⟨⟨_, hd, _, hds, rfl⟩, by rw [List.map_cons, hrow, hrows]⟩

end

/-- **When a shipment arrives.** However the writes are cut, `RunSend` comes to an end and
`EncodeIOVec` stays within the entries that it is offered. The receiver gets the rows that were
added, in order, and `DecodeIOVec` stays within its buffer, if and only if every call of `writev`
has found the lengths of the keys that it has written in the local variables of `EncodeIOVec`, and
the rows fit the buffer. -/
theorem shipment_arrives (rows : List Row) (w : ℕ → Writev) (hvalid : ∀ r ∈ rows, r.Valid) :
    ∃ s, runSend w (rows.length + 1) 0 (addObjects rows) = some s ∧ (∀ c ∈ s.calls, c.2 ≤ c.1) ∧
      ((∃ ds, receive (s.stream.length + 1) s.stream = some ds ∧ ds.map Decoded.row = rows ∧
          ∀ d ∈ ds, d.extent ≤ 1024) ↔
        (∀ c ∈ s.writes, Intact w c) ∧ ∀ r ∈ rows,
          align (varStrSize + r.key.length) 8 + varStrSize + r.value.length ≤ 1024) := by
  obtain ⟨s, items, hs, hcalls, rfl, hcarries, hintact⟩ :=
    runSend_spec (w := w) (i := 0) hvalid (Nat.lt_succ_self _)
  have hreceive := receive_iff hcarries (fun p hp => hvalid p.1 (List.mem_map_of_mem hp))
    (Nat.lt_succ_self _)
  refine ⟨s, by rw [addObjects_eq, hs], hcalls, ?_⟩
  rw [← hintact]
  constructor
  · rintro ⟨ds, hds, hrows, hfit⟩
    obtain ⟨hlens, rfl⟩ := (hreceive ds).1 ⟨hds, hrows⟩
    exact ⟨hlens, List.forall_mem_map.2 fun p hp => hfit _ (List.mem_map_of_mem hp)⟩
  · rintro ⟨hlens, hfit⟩
    obtain ⟨hds, hrows⟩ := (hreceive _).2 ⟨hlens, rfl⟩
    exact ⟨_, hds, hrows, List.forall_mem_map.2 fun p hp => hfit p.1 (List.mem_map_of_mem hp)⟩

def twoRows : List Row := [⟨7, 1, [1], [2, 3]⟩, ⟨7, 1, [4, 5], [6]⟩]

theorem twoRows_valid : ∀ r ∈ twoRows, r.Valid := by
  intro r hr
  simp only [twoRows, List.mem_cons, List.not_mem_nil, or_false] at hr
  rcases hr with rfl | rfl <;> constructor <;> decide

theorem shipment_arrives_twoRows : ∃ s ds,
    runSend (fun _ => ⟨5, fun r => r.key.length⟩) 3 0 (addObjects twoRows) = some s ∧
      receive (s.stream.length + 1) s.stream = some ds ∧ ds.map Decoded.row = twoRows := by
  obtain ⟨s, hs, -, harrives⟩ := shipment_arrives twoRows
    (fun _ => ⟨5, fun r => r.key.length⟩) twoRows_valid
  obtain ⟨ds, hds, hrows, -⟩ := harrives.2 ⟨fun _ _ => rfl, by decide⟩
  exact ⟨s, ds, hs, hds, hrows⟩

/-- The same bytes, with the first byte of the first value taken for a part of the key. -/
def misreadRows : List Row := [⟨7, 1, [1, 2], [3]⟩, ⟨7, 1, [4, 5], [6]⟩]

/-- When the local variable of all the calls is one place on the stack, `writev` finds the length of
the last key for all the rows. -/
theorem misread_twoRows : (∀ r ∈ twoRows, r.Valid) ∧ ∃ s ds,
    runSend (fun _ => ⟨1000, fun _ => 2⟩) 3 0 (addObjects twoRows) = some s ∧
      receive (s.stream.length + 1) s.stream = some ds ∧ ds.map Decoded.row = misreadRows ∧
      misreadRows ≠ twoRows := by
  obtain ⟨s, hs, ds, hds⟩ : ∃ s,
      runSend (fun _ => ⟨1000, fun _ => 2⟩) 3 0 (addObjects twoRows) = some s ∧ ∃ ds,
      receive (s.stream.length + 1) s.stream = some ds ∧ ds.map Decoded.row = misreadRows ∧
      misreadRows ≠ twoRows := by decide +kernel
  exact ⟨twoRows_valid, s, ds, hs, hds⟩

end Felis.Shipping.Wire
