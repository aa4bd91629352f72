import Felis.Transport.Frames

/-!
# Who owns a slice

Every node has a table of the slices that each node owns. `SetEntry` changes the table of the node
that calls it and packs the change into a word for the other nodes. The words are collected until
the next phase starts, go out with `SendStartPhase`, and are unpacked by `ReplayUpdate` on every
receiver.

The words are `int`s of 32 bits: 6 bits for the node, 2 for the kind of the owner, one for the new
value and 23 for the slice. When an assertion fails, or the index of a node is outside of the table,
there is no result.
-/

namespace Felis.Slice

open Transport Bytes Option Function

def kNrMaxSlices : ℕ := 256

def kMaxNrNode : ℕ := 254

inductive SliceOwnerType
  | primaryOwner
  | indexOwner
  | dataOwner
  deriving DecidableEq

namespace SliceOwnerType

def toNat : SliceOwnerType → ℕ
  | primaryOwner => 0
  | indexOwner => 1
  | dataOwner => 2

/-- The cast from a number; 3 is no owner type. -/
def cast : ℕ → Option SliceOwnerType
  | 0 => some primaryOwner
  | 1 => some indexOwner
  | 2 => some dataOwner
  | _ => none

theorem cast_toNat (type : SliceOwnerType) : cast type.toNat = some type := by
  cases type <;> rfl

theorem toNat_lt (type : SliceOwnerType) : type.toNat < 4 := by
  cases type <;> decide

end SliceOwnerType

structure SliceMappingTable where
  /-- `slice_owners[i].owned[type][slice]` -/
  owned : ℕ → SliceOwnerType → ℕ → Bool
  /-- The index of a node in `slice_owners`; `none` is `-1`. -/
  nodeCompress : ℕ → Option ℕ
  broadcastBuffer : List (BitVec 32)

/-- The arguments of `SetEntry`. The node `-1` is the node that makes the call. -/
structure Update where
  sliceId : ℤ
  owned : Bool
  type : SliceOwnerType
  nodeId : ℤ

/-- The node that an update made by the node `self` is about. -/
def Update.node (self : ℤ) (u : Update) : ℤ := if u.nodeId = -1 then self else u.nodeId

namespace SliceMappingTable

/-- The word that `SetEntry` puts into the buffer. -/
def encodeOp (nodeId sliceId : ℤ) (owned : Bool) (type : SliceOwnerType) : BitVec 32 :=
  let op := 0#32 ||| BitVec.ofInt 32 nodeId
  let op := (op <<< 2) ||| BitVec.ofNat 32 type.toNat
  let op := (op <<< 1) ||| BitVec.ofNat 32 owned.toNat
  (op <<< 23) ||| BitVec.ofInt 32 sliceId

/-- `slice_owners[i].owned[type][slice_id] = owned` -/
def assign (t : SliceMappingTable) (i : ℕ) (type : SliceOwnerType) (sliceId : ℕ) (owned : Bool) :
    SliceMappingTable :=
  { t with owned := update t.owned i (update (t.owned i) type
    (update (t.owned i type) sliceId owned)) }

/-- `SliceMappingTable::SetEntry` on the node `self`. -/
def setEntry (self : ℤ) (t : SliceMappingTable) (u : Update) (broadcast : Bool) :
    Option SliceMappingTable :=
  let nodeId := u.node self
  if nodeId < 0 ∨ kMaxNrNode ≤ nodeId then none
  else
    match t.nodeCompress nodeId.toNat with
    | none => none
    | some i =>
      if u.sliceId < 0 ∨ kNrMaxSlices ≤ u.sliceId then none
      else
        let t := t.assign i u.type u.sliceId.toNat u.owned
        if broadcast then
          if 2 ^ 6 ≤ nodeId ∨ 2 ^ 23 ≤ u.sliceId then none
          else some { t with
            broadcastBuffer := t.broadcastBuffer ++ [encodeOp nodeId u.sliceId u.owned u.type] }
        else some t

/-- The unpacking in `ReplayUpdate`; the shifts of an `int` to the right are arithmetic. -/
def decodeOp (op : BitVec 32) : Option Update :=
  (SliceOwnerType.cast ((op.sshiftRight 24) &&& 3#32).toNat).map fun type =>
    { sliceId := (op &&& (1#32 <<< 23) - 1#32).toInt
      owned := (op.sshiftRight 23) &&& 1#32 ≠ 0#32
      type := type
      nodeId := (op.sshiftRight 26).toInt }

/-- `SliceMappingTable::ReplayUpdate`. -/
def replayUpdate (self : ℤ) (t : SliceMappingTable) (op : BitVec 32) : Option SliceMappingTable :=
  (decodeOp op).bind fun u => t.setEntry self u false

/-- The updates of a phase and `SendStartPhase`. -/
def sendPhase (self : ℤ) (t : SliceMappingTable) (us : List Update) :
    Option (SliceMappingTable × List UInt8) :=
  (us.foldlM (fun t u => setEntry self t u true) t).map fun t =>
    ({ t with broadcastBuffer := [] }, sendStartPhase (BitVec.ofInt 32 self) t.broadcastBuffer)

/-- `PollMappingTable` on what has arrived, with what is left of it. -/
def receivePhase (self : ℤ) (t : SliceMappingTable) (input : List UInt8) :
    Option (SliceMappingTable × List UInt8) :=
  match pollMappingTable 0 input with
  | .got (.startPhase _ ops) _ rest => (ops.foldlM (replayUpdate self) t).map (·, rest)
  | _ => none

/-- The phases of a sender: its table after them, and all that it has sent. -/
def sendPhases (self : ℤ) : SliceMappingTable → List (List Update) →
    Option (SliceMappingTable × List UInt8)
  | t, [] => some (t, [])
  | t, us :: phases =>
    (t.sendPhase self us).bind fun r => (sendPhases self r.1 phases).map fun r' =>
      (r'.1, r.2 ++ r'.2)

/-- So many phases of a receiver. -/
def receivePhases (self : ℤ) : ℕ → SliceMappingTable → List UInt8 →
    Option (SliceMappingTable × List UInt8)
  | 0, t, input => some (t, input)
  | n + 1, t, input =>
    (t.receivePhase self input).bind fun r => receivePhases self n r.1 r.2

/-! ## Packing and unpacking -/

/-- Bits in front of a word. -/
theorem toNat_shiftLeft_or {x : BitVec 32} {m y k : ℕ} (hx : x.toNat = m) (hy : y < 2 ^ k)
    (hm : m * 2 ^ k + y < 2 ^ 32) : (x <<< k ||| BitVec.ofNat 32 y).toNat = m * 2 ^ k + y := by
  have hshift : m <<< k = m * 2 ^ k := Nat.shiftLeft_eq m k
  have hy' : y % 2 ^ 32 = y := Nat.mod_eq_of_lt (by omega)
  rw [BitVec.toNat_or, BitVec.toNat_shiftLeft, BitVec.toNat_ofNat, hx, hy', hshift,
    Nat.mod_eq_of_lt (by omega), ← hshift, ← Nat.shiftLeft_add_eq_or_of_lt hy]

section

variable {n sliceId : ℕ} (owned : Bool) (type : SliceOwnerType)

theorem toNat_encodeOp (hn : n < 2 ^ 6) (hs : sliceId < 2 ^ 23) :
    (encodeOp n sliceId owned type).toNat =
      ((n * 2 ^ 2 + type.toNat) * 2 ^ 1 + owned.toNat) * 2 ^ 23 + sliceId := by
  have htype := type.toNat_lt
  have howned := owned.toNat_lt
  have hnode : (0#32 ||| BitVec.ofNat 32 n).toNat = n := by
    simp
    omega
  unfold encodeOp
  simp only [BitVec.ofInt_natCast]
  exact toNat_shiftLeft_or (toNat_shiftLeft_or (toNat_shiftLeft_or hnode htype (by omega)) howned
    (by omega)) hs (by omega)

/-- A word of a node below 32 is not negative, and is unpacked to what was packed. -/
theorem decodeOp_encodeOp (hn : n < 32) (hs : sliceId < 2 ^ 23) :
    decodeOp (encodeOp n sliceId owned type) = some ⟨sliceId, owned, type, n⟩ := by
  have hop := toNat_encodeOp owned type (n := n) (by omega) hs
  have htype := type.toNat_lt
  have howned := owned.toNat_lt
  generalize encodeOp n sliceId owned type = op at hop
  have hmsb : op.msb = false := by
    rw [BitVec.msb_eq_false_iff_two_mul_lt]
    omega
  have hshift : ∀ k, (op.sshiftRight k).toNat = op.toNat / 2 ^ k := by
    intro k
    rw [BitVec.sshiftRight_eq_of_msb_false hmsb, BitVec.toNat_ushiftRight,
      Nat.shiftRight_eq_div_pow]
  have htypeBits : ((op.sshiftRight 24) &&& 3#32).toNat = type.toNat := by
    rw [BitVec.toNat_and, hshift]
    change _ &&& (2 ^ 2 - 1) = _
    rw [Nat.and_two_pow_sub_one_eq_mod]
    omega
  have hownedBit : ((op.sshiftRight 23) &&& 1#32).toNat = owned.toNat := by
    rw [BitVec.toNat_and, hshift]
    change _ &&& (2 ^ 1 - 1) = _
    rw [Nat.and_two_pow_sub_one_eq_mod]
    omega
  have hslice : (op &&& (1#32 <<< 23) - 1#32).toNat = sliceId := by
    rw [BitVec.toNat_and]
    change _ &&& (2 ^ 23 - 1) = _
    rw [Nat.and_two_pow_sub_one_eq_mod]
    omega
  have hnode : (op.sshiftRight 26).toNat = n := by
    rw [hshift]
    omega
  have howned' : decide ((op.sshiftRight 23) &&& 1#32 ≠ 0#32) = owned := by
    have hzero : (op.sshiftRight 23) &&& 1#32 = 0#32 ↔ owned = false := by
      rw [← BitVec.toNat_inj, hownedBit]
      cases owned <;> simp
    simp [hzero]
  rw [decodeOp, htypeBits, SliceOwnerType.cast_toNat, map_some, howned',
    BitVec.toInt_eq_toNat_of_lt (by rw [hslice]; omega), hslice,
    BitVec.toInt_eq_toNat_of_lt (by rw [hnode]; omega), hnode]

end

/-! ## Replaying what was sent -/

/-- The tables of two nodes say the same. -/
structure Same (r t : SliceMappingTable) : Prop where
  owned : r.owned = t.owned
  nodeCompress : r.nodeCompress = t.nodeCompress

variable {self : ℤ}

theorem setEntry_broadcast {t t' : SliceMappingTable} {u : Update}
    (hset : t.setEntry self u true = some t') :
    ∃ n i k : ℕ, u.node self = n ∧ u.sliceId = k ∧ n < kMaxNrNode ∧ k < kNrMaxSlices ∧
      t.nodeCompress n = some i ∧ t' = { t.assign i u.type k u.owned with
        broadcastBuffer := t.broadcastBuffer ++ [encodeOp n k u.owned u.type] } := by
  unfold setEntry at hset
  dsimp only at hset
  split at hset
  · cases hset
  next hrange =>
    obtain ⟨n, hn⟩ : ∃ n : ℕ, u.node self = n := ⟨_, (Int.toNat_of_nonneg (by omega)).symm⟩
    split at hset
    · cases hset
    next i hi =>
      split at hset
      · cases hset
      next hslice =>
        obtain ⟨k, hk⟩ : ∃ k : ℕ, u.sliceId = k := ⟨_, (Int.toNat_of_nonneg (by omega)).symm⟩
        rw [hn] at hset hrange hi
        rw [hk] at hset hslice
        rw [if_pos rfl] at hset
        split_ifs at hset
        cases hset
        exact ⟨n, i, k, hn, hk, by omega, by omega, hi, rfl⟩

/-- Replaying an update of a node that is given explicitly. -/
theorem setEntry_natCast (self : ℤ) {r : SliceMappingTable} {n i k : ℕ} (owned : Bool)
    (type : SliceOwnerType) (hn : n < kMaxNrNode) (hk : k < kNrMaxSlices)
    (hi : r.nodeCompress n = some i) :
    r.setEntry self ⟨k, owned, type, n⟩ false = some (r.assign i type k owned) := by
  have hne : (n : ℤ) ≠ -1 := by omega
  have hnode : Update.node self ⟨k, owned, type, n⟩ = n := if_neg hne
  unfold setEntry
  dsimp only
  rw [hnode, if_neg (by omega), Int.toNat_natCast, hi]
  dsimp only
  rw [if_neg (by omega), Int.toNat_natCast]
  rfl

theorem Same.assign {r t : SliceMappingTable} (h : Same r t) (i : ℕ) (type : SliceOwnerType)
    (k : ℕ) (owned : Bool) : Same (r.assign i type k owned) (t.assign i type k owned) :=
  ⟨by simp only [SliceMappingTable.assign, h.owned], h.nodeCompress⟩

variable {t t' r : SliceMappingTable}

/-- The word of an update has the effect of the update on the table of the receiver. -/
theorem setEntry_replay (self' : ℤ) {u : Update} (hset : t.setEntry self u true = some t')
    (hnode : u.node self < 32) (hsame : Same r t) :
    ∃ op r', t'.broadcastBuffer = t.broadcastBuffer ++ [op] ∧ r.replayUpdate self' op = some r' ∧
      Same r' t' := by
  obtain ⟨n, i, k, hn, hk, hmax, hslices, hi, rfl⟩ := setEntry_broadcast hset
  have hk' : k < 2 ^ 23 := hslices.trans (by decide)
  have hsame' := hsame.assign i u.type k u.owned
  refine ⟨encodeOp n k u.owned u.type, r.assign i u.type k u.owned, rfl, ?_, hsame'.owned,
    hsame'.nodeCompress⟩
  rw [replayUpdate, decodeOp_encodeOp u.owned u.type (by omega) hk', bind_some]
  exact setEntry_natCast self' u.owned u.type hmax hslices (hsame.nodeCompress ▸ hi)

theorem foldlM_replay (self' : ℤ) {us : List Update}
    (hset : us.foldlM (fun t u => setEntry self t u true) t = some t')
    (hnode : ∀ u ∈ us, u.node self < 32) (hsame : Same r t) :
    ∃ ops r', t'.broadcastBuffer = t.broadcastBuffer ++ ops ∧ ops.length = us.length ∧
      ops.foldlM (replayUpdate self') r = some r' ∧ Same r' t' := by
  induction us generalizing t r with
  | nil =>
    cases hset
    exact ⟨[], r, by simp, rfl, rfl, hsame⟩
  | cons u us ih =>
    rw [List.foldlM_cons] at hset
    obtain ⟨t₁, ht₁, hset⟩ := bind_eq_some_iff.1 hset
    obtain ⟨op, r₁, hbuf, hr₁, hsame₁⟩ := setEntry_replay self' ht₁ (hnode u (by simp)) hsame
    obtain ⟨ops, r', hbuf', hlen, hr', hsame'⟩ :=
      ih hset (fun v hv => hnode v (by simp [hv])) hsame₁
    refine ⟨op :: ops, r', by simp [hbuf', hbuf], by simp [hlen], ?_, hsame'⟩
    rw [List.foldlM_cons, hr₁]
    exact hr'

/-- One phase: the receiver takes the frame off the stream and applies the updates. -/
theorem receivePhase_of_sendPhase (self' : ℤ) {us : List Update} {bytes : List UInt8}
    (hbuf : t.broadcastBuffer = []) (hsend : t.sendPhase self us = some (t', bytes))
    (hnode : ∀ u ∈ us, u.node self < 32) (hlen : us.length ≤ 253) (hsame : Same r t)
    (rest : List UInt8) :
    t'.broadcastBuffer = [] ∧ ∃ r', r.receivePhase self' (bytes ++ rest) = some (r', rest) ∧
      Same r' t' := by
  obtain ⟨t₁, hset, heq⟩ := map_eq_some_iff.1 hsend
  cases heq
  obtain ⟨ops, r', hops, hlen', hr', hsame'⟩ := foldlM_replay self' hset hnode hsame
  rw [hbuf, List.nil_append] at hops
  refine ⟨rfl, r', ?_, hsame'.owned, hsame'.nodeCompress⟩
  have hvalid : (Frame.startPhase (BitVec.ofInt 32 self) ops).Valid 0 := by
    change ops.length ≤ 253
    omega
  obtain ⟨e, k, hgot, hstrip⟩ := (parses_startPhase hvalid).got 0 rest
  have he : e = .startPhase (BitVec.ofInt 32 self) ops := by
    cases e <;> simp_all [Received.strip, Frame.content]
  rw [Frame.bytes, ← hops] at hgot
  rw [receivePhase, hgot, he]
  simp [hr']

/-- **Slice ownership replicates.** The updates of a node, made in any number of phases with at most
253 updates each and about nodes below 32, are replayed without an abort by a receiver that started
with the same table, and leave it with the same table. -/
theorem ownership_replicates (self self' : ℤ) (phases : List (List Update))
    (t r t' : SliceMappingTable) (bytes : List UInt8) (hbuf : t.broadcastBuffer = [])
    (howned : r.owned = t.owned) (hcompress : r.nodeCompress = t.nodeCompress)
    (hsend : sendPhases self t phases = some (t', bytes))
    (hnode : ∀ us ∈ phases, ∀ u ∈ us, u.node self < 32) (hlen : ∀ us ∈ phases, us.length ≤ 253) :
    ∃ r', receivePhases self' phases.length r bytes = some (r', []) ∧ r'.owned = t'.owned ∧
      r'.nodeCompress = t'.nodeCompress := by
  have hsame : Same r t := ⟨howned, hcompress⟩
  clear howned hcompress
  induction phases generalizing t r bytes with
  | nil =>
    cases hsend
    exact ⟨r, rfl, hsame.owned, hsame.nodeCompress⟩
  | cons us phases ih =>
    obtain ⟨⟨t₁, bytes₁⟩, hphase, hrest⟩ := bind_eq_some_iff.1 hsend
    obtain ⟨⟨t₂, bytes₂⟩, hphases, heq⟩ := map_eq_some_iff.1 hrest
    cases heq
    obtain ⟨hbuf₁, r₁, hreceive, hsame₁⟩ := receivePhase_of_sendPhase self' hbuf hphase
      (hnode us (by simp)) (hlen us (by simp)) hsame bytes₂
    obtain ⟨r', hr', howned, hcompress⟩ := ih t₁ r₁ bytes₂ hbuf₁ hphases
      (fun vs hvs => hnode vs (by simp [hvs])) (fun vs hvs => hlen vs (by simp [hvs])) hsame₁
    refine ⟨r', ?_, howned, hcompress⟩
    rw [List.length_cons, receivePhases, hreceive]
    exact hr'

/-- A table in which nobody owns anything and every node has its own index. -/
def emptyTable : SliceMappingTable := ⟨fun _ _ _ => false, some, []⟩

def twoPhases : List (List Update) :=
  [[⟨5, true, .dataOwner, 31⟩, ⟨5, true, .indexOwner, -1⟩], [⟨5, false, .dataOwner, 31⟩]]

theorem ownership_replicates_twoPhases :
    ∃ t' bytes r', sendPhases 1 emptyTable twoPhases = some (t', bytes) ∧
      receivePhases 2 2 emptyTable bytes = some (r', []) ∧ r'.owned = t'.owned := by
  obtain ⟨⟨t', bytes⟩, hsend⟩ := isSome_iff_exists.1
    (show (sendPhases 1 emptyTable twoPhases).isSome = true by decide +kernel)
  obtain ⟨r', hr', howned, -⟩ := ownership_replicates 1 2 twoPhases emptyTable
    emptyTable t' bytes rfl rfl rfl hsend (by decide) (by decide)
  exact ⟨t', bytes, r', hsend, hr', howned⟩

/-- The word of a node from 32 on is negative: it is unpacked to a node outside of the table. -/
theorem outside_node40 : ∃ t' bytes,
    sendPhases 1 emptyTable [[⟨5, true, .dataOwner, 40⟩]] = some (t', bytes) ∧
      receivePhases 2 1 emptyTable bytes = none := by
  obtain ⟨⟨t', bytes⟩, hsend, hnone⟩ := (any_eq_true
    (fun r : SliceMappingTable × List UInt8 => (receivePhases 2 1 emptyTable r.2).isNone)
    (sendPhases 1 emptyTable [[⟨5, true, .dataOwner, 40⟩]])).1 (by decide +kernel)
  exact ⟨t', bytes, hsend, by simpa using hnone⟩

end SliceMappingTable

end Felis.Slice
