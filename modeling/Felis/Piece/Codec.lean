import Felis.Foundations.Bytes
import Felis.Foundations.MachineInts

/-!
# The wire format of a piece

A piece is sent to another node as the bytes of its `PieceRoutine`, its capture filled up to a
multiple of 16 bytes, the number of its children and the children themselves. The struct is copied
as it is, with the pointers of the sender, and the receiver puts its own in their place: `relocate`
says which ones. `EncodeNode` does not clear the memory between the capture and the number of
children, so what it writes depends on what was there before; the receiver takes the same bytes for
the capture and does not look at the rest.

`Tree.roundTrips` is the specification of both directions: the encoding of a piece takes
`NodeSize` bytes, and decoding it in front of anything gives the relocated piece.
-/

namespace Felis.Piece

open Bytes List Option MachineInts

theorem eight_dvd_align (x : ℕ) : 8 ∣ align x :=
  Nat.dvd_trans (by decide : 8 ∣ 16) (dvd_align x (by decide))

/-! ## `BasePieceCollection` -/

def kInlineLimit : ℕ := 6

/-- The routines of a piece: the first ones are in the object itself, the others in an array that is
allocated for the limit. -/
structure Collection (α : Type) where
  limit : ℤ
  nrHandlers : ℕ
  inlineHandlers : List (Option α)
  extraHandlers : List (Option α)

namespace Collection

variable {α : Type} {c : Collection α}

def new (limit : ℤ) : Collection α where
  limit := limit
  nrHandlers := 0
  inlineHandlers := List.replicate kInlineLimit none
  extraHandlers := List.replicate (limit - kInlineLimit).toNat none

def routine (c : Collection α) (idx : ℕ) : Option α :=
  if idx < kInlineLimit then c.inlineHandlers[idx]?.join
  else c.extraHandlers[idx - kInlineLimit]?.join

def setRoutine (c : Collection α) (idx : ℕ) (a : α) : Collection α :=
  if idx < kInlineLimit then { c with inlineHandlers := c.inlineHandlers.set idx (some a) }
  else { c with extraHandlers := c.extraHandlers.set (idx - kInlineLimit) (some a) }

/-- `Add`. The code aborts when the collection is full. -/
def add (c : Collection α) (child : α) : Option (Collection α) :=
  if c.limit ≤ c.nrHandlers then none
  else some { c.setRoutine c.nrHandlers child with nrHandlers := c.nrHandlers + 1 }

def routines (c : Collection α) : List α := (List.range c.nrHandlers).filterMap c.routine

/-- The collection was made for `n` routines and has those of the list. -/
structure Holds (c : Collection α) (n : ℕ) (l : List α) : Prop where
  limit : c.limit = n
  nrHandlers : c.nrHandlers = l.length
  inline_length : c.inlineHandlers.length = kInlineLimit
  extra_length : c.extraHandlers.length = n - kInlineLimit
  routine : ∀ i < l.length, c.routine i = l[i]?

theorem holds_new (n : ℕ) : (new n : Collection α).Holds n [] :=
  ⟨rfl, rfl, by simp [new], by simp [new], fun i hi => absurd hi (Nat.not_lt_zero i)⟩

theorem routine_setRoutine_self {n : ℕ} {l : List α} (h : c.Holds n l) (hlt : l.length < n)
    (a : α) : (c.setRoutine l.length a).routine l.length = some a := by
  have hinline := h.inline_length
  have hextra := h.extra_length
  by_cases hidx : l.length < kInlineLimit
  · simp [setRoutine, routine, hidx, hinline]
  · have : l.length - kInlineLimit < c.extraHandlers.length := by omega
    simp [setRoutine, routine, hidx, this]

theorem routine_setRoutine_of_ne {i j : ℕ} (hij : i ≠ j) (a : α) :
    (c.setRoutine j a).routine i = c.routine i := by
  by_cases hj : j < kInlineLimit
  · simp [setRoutine, routine, hj, hij.symm]
  · by_cases hi : i < kInlineLimit
    · simp [setRoutine, routine, hj, hi]
    · have : j - kInlineLimit ≠ i - kInlineLimit := by omega
      simp [setRoutine, routine, hj, hi, this]

theorem Holds.add {n : ℕ} {l : List α} (h : c.Holds n l) (hlt : l.length < n) (a : α) :
    ∃ c', c.add a = some c' ∧ c'.Holds n (l ++ [a]) := by
  have hroom : ¬ c.limit ≤ c.nrHandlers := by
    rw [h.limit, h.nrHandlers]
    omega
  refine ⟨_, if_neg hroom, ?_⟩
  rw [h.nrHandlers]
  have hfields : ∀ c' : Collection α, c' = c.setRoutine l.length a → c'.limit = c.limit ∧
      c'.inlineHandlers.length = c.inlineHandlers.length ∧
      c'.extraHandlers.length = c.extraHandlers.length := by
    rintro c' rfl
    unfold setRoutine
    split_ifs <;> simp
  obtain ⟨hlimit, hinline, hextra⟩ := hfields _ rfl
  refine ⟨hlimit.trans h.limit, by simp, hinline.trans h.inline_length,
    hextra.trans h.extra_length, fun i hi => ?_⟩
  change (c.setRoutine l.length a).routine i = _
  rw [length_append, length_singleton] at hi
  by_cases hil : i = l.length
  · subst hil
    rw [routine_setRoutine_self h hlt, List.getElem?_concat_length]
  · have hi' : i < l.length := by omega
    rw [routine_setRoutine_of_ne hil, h.routine i hi', List.getElem?_append_left hi']

theorem Holds.routines {n : ℕ} {l : List α} (h : c.Holds n l) : c.routines = l := by
  have hmap : (List.range l.length).map c.routine = l.map some := by
    apply ext_getElem?
    intro i
    rcases Nat.lt_or_ge i l.length with hi | hi
    · simp [hi, h.routine i hi]
    · simp [hi]
  calc
    _ = ((List.range l.length).map c.routine).filterMap id := by
      rw [Collection.routines, h.nrHandlers, filterMap_map]
      rfl
    _ = l := by rw [hmap]; simp

end Collection

/-! ## The struct -/

/-- The fields of a `PieceRoutine`. Pointers are words; `gap` and `padding` are the bytes that
belong to no other field. -/
structure PieceRoutine where
  captureData : BitVec 64
  captureLen : BitVec 32
  level : BitVec 8
  nodeId : BitVec 8
  gap : BitVec 16
  schedKey : BitVec 64
  affinity : BitVec 64
  callback : BitVec 64
  next : BitVec 64
  fvSignals : BitVec 8
  futureSourceNodeId : BitVec 8
  padding : BitVec 112
  deriving DecidableEq, Repr

namespace PieceRoutine

def size : ℕ := 64

def bytes (r : PieceRoutine) : List UInt8 :=
  word (n := 8) r.captureData ++ (word (n := 4) r.captureLen ++ (word (n := 1) r.level ++
    (word (n := 1) r.nodeId ++ (word (n := 2) r.gap ++ (word (n := 8) r.schedKey ++
    (word (n := 8) r.affinity ++ (word (n := 8) r.callback ++ (word (n := 8) r.next ++
    (word (n := 1) r.fvSignals ++ (word (n := 1) r.futureSourceNodeId ++
    word (n := 14) r.padding))))))))))

def ofBytes (p : List UInt8) : PieceRoutine where
  captureData := field 8 0 p
  captureLen := field 4 8 p
  level := field 1 12 p
  nodeId := field 1 13 p
  gap := field 2 14 p
  schedKey := field 8 16 p
  affinity := field 8 24 p
  callback := field 8 32 p
  next := field 8 40 p
  fvSignals := field 1 48 p
  futureSourceNodeId := field 1 49 p
  padding := field 14 50 p

@[simp] theorem length_bytes (r : PieceRoutine) : r.bytes.length = size := by
  simp [bytes, size]

theorem ofBytes_bytes (r : PieceRoutine) : ofBytes r.bytes = r := by
  simp [ofBytes, bytes, field_append, field_word, field_word_self]

@[simp] theorem align_size : align size = size := by
  decide

theorem captureLen_le_align (r : PieceRoutine) : r.captureLen.toNat ≤ align r.captureLen.toNat :=
  (le_align (by decide) (by have := r.captureLen.isLt; omega)).1

end PieceRoutine

/-! ## Trees of pieces -/

/-- A piece with its capture and the routines of its `next`, which are none when it is null. -/
inductive Tree
  | node (routine : PieceRoutine) (capture : List UInt8) (children : List Tree)

namespace Tree

/-- The rule of induction on trees. -/
theorem induct {motive : Tree → Prop}
    (node : ∀ r capture children, (∀ t ∈ children, motive t) → motive (.node r capture children)) :
    ∀ t, motive t
  | .node r capture children => node r capture children fun t _ => induct node t

mutual

/-- The capture has the length that the struct says, and the children are counted by an `int`. -/
def Valid : Tree → Prop
  | .node r capture children =>
    capture.length = r.captureLen.toNat ∧ children.length < 2 ^ 31 ∧ ValidAll children

def ValidAll : List Tree → Prop
  | [] => True
  | t :: ts => t.Valid ∧ ValidAll ts

end

mutual

def nodeSize : Tree → ℕ
  | .node r _ children =>
    align PieceRoutine.size + align r.captureLen.toNat + 8 + nodeSizes children

/-- The loop over the children. -/
def nodeSizes : List Tree → ℕ
  | [] => 0
  | t :: ts => t.nodeSize + nodeSizes ts

end

mutual

/-- `EncodeNode(p)` on the memory from `p` on: what is in front of the returned pointer afterwards,
and the memory from there on. None if it would write past the end. -/
def encodeNode : Tree → List UInt8 → Option (List UInt8 × List UInt8)
  | .node r capture children, p => do
    let (_, p) ← read (align PieceRoutine.size) p
    let (old, p) ← read (align r.captureLen.toNat) p
    let (_, p) ← read 8 p
    let (rest, p) ← encodeChildren children p
    some (r.bytes ++ (capture ++ old.drop capture.length) ++ le 8 children.length ++ rest, p)

def encodeChildren : List Tree → List UInt8 → Option (List UInt8 × List UInt8)
  | [], p => some ([], p)
  | t :: ts, p => do
    let (first, p) ← t.encodeNode p
    let (rest, p) ← encodeChildren ts p
    some (first ++ rest, p)

end

end Tree

/-- How often `BasePieceCollection(limit)` allocates, with the object itself. -/
def collectionAllocs (n : ℕ) : ℕ := if kInlineLimit < n then 2 else 1

variable {ts : List Tree}

section

-- the addresses that the calls of `Alloc` return, one after the other
variable (alloc : ℕ → BitVec 64)

/-- The loop over the children in `DecodeNode`. Every child is allocated before it is decoded. -/
def decodeChildren (decode : ℕ → List UInt8 → Option (Tree × ℕ × List UInt8)) :
    ℕ → Collection Tree → ℕ → List UInt8 → Option (Collection Tree × ℕ × List UInt8)
  | 0, next, k, p => some (next, k, p)
  | n + 1, next, k, p => do
    let (child, k, p) ← decode (k + 1) p
    let next ← next.add child
    decodeChildren decode n next k p

/-- `DecodeNode` on the memory from `p` on, after `k` allocations: the piece, the number of
allocations, and the memory behind it. None if it reads past the end, aborts, or goes deeper than
the fuel. The length that the code passes is not used there either. -/
def decodeNode : ℕ → ℕ → List UInt8 → Option (Tree × ℕ × List UInt8)
  | 0, _, _ => none
  | fuel + 1, k, p => do
    let (struct, p) ← read (align PieceRoutine.size) p
    let r := PieceRoutine.ofBytes struct
    let (data, p) ← read (align r.captureLen.toNat) p
    let capture := data.take r.captureLen.toNat
    let (count, p) ← read 8 p
    let nrChildren := ofLe count
    if 0 < nrChildren then
      -- the constructor takes an int
      let (next, k', p) ← decodeChildren (decodeNode fuel) nrChildren
        (.new (Int.bmod nrChildren (2 ^ 32))) (k + 1 + collectionAllocs nrChildren) p
      some (.node { r with captureData := alloc k, next := alloc (k + 1) } capture next.routines,
        k', p)
    else some (.node { r with captureData := alloc k, next := 0 } capture [], k + 1, p)

/-- `CreateFromPacket(p, packet_len)`, after `k` allocations. Every call of `DecodeNode` reads more
than one byte, so the memory has fuel enough. -/
def createFromPacket (k : ℕ) (p : List UInt8) (packetLen : ℕ) : Option (Tree × ℕ) := do
  let (r, k', q) ← decodeNode alloc p.length (k + 1) p
  if p.length - q.length = packetLen then some (r, k') else none

/-! ## What the receiver gets -/

namespace Tree

mutual

/-- The piece with the pointers of the receiver, and the number of allocations after it. -/
def relocate : Tree → ℕ → Tree × ℕ
  | .node r capture children, k =>
    if children = [] then (.node { r with captureData := alloc k, next := 0 } capture [], k + 1)
    else
      let c := relocateChildren children (k + 1 + collectionAllocs children.length)
      (.node { r with captureData := alloc k, next := alloc (k + 1) } capture c.1, c.2)

def relocateChildren : List Tree → ℕ → List Tree × ℕ
  | [], k => ([], k)
  | t :: ts, k =>
    let c := t.relocate (k + 1)
    let cs := relocateChildren ts c.2
    (c.1 :: cs.1, cs.2)

end

/-- The encoding of the piece has its size, and decoding it gives the relocated piece. -/
def RoundTrips (t : Tree) : Prop :=
  ∀ p : List UInt8, t.nodeSize ≤ p.length → ∃ bytes,
  t.encodeNode p = some (bytes, p.drop t.nodeSize) ∧
    bytes.length = t.nodeSize ∧ ∀ fuel k q, t.nodeSize ≤ fuel →
      decodeNode alloc fuel k (bytes ++ q) =
      some ((t.relocate alloc k).1, (t.relocate alloc k).2, q)

variable {alloc}

theorem roundTrips_children (ih : ∀ t ∈ ts, t.RoundTrips alloc) :
    ∀ p : List UInt8, nodeSizes ts ≤ p.length →
      ∃ bytes, encodeChildren ts p = some (bytes, p.drop (nodeSizes ts)) ∧
        bytes.length = nodeSizes ts ∧
        ∀ fuel k q, nodeSizes ts ≤ fuel → ∀ (next : Collection Tree) (n : ℕ) (l : List Tree),
          next.Holds n l → l.length + ts.length ≤ n → ∃ next',
            decodeChildren (decodeNode alloc fuel) ts.length next k (bytes ++ q) =
              some (next', (relocateChildren alloc ts k).2, q) ∧
            next'.Holds n (l ++ (relocateChildren alloc ts k).1) := by
  induction ts with
  | nil =>
    intro p _
    refine ⟨[], rfl, rfl, fun fuel k q _ next n l hnext _ => ⟨next, rfl, ?_⟩⟩
    rwa [relocateChildren, append_nil]
  | cons t ts ihs =>
    intro p hp
    rw [nodeSizes] at hp
    obtain ⟨first, hfirst, hlen, hdec⟩ := ih t mem_cons_self p (by omega)
    obtain ⟨rest, hrest, hlens, hdecs⟩ := ihs (fun u hu => ih u (mem_cons_of_mem t hu))
      (p.drop t.nodeSize) (by rw [length_drop]; omega)
    refine ⟨first ++ rest, ?_, by rw [length_append, nodeSizes, hlen, hlens],
      fun fuel k q hfuel next n l hnext hn => ?_⟩
    · rw [encodeChildren, hfirst]
      simp [hrest, drop_drop, nodeSizes]
    · rw [nodeSizes] at hfuel
      rw [length_cons] at hn
      obtain ⟨next₁, hadd, hnext₁⟩ := hnext.add (by omega) (t.relocate alloc (k + 1)).1
      obtain ⟨next₂, hloop, hnext₂⟩ := hdecs fuel (t.relocate alloc (k + 1)).2 q
        (by omega) next₁ n _
        hnext₁ (by rw [length_append, length_singleton]; omega)
      refine ⟨next₂, ?_, ?_⟩
      · rw [length_cons, decodeChildren, append_assoc, hdec fuel (k + 1) _ (by omega)]
        simp [hadd, hloop, relocateChildren]
      · rw [relocateChildren]
        rwa [append_assoc] at hnext₂

theorem eight_dvd_nodeSizes (h : ∀ t ∈ ts, 8 ∣ t.nodeSize) : 8 ∣ nodeSizes ts := by
  induction ts with
  | nil => exact dvd_zero 8
  | cons t ts ih =>
    exact Nat.dvd_add (h t mem_cons_self) (ih fun u hu => h u (mem_cons_of_mem t hu))

theorem eight_dvd_nodeSize (t : Tree) : 8 ∣ t.nodeSize := by
  induction t using Tree.induct with
  | node r capture children ih =>
    rw [nodeSize]
    exact Nat.dvd_add (Nat.dvd_add (Nat.dvd_add (eight_dvd_align _) (eight_dvd_align _)) dvd_rfl)
      (eight_dvd_nodeSizes ih)

theorem validAll_iff : ValidAll ts ↔ ∀ t ∈ ts, t.Valid := by
  induction ts with
  | nil => simp [ValidAll]
  | cons t ts ih => simp [ValidAll, ih]

/-- What `DecodeNode` reads of a node before its children. -/
theorem decodeNode_append {r : PieceRoutine} {capture pad rest : List UInt8} {n fuel k : ℕ}
    (hcapture : capture.length = r.captureLen.toNat)
    (hpad : (capture ++ pad).length = align r.captureLen.toNat) (hn : n < 2 ^ 31) :
    decodeNode alloc (fuel + 1) k (r.bytes ++ ((capture ++ pad) ++ (le 8 n ++ rest))) =
      if 0 < n then
        (decodeChildren (decodeNode alloc fuel) n (.new n) (k + 1 + collectionAllocs n) rest).map
          fun c => (.node { r with captureData := alloc k, next := alloc (k + 1) } capture
            c.1.routines, c.2.1, c.2.2)
      else some (.node { r with captureData := alloc k, next := 0 } capture [], k + 1, rest) := by
  have hbytes : r.bytes.length = align PieceRoutine.size := by simp
  have hcount : ofLe (le 8 n) = n := ofLe_le (hn.trans (by norm_num))
  have hint : Int.bmod n (2 ^ 32) = n := by
    rw [Int.bmod_eq_of_le (by omega) (by omega)]
  simp -implicitDefEqProofs only [decodeNode, read_append _ hbytes, bind_eq_bind, bind_some,
    PieceRoutine.ofBytes_bytes, read_append _ hpad, read_append _ (length_le 8 n), hcount, hint,
    take_left' hcapture]
  rw [map_eq_bind]
  rfl

/-- **The codec.** The encoding of a piece takes `NodeSize` bytes, and decoding it in front of
anything gives the piece with the pointers of the receiver. -/
theorem roundTrips (t : Tree) : t.Valid → t.RoundTrips alloc := by
  induction t using Tree.induct with
  | node r capture children ih =>
    rintro ⟨hcapture, hcount, hchildren⟩ p hp
    rw [nodeSize] at hp
    have hle := r.captureLen_le_align
    obtain ⟨_, -, hread⟩ := exists_read (n := align PieceRoutine.size) (p := p) (by omega)
    obtain ⟨old, hold, hread'⟩ := exists_read (n := align r.captureLen.toNat)
      (p := p.drop (align PieceRoutine.size)) (by rw [length_drop]; omega)
    obtain ⟨_, -, hread''⟩ := exists_read (n := 8)
      (p := (p.drop (align PieceRoutine.size)).drop (align r.captureLen.toNat))
      (by rw [length_drop, length_drop]; omega)
    obtain ⟨rest, henc, hlen, hdec⟩ :=
      roundTrips_children (fun t ht => ih t ht (validAll_iff.1 hchildren t ht))
        (((p.drop (align PieceRoutine.size)).drop (align r.captureLen.toNat)).drop 8)
        (by simp only [length_drop]; omega)
    have hpad : (capture ++ old.drop capture.length).length = align r.captureLen.toNat := by
      rw [length_append, length_drop]
      omega
    refine ⟨r.bytes ++ (capture ++ old.drop capture.length) ++ le 8 children.length ++ rest,
      ?_, ?_, fun fuel k q hfuel => ?_⟩
    · simp -implicitDefEqProofs only [encodeNode, hread, hread', hread'', henc,
        bind_eq_bind, bind_some]
      simp [nodeSize]
    · simp only [length_append] at hpad
      simp only [length_append, PieceRoutine.length_bytes, length_le, nodeSize,
        PieceRoutine.align_size]
      omega
    · obtain ⟨fuel, rfl⟩ : ∃ f, fuel = f + 1 := ⟨fuel - 1, by rw [nodeSize] at hfuel; omega⟩
      rw [nodeSize] at hfuel
      rw [append_assoc, append_assoc, append_assoc,
        decodeNode_append hcapture hpad hcount, relocate]
      obtain ⟨next, hloop, hnext⟩ := hdec fuel (k + 1 + collectionAllocs children.length) q
        (by omega) (.new children.length) children.length [] (Collection.holds_new _)
        (by simp)
      by_cases hempty : children = []
      · have hzero : rest = [] := eq_nil_of_length_eq_zero (by simp [hlen, hempty, nodeSizes])
        simp [hempty, hzero]
      · have hpos : 0 < children.length := length_pos_iff.2 hempty
        rw [if_pos hpos, if_neg hempty, hloop, map_some, hnext.routines, nil_append]

mutual

/-- The piece without its pointers: its shape, the other fields and the captures. -/
def strip : Tree → Tree
  | .node r capture children =>
    .node { r with captureData := 0, next := 0 } capture (stripAll children)

def stripAll : List Tree → List Tree
  | [] => []
  | t :: ts => t.strip :: stripAll ts

end

theorem stripAll_relocateChildren (ih : ∀ t ∈ ts, ∀ k, (t.relocate alloc k).1.strip = t.strip)
    (k : ℕ) : stripAll (relocateChildren alloc ts k).1 = stripAll ts := by
  induction ts generalizing k with
  | nil => rfl
  | cons t ts ihs =>
    rw [relocateChildren, stripAll, stripAll, ih t mem_cons_self,
      ihs fun u hu => ih u (mem_cons_of_mem t hu)]

theorem strip_relocate (t : Tree) : ∀ k, (t.relocate alloc k).1.strip = t.strip := by
  induction t using Tree.induct with
  | node r capture children ih =>
    intro k
    rw [relocate]
    split_ifs with hempty
    · subst hempty
      rfl
    · simp only [strip, stripAll_relocateChildren ih]

/-- `CreateFromPacket` on the encoding of a piece does not abort. -/
theorem createFromPacket_eq {t : Tree} {bytes : List UInt8} (hlen : bytes.length = t.nodeSize)
    (hdec : ∀ fuel k q, t.nodeSize ≤ fuel →
      decodeNode alloc fuel k (bytes ++ q) =
      some ((t.relocate alloc k).1, (t.relocate alloc k).2, q))
    (k : ℕ) (q : List UInt8) :
    createFromPacket alloc k (bytes ++ q) t.nodeSize = some (t.relocate alloc (k + 1)) := by
  have hfuel : t.nodeSize ≤ (bytes ++ q).length := by
    rw [length_append]
    omega
  have hread : (bytes ++ q).length - q.length = t.nodeSize := by
    rw [length_append, Nat.add_sub_cancel, hlen]
  simp only [createFromPacket, hdec _ (k + 1) q hfuel, bind_eq_bind, bind_some, if_pos hread]

end Tree

end

/-- **The codec of pieces.** `EncodeNode` writes to `NodeSize` bytes and returns the pointer behind
them. `DecodeNode` on these bytes and whatever comes after them goes exactly that far, and so
`CreateFromPacket` does not abort; both give the piece that was sent, up to its pointers. -/
theorem codec_roundtrip (alloc : ℕ → BitVec 64) (t : Tree) (ht : t.Valid) (mem : List UInt8)
    (hmem : t.nodeSize ≤ mem.length) :
    ∃ bytes, t.encodeNode mem = some (bytes, mem.drop t.nodeSize) ∧ bytes.length = t.nodeSize ∧
      (∀ fuel k trailing, t.nodeSize ≤ fuel → ∃ t' k',
        decodeNode alloc fuel k (bytes ++ trailing) = some (t', k', trailing) ∧
          t'.strip = t.strip) ∧
      ∀ k trailing, ∃ t' k',
        createFromPacket alloc k (bytes ++ trailing) t.nodeSize = some (t', k') ∧
          t'.strip = t.strip := by
  have hround : t.RoundTrips alloc := t.roundTrips ht
  obtain ⟨bytes, henc, hlen, hdec⟩ := hround mem hmem
  refine ⟨bytes, henc, hlen, fun fuel k trailing hfuel => ?_, fun k trailing => ?_⟩
  · exact ⟨_, _, hdec fuel k trailing hfuel, t.strip_relocate k⟩
  · exact ⟨_, _, Tree.createFromPacket_eq hlen hdec k trailing, t.strip_relocate (k + 1)⟩

def oneChild : Tree :=
  .node ⟨1000, 3, 0, 2, 0, 7, 1, 500, 2000, 0, 0, 0⟩ [1, 2, 3]
    [.node ⟨0, 0, 1, 2, 0, 9, 3, 600, 0, 0, 0, 0⟩ [] []]

theorem codec_roundtrip_oneChild : ∃ bytes,
    oneChild.encodeNode (List.replicate 200 255) = some (bytes, List.replicate 40 255) ∧
      ∃ t' k', createFromPacket (fun k => k) 0 (bytes ++ [1, 2]) 160 = some (t', k') ∧
        t'.strip = oneChild.strip := by
  have hvalid : oneChild.Valid := ⟨rfl, by decide, ⟨rfl, by decide, trivial⟩, trivial⟩
  have hsize : oneChild.nodeSize = 160 := by decide +kernel
  obtain ⟨bytes, henc, -, -, hcreate⟩ :=
    codec_roundtrip (fun k => k) oneChild hvalid (List.replicate 200 255)
      (by rw [hsize, length_replicate]; norm_num)
  rw [hsize] at henc hcreate
  exact ⟨bytes, by simpa using henc, hcreate 0 [1, 2]⟩

end Felis.Piece
