import Felis.Foundations.Gather

/-!
# Sending a vector

`SendIOVec` calls `writev` until no entry is left, and after each call drops the entries that have
been written. Empty entries are dropped on the way to the next byte; there is no next byte behind
the last one, so the loop does not end when the last entry is empty (`send_spins`). Otherwise it
ends and has written all the bytes in order (`send_all`).

Each call looks at the memory when it runs. What comes out is a mixture of what the calls have seen
(`Mixed`), and it is the contents of the entries in one memory if and only if each call has written
what it would have found there (`Written.Intact`).
-/

namespace Felis.Shipping

open Gather List

variable {B : Type*}

inductive SendFault
  /-- An entry beyond `nr_vec` is accessed. -/
  | beyondVector
  /-- There are entries left after so many calls of `writev`. -/
  | notDone
  deriving DecidableEq

/-- The inner loop, `while (res > 0)`. -/
def dropWritten : List (Entry B) → ℕ → Except SendFault (List (Entry B))
  | vec, 0 => .ok vec
  | [], _ + 1 => .error .beyondVector
  | e :: vec, res + 1 =>
    if e.len ≤ res + 1 then dropWritten vec (res + 1 - e.len)
    else .ok ({ e with off := e.off + (res + 1), len := e.len - (res + 1) } :: vec)

/-- A call of `writev`: its number, the vector that it got, and how many bytes it wrote. -/
structure Written (B : Type*) where
  call : ℕ
  vec : List (Entry B)
  n : ℕ

/-- `BaseShipment::SendIOVec` from the `i`-th call of `writev` on, with a number of calls. The
`i`-th call sees the memory `mem i` and writes as many bytes as `res i` says, but at least one and
not more than are left. The result is what has been written, and the calls. -/
def sendIOVec (mem : ℕ → B → List UInt8) (res : ℕ → ℕ) :
    ℕ → ℕ → List (Entry B) → Except SendFault (List UInt8 × List (Written B))
  | _, _, [] => .ok ([], [])
  | 0, _, _ :: _ => .error .notDone
  | calls + 1, i, e :: vec =>
    let out := bytes (mem i) (e :: vec)
    let n := min (max 1 (res i)) out.length
    (dropWritten (e :: vec) n).bind fun vec' =>
      (sendIOVec mem res calls (i + 1) vec').map fun r =>
        (out.take n ++ r.1, ⟨i, e :: vec, n⟩ :: r.2)

/-- The last entry, if there is one, is not empty. -/
def EndsInByte (vec : List (Entry B)) : Prop := ∀ e ∈ vec.getLast?, 0 < e.len

variable {mem : B → List UInt8} {vec : List (Entry B)}

theorem dropWritten_eq (h : ∀ e ∈ vec, e.Inside mem) {n : ℕ} (hn : n ≤ (bytes mem vec).length) :
    dropWritten vec n = .ok (advance vec n) := by
  induction vec generalizing n with
  | nil =>
    obtain rfl : n = 0 := by simpa using hn
    rfl
  | cons e vec ih =>
    rw [bytes_cons, length_append, Entry.length_bytes (h e (by simp))] at hn
    cases n with
    | zero => rfl
    | succ n =>
      rw [dropWritten, advance, if_neg (Nat.succ_ne_zero n)]
      split_ifs with hle
      · exact ih (fun e' he' => h e' (by simp [he'])) (by omega)
      · rfl

/-- An empty entry at the end is not dropped. -/
theorem endsInByte_advance (h : ∀ e ∈ vec, e.Inside mem) {n : ℕ}
    (hn : n ≤ (bytes mem vec).length) : EndsInByte (advance vec n) ↔ EndsInByte vec := by
  induction vec generalizing n with
  | nil => rfl
  | cons e vec ih =>
    rw [bytes_cons, length_append, Entry.length_bytes (h e (by simp))] at hn
    have htail : vec ≠ [] → (EndsInByte (e :: vec) ↔ EndsInByte vec) := by
      intro hne
      obtain ⟨e', vec, rfl⟩ := exists_cons_of_ne_nil hne
      simp [EndsInByte]
    rw [advance]
    split_ifs with hzero hle
    · rfl
    · rw [ih (fun e' he' => h e' (by simp [he'])) (by omega)]
      rcases eq_or_ne vec [] with rfl | hne
      · have hpos : 0 < e.len := by
          simp at hn
          omega
        simp [EndsInByte, hpos]
      · rw [htail hne]
    · cases vec with
      | nil =>
        have hpos : n < e.len ∧ 0 < e.len := by omega
        simp [EndsInByte, hpos]
      | cons e' vec => simp [EndsInByte]

theorem EndsInByte.length_pos {e : Entry B} (h : EndsInByte (e :: vec))
    (hin : ∀ e' ∈ e :: vec, e'.Inside mem) : 0 < (bytes mem (e :: vec)).length := by
  obtain ⟨front, last, hlast⟩ := eq_nil_or_concat (e :: vec) |>.resolve_left (cons_ne_nil _ _)
  rw [concat_eq_append] at hlast
  rw [hlast] at h hin ⊢
  have hpos : 0 < last.len := h last (by simp)
  rw [bytes_append, length_append, bytes_cons, length_append,
    Entry.length_bytes (hin last (by simp))]
  omega

/-- The entry is inside of its object, which every call finds with the same length. -/
structure Alike (mem : B → List UInt8) (mems : ℕ → B → List UInt8) (e : Entry B) : Prop where
  inside : e.Inside mem
  length : ∀ i, (mems i e.base).length = (mem e.base).length

/-- Every entry is written as it is in `mem`, or there are calls that find something else there. -/
inductive Mixed (mem : B → List UInt8) (mems : ℕ → B → List UInt8) :
    List (Entry B) → List UInt8 → Prop
  | nil : Mixed mem mems [] []
  | cons {e : Entry B} {vec : List (Entry B)} {piece out : List UInt8} :
      piece.length = e.len → ((∀ i, mems i e.base = mem e.base) → piece = e.bytes mem) →
      Mixed mem mems vec out → Mixed mem mems (e :: vec) (piece ++ out)

/-- The call has written what is there in `mem`. -/
def Written.Intact (mem : B → List UInt8) (mems : ℕ → B → List UInt8) (c : Written B) : Prop :=
  (bytes (mems c.call) c.vec).take c.n = (bytes mem c.vec).take c.n

variable {mems : ℕ → B → List UInt8} {i calls : ℕ}

theorem Alike.inside_mems {e : Entry B} (h : Alike mem mems e) (i : ℕ) : e.Inside (mems i) := by
  rw [Entry.Inside, h.length i]
  exact h.inside

theorem length_bytes_mems (h : ∀ e ∈ vec, Alike mem mems e) (i : ℕ) :
    (bytes (mems i) vec).length = (bytes mem vec).length := by
  rw [length_bytes fun e he => (h e he).inside, length_bytes fun e he => (h e he).inside_mems i]

theorem alike_advance (h : ∀ e ∈ vec, Alike mem mems e) (n : ℕ) :
    ∀ e ∈ advance vec n, Alike mem mems e := by
  refine advance_of_forall h (fun e k he hk => ⟨?_, he.length⟩) n
  have hin := he.inside
  unfold Entry.Inside at hin ⊢
  dsimp only
  omega

theorem Mixed.length_eq {out : List UInt8} (h : Mixed mem mems vec out) :
    out.length = (vec.map Entry.len).sum := by
  induction h with
  | nil => rfl
  | cons hpiece _ _ ih => rw [length_append, hpiece, ih, map_cons, sum_cons]

theorem Mixed.append {vec' : List (Entry B)} {out out' : List UInt8}
    (h : Mixed mem mems vec out) (h' : Mixed mem mems vec' out') :
    Mixed mem mems (vec ++ vec') (out ++ out') := by
  induction h with
  | nil => exact h'
  | cons hpiece heq _ ih =>
    rw [append_assoc]
    exact .cons hpiece heq ih

/-- What a call has written, in front of a mixture for the rest. -/
theorem Mixed.take_append (h : ∀ e ∈ vec, Alike mem mems e) {n : ℕ} {out : List UInt8}
    (hmix : Mixed mem mems (advance vec n) out) (i : ℕ) :
    Mixed mem mems vec ((bytes (mems i) vec).take n ++ out) := by
  induction vec generalizing n with
  | nil =>
    cases hmix
    rw [bytes_nil, take_nil]
    exact .nil
  | cons e vec ih =>
    have hlen : (e.bytes (mems i)).length = e.len :=
      Entry.length_bytes ((h e mem_cons_self).inside_mems i)
    have hsame : (∀ i, mems i e.base = mem e.base) → e.bytes (mems i) = e.bytes mem := by
      intro hsame
      rw [Entry.bytes, Entry.bytes, hsame i]
    rw [advance] at hmix
    split_ifs at hmix with hzero hle
    · rw [hzero, take_zero, nil_append]
      exact hmix
    · rw [bytes_cons, List.take_append, take_of_length_le (hlen.trans_le hle), hlen, append_assoc]
      exact .cons hlen hsame (ih (fun e' he' => h e' (mem_cons_of_mem e he')) hmix)
    · -- the rest of the entry is left for the other calls
      cases hmix with
      | @cons _ _ piece out hpiece heq hmix =>
        dsimp only at hpiece heq
        rw [bytes_cons, take_append_of_le_length (by omega), ← append_assoc]
        refine .cons ?_ (fun hconst => ?_) hmix
        · rw [length_append, length_take, hlen, hpiece]
          omega
        · rw [hsame hconst, heq hconst, Entry.bytes_rest, take_append_drop]

/-- What a call does. -/
theorem sendIOVec_succ {e : Entry B} (h : ∀ e' ∈ e :: vec, Alike mem mems e') (res : ℕ → ℕ)
    (calls i : ℕ) :
    ∃ n, (0 < (bytes mem (e :: vec)).length → 0 < n) ∧ n ≤ (bytes mem (e :: vec)).length ∧
      sendIOVec mems res (calls + 1) i (e :: vec) =
        (sendIOVec mems res calls (i + 1) (advance (e :: vec) n)).map fun r =>
          ((bytes (mems i) (e :: vec)).take n ++ r.1, ⟨i, e :: vec, n⟩ :: r.2) := by
  have hlen := length_bytes_mems h i
  refine ⟨min (max 1 (res i)) (bytes mem (e :: vec)).length, by omega, by omega, ?_⟩
  rw [sendIOVec, hlen, dropWritten_eq (fun e' he' => (h e' he').inside) (by omega), Except.bind]

/-- The calls end, and what comes out is a mixture. -/
theorem sendIOVec_eq (h : ∀ e ∈ vec, Alike mem mems e) (hend : EndsInByte vec) (res : ℕ → ℕ)
    (hcalls : (bytes mem vec).length ≤ calls) :
    ∃ out log, sendIOVec mems res calls i vec = .ok (out, log) ∧ Mixed mem mems vec out ∧
      (out = bytes mem vec ↔ ∀ c ∈ log, c.Intact mem mems) := by
  induction calls generalizing i vec with
  | zero =>
    cases vec with
    | nil => exact ⟨[], [], rfl, .nil, by simp⟩
    | cons e vec => exact absurd (hend.length_pos fun e' he' => (h e' he').inside) (by omega)
  | succ calls ih =>
    cases vec with
    | nil => exact ⟨[], [], rfl, .nil, by simp⟩
    | cons e vec =>
      have hin : ∀ e' ∈ e :: vec, e'.Inside mem := fun e' he' => (h e' he').inside
      have hpos := hend.length_pos hin
      obtain ⟨n, hn, hle, heq⟩ := sendIOVec_succ h res calls i
      have hrest := bytes_advance hin n
      obtain ⟨out, log, hsend, hmix, hout⟩ := ih (i := i + 1) (alike_advance h n)
        ((endsInByte_advance hin hle).2 hend) (by rw [hrest, length_drop]; omega)
      refine ⟨_, _, by rw [heq, hsend]; rfl, hmix.take_append h i, ?_⟩
      rw [forall_mem_cons, ← hout, hrest]
      nth_rewrite 1 [← take_append_drop n (bytes mem (e :: vec))]
      refine ⟨fun hall => append_inj hall ?_, fun ⟨hcall, hafter⟩ => by rw [hcall, hafter]⟩
      rw [length_take, length_take, length_bytes_mems h i]

/-- With an empty entry at the end there is always one left. -/
theorem sendIOVec_notDone (h : ∀ e ∈ vec, Alike mem mems e) (hend : ¬ EndsInByte vec)
    (res : ℕ → ℕ) : sendIOVec mems res calls i vec = .error .notDone := by
  induction calls generalizing i vec with
  | zero =>
    cases vec with
    | nil => exact absurd (by simp [EndsInByte]) hend
    | cons e vec => rfl
  | succ calls ih =>
    cases vec with
    | nil => exact absurd (by simp [EndsInByte]) hend
    | cons e vec =>
      obtain ⟨n, -, hle, heq⟩ := sendIOVec_succ h res calls i
      rw [heq, ih (alike_advance h n) fun hend' =>
        hend ((endsInByte_advance (fun e' he' => (h e' he').inside) hle).1 hend')]
      rfl

/-- **Sending a vector.** Whatever the results of `writev` are, `SendIOVec` ends and has written the
contents of the entries one behind the other if and only if the last entry is not empty. Then as
many calls as there are bytes are enough. -/
theorem send_all (mem : B → List UInt8) (vec : List (Entry B)) (h : ∀ e ∈ vec, e.Inside mem)
    (res : ℕ → ℕ) (i : ℕ) :
    ((∃ calls log, sendIOVec (fun _ => mem) res calls i vec = .ok (bytes mem vec, log)) ↔
      EndsInByte vec) ∧
    (EndsInByte vec → ∀ calls, (bytes mem vec).length ≤ calls →
      ∃ log, sendIOVec (fun _ => mem) res calls i vec = .ok (bytes mem vec, log)) := by
  have halike : ∀ e ∈ vec, Alike mem (fun _ => mem) e := fun e he => ⟨h e he, fun _ => rfl⟩
  have hall : EndsInByte vec → ∀ calls, (bytes mem vec).length ≤ calls →
      ∃ log, sendIOVec (fun _ => mem) res calls i vec = .ok (bytes mem vec, log) := by
    intro hend calls hcalls
    obtain ⟨out, log, hsend, -, hout⟩ := sendIOVec_eq (i := i) halike hend res hcalls
    exact ⟨log, hout.2 (fun _ _ => rfl) ▸ hsend⟩
  refine ⟨⟨fun ⟨calls, log, hok⟩ => ?_, fun hend => ⟨_, hall hend _ le_rfl⟩⟩, hall⟩
  by_contra hend
  rw [sendIOVec_notDone halike hend] at hok
  cases hok

/-- Three bytes with an empty entry between them. -/
theorem send_all_emptyBetween : ∃ log,
    sendIOVec (fun _ (_ : Unit) => [1, 2, 3]) (fun _ => 1) 3 0
      [⟨(), 0, 1⟩, ⟨(), 0, 0⟩, ⟨(), 1, 2⟩] = .ok ([1, 2, 3], log) :=
  (send_all (fun _ => [1, 2, 3]) _ (by unfold Entry.Inside; decide) _ 0).2 (by simp [EndsInByte]) 3
    (by decide)

/-- Behind the only byte there is an empty entry. It is never dropped. -/
theorem send_spins : bytes (fun _ : Unit => [1]) [⟨(), 0, 1⟩, ⟨(), 0, 0⟩] = [1] ∧
    ∀ calls, sendIOVec (fun _ (_ : Unit) => [1]) (fun _ => 1) calls 0
      [⟨(), 0, 1⟩, ⟨(), 0, 0⟩] = .error .notDone := by
  have hin : ∀ e : Entry Unit, e ∈ [⟨(), 0, 1⟩, ⟨(), 0, 0⟩] → e.Inside fun _ => [1] := by
    unfold Entry.Inside
    decide
  exact ⟨rfl, fun calls => sendIOVec_notDone (fun e he => ⟨hin e he, fun _ => rfl⟩)
    (by simp [EndsInByte]) _⟩

end Felis.Shipping
