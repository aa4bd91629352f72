import Mathlib.Tactic

/-!
# Lists that share no element

A family of lists is `Parted` when no element is twice in one of them or in two of them: each
element has at most one part. Elements come in with `put`, leave with `take`, and `join` moves all
of one part in front of another one.
-/

namespace Felis.Parts

open Function List

variable {ι α : Type*} {G : ι → List α} {p q : ι} {x y : α}

/-- No element is twice in the lists. -/
structure Parted (G : ι → List α) : Prop where
  nodup : ∀ p, (G p).Nodup
  eq_of_mem : ∀ p q x, x ∈ G p → x ∈ G q → p = q

theorem Parted.nil : Parted fun _ : ι => ([] : List α) where
  nodup := fun _ => nodup_nil
  eq_of_mem := fun _ _ _ hx => absurd hx not_mem_nil

/-- The order in the lists does not matter. -/
theorem Parted.perm {G' : ι → List α} (h : Parted G) (hperm : ∀ p, (G' p).Perm (G p)) :
    Parted G' where
  nodup := fun p => (hperm p).nodup_iff.2 (h.nodup p)
  eq_of_mem := fun p q x hp hq =>
    h.eq_of_mem p q x ((hperm p).mem_iff.1 hp) ((hperm q).mem_iff.1 hq)

variable [DecidableEq ι]

/-- The element is put in front of a part. -/
def put (G : ι → List α) (p : ι) (x : α) : ι → List α := update G p (x :: G p)

/-- All of the part `p` is put in front of the part `q`. -/
def join (G : ι → List α) (p q : ι) : ι → List α :=
  update (update G q (G p ++ G q)) p []

theorem put_self : put G p x p = x :: G p := update_self ..

theorem put_of_ne (h : q ≠ p) : put G p x q = G q := update_of_ne h _ _

theorem join_left : join G p q p = [] := update_self ..

theorem join_right (h : q ≠ p) : join G p q q = G p ++ G q := by
  rw [join, update_of_ne h, update_self]

theorem join_of_ne {r : ι} (hp : r ≠ p) (hq : r ≠ q) : join G p q r = G r := by
  rw [join, update_of_ne hp, update_of_ne hq]

theorem mem_put {r : ι} : y ∈ put G p x r ↔ y ∈ G r ∨ r = p ∧ y = x := by
  rcases eq_or_ne r p with rfl | h
  · rw [put_self, mem_cons]
    tauto
  · rw [put_of_ne h]
    tauto

theorem exists_mem_put : (∃ r, y ∈ put G p x r) ↔ (∃ r, y ∈ G r) ∨ y = x := by
  simp only [mem_put]
  constructor
  · rintro ⟨r, h | h⟩
    · exact .inl ⟨r, h⟩
    · exact .inr h.2
  · rintro (⟨r, h⟩ | rfl)
    · exact ⟨r, .inl h⟩
    · exact ⟨p, .inr ⟨rfl, rfl⟩⟩

theorem mem_concat {r : ι} : y ∈ update G p (G p ++ [x]) r ↔ y ∈ G r ∨ r = p ∧ y = x := by
  rcases eq_or_ne r p with rfl | h
  · simp
  · simp [h]

theorem prefix_concat (r : ι) : G r <+: update G p (G p ++ [x]) r := by
  rcases eq_or_ne r p with rfl | h
  · rw [update_self]
    exact prefix_append _ _
  · rw [update_of_ne h]

theorem mem_join {r : ι} (hne : p ≠ q) :
    y ∈ join G p q r ↔ r ≠ p ∧ y ∈ G r ∨ r = q ∧ y ∈ G p := by
  rcases eq_or_ne r p with rfl | hp
  · rw [join_left]
    simp [hne]
  · rcases eq_or_ne r q with rfl | hq
    · rw [join_right hp, mem_append]
      tauto
    · rw [join_of_ne hp hq]
      tauto

theorem exists_mem_join (hne : p ≠ q) : (∃ r, y ∈ join G p q r) ↔ ∃ r, y ∈ G r := by
  simp only [mem_join hne]
  constructor
  · rintro ⟨r, h | h⟩
    · exact ⟨r, h.2⟩
    · exact ⟨p, h.2⟩
  · rintro ⟨r, h⟩
    rcases eq_or_ne r p with rfl | hp
    · exact ⟨q, .inr ⟨rfl, h⟩⟩
    · exact ⟨r, .inl ⟨hp, h⟩⟩

namespace Parted

theorem put (h : Parted G) (hx : ∀ r, x ∉ G r) : Parted (put G p x) where
  nodup := fun r => by
    rcases eq_or_ne r p with rfl | hr
    · rw [put_self]
      exact nodup_cons.2 ⟨hx r, h.nodup r⟩
    · rw [put_of_ne hr]
      exact h.nodup r
  eq_of_mem := fun r r' y hy hy' => by
    rcases mem_put.1 hy with h₁ | ⟨rfl, rfl⟩ <;> rcases mem_put.1 hy' with h₂ | ⟨rfl, he⟩
    · exact h.eq_of_mem r r' y h₁ h₂
    · exact absurd (he ▸ h₁) (hx r)
    · exact absurd h₂ (hx r')
    · rfl

theorem concat (h : Parted G) (hx : ∀ r, x ∉ G r) : Parted (update G p (G p ++ [x])) :=
  (h.put (p := p) hx).perm fun r => by
    rcases eq_or_ne r p with rfl | hr
    · rw [update_self, put_self]
      exact perm_append_singleton _ _
    · rw [update_of_ne hr, put_of_ne hr]

theorem join (h : Parted G) (hne : p ≠ q) : Parted (join G p q) where
  nodup := fun r => by
    rcases eq_or_ne r p with rfl | hp
    · rw [join_left]
      exact nodup_nil
    · rcases eq_or_ne r q with rfl | hq
      · rw [join_right hp, nodup_append]
        refine ⟨h.nodup p, h.nodup r, fun x hx y hy he => hne ?_⟩
        exact h.eq_of_mem p r x hx (he ▸ hy)
      · rw [join_of_ne hp hq]
        exact h.nodup r
  eq_of_mem := fun r r' y hy hy' => by
    rcases (mem_join hne).1 hy with ⟨hr, h₁⟩ | ⟨rfl, h₁⟩ <;>
      rcases (mem_join hne).1 hy' with ⟨hr', h₂⟩ | ⟨rfl, h₂⟩
    · exact h.eq_of_mem r r' y h₁ h₂
    · exact absurd (h.eq_of_mem r p y h₁ h₂) hr
    · exact absurd (h.eq_of_mem r' p y h₂ h₁) hr'
    · rfl

end Parted

variable [DecidableEq α]

/-- The element is taken out of a part. -/
def take (G : ι → List α) (p : ι) (x : α) : ι → List α := update G p ((G p).erase x)

theorem take_self : take G p x p = (G p).erase x := update_self ..

theorem take_of_ne (h : q ≠ p) : take G p x q = G q := update_of_ne h _ _

namespace Parted

theorem mem_take (h : Parted G) (hx : x ∈ G p) {r : ι} : y ∈ take G p x r ↔ y ∈ G r ∧ y ≠ x := by
  rcases eq_or_ne r p with rfl | hr
  · rw [take_self, (h.nodup r).mem_erase_iff, and_comm]
  · rw [take_of_ne hr]
    refine ⟨fun hy => ⟨hy, ?_⟩, And.left⟩
    rintro rfl
    exact hr (h.eq_of_mem r p y hy hx)

theorem exists_mem_take (h : Parted G) (hx : x ∈ G p) :
    (∃ r, y ∈ take G p x r) ↔ (∃ r, y ∈ G r) ∧ y ≠ x := by
  simp [h.mem_take hx]

theorem take (h : Parted G) (p : ι) (x : α) : Parted (take G p x) := by
  have hsub : ∀ r, (Parts.take G p x r).Sublist (G r) := fun r => by
    rcases eq_or_ne r p with rfl | hr
    · rw [take_self]
      exact erase_sublist
    · rw [take_of_ne hr]
  exact
    { nodup := fun r => (hsub r).nodup (h.nodup r)
      eq_of_mem := fun r r' y hy hy' => h.eq_of_mem r r' y ((hsub r).subset hy)
        ((hsub r').subset hy') }

/-- An element moves to the front of another part. -/
theorem move (h : Parted G) (hx : x ∈ G p) (q : ι) : Parted (Parts.put (Parts.take G p x) q x) :=
  (h.take p x).put fun _ hr => ((h.mem_take hx).1 hr).2 rfl

theorem exists_mem_move (h : Parted G) (hx : x ∈ G p) :
    (∃ r, y ∈ Parts.put (Parts.take G p x) q x r) ↔ ∃ r, y ∈ G r := by
  rw [exists_mem_put, h.exists_mem_take hx]
  constructor
  · rintro (hy | rfl)
    · exact hy.1
    · exact ⟨p, hx⟩
  · exact fun hy => (eq_or_ne y x).elim .inr fun hne => .inl ⟨hy, hne⟩

end Parted

end Felis.Parts
