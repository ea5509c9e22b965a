import Mathlib.Data.List.Basic

/-!
# Segments of a linked list

A memory of list nodes is read through its successor function `next : α → α`.
`Segment next p l q` says that the walk from `p` visits exactly the nodes of `l`, in that
order, and then stands at `q`; a whole list is a segment that ends at the null address.

A segment depends on the successors of its own nodes only (`Segment.congr`), two segments
compose (`segment_append`), and the nodes visited are determined by where the walk starts
(`Segment.unique`).
-/

namespace WiseSdk.Library

universe u

variable {α : Type u} {next next' : α → α} {p q a null : α} {l m : List α}

/-- The walk from `p` visits the nodes of `l` and then stands at `q`. -/
def Segment (next : α → α) : α → List α → α → Prop
  | p, [], q => p = q
  | p, a :: l, q => p = a ∧ Segment next (next a) l q

@[simp] theorem segment_nil : Segment next p [] q ↔ p = q := Iff.rfl

@[simp] theorem segment_cons :
    Segment next p (a :: l) q ↔ p = a ∧ Segment next (next a) l q := Iff.rfl

/-- A walk over given nodes can be checked. -/
instance decidableSegment [DecidableEq α] (next : α → α) :
    (p : α) → (l : List α) → (q : α) → Decidable (Segment next p l q)
  | p, [], q => inferInstanceAs (Decidable (p = q))
  | p, a :: l, q =>
    have := decidableSegment next (next a) l q
    inferInstanceAs (Decidable (p = a ∧ Segment next (next a) l q))

/-- **Composition.**  A walk over a concatenation passes the seam. -/
theorem segment_append :
    Segment next p (l ++ m) q ↔ ∃ r, Segment next p l r ∧ Segment next r m q := by
  induction l generalizing p with
  | nil => simp
  | cons a l ih => simp [ih, and_assoc]

/-- A walk that passes the node `a` splits there. -/
theorem segment_append_cons :
    Segment next p (l ++ a :: m) q ↔ Segment next p l a ∧ Segment next (next a) m q := by
  rw [segment_append]
  constructor
  · rintro ⟨r, hl, rfl, hm⟩
    exact ⟨hl, hm⟩
  · rintro ⟨hl, hm⟩
    exact ⟨a, hl, rfl, hm⟩

/-- **Frame.**  Only the successors of the nodes visited matter. -/
theorem Segment.congr (h : Segment next p l q) (hnext : ∀ a ∈ l, next' a = next a) :
    Segment next' p l q := by
  induction l generalizing p with
  | nil => exact h
  | cons a l ih =>
    refine ⟨h.1, ?_⟩
    rw [hnext a (by simp)]
    exact ih h.2 fun b hb => hnext b (by simp [hb])

/-- A walk that does not pass its end is determined by its start: two walks to the end visit the
same nodes. -/
theorem Segment.unique (hl : Segment next p l null) (hm : Segment next p m null) (hnl : null ∉ l)
    (hnm : null ∉ m) : l = m := by
  induction l generalizing p m with
  | nil =>
    cases m with
    | nil => rfl
    | cons b m =>
      have hb : null = b := (segment_nil.mp hl).symm.trans hm.1
      exact absurd hb fun h => hnm (by simp [h])
  | cons a l ih =>
    cases m with
    | nil =>
      have ha : null = a := (segment_nil.mp hm).symm.trans hl.1
      exact absurd ha fun h => hnl (by simp [h])
    | cons b m =>
      obtain rfl : a = b := hl.1.symm.trans hm.1
      rw [ih hl.2 hm.2 (fun h => hnl (by simp [h])) fun h => hnm (by simp [h])]

end WiseSdk.Library
