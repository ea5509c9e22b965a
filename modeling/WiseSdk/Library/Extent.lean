import Mathlib.Algebra.Order.Ring.Nat
import Mathlib.Order.Interval.Finset.Nat

/-!
# Ranges of addresses

Half-open ranges, lists of them, and one counting fact: ranges that are pairwise apart and
lie below `n` have at most `n` addresses in all (`sum_length_le`).  `Tiles` says that ranges
fill an interval one after the other.
-/

namespace WiseSdk.Library

open List

/-- A half-open range of addresses. -/
structure Extent where
  lo : ℕ
  hi : ℕ
  deriving DecidableEq, Repr

namespace Extent

def Contains (r : Extent) (x : ℕ) : Prop := r.lo ≤ x ∧ x < r.hi
deriving Decidable

def Apart (r s : Extent) : Prop := r.hi ≤ s.lo ∨ s.hi ≤ r.lo
deriving Decidable

theorem Apart.symm {r s : Extent} (h : r.Apart s) : s.Apart r := Or.symm h

theorem Apart.mono {r s r' s' : Extent} (h : r.Apart s) (hr : r.lo ≤ r'.lo ∧ r'.hi ≤ r.hi)
    (hs : s.lo ≤ s'.lo ∧ s'.hi ≤ s.hi) : r'.Apart s' := by
  rcases h with h | h
  · exact .inl (by omega)
  · exact .inr (by omega)

def length (r : Extent) : ℕ := r.hi - r.lo

def closing (n : ℕ) (r : Extent) : Extent := ⟨r.hi - n, r.hi⟩

end Extent

def InRegions (regions : List Extent) (x : ℕ) : Prop := ∃ r ∈ regions, r.Contains x
deriving Decidable

variable {l es m : List Extent} {x n : ℕ}

theorem inRegions_append : InRegions (l ++ m) x ↔ InRegions l x ∨ InRegions m x := by
  simp [InRegions, or_and_right, exists_or]

theorem inRegions_perm (h : l.Perm m) : InRegions l x ↔ InRegions m x := by
  simp only [InRegions, h.mem_iff]

theorem not_inRegions_of_apart {regions regions' : List Extent}
    (hapart : ∀ r ∈ regions, ∀ s ∈ regions', r.Apart s) (hx : InRegions regions x) :
    ¬InRegions regions' x := by
  rintro ⟨s, hs, hxs⟩
  obtain ⟨r, hr, hxr⟩ := hx
  have := hapart r hr s hs
  simp only [Extent.Contains, Extent.Apart] at *
  omega

/-- **Counting.**  Ranges that are pairwise apart and lie below `n` have at most `n`
addresses in all. -/
theorem sum_length_le (hl : l.Pairwise Extent.Apart) (hn : ∀ r ∈ l, r.hi ≤ n) :
    (l.map Extent.length).sum ≤ n := by
  -- The addresses of the list as one finite set.
  suffices h : ∃ U : Finset ℕ, (∀ x, x ∈ U ↔ InRegions l x) ∧ U.card = (l.map Extent.length).sum by
    obtain ⟨U, hU, hcard⟩ := h
    rw [← hcard, ← Finset.card_range n]
    refine Finset.card_le_card fun x hx => ?_
    obtain ⟨r, hr, -, hlt⟩ := (hU x).mp hx
    exact Finset.mem_range.mpr (lt_of_lt_of_le hlt (hn r hr))
  clear hn
  induction l with
  | nil => exact ⟨∅, fun x => by simp [InRegions], rfl⟩
  | cons r l ih =>
    obtain ⟨hr, hl⟩ := pairwise_cons.mp hl
    obtain ⟨U, hU, hcard⟩ := ih hl
    refine ⟨Finset.Ico r.lo r.hi ∪ U, fun x => ?_, ?_⟩
    · simp [InRegions, Extent.Contains, hU]
    · have hdisj : Disjoint (Finset.Ico r.lo r.hi) U := by
        rw [Finset.disjoint_left]
        intro x hx hxU
        have hsides : ∀ s ∈ [r], ∀ t ∈ l, s.Apart t := by simpa using hr
        exact not_inRegions_of_apart hsides ⟨r, by simp, Finset.mem_Ico.mp hx⟩
          ((hU x).mp hxU)
      rw [Finset.card_union_of_disjoint hdisj, Nat.card_Ico, hcard]
      rfl

/-! ## Tilings -/

/-- The ranges, in the order they are listed, fill `[lo, hi)` without a gap. -/
def Tiles : List Extent → ℕ → ℕ → Prop
  | [], lo, hi => lo = hi
  | e :: es, lo, hi => e.lo = lo ∧ e.lo < e.hi ∧ Tiles es e.hi hi

section

variable {hi lo : ℕ} (h : Tiles es lo hi)

include h

theorem Tiles.bounds : lo ≤ hi ∧ ∀ e ∈ es, lo ≤ e.lo ∧ e.lo < e.hi ∧ e.hi ≤ hi := by
  induction es generalizing lo with
  | nil => exact ⟨Nat.le_of_eq h, by simp⟩
  | cons e es ih =>
    obtain ⟨hlo, hlt, htail⟩ := h
    obtain ⟨hle, hmem⟩ := ih htail
    refine ⟨by omega, forall_mem_cons.mpr ⟨by omega, fun e' he' => ?_⟩⟩
    have := hmem e' he'
    omega

/-- **A tiling covers its interval**, and nothing else. -/
theorem Tiles.inRegions_iff : InRegions es x ↔ lo ≤ x ∧ x < hi := by
  induction es generalizing lo with
  | nil =>
    have hlo : lo = hi := h
    simp only [InRegions, not_mem_nil, false_and, exists_false, false_iff]
    omega
  | cons e es ih =>
    obtain ⟨hlo, hlt, htail⟩ := h
    have hle := htail.bounds.1
    have htail' := ih htail
    simp only [InRegions, mem_cons, exists_eq_or_imp, Extent.Contains] at htail' ⊢
    rw [htail']
    omega

/-- **The ranges of a tiling do not overlap.** -/
theorem Tiles.pairwise : es.Pairwise Extent.Apart := by
  induction es generalizing lo with
  | nil => exact Pairwise.nil
  | cons e es ih =>
    obtain ⟨-, -, htail⟩ := h
    exact pairwise_cons.mpr
      ⟨fun e' he' => .inl (htail.bounds.2 e' he').1, ih htail⟩

end

end WiseSdk.Library
