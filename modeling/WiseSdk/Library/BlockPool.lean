import WiseSdk.Library.Extent

/-!
# Pools of equal blocks

A pool is an array of blocks of one size.  `run lo n` lists the blocks `lo + n - 1, ..., lo`,
highest first: the free list of a pool whose blocks were pushed from the lowest up.  Popping a block
from a run leaves a run, so what is left after any number of allocations is again a run.
-/

namespace WiseSdk.Library

open List

structure BlockPool where
  base : ℕ
  stride : ℕ

namespace BlockPool

variable (p : BlockPool)

def addr (i : ℕ) : ℕ := p.base + i * p.stride

def extent (a : ℕ) : Extent := ⟨a, a + p.stride⟩

/-- The blocks `lo + n - 1, ..., lo`. -/
def run (lo : ℕ) : ℕ → List ℕ
  | 0 => []
  | n + 1 => p.addr (lo + n) :: run lo n

@[simp] theorem run_zero (lo : ℕ) : p.run lo 0 = [] := rfl

variable (lo n : ℕ)

theorem run_succ : p.run lo (n + 1) = p.addr (lo + n) :: p.run lo n := rfl

theorem addr_succ (i : ℕ) : p.addr (i + 1) = p.addr i + p.stride := by
  rw [addr, addr, Nat.succ_mul, Nat.add_assoc]

theorem addr_le {i j : ℕ} (h : i ≤ j) : p.addr i ≤ p.addr j :=
  Nat.add_le_add_left (Nat.mul_le_mul_right _ h) _

theorem run_eq : p.run lo n = ((range' lo n).map p.addr).reverse := by
  induction n with
  | zero => rfl
  | succ n ih =>
    rw [run_succ, ih, range'_concat, map_append, reverse_append, Nat.one_mul]
    rfl

theorem run_add (lo m n : ℕ) : p.run lo (m + n) = p.run (lo + m) n ++ p.run lo m := by
  rw [run_eq, run_eq, run_eq, ← range'_append_1, map_append, reverse_append]

@[simp] theorem length_run : (p.run lo n).length = n := by
  simp [run_eq]

theorem mem_run {lo n a : ℕ} : a ∈ p.run lo n ↔ ∃ i, lo ≤ i ∧ i < lo + n ∧ a = p.addr i := by
  simp [run_eq, and_assoc, eq_comm]

/-- A block ends where the block behind it starts, or before. -/
theorem extent_hi_le {i j : ℕ} (h : i < j) : (p.extent (p.addr i)).hi ≤ p.addr j :=
  (p.addr_succ i).symm.trans_le (p.addr_le h)

theorem pairwise_run : ((p.run lo n).map p.extent).Pairwise Extent.Apart := by
  induction n with
  | zero => exact Pairwise.nil
  | succ n ih =>
    rw [run_succ, map_cons, pairwise_cons]
    refine ⟨fun e he => ?_, ih⟩
    obtain ⟨a, ha, rfl⟩ := mem_map.mp he
    obtain ⟨i, -, hi, rfl⟩ := p.mem_run.mp ha
    exact .inr (p.extent_hi_le hi)

theorem nodup_run (h : 0 < p.stride) (lo n : ℕ) : (p.run lo n).Nodup := by
  induction n with
  | zero => exact nodup_nil
  | succ n ih =>
    rw [run_succ, nodup_cons]
    refine ⟨fun hmem => ?_, ih⟩
    obtain ⟨i, -, hi, heq⟩ := p.mem_run.mp hmem
    have hle : p.addr i + p.stride ≤ p.addr i := (p.extent_hi_le hi).trans_eq heq
    omega

theorem pairwise_of_nodup {lo n : ℕ} {l : List ℕ} (hl : l.Nodup) (hsub : l ⊆ p.run lo n) :
    (l.map p.extent).Pairwise Extent.Apart := by
  rw [pairwise_map]
  refine hl.imp_of_mem fun {a b} ha hb hne => ?_
  obtain ⟨i, -, -, rfl⟩ := p.mem_run.mp (hsub ha)
  obtain ⟨j, -, -, rfl⟩ := p.mem_run.mp (hsub hb)
  rcases Nat.lt_trichotomy i j with h | rfl | h
  · exact .inl (p.extent_hi_le h)
  · exact absurd rfl hne
  · exact .inr (p.extent_hi_le h)

/-! ## Pushing blocks -/

/-- Pushes `n` blocks from address `a` up onto a list. -/
def push : ℕ → ℕ → List ℕ → List ℕ
  | 0, _, tab => tab
  | n + 1, a, tab => push n (a + p.stride) (a :: tab)

theorem push_addr (n i : ℕ) (tab : List ℕ) : p.push n (p.addr i) tab = p.run i n ++ tab := by
  induction n generalizing i tab with
  | zero => rfl
  | succ n ih =>
    have hlow : p.run i (n + 1) = p.run (i + 1) n ++ [p.addr i] := by
      rw [Nat.add_comm, run_add]
      rfl
    rw [push, ← addr_succ, ih, hlow, append_assoc, singleton_append]

end BlockPool

end WiseSdk.Library
