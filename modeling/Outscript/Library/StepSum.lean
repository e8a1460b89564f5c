import Mathlib.Algebra.BigOperators.Group.Finset.Basic

/-!
# Sums of a step function

A function that is constant on blocks of one length, summed over a range: the
first block is split off and the function moved on by one step, until what is
left lies within one block.
-/
namespace StepSum

open Finset

variable {M : Type} [AddCommMonoid M] {k : Nat}

theorem sum_within (f : Nat → M) {n : Nat} (hn : n ≤ k) :
    ∑ h ∈ range n, f (h / k) = n • f 0 := by
  have hfirst : ∀ h ∈ range n, f (h / k) = f 0 := by
    intro h hh
    rw [Nat.div_eq_of_lt ((mem_range.mp hh).trans_le hn)]
  rw [sum_congr rfl hfirst, sum_const, card_range]

theorem sum_first (f : Nat → M) (hk : 0 < k) (n : Nat) :
    ∑ h ∈ range (k + n), f (h / k) = k • f 0 + ∑ h ∈ range n, f (h / k + 1) := by
  rw [sum_range_add, sum_within f (Nat.le_refl k)]
  refine congrArg (k • f 0 + ·) (sum_congr rfl ?_)
  intro h _
  rw [Nat.add_div_left h hk]

/-- Whole blocks, and the part of the next one. -/
theorem sum_blocks (f : Nat → M) (hk : 0 < k) {r : Nat} (hr : r ≤ k) (q : Nat) :
    ∑ h ∈ range (q * k + r), f (h / k) = k • ∑ i ∈ range q, f i + r • f q := by
  induction q generalizing f with
  | zero => rw [Nat.zero_mul, Nat.zero_add, sum_within f hr, sum_range_zero, nsmul_zero, zero_add]
  | succ q ih =>
    have hsplit : (q + 1) * k + r = k + (q * k + r) := by rw [Nat.succ_mul]; omega
    rw [hsplit, sum_first f hk, ih (f <| · + 1), sum_range_succ', nsmul_add, ← add_assoc,
      add_comm (k • f 0)]

end StepSum
