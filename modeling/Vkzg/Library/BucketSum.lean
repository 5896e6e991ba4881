import Mathlib.Algebra.BigOperators.Intervals
import Mathlib.Algebra.Module.BigOperators

/-! Weighted bucket sums `∑ (k + 1) • B k`: the running sum from the top bucket down, and the
pairwise combination of equal slices. -/

namespace BucketSum
open Finset

variable {M : Type*} [AddCommMonoid M]

/-- One bucket of the running sum: the sum so far, and the sum of these sums. -/
def step (acc : M × M) (x : M) : M × M := (acc.1 + x, acc.2 + (acc.1 + x))

/-- The running sum from the top bucket down weighs bucket `i` by `i + 1`. -/
theorem foldl_step (B : ℕ → M) (n : ℕ) :
    (List.range n).reverse.foldl (fun acc i => step acc (B i)) (0, 0) =
      (∑ i ∈ range n, B i, ∑ i ∈ range n, (i + 1) • B i) := by
  induction n generalizing B with
  | zero => simp
  | succ n ih =>
    rw [List.range_succ_eq_map, List.reverse_cons, List.foldl_append, ← List.map_reverse,
      List.foldl_map, ih fun i => B (i + 1), List.foldl_cons, List.foldl_nil, step]
    have hs : ∑ i ∈ range n, B (i + 1) + B 0 = ∑ i ∈ range (n + 1), B i :=
      (sum_range_succ' B n).symm
    refine Prod.ext hs ?_
    simp only
    rw [← add_assoc, ← sum_add_distrib, sum_range_succ' (fun i => (i + 1) • B i)]
    simp only [zero_add, one_smul]
    congr 1
    exact sum_congr rfl fun i _ => (succ_nsmul (B (i + 1)) (i + 1)).symm

theorem sum_double (f : ℕ → M) (n : ℕ) :
    ∑ q ∈ range (2 * n), f q = ∑ q ∈ range n, f q + ∑ q ∈ range n, f (n + q) := by
  rw [two_mul, sum_range_add]

theorem weighted_double (f : ℕ → M) (n : ℕ) :
    ∑ q ∈ range (2 * n), q • f q = ∑ q ∈ range n, q • f q +
      (∑ q ∈ range n, q • f (n + q) + n • ∑ q ∈ range n, f (n + q)) := by
  have hsecond : ∑ q ∈ range n, (n + q) • f (n + q) =
      ∑ q ∈ range n, q • f (n + q) + n • ∑ q ∈ range n, f (n + q) := by
    rw [smul_sum, ← sum_add_distrib]
    exact sum_congr rfl fun q _ => by rw [add_smul, add_comm]
  rw [sum_double, hsecond]

/-- The whole weighted sum from the slices' own weighted sums and the slice-indexed one. -/
theorem sum_slices (B : ℕ → M) (slices n : ℕ) :
    ∑ k ∈ range (slices * n), (k + 1) • B k =
      ∑ p ∈ range slices, ∑ i ∈ range n, (i + 1) • B (p * n + i) +
        n • ∑ p ∈ range slices, p • ∑ i ∈ range n, B (p * n + i) := by
  rw [smul_sum, ← sum_add_distrib]
  induction slices with
  | zero => simp
  | succ p ih =>
    rw [Nat.succ_mul, sum_range_add, ih, sum_range_succ]
    congr 1
    rw [smul_smul, smul_sum, ← sum_add_distrib]
    refine sum_congr rfl fun i _ => ?_
    rw [← add_smul]
    congr 1
    ring

end BucketSum
