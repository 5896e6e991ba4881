import Mathlib.Algebra.BigOperators.Intervals
import Mathlib.Tactic.Ring

/-! Signed-digit recoding in radix `2 * h`: a digit past `h` borrows from the next one. -/

namespace SignedDigits
open Finset

variable (h s : ℕ)

def plain (d : ℕ) : ℕ := s / (2 * h) ^ d % (2 * h)

def carry : ℕ → ℕ
  | 0 => 0
  | d + 1 => if plain h s d + carry d > h then 1 else 0

def digit (d : ℕ) : ℤ := plain h s d + carry h s d - 2 * h * carry h s (d + 1)

variable {h s : ℕ}

theorem carry_le_one (d : ℕ) : carry h s d ≤ 1 := by
  cases d with
  | zero => exact Nat.zero_le 1
  | succ d =>
    rw [carry]
    split_ifs <;> omega

/-- The digit is the plain digit plus carry, less the radix when that passes the half window. -/
theorem digit_eq (d : ℕ) : digit h s d =
    if plain h s d + carry h s d > h then (plain h s d + carry h s d : ℤ) - 2 * h
    else plain h s d + carry h s d := by
  rw [digit, carry]
  split_ifs <;> push_cast <;> ring

theorem digit_bounds (hh : 0 < h) (d : ℕ) : -(h : ℤ) < digit h s d ∧ digit h s d ≤ h := by
  have hp : plain h s d < 2 * h := Nat.mod_lt _ (by omega)
  have hc := carry_le_one (h := h) (s := s) d
  rw [digit_eq]
  split_ifs <;> omega

/-- The digits so far and the pending carry spell the low part of the number. -/
theorem sum_digits (n : ℕ) :
    ∑ d ∈ range n, digit h s d * (2 * h : ℤ) ^ d + carry h s n * (2 * h : ℤ) ^ n =
      (s % (2 * h) ^ n : ℕ) := by
  induction n with
  | zero => simp [carry, Nat.mod_one]
  | succ n ih =>
    rw [sum_range_succ, pow_succ (2 * h), Nat.mod_mul, Nat.cast_add, ← ih, digit, plain]
    push_cast
    ring

theorem carry_eq_zero {n : ℕ} (hs : s < h * (2 * h) ^ n) : carry h s (n + 1) = 0 := by
  have hdiv : s / (2 * h) ^ n < h := Nat.div_lt_of_lt_mul (by rwa [Nat.mul_comm])
  have hp : plain h s n ≤ s / (2 * h) ^ n := Nat.mod_le _ _
  have hc := carry_le_one (h := h) (s := s) n
  rw [carry, if_neg (by omega)]

/-- A number below half the window of its top digit is the sum of its signed digits. -/
theorem sum_digits_eq {n : ℕ} (hs : s < h * (2 * h) ^ n) :
    ∑ d ∈ range (n + 1), digit h s d * (2 * h : ℤ) ^ d = s := by
  have hsum := sum_digits (h := h) (s := s) (n + 1)
  have hlt : s < (2 * h) ^ (n + 1) := by
    rw [pow_succ']
    exact lt_of_lt_of_le hs (Nat.mul_le_mul_right _ (by omega))
  rwa [carry_eq_zero hs, Nat.cast_zero, zero_mul, add_zero, Nat.mod_eq_of_lt hlt] at hsum

end SignedDigits
