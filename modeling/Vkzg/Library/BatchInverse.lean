import Mathlib.Algebra.Field.Basic

/-! Batched inversion: the running products of a sequence, one inverse of the last, and the walk
back that turns it into the inverse of every nonzero entry. Zero entries are stepped over. -/

namespace BatchInverse

variable {F : Type} [Field F] [DecidableEq F]

/-- The product of the nonzero entries below `k`. -/
def prefixProd (z : ℕ → F) : ℕ → F
  | 0 => 1
  | k + 1 => if z k = 0 then prefixProd z k else prefixProd z k * z k

/-- What the walk back from entry `n` carries after `s` steps. -/
def carried (z : ℕ → F) (n : ℕ) : ℕ → F
  | 0 => (prefixProd z n)⁻¹
  | s + 1 => if z (n - 1 - s) = 0 then carried z n s else carried z n s * z (n - 1 - s)

variable {z : ℕ → F} {n : ℕ}

theorem prefixProd_ne_zero (k : ℕ) : prefixProd z k ≠ 0 := by
  induction k with
  | zero => exact one_ne_zero
  | succ k ih =>
    rw [prefixProd]
    split_ifs with h
    · exact ih
    · exact mul_ne_zero ih h

theorem carried_eq {s : ℕ} (hs : s ≤ n) : carried z n s = (prefixProd z (n - s))⁻¹ := by
  induction s with
  | zero => rfl
  | succ s ih =>
    have hsucc : n - s = n - 1 - s + 1 := by omega
    rw [carried, ih (Nat.le_of_succ_le hs), hsucc, prefixProd, show n - (s + 1) = n - 1 - s by omega]
    split_ifs with h
    · rfl
    · rw [mul_inv, inv_mul_cancel_right₀ h]

/-- The product below an entry times what is carried to it inverts the entry. -/
theorem prefixProd_mul_carried {k : ℕ} (hk : k < n) (hz : z k ≠ 0) :
    prefixProd z k * carried z n (n - 1 - k) = (z k)⁻¹ := by
  rw [carried_eq (by omega), show n - (n - 1 - k) = k + 1 by omega, prefixProd, if_neg hz, mul_inv,
    mul_inv_cancel_left₀ (prefixProd_ne_zero k)]

end BatchInverse
