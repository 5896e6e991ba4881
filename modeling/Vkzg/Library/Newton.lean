import Mathlib.Data.Int.ModEq
import Mathlib.Tactic.Ring

/-! Inverses modulo a power of two by Newton's iteration: every round doubles the number of bits that
are right. -/

namespace Newton

/-- The iterates from one, for the inverse of `a` modulo `m`. -/
def inverse (a m : ℤ) : ℕ → ℤ
  | 0 => 1
  | k + 1 => inverse a m k * (2 - a * inverse a m k) % m

variable {a x : ℤ} {bits : ℕ}

/-- A round squares the modulus. -/
theorem round_modEq {n : ℤ} (h : a * x ≡ 1 [ZMOD n]) :
    a * (x * (2 - a * x)) ≡ 1 [ZMOD n * n] := by
  obtain ⟨q, hq⟩ := Int.modEq_iff_dvd.mp h
  refine Int.modEq_iff_dvd.mpr ⟨q * q, ?_⟩
  calc 1 - a * (x * (2 - a * x)) = (1 - a * x) * (1 - a * x) := by ring
    _ = n * n * (q * q) := by rw [hq]; ring

theorem inverse_bits (ha : a % 2 = 1) (bits k : ℕ) :
    a * inverse a (2 ^ bits) k ≡ 1 [ZMOD 2 ^ min (2 ^ k) bits] := by
  induction k with
  | zero =>
    rw [inverse, mul_one, pow_zero]
    exact Int.ModEq.of_dvd (pow_dvd_pow 2 (Nat.min_le_left 1 bits)) (by rwa [pow_one])
  | succ k ih =>
    have hround := round_modEq ih
    rw [← pow_add] at hround
    have hle : min (2 ^ (k + 1)) bits ≤ min (2 ^ k) bits + min (2 ^ k) bits := by
      rw [pow_succ]
      omega
    have hmod := Int.mod_modEq (inverse a (2 ^ bits) k * (2 - a * inverse a (2 ^ bits) k)) (2 ^ bits)
    exact ((hmod.of_dvd (pow_dvd_pow 2 (Nat.min_le_right _ _))).mul_left a).trans
      (hround.of_dvd (pow_dvd_pow 2 hle))

/-- Rounds enough for the number of bits give the inverse. -/
theorem inverse_modEq (ha : a % 2 = 1) {k : ℕ} (hk : bits ≤ 2 ^ k) :
    a * inverse a (2 ^ bits) k ≡ 1 [ZMOD 2 ^ bits] := by
  have h := inverse_bits ha bits k
  rwa [Nat.min_eq_right hk] at h

end Newton
