import Mathlib.Tactic.Ring

/-! Reversal of the low bits of a number. -/

namespace BitReversal

/-- The low `b` bits of `x`, reversed. -/
def rev : ℕ → ℕ → ℕ
  | 0, _ => 0
  | b + 1, x => x % 2 * 2 ^ b + rev b (x / 2)

theorem rev_lt (b x : ℕ) : rev b x < 2 ^ b := by
  induction b generalizing x with
  | zero => simp [rev]
  | succ b ih =>
    have h := ih (x / 2)
    have hbit : x % 2 * 2 ^ b ≤ 1 * 2 ^ b := Nat.mul_le_mul_right _ (by omega)
    rw [rev, pow_succ]
    omega

theorem rev_two_mul (b x : ℕ) : rev (b + 1) (2 * x) = rev b x := by
  rw [rev, Nat.mul_mod_right, zero_mul, zero_add, Nat.mul_div_cancel_left x (by decide)]

theorem rev_two_mul_add_one (b x : ℕ) : rev (b + 1) (2 * x + 1) = 2 ^ b + rev b x := by
  rw [rev, show (2 * x + 1) % 2 = 1 by omega, show (2 * x + 1) / 2 = x by omega, one_mul]

theorem rev_add (a b x : ℕ) : rev (a + b) x = rev a x * 2 ^ b + rev b (x / 2 ^ a) := by
  induction a generalizing x with
  | zero => simp [rev]
  | succ a ih =>
    rw [show a + 1 + b = a + b + 1 by omega, rev, rev, ih, pow_succ' 2 a, Nat.div_div_eq_div_mul,
      pow_add]
    ring

theorem rev_mod (b x : ℕ) : rev b (x % 2 ^ b) = rev b x := by
  induction b generalizing x with
  | zero => rfl
  | succ b ih =>
    rw [rev, rev, pow_succ', Nat.mod_mul_right_mod, Nat.mod_mul_right_div_self, ih]

theorem rev_rev {b x : ℕ} (hx : x < 2 ^ b) : rev b (rev b x) = x := by
  induction b generalizing x with
  | zero => simp [rev] at hx ⊢; exact hx.symm
  | succ b ih =>
    have hhalf : x / 2 < 2 ^ b := by rw [pow_succ] at hx; omega
    have hlow : rev (b + 1) x % 2 ^ b = rev b (x / 2) := by
      rw [rev, Nat.mul_add_mod_self_right, Nat.mod_eq_of_lt (rev_lt b _)]
    have htop : rev (b + 1) x / 2 ^ b = x % 2 := by
      rw [rev, Nat.add_comm, Nat.add_mul_div_right _ _ (Nat.two_pow_pos b),
        Nat.div_eq_of_lt (rev_lt b _), zero_add]
    rw [rev_add b 1, ← rev_mod, hlow, ih hhalf, htop]
    simp only [rev]
    omega

theorem rev_inj {b x y : ℕ} (hx : x < 2 ^ b) (hy : y < 2 ^ b) (h : rev b x = rev b y) : x = y := by
  rw [← rev_rev hx, h, rev_rev hy]

theorem rev_div (a b x : ℕ) : rev (a + b) x / 2 ^ b = rev a x := by
  rw [rev_add, Nat.add_comm, Nat.add_mul_div_right _ _ (Nat.two_pow_pos b),
    Nat.div_eq_of_lt (rev_lt b _), zero_add]

end BitReversal
