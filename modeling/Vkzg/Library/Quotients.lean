import Mathlib.Algebra.Polynomial.Div
import Vkzg.Library.Erasure
import Vkzg.Library.Toeplitz

/-! Quotients of a polynomial by `X ^ ℓ - ζ` at a setup, for all `ζ` of a group of roots at once: the
circulant product that gives the Toeplitz rows and transforms them. -/

namespace Toeplitz
open Finset Polynomial Fourier Circulant

/-! ### One quotient -/

section Quotient
variable {R : Type*} [CommRing R] {f : R[X]} {ζ : R} {ℓ n : ℕ}

theorem coeff_quotient (hℓ : 0 < ℓ) (t : ℕ) : (f /ₘ (X ^ ℓ - C ζ)).coeff t =
    f.coeff (t + ℓ) + ζ * (f /ₘ (X ^ ℓ - C ζ)).coeff (t + ℓ) := by
  nontriviality R
  have hmonic : (X ^ ℓ - C ζ).Monic := monic_X_pow_sub_C ζ hℓ.ne'
  have hrem : (f %ₘ (X ^ ℓ - C ζ)).coeff (t + ℓ) = 0 := by
    refine coeff_eq_zero_of_degree_lt ((degree_modByMonic_lt f hmonic).trans_le ?_)
    rw [degree_X_pow_sub_C hℓ]
    exact_mod_cast Nat.le_add_left ℓ t
  have hsum := congrArg (fun p => p.coeff (t + ℓ)) (modByMonic_add_div f (X ^ ℓ - C ζ))
  simp only [coeff_add, hrem, zero_add, sub_mul, coeff_sub, coeff_X_pow_mul, coeff_C_mul] at hsum
  linear_combination hsum

/-- The coefficients of the quotient: every `ℓ`-th one of the polynomial, weighted by powers. -/
theorem coeff_quotient_eq (hℓ : 0 < ℓ) (hf : f.degree < (ℓ * n : ℕ)) (t : ℕ) :
    (f /ₘ (X ^ ℓ - C ζ)).coeff t = ∑ k ∈ range n, ζ ^ k * f.coeff (t + ℓ * (k + 1)) := by
  have hstep : ∀ n, (f /ₘ (X ^ ℓ - C ζ)).coeff t =
      ∑ k ∈ range n, ζ ^ k * f.coeff (t + ℓ * (k + 1)) +
        ζ ^ n * (f /ₘ (X ^ ℓ - C ζ)).coeff (t + ℓ * n) := by
    intro n
    induction n with
    | zero => simp
    | succ n ih =>
      rw [ih, coeff_quotient hℓ (t + ℓ * n), sum_range_succ, Nat.add_assoc, ← Nat.mul_succ]
      ring
  have hzero : (f /ₘ (X ^ ℓ - C ζ)).coeff (t + ℓ * n) = 0 := by
    refine coeff_eq_zero_of_degree_lt ((degree_divByMonic_le f _).trans_lt (hf.trans_le ?_))
    exact_mod_cast Nat.le_add_left (ℓ * n) t
  rw [hstep n, hzero, mul_zero, add_zero]

/-- The quotient at a setup, by the cells of the polynomial. -/
theorem eval_quotient {M : Type*} [AddCommGroup M] [Module R M] (hℓ : 0 < ℓ)
    (hf : f.degree < (ℓ * n : ℕ)) (τ : R) (G : M) :
    (f /ₘ (X ^ ℓ - C ζ)).eval τ • G = ∑ k ∈ range n, ζ ^ k •
      ∑ t ∈ range (ℓ * (n - 1 - k)), f.coeff (t + ℓ * (k + 1)) • τ ^ t • G := by
  have hdeg : (f /ₘ (X ^ ℓ - C ζ)).natDegree ≤ ℓ * n :=
    (natDegree_le_natDegree (degree_divByMonic_le f _)).trans
      (natDegree_le_iff_degree_le.mpr hf.le)
  -- Past the last cell there are no coefficients.
  have hrow : ∀ k ∈ range n, ∑ t ∈ range (ℓ * n + 1), f.coeff (t + ℓ * (k + 1)) • τ ^ t • G =
      ∑ t ∈ range (ℓ * (n - 1 - k)), f.coeff (t + ℓ * (k + 1)) • τ ^ t • G := by
    intro k hk
    have hcells : ℓ * (n - 1 - k) + ℓ * (k + 1) = ℓ * n := by
      rw [← Nat.mul_add]
      congr 1
      have := mem_range.mp hk
      omega
    refine (sum_subset (range_subset_range.mpr (by omega)) fun t _ ht => ?_).symm
    have hlarge : ℓ * n ≤ t + ℓ * (k + 1) := by
      rw [← hcells]
      exact Nat.add_le_add_right (Nat.le_of_not_lt fun h => ht (mem_range.mpr h)) _
    rw [coeff_eq_zero_of_degree_lt (hf.trans_le (by exact_mod_cast hlarge)), zero_smul]
  calc (f /ₘ (X ^ ℓ - C ζ)).eval τ • G
      = ∑ t ∈ range (ℓ * n + 1), (∑ k ∈ range n, ζ ^ k * f.coeff (t + ℓ * (k + 1))) • τ ^ t • G := by
        rw [eval_eq_sum_range' (Nat.lt_succ_of_le hdeg), sum_smul]
        exact sum_congr rfl fun t _ => by rw [coeff_quotient_eq hℓ hf, mul_smul]
    _ = ∑ k ∈ range n, ζ ^ k • ∑ t ∈ range (ℓ * n + 1),
          f.coeff (t + ℓ * (k + 1)) • τ ^ t • G := by
        simp only [sum_smul, mul_smul, smul_sum]
        exact sum_comm
    _ = _ := sum_congr rfl fun k hk => by rw [hrow k hk]

theorem eval_div_mod (τ : R) : f.eval τ = (f %ₘ (X ^ ℓ - C ζ)).eval τ +
    (τ ^ ℓ - ζ) * (f /ₘ (X ^ ℓ - C ζ)).eval τ := by
  have h := congrArg (eval τ) (modByMonic_add_div f (X ^ ℓ - C ζ))
  rw [eval_add, eval_mul, eval_sub, eval_pow, eval_X, eval_C] at h
  exact h.symm

end Quotient

/-- The remainder is the polynomial of small degree with the same values over the roots of `ζ`. -/
theorem mod_eq {F ι : Type*} [Field F] {f g : F[X]} {ζ : F} {ℓ : ℕ} (hℓ : 0 < ℓ) {s : Finset ι}
    {v : ι → F} (hv : Set.InjOn v s) (hcard : s.card = ℓ) (hroot : ∀ i ∈ s, v i ^ ℓ = ζ)
    (hg : g.degree < (ℓ : ℕ)) (hvalue : ∀ i ∈ s, g.eval (v i) = f.eval (v i)) :
    f %ₘ (X ^ ℓ - C ζ) = g := by
  have hmonic : (X ^ ℓ - C ζ).Monic := monic_X_pow_sub_C ζ hℓ.ne'
  have hmod : (f %ₘ (X ^ ℓ - C ζ)).degree < (s.card : ℕ) := by
    rw [hcard, ← degree_X_pow_sub_C hℓ ζ]
    exact degree_modByMonic_lt f hmonic
  refine eq_of_degrees_lt_of_eval_index_eq s hv hmod (by rwa [hcard]) fun i hi => ?_
  have h := @eval_div_mod _ _ f ζ ℓ (v i)
  rw [hroot i hi, sub_self, zero_mul, add_zero] at h
  rw [← h, hvalue i hi]

/-! ### All quotients -/

section Quotients
variable {F M : Type*} [Field F] [AddCommGroup M] [Module F M] {v : F} {ℓ n : ℕ}

/-- The kernel that transforms back, keeps the first `n` rows and transforms again. -/
def rowKernel (v : F) (n : ℕ) (z : ZMod (2 * n)) : F :=
  ((2 * n : ℕ) : F)⁻¹ * ∑ k ∈ range n, v ^ (k * z.val)

theorem product_rowKernel (hv : IsPrimitiveRoot v (2 * n)) (hn : 0 < n) (y : ℕ → M) {a : ℕ}
    (ha : a < 2 * n) : product (2 * n) (rowKernel v n) y a =
      ∑ k ∈ range n, (v ^ a) ^ k • ((2 * n : ℕ) : F)⁻¹ • dft v⁻¹ (2 * n) y k := by
  have : NeZero (2 * n) := ⟨by omega⟩
  have hv0 : v ≠ 0 := hv.ne_zero (by omega)
  -- A power at a difference is the power at its ends.
  have hpow : ∀ j < 2 * n, ∀ k, v ^ (k * ((a : ZMod (2 * n)) - j).val) =
      (v ^ a) ^ k * v⁻¹ ^ (j * k) := by
    intro j hj k
    have hadd := pow_val_add hv.pow_eq_one ((a : ZMod (2 * n)) - j) j k
    rw [sub_add_cancel, ZMod.val_cast_of_lt ha, ZMod.val_cast_of_lt hj] at hadd
    rw [inv_pow, ← pow_mul, hadd, mul_assoc, mul_inv_cancel₀ (pow_ne_zero _ hv0), mul_one,
      Nat.mul_comm]
  simp only [product, rowKernel, dft, smul_sum, mul_sum, sum_smul]
  rw [sum_comm]
  refine sum_congr rfl fun k _ => sum_congr rfl fun j hj => ?_
  rw [hpow j (mem_range.mp hj), smul_smul, smul_smul]
  congr 1
  ring

/-- The circulant product of the row kernel with the transformed columns and points of a setup gives
every quotient at the setup. -/
theorem product_quotients (hv : IsPrimitiveRoot v (2 * n)) (hsize : ((2 * n : ℕ) : F) ≠ 0)
    (hℓ : 0 < ℓ) (hn : 0 < n) {f : F[X]} (hf : f.degree < (ℓ * n : ℕ)) (τ : F) (G : M) {a : ℕ}
    (ha : a < 2 * n) :
    product (2 * n) (rowKernel v n) (fun j => ∑ i ∈ range ℓ, dft v (2 * n) (column ℓ n f.coeff i) j •
      dft v (2 * n) (points ℓ n (fun t => τ ^ t • G) i) j) a =
        (f /ₘ (X ^ ℓ - C (v ^ a))).eval τ • G := by
  rw [product_rowKernel hv hn _ ha, eval_quotient hℓ hf]
  exact sum_congr rfl fun k hk => by
    rw [dft_inv_sum_column hv hsize f.coeff (fun t => τ ^ t • G) (mem_range.mp hk)]

theorem column_congr {f g : ℕ → F} {i : ℕ} (h : ∀ q < ℓ * n, f q = g q) (hpos : 0 < ℓ * n) :
    column ℓ n f i = column ℓ n g i := by
  funext a
  unfold column
  simp only [h (ℓ * n - 1 - i) (by omega), h (ℓ * n - 1 - i - (2 * n - a) * ℓ) (by omega)]

end Quotients

end Toeplitz
