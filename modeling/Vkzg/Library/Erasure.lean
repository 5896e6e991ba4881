import Vkzg.Library.Dft
import Mathlib.LinearAlgebra.Lagrange
import Mathlib.Algebra.Polynomial.Expand

/-! Recovery of a polynomial from its values on part of a transform domain: multiply by a polynomial
that vanishes on the rest, and divide by it again on a coset where it has no root. -/

namespace Erasure
open Polynomial Fourier Finset

variable {F : Type*} [Field F]

/-! ### Transforms of polynomials -/

section Transform
variable {w : F} {n : ℕ} {p : F[X]}

theorem dft_coeff (hp : p.degree < n) (w : F) (k : ℕ) : dft w n p.coeff k = p.eval (w ^ k) := by
  rcases eq_or_ne p 0 with rfl | h0
  · simp [dft]
  · rw [eval_eq_sum_range' ((natDegree_lt_iff_degree_lt h0).mpr hp), dft]
    exact sum_congr rfl fun i _ => by rw [smul_eq_mul, mul_comm, ← pow_mul, mul_comm k]

theorem inv_dft_eval (hw : IsPrimitiveRoot w n) (hn : (n : F) ≠ 0) (hp : p.degree < n) {y : ℕ → F}
    (hy : ∀ k < n, y k = p.eval (w ^ k)) {i : ℕ} (hi : i < n) :
    dft w⁻¹ n y i * (n : F)⁻¹ = p.coeff i := by
  have hvalues : dft w⁻¹ n y i = dft w⁻¹ n (dft w n p.coeff) i :=
    dft_congr (fun k hk => by rw [hy k hk, dft_coeff hp]) i
  rw [hvalues, dft_inv_dft hw p.coeff hi, smul_eq_mul, mul_comm (n : F), mul_inv_cancel_right₀ hn]

theorem dft_coset (hp : p.degree < n) (w g : F) (k : ℕ) :
    dft w n (fun i => p.coeff i * g ^ i) k = p.eval (g * w ^ k) := by
  have hcoeff : (fun i => p.coeff i * g ^ i) = (p.comp (C g * X)).coeff :=
    funext fun i => (comp_C_mul_X_coeff).symm
  have hdeg : (p.comp (C g * X)).degree < n := by
    rw [degree_lt_iff_coeff_zero]
    intro i hi
    rw [comp_C_mul_X_coeff, coeff_eq_zero_of_degree_lt (lt_of_lt_of_le hp (by exact_mod_cast hi)),
      zero_mul]
  rw [hcoeff, dft_coeff hdeg, eval_comp, eval_mul, eval_C, eval_X]

end Transform

/-! ### Recovery -/

/-- The steps of recovery, given forward and backward transforms, the scale of the backward one, and
the powers that shift to a coset and back. -/
def recover (fwd bwd : (ℕ → F) → ℕ → F) (scale : F) (shift unshift z x : ℕ → F) : ℕ → F :=
  let product := fun k => x k * fwd z k
  let coeff := fun i => bwd product i * scale
  let quotient := fun k => fwd (fun i => coeff i * shift i) k * (fwd (fun i => z i * shift i) k)⁻¹
  fwd fun i => bwd quotient i * scale * unshift i

/-- Recovery returns the values of a polynomial whose product with the vanishing polynomial fits the
domain, when each point is known or a root of the vanishing polynomial. -/
theorem recover_eq {fwd bwd : (ℕ → F) → ℕ → F} {w g : F} {n : ℕ} (hw : IsPrimitiveRoot w n)
    (hn : (n : F) ≠ 0) (hfwd : ∀ x, ∀ k < n, fwd x k = dft w n x k)
    (hbwd : ∀ x, ∀ k < n, bwd x k = dft w⁻¹ n x k) (hg : g ≠ 0) {Z P : F[X]}
    (hZ : Z.degree < n) (hP : P.degree < n) (hPZ : (P * Z).degree < n)
    (hcoset : ∀ k < n, Z.eval (g * w ^ k) ≠ 0) {z x : ℕ → F} (hz : ∀ i < n, z i = Z.coeff i)
    (hx : ∀ k < n, Z.eval (w ^ k) = 0 ∨ x k = P.eval (w ^ k)) {k : ℕ} (hk : k < n) :
    recover fwd bwd (n : F)⁻¹ (fun i => g ^ i) (fun i => g⁻¹ ^ i) z x k = P.eval (w ^ k) := by
  have hzEval : ∀ k < n, fwd z k = Z.eval (w ^ k) := fun k hk => by
    rw [hfwd z k hk, dft_congr hz, dft_coeff hZ]
  have hproduct : ∀ k < n, x k * fwd z k = (P * Z).eval (w ^ k) := fun k hk => by
    rw [hzEval k hk, eval_mul]
    rcases hx k hk with h | h
    · rw [h, mul_zero, mul_zero]
    · rw [h]
  have hcoeff : ∀ i < n, bwd (fun k => x k * fwd z k) i * (n : F)⁻¹ = (P * Z).coeff i :=
    fun i hi => by rw [hbwd _ i hi, inv_dft_eval hw hn hPZ hproduct hi]
  have hquotient : ∀ k < n, fwd (fun i => bwd (fun k => x k * fwd z k) i * (n : F)⁻¹ * g ^ i) k *
      (fwd (fun i => z i * g ^ i) k)⁻¹ = (P.comp (C g * X)).eval (w ^ k) := fun k hk => by
    rw [hfwd _ k hk, hfwd _ k hk, dft_congr fun i hi => by rw [hcoeff i hi],
      dft_congr (x := fun i => z i * g ^ i) fun i hi => by rw [hz i hi], dft_coset hPZ,
      dft_coset hZ, eval_mul, mul_inv_cancel_right₀ (hcoset k hk), eval_comp, eval_mul, eval_C,
      eval_X]
  have hdeg : (P.comp (C g * X)).degree < n := by
    rw [degree_lt_iff_coeff_zero]
    intro i hi
    rw [comp_C_mul_X_coeff, coeff_eq_zero_of_degree_lt (lt_of_lt_of_le hP (by exact_mod_cast hi)),
      zero_mul]
  rw [recover, hfwd _ k hk, ← dft_coeff hP]
  refine dft_congr (fun i hi => ?_) k
  rw [hbwd _ i hi, inv_dft_eval hw hn hdeg hquotient hi, comp_C_mul_X_coeff, inv_pow,
    mul_inv_cancel_right₀ (pow_ne_zero i hg)]

/-! ### The vanishing polynomial -/

/-- The product of `X ^ s - a` over a list of values. -/
noncomputable def vanishing (s : ℕ) (r : List F) : F[X] :=
  expand F s (r.map fun a => X - C a).prod

theorem vanishing_eq_prod (s : ℕ) (r : List F) :
    vanishing s r = (r.map fun a => X ^ s - C a).prod := by
  rw [vanishing, map_list_prod, List.map_map]
  refine congrArg List.prod (List.map_congr_left fun a _ => ?_)
  rw [Function.comp_apply, map_sub, expand_X, expand_C]

theorem eval_vanishing (s : ℕ) (r : List F) (x : F) :
    (vanishing s r).eval x = (r.map fun a => x ^ s - a).prod := by
  rw [vanishing, expand_eval, ← coe_evalRingHom, map_list_prod, List.map_map]
  simp [Function.comp_def]

theorem eval_vanishing_eq_zero {s : ℕ} {r : List F} {x : F} :
    (vanishing s r).eval x = 0 ↔ x ^ s ∈ r := by
  rw [eval_vanishing, List.prod_eq_zero_iff, List.mem_map]
  simp [sub_eq_zero]

theorem monic_factors (r : List F) : (r.map fun a => X - C a).prod.Monic := by
  induction r with
  | nil => exact monic_one
  | cons a r ih =>
    rw [List.map_cons, List.prod_cons]
    exact (monic_X_sub_C a).mul ih

theorem natDegree_factors (r : List F) : (r.map fun a => X - C a).prod.natDegree = r.length := by
  induction r with
  | nil => simp
  | cons a r ih =>
    rw [List.map_cons, List.prod_cons, (monic_X_sub_C a).natDegree_mul (monic_factors r), ih,
      natDegree_X_sub_C, List.length_cons, Nat.add_comm]

theorem degree_vanishing {s : ℕ} (hs : 0 < s) (r : List F) :
    (vanishing s r).degree = (r.length * s : ℕ) := by
  have hmonic : (vanishing s r).Monic := (monic_factors r).expand hs
  rw [degree_eq_natDegree hmonic.ne_zero, vanishing, natDegree_expand, natDegree_factors]

/-! ### Long multiplication in place -/

/-- One factor `X - a` multiplied into `i` low coefficients with an implicit leading one, given
`-a`, from the top down. -/
def mulFactor {K : Type*} (add mul : K → K → K) (sp : ℕ → K) (i : ℕ) (neg : K) : ℕ → K :=
  let sp := Function.update sp i (add neg (sp (i - 1)))
  let sp := (List.range' 1 (i - 1)).reverse.foldl
    (fun sp j => Function.update sp j (add (mul (sp j) neg) (sp (j - 1)))) sp
  Function.update sp 0 (mul (sp 0) neg)

section MulFactor
variable {K : Type*}

/-- Walking down, each entry still sees the old value below it. -/
theorem foldl_down (f : K → K → K) (sp : ℕ → K) (n k : ℕ) :
    (List.range' 1 n).reverse.foldl (fun sp j => Function.update sp j (f (sp j) (sp (j - 1)))) sp k =
      if 1 ≤ k ∧ k ≤ n then f (sp k) (sp (k - 1)) else sp k := by
  induction n generalizing sp with
  | zero => simp [show ¬(1 ≤ k ∧ k = 0) by omega]
  | succ n ih =>
    rw [List.range'_1_concat, List.reverse_append, List.reverse_singleton, List.singleton_append,
      List.foldl_cons, ih, Nat.add_comm 1 n, Nat.add_sub_cancel]
    rcases Nat.lt_trichotomy k (n + 1) with hlt | rfl | hgt
    · rw [Function.update_of_ne (by omega), Function.update_of_ne (by omega)]
      simp only [show (1 ≤ k ∧ k ≤ n) ↔ (1 ≤ k ∧ k ≤ n + 1) by omega]
    · rw [if_neg (by omega), if_pos (by omega), Function.update_self, Nat.add_sub_cancel]
    · rw [if_neg (by omega), if_neg (by omega), Function.update_of_ne (by omega)]

theorem mulFactor_apply (add mul : K → K → K) (sp : ℕ → K) {i : ℕ} (hi : 0 < i) (neg : K) (k : ℕ) :
    mulFactor add mul sp i neg k =
      if k = 0 then mul (sp 0) neg
      else if k < i then add (mul (sp k) neg) (sp (k - 1))
      else if k = i then add neg (sp (i - 1)) else sp k := by
  have hdown := foldl_down fun x y => add (mul x neg) y
  simp only [mulFactor]
  rcases Nat.eq_zero_or_pos k with rfl | hk
  · rw [Function.update_self, hdown, if_pos rfl, if_neg (by omega),
      Function.update_of_ne hi.ne]
  · rw [Function.update_of_ne hk.ne', hdown, if_neg hk.ne']
    rcases Nat.lt_trichotomy k i with hlt | rfl | hgt
    · rw [if_pos (by omega), if_pos hlt, Function.update_of_ne hlt.ne,
        Function.update_of_ne (by omega)]
    · rw [if_neg (by omega), Function.update_self, if_neg (Nat.lt_irrefl k), if_pos rfl]
    · rw [if_neg (by omega), Function.update_of_ne hgt.ne', if_neg (by omega), if_neg hgt.ne']

end MulFactor

/-- Multiplying one more factor in gives the low coefficients of the longer product. -/
theorem mulFactor_factors {r : List F} (hr : 0 < r.length) {sp : ℕ → F} (a : F)
    (hsp : ∀ k < r.length, sp k = (r.map fun a => X - C a).prod.coeff k) {k : ℕ}
    (hk : k < r.length + 1) :
    mulFactor (· + ·) (· * ·) sp r.length (-a) k =
      ((r ++ [a]).map fun a => X - C a).prod.coeff k := by
  have htop : (r.map fun a => X - C a).prod.coeff r.length = 1 := by
    have hmonic := monic_factors r
    rwa [Monic, leadingCoeff, natDegree_factors] at hmonic
  rw [mulFactor_apply _ _ _ hr, List.map_append, List.prod_append, List.map_singleton,
    List.prod_singleton]
  rcases k with - | k
  · rw [if_pos rfl, hsp 0 hr, mul_sub, coeff_sub, coeff_mul_X_zero, coeff_mul_C]
    ring
  · rw [if_neg (Nat.succ_ne_zero k), coeff_mul_X_sub_C, Nat.add_sub_cancel]
    rcases Nat.lt_or_eq_of_le (Nat.le_of_lt_succ hk) with hlt | heq
    · rw [if_pos hlt, hsp _ hlt, hsp k (by omega)]
      ring
    · rw [if_neg (by omega), if_pos heq, ← heq, Nat.add_sub_cancel, hsp k (by omega), heq, htop]
      ring

end Erasure
