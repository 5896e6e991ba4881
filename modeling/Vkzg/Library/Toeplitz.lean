import Vkzg.Library.Circulant
import Vkzg.Library.Dft

/-! Circulant products through transforms, and the Toeplitz products of a polynomial with a setup
that they embed: one column and one vector of points for each residue modulo the cell size. -/

namespace Toeplitz
open Finset Fourier Circulant

variable {R M : Type*} [CommRing R] [AddCommGroup M] [Module R M]

/-! ### Circulants and transforms -/

section Transform
variable {n : ℕ}

theorem sum_range_cast [NeZero n] (g : ZMod n → M) : ∑ a ∈ range n, g a = ∑ z, g z := by
  refine sum_nbij' (fun a : ℕ => (a : ZMod n)) ZMod.val ?_ ?_ ?_ ?_ ?_
  · exact fun a _ => mem_univ _
  · exact fun z _ => mem_range.mpr z.val_lt
  · exact fun a ha => ZMod.val_cast_of_lt (mem_range.mp ha)
  · exact fun z _ => ZMod.natCast_zmod_val z
  · exact fun a _ => rfl

/-- The character `z ↦ w ^ (z * k)`, where `w` has order dividing `n`. -/
theorem pow_val_add {w : R} (hw : w ^ n = 1) [NeZero n] (y z : ZMod n) (k : ℕ) :
    w ^ ((y + z).val * k) = w ^ (y.val * k) * w ^ (z.val * k) := by
  rw [ZMod.val_add, pow_mul, ← pow_eq_pow_mod _ hw, pow_add, mul_pow, pow_mul, pow_mul]

theorem dft_cast [NeZero n] (w : R) (x : ZMod n → M) (k : ℕ) :
    dft w n (fun a => x a) k = ∑ z : ZMod n, w ^ (z.val * k) • x z := by
  rw [← sum_range_cast, dft]
  refine sum_congr rfl fun a ha => ?_
  rw [ZMod.val_cast_of_lt (mem_range.mp ha)]

/-- The transform of a circulant product is the product of the transforms. -/
theorem dft_product {w : R} (hw : w ^ n = 1) [NeZero n] (K : ZMod n → R) (x : ℕ → M) (k : ℕ) :
    dft w n (product n K x) k = dft w n (fun a => K a) k • dft w n x k := by
  have hshift : ∀ j : ZMod n, ∑ z : ZMod n, w ^ (z.val * k) * K (z - j) =
      w ^ (j.val * k) * dft w n (fun a => K a) k := by
    intro j
    rw [dft_cast, mul_sum]
    refine Fintype.sum_equiv (Equiv.subRight j) _ _ fun z => ?_
    rw [Equiv.subRight_apply, smul_eq_mul, ← mul_assoc, ← pow_val_add hw, add_sub_cancel]
  calc dft w n (product n K x) k
      = ∑ j ∈ range n, (∑ a ∈ range n, w ^ (a * k) * K (a - j)) • x j := by
        simp only [dft, product, smul_sum, smul_smul, sum_smul]
        exact sum_comm
    _ = ∑ j ∈ range n, (w ^ (j * k) * dft w n (fun a => K a) k) • x j := by
        refine sum_congr rfl fun j hj => ?_
        have hcast := dft_cast w (fun z : ZMod n => K (z - j)) k
        simp only [dft, smul_eq_mul] at hcast
        rw [hcast, hshift, ZMod.val_cast_of_lt (mem_range.mp hj), dft]
    _ = dft w n (fun a => K a) k • dft w n x k := by
        rw [dft, dft, smul_sum]
        exact sum_congr rfl fun j _ => by rw [mul_comm, mul_smul]

end Transform

theorem dft_inv_smul {F : Type*} [Field F] [Module F M] {w : F} {n : ℕ} (hw : IsPrimitiveRoot w n)
    (hn : (n : F) ≠ 0) (K : ZMod n → F) (x : ℕ → M) {m : ℕ} (hm : m < n) :
    (n : F)⁻¹ • dft w⁻¹ n (fun j => dft w n (fun a => K a) j • dft w n x j) m =
      product n K x m := by
  have : NeZero n := ⟨by omega⟩
  rw [dft_congr (fun j _ => (dft_product hw.pow_eq_one K x j).symm), dft_inv_dft hw _ hm,
    inv_smul_smul₀ hn]

/-! ### The embedding -/

section Embedding
variable {ℓ n : ℕ}

/-- Column `i` of a polynomial of `n` cells of `ℓ` coefficients: the coefficients that meet a point
of residue `i`, highest first, with the lower ones at the end. -/
def column (ℓ n : ℕ) (f : ℕ → R) (i a : ℕ) : R :=
  let d := ℓ * n - 1
  if a = 0 then f (d - i) else if n + 2 ≤ a then f (d - i - (2 * n - a) * ℓ) else 0

/-- The points of residue `i`, highest first, with as many zeros. -/
def points (ℓ n : ℕ) (S : ℕ → M) (i s : ℕ) : M :=
  if s + 2 ≤ n then S (ℓ * (n - 1) - 1 - i - ℓ * s) else 0

theorem column_zero (f : ℕ → R) (i : ℕ) : column ℓ n f i 0 = f (ℓ * n - 1 - i) := by
  simp only [column, if_true]

theorem column_sub (f : ℕ → R) (i : ℕ) {t : ℕ} (ht : 0 < t) (htn : t + 2 ≤ n) :
    column ℓ n f i (2 * n - t) = f (ℓ * n - 1 - i - t * ℓ) := by
  simp only [column, if_neg (show ¬2 * n - t = 0 by omega), if_pos (show n + 2 ≤ 2 * n - t by omega)]
  rw [show 2 * n - (2 * n - t) = t by omega]

theorem column_eq_zero (f : ℕ → R) (i : ℕ) {a : ℕ} (ha : 0 < a) (han : a < n + 2) :
    column ℓ n f i a = 0 := by
  simp only [column, if_neg (show ¬a = 0 by omega), if_neg (show ¬n + 2 ≤ a by omega)]

/-- The entry of a column that row `m` has at point `s`: it wraps around when `m < s`. -/
theorem column_val_sub (f : ℕ → R) (i : ℕ) {m s : ℕ} (hm : m < n) (hs : s + 2 ≤ n) :
    column ℓ n f i ((m : ZMod (2 * n)) - s).val =
      if m ≤ s then f (ℓ * n - 1 - i - (s - m) * ℓ) else 0 := by
  have : NeZero (2 * n) := ⟨by omega⟩
  rcases lt_trichotomy m s with hlt | rfl | hgt
  · have hwrap : (m : ZMod (2 * n)) - s = (2 * n - (s - m) : ℕ) := by
      rw [Nat.cast_sub (by omega), Nat.cast_sub hlt.le, ZMod.natCast_self]
      ring
    rw [hwrap, ZMod.val_cast_of_lt (by omega), column_sub f i (by omega) (by omega), if_pos hlt.le]
  · rw [sub_self, ZMod.val_zero, column_zero, if_pos le_rfl, Nat.sub_self, Nat.zero_mul, Nat.sub_zero]
  · rw [← Nat.cast_sub hgt.le, ZMod.val_cast_of_lt (by omega),
      column_eq_zero f i (by omega) (by omega), if_neg (by omega)]

theorem product_column (f : ℕ → R) (S : ℕ → M) (i : ℕ) {m : ℕ} (hm : m < n) :
    product (2 * n) (fun z => column ℓ n f i z.val) (points ℓ n S i) m =
      ∑ q ∈ range (n - 1 - m),
        f (ℓ * n - 1 - i - q * ℓ) • S (ℓ * (n - 1) - 1 - i - ℓ * (m + q)) := by
  have hterm : ∀ s : ℕ, column ℓ n f i ((m : ZMod (2 * n)) - s).val • points ℓ n S i s =
      if m ≤ s ∧ s + 2 ≤ n then
        f (ℓ * n - 1 - i - (s - m) * ℓ) • S (ℓ * (n - 1) - 1 - i - ℓ * s) else 0 := by
    intro s
    by_cases hs : s + 2 ≤ n
    · rw [column_val_sub f i hm hs, points, if_pos hs]
      by_cases hms : m ≤ s
      · rw [if_pos hms, if_pos ⟨hms, hs⟩]
      · rw [if_neg hms, if_neg fun h => hms h.1, zero_smul]
    · rw [points, if_neg hs, if_neg fun h => hs h.2, smul_zero]
  rw [product, sum_congr rfl fun s _ => hterm s, ← sum_filter]
  refine (sum_nbij (m + ·) ?_ ?_ ?_ ?_).symm
  · intro q hq
    rw [mem_range] at hq
    rw [mem_filter, mem_range]
    omega
  · exact fun q _ q' _ h => Nat.add_left_cancel h
  · intro s hs
    rw [mem_coe, mem_filter, mem_range] at hs
    exact ⟨s - m, mem_coe.mpr (mem_range.mpr (by omega)), by simp only; omega⟩
  · intro q _
    rw [Nat.add_sub_cancel_left]

/-- The columns together: row `m` of the Toeplitz product, shifted by `m + 1` cells. -/
theorem sum_product_column (f : ℕ → R) (S : ℕ → M) {m : ℕ} (hm : m < n) :
    ∑ i ∈ range ℓ, product (2 * n) (fun z => column ℓ n f i z.val) (points ℓ n S i) m =
      ∑ t ∈ range (ℓ * (n - 1 - m)), f (t + ℓ * (m + 1)) • S t := by
  have hindex : ∀ p < n - 1 - m, ∀ r < ℓ,
      ℓ * n - 1 - (ℓ - 1 - r) - (n - 1 - m - 1 - p) * ℓ = p * ℓ + r + ℓ * (m + 1) ∧
        ℓ * (n - 1) - 1 - (ℓ - 1 - r) - ℓ * (m + (n - 1 - m - 1 - p)) = p * ℓ + r := by
    intro p hp r hr
    obtain ⟨c, rfl⟩ : ∃ c, n = m + p + c + 2 := ⟨n - m - p - 2, by omega⟩
    obtain ⟨e, rfl⟩ : ∃ e, ℓ = r + e + 1 := ⟨ℓ - r - 1, by omega⟩
    rw [show m + p + c + 2 - 1 - m - 1 - p = c by omega, show r + e + 1 - 1 - r = e by omega]
    constructor
    · rw [Nat.sub_sub, Nat.sub_sub]
      exact Nat.sub_eq_of_eq_add (by ring)
    · rw [Nat.sub_sub, Nat.sub_sub]
      exact Nat.sub_eq_of_eq_add (by rw [show m + p + c + 2 - 1 = m + p + c + 1 by omega]; ring)
  rw [Nat.mul_comm ℓ (n - 1 - m), sum_range_mul, sum_congr rfl fun i _ => product_column f S i hm,
    sum_comm, ← sum_range_reflect]
  refine sum_congr rfl fun p hp => ?_
  rw [← sum_range_reflect]
  refine sum_congr rfl fun r hr => ?_
  obtain ⟨hf, hS⟩ := hindex p (mem_range.mp hp) r (mem_range.mp hr)
  rw [hf, hS]

/-- Transformed, multiplied, summed over the columns and transformed back: the Toeplitz product. -/
theorem dft_inv_sum_column {F : Type*} [Field F] [Module F M] {w : F}
    (hw : IsPrimitiveRoot w (2 * n)) (hn : ((2 * n : ℕ) : F) ≠ 0) (f : ℕ → F) (S : ℕ → M) {m : ℕ}
    (hm : m < n) :
    ((2 * n : ℕ) : F)⁻¹ • dft w⁻¹ (2 * n) (fun j => ∑ i ∈ range ℓ,
      dft w (2 * n) (column ℓ n f i) j • dft w (2 * n) (points ℓ n S i) j) m =
        ∑ t ∈ range (ℓ * (n - 1 - m)), f (t + ℓ * (m + 1)) • S t := by
  rw [← sum_dft, smul_sum, ← sum_product_column f S hm]
  refine sum_congr rfl fun i _ => ?_
  rw [← dft_inv_smul hw hn _ _ (show m < 2 * n by omega)]
  congr 1
  refine dft_congr (fun j _ => ?_) m
  congr 1
  exact dft_congr (fun a ha => by rw [ZMod.val_cast_of_lt ha]) j

end Embedding

end Toeplitz
