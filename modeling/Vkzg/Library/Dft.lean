import Vkzg.Library.BitReversal
import Mathlib.Algebra.Module.BigOperators
import Mathlib.Algebra.Field.GeomSum
import Mathlib.RingTheory.RootsOfUnity.PrimitiveRoots

/-! Discrete Fourier transforms over a module: the four-step split, inversion, and the in-place
butterfly network on bit-reversed input. -/

namespace Fourier
open Finset BitReversal

variable {R M : Type*} [CommRing R] [AddCommGroup M] [Module R M]

/-- The transform of size `n` with kernel `w ^ (i * k)`. -/
def dft (w : R) (n : ℕ) (x : ℕ → M) (k : ℕ) : M := ∑ i ∈ range n, w ^ (i * k) • x i

theorem dft_congr {w : R} {n : ℕ} {x y : ℕ → M} (h : ∀ i < n, x i = y i) (k : ℕ) :
    dft w n x k = dft w n y k :=
  sum_congr rfl fun i hi => by rw [h i (mem_range.mp hi)]

theorem sum_dft {ι : Type*} (s : Finset ι) (w : R) (n : ℕ) (x : ι → ℕ → M) (k : ℕ) :
    ∑ j ∈ s, dft w n (x j) k = dft w n (fun i => ∑ j ∈ s, x j i) k := by
  simp only [dft]
  rw [sum_comm]
  exact sum_congr rfl fun i _ => smul_sum.symm

theorem sum_range_mul {N : Type*} [AddCommMonoid N] (f : ℕ → N) (a b : ℕ) :
    ∑ i ∈ range (a * b), f i = ∑ i ∈ range a, ∑ j ∈ range b, f (i * b + j) := by
  induction a with
  | zero => simp
  | succ a ih => rw [Nat.succ_mul, sum_range_add, ih, sum_range_succ]

/-- The four-step split of a transform of size `a * b`. -/
theorem dft_four_step {w : R} {a b : ℕ} (hw : w ^ (a * b) = 1) (x : ℕ → M) (k₁ k₂ : ℕ) :
    dft w (a * b) x (k₁ + k₂ * a) =
      dft (w ^ a) b (fun n₂ => w ^ (n₂ * k₁) • dft (w ^ b) a (fun n₁ => x (n₂ + n₁ * b)) k₁) k₂ := by
  simp only [dft, smul_sum, smul_smul]
  rw [sum_range_mul, sum_comm]
  refine sum_congr rfl fun n₂ _ => sum_congr rfl fun n₁ _ => ?_
  rw [Nat.add_comm (n₁ * b) n₂]
  congr 1
  have hexp : (n₂ + n₁ * b) * (k₁ + k₂ * a) =
      a * b * (n₁ * k₂) + (a * (n₂ * k₂) + (n₂ * k₁ + b * (n₁ * k₁))) := by ring
  rw [hexp, pow_add, pow_mul, hw, one_pow, one_mul, pow_add, pow_add, pow_mul, pow_mul w b]

theorem dft_add {w : R} {n : ℕ} (hw : w ^ n = 1) (x : ℕ → M) (k : ℕ) :
    dft w n x (k + n) = dft w n x k := by
  refine sum_congr rfl fun i _ => ?_
  rw [Nat.mul_add, pow_add, Nat.mul_comm i n, pow_mul w n, hw, one_pow, mul_one]

theorem dft_even_odd (w : R) (h : ℕ) (x : ℕ → M) (k : ℕ) :
    dft w (h * 2) x k =
      dft (w ^ 2) h (fun q => x (2 * q)) k + w ^ k • dft (w ^ 2) h (fun q => x (2 * q + 1)) k := by
  rw [dft, sum_range_mul, dft, dft, smul_sum, ← sum_add_distrib]
  refine sum_congr rfl fun i _ => ?_
  rw [sum_range_succ, sum_range_one, smul_smul, ← pow_mul, ← pow_add, Nat.mul_comm i 2, add_zero,
    Nat.mul_assoc, Nat.add_mul, Nat.mul_assoc, one_mul, Nat.add_comm k]

/-! ### Inversion -/

section Inversion
variable {F : Type*} [Field F] [Module F M]

theorem geom_sum_eq_zero_of_pow {z : F} {n : ℕ} (hz : z ^ n = 1) (h1 : z ≠ 1) :
    ∑ k ∈ range n, z ^ k = 0 := by
  have h := mul_neg_geom_sum z n
  rw [hz, sub_self] at h
  exact (mul_eq_zero.mp h).resolve_left (sub_ne_zero.mpr h1.symm)

/-- Transforming back with the inverse root multiplies by the size. -/
theorem dft_inv_dft {w : F} {n : ℕ} (hw : IsPrimitiveRoot w n) (x : ℕ → M) {j : ℕ} (hj : j < n) :
    dft w⁻¹ n (dft w n x) j = (n : F) • x j := by
  have hn : n ≠ 0 := by omega
  have hw0 : w ≠ 0 := hw.ne_zero hn
  simp only [dft, smul_sum, smul_smul]
  rw [sum_comm]
  have hterm : ∀ i ∈ range n, ∑ k ∈ range n, (w⁻¹ ^ (k * j) * w ^ (i * k)) • x i =
      if i = j then (n : F) • x j else 0 := by
    intro i hi
    have hpow : ∀ k, w⁻¹ ^ (k * j) * w ^ (i * k) = (w ^ i * w⁻¹ ^ j) ^ k := by
      intro k
      rw [mul_pow, ← pow_mul, ← pow_mul, Nat.mul_comm j k, mul_comm]
    simp only [hpow, ← sum_smul]
    split_ifs with hij
    · subst hij
      rw [← mul_pow, mul_inv_cancel₀ hw0]
      simp
    · rw [geom_sum_eq_zero_of_pow, zero_smul]
      · rw [mul_pow, ← pow_mul, ← pow_mul, Nat.mul_comm i, Nat.mul_comm j, pow_mul, pow_mul,
          inv_pow, hw.pow_eq_one]
        simp
      · intro hone
        rw [inv_pow, mul_inv_eq_one₀ (pow_ne_zero j hw0)] at hone
        exact hij (hw.pow_inj (mem_range.mp hi) hj hone)
  rw [sum_congr rfl hterm, sum_ite_eq' (range n) j, if_pos (mem_range.mpr hj)]

end Inversion

/-! ### Butterflies -/

/-- One stage of the network on blocks of `2 * half`, with twiddle `tw o` at offset `o`. -/
def stage (tw : ℕ → R) (half : ℕ) (x : ℕ → R) (i : ℕ) : R :=
  let o := i % (2 * half)
  if o < half then x i + tw o * x (i + half) else x (i - half) - tw (o - half) * x i

/-- All stages of a network on `2 ^ L` positions; stage `s` has its own twiddles. -/
def butterflies (tw : ℕ → ℕ → R) (L : ℕ) (x : ℕ → R) : ℕ → R :=
  (List.range L).foldl (fun t s => stage (tw s) (2 ^ s) t) x

theorem stage_low (tw : ℕ → R) {half o : ℕ} (ho : o < half) (x : ℕ → R) (blk : ℕ) :
    stage tw half x (blk * (2 * half) + o) =
      x (blk * (2 * half) + o) + tw o * x (blk * (2 * half) + o + half) := by
  rw [stage, Nat.mul_add_mod_of_lt (by omega)]
  simp only [if_pos ho]

theorem stage_high (tw : ℕ → R) {half o : ℕ} (ho : o < half) (x : ℕ → R) (blk : ℕ) :
    stage tw half x (blk * (2 * half) + o + half) =
      x (blk * (2 * half) + o) - tw o * x (blk * (2 * half) + o + half) := by
  rw [stage, add_assoc, Nat.mul_add_mod_of_lt (by omega)]
  simp only [if_neg (show ¬o + half < half by omega), ← add_assoc, Nat.add_sub_cancel]

theorem butterflies_succ (tw : ℕ → ℕ → R) (s : ℕ) (x : ℕ → R) :
    butterflies tw (s + 1) x = stage (tw s) (2 ^ s) (butterflies tw s x) := by
  rw [butterflies, List.range_succ, List.foldl_append]
  rfl

/-- A block of twice the size: the transforms of its halves are those of the even and the odd
inputs. -/
theorem stage_step {w : R} {s d : ℕ} (hneg : w ^ 2 ^ (d + s) = -1) {tw : ℕ → R}
    (htw : ∀ o < 2 ^ s, tw o = w ^ (o * 2 ^ d)) {t x : ℕ → R}
    (ht : ∀ blk < 2 ^ (d + 1), ∀ o < 2 ^ s, t (blk * 2 ^ s + o) =
      dft (w ^ 2 ^ (d + 1)) (2 ^ s) (fun q => x (rev (d + 1) blk + q * 2 ^ (d + 1))) o)
    {blk : ℕ} (hblk : blk < 2 ^ d) {o : ℕ} (ho : o < 2 ^ (s + 1)) :
    stage tw (2 ^ s) t (blk * 2 ^ (s + 1) + o) =
      dft (w ^ 2 ^ d) (2 ^ (s + 1)) (fun q => x (rev d blk + q * 2 ^ d)) o := by
  have hsq : (w ^ 2 ^ d) ^ 2 = w ^ 2 ^ (d + 1) := by rw [← pow_mul, ← pow_succ]
  have hone : (w ^ 2 ^ (d + 1)) ^ 2 ^ s = 1 := by
    rw [← pow_mul, ← pow_add, show d + 1 + s = d + s + 1 by omega, pow_succ, pow_mul, hneg]
    ring
  -- The halves of a block hold the transforms of its even and of its odd inputs.
  have heven : ∀ k, dft (w ^ 2 ^ (d + 1)) (2 ^ s) (fun q => x (rev d blk + 2 * q * 2 ^ d)) k =
      dft (w ^ 2 ^ (d + 1)) (2 ^ s)
        (fun q => x (rev (d + 1) (2 * blk) + q * 2 ^ (d + 1))) k := by
    refine dft_congr fun q _ => ?_
    rw [rev_two_mul, pow_succ]
    ring_nf
  have hodd : ∀ k, dft (w ^ 2 ^ (d + 1)) (2 ^ s) (fun q => x (rev d blk + (2 * q + 1) * 2 ^ d)) k =
      dft (w ^ 2 ^ (d + 1)) (2 ^ s)
        (fun q => x (rev (d + 1) (2 * blk + 1) + q * 2 ^ (d + 1))) k := by
    refine dft_congr fun q _ => ?_
    rw [rev_two_mul_add_one, pow_succ]
    ring_nf
  have hlo : ∀ k < 2 ^ s, t (blk * (2 * 2 ^ s) + k) =
      dft (w ^ 2 ^ (d + 1)) (2 ^ s) (fun q => x (rev d blk + 2 * q * 2 ^ d)) k := by
    intro k hk
    rw [heven, ← ht (2 * blk) (by rw [pow_succ]; omega) k hk]
    ring_nf
  have hhi : ∀ k < 2 ^ s, t (blk * (2 * 2 ^ s) + k + 2 ^ s) =
      dft (w ^ 2 ^ (d + 1)) (2 ^ s) (fun q => x (rev d blk + (2 * q + 1) * 2 ^ d)) k := by
    intro k hk
    rw [hodd, ← ht (2 * blk + 1) (by rw [pow_succ]; omega) k hk]
    ring_nf
  rw [pow_succ' 2 s] at ho ⊢
  rw [Nat.mul_comm 2 (2 ^ s), dft_even_odd, hsq, Nat.mul_comm (2 ^ s) 2]
  rcases Nat.lt_or_ge o (2 ^ s) with hlt | hge
  · rw [stage_low tw hlt, hlo o hlt, hhi o hlt, htw o hlt, Nat.mul_comm o, pow_mul, smul_eq_mul]
  · obtain ⟨k, rfl⟩ := Nat.exists_eq_add_of_le' hge
    have hk : k < 2 ^ s := by omega
    -- In the upper half the twiddle has the opposite sign.
    have htwid : (w ^ 2 ^ d) ^ (k + 2 ^ s) = -w ^ (k * 2 ^ d) := by
      rw [pow_add, ← pow_mul, ← pow_mul, ← pow_add 2 d s, hneg, Nat.mul_comm k, mul_neg_one]
    rw [← add_assoc, stage_high tw hk, hlo k hk, hhi k hk, htw k hk, dft_add hone, dft_add hone,
      htwid, smul_eq_mul, neg_mul, sub_eq_add_neg]

/-- After `s` stages every block of `2 ^ s` holds the transform of the inputs it started from. -/
theorem butterflies_block {w : R} {L : ℕ} (hneg : 0 < L → w ^ 2 ^ (L - 1) = -1) {tw : ℕ → ℕ → R}
    (htw : ∀ s < L, ∀ o < 2 ^ s, tw s o = w ^ (o * 2 ^ (L - 1 - s))) {x y : ℕ → R}
    (hload : ∀ i < 2 ^ L, y i = x (rev L i)) {s d : ℕ} (hs : d + s = L) :
    ∀ blk < 2 ^ d, ∀ o < 2 ^ s, butterflies tw s y (blk * 2 ^ s + o) =
      dft (w ^ 2 ^ d) (2 ^ s) (fun q => x (rev d blk + q * 2 ^ d)) o := by
  induction s generalizing d with
  | zero =>
    intro blk hblk o ho
    obtain rfl : o = 0 := by simpa using ho
    obtain rfl : d = L := hs
    simp [butterflies, dft, hload blk hblk]
  | succ s ih =>
    intro blk hblk o ho
    rw [butterflies_succ]
    have hd : L - 1 - s = d := by omega
    refine stage_step (by rw [← hneg (by omega)]; congr 2; omega) (fun o ho => ?_)
      (ih (d := d + 1) (by omega)) hblk ho
    rw [htw s (by omega) o ho, hd]

/-- The network on bit-reversed input computes the transform. -/
theorem butterflies_eq_dft {w : R} {L : ℕ} (hneg : 0 < L → w ^ 2 ^ (L - 1) = -1)
    {tw : ℕ → ℕ → R} (htw : ∀ s < L, ∀ o < 2 ^ s, tw s o = w ^ (o * 2 ^ (L - 1 - s)))
    {x y : ℕ → R} (hload : ∀ i < 2 ^ L, y i = x (rev L i)) {k : ℕ} (hk : k < 2 ^ L) :
    butterflies tw L y k = dft w (2 ^ L) x k := by
  have h := butterflies_block hneg htw hload (d := 0) (s := L) (zero_add L) 0 (by simp) k hk
  simpa [rev] using h

end Fourier
