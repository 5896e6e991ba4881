import Vkzg.Host.Compute
import Vkzg.Library.Quotients
import Vkzg.Shaders.Generator

/-! The proofs of a batch: over the tables of a setup the bytes of each cell are the encoding of the
quotient of the blob's polynomial at the setup. -/

namespace Vkzg
open Radix Gpu Gpu.Kernel Polynomial Fourier BitReversal Toeplitz

/-! ### The tables of a setup -/

/-- The point of the position table for output `j` and term `i`, over the setup `τ ^ t • G`. -/
def setupPoint (w τ : ScalarField) (G : ScalarPoint) (j i : ℕ) : ScalarPoint :=
  ∑ s ∈ Finset.range 63, w ^ (64 * j * s) • τ ^ (4031 - i - 64 * s) • G

/-- The kernel that the lists of phase B encode. -/
noncomputable def cosetKernel (w : ScalarField) (z : ZMod circulantSize) : ScalarField :=
  ((128 : ℕ) : ScalarField)⁻¹ * ∑ k ∈ Finset.range 64, w ^ (64 * k * z.val)

theorem setupPoint_eq (w τ : ScalarField) (G : ScalarPoint) (j i : ℕ) :
    setupPoint w τ G j i = dft (w ^ 64) 128 (points 64 64 (fun t => τ ^ t • G) i) j := by
  have hlow : ∀ s ∈ Finset.range 63, (w ^ 64) ^ (s * j) • points 64 64 (fun t => τ ^ t • G) i s =
      w ^ (64 * j * s) • τ ^ (4031 - i - 64 * s) • G := fun s hs => by
    rw [points, if_pos (by have := Finset.mem_range.mp hs; omega), ← pow_mul, Nat.mul_comm s,
      ← Nat.mul_assoc]
  have hhigh : ∀ s ∈ Finset.range 65,
      (w ^ 64) ^ ((63 + s) * j) • points 64 64 (fun t => τ ^ t • G) i (63 + s) = 0 := fun s _ => by
    rw [points, if_neg (by omega), smul_zero]
  rw [dft, show 128 = 63 + 65 from rfl, Finset.sum_range_add, Finset.sum_congr rfl hlow,
    Finset.sum_congr rfl hhigh, Finset.sum_const_zero, add_zero, setupPoint]

theorem cosetKernel_eq (w : ScalarField) : cosetKernel w = rowKernel (w ^ 64) 64 := by
  funext z
  unfold cosetKernel rowKernel
  simp only [← pow_mul, ← Nat.mul_assoc]

/-! ### The polynomial of a blob -/

def blobValue (blobs : Bytes) (b i : ℕ) : ScalarField :=
  ((elementValue blobs (b * fieldElementsPerBlob + i) : ℕ) : ScalarField)

/-- The polynomial through the elements of a blob. -/
noncomputable def blobPoly (w : ScalarField) (blobs : Bytes) (b : ℕ) : ScalarField[X] :=
  Lagrange.interpolate (Finset.range fieldElementsPerBlob) (fun i => w ^ (2 * brev i 12))
    (blobValue blobs b)

section Polynomial
variable {w : ScalarField} {blobs : Bytes} {b : ℕ}

theorem isPrimitiveRoot_sq (hw : IsPrimitiveRoot w 8192) : IsPrimitiveRoot (w ^ 2) 4096 :=
  hw.pow (by decide) (by decide)

theorem blobPoints_injOn (hw : IsPrimitiveRoot w 8192) : Set.InjOn (fun i => w ^ (2 * brev i 12))
    (Finset.range fieldElementsPerBlob : Set ℕ) := by
  intro i hi j hj h
  have hi := Finset.mem_range.mp hi
  have hj := Finset.mem_range.mp hj
  simp only [pow_mul] at h
  have hrev := (isPrimitiveRoot_sq hw).pow_inj (brev_lt (L := 12) (by decide))
    (brev_lt (L := 12) (by decide)) h
  rw [← brev_brev (show 12 ≤ 32 by decide) hi, hrev, brev_brev (by decide) hj]

theorem degree_blobPoly (hw : IsPrimitiveRoot w 8192) :
    (blobPoly w blobs b).degree < (4096 : ℕ) := by
  have hdeg := Lagrange.degree_interpolate_lt (blobValue blobs b) (blobPoints_injOn hw)
  rwa [Finset.card_range] at hdeg

theorem eval_blobPoly (hw : IsPrimitiveRoot w 8192) {i : ℕ} (hi : i < fieldElementsPerBlob) :
    (blobPoly w blobs b).eval (w ^ (2 * brev i 12)) = blobValue blobs b i := by
  have heval := Lagrange.eval_interpolate_at_node (blobValue blobs b) (blobPoints_injOn hw)
    (Finset.mem_range.mpr hi)
  exact heval

theorem eq_blobPoly (hw : IsPrimitiveRoot w 8192) {g : ScalarField[X]} (hg : g.degree < (4096 : ℕ))
    (heval : ∀ i < fieldElementsPerBlob, g.eval (w ^ (2 * brev i 12)) = blobValue blobs b i) :
    g = blobPoly w blobs b := by
  refine Lagrange.eq_interpolate_of_eval_eq _ (blobPoints_injOn hw) ?_ fun i hi =>
    heval i (Finset.mem_range.mp hi)
  rwa [Finset.card_range]

theorem blobCoeff_eq (hw : IsPrimitiveRoot w 8192) {q : ℕ} (hq : q < 4096) :
    blobCoeff w blobs b q = (blobPoly w blobs b).coeff q := by
  have hvalue : ∀ k < 4096, blobValue blobs b (brev k 12) =
      (blobPoly w blobs b).eval ((w ^ 2) ^ k) := fun k hk => by
    have heval := @eval_blobPoly w blobs b hw (brev k 12) (brev_lt (L := 12) (by decide))
    rw [brev_brev (by decide) hk, pow_mul] at heval
    exact heval.symm
  have hsize : ((4096 : ℕ) : ScalarField) ≠ 0 := natCast_ne_zero_of_lt (by decide) (by decide)
  have hcoeff := Erasure.inv_dft_eval (isPrimitiveRoot_sq hw) hsize (degree_blobPoly hw) hvalue hq
  rw [blobCoeff, mul_comm, inv_pow]
  exact hcoeff

end Polynomial

/-! ### The proofs -/

/-- The quotient of the blob's polynomial by the vanishing polynomial of the cell, at the setup. -/
theorem proofPoint_eq {w : ScalarField} (hw : IsPrimitiveRoot w 8192) (τ : ScalarField)
    (G : ScalarPoint) (blobs : Bytes) (b : ℕ) {a : ℕ} (ha : a < circulantSize) :
    proofPoint w (setupPoint w τ G) (cosetKernel w) blobs b a =
      (blobPoly w blobs b /ₘ (X ^ 64 - C (w ^ (64 * a)))).eval τ • G := by
  have hroot : IsPrimitiveRoot (w ^ 64) (2 * 64) := hw.pow (by decide) (by decide)
  have hsize : ((2 * 64 : ℕ) : ScalarField) ≠ 0 := natCast_ne_zero_of_lt (by decide) (by decide)
  have hcolumn : ∀ i, column 64 64 (blobCoeff w blobs b) i =
      column 64 64 (blobPoly w blobs b).coeff i := fun i =>
    column_congr (fun q hq => blobCoeff_eq hw hq) (by decide)
  have hpoints : columnPoint w (setupPoint w τ G) blobs b = fun j => ∑ i ∈ Finset.range 64,
      dft (w ^ 64) (2 * 64) (column 64 64 (blobPoly w blobs b).coeff i) j •
        dft (w ^ 64) (2 * 64) (points 64 64 (fun t => τ ^ t • G) i) j := by
    funext j
    rw [columnPoint]
    exact Finset.sum_congr rfl fun i _ => by rw [setupPoint_eq, hcolumn]
  have hquotients := product_quotients hroot hsize (show 0 < 64 by decide) (show 0 < 64 by decide)
    (@degree_blobPoly w blobs b hw) τ G ha
  rw [proofPoint, hpoints, cosetKernel_eq, pow_mul]
  exact hquotients

/-- Over the tables of a setup the bytes at each cell encode the quotient at the setup of the one
polynomial with the blob's elements as values, by the vanishing polynomial of the cell. -/
theorem computeBatch_proofs {w : ScalarField} (hw : IsPrimitiveRoot w 8192) (τ : ScalarField)
    (G : ScalarPoint) {p : Prover} {m : Mem}
    (hloaded : Loaded w (setupPoint w τ G) (cosetKernel w) p m) {u : ℕ → ℕ} {batch : ℕ}
    (hu : ExactIndices u batch) {s : Schedule} (hs : s.submission = .completed) (proofs : Bytes)
    (off : ℕ) (blobs : Bytes) (hcanonical : ∀ b < batch, Canonical blobs b) :
    let r := computeBatch u s p m proofs off blobs batch
    r.1 = .ok ∧ ∀ b < batch, ∃ f : ScalarField[X], f.degree < (4096 : ℕ) ∧
      (∀ i < 4096, f.eval (w ^ (2 * brev i 12)) = blobValue blobs b i) ∧
      (∀ g : ScalarField[X], g.degree < (4096 : ℕ) →
        (∀ i < 4096, g.eval (w ^ (2 * brev i 12)) = blobValue blobs b i) → g = f) ∧
      ∀ c < circulantSize, ∀ k < bytesPerProof,
        r.2.1 (off + ((b * circulantSize + c) * bytesPerProof + k)) = compressed
          (((f /ₘ (X ^ 64 - C (w ^ (64 * brev c 7)))).eval τ • G : ScalarPoint) : Point) k := by
  intro r
  obtain ⟨m', hbatch, -, hbytes⟩ := @computeBatch_eq w _ _ u p s m batch off proofs blobs hw hloaded
    hu hs
  have hr : r = _ := hbatch
  rw [if_pos hcanonical] at hr
  refine ⟨by rw [hr], fun b hb => ⟨blobPoly w blobs b, degree_blobPoly hw,
    fun i hi => eval_blobPoly hw hi, fun g hg heval => eq_blobPoly hw hg heval,
    fun c hc k hk => ?_⟩⟩
  have hlt : (b * circulantSize + c) * bytesPerProof + k < batch * circulantSize * bytesPerProof :=
    block_lt (block_lt hb hc) hk
  rw [hr]
  show memcpy proofs off (m' .proofBytes) (batch * circulantSize * bytesPerProof) _ = _
  rw [memcpy_hit hlt, hbytes b hb c hc k hk,
    proofPoint_eq hw τ G blobs b (brev_lt (L := 7) (by decide))]

/-! ### A blob over the generator -/

/-- The bytes of the values of a polynomial on the extended domain. They begin with its blob. -/
noncomputable def extended (w : ScalarField) (f : ScalarField[X]) : Bytes := fun i =>
  bigEndianByte 32 (f.eval (w ^ brev (i / 32) 13)).val (i % 32)

theorem elementValue_extended (w : ScalarField) (f : ScalarField[X]) (n : ℕ) :
    elementValue (extended w f) n = (f.eval (w ^ brev n 13)).val := by
  have hbyte : ∀ k < 32, extended w f (n * 32 + k) =
      bigEndianByte 32 (f.eval (w ^ brev n 13)).val k := fun k hk => by
    rw [extended, block_div hk, Nat.mul_add_mod_of_lt hk]
  rw [elementValue, bigEndian_congr hbyte, bigEndian_bigEndianByte]
  exact Nat.mod_eq_of_lt ((ZMod.val_lt _).trans (by decide))

theorem brev_low {i : ℕ} (hi : i < fieldElementsPerBlob) : brev i 13 = 2 * brev i 12 := by
  have hsplit := rev_add 12 1 i
  rw [Nat.div_eq_of_lt (show i < 2 ^ 12 from hi)] at hsplit
  rw [brev_eq (by decide), brev_eq (by decide), hsplit, Nat.mul_comm]
  rfl

theorem canonical_extended (w : ScalarField) (f : ScalarField[X]) :
    ∀ b < 1, Canonical (extended w f) b := fun b _ i _ => by
  rw [elementValue_extended]
  exact ZMod.val_lt _

theorem blobValue_extended (w : ScalarField) (f : ScalarField[X]) {i : ℕ}
    (hi : i < fieldElementsPerBlob) :
    blobValue (extended w f) 0 i = f.eval (w ^ (2 * brev i 12)) := by
  rw [blobValue, Nat.zero_mul, Nat.zero_add, elementValue_extended, brev_low hi,
    ZMod.natCast_zmod_val]

/-- The quotient of `X ^ 64` by the vanishing polynomial of any cell, and what is left of it. -/
theorem X_pow_div_mod (a : ScalarField) :
    (X ^ 64 : ScalarField[X]) /ₘ (X ^ 64 - C a) = 1 ∧ X ^ 64 %ₘ (X ^ 64 - C a) = C a := by
  refine div_modByMonic_unique 1 (C a) (monic_X_pow_sub_C a (by decide)) ⟨by ring, ?_⟩
  rw [degree_X_pow_sub_C (by decide)]
  exact degree_C_le.trans_lt (by decide)

theorem degree_X_pow_64 : (X ^ 64 : ScalarField[X]).degree < (4096 : ℕ) := by
  rw [degree_X_pow]
  exact_mod_cast (by decide : 64 < 4096)

/-- Over a setup that begins with the generator, every proof for the values of `X ^ 64` is it. -/
theorem computeBatch_proofs_generator : ∃ p m,
    Loaded rootOfUnity (setupPoint rootOfUnity 5 generator) (cosetKernel rootOfUnity) p m ∧
    let r := computeBatch uint32 undisturbed p m (fun _ => 0) 96 (extended rootOfUnity (X ^ 64)) 1
    r.1 = .ok ∧ ∀ c < circulantSize, ∀ k < bytesPerProof,
      r.2.1 (96 + ((0 * circulantSize + c) * bytesPerProof + k)) = compressed generatorPoint k := by
  obtain ⟨p, m, h, -⟩ := exists_loaded rootOfUnity (setupPoint rootOfUnity 5 generator)
    (cosetKernel rootOfUnity) none
  obtain ⟨hok, hproofs⟩ := computeBatch_proofs isPrimitiveRoot_rootOfUnity 5 generator h
    (exactIndices_uint32 (by decide)) (show undisturbed.submission = .completed from rfl) (fun _ => 0)
    96 (extended rootOfUnity (X ^ 64)) (canonical_extended _ _)
  refine ⟨p, m, h, hok, fun c hc k hk => ?_⟩
  obtain ⟨f, -, -, hunique, hbytes⟩ := hproofs 0 Nat.one_pos
  rw [hbytes c hc k hk, ← hunique (X ^ 64) degree_X_pow_64 fun i hi =>
    (blobValue_extended _ _ hi).symm, (X_pow_div_mod _).1, eval_one, one_smul]
  rfl

end Vkzg
