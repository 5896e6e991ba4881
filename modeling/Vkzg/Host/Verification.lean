import Vkzg.Host.Calls
import Vkzg.Host.CellProofs
import Mathlib.Algebra.Module.LinearMap.Basic

/-! The two calls of the interface against a verifier of cell proofs: what a prover recovers extends a
blob, and the proofs it computes for the blob open the blob's commitment at every one of the cells. -/

namespace Vkzg
open Radix Gpu Polynomial Toeplitz BitReversal Chunks

/-! ### The verifier -/

/-- The commitment to the coefficients of a polynomial, over the setup `τ ^ t • G`. -/
noncomputable def commitment (τ : ScalarField) (G : ScalarPoint) (f : ScalarField[X]) : ScalarPoint :=
  ∑ t ∈ Finset.range 4096, f.coeff t • τ ^ t • G

/-- The value of element `e` of a cell. -/
def cellValue (cells : Bytes) (b c e : ℕ) : ScalarField :=
  ((elementValue cells ((b * circulantSize + c) * fieldElementsPerCell + e) : ℕ) : ScalarField)

/-- The polynomial of small degree through the elements of a cell. -/
noncomputable def cellPoly (w : ScalarField) (cells : Bytes) (b c : ℕ) : ScalarField[X] :=
  Lagrange.interpolate (Finset.range 64) (fun e => w ^ brev (64 * c + e) 13) (cellValue cells b c)

/-- The equation of a verifier: it pairs the proof with the setup's point of the cell's vanishing
polynomial, and what is left of the commitment with the generator `H`. -/
def VerifiesBy {M T : Type} [AddCommGroup M] [Module ScalarField M] [AddCommGroup T]
    [Module ScalarField T] (pairing : ScalarPoint →ₗ[ScalarField] M →ₗ[ScalarField] T) (H : M)
    (w τ : ScalarField) (G commit proof : ScalarPoint) (cells : Bytes) (b c : ℕ) : Prop :=
  pairing proof (τ ^ 64 • H - w ^ (64 * brev c 7) • H) =
    pairing (commit - commitment τ G (cellPoly w cells b c)) H

/-- The equation holds whatever the pairing is. -/
def CellVerifies (w τ : ScalarField) (G commit proof : ScalarPoint) (cells : Bytes) (b c : ℕ) : Prop :=
  ∀ (M T : Type) [AddCommGroup M] [Module ScalarField M] [AddCommGroup T] [Module ScalarField T]
    (pairing : ScalarPoint →ₗ[ScalarField] M →ₗ[ScalarField] T) (H : M),
    VerifiesBy pairing H w τ G commit proof cells b c

/-- The cells of a blob hold the values of a polynomial, as far as they are among `present`. -/
def CellsOf (w : ScalarField) (cells : Bytes) (b : ℕ) (present : Finset ℕ) (f : ScalarField[X]) : Prop :=
  ∀ c ∈ present, ∀ e < 64, cellValue cells b c e = f.eval (w ^ brev (64 * c + e) 13)

section Verifier
variable {w τ : ScalarField} {G : ScalarPoint} {cells : Bytes} {b c : ℕ} {f : ScalarField[X]}

theorem commitment_eq (hf : f.degree < (4096 : ℕ)) : commitment τ G f = f.eval τ • G := by
  rcases eq_or_ne f 0 with rfl | h0
  · simp [commitment]
  · rw [eval_eq_sum_range' ((natDegree_lt_iff_degree_lt h0).mpr hf), Finset.sum_smul, commitment]
    exact Finset.sum_congr rfl fun t _ => (mul_smul _ _ _).symm

theorem cellPoints_injOn (hw : IsPrimitiveRoot w 8192) (hc : c < circulantSize) :
    Set.InjOn (fun e => w ^ brev (64 * c + e) 13) (Finset.range 64 : Set ℕ) := by
  intro e he e' he' heq
  have he := Finset.mem_range.mp he
  have he' := Finset.mem_range.mp he'
  simp only [circulantSize] at hc
  have hexp := hw.pow_inj (brev_lt (L := 13) (by decide)) (brev_lt (L := 13) (by decide)) heq
  have hrev := congrArg (brev · 13) hexp
  simp only [brev_brev (show 13 ≤ 32 by decide) (show 64 * c + e < 2 ^ 13 by omega),
    brev_brev (show 13 ≤ 32 by decide) (show 64 * c + e' < 2 ^ 13 by omega)] at hrev
  omega

theorem degree_cellPoly (hw : IsPrimitiveRoot w 8192) (hc : c < circulantSize) :
    (cellPoly w cells b c).degree < (64 : ℕ) := by
  have h := Lagrange.degree_interpolate_lt (cellValue cells b c) (cellPoints_injOn hw hc)
  rwa [Finset.card_range] at h

/-- Dividing by the vanishing polynomial of a cell leaves the polynomial of the cell. -/
theorem mod_cellPoly (hw : IsPrimitiveRoot w 8192) (hc : c < circulantSize)
    (hcells : CellsOf w cells b {c} f) :
    f %ₘ (X ^ 64 - C (w ^ (64 * brev c 7))) = cellPoly w cells b c := by
  refine mod_eq (s := Finset.range 64) (by decide) (cellPoints_injOn hw hc) (Finset.card_range 64)
    (fun e he => point_pow hw (Finset.mem_range.mp he)) (degree_cellPoly hw hc) fun e he => ?_
  rw [← hcells c (Finset.mem_singleton_self c) e (Finset.mem_range.mp he)]
  have h := Lagrange.eval_interpolate_at_node (cellValue cells b c) (cellPoints_injOn hw hc) he
  exact h

section Pairing
variable {M T : Type} [AddCommGroup M] [Module ScalarField M] [AddCommGroup T]
  [Module ScalarField T] {pairing : ScalarPoint →ₗ[ScalarField] M →ₗ[ScalarField] T} {H : M}
  {commit proof : ScalarPoint}

theorem verifiesBy_iff_pairing : VerifiesBy pairing H w τ G commit proof cells b c ↔
    pairing ((τ ^ 64 - w ^ (64 * brev c 7)) • proof) H =
      pairing (commit - commitment τ G (cellPoly w cells b c)) H := by
  rw [VerifiesBy, ← sub_smul, map_smul, map_smul, LinearMap.smul_apply]

/-- A pairing that no point but infinity annihilates the generator in decides the equation. -/
theorem verifiesBy_iff (hpairing : ∀ P, pairing P H = 0 → P = 0) :
    VerifiesBy pairing H w τ G commit proof cells b c ↔
      (τ ^ 64 - w ^ (64 * brev c 7)) • proof = commit - commitment τ G (cellPoly w cells b c) := by
  rw [verifiesBy_iff_pairing]
  refine ⟨fun h => sub_eq_zero.mp (hpairing _ ?_), fun h => by rw [h]⟩
  rw [map_sub, LinearMap.sub_apply, h, sub_self]

end Pairing

/-- Scalars and points pair without degeneracy. -/
theorem lsmul_flip_one {P : ScalarPoint}
    (h : (LinearMap.lsmul ScalarField ScalarPoint).flip P 1 = 0) : P = 0 := by
  rwa [LinearMap.flip_apply, LinearMap.lsmul_apply, one_smul] at h

theorem cellVerifies_iff {commit proof : ScalarPoint} :
    CellVerifies w τ G commit proof cells b c ↔
      (τ ^ 64 - w ^ (64 * brev c 7)) • proof = commit - commitment τ G (cellPoly w cells b c) := by
  refine ⟨fun h => (verifiesBy_iff fun _ => lsmul_flip_one).mp (h _ _ _ 1), fun h M T => ?_⟩
  intro _ _ _ _ pairing H
  rw [verifiesBy_iff_pairing, h]

/-- The quotient at the setup fits the cells with the right commitment, and no others. -/
theorem quotient_iff (hf : f.degree < (4096 : ℕ)) :
    (τ ^ 64 - w ^ (64 * brev c 7)) • (f /ₘ (X ^ 64 - C (w ^ (64 * brev c 7)))).eval τ • G =
        commitment τ G f - commitment τ G (cellPoly w cells b c) ↔
      commitment τ G (cellPoly w cells b c) =
        commitment τ G (f %ₘ (X ^ 64 - C (w ^ (64 * brev c 7)))) := by
  have hmod : (f %ₘ (X ^ 64 - C (w ^ (64 * brev c 7)))).degree < (4096 : ℕ) :=
    (degree_modByMonic_le f (monic_X_pow_sub_C _ (by decide))).trans_lt (by
      rw [degree_X_pow_sub_C (by decide)]
      exact_mod_cast (by decide : 64 < 4096))
  have hdiv := @eval_div_mod _ _ f (w ^ (64 * brev c 7)) 64 τ
  rw [smul_smul, commitment_eq hf, commitment_eq hmod, hdiv, add_smul]
  constructor
  · intro h
    rw [add_sub_right_comm, right_eq_add, sub_eq_zero] at h
    exact h.symm
  · intro h
    rw [h, add_sub_cancel_left]

end Verifier

/-! ### The proofs of a call -/

section Proofs
variable {w τ : ScalarField} {G : ScalarPoint} {p : Prover} {m : Mem} {u : ℕ → ℕ}
  {s : ℕ → Schedule} {numBlobs : ℕ} {blobs : Bytes}

/-- The proofs of a call, by blob and cell. -/
theorem computeProofsBatch_proof (hw : IsPrimitiveRoot w 8192)
    (hm : Loaded w (setupPoint w τ G) (cosetKernel w) p m)
    (hu : ExactIndices u (min p.maxBatch numBlobs)) (hs : ∀ n, (s n).submission = .completed)
    (proofs : Bytes) (hcanonical : ∀ b < numBlobs, Canonical blobs b) :
    let r := computeProofsBatch u s p m true proofs blobs numBlobs
    r.1 = .ok ∧ ∀ b < numBlobs, ∀ c < circulantSize, ∀ k < bytesPerProof,
      r.2.1 ((b * circulantSize + c) * bytesPerProof + k) = compressed
        (((blobPoly w blobs b /ₘ (X ^ 64 - C (w ^ (64 * brev c 7)))).eval τ • G : ScalarPoint) :
          Point) k := by
  classical
  intro r
  have hout := (@computeProofsBatch_outcome w _ _ u p s m proofs blobs numBlobs hw hm hu hs).1
  rw [outcome, if_pos hcanonical, doneBefore_of_forall hcanonical, Prod.mk.injEq] at hout
  refine ⟨hout.1, fun b hb c hc k hk => ?_⟩
  have hidx : (b * circulantSize + c) * bytesPerProof + k =
      b * proofBytes + (c * bytesPerProof + k) := by
    simp only [proofBytes, circulantSize, bytesPerProof]
    ring
  have hlt : c * bytesPerProof + k < proofBytes := block_lt hc hk
  have hbyte : r.2.1 (b * proofBytes + (c * bytesPerProof + k)) =
      written proofBytes (proofByte w (setupPoint w τ G) (cosetKernel w) blobs) 0 numBlobs proofs _ :=
    congrFun hout.2 _
  rw [hidx, hbyte, written_hit _ _ hb hlt, proofByte, block_div hk, Nat.mul_add_mod_of_lt hk,
    proofPoint_eq hw τ G blobs b (brev_lt (L := 7) (by decide))]

/-- Every proof of a call opens the commitment of its blob at the cell of the extended blob. It opens
the commitment at no cell with another commitment than that one, not even under a single pairing that
is not degenerate. -/
theorem proofs_verify (hw : IsPrimitiveRoot w 8192) (τ : ScalarField) (G : ScalarPoint)
    (hm : Loaded w (setupPoint w τ G) (cosetKernel w) p m)
    (hu : ExactIndices u (min p.maxBatch numBlobs)) (s : ℕ → Schedule)
    (hs : ∀ n, (s n).submission = .completed) (proofs blobs : Bytes)
    (hcanonical : ∀ b < numBlobs, Canonical blobs b) :
    let r := computeProofsBatch u s p m true proofs blobs numBlobs
    r.1 = .ok ∧ ∀ b < numBlobs, ∀ c < circulantSize, ∃ proof : ScalarPoint,
      (∀ k < bytesPerProof,
        r.2.1 ((b * circulantSize + c) * bytesPerProof + k) = compressed (proof : Point) k) ∧
      ∀ cells : Bytes, CellsOf w cells b {c} (blobPoly w blobs b) → ∀ cells' : Bytes,
        (CellVerifies w τ G (commitment τ G (blobPoly w blobs b)) proof cells' b c ↔
          commitment τ G (cellPoly w cells' b c) = commitment τ G (cellPoly w cells b c)) ∧
        ∀ (M T : Type) [AddCommGroup M] [Module ScalarField M] [AddCommGroup T]
          [Module ScalarField T] (pairing : ScalarPoint →ₗ[ScalarField] M →ₗ[ScalarField] T) (H : M),
          (∀ P, pairing P H = 0 → P = 0) →
          (VerifiesBy pairing H w τ G (commitment τ G (blobPoly w blobs b)) proof cells' b c ↔
            commitment τ G (cellPoly w cells' b c) = commitment τ G (cellPoly w cells b c)) := by
  obtain ⟨hok, hbytes⟩ := computeProofsBatch_proof hw hm hu hs proofs hcanonical
  refine ⟨hok, fun b hb c hc => ⟨_, hbytes b hb c hc, fun cells hcells cells' => ?_⟩⟩
  have hdegree : (blobPoly w blobs b).degree < (4096 : ℕ) := degree_blobPoly hw
  have hquotient := @quotient_iff w τ G cells' b c _ hdegree
  rw [mod_cellPoly hw hc hcells] at hquotient
  refine ⟨cellVerifies_iff.trans hquotient, ?_⟩
  intro M T _ _ _ _ pairing H hpairing
  exact (verifiesBy_iff hpairing).trans hquotient

end Proofs

theorem blobPoly_extended {w : ScalarField} (hw : IsPrimitiveRoot w 8192) {f : ScalarField[X]}
    (hf : f.degree < (4096 : ℕ)) : blobPoly w (extended w f) 0 = f :=
  (eq_blobPoly hw hf fun _ hi => (blobValue_extended w f hi).symm).symm

theorem cellsOf_extended (w : ScalarField) (f : ScalarField[X]) (present : Finset ℕ) :
    CellsOf w (extended w f) 0 present f := fun c _ e _ => by
  rw [cellValue, Nat.zero_mul, Nat.zero_add, elementValue_extended, Nat.mul_comm c,
    ZMod.natCast_zmod_val]

theorem cellPoly_zeros (w : ScalarField) (b c : ℕ) : cellPoly w (fun _ => 0) b c = 0 := by
  have hzero : bigEndian 32 (fun _ => 0) = 0 := by decide
  have hvalue : cellValue (fun _ => 0) b c = 0 := funext fun e => by
    rw [cellValue, elementValue, hzero, Nat.cast_zero, Pi.zero_apply]
  rw [cellPoly, hvalue, map_zero]

/-- The first proof for the values of `X ^ 64` verifies against their first cell and, paired with
scalars, not against zeros. -/
theorem proofs_verify_generator : ∃ p m,
    Loaded rootOfUnity (setupPoint rootOfUnity 5 generator) (cosetKernel rootOfUnity) p m ∧
    let r := computeProofsBatch uint32 (fun _ => undisturbed) p m true (fun _ => 0)
      (extended rootOfUnity (X ^ 64)) 1
    r.1 = .ok ∧ ∃ proof : ScalarPoint, (∀ k < bytesPerProof, r.2.1 k = compressed (proof : Point) k) ∧
      CellVerifies rootOfUnity 5 generator (commitment 5 generator (X ^ 64)) proof
        (extended rootOfUnity (X ^ 64)) 0 0 ∧
      ¬VerifiesBy (LinearMap.lsmul ScalarField ScalarPoint).flip 1 rootOfUnity 5 generator
        (commitment 5 generator (X ^ 64)) proof (fun _ => 0) 0 0 := by
  obtain ⟨p, m, h, -⟩ := exists_loaded rootOfUnity (setupPoint rootOfUnity 5 generator)
    (cosetKernel rootOfUnity) none
  have hu : ExactIndices uint32 (min p.maxBatch 1) :=
    exactIndices_uint32 ((Nat.min_le_right _ 1).trans (by decide))
  have hw := isPrimitiveRoot_rootOfUnity
  have hpoly := blobPoly_extended hw degree_X_pow_64
  obtain ⟨hok, hproofs⟩ := proofs_verify hw 5 generator h hu (fun _ => undisturbed) (fun _ => rfl)
    (fun _ => 0) (extended rootOfUnity (X ^ 64)) (canonical_extended _ _)
  obtain ⟨proof, hbytes, hverifies⟩ := hproofs 0 Nat.one_pos 0 (by decide)
  have hcells := cellsOf_extended rootOfUnity (X ^ 64) {0}
  rw [hpoly] at hverifies
  refine ⟨p, m, h, hok, proof, fun k hk => ?_, (hverifies _ hcells _).1.mpr rfl, fun hby => ?_⟩
  · have hbyte := hbytes k hk
    rwa [show (0 * circulantSize + 0) * bytesPerProof + k = k by simp] at hbyte
  -- The commitment of the first cell is a power of the root times the generator.
  · have heq := ((hverifies _ hcells fun _ => 0).2 _ _ _ 1 fun _ => lsmul_flip_one).mp hby
    rw [cellPoly_zeros, ← mod_cellPoly hw (by decide) hcells, (X_pow_div_mod _).2,
      commitment_eq (degree_C_le.trans_lt (by decide)),
      commitment_eq (degree_zero.trans_lt (WithBot.bot_lt_coe 4096)), eval_zero, eval_C,
      zero_smul] at heq
    exact smul_ne_zero (pow_ne_zero _ (hw.ne_zero (by decide))) generator_ne_zero heq.symm

/-! ### From some cells to proofs -/

/-- The blobs that begin the cells of each blob. -/
def blobsOf (cells : Bytes) : Bytes := fun i =>
  cells (i / bytesPerBlob * cellsBytes + i % bytesPerBlob)

theorem elementValue_blobsOf (cells : Bytes) (b : ℕ) {i : ℕ} (hi : i < fieldElementsPerBlob) :
    elementValue (blobsOf cells) (b * fieldElementsPerBlob + i) =
      elementValue cells (b * fieldElementsPerExtBlob + i) := by
  refine bigEndian_congr fun k hk => ?_
  have hlt : i * 32 + k < bytesPerBlob := block_lt (q := 4096) hi hk
  have hidx : (b * fieldElementsPerBlob + i) * 32 + k = b * bytesPerBlob + (i * 32 + k) := by
    simp only [fieldElementsPerBlob, bytesPerBlob]
    ring
  rw [blobsOf, hidx, block_div hlt, Nat.mul_add_mod_of_lt hlt]
  congr 1
  simp only [cellsBytes, circulantSize, cellBytes, fieldElementsPerExtBlob]
  ring

section Recovered
variable {w τ : ScalarField} {G : ScalarPoint} {p : Prover} {m : Mem} {u : ℕ → ℕ}
  {s : ℕ → Schedule} {numBlobs : ℕ} {cellsOut cells cellPresent : Bytes} {f : ℕ → ScalarField[X]}

theorem degree_presentCells {cellPresent : Bytes} {b : ℕ} {f : ScalarField[X]}
    (hf : f.degree < (4096 : ℕ)) (h : EnoughCells cellPresent b) :
    f.degree < (64 * (presentCells cellPresent b).card : ℕ) :=
  hf.trans_le (by exact_mod_cast Nat.mul_le_mul_left 64 h)

/-- The elements of a recovered cell are the values of the polynomial of the present ones. -/
theorem recoverCellsBatch_elements (hw : IsPrimitiveRoot w 8192) (hm : RecoverTables w m)
    (hu : ExactIndices u (min p.maxBatch numBlobs)) (hs : ∀ n, (s n).submission = .completed)
    (hcount : ∀ b < numBlobs, EnoughCells cellPresent b) :
    let r := recoverCellsBatch u s p m true cellsOut cells cellPresent numBlobs
    r.1 = .ok ∧ SetupKept m r.2.2 ∧
      r.2.1 = written cellsBytes (recoveredByte w cells cellPresent) 0 numBlobs cellsOut ∧
      ∀ b < numBlobs, ∀ n < fieldElementsPerExtBlob,
        elementValue r.2.1 (b * fieldElementsPerExtBlob + n) =
          ((recovered w cells cellPresent b).eval (w ^ brev n 13)).val := by
  classical
  intro r
  obtain ⟨hout, hkeep⟩ : returned r = _ ∧ SetupKept m r.2.2 :=
    recoverCellsBatch_outcome hw hm hu hs
  rw [returned, outcome, if_pos hcount, doneBefore_of_forall hcount, Prod.mk.injEq] at hout
  refine ⟨hout.1, hkeep, hout.2, fun b hb n hn => ?_⟩
  have hbyte : ∀ k < 32, r.2.1 ((b * fieldElementsPerExtBlob + n) * 32 + k) =
      bigEndianByte 32 ((recovered w cells cellPresent b).eval (w ^ brev n 13)).val k :=
    fun k hk => by
      have hlt : n * 32 + k < cellsBytes := block_lt (q := 8192) hn hk
      have hidx : (b * fieldElementsPerExtBlob + n) * 32 + k = b * cellsBytes + (n * 32 + k) := by
        simp only [cellsBytes, circulantSize, cellBytes, fieldElementsPerExtBlob]
        ring
      rw [hout.2, hidx, written_hit _ _ hb hlt, recoveredByte, block_div hk,
        Nat.mul_add_mod_of_lt hk]
  rw [elementValue, bigEndian_congr hbyte, bigEndian_bigEndianByte]
  exact Nat.mod_eq_of_lt ((ZMod.val_lt _).trans (by decide))

/-- Recovery from the cells of polynomials gives all of their cells. -/
theorem recoverCellsBatch_cells (hw : IsPrimitiveRoot w 8192) (hm : RecoverTables w m)
    (hu : ExactIndices u (min p.maxBatch numBlobs)) (hs : ∀ n, (s n).submission = .completed)
    (hcount : ∀ b < numBlobs, EnoughCells cellPresent b)
    (hf : ∀ b < numBlobs, (f b).degree < (4096 : ℕ))
    (hcells : ∀ b < numBlobs, CellsOf w cells b (presentCells cellPresent b) (f b)) :
    let r := recoverCellsBatch u s p m true cellsOut cells cellPresent numBlobs
    r.1 = .ok ∧ SetupKept m r.2.2 ∧ ∀ b < numBlobs, ∀ n < fieldElementsPerExtBlob,
      elementValue r.2.1 (b * fieldElementsPerExtBlob + n) = ((f b).eval (w ^ brev n 13)).val := by
  intro r
  obtain ⟨hok, hkeep, -, hvalue⟩ : r.1 = .ok ∧ SetupKept m r.2.2 ∧ _ ∧ _ :=
    recoverCellsBatch_elements hw hm hu hs hcount
  refine ⟨hok, hkeep, fun b hb n hn => ?_⟩
  -- With half of the cells present the polynomial is the one recovery interpolates.
  have hrecovered : f b = recovered w cells cellPresent b :=
    eq_recovered_cells hw (degree_presentCells (hf b hb) (hcount b hb)) fun c hc e he =>
      (hcells b hb c hc e he).symm
  rw [hvalue b hb n hn, hrecovered]

end Recovered

/-- Half of the cells of each blob are enough to recover all of them on a prover and to compute on the
same prover, from the recovered cells alone, a proof of each that verifies against the commitment to
the blob's polynomial. -/
theorem recover_then_prove {w : ScalarField} (hw : IsPrimitiveRoot w 8192) (τ : ScalarField)
    (G : ScalarPoint) {p : Prover} {m : Mem}
    (hm : Loaded w (setupPoint w τ G) (cosetKernel w) p m) {u : ℕ → ℕ} {numBlobs : ℕ}
    (hu : ExactIndices u (min p.maxBatch numBlobs)) (s s' : ℕ → Schedule)
    (hs : ∀ n, (s n).submission = .completed) (hs' : ∀ n, (s' n).submission = .completed)
    (cellsOut proofs cells cellPresent : Bytes) (f : ℕ → ScalarField[X])
    (hcount : ∀ b < numBlobs, EnoughCells cellPresent b)
    (hf : ∀ b < numBlobs, (f b).degree < (4096 : ℕ))
    (hcells : ∀ b < numBlobs, CellsOf w cells b (presentCells cellPresent b) (f b)) :
    let r := recoverCellsBatch u s p m true cellsOut cells cellPresent numBlobs
    let r' := computeProofsBatch u s' p r.2.2 true proofs (blobsOf r.2.1) numBlobs
    r.1 = .ok ∧ r'.1 = .ok ∧ ∀ b < numBlobs, blobPoly w (blobsOf r.2.1) b = f b ∧
      ∀ c < circulantSize, CellsOf w r.2.1 b {c} (f b) ∧ ∃ proof : ScalarPoint,
        (∀ k < bytesPerProof,
          r'.2.1 ((b * circulantSize + c) * bytesPerProof + k) = compressed (proof : Point) k) ∧
        CellVerifies w τ G (commitment τ G (f b)) proof r.2.1 b c := by
  intro r r'
  obtain ⟨hok, hkeep, hvalue⟩ : r.1 = .ok ∧ SetupKept m r.2.2 ∧ _ :=
    recoverCellsBatch_cells hw hm.recover hu hs hcount hf hcells
  have helement : ∀ b < numBlobs, ∀ i < fieldElementsPerBlob,
      elementValue (blobsOf r.2.1) (b * fieldElementsPerBlob + i) =
        ((f b).eval (w ^ (2 * brev i 12))).val := fun b hb i hi => by
    rw [elementValue_blobsOf _ b hi, hvalue b hb i (hi.trans (by decide)), brev_low hi]
  have hcanonical : ∀ b < numBlobs, Canonical (blobsOf r.2.1) b := fun b hb i hi => by
    rw [helement b hb i hi]
    exact ZMod.val_lt _
  obtain ⟨hok', hbytes⟩ := computeProofsBatch_proof hw (hm.congr hkeep) hu hs' proofs hcanonical
  refine ⟨hok, hok', fun b hb => ?_⟩
  have hblob : blobPoly w (blobsOf r.2.1) b = f b :=
    (eq_blobPoly hw (hf b hb) fun i hi => by
      rw [blobValue, helement b hb i hi, ZMod.natCast_zmod_val]).symm
  refine ⟨hblob, fun c hc => ?_⟩
  have hcellsOut : CellsOf w r.2.1 b {c} (f b) := fun c' hc' e he => by
    rw [Finset.mem_singleton.mp hc', cellValue, cellElement_eq, hvalue b hb _ (by
      simp only [circulantSize, fieldElementsPerExtBlob] at hc ⊢
      omega), ZMod.natCast_zmod_val]
  refine ⟨hcellsOut, _, fun k hk => ?_, (cellVerifies_iff.trans (quotient_iff (hf b hb))).mpr ?_⟩
  · rw [hbytes b hb c hc k hk, hblob]
  · rw [mod_cellPoly hw hc hcellsOut]

theorem presentCells_half : presentCells (fun i => if i < 64 then 0 else 1) 0 = Finset.Ico 64 128 := by
  ext c
  simp only [mem_presentCells, Finset.mem_Ico, Nat.zero_mul, Nat.zero_add, circulantSize]
  split_ifs <;> simp <;> omega

/-- The last 64 cells hold the values of `X ^ 64`, and the bytes before them do not matter. -/
theorem recover_then_prove_half : ∃ p m,
    Loaded rootOfUnity (setupPoint rootOfUnity 5 generator) (cosetKernel rootOfUnity) p m ∧
    let r := recoverCellsBatch uint32 (fun _ => undisturbed) p m true (fun _ => 0)
      (fun i => if i < 131072 then 255 else extended rootOfUnity (X ^ 64) i)
      (fun i => if i < 64 then 0 else 1) 1
    let r' := computeProofsBatch uint32 (fun _ => undisturbed) p r.2.2 true (fun _ => 0)
      (blobsOf r.2.1) 1
    r.1 = .ok ∧ r'.1 = .ok ∧ ∃ proof : ScalarPoint,
      (∀ k < bytesPerProof, r'.2.1 k = compressed (proof : Point) k) ∧
      CellVerifies rootOfUnity 5 generator (commitment 5 generator (X ^ 64)) proof r.2.1 0 0 := by
  obtain ⟨p, m, h, -⟩ := exists_loaded rootOfUnity (setupPoint rootOfUnity 5 generator)
    (cosetKernel rootOfUnity) none
  have hu : ExactIndices uint32 (min p.maxBatch 1) :=
    exactIndices_uint32 ((Nat.min_le_right _ 1).trans (by decide))
  have hcells : CellsOf rootOfUnity
      (fun i => if i < 131072 then 255 else extended rootOfUnity (X ^ 64) i) 0
      (presentCells (fun i => if i < 64 then 0 else 1) 0) (X ^ 64) := by
    intro c hc e he
    have hwhole := cellsOf_extended rootOfUnity (X ^ 64) {c} c (Finset.mem_singleton_self c) e he
    rw [presentCells_half, Finset.mem_Ico] at hc
    rw [← hwhole, cellValue, cellValue]
    refine congrArg Nat.cast (bigEndian_congr fun k _ => if_neg ?_)
    simp only [circulantSize, fieldElementsPerCell]
    omega
  obtain ⟨hok, hok', hblobs⟩ := recover_then_prove isPrimitiveRoot_rootOfUnity 5 generator h hu
    (fun _ => undisturbed) (fun _ => undisturbed) (fun _ => rfl) (fun _ => rfl) (fun _ => 0)
    (fun _ => 0) (fun i => if i < 131072 then 255 else extended rootOfUnity (X ^ 64) i)
    (fun i => if i < 64 then 0 else 1) (fun _ => X ^ 64)
    (fun b hb => by
      rw [EnoughCells, Nat.lt_one_iff.mp hb, presentCells_half]
      decide)
    (fun b _ => degree_X_pow_64)
    (fun b hb => by rwa [Nat.lt_one_iff.mp hb])
  obtain ⟨-, hproofs⟩ := hblobs 0 Nat.one_pos
  obtain ⟨-, proof, hbytes, hverifies⟩ := hproofs 0 (by decide)
  refine ⟨p, m, h, hok, hok', proof, fun k hk => ?_, hverifies⟩
  have hbyte := hbytes k hk
  rwa [show (0 * circulantSize + 0) * bytesPerProof + k = k by simp] at hbyte

/-! ### Recovery of recovered cells -/

section Again
variable {w : ScalarField} {cells cells' cellPresent cellPresent' : Bytes} {b : ℕ}

/-- Two polynomials of the domain's size with the same values on it are the same. -/
theorem eq_of_domain (hw : IsPrimitiveRoot w 8192) {f g : ScalarField[X]}
    (hf : f.degree < (8192 : ℕ)) (hg : g.degree < (8192 : ℕ))
    (h : ∀ n < fieldElementsPerExtBlob, f.eval (w ^ brev n 13) = g.eval (w ^ brev n 13)) :
    f = g := by
  have hall : ∀ i : ℕ, i < 8192 → f.eval (w ^ i) = g.eval (w ^ i) := fun i hi => by
    have hn := h (brev i 13) (brev_lt (L := 13) (by decide))
    rwa [brev_brev (by decide) (show i < 2 ^ 13 from hi)] at hn
  have hinj : Set.InjOn (fun i : ℕ => w ^ i) (Finset.range 8192 : Set ℕ) := fun i hi j hj heq =>
    hw.pow_inj (Finset.mem_range.mp hi) (Finset.mem_range.mp hj) heq
  refine Polynomial.eq_of_degrees_lt_of_eval_index_eq (Finset.range 8192) hinj ?_ ?_ fun i hi =>
    hall i (Finset.mem_range.mp hi)
  · rwa [Finset.card_range]
  · rwa [Finset.card_range]

theorem card_presentCells_le : (presentCells cellPresent b).card ≤ 128 := by
  have h := @card_presentCells_add cellPresent b
  omega

theorem degree_recovered_domain (hw : IsPrimitiveRoot w 8192) :
    (recovered w cells cellPresent b).degree < (8192 : ℕ) := by
  refine (degree_recovered hw).trans_le ?_
  have h := @card_presentCells_le cellPresent b
  exact_mod_cast (by omega : 64 * (presentCells cellPresent b).card ≤ 8192)

theorem recovered_cellsOf (hw : IsPrimitiveRoot w 8192) :
    CellsOf w cells b (presentCells cellPresent b) (recovered w cells cellPresent b) :=
  fun _ hc _ he => (eval_recovered_cell hw hc he).symm

/-- If the present cells lie on a polynomial that `n` cells determine, it is the one through them. -/
theorem exists_cellsOf_iff (hw : IsPrimitiveRoot w 8192) {n : ℕ} :
    (∃ f : ScalarField[X], f.degree < (64 * n : ℕ) ∧
      CellsOf w cells b (presentCells cellPresent b) f) ↔
      (recovered w cells cellPresent b).degree < (64 * n : ℕ) := by
  refine ⟨fun ⟨f, hf, hcells⟩ => ?_, fun h => ⟨_, h, recovered_cellsOf hw⟩⟩
  rcases Nat.le_total (presentCells cellPresent b).card n with hle | hle
  · exact (degree_recovered hw).trans_le (by exact_mod_cast Nat.mul_le_mul_left 64 hle)
  · have hrecovered : f = recovered w cells cellPresent b :=
      eq_recovered_cells hw (hf.trans_le (by exact_mod_cast Nat.mul_le_mul_left 64 hle))
        fun c hc e he => (hcells c hc e he).symm
    rwa [← hrecovered]

/-- The polynomial of cells that hold the values of another one on the whole domain. -/
theorem recovered_of_values (hw : IsPrimitiveRoot w 8192) {f : ScalarField[X]}
    (hvalue : ∀ n < fieldElementsPerExtBlob,
      elementValue cells' (b * fieldElementsPerExtBlob + n) = (f.eval (w ^ brev n 13)).val)
    (hf : f.degree < (64 * (presentCells cellPresent' b).card : ℕ)) :
    recovered w cells' cellPresent' b = f := by
  refine (eq_recovered hw hf fun n hn => ?_).symm
  rw [hvalue n (mem_presentElements.mp hn).1, ZMod.natCast_zmod_val]

end Again

/-- Recovery from some of the recovered cells returns all of them as they were exactly when the cells
recovered first lie on a polynomial that this many cells determine: always if no fewer are taken, and
if half are taken, exactly when the given cells are cells of a blob. -/
theorem recover_again_iff {w : ScalarField} (hw : IsPrimitiveRoot w 8192) {p : Prover} {m : Mem}
    (hm : RecoverTables w m) {u : ℕ → ℕ} {numBlobs : ℕ}
    (hu : ExactIndices u (min p.maxBatch numBlobs)) (s s' : ℕ → Schedule)
    (hs : ∀ n, (s n).submission = .completed) (hs' : ∀ n, (s' n).submission = .completed)
    (cellsOut cellsOut' cells cellPresent cellPresent' : Bytes)
    (hcount : ∀ b < numBlobs, EnoughCells cellPresent b)
    (hcount' : ∀ b < numBlobs, EnoughCells cellPresent' b) :
    let r := recoverCellsBatch u s p m true cellsOut cells cellPresent numBlobs
    let r' := recoverCellsBatch u s' p r.2.2 true cellsOut' r.2.1 cellPresent' numBlobs
    r.1 = .ok ∧ r'.1 = .ok ∧ ((∀ i < numBlobs * cellsBytes, r'.2.1 i = r.2.1 i) ↔
      ∀ b < numBlobs, ∃ f : ScalarField[X],
        f.degree < (64 * (presentCells cellPresent' b).card : ℕ) ∧
        CellsOf w cells b (presentCells cellPresent b) f) := by
  intro r r'
  obtain ⟨hok, hkeep, hout, hvalue⟩ : r.1 = .ok ∧ SetupKept m r.2.2 ∧ _ ∧ _ :=
    recoverCellsBatch_elements hw hm hu hs hcount
  obtain ⟨hok', -, hout', hvalue'⟩ : r'.1 = .ok ∧ SetupKept r.2.2 r'.2.2 ∧ _ ∧ _ :=
    recoverCellsBatch_elements hw (hm.congr hkeep) hu hs' hcount'
  refine ⟨hok, hok', fun hsame b hb => ?_, fun hfits i hi => ?_⟩
  · rw [exists_cellsOf_iff hw]
    have hpoly : recovered w cells cellPresent b = recovered w r.2.1 cellPresent' b := by
      refine eq_of_domain hw (degree_recovered_domain hw) (degree_recovered_domain hw)
        fun n hn => ZMod.val_injective _ ?_
      rw [← hvalue b hb n hn, ← hvalue' b hb n hn]
      refine elementValue_eq_iff.mpr fun k hk => (hsame _ ?_).symm
      simp only [cellsBytes, circulantSize, cellBytes, fieldElementsPerExtBlob] at hn ⊢
      omega
    rw [hpoly]
    exact degree_recovered hw
  · have hblob : i / cellsBytes < numBlobs := Nat.div_lt_of_lt_mul (by rwa [Nat.mul_comm] at hi)
    have hmod : i % cellsBytes < cellsBytes := Nat.mod_lt i (by decide)
    have hpoly : recovered w r.2.1 cellPresent' (i / cellsBytes) =
        recovered w cells cellPresent (i / cellsBytes) :=
      recovered_of_values hw (hvalue _ hblob) ((exists_cellsOf_iff hw).mp (hfits _ hblob))
    have hbyte : r.2.1 (i / cellsBytes * cellsBytes + i % cellsBytes) = _ :=
      (congrFun hout _).trans (written_hit _ _ hblob hmod)
    have hbyte' : r'.2.1 (i / cellsBytes * cellsBytes + i % cellsBytes) = _ :=
      (congrFun hout' _).trans (written_hit _ _ hblob hmod)
    rw [← Nat.div_add_mod' i cellsBytes, hbyte, hbyte', recoveredByte, recoveredByte, hpoly]

theorem cellsOf_half (w : ScalarField) : CellsOf w (fun i => if i < 131072 then 255 else 1) 0
    (presentCells (fun i => if i < 64 then 0 else 1) 0)
    (C ((bigEndian 32 fun _ => 1 : ℕ) : ScalarField)) := by
  intro c hc e _
  rw [presentCells_half, Finset.mem_Ico] at hc
  have hone : elementValue (fun i => if i < 131072 then 255 else 1)
      ((0 * circulantSize + c) * fieldElementsPerCell + e) = bigEndian 32 fun _ => 1 :=
    bigEndian_congr fun k _ => if_neg (by simp only [circulantSize, fieldElementsPerCell]; omega)
  rw [cellValue, hone, eval_C]

/-- The last 64 cells hold ones; the cells recovered from them are recovered from the first 64. -/
theorem recover_again_iff_half : ∃ p m, RecoverTables rootOfUnity m ∧
    let r := recoverCellsBatch uint32 (fun _ => undisturbed) p m true (fun _ => 0)
      (fun i => if i < 131072 then 255 else 1) (fun i => if i < 64 then 0 else 1) 1
    let r' := recoverCellsBatch uint32 (fun _ => undisturbed) p r.2.2 true (fun _ => 0) r.2.1
      (fun i => if i < 64 then 1 else 0) 1
    r.1 = .ok ∧ r'.1 = .ok ∧ ∀ i < 1 * cellsBytes, r'.2.1 i = r.2.1 i := by
  obtain ⟨p, m, h, -⟩ := exists_loaded rootOfUnity (fun _ _ => 0) (fun _ => 0) none
  have hu : ExactIndices uint32 (min p.maxBatch 1) :=
    exactIndices_uint32 ((Nat.min_le_right _ 1).trans (by decide))
  have hlow : presentCells (fun i => if i < 64 then 1 else 0) 0 = Finset.range 64 := by
    ext c
    simp only [mem_presentCells, Finset.mem_range, Nat.zero_mul, Nat.zero_add, circulantSize]
    split_ifs <;> simp <;> omega
  have hcount : EnoughCells (fun i => if i < 64 then 0 else 1) 0 := by
    rw [EnoughCells, presentCells_half]
    decide
  have hcount' : EnoughCells (fun i => if i < 64 then 1 else 0) 0 := by
    rw [EnoughCells, hlow]
    decide
  obtain ⟨hok, hok', hsame⟩ := recover_again_iff isPrimitiveRoot_rootOfUnity h.recover hu
    (fun _ => undisturbed) (fun _ => undisturbed) (fun _ => rfl) (fun _ => rfl) (fun _ => 0)
    (fun _ => 0) (fun i => if i < 131072 then 255 else 1) (fun i => if i < 64 then 0 else 1)
    (fun i => if i < 64 then 1 else 0)
    (fun b hb => by rwa [Nat.lt_one_iff.mp hb]) (fun b hb => by rwa [Nat.lt_one_iff.mp hb])
  refine ⟨p, m, h.recover, hok, hok', hsame.mpr fun b hb => ?_⟩
  rw [Nat.lt_one_iff.mp hb, hlow]
  exact ⟨C ((bigEndian 32 fun _ => 1 : ℕ) : ScalarField), degree_C_le.trans_lt (by decide),
    cellsOf_half _⟩

end Vkzg
