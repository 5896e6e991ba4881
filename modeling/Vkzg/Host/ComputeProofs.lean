import Vkzg.Host.Compute
import Vkzg.Host.RecoverCells

/-! `vkzg_compute_proofs_batch`: the batches of a call one after the other. -/

namespace Vkzg
open Radix Gpu Gpu.Kernel BitReversal Chunks

abbrev proofBytes : ℕ := circulantSize * bytesPerProof

def computeStep (u : ℕ → ℕ) (s : ℕ → Schedule) (p : Prover) (blobs : Bytes) (done batch : ℕ)
    (st : Bytes × Mem) : Result × Bytes × Mem :=
  computeBatch u (s done) p st.2 st.1 (done * proofBytes) (slice blobs (done * bytesPerBlob)) batch

/-- `given` says whether no pointer is null. Each batch has a schedule of its own. -/
def computeProofsBatch (u : ℕ → ℕ) (s : ℕ → Schedule) (p : Prover) (m : Mem) (given : Bool)
    (proofs blobs : Bytes) (numBlobs : ℕ) : Result × Bytes × Mem :=
  if !given then (.errBadArgs, proofs, m)
  else if numBlobs = 0 then (.ok, proofs, m)
  else loop .ok (computeStep u s p blobs) p.maxBatch p.maxBatch_pos numBlobs 0 (proofs, m)

noncomputable def proofByte (w : ScalarField) (P : ℕ → ℕ → ScalarPoint)
    (K : ZMod circulantSize → ScalarField) (blobs : Bytes) (b i : ℕ) : UInt8 :=
  compressed (proofPoint w P K blobs b (brev (i / bytesPerProof) 7) : Point) (i % bytesPerProof)

section Batch
variable {w : ScalarField} {P : ℕ → ℕ → ScalarPoint} {K : ZMod circulantSize → ScalarField}
  {u : ℕ → ℕ} {p : Prover} {s : Schedule} {m : Mem} {proofs blobs : Bytes} {done batch : ℕ}

theorem elementValue_slice (b i : ℕ) :
    elementValue (slice blobs (done * bytesPerBlob)) (b * fieldElementsPerBlob + i) =
      elementValue blobs ((done + b) * fieldElementsPerBlob + i) := by
  refine bigEndian_congr fun k _ => ?_
  rw [slice]
  congr 1
  simp only [bytesPerBlob, fieldElementsPerBlob]
  ring

theorem canonical_slice (b : ℕ) :
    Canonical (slice blobs (done * bytesPerBlob)) b ↔ Canonical blobs (done + b) :=
  forall₂_congr fun i _ => by rw [elementValue_slice]

theorem proofByte_slice (b i : ℕ) :
    proofByte w P K (slice blobs (done * bytesPerBlob)) b i = proofByte w P K blobs (done + b) i := by
  unfold proofByte
  rw [proofPoint_congr fun i _ => elementValue_slice b i]

/-- A batch without a bad element writes its proofs behind those of the batches before. -/
theorem computeBatch_written (hw : IsPrimitiveRoot w 8192) (hm : Loaded w P K p m)
    (hu : ExactIndices u batch) (hs : s.submission = .completed)
    (h : ∀ b, done ≤ b → b < done + batch → Canonical blobs b) :
    let r := computeBatch u s p m proofs (done * proofBytes) (slice blobs (done * bytesPerBlob)) batch
    r.1 = .ok ∧ r.2.1 = written proofBytes (proofByte w P K blobs) done (done + batch) proofs ∧
      SetupKept m r.2.2 := by
  obtain ⟨m', heq, hkeep, hbytes⟩ := @computeBatch_eq w P K u p s m batch (done * proofBytes) proofs
    (slice blobs (done * bytesPerBlob)) hw hm hu hs
  rw [if_pos fun b hb => (canonical_slice b).mpr (h _ (by omega) (by omega))] at heq
  intro r
  have hr : r = _ := heq
  rw [hr]
  refine ⟨rfl, ?_, hkeep⟩
  funext i
  simp only
  by_cases hi : done * proofBytes ≤ i ∧ i < (done + batch) * proofBytes
  · obtain ⟨hlo, hhi⟩ := hi
    simp only [proofBytes, circulantSize, bytesPerProof] at hlo hhi
    rw [written, if_pos (by simp only [proofBytes, circulantSize, bytesPerProof]; omega)]
    -- Byte `j` of the batch belongs to a proof of its blob `j / 6144`.
    obtain ⟨j, rfl⟩ := Nat.exists_eq_add_of_le hlo
    have hj : j < batch * circulantSize * bytesPerProof := by
      simp only [circulantSize, bytesPerProof]
      omega
    have hsplit : (j / 6144 * circulantSize + j % 6144 / 48) * bytesPerProof + j % 48 = j := by
      simp only [circulantSize, bytesPerProof]
      omega
    have hbyte := hbytes (j / 6144) (by omega) (j % 6144 / 48)
      (by simp only [circulantSize]; omega) (j % 48) (Nat.mod_lt j (by decide))
    rw [hsplit] at hbyte
    have hdiv : (done * (128 * 48) + j) / proofBytes = done + j / 6144 := by
      simp only [proofBytes, circulantSize, bytesPerProof]
      omega
    have hmod : (done * (128 * 48) + j) % proofBytes = j % 6144 := by
      simp only [proofBytes, circulantSize, bytesPerProof]
      omega
    rw [memcpy_hit hj, hbyte, hdiv, hmod, ← proofByte_slice, proofByte]
    congr 1
    simp only [bytesPerProof]
    omega
  · rw [written, if_neg hi]
    apply memcpy_other
    simp only [proofBytes, circulantSize, bytesPerProof] at hi ⊢
    omega

theorem computeBatch_fails (hw : IsPrimitiveRoot w 8192) (hm : Loaded w P K p m)
    (hu : ExactIndices u batch) (hs : s.submission = .completed)
    (h : ∃ b, done ≤ b ∧ b < done + batch ∧ ¬Canonical blobs b) {off : ℕ} :
    let r := computeBatch u s p m proofs off (slice blobs (done * bytesPerBlob)) batch
    r.1 = .errInvalidBlob ∧ r.2.1 = proofs ∧ SetupKept m r.2.2 := by
  obtain ⟨m', heq, hkeep, -⟩ := @computeBatch_eq w P K u p s m batch off proofs
    (slice blobs (done * bytesPerBlob)) hw hm hu hs
  obtain ⟨b, hlo, hhi, hbad⟩ := h
  have hnot : ¬∀ b < batch, Canonical (slice blobs (done * bytesPerBlob)) b := fun hall => by
    have hb := (canonical_slice (b - done)).mp (hall (b - done) (by omega))
    rw [Nat.add_sub_cancel' hlo] at hb
    exact hbad hb
  rw [if_neg hnot] at heq
  intro r
  have hr : r = _ := heq
  rw [hr]
  exact ⟨rfl, rfl, hkeep⟩

end Batch

/-! ### What a call returns -/

section Call
variable {w : ScalarField} {P : ℕ → ℕ → ScalarPoint} {K : ZMod circulantSize → ScalarField}
  {u : ℕ → ℕ} {p : Prover} {s : ℕ → Schedule} {m : Mem} {proofs blobs : Bytes} {numBlobs : ℕ}

theorem steps_computeBatch (hw : IsPrimitiveRoot w 8192) (hm : Loaded w P K p m)
    (hu : ExactIndices u (min p.maxBatch numBlobs)) (hs : ∀ n, (s n).submission = .completed) :
    Steps .ok p.maxBatch numBlobs proofBytes (Canonical blobs) (proofByte w P K blobs) (SetupKept m)
      (fun r m' => r = .errInvalidBlob ∧ SetupKept m m') (computeStep u s p blobs) := by
  constructor
  · intro done batch out m' _ _ htotal hlimit hkeep hgood
    obtain ⟨hok, hout, hkeep'⟩ := @computeBatch_written w P K u p (s done) m' out blobs done batch hw
      (hm.congr hkeep) (hu.mono (by omega)) (hs done) hgood
    exact ⟨hok, hout, fun b hb => (hkeep' b hb).trans (hkeep b hb)⟩
  · intro done batch out m' _ _ htotal hlimit hkeep hbad
    obtain ⟨herr, hout, hkeep'⟩ := @computeBatch_fails w P K u p (s done) m' out blobs done batch hw
      (hm.congr hkeep) (hu.mono (by omega)) (hs done) hbad (done * proofBytes)
    refine ⟨fun hok => ?_, hout, herr, fun b hb => (hkeep' b hb).trans (hkeep b hb)⟩
    have hne : Result.errInvalidBlob = .ok := herr.symm.trans hok
    exact absurd hne (by decide)

theorem computeProofsBatch_eq_loop : computeProofsBatch u s p m true proofs blobs numBlobs =
    loop .ok (computeStep u s p blobs) p.maxBatch p.maxBatch_pos numBlobs 0 (proofs, m) := by
  unfold computeProofsBatch
  rw [if_neg (by decide)]
  split_ifs with h0
  · rw [h0, loop_zero]
  · rfl

open Classical in
theorem computeProofsBatch_outcome (hw : IsPrimitiveRoot w 8192) (hm : Loaded w P K p m)
    (hu : ExactIndices u (min p.maxBatch numBlobs)) (hs : ∀ n, (s n).submission = .completed) :
    let r := computeProofsBatch u s p m true proofs blobs numBlobs
    (r.1, r.2.1) = outcome .ok .errInvalidBlob proofBytes p.maxBatch numBlobs (Canonical blobs)
        (proofByte w P K blobs) proofs ∧ SetupKept m r.2.2 := by
  intro r
  have hr : r = _ := computeProofsBatch_eq_loop
  rw [hr]
  exact loop_outcome p.maxBatch_pos (steps_computeBatch hw hm hu hs) proofs fun _ _ => rfl

end Call

end Vkzg
