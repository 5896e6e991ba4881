import Vkzg.Host.Generated
import Vkzg.Shaders.Footprints

/-! `computeBatch`: the commands it records, and the proofs they leave for each blob. -/

namespace Vkzg
open Radix Gpu Gpu.Kernel Fourier BitReversal Toeplitz

/-! ### The commands -/

/-- From the Lagrange values of the blobs to the transformed columns of their polynomials. -/
def columnCommands (p : Prover) (s : Schedule) (batch : ℕ) : List (Shader Unit) :=
  fourStep .workA .polyExt .lagrange .rootsInv 64 64 fieldElementsPerBlob fieldElementsPerExtBlob
    fieldElementsPerExtBlob 1 p.invBlob batch (s.tile 0) (s.tile 1) ++
  [buildCirculantDispatch (s.tile 2) batch]

def normalizeProofs (batch : ℕ) : Shader Unit := do
  let proofPoints ← uint (batch * circulantSize)
  recordNormalize circulantSize .proofsAff .proofs proofPoints (inversionChunk proofPoints 4 32 2048)

/-- From the proofs to their bytes. -/
def encodeCommands (batch : ℕ) : List (Shader Unit) := [normalizeProofs batch, compressDispatch batch]

def computeCommands (p : Prover) (s : Schedule) (batch : ℕ) : List (Shader Unit) :=
  [blobToFrDispatch batch] ++ columnCommands p s batch ++
  phaseA s.hist s.scat p.gpuTotalCores (s.subgroup 0) .points batch ++
  phaseB p.gpuTotalCores (s.subgroup 1) batch ++ encodeCommands batch

/-- Computes the proofs of a batch into the array `proofs` from an offset on. -/
def computeBatch (u : ℕ → ℕ) (s : Schedule) (p : Prover) (m : Mem) (proofs : Bytes) (off : ℕ)
    (blobs : Bytes) (batch : ℕ) : Result × Bytes × Mem :=
  let m := writeBuf (writeBuf m .blob blobs (batch * bytesPerBlob)) .err (fun _ => 0) 4
  match s.submission.run u (computeCommands p s batch) m with
  | (false, m) => (.errGpu, proofs, m)
  | (true, m) =>
    if m.elem 4 .err 0 ≠ 0 then (.errInvalidBlob, proofs, m)
    else (.ok, memcpy proofs off (m .proofBytes) (batch * circulantSize * bytesPerProof), m)

/-! ### What the commands leave alone -/

/-- The buffers written after the blobs are checked. -/
def proofBuffers : List Buf :=
  [.workA, .polyExt, .coeffs, .perm, .starts, .items, .buckets, .points, .ladderJac,
    .ladderJacFolded, .normScratch, .ladderAff, .proofs, .proofsAff, .proofBytes]

section Frames
variable {p : Prover} {s : Schedule} {m : Mem} {batch cores : ℕ} {b out : Buf}
  {hist scat : ℕ → ℕ → AtomicOrder} {sg : ℕ → ℕ → Subgroup}

theorem frame_columnCommands (hwork : b ≠ .workA) (hpoly : b ≠ .polyExt) (hcoeffs : b ≠ .coeffs) :
    runAll (columnCommands p s batch) id m b = m b := by
  rw [columnCommands, runAll_append, runAll_cons, runAll_nil, frame_buildCirculant hcoeffs,
    frame_fourStep hwork hpoly]

theorem frame_phaseACommands (hperm : b ≠ .perm) (hstarts : b ≠ .starts) (hitems : b ≠ .items)
    (hbuckets : b ≠ .buckets) (hout : b ≠ out) :
    runAll (phaseA hist scat cores sg out batch) id m b = m b := by
  rw [phaseA, runAll_cons, runAll_cons, runAll_cons, runAll_nil, frame_recordReduce hout,
    frame_phaseA hbuckets, frame_phaseASort hperm hstarts hitems]

theorem frame_encodeCommands (hscratch : b ≠ .normScratch) (haff : b ≠ .proofsAff)
    (hbytes : b ≠ .proofBytes) : runAll (encodeCommands batch) id m b = m b := by
  rw [encodeCommands, runAll_cons, runAll_cons, runAll_nil, compressDispatch, frame_compress hbytes,
    normalizeProofs, exec_uint_bind, frame_recordNormalize hscratch haff]

theorem frame_computeCommands (hb : b ∉ proofBuffers) :
    runAll (computeCommands p s batch) id m b = (blobToFrDispatch batch).exec id m b := by
  simp only [proofBuffers, List.mem_cons, List.not_mem_nil, or_false, not_or] at hb
  obtain ⟨h₁, h₂, h₃, h₄, h₅, h₆, h₇, h₈, h₉, h₁₀, h₁₁, h₁₂, h₁₃, h₁₄, h₁₅⟩ := hb
  simp only [computeCommands, runAll_append, runAll_cons, runAll_nil]
  rw [frame_encodeCommands h₁₁ h₁₄ h₁₅, frame_phaseB _ h₉ h₁₀ h₁₁ h₁₂ h₇ h₈ h₁₃,
    frame_phaseACommands h₄ h₅ h₆ h₇ h₈, frame_columnCommands h₁ h₂ h₃]

theorem computeCommands_setup (hb : b.isSetup = true) :
    runAll (computeCommands p s batch) id m b = m b := by
  rw [frame_computeCommands (by cases b <;> simp_all [proofBuffers, Buf.isSetup]),
    frame_blobToFr (ne_of_isSetup hb rfl) (ne_of_isSetup hb rfl)]

end Frames

/-! ### The proofs -/

/-- Coefficient `q` of the polynomial of blob `b`. -/
noncomputable def blobCoeff (w : ScalarField) (blobs : Bytes) (b q : ℕ) : ScalarField :=
  ((4096 : ℕ) : ScalarField)⁻¹ * dft (w⁻¹ ^ 2) 4096
    (fun i => ((elementValue blobs (b * fieldElementsPerBlob + brev i 12) : ℕ) : ScalarField)) q

/-- Output `j` of phase A. -/
noncomputable def columnPoint (w : ScalarField) (P : ℕ → ℕ → ScalarPoint) (blobs : Bytes)
    (b j : ℕ) : ScalarPoint :=
  ∑ i ∈ Finset.range phaseATerms, dft (w ^ 64) 128 (column 64 64 (blobCoeff w blobs b) i) j • P j i

/-- Output `a` of phase B. -/
noncomputable def proofPoint (w : ScalarField) (P : ℕ → ℕ → ScalarPoint)
    (K : ZMod circulantSize → ScalarField) (blobs : Bytes) (b a : ℕ) : ScalarPoint :=
  Circulant.product circulantSize K (columnPoint w P blobs b) a

section Values
variable {w : ScalarField} {P : ℕ → ℕ → ScalarPoint} {K : ZMod circulantSize → ScalarField}
  {p : Prover} {s : Schedule} {m : Mem} {batch : ℕ} {blobs : Bytes}

theorem scalarsHold_columns (hw : IsPrimitiveRoot w 8192) (hm : TablesHold w P K m)
    (hscale : FrRep p.invBlob ((4096 : ℕ) : ScalarField)⁻¹)
    (hlagrange : ∀ b < batch, ∀ i < fieldElementsPerBlob, FrRep
      (frAt m .lagrange (b * fieldElementsPerBlob + i))
      ((elementValue blobs (b * fieldElementsPerBlob + brev i 12) : ℕ) : ScalarField)) :
    ScalarsHold (runAll (columnCommands p s batch) id m) batch fun b j i =>
      dft (w ^ 64) 128 (column 64 64 (blobCoeff w blobs b) i) j := by
  intro b hb j hj i hi
  rw [columnCommands, runAll_append, runAll_cons, runAll_nil]
  have hfwd : RootTable (runAll (fourStep .workA .polyExt .lagrange .rootsInv 64 64
      fieldElementsPerBlob fieldElementsPerExtBlob fieldElementsPerExtBlob 1 p.invBlob batch
      (s.tile 0) (s.tile 1)) id m) .rootsFwd fun k => w ^ k := fun k hk => by
    rw [frAt_congr (frame_fourStep (by decide) (by decide))]
    exact hm.fwd k hk
  refine buildCirculant_rep hw hfwd hb (fun q hq => ?_) hi hj
  have hrep := fourStep_dft .workA .polyExt (s.tile 0) (s.tile 1) hw.inv hm.inv
    (show 6 ≤ 7 by decide) (show 6 ≤ 7 by decide) (by decide) (by decide)
    (show 2 ^ 6 * 2 ^ 6 ≤ 8192 by decide)
    (show 2 ^ 6 * 2 ^ 6 ≤ 8192 by decide) (fun _ : 1 ≠ 0 => hscale) hb (hlagrange b hb) hq
  rw [if_pos one_ne_zero] at hrep
  exact hrep

theorem compress_proofs {C : ℕ → ℕ → Point} (hC : ∀ b < batch, ∀ a < circulantSize,
      G1Rep (g1At m .proofs (b * circulantSize + a)) (C b a)) {b c k : ℕ} (hb : b < batch)
    (hc : c < circulantSize) (hk : k < bytesPerProof) :
    runAll (encodeCommands batch) id m .proofBytes ((b * circulantSize + c) * bytesPerProof + k) =
      compressed (C b (brev c 7)) k := by
  have hrev : brev c 7 < circulantSize := brev_lt (L := 7) (by decide)
  have hback : brev (brev c 7) 7 = c := brev_brev (by decide) hc
  rw [encodeCommands, runAll_cons, runAll_cons, runAll_nil, compressDispatch]
  have hchunk : 0 < inversionChunk (batch * circulantSize) 4 32 2048 :=
    inversionChunk_pos (by decide) (by decide)
  have hproofs : ∀ i < batch * circulantSize,
      G1Rep (g1At m .proofs i) (C (i / circulantSize) (i % circulantSize)) := by
    intro i hi
    have h := hC (i / circulantSize) (Nat.div_lt_of_lt_mul (by rwa [Nat.mul_comm] at hi))
      (i % circulantSize) (Nat.mod_lt i (by decide))
    rwa [Nat.div_add_mod'] at h
  have hrep := recordNormalize_rep circulantSize hchunk (show Buf.proofsAff ≠ .normScratch by decide)
    hproofs (block_lt hb hrev)
  simp only [block_div hrev, Nat.mul_add_mod_of_lt hrev] at hrep
  rw [normalizeProofs, exec_uint_bind]
  rw [← compress_byte hb hrev hk hrep, hback]

theorem coe_columnPoint (w : ScalarField) (P : ℕ → ℕ → ScalarPoint) (blobs : Bytes) (b j : ℕ) :
    (columnPoint w P blobs b j : Point) = ∑ i ∈ Finset.range phaseATerms,
      (dft (w ^ 64) 128 (column 64 64 (blobCoeff w blobs b) i) j).val • (P j i : Point) := by
  rw [columnPoint, AddSubgroup.val_finsetSum]
  exact Finset.sum_congr rfl fun i _ => coe_smul_scalarPoint _ _

/-- The bytes of every proof, from the bytes of its blob. -/
theorem computeCommands_bytes (hw : IsPrimitiveRoot w 8192) (hm : TablesHold w P K m)
    (hscale : FrRep p.invBlob ((4096 : ℕ) : ScalarField)⁻¹) {b c k : ℕ} (hb : b < batch)
    (hc : c < circulantSize) (hk : k < bytesPerProof) :
    runAll (computeCommands p s batch) id m .proofBytes
        ((b * circulantSize + c) * bytesPerProof + k) =
      compressed (proofPoint w P K (m .blob) b (brev c 7) : Point) k := by
  simp only [computeCommands, runAll_append, runAll_cons, runAll_nil]
  have hkeep : ∀ b : Buf, b.isSetup = true → (blobToFrDispatch batch).exec id m b = m b :=
    fun b hb => frame_blobToFr (ne_of_isSetup hb rfl) (ne_of_isSetup hb rfl)
  have hlagrange : ∀ b < batch, ∀ i < fieldElementsPerBlob, FrRep
      (frAt ((blobToFrDispatch batch).exec id m) .lagrange (b * fieldElementsPerBlob + i)) _ :=
    fun b hb i hi => blobToFr_rep hb hi
  have T₁ := hm.keep hkeep
  generalize (blobToFrDispatch batch).exec id m = m₁ at T₁ hlagrange ⊢
  -- The transformed columns of the blobs.
  have hscalars := scalarsHold_columns (s := s) hw T₁ hscale hlagrange
  have hkeep₂ : ∀ b : Buf, b.isSetup = true → runAll (columnCommands p s batch) id m₁ b = m₁ b :=
    fun b hb => frame_columnCommands (ne_of_isSetup hb rfl) (ne_of_isSetup hb rfl)
      (ne_of_isSetup hb rfl)
  have T₂ := T₁.keep hkeep₂
  generalize runAll (columnCommands p s batch) id m₁ = m₂ at T₂ hscalars ⊢
  -- Phase A leaves points of scalar order.
  have hpoints : ∀ b < batch, ∀ j < circulantSize, G1Rep (g1At (runAll (phaseA s.hist s.scat
      p.gpuTotalCores (s.subgroup 0) .points batch) id m₂) .points (b * circulantSize + j))
      (columnPoint w P (m .blob) b j : Point) := by
    intro b hb j hj
    have hrep := phaseA_rep s.hist s.scat .points hscalars T₂.table
      (s.wholeTeams 0 p.gpuTotalCores) hb hj
    simp only [sum_digit_smul] at hrep
    rwa [coe_columnPoint]
  have hkeep₃ : ∀ b : Buf, b.isSetup = true → runAll (phaseA s.hist s.scat p.gpuTotalCores
      (s.subgroup 0) .points batch) id m₂ b = m₂ b :=
    fun b hb => frame_phaseACommands (ne_of_isSetup hb rfl) (ne_of_isSetup hb rfl)
      (ne_of_isSetup hb rfl) (ne_of_isSetup hb rfl) (ne_of_isSetup hb rfl)
  have T₃ := T₂.keep hkeep₃
  generalize runAll (phaseA s.hist s.scat p.gpuTotalCores (s.subgroup 0) .points batch) id m₂ = m₃
    at T₃ hpoints ⊢
  exact compress_proofs (fun b hb a ha => phaseB_product T₃.kernel
    (s.wholeTeams 1 p.gpuTotalCores) hpoints hb ha) hb hc hk

/-- The error word says whether an element of the batch is not canonical. -/
theorem computeCommands_err (herr : m.elem 4 .err 0 = 0) :
    (runAll (computeCommands p s batch) id m).elem 4 .err 0 =
      if ∀ b < batch, ∀ i < fieldElementsPerBlob,
        elementValue (m .blob) (b * fieldElementsPerBlob + i) < frModulus then 0 else 1 := by
  rw [Memory.elem_congr (frame_computeCommands (by decide)), blobToFr_err herr]

end Values

/-! ### Footprints -/

/-- The evaluation of unsigned expressions is exact on the words of memory and on the offsets of a
batch. -/
structure ExactIndices (u : ℕ → ℕ) (batch : ℕ) : Prop where
  word : ∀ n < 2 ^ 32, u n = n
  offset : ∀ n < batch * 589824, u n = n

theorem ExactIndices.below {u : ℕ → ℕ} {batch k : ℕ} (h : ExactIndices u batch) (hk : k ≤ 589824) :
    ∀ n < batch * k, u n = n := fun n hn =>
  h.offset n (hn.trans_le (Nat.mul_le_mul_left batch hk))

/-- The buffer of the buckets is the largest one, and its words have indices of 32 bits. -/
theorem exactIndices_uint32 {batch : ℕ} (h : batch ≤ 7281) : ExactIndices uint32 batch :=
  ⟨fun _ hn => uint32_of_lt hn, fun _ hn => uint32_of_lt (by omega)⟩

theorem ExactIndices.mono {u : ℕ → ℕ} {batch batch' : ℕ} (h : ExactIndices u batch)
    (hle : batch' ≤ batch) : ExactIndices u batch' :=
  ⟨h.word, fun n hn => h.offset n (hn.trans_le (Nat.mul_le_mul_right _ hle))⟩

/-- The words each blob has of the buffers of a computation, the scratch of normalization apart. -/
def computeSlices : List (Buf × ℕ) :=
  [(.lagrange, 32768), (.workA, 65536), (.polyExt, 65536), (.coeffs, 65536), (.perm, 16384),
    (.starts, 16512), (.buckets, 589824), (.points, 4608), (.ladderJac, 147456),
    (.ladderJacFolded, 147456), (.ladderAff, 98304), (.proofs, 4608), (.proofsAff, 3072)]

/-- `P` holds of every word and byte a computation works on, for the blob it works on. -/
structure ComputeWords (P : Access Buf → Prop) (u : ℕ → ℕ) (batch : ℕ) : Prop where
  indices : ExactIndices u batch
  slice : ∀ t ∈ computeSlices, ∀ b < batch, ∀ k < t.2, P ⟨t.1, 4, b * t.2 + k, some b⟩
  roots : ∀ buf, buf = .rootsFwd ∨ buf = .rootsInv → ∀ b < batch, ∀ k < 65536,
    P ⟨buf, 4, k, some b⟩
  table : ∀ b < batch, ∀ k < 6291456, P ⟨.table, 4, k, some b⟩
  items : ∀ b < batch, ∀ k < 262144, P ⟨.items, 2, b * 262144 + k, some b⟩
  blob : ∀ b < batch, ∀ k < 131072, P ⟨.blob, 1, b * 131072 + k, some b⟩
  proofBytes : ∀ b < batch, ∀ k < 6144, P ⟨.proofBytes, 1, b * 6144 + k, some b⟩
  err : ∀ b < batch, P ⟨.err, 4, 0, some b⟩

section Footprints
variable {P : Access Buf → Prop} {u : ℕ → ℕ} {m : Mem} {batch cores : ℕ} {p : Prover} {s : Schedule}
  {hist scat : ℕ → ℕ → AtomicOrder} {sg : ℕ → ℕ → Subgroup}

theorem ComputeWords.words (h : ComputeWords P u batch) {buf : Buf} {n : ℕ}
    (hbuf : (buf, n) ∈ computeSlices) : ∀ b < batch, BlobWords P u buf (b * n) n b := by
  intro b hb k hk
  have hsize : ∀ t ∈ computeSlices, t.2 ≤ 589824 := by decide
  have hn : n ≤ 589824 := hsize _ hbuf
  have hidx : b * n + k < batch * n := block_lt hb hk
  exact ⟨h.indices.offset _ (hidx.trans_le (Nat.mul_le_mul_left batch hn)), h.slice _ hbuf b hb k hk⟩

theorem ComputeWords.powers (h : ComputeWords P u batch) {buf : Buf}
    (hbuf : buf = .rootsFwd ∨ buf = .rootsInv) : ∀ b < batch, BlobWords P u buf 0 65536 b :=
  fun b hb k hk => by
    rw [Nat.zero_add]
    exact ⟨h.indices.word _ (by omega), h.roots buf hbuf b hb k hk⟩

theorem within_columnCommands (h : ComputeWords P u batch) :
    ∀ k ∈ columnCommands p s batch, ∀ m, Within P u m k := by
  intro k hk m
  rcases List.mem_append.mp hk with hk | hk
  · refine within_fourStep (show 6 ≤ 7 by decide) (show 6 ≤ 7 by decide) (by decide)
      (h.powers (.inr rfl)) ?_ ?_ ?_ k hk m
    · exact h.words (by decide)
    · exact fun b hb k hk => h.words (n := 65536) (by decide) b hb k (by omega)
    · exact fun b hb k hk => h.words (n := 65536) (by decide) b hb k (by omega)
  · obtain rfl := List.mem_singleton.mp hk
    refine within_buildCirculant (h.indices.below (by decide))
      (h.roots _ (.inl rfl)) (fun b hb q hq k hk => ?_) (h.slice (.coeffs, 65536) (by decide))
    simp only [fieldElementsPerBlob] at hq
    have hword := h.slice (.polyExt, 65536) (by decide) b hb (q * 8 + k) (by simp only; omega)
    rwa [show b * 65536 + (q * 8 + k) = (b * fieldElementsPerExtBlob + q) * 8 + k by
      simp only [fieldElementsPerExtBlob]; ring] at hword

theorem withinAll_phaseA {out : Buf} (h : ComputeWords P u batch)
    (hout : ∀ b < batch, BlobWords P u out (b * 4608) 4608 b) (m : Mem) :
    WithinAll P u (phaseA hist scat cores sg out batch) m := by
  have hu : ∀ n < batch * 262144, u n = n := h.indices.below (by decide)
  have hperm := h.slice (.perm, 16384) (by decide)
  have hstarts := h.slice (.starts, 16512) (by decide)
  refine ⟨within_phaseASort hu (h.slice (.coeffs, 65536) (by decide)) hperm hstarts h.items,
    within_phaseA (fun b hb j hj => itemsWf_sort hb hj) hu hperm hstarts h.items
      (fun b hb k hk => ?_) (h.words (by decide)),
    within_recordReduce (h.words (by decide)) hout, trivial⟩
  rw [Nat.zero_add]
  exact ⟨h.indices.word _ (by omega), h.table b hb k hk⟩

theorem inversionChunk_le {count floorChunk ceilChunk targetThreads : ℕ} :
    inversionChunk count floorChunk ceilChunk targetThreads ≤ ceilChunk := by
  simp only [inversionChunk]
  split_ifs <;> omega

theorem within_normalize {n floorChunk ceilChunk targetThreads : ℕ} {outAffine inJacobian : Buf}
    (hu : ExactIndices u batch) (hn : n ≤ 16384) (hceil : ceilChunk ≤ 128)
    (hinp : ∀ b < batch, BlobWords P u inJacobian (b * (n * 36)) (n * 36) b)
    (hscratch : ∀ b < batch, BlobWords P u .normScratch (b * (n * 12)) (n * 12) b)
    (hout : ∀ b < batch, BlobWords P u outAffine (b * (n * 24)) (n * 24) b) :
    Within P u m (do
      let count ← uint (batch * n)
      recordNormalize n outAffine inJacobian count
        (inversionChunk count floorChunk ceilChunk targetThreads)) := by
  have hcount : batch * n ≤ batch * 16384 := Nat.mul_le_mul_left batch hn
  have hval : (uint (batch * n) : Shader ℕ).val id m = batch * n := rfl
  rcases Nat.eq_zero_or_pos batch with rfl | hpos
  · -- without blobs there is no thread
    rw [Nat.zero_mul] at hval ⊢
    refine within_bind (within_uint (hu.word 0 (by decide))) ?_
    rw [hval]
    refine within_dispatch fun y _ wg hwg => ?_
    exact absurd hwg (by
      have hchunk : (0 + inversionChunk 0 floorChunk ceilChunk targetThreads - 1) /
          inversionChunk 0 floorChunk ceilChunk targetThreads = 0 := by
        rcases Nat.eq_zero_or_pos (inversionChunk 0 floorChunk ceilChunk targetThreads) with h0 | h0
        · rw [h0]
        · exact Nat.div_eq_of_lt (by omega)
      rw [hchunk]
      omega)
  · refine within_bind (within_uint (hu.offset _ (by omega))) ?_
    rw [hval]
    have hle : inversionChunk (batch * n) floorChunk ceilChunk targetThreads ≤ 128 :=
      inversionChunk_le.trans hceil
    exact within_recordNormalize (pointWords_slices rfl hinp hscratch hout)
      (fun i hi => hu.offset i (by omega)) fun i hi => hu.offset i (by omega)

/-- The scratch of a normalization with `n` points for each blob. -/
def ScratchWords (P : Access Buf → Prop) (u : ℕ → ℕ) (batch n : ℕ) : Prop :=
  ∀ b < batch, BlobWords P u .normScratch (b * (n * 12)) (n * 12) b

/-- `P` holds of the words of both kernel lists that are visited. -/
structure ListsHold (P : Access Buf → Prop) (u : ℕ → ℕ) (batch : ℕ) (m : Mem) : Prop where
  plus : ∀ b < batch, ListWords P u m plusLists 0 b
  minus : ∀ b < batch, ListWords P u m minusLists 64 b

theorem ListsHold.keep {m' : Mem} (h : ListsHold P u batch m)
    (hm : ∀ b : Buf, b.isSetup = true → m' b = m b) : ListsHold P u batch m' where
  plus b hb := (h.plus b hb).congr (hm _ rfl) (hm _ rfl) (hm _ rfl)
  minus b hb := (h.minus b hb).congr (hm _ rfl) (hm _ rfl) (hm _ rfl)

theorem frame_ladders {b : Buf} (hb : b.isSetup = true) :
    runAll [ladderDispatch batch, foldLadderDispatch batch, normalizeLadder batch] id m b = m b := by
  rw [runAll_cons, runAll_cons, runAll_cons, runAll_nil,
    frame_normalizeLadder (ne_of_isSetup hb rfl) (ne_of_isSetup hb rfl),
    frame_foldLadder (ne_of_isSetup hb rfl), frame_ladder (ne_of_isSetup hb rfl)]

theorem withinAll_phaseB (h : ComputeWords P u batch)
    (hscratch : ScratchWords P u batch (circulantSize * ladderPositions))
    (hlists : ListsHold P u batch m) : WithinAll P u (phaseB cores sg batch) m := by
  have hnormalize : ∀ m, Within P u m (normalizeLadder batch) := fun m => by
    have hwithin := @within_normalize P u m batch (circulantSize * ladderPositions) 32 128 8192
      .ladderAff .ladderJacFolded h.indices (by decide) (by decide) (h.words (by decide)) hscratch
      (h.words (by decide))
    rwa [← Nat.mul_assoc] at hwithin
  have hl := hlists.keep fun b hb => @frame_ladders m batch b hb
  refine ⟨within_ladder (h.words (by decide)) (h.words (by decide)),
    within_foldLadder (h.words (by decide)) (h.words (by decide)), hnormalize _,
    within_phaseBSplit hl.plus hl.minus (h.words (by decide))
      (h.words (by decide)),
    within_recordReduce (h.words (by decide)) (h.words (by decide)),
    within_combine (h.words (by decide)) (h.words (by decide)), trivial⟩

theorem frame_beforePhaseB {b : Buf} (hb : b.isSetup = true) :
    runAll ([blobToFrDispatch batch] ++ columnCommands p s batch ++
      phaseA s.hist s.scat p.gpuTotalCores (s.subgroup 0) .points batch) id m b = m b := by
  rw [runAll_append, runAll_append, frame_phaseACommands (ne_of_isSetup hb rfl)
    (ne_of_isSetup hb rfl) (ne_of_isSetup hb rfl) (ne_of_isSetup hb rfl) (ne_of_isSetup hb rfl),
    frame_columnCommands (ne_of_isSetup hb rfl) (ne_of_isSetup hb rfl) (ne_of_isSetup hb rfl)]
  exact frame_blobToFr (ne_of_isSetup hb rfl) (ne_of_isSetup hb rfl)

theorem withinAll_proofCommands (h : ComputeWords P u batch)
    (hscratch : ScratchWords P u batch (circulantSize * ladderPositions))
    (hlists : ListsHold P u batch m) :
    WithinAll P u ([blobToFrDispatch batch] ++ columnCommands p s batch ++
      phaseA s.hist s.scat p.gpuTotalCores (s.subgroup 0) .points batch ++
      phaseB p.gpuTotalCores (s.subgroup 1) batch) m := by
  refine withinAll_append (withinAll_append (withinAll_append ⟨within_blobToFr
    (h.indices.below (by decide)) h.blob (h.words (by decide)) h.err, trivial⟩
    (withinAll_of_forall (within_columnCommands h) _)) (withinAll_phaseA h (h.words (by decide)) _))
    (withinAll_phaseB h hscratch (hlists.keep fun b hb => ?_))
  exact frame_beforePhaseB hb

theorem withinAll_encodeCommands (h : ComputeWords P u batch)
    (hscratch : ScratchWords P u batch circulantSize) (m : Mem) :
    WithinAll P u (encodeCommands batch) m :=
  ⟨within_normalize h.indices (by decide) (by decide) (h.words (by decide)) hscratch
      (h.words (by decide)),
    within_compress (h.indices.below (by decide)) (h.slice (.proofsAff, 3072) (by decide))
      h.proofBytes, trivial⟩

theorem withinAll_computeCommands (h : ComputeWords P u batch)
    (hladder : ScratchWords P u batch (circulantSize * ladderPositions))
    (hproofs : ScratchWords P u batch circulantSize) (hlists : ListsHold P u batch m) :
    WithinAll P u (computeCommands p s batch) m :=
  withinAll_append (withinAll_proofCommands h hladder hlists) (withinAll_encodeCommands h hproofs _)

/-! ### Exact indices -/

theorem computeWords_true (hu : ExactIndices u batch) : ComputeWords (fun _ => True) u batch :=
  ⟨hu, fun _ _ _ _ _ _ => trivial, fun _ _ _ _ _ _ => trivial, fun _ _ _ _ => trivial,
    fun _ _ _ _ => trivial, fun _ _ _ _ => trivial, fun _ _ _ _ => trivial, fun _ _ => trivial⟩

theorem scratchWords_true (hu : ExactIndices u batch) {n : ℕ} (hn : n ≤ 4096) :
    ScratchWords (fun _ => True) u batch n := fun _ hb _ hk =>
  ⟨hu.below (k := n * 12) (by omega) _ (block_lt hb hk), trivial⟩

theorem listsHold_true (hu : ExactIndices u batch) (hplus : ListsWf m plusLists)
    (hminus : ListsWf m minusLists) : ListsHold (fun _ => True) u batch m := by
  have hlist : ∀ lists : KernelLists, ∀ base ≤ 64, ListsWf m lists → ∀ b < batch,
      ListWords (fun _ => True) u m lists base b := by
    intro lists base hbase hwf b _
    refine ⟨fun k hk => ⟨hu.word _ (by omega), trivial⟩, fun k hk => ⟨hu.word _ (by omega), trivial⟩,
      hwf.perm_lt, fun t ht it hlo hhi => ⟨?_, trivial, ?_⟩⟩
    · exact hu.word _ (hhi.trans (m.elem_lt 4 lists.offsets _))
    · have hpos := hwf.position _ (hwf.perm_lt t ht) it hlo hhi
      simp only [ladderPositions] at hpos ⊢
      omega
  exact ⟨hlist _ 0 (by decide) hplus, hlist _ 64 le_rfl hminus⟩

theorem runAll_computeCommands {w : ScalarField} {T : ℕ → ℕ → ScalarPoint}
    {K : ZMod circulantSize → ScalarField} (hm : TablesHold w T K m) (hu : ExactIndices u batch) :
    runAll (computeCommands p s batch) u m = runAll (computeCommands p s batch) id m :=
  (withinAll_computeCommands (computeWords_true hu) (scratchWords_true hu (by decide))
    (scratchWords_true hu (by decide))
    (listsHold_true hu hm.kernel.plusWf hm.kernel.minusWf)).runAll

end Footprints

/-! ### One batch -/

/-- Every element of blob `b` is canonical. -/
def Canonical (blobs : Bytes) (b : ℕ) : Prop :=
  ∀ i < fieldElementsPerBlob, elementValue blobs (b * fieldElementsPerBlob + i) < frModulus

def computeStart (m : Mem) (blobs : Bytes) (batch : ℕ) : Mem :=
  writeBuf (writeBuf m .blob blobs (batch * bytesPerBlob)) .err (fun _ => 0) 4

section Batch
variable {w : ScalarField} {P : ℕ → ℕ → ScalarPoint} {K : ZMod circulantSize → ScalarField}
  {u : ℕ → ℕ} {p : Prover} {s : Schedule} {m : Mem} {batch off : ℕ} {proofs blobs : Bytes}

theorem computeStart_setup {b : Buf} (hb : b.isSetup = true) :
    computeStart m blobs batch b = m b := by
  rw [computeStart, writeBuf_of_ne (ne_of_isSetup hb rfl), writeBuf_of_ne (ne_of_isSetup hb rfl)]

theorem computeStart_err : (computeStart m blobs batch).elem 4 .err 0 = 0 := by
  have hzero : ∀ k < 4, computeStart m blobs batch .err (4 * 0 + k) = 0 := fun k hk =>
    writeBuf_byte (by omega)
  rw [Memory.elem, bytesValue_congr hzero]
  rfl

theorem computeStart_blobs {b i : ℕ} (hb : b < batch) (hi : i < fieldElementsPerBlob) :
    elementValue (computeStart m blobs batch .blob) (b * fieldElementsPerBlob + i) =
      elementValue blobs (b * fieldElementsPerBlob + i) := by
  refine elementValue_eq_iff.mpr fun k hk => ?_
  rw [computeStart, writeBuf_of_ne (by decide)]
  refine writeBuf_byte ?_
  simp only [fieldElementsPerBlob, bytesPerBlob] at hi ⊢
  omega

theorem proofPoint_congr {blobs' : Bytes} {b b' : ℕ}
    (h : ∀ i < fieldElementsPerBlob, elementValue blobs' (b' * fieldElementsPerBlob + i) =
      elementValue blobs (b * fieldElementsPerBlob + i)) (a : ℕ) :
    proofPoint w P K blobs' b' a = proofPoint w P K blobs b a := by
  have hcoeff : blobCoeff w blobs' b' = blobCoeff w blobs b := by
    funext q
    refine congrArg (((4096 : ℕ) : ScalarField)⁻¹ * ·) (dft_congr (fun i _ => ?_) q)
    rw [h _ (brev_lt (L := 12) (by decide))]
  unfold proofPoint columnPoint
  rw [hcoeff]

open Classical in
theorem computeBatch_eq (hw : IsPrimitiveRoot w 8192) (hm : Loaded w P K p m)
    (hu : ExactIndices u batch) (hs : s.submission = .completed) :
    ∃ m', computeBatch u s p m proofs off blobs batch =
      (if ∀ b < batch, Canonical blobs b then
        (.ok, memcpy proofs off (m' .proofBytes) (batch * circulantSize * bytesPerProof), m')
      else (.errInvalidBlob, proofs, m')) ∧
      (∀ b : Buf, b.isSetup = true → m' b = m b) ∧
      ∀ b < batch, ∀ c < circulantSize, ∀ k < bytesPerProof,
        m' .proofBytes ((b * circulantSize + c) * bytesPerProof + k) =
          compressed (proofPoint w P K blobs b (brev c 7) : Point) k := by
  have hstart : TablesHold w P K (computeStart m blobs batch) :=
    hm.tables.keep fun b hb => computeStart_setup hb
  have hcanonical : (∀ b < batch, ∀ i < fieldElementsPerBlob, elementValue
      (computeStart m blobs batch .blob) (b * fieldElementsPerBlob + i) < frModulus) ↔
      ∀ b < batch, Canonical blobs b :=
    forall₂_congr fun b hb => forall₂_congr fun i hi => by rw [computeStart_blobs hb hi]
  refine ⟨runAll (computeCommands p s batch) id (computeStart m blobs batch), ?_, fun b hb => ?_,
    fun b hb c hc k hk => ?_⟩
  · have herr := @computeCommands_err p s (computeStart m blobs batch) batch computeStart_err
    rw [computeBatch]
    simp only [hs, Submission.run]
    rw [← computeStart, runAll_computeCommands hstart hu]
    generalize runAll (computeCommands p s batch) id (computeStart m blobs batch) = m' at herr
    by_cases h : ∀ b < batch, Canonical blobs b
    · have hzero : m'.elem 4 .err 0 = 0 := herr.trans (if_pos (hcanonical.mpr h))
      rw [hzero, if_pos h, if_neg fun h0 => h0 rfl]
    · have hone : m'.elem 4 .err 0 = 1 := herr.trans (if_neg fun h' => h (hcanonical.mp h'))
      rw [hone, if_neg h, if_pos one_ne_zero]
  · rw [computeCommands_setup hb, computeStart_setup hb]
  · rw [computeCommands_bytes hw hstart hm.scale hb hc hk,
      proofPoint_congr fun i hi => computeStart_blobs hb hi]

end Batch

end Vkzg
