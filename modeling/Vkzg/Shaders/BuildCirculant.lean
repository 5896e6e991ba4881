import Vkzg.Library.Toeplitz
import Vkzg.Shaders.FourStep

/-! `k_build_circulant.comp`: the columns a polynomial embeds its Toeplitz matrix in, transformed
and stored by output. Multiplied with the transformed points of the setup they give its quotients. -/

namespace Vkzg
open Radix Gpu Gpu.Kernel Fourier BitReversal Toeplitz

/-! ### The kernel -/

/-- What thread `tid` loads of column `i`. -/
def circulantEntry (polyBuf : Buf) (i b tid : ℕ) : Shader Fr :=
  let pBase := b * fieldElementsPerExtBlob * frWords
  let d := fieldElementsPerBlob - 1
  if tid = 0 then frLoad polyBuf (pBase + (d - i) * frWords)
  else if tid ≥ 66 then
    let j := circulantSize - tid
    frLoad polyBuf (pBase + (d - i - j * fieldElementsPerCell) * frWords)
  else pure frZero

def circulantTile (polyBuf rootsBuf : Buf) (shared : ℕ → Fr) (i b : ℕ) : Shader (ℕ → Fr) := do
  let loaded ← gather (List.range circulantSize) fun tid => do
    let v ← circulantEntry polyBuf i b tid
    pure (brev tid logCirculant, v)
  let rootStride := fieldElementsPerExtBlob / circulantSize
  (stageLens circulantSize).foldlM (butterflyStage rootsBuf circulantSize rootStride)
    (Shared.write shared loaded)

def kBuildCirculant (coeffsBuf polyBuf rootsBuf : Buf) (shared : ℕ → Fr) (i b : ℕ) :
    Shader Unit := do
  let tile ← circulantTile polyBuf rootsBuf shared i b
  each (List.range circulantSize) fun tid =>
    frStore coeffsBuf ((b * circulantSize * phaseATerms + tid * phaseATerms + i) * frWords) (tile tid)

/-- `shared` is what workgroup memory holds before the kernel runs. -/
def buildCirculantDispatch (shared : ℕ → ℕ → ℕ → Fr) (batch : ℕ) : Shader Unit :=
  dispatch (fun i b => kBuildCirculant .coeffs .polyExt .rootsFwd (shared i b) i b) phaseATerms batch

/-! ### The columns -/

section Column
variable {P : Access Buf → Prop} {u : ℕ → ℕ} {m : Mem} {polyBuf rootsBuf : Buf} {i b tid : ℕ}

theorem circulantEntry_rep {f : ℕ → ScalarField}
    (hf : ∀ q < fieldElementsPerBlob,
      FrRep (frAt m polyBuf (b * fieldElementsPerExtBlob + q)) (f q)) :
    FrRep ((circulantEntry polyBuf i b tid).val id m) (column 64 64 f i tid) := by
  have hload : ∀ q < fieldElementsPerBlob, FrRep ((frLoad polyBuf
      (b * fieldElementsPerExtBlob * frWords + q * frWords)).val id m) (f q) := fun q hq => by
    rw [← Nat.add_mul, val_frLoad]
    exact hf q hq
  unfold circulantEntry column
  by_cases h0 : tid = 0
  · simp only [if_pos h0]
    exact hload _ (by simp only [fieldElementsPerBlob]; omega)
  · by_cases h66 : 66 ≤ tid
    · simp only [if_neg h0, if_pos h66]
      exact hload _ (by simp only [fieldElementsPerBlob]; omega)
    · simp only [if_neg h0, if_neg h66]
      exact frRep_zero

theorem stores_circulantEntry : (circulantEntry polyBuf i b tid).stores u m = [] := by
  unfold circulantEntry
  split_ifs <;> rfl

theorem within_circulantEntry
    (hpoly : ∀ q < fieldElementsPerBlob, ∀ k < 8,
      let n := (b * fieldElementsPerExtBlob + q) * 8 + k
      u n = n ∧ P ⟨polyBuf, 4, n, none⟩) : Within P u m (circulantEntry polyBuf i b tid) := by
  have hload : ∀ q < fieldElementsPerBlob, Within P u m (frLoad polyBuf
      (b * fieldElementsPerExtBlob * frWords + q * frWords)) := fun q hq => by
    rw [← Nat.add_mul]
    exact within_limbsLoad (fun k hk => (hpoly q hq k hk).1) fun k hk => (hpoly q hq k hk).2
  unfold circulantEntry
  by_cases h0 : tid = 0
  · simp only [if_pos h0]
    exact hload _ (by simp only [fieldElementsPerBlob]; omega)
  · by_cases h66 : tid ≥ 66
    · simp only [if_neg h0, if_pos h66]
      exact hload _ (by simp only [fieldElementsPerBlob]; omega)
    · simp only [if_neg h0, if_neg h66]
      exact within_pure _

end Column

/-! ### The transformed columns -/

section Tile
variable {m : Mem} {polyBuf rootsBuf coeffsBuf : Buf} {shared : ℕ → Fr} {i b : ℕ}

theorem circulantTile_rep {w : ScalarField} (hw : IsPrimitiveRoot w 8192)
    (hroots : RootTable m rootsBuf fun k => w ^ k) {f : ℕ → ScalarField}
    (hf : ∀ q < fieldElementsPerBlob,
      FrRep (frAt m polyBuf (b * fieldElementsPerExtBlob + q)) (f q)) {j : ℕ}
    (hj : j < circulantSize) :
    FrRep ((circulantTile polyBuf rootsBuf shared i b).val id m j)
      (dft (w ^ 64) 128 (column 64 64 f i) j) := by
  have hpow : circulantSize = 2 ^ 7 := rfl
  have hsub := subTransform_eq_dft hw (show 7 ≤ 13 by decide) (column 64 64 f i) (hpow ▸ hj)
  rw [show w ^ 64 = w ^ (8192 / 2 ^ 7) from rfl, show 128 = 2 ^ 7 from rfl, ← hsub]
  unfold circulantTile
  simp only [val_bind, val_gather, val_pure, brev_eq (show logCirculant ≤ 32 by decide)]
  rw [hpow] at hj ⊢
  rw [show logCirculant = 7 from rfl, show fieldElementsPerExtBlob = 8192 from rfl]
  have hload : ∀ a < 2 ^ 7, FrRep (Shared.write shared ((List.range (2 ^ 7)).map fun tid =>
      (rev 7 tid, (circulantEntry polyBuf i b tid).val id m)) a) (column 64 64 f i (rev 7 a)) :=
    fun a ha => loaded_rep (fun tid _ => circulantEntry_rep hf) shared ha
  exact nttStages_rep hroots (le_refl 7) (two_pow_mul_div (by decide)) hload hj

theorem stores_circulantTile (u : ℕ → ℕ) :
    (circulantTile polyBuf rootsBuf shared i b).stores u m = [] := by
  have hload : ∀ tid ∈ List.range circulantSize, (do
      let v ← circulantEntry polyBuf i b tid
      pure (brev tid logCirculant, v) : Shader (ℕ × Fr)).stores u m = [] := fun tid _ => by
    rw [stores_bind, stores_circulantEntry, stores_pure, List.append_nil]
  unfold circulantTile
  rw [stores_bind, stores_gather_nil hload, List.nil_append]
  exact stores_foldlM (fun tile len _ => stores_butterflyStage u _ _ _ tile len) _

theorem blocks_kBuildCirculant :
    Blocks ((kBuildCirculant coeffsBuf polyBuf rootsBuf shared i b).stores id m) coeffsBuf 4 8
      (List.range circulantSize) (fun tid => b * 8192 + (i * 1 + tid * 64))
      (fun tid => limbWords ((circulantTile polyBuf rootsBuf shared i b).val id m tid)) := by
  rw [kBuildCirculant, stores_bind, stores_circulantTile, List.nil_append]
  refine blocks_each fun tid _ => ?_
  have hpos : b * circulantSize * phaseATerms + tid * phaseATerms + i =
      b * 8192 + (i * 1 + tid * 64) := by
    simp only [circulantSize, phaseATerms]
    ring
  rw [stores_frStore, hpos]
  exact landing_block none _ _ _

end Tile

section Dispatch
variable {P : Access Buf → Prop} {u : ℕ → ℕ} {m : Mem} {shared : ℕ → ℕ → ℕ → Fr} {batch : ℕ}

theorem within_buildCirculant (hu : ∀ n < batch * 65536, u n = n)
    (hroots : ∀ b < batch, ∀ i < 65536, P ⟨.rootsFwd, 4, i, some b⟩)
    (hpoly : ∀ b < batch, ∀ q < fieldElementsPerBlob, ∀ k < 8,
      P ⟨.polyExt, 4, (b * fieldElementsPerExtBlob + q) * 8 + k, some b⟩)
    (hcoeffs : ∀ b < batch, ∀ k < 65536, P ⟨.coeffs, 4, b * 65536 + k, some b⟩) :
    Within P u m (buildCirculantDispatch shared batch) := by
  refine within_dispatch fun b hb i hi => ?_
  have hi : i < 64 := hi
  refine within_bind (within_bind (within_gather fun tid _ => ?_) (within_foldlM ?_ _))
    (within_each fun tid htid => ?_)
  · refine within_bind (within_circulantEntry fun q hq k hk => ⟨hu _ ?_, hpoly b hb q hq k hk⟩)
      (within_pure _)
    simp only [fieldElementsPerBlob, fieldElementsPerExtBlob] at hq ⊢
    omega
  · intro tile len hlen
    obtain ⟨s, hs, rfl⟩ := List.mem_map.mp hlen
    exact within_butterflyStage (L := 7) (fun n hn => hu n (by omega)) (hroots b hb) rfl
      (List.mem_range.mp hs) tile
  · have htid : tid < 128 := List.mem_range.mp htid
    have hidx : ∀ k, (b * circulantSize * phaseATerms + tid * phaseATerms + i) * frWords + k =
        b * 65536 + ((tid * 64 + i) * 8 + k) := fun k => by
      simp only [circulantSize, phaseATerms, frWords]
      ring
    refine within_limbsStore (fun k hk => hu _ ?_) fun k hk => ?_
    · rw [hidx]
      omega
    · rw [hidx]
      exact hcoeffs b hb _ (by omega)

theorem frame_buildCirculant {buf : Buf} (hcoeffs : buf ≠ .coeffs) :
    (buildCirculantDispatch shared batch).exec id m buf = m buf := by
  refine exec_dispatch_frame fun i b => ?_
  rw [kBuildCirculant, stores_bind, stores_circulantTile, List.nil_append]
  exact landing_each_nil fun tid _ => by rw [stores_frStore, landing_block_other hcoeffs.symm]

theorem buildCirculant_rep {w : ScalarField} (hw : IsPrimitiveRoot w 8192)
    (hroots : RootTable m .rootsFwd fun k => w ^ k) {b : ℕ} (hb : b < batch) {f : ℕ → ScalarField}
    (hf : ∀ q < fieldElementsPerBlob,
      FrRep (frAt m .polyExt (b * fieldElementsPerExtBlob + q)) (f q)) {i j : ℕ}
    (hi : i < phaseATerms) (hj : j < circulantSize) :
    FrRep (frAt ((buildCirculantDispatch shared batch).exec id m) .coeffs
        ((b * circulantSize + j) * phaseATerms + i))
      (dft (w ^ 64) 128 (column 64 64 f i) j) := by
  have hmem : (b, i, j) ∈
      List.range batch ×ˢ (List.range phaseATerms ×ˢ List.range circulantSize) := by
    simp only [List.mem_product, List.mem_range]
    exact ⟨hb, hi, hj⟩
  have hblocks : Blocks ((buildCirculantDispatch shared batch).stores id m) .coeffs 4 8
      (List.range batch ×ˢ (List.range phaseATerms ×ˢ List.range circulantSize))
      (fun q => q.1 * 8192 + (q.2.1 * 1 + q.2.2 * phaseATerms))
      (fun q => limbWords ((circulantTile .polyExt .rootsFwd (shared q.2.1 q.1) q.2.1 q.1).val id m
        q.2.2)) := blocks_dispatch _ _ fun _ _ _ _ => blocks_kBuildCirculant
  have hpow : circulantSize = 2 ^ 7 := rfl
  rw [hpow] at hblocks hmem
  have hhit := frAt_hit hblocks (fun q hq q' hq' h => by
    rw [outIndex_inj (L := 7) le_rfl hq hq' h]) hmem m
  have hpos : (b * circulantSize + j) * phaseATerms + i = b * 8192 + (i * 1 + j * 64) := by
    simp only [circulantSize, phaseATerms]
    ring
  rw [exec, hpos, hhit]
  exact circulantTile_rep hw hroots hf hj

end Dispatch

/-- The kernel stores the transforms of the Toeplitz columns of a polynomial. Multiplied with the
transformed points of a setup and transformed back they give the polynomial's quotients at the
setup, cell by cell, and zero for the last. It reads no other coefficient. -/
theorem buildCirculant_toeplitz {u : ℕ → ℕ} {batch : ℕ} (hu : ∀ n < batch * 65536, u n = n)
    {w : ScalarField} (hw : IsPrimitiveRoot w 8192) {m : Mem}
    (hroots : RootTable m .rootsFwd fun k => w ^ k) (shared : ℕ → ℕ → ℕ → Fr) {b : ℕ}
    (hb : b < batch) {f : ℕ → ScalarField}
    (hf : ∀ q < fieldElementsPerBlob,
      FrRep (frAt m .polyExt (b * fieldElementsPerExtBlob + q)) (f q)) :
    let kernel := buildCirculantDispatch shared batch
    let coeff := fun j i =>
      frAt (kernel.exec u m) .coeffs ((b * circulantSize + j) * phaseATerms + i)
    let c := column 64 64 f
    (∀ i < 64, c i 0 = f (4095 - i) ∧
      (∀ t, 1 ≤ t → t ≤ 62 → i + 64 * t ≤ 4095 ∧ c i (128 - t) = f (4095 - i - 64 * t)) ∧
      (∀ a, 1 ≤ a → a ≤ 65 → c i a = 0) ∧
      ∀ j < 128, FrRep (coeff j i) (dft (w ^ 64) 128 (c i) j)) ∧
    (∀ {M : Type*} [AddCommGroup M] [Module ScalarField M] (S : ℕ → M) (C : ℕ → ℕ → ScalarField),
      (∀ j < 128, ∀ i < 64, FrRep (coeff j i) (C j i)) →
      let x := fun i s => if s ≤ 62 then S (4031 - i - 64 * s) else 0
      let y := fun j => ∑ i ∈ Finset.range 64, C j i • dft (w ^ 64) 128 (x i) j
      (∀ k ≤ 62, (128 : ScalarField)⁻¹ • dft (w ^ 64)⁻¹ 128 y k =
        ∑ t ∈ Finset.range (4096 - 64 * (k + 1)), f (t + 64 * (k + 1)) • S t) ∧
      (128 : ScalarField)⁻¹ • dft (w ^ 64)⁻¹ 128 y 63 = 0) ∧
    ∀ a ∈ kernel.reads u m, a.buf = .polyExt → ∃ b < batch, ∃ q < fieldElementsPerBlob, ∃ k < 8,
      a = ⟨.polyExt, 4, (b * fieldElementsPerExtBlob + q) * 8 + k, some b⟩ := by
  intro kernel coeff c
  have hwithin : Within (fun a => a.buf = .polyExt → ∃ b < batch, ∃ q < fieldElementsPerBlob,
      ∃ k < 8, a = ⟨.polyExt, 4, (b * fieldElementsPerExtBlob + q) * 8 + k, some b⟩) u m kernel :=
    within_buildCirculant hu (fun _ _ _ _ h => absurd h (by simp))
      (fun b hb q hq k hk _ => ⟨b, hb, q, hq, k, hk, rfl⟩) fun _ _ _ _ h => absurd h (by simp)
  have hrep : ∀ j < 128, ∀ i < 64, FrRep (coeff j i) (dft (w ^ 64) 128 (c i) j) := by
    intro j hj i hi
    simp only [coeff]
    rw [hwithin.exec]
    exact buildCirculant_rep hw hroots hb hf hi hj
  refine ⟨fun i hi => ⟨column_zero f i, fun t ht htn => ⟨by omega, ?_⟩,
    fun a ha han => column_eq_zero f i ha (by omega), fun j hj => hrep j hj i hi⟩, ?_,
    fun a ha => hwithin.read a (hwithin.reads ▸ ha)⟩
  · rw [Nat.mul_comm 64 t]
    exact column_sub f i ht (by omega)
  · intro M _ _ S C hC x y
    have hx : ∀ i, x i = points 64 64 S i := fun i => by
      funext s
      simp only [x, points, show s + 2 ≤ 64 ↔ s ≤ 62 by omega]
    have hy : ∀ j < 128, y j = ∑ i ∈ Finset.range 64,
        dft (w ^ 64) 128 (c i) j • dft (w ^ 64) 128 (points 64 64 S i) j := by
      intro j hj
      refine Finset.sum_congr rfl fun i hi => ?_
      rw [(hC j hj i (Finset.mem_range.mp hi)).unique (hrep j hj i (Finset.mem_range.mp hi)), hx]
    -- Transformed back, the sum over the columns is the product of matrix and points.
    have hroot : IsPrimitiveRoot (w ^ 64) (2 * 64) := hw.pow (by decide) (by decide)
    have hcast : ((2 * 64 : ℕ) : ScalarField) = 128 := by norm_num
    have hsize : ((2 * 64 : ℕ) : ScalarField) ≠ 0 := natCast_ne_zero_of_lt (by decide) (by decide)
    have hquot : ∀ k < 64, (128 : ScalarField)⁻¹ • dft (w ^ 64)⁻¹ 128 y k =
        ∑ t ∈ Finset.range (64 * (64 - 1 - k)), f (t + 64 * (k + 1)) • S t := fun k hk => by
      rw [dft_congr hy, ← hcast]
      exact dft_inv_sum_column hroot hsize f S hk
    refine ⟨fun k hk => ?_, hquot 63 (by decide)⟩
    rw [hquot k (by omega), show 64 * (64 - 1 - k) = 4096 - 64 * (k + 1) by omega]

/-- One coefficient of a polynomial with the coefficients `0, 1, …`, on the device. -/
theorem buildCirculant_toeplitz_scalarMem :
    let m := scalarMem fun b i => if b = .rootsFwd then rootOfUnity ^ i else i
    FrRep (frAt ((buildCirculantDispatch (fun _ _ _ => frZero) 1).exec uint32 m) .coeffs
        ((0 * circulantSize + 3) * phaseATerms + 5))
      (dft (rootOfUnity ^ 64) 128 (column 64 64 (fun q => ((0 * 8192 + q : ℕ) : ScalarField)) 5) 3) :=
  ((buildCirculant_toeplitz.{0} (fun n hn => uint32_of_lt (by omega)) isPrimitiveRoot_rootOfUnity
    (fun k _ => by
      have h := frRep_scalarMem (fun b i => if b = .rootsFwd then rootOfUnity ^ i else i)
        .rootsFwd k
      simpa only [if_true] using h)
    (fun _ _ _ => frZero) (b := 0) (by decide)
    fun q _ => by
      have h := frRep_scalarMem (fun b i => if b = .rootsFwd then rootOfUnity ^ i else i)
        .polyExt (0 * 8192 + q)
      simpa only [reduceCtorEq, if_false] using h).1 5 (by decide)).2.2.2 3 (by decide)

end Vkzg
