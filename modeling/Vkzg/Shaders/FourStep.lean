import Vkzg.Shaders.Ntt
import Vkzg.Shaders.Roots

/-! The two passes of a four-step transform in sequence: over any root table they compute a fixed
network, and over the powers of a primitive root that network is the discrete Fourier transform. -/

namespace Vkzg
open Radix Gpu Gpu.Kernel Fourier BitReversal

/-- Both passes of a transform of size `N1 * N2`, through the buffer `mid`. -/
def fourStep (mid out inp roots : Buf) (N1 N2 inBatch midBatch outBatch scale : ℕ) (scaleVal : Fr)
    (batch : ℕ) (shared₁ shared₂ : ℕ → ℕ → ℕ → Fr) : List (Shader Unit) :=
  [recordNtt mid inp roots (nttPass1 (N1 * N2) N1 N2 inBatch midBatch) N2 batch shared₁,
   recordNtt out mid roots
     { nttPass2 (N1 * N2) N1 N2 midBatch outBatch with scale := scale, scaleVal := scaleVal }
     N1 batch shared₂]

/-- What the two passes compute over a root table `ρ`. -/
def fourStepNet (ρ : ℕ → ScalarField) (l₁ l₂ : ℕ) (x : ℕ → ScalarField) (k : ℕ) : ScalarField :=
  let N := 2 ^ l₁ * 2 ^ l₂
  let k₁ := k % 2 ^ l₁
  subTransform ρ l₂ (8192 / 2 ^ l₂)
    (fun n₂ => subTransform ρ l₁ (8192 / 2 ^ l₁) (fun n₁ => x (n₂ + n₁ * 2 ^ l₂)) k₁ *
      ρ (n₂ * k₁ % N * (8192 / N))) (k / 2 ^ l₁)

section Sizes
variable {l : ℕ}

theorem ilog2_two_pow (hl : l ≤ 7) : ilog2 (2 ^ l) = l := by
  interval_cases l <;> decide

theorem two_pow_mul_div (hl : l ≤ 13) : 2 ^ l * (8192 / 2 ^ l) = 8192 := by
  interval_cases l <;> decide

end Sizes

section Passes
variable {m : Mem} {ρ : ℕ → ScalarField} {l₁ l₂ inBatch midBatch outBatch batch scale : ℕ}
  {scaleVal : Fr} {mid out inp roots : Buf} {shared₁ shared₂ : ℕ → ℕ → ℕ → Fr}

theorem twiddle_lt (h : l₁ + l₂ ≤ 13) (e : ℕ) :
    e % (2 ^ l₁ * 2 ^ l₂) * (8192 / (2 ^ l₁ * 2 ^ l₂)) < 8192 := by
  rw [← pow_add]
  conv_rhs => rw [← two_pow_mul_div h]
  refine Nat.mul_lt_mul_of_pos_right (Nat.mod_lt _ (Nat.two_pow_pos _)) ?_
  exact Nat.div_pos (Nat.pow_le_pow_right (by decide) h) (Nat.two_pow_pos _)

/-- The passes leave the network's output, scaled, in natural order. -/
theorem fourStep_rep (mid out : Buf) (shared₁ shared₂ : ℕ → ℕ → ℕ → Fr)
    (hroots : RootTable m roots ρ) (h₁ : l₁ ≤ 7) (h₂ : l₂ ≤ 7)
    (h : l₁ + l₂ ≤ 13) (hmidroots : roots ≠ mid) (hmid : 2 ^ l₁ * 2 ^ l₂ ≤ midBatch)
    (hout : 2 ^ l₁ * 2 ^ l₂ ≤ outBatch) {s : ScalarField} (hs : scale ≠ 0 → FrRep scaleVal s)
    {b : ℕ} (hb : b < batch) {x : ℕ → ScalarField}
    (hx : ∀ i < 2 ^ l₁ * 2 ^ l₂, FrRep (frAt m inp (b * inBatch + i)) (x i)) {k : ℕ}
    (hk : k < 2 ^ l₁ * 2 ^ l₂) :
    FrRep (frAt (runAll (fourStep mid out inp roots (2 ^ l₁) (2 ^ l₂) inBatch midBatch outBatch
        scale scaleVal batch shared₁ shared₂) id m) out (b * outBatch + k))
      (fourStepNet ρ l₁ l₂ x k * (if scale ≠ 0 then s else 1)) := by
  have hpos : (2 ^ l₁ * 2 ^ l₂) ≠ 0 := by positivity
  have htws : 8192 / (2 ^ l₁ * 2 ^ l₂) ≠ 0 := by
    rw [← pow_add]
    exact (Nat.div_pos (Nat.pow_le_pow_right (by decide) h) (Nat.two_pow_pos _)).ne'
  simp only [fourStep, runAll_cons, runAll_nil]
  set m₁ := (recordNtt mid inp roots
    (nttPass1 (2 ^ l₁ * 2 ^ l₂) (2 ^ l₁) (2 ^ l₂) inBatch midBatch) (2 ^ l₂) batch shared₁).exec
    id m with hm₁
  have hroots₁ : RootTable m₁ roots ρ := by
    intro k hk
    rw [frAt_congr (frame_recordNtt hmidroots)]
    exact hroots k hk
  -- The middle buffer after the first pass, at row `k₁` and column `n₂`.
  have hpass₁ : ∀ n₂ < 2 ^ l₂, ∀ k₁ < 2 ^ l₁,
      FrRep (frAt m₁ mid (b * midBatch + (n₂ + k₁ * 2 ^ l₂)))
        (subTransform ρ l₁ (8192 / 2 ^ l₁) (fun n₁ => x (n₂ + n₁ * 2 ^ l₂)) k₁ *
          ρ (n₂ * k₁ % (2 ^ l₁ * 2 ^ l₂) * (8192 / (2 ^ l₁ * 2 ^ l₂)))) := by
    intro n₂ hn₂ k₁ hk₁
    have hrep : FrRep (frAt m₁ mid (b * midBatch + (n₂ + k₁ * 2 ^ l₂)))
        (subTransform ρ l₁ (8192 / 2 ^ l₁) (fun n₁ => x (n₂ + n₁ * 2 ^ l₂)) k₁ *
          (if 8192 / (2 ^ l₁ * 2 ^ l₂) ≠ 0 then
            ρ (n₂ * k₁ % (2 ^ l₁ * 2 ^ l₂) * (8192 / (2 ^ l₁ * 2 ^ l₂))) else 1) *
          (if (0 : ℕ) ≠ 0 then 1 else 1)) := recordNtt_rep
      (nttPass1 (2 ^ l₁ * 2 ^ l₂) (2 ^ l₁) (2 ^ l₂) inBatch midBatch) (2 ^ l₂) batch mid inp shared₁
      (L := l₁) (s := 1) hroots rfl h₁ (ilog2_two_pow h₁)
      (two_pow_mul_div (by omega)) rfl rfl hmid (fun t _ tid _ => twiddle_lt h _)
      (fun hne => absurd rfl hne) hb hn₂ (x := fun n₁ => x (n₂ + n₁ * 2 ^ l₂))
      (fun n₁ hn₁ => by
        have hidx : n₂ + n₁ * 2 ^ l₂ < 2 ^ l₁ * 2 ^ l₂ := by
          rw [Nat.add_comm]
          exact block_lt hn₁ hn₂
        simpa [nttPass1] using hx _ hidx) hk₁
    rwa [if_pos htws, if_neg (by simp), mul_one] at hrep
  -- The second pass transforms row `k % 2 ^ l₁` and stores it as a column.
  have hk₁ : k % 2 ^ l₁ < 2 ^ l₁ := Nat.mod_lt _ (Nat.two_pow_pos _)
  have hk₂ : k / 2 ^ l₁ < 2 ^ l₂ := Nat.div_lt_of_lt_mul hk
  have hrep := recordNtt_rep { nttPass2 (2 ^ l₁ * 2 ^ l₂) (2 ^ l₁) (2 ^ l₂) midBatch outBatch with
      scale := scale, scaleVal := scaleVal } (2 ^ l₁) batch out mid shared₂ (L := l₂) hroots₁ rfl h₂
    (ilog2_two_pow h₂) (two_pow_mul_div (by omega)) rfl rfl (by rwa [Nat.mul_comm])
    (fun t _ tid _ => by simp [nttPass2]) hs hb hk₁
    (x := fun n₂ => subTransform ρ l₁ (8192 / 2 ^ l₁) (fun n₁ => x (n₂ + n₁ * 2 ^ l₂))
      (k % 2 ^ l₁) *
      ρ (n₂ * (k % 2 ^ l₁) % (2 ^ l₁ * 2 ^ l₂) * (8192 / (2 ^ l₁ * 2 ^ l₂))))
    (fun n₂ hn₂ => by
      have := hpass₁ n₂ hn₂ _ hk₁
      simpa [nttPass2, Nat.add_comm n₂] using this) hk₂
  have hidx : k % 2 ^ l₁ + k / 2 ^ l₁ * 2 ^ l₁ = k := by rw [Nat.add_comm, Nat.div_add_mod']
  simpa [nttPass2, hidx, fourStepNet] using hrep

end Passes

/-! ### The network over powers of a primitive root -/

section Dft
variable {w : ScalarField} {l₁ l₂ : ℕ}

theorem subTransform_eq_dft (hw : IsPrimitiveRoot w 8192) {L : ℕ} (hL : L ≤ 13)
    (x : ℕ → ScalarField) {k : ℕ} (hk : k < 2 ^ L) :
    subTransform (fun k => w ^ k) L (8192 / 2 ^ L) x k =
      dft (w ^ (8192 / 2 ^ L)) (2 ^ L) x k := by
  refine butterflies_eq_dft (fun hpos => ?_) (fun s _ o _ => ?_) (fun _ _ => rfl) hk
  · have hhalf : 8192 / 2 ^ L * 2 ^ (L - 1) * 2 = 8192 := by
      rw [Nat.mul_assoc, ← pow_succ, Nat.sub_add_cancel hpos, Nat.mul_comm, two_pow_mul_div hL]
    rw [← pow_mul, show 8192 / 2 ^ L * 2 ^ (L - 1) = 4096 by omega]
    exact (hw.pow (by decide) (show 8192 = 4096 * 2 by decide)).eq_neg_one_of_two_right
  · simp only
    rw [← pow_mul, Nat.mul_comm]

theorem fourStepNet_eq_dft (hw : IsPrimitiveRoot w 8192) (h : l₁ + l₂ ≤ 13)
    (x : ℕ → ScalarField) {k : ℕ} (hk : k < 2 ^ l₁ * 2 ^ l₂) :
    fourStepNet (fun k => w ^ k) l₁ l₂ x k =
      dft (w ^ (8192 / (2 ^ l₁ * 2 ^ l₂))) (2 ^ l₁ * 2 ^ l₂) x k := by
  have hk₁ : k % 2 ^ l₁ < 2 ^ l₁ := Nat.mod_lt _ (Nat.two_pow_pos _)
  have hk₂ : k / 2 ^ l₁ < 2 ^ l₂ := Nat.div_lt_of_lt_mul hk
  have hN : 2 ^ l₁ * 2 ^ l₂ * (8192 / (2 ^ l₁ * 2 ^ l₂)) = 8192 := by
    rw [← pow_add]
    exact two_pow_mul_div h
  have hone : (w ^ (8192 / (2 ^ l₁ * 2 ^ l₂))) ^ (2 ^ l₁ * 2 ^ l₂) = 1 := by
    rw [← pow_mul, Nat.mul_comm, hN, hw.pow_eq_one]
  have hroot₁ : (w ^ (8192 / (2 ^ l₁ * 2 ^ l₂))) ^ 2 ^ l₂ = w ^ (8192 / 2 ^ l₁) := by
    rw [← pow_mul]
    congr 1
    refine Nat.eq_of_mul_eq_mul_left (Nat.two_pow_pos l₁) ?_
    rw [two_pow_mul_div (by omega), Nat.mul_comm _ (2 ^ l₂), ← Nat.mul_assoc, hN]
  have hroot₂ : (w ^ (8192 / (2 ^ l₁ * 2 ^ l₂))) ^ 2 ^ l₁ = w ^ (8192 / 2 ^ l₂) := by
    rw [← pow_mul]
    congr 1
    refine Nat.eq_of_mul_eq_mul_left (Nat.two_pow_pos l₂) ?_
    rw [two_pow_mul_div (by omega), Nat.mul_comm _ (2 ^ l₁), ← Nat.mul_assoc,
      Nat.mul_comm (2 ^ l₂), hN]
  have hidx : k % 2 ^ l₁ + k / 2 ^ l₁ * 2 ^ l₁ = k := by rw [Nat.add_comm, Nat.div_add_mod']
  conv_rhs => rw [← hidx, dft_four_step hone, hroot₁, hroot₂]
  rw [fourStepNet, subTransform_eq_dft hw (by omega) _ hk₂]
  refine dft_congr (fun n₂ _ => ?_) _
  rw [subTransform_eq_dft hw (by omega) _ hk₁, smul_eq_mul, mul_comm]
  congr 1
  rw [Nat.mul_comm (n₂ * _ % _), pow_mul]
  exact (pow_eq_pow_mod _ hone).symm

end Dft

/-! ### The transform and its inverse -/

section Transform
variable {w : ScalarField} {l₁ l₂ inBatch midBatch outBatch batch : ℕ} {mid out inp roots : Buf}
  {shared₁ shared₂ : ℕ → ℕ → ℕ → Fr} {m : Mem}

theorem add_le_of_dvd (h : 2 ^ l₁ * 2 ^ l₂ ∣ 8192) : l₁ + l₂ ≤ 13 := by
  rw [← pow_add, show 8192 = 2 ^ 13 by decide] at h
  exact (Nat.pow_dvd_pow_iff_le_right (by decide)).mp h

theorem fourStep_dft (mid out : Buf) (shared₁ shared₂ : ℕ → ℕ → ℕ → Fr)
    (hw : IsPrimitiveRoot w 8192) (hroots : RootTable m roots fun k => w ^ k)
    (h₁ : l₁ ≤ 7) (h₂ : l₂ ≤ 7) (h : l₁ + l₂ ≤ 13) (hmidroots : roots ≠ mid)
    (hmid : 2 ^ l₁ * 2 ^ l₂ ≤ midBatch) (hout : 2 ^ l₁ * 2 ^ l₂ ≤ outBatch) {scale : ℕ}
    {scaleVal : Fr} {s : ScalarField} (hs : scale ≠ 0 → FrRep scaleVal s) {b : ℕ} (hb : b < batch)
    {x : ℕ → ScalarField}
    (hx : ∀ i < 2 ^ l₁ * 2 ^ l₂, FrRep (frAt m inp (b * inBatch + i)) (x i)) {k : ℕ}
    (hk : k < 2 ^ l₁ * 2 ^ l₂) :
    FrRep (frAt (runAll (fourStep mid out inp roots (2 ^ l₁) (2 ^ l₂) inBatch midBatch outBatch
        scale scaleVal batch shared₁ shared₂) id m) out (b * outBatch + k))
      ((if scale ≠ 0 then s else 1) *
        dft (w ^ (8192 / (2 ^ l₁ * 2 ^ l₂))) (2 ^ l₁ * 2 ^ l₂) x k) := by
  rw [← fourStepNet_eq_dft hw h x hk, mul_comm (ite _ _ _)]
  exact fourStep_rep mid out shared₁ shared₂ hroots h₁ h₂ h hmidroots hmid hout hs hb hx hk

theorem frame_fourStep {N1 N2 scale : ℕ} {scaleVal : Fr} {b : Buf} (hmid : b ≠ mid)
    (hout : b ≠ out) :
    runAll (fourStep mid out inp roots N1 N2 inBatch midBatch outBatch scale scaleVal batch
      shared₁ shared₂) id m b = m b := by
  rw [fourStep, runAll_cons, runAll_cons, runAll_nil, frame_recordNtt hout, frame_recordNtt hmid]

/-- Transforming back with the inverse table and the scale `1 / N` restores the input. -/
theorem fourStep_inverse (hw : IsPrimitiveRoot w 8192) (hroots : RootTable m roots fun k => w ^ k)
    {rootsI : Buf} (hinv : RootTable m rootsI fun k => w⁻¹ ^ k)
    (h₁ : l₁ ≤ 7) (h₂ : l₂ ≤ 7) (h : l₁ + l₂ ≤ 13) (hmidroots : roots ≠ mid)
    (hmid : 2 ^ l₁ * 2 ^ l₂ ≤ midBatch) (hout : 2 ^ l₁ * 2 ^ l₂ ≤ outBatch)
    {mid' back : Buf} {midBatch' backBatch : ℕ} (hmid' : 2 ^ l₁ * 2 ^ l₂ ≤ midBatch')
    (hback : 2 ^ l₁ * 2 ^ l₂ ≤ backBatch) (hinvmid : rootsI ≠ mid) (hinvout : rootsI ≠ out)
    (hinvmid' : rootsI ≠ mid') {shared₃ shared₄ : ℕ → ℕ → ℕ → Fr} {invN : Fr}
    (hinvN : FrRep invN ((2 ^ l₁ * 2 ^ l₂ : ℕ) : ScalarField)⁻¹) {b : ℕ} (hb : b < batch)
    {x : ℕ → ScalarField}
    (hx : ∀ i < 2 ^ l₁ * 2 ^ l₂, FrRep (frAt m inp (b * inBatch + i)) (x i)) {k : ℕ}
    (hk : k < 2 ^ l₁ * 2 ^ l₂) :
    FrRep (frAt (runAll (fourStep mid' back out rootsI (2 ^ l₁) (2 ^ l₂) outBatch midBatch'
        backBatch 1 invN batch shared₃ shared₄) id
      (runAll (fourStep mid out inp roots (2 ^ l₁) (2 ^ l₂) inBatch midBatch outBatch
        0 frZero batch shared₁ shared₂) id m)) back (b * backBatch + k)) (x k) := by
  have hNpos : (2 ^ l₁ * 2 ^ l₂ : ℕ) ∣ 8192 := by
    rw [← pow_add]
    exact ⟨_, (two_pow_mul_div h).symm⟩
  have hN0 : ((2 ^ l₁ * 2 ^ l₂ : ℕ) : ScalarField) ≠ 0 :=
    natCast_ne_zero_of_lt (by positivity)
      (lt_of_le_of_lt (Nat.le_of_dvd (by decide) hNpos) (by decide))
  have hinv' : RootTable (runAll (fourStep mid out inp roots (2 ^ l₁) (2 ^ l₂) inBatch midBatch
      outBatch 0 frZero batch shared₁ shared₂) id m) rootsI fun k => w⁻¹ ^ k := by
    intro k hk
    rw [frAt_congr (frame_fourStep hinvmid hinvout)]
    exact hinv k hk
  have hroot : IsPrimitiveRoot (w ^ (8192 / (2 ^ l₁ * 2 ^ l₂))) (2 ^ l₁ * 2 ^ l₂) :=
    hw.pow (by decide) (Nat.div_mul_cancel hNpos).symm
  have hrep := fourStep_dft mid' back shared₃ shared₄ hw.inv hinv' h₁ h₂ h hinvmid' hmid' hback
    (fun _ : 1 ≠ 0 => hinvN) hb
    (fun i hi => fourStep_dft mid out shared₁ shared₂ hw hroots h₁ h₂ h hmidroots hmid hout
      (s := 1) (fun h0 : 0 ≠ 0 => absurd rfl h0) hb hx hi) hk
  rw [if_pos one_ne_zero, inv_pow] at hrep
  simp only [ne_eq, not_true, if_false, one_mul] at hrep
  rwa [dft_inv_dft hroot x hk, smul_eq_mul, inv_mul_cancel_left₀ hN0] at hrep

end Transform

/-! ### Footprints -/

section FourStepFootprint
variable {P : Access Buf → Prop} {u : ℕ → ℕ} {l₁ l₂ inBatch midBatch outBatch batch : ℕ}
  {mid out inp roots : Buf}

theorem BlobWords.grid {buf : Buf} {stride b N1 N2 t tid k : ℕ}
    (h : BlobWords P u buf (b * (stride * 8)) (N1 * N2 * 8) b) (ht : t < N2) (htid : tid < N1)
    (hk : k < 8) :
    let i := (b * stride + (t + tid * N2)) * 8 + k
    u i = i ∧ P ⟨buf, 4, i, some b⟩ := by
  intro i
  have hlt : t + tid * N2 < N1 * N2 := by
    rw [Nat.add_comm]
    exact block_lt htid ht
  have hi : i = b * (stride * 8) + ((t + tid * N2) * 8 + k) := by
    simp only [i]
    ring
  rw [hi]
  exact h _ (by omega)

theorem within_fourStep (h₁ : l₁ ≤ 7) (h₂ : l₂ ≤ 7) (h : l₁ + l₂ ≤ 13)
    (hroots : ∀ b < batch, BlobWords P u roots 0 65536 b)
    (hinp : ∀ b < batch, BlobWords P u inp (b * (inBatch * 8)) (2 ^ l₁ * 2 ^ l₂ * 8) b)
    (hmid : ∀ b < batch, BlobWords P u mid (b * (midBatch * 8)) (2 ^ l₁ * 2 ^ l₂ * 8) b)
    (hout : ∀ b < batch, BlobWords P u out (b * (outBatch * 8)) (2 ^ l₁ * 2 ^ l₂ * 8) b)
    {scale : ℕ} {scaleVal : Fr} {shared₁ shared₂ : ℕ → ℕ → ℕ → Fr} :
    ∀ k ∈ fourStep mid out inp roots (2 ^ l₁) (2 ^ l₂) inBatch midBatch outBatch scale scaleVal
      batch shared₁ shared₂, ∀ m, Within P u m k := by
  have hu : ∀ b < batch, ∀ i < 65536, u i = i := fun b hb i hi => ((hroots b hb).first hi).1
  have hP : ∀ b < batch, ∀ i < 65536, P ⟨roots, 4, i, some b⟩ :=
    fun b hb i hi => ((hroots b hb).first hi).2
  intro k hk m
  rcases List.mem_cons.mp hk with rfl | hk
  · refine within_dispatch fun b hb t ht => within_kNttPass rfl h₁
      (two_pow_mul_div (by omega)) (hu b hb) (hP b hb) (fun tid _ => twiddle_lt h _)
      (fun tid htid k hk => ?_) fun tid htid k hk => ?_
    · simp only [nttPass1, mul_one]
      exact (hinp b hb).grid ht htid hk
    · simp only [nttPass1, mul_one]
      exact (hmid b hb).grid ht htid hk
  · obtain rfl := List.mem_singleton.mp hk
    refine within_dispatch fun b hb t ht => within_kNttPass rfl h₂
      (two_pow_mul_div (by omega)) (hu b hb) (hP b hb)
      (fun tid _ => by simp only [nttPass2, Nat.mul_zero]; decide)
      (fun tid htid k hk => ?_) fun tid htid k hk => ?_
    · simp only [nttPass2, mul_one]
      rw [Nat.add_comm (t * 2 ^ l₂)]
      exact (hmid b hb).grid htid ht hk
    · simp only [nttPass2, mul_one]
      have := hout b hb
      rw [Nat.mul_comm (2 ^ l₁)] at this
      exact this.grid ht htid hk

/-- On exact indices the passes do what they do on unbounded ones. -/
theorem withinAll_fourStep (h₁ : l₁ ≤ 7) (h₂ : l₂ ≤ 7) (h : l₁ + l₂ ≤ 13)
    (hroot : ∀ n < 65536, u n = n)
    (hinp : ExactSlices u (inBatch * 8) (2 ^ l₁ * 2 ^ l₂ * 8) batch)
    (hmid : ExactSlices u (midBatch * 8) (2 ^ l₁ * 2 ^ l₂ * 8) batch)
    (hout : ExactSlices u (outBatch * 8) (2 ^ l₁ * 2 ^ l₂ * 8) batch) (mid out inp roots : Buf)
    (scale : ℕ) (scaleVal : Fr) (shared₁ shared₂ : ℕ → ℕ → ℕ → Fr) (m : Mem) :
    WithinAll (fun _ => True) u (fourStep mid out inp roots (2 ^ l₁) (2 ^ l₂) inBatch midBatch
      outBatch scale scaleVal batch shared₁ shared₂) m := by
  have hroots : ∀ b < batch, BlobWords (fun _ => True) u roots 0 65536 b := fun b _ k hk => by
    rw [Nat.zero_add]
    exact ⟨hroot k hk, trivial⟩
  exact withinAll_of_forall (within_fourStep h₁ h₂ h hroots hinp.words hmid.words hout.words) m

end FourStepFootprint

/-- The two dispatches of a four-step transform leave the scaled discrete Fourier transform of each
blob in natural order, storing each output word exactly once, and transforming back with the table
of inverse roots and the scale `1 / N` restores the input. The indices of the roots and of the
slices are exact. -/
theorem fourStep_correct {w : ScalarField} (hw : IsPrimitiveRoot w 8192) {l₁ l₂ : ℕ} (h₁ : l₁ ≤ 7)
    (h₂ : l₂ ≤ 7) (hN : 2 ^ l₁ * 2 ^ l₂ ∣ 8192) {mid out inp roots : Buf} (hmidroots : roots ≠ mid)
    {inBatch midBatch outBatch : ℕ} (hmid : 2 ^ l₁ * 2 ^ l₂ ≤ midBatch)
    (hout : 2 ^ l₁ * 2 ^ l₂ ≤ outBatch) (batch : ℕ) {u : ℕ → ℕ} (hroot : ∀ n < 65536, u n = n)
    (hinu : ExactSlices u (inBatch * 8) (2 ^ l₁ * 2 ^ l₂ * 8) batch)
    (hmidu : ExactSlices u (midBatch * 8) (2 ^ l₁ * 2 ^ l₂ * 8) batch)
    (houtu : ExactSlices u (outBatch * 8) (2 ^ l₁ * 2 ^ l₂ * 8) batch)
    (shared₁ shared₂ : ℕ → ℕ → ℕ → Fr) {m : Mem}
    (hroots : RootTable m roots fun k => w ^ k) {scale : ℕ} {scaleVal : Fr} {s : ScalarField}
    (hs : scale ≠ 0 → FrRep scaleVal s) {x : ℕ → ℕ → ScalarField}
    (hx : ∀ b < batch, ∀ i < 2 ^ l₁ * 2 ^ l₂, FrRep (frAt m inp (b * inBatch + i)) (x b i)) :
    let N := 2 ^ l₁ * 2 ^ l₂
    let m₁ := (recordNtt mid inp roots (nttPass1 N (2 ^ l₁) (2 ^ l₂) inBatch midBatch) (2 ^ l₂)
      batch shared₁).exec u m
    let pass₂ := recordNtt out mid roots
      { nttPass2 N (2 ^ l₁) (2 ^ l₂) midBatch outBatch with scale := scale, scaleVal := scaleVal }
      (2 ^ l₁) batch shared₂
    (∀ b < batch, ∀ k < N, FrRep (frAt (pass₂.exec u m₁) out (b * outBatch + k))
      ((if scale ≠ 0 then s else 1) *
        ∑ n ∈ Finset.range N, x b n * w ^ (8192 / N * n * k))) ∧
    (∀ b < batch, ∀ k < N, ∀ i < 8, ((landing out (pass₂.stores u m₁)).filter fun t =>
      t.2.1 = (b * outBatch + k) * 8 + i).length = 1) ∧
    (∀ t ∈ landing out (pass₂.stores u m₁), ∃ b < batch, ∃ k < N, ∃ i < 8,
      t.2.1 = (b * outBatch + k) * 8 + i) ∧
    ∀ (mid' back rootsI : Buf) (midBatch' backBatch : ℕ) (shared₃ shared₄ : ℕ → ℕ → ℕ → Fr)
      (invN : Fr), rootsI ≠ mid → rootsI ≠ out → rootsI ≠ mid' → N ≤ midBatch' → N ≤ backBatch →
      ExactSlices u (midBatch' * 8) (N * 8) batch → ExactSlices u (backBatch * 8) (N * 8) batch →
      (RootTable m rootsI fun k => w⁻¹ ^ k) → FrRep invN (N : ScalarField)⁻¹ →
      ∀ b < batch, ∀ k < N, FrRep (frAt (runAll
        (fourStep mid out inp roots (2 ^ l₁) (2 ^ l₂) inBatch midBatch outBatch 0 frZero batch
            shared₁ shared₂ ++
          fourStep mid' back out rootsI (2 ^ l₁) (2 ^ l₂) outBatch midBatch' backBatch 1 invN batch
            shared₃ shared₄) u m) back (b * backBatch + k)) (x b k) := by
  have h := add_le_of_dvd hN
  have hfirst := withinAll_fourStep h₁ h₂ h hroot hinu hmidu houtu mid out inp roots
  obtain ⟨hpass₁, hpass₂, -⟩ := hfirst scale scaleVal shared₁ shared₂ m
  intro N m₁ pass₂
  have hm₁ : m₁ = (recordNtt mid inp roots (nttPass1 N (2 ^ l₁) (2 ^ l₂) inBatch midBatch) (2 ^ l₂)
      batch shared₁).exec id m := hpass₁.exec
  rw [hm₁, hpass₂.exec, hpass₂.stores]
  simp only [N]
  have hblocks := blocks_recordNtt ((recordNtt mid inp roots (nttPass1 (2 ^ l₁ * 2 ^ l₂)
    (2 ^ l₁) (2 ^ l₂) inBatch midBatch) (2 ^ l₂) batch shared₁).exec id m)
    { nttPass2 (2 ^ l₁ * 2 ^ l₂) (2 ^ l₁) (2 ^ l₂) midBatch outBatch with
      scale := scale, scaleVal := scaleVal } (2 ^ l₁) batch out mid roots shared₂ rfl h₂
  refine ⟨fun b hb k hk => ?_, fun b hb k hk i hi => ?_, fun t ht => ?_, ?_⟩
  · have hrep := fourStep_dft mid out shared₁ shared₂ hw hroots h₁ h₂
      h hmidroots hmid hout hs hb (hx b hb) hk
    have hsum : ∑ n ∈ Finset.range (2 ^ l₁ * 2 ^ l₂),
        x b n * w ^ (8192 / (2 ^ l₁ * 2 ^ l₂) * n * k) =
        dft (w ^ (8192 / (2 ^ l₁ * 2 ^ l₂))) (2 ^ l₁ * 2 ^ l₂) (x b) k :=
      Finset.sum_congr rfl fun n _ => by rw [smul_eq_mul, mul_comm, ← pow_mul, mul_assoc]
    rw [hsum]
    exact hrep
  · have hk₁ : k % 2 ^ l₁ < 2 ^ l₁ := Nat.mod_lt _ (Nat.two_pow_pos _)
    have hk₂ : k / 2 ^ l₁ < 2 ^ l₂ := Nat.div_lt_of_lt_mul hk
    -- The place of an output determines its tile and its thread.
    have honce := hblocks.once (x := (b, k % 2 ^ l₁, k / 2 ^ l₁)) (i := i)
      (List.nodup_range.product (List.nodup_range.product List.nodup_range))
      (fun q hq q' hq' heq => outIndex_inj (by rwa [Nat.mul_comm]) hq hq' heq)
      (by simp only [List.mem_product, List.mem_range]; exact ⟨hb, hk₁, hk₂⟩) hi
    have hidx : k % 2 ^ l₁ + k / 2 ^ l₁ * 2 ^ l₁ = k := by rw [Nat.add_comm, Nat.div_add_mod']
    simpa only [nttPass2, mul_one, hidx] using honce
  · obtain ⟨⟨b, t₁, i₁⟩, hq, i, hi, rfl⟩ := hblocks.mem_iff.mp ht
    simp only [List.mem_product, List.mem_range] at hq
    refine ⟨b, hq.1, i₁ * 2 ^ l₁ + t₁, ?_, i, hi, ?_⟩
    · rw [Nat.mul_comm (2 ^ l₁)]
      exact block_lt hq.2.2 hq.2.1
    · simp only [nttPass2, mul_one, Nat.add_comm t₁]
  · intro mid' back rootsI midBatch' backBatch shared₃ shared₄ invN hinvmid hinvout hinvmid' hmid'
      hback hmidu' hbacku hinv hinvN b hb k hk
    have hsecond := withinAll_fourStep h₁ h₂ h hroot houtu hmidu' hbacku mid' back out rootsI 1 invN
      shared₃ shared₄
    rw [(withinAll_append (hfirst 0 frZero shared₁ shared₂ m) (hsecond _)).runAll, runAll_append]
    exact fourStep_inverse hw hroots hinv h₁ h₂ h hmidroots hmid hout hmid' hback hinvmid hinvout
      hinvmid' hinvN hb (hx b hb) hk

/-- The transform of size 64 · 64 on a memory of scalars, with 32-bit indices. -/
theorem fourStep_correct_scalarMem :
    let m := scalarMem fun b i => if b = .rootsInv then rootOfUnity⁻¹ ^ i else i
    let m₁ := (recordNtt .workA .lagrange .rootsInv (nttPass1 (2 ^ 6 * 2 ^ 6) (2 ^ 6) (2 ^ 6) 4096 8192)
      (2 ^ 6) 3 fun _ _ _ => frZero).exec uint32 m
    FrRep (frAt ((recordNtt .polyExt .workA .rootsInv
        { nttPass2 (2 ^ 6 * 2 ^ 6) (2 ^ 6) (2 ^ 6) 8192 8192 with
          scale := 1, scaleVal := frInvExtBlob } (2 ^ 6) 3 fun _ _ _ => frZero).exec uint32 m₁)
        .polyExt (2 * 8192 + 5))
      ((if 1 ≠ 0 then 8192⁻¹ else 1) * ∑ n ∈ Finset.range (2 ^ 6 * 2 ^ 6),
        (2 * 4096 + n : ℕ) * rootOfUnity⁻¹ ^ (8192 / (2 ^ 6 * 2 ^ 6) * n * 5)) :=
  (@fourStep_correct _ isPrimitiveRoot_rootOfUnity.inv 6 6 (by decide) (by decide) (by decide)
    .workA .polyExt .lagrange .rootsInv (by decide) 4096 8192 8192 (by decide) (by decide) 3 uint32
    (fun n hn => uint32_of_lt (by omega)) (exactSlices_uint32 (by decide) (by decide))
    (exactSlices_uint32 (by decide) (by decide)) (exactSlices_uint32 (by decide) (by decide))
    (fun _ _ _ => frZero) (fun _ _ _ => frZero) _
    (fun k _ => by
      have h := frRep_scalarMem (fun b i => if b = .rootsInv then rootOfUnity⁻¹ ^ i else i)
        .rootsInv k
      simpa only [if_true] using h)
    1 _ _ (fun _ => frRep_invExtBlob) (fun b i => ((b * 4096 + i : ℕ) : ScalarField))
    (fun b _ i _ => by
      have h := frRep_scalarMem (fun b i => if b = .rootsInv then rootOfUnity⁻¹ ^ i else i)
        .lagrange (b * 4096 + i)
      simpa only [reduceCtorEq, if_false] using h)).1 2 (by decide) 5 (by decide)

end Vkzg
