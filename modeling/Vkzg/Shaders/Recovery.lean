import Vkzg.Shaders.FourStep
import Vkzg.Library.Erasure

/-! The kernels of cell recovery: `k_ew_mul.comp`, `k_ew_div.comp`, `k_pow_seq.comp` and
`k_vanishing_poly.comp`. -/

namespace Vkzg
open Radix Gpu Gpu.Kernel Polynomial Erasure

/-! ### Elementwise kernels -/

/-- How the second operand is addressed. -/
inductive EwMulBMode
  | batched | sharedTable | broadcast
deriving DecidableEq, Repr

def ewMulIndex (bMode : EwMulBMode) (base i : ℕ) : ℕ :=
  match bMode with
  | .batched => base + i
  | .sharedTable => i
  | .broadcast => 0

def ewMulThread (out aBuf bBuf : Buf) (bMode : EwMulBMode) (b i : ℕ) : Shader Unit :=
  if i ≥ fieldElementsPerExtBlob then pure () else do
    let base := b * fieldElementsPerExtBlob
    let av ← frLoad aBuf ((base + i) * frWords)
    let bv ← frLoad bBuf (ewMulIndex bMode base i * frWords)
    frStore out ((base + i) * frWords) (frMul av bv)

def kEwMul (out aBuf bBuf : Buf) (bMode : EwMulBMode) (wg b : ℕ) : Shader Unit :=
  each (List.range 256) fun tid => ewMulThread out aBuf bBuf bMode b (wg * 256 + tid)

def ewDivThread (out aBuf bBuf : Buf) (b i : ℕ) : Shader Unit :=
  if i ≥ fieldElementsPerExtBlob then pure () else do
    let base := b * fieldElementsPerExtBlob
    let av ← frLoad aBuf ((base + i) * frWords)
    let bv ← frLoad bBuf ((base + i) * frWords)
    frStore out ((base + i) * frWords) (frMul av (frInv bv))

def kEwDiv (out aBuf bBuf : Buf) (wg b : ℕ) : Shader Unit :=
  each (List.range 256) fun tid => ewDivThread out aBuf bBuf b (wg * 256 + tid)

def recoverEwMul (out aBuf bBuf : Buf) (bMode : EwMulBMode) (batch : ℕ) : Shader Unit :=
  dispatch (kEwMul out aBuf bBuf bMode) (fieldElementsPerExtBlob / 256) batch

def recoverEwDiv (out aBuf bBuf : Buf) (batch : ℕ) : Shader Unit :=
  dispatch (kEwDiv out aBuf bBuf) (fieldElementsPerExtBlob / 256) batch

section Elementwise
variable {m : Mem} {out aBuf bBuf : Buf} {bMode : EwMulBMode} {batch : ℕ}

theorem blocks_recoverEwMul (m : Mem) (out aBuf bBuf : Buf) (bMode : EwMulBMode) (batch : ℕ) :
    Blocks ((recoverEwMul out aBuf bBuf bMode batch).stores id m) out 4 8
      (List.range batch ×ˢ List.range (fieldElementsPerExtBlob / 256 * 256))
      (fun q => q.1 * 8192 + q.2)
      (fun q => limbWords (frMul (frAt m aBuf (q.1 * 8192 + q.2))
        (frAt m bBuf (ewMulIndex bMode (q.1 * 8192) q.2)))) := by
  refine blocks_lanes (ewMulThread out aBuf bBuf bMode) (fun b i => b * 8192 + i)
    (fun b i => limbWords (frMul (frAt m aBuf (b * 8192 + i))
      (frAt m bBuf (ewMulIndex bMode (b * 8192) i)))) fun b _ i hi => ?_
  rw [ewMulThread, if_neg (Nat.not_le.mpr (show i < 8192 from hi))]
  simp only [stores_bind, stores_frLoad, List.nil_append, val_frLoad, stores_frStore]
  exact landing_block none _ _ _

theorem blocks_recoverEwDiv (m : Mem) (out aBuf bBuf : Buf) (batch : ℕ) :
    Blocks ((recoverEwDiv out aBuf bBuf batch).stores id m) out 4 8
      (List.range batch ×ˢ List.range (fieldElementsPerExtBlob / 256 * 256))
      (fun q => q.1 * 8192 + q.2)
      (fun q => limbWords (frMul (frAt m aBuf (q.1 * 8192 + q.2))
        (frInv (frAt m bBuf (q.1 * 8192 + q.2))))) := by
  refine blocks_lanes (ewDivThread out aBuf bBuf) (fun b i => b * 8192 + i)
    (fun b i => limbWords (frMul (frAt m aBuf (b * 8192 + i))
      (frInv (frAt m bBuf (b * 8192 + i))))) fun b _ i hi => ?_
  rw [ewDivThread, if_neg (Nat.not_le.mpr (show i < 8192 from hi))]
  simp only [stores_bind, stores_frLoad, List.nil_append, val_frLoad, stores_frStore]
  exact landing_block none _ _ _

theorem frAt_elementwise {ws : List (Store Buf)} (v : ℕ → ℕ → Fr)
    (h : Blocks ws out 4 8 (List.range batch ×ˢ List.range (fieldElementsPerExtBlob / 256 * 256))
      (fun q => q.1 * 8192 + q.2) (fun q => limbWords (v q.1 q.2))) {b i : ℕ} (hb : b < batch)
    (hi : i < fieldElementsPerExtBlob) :
    frAt (applyAll ws m) out (b * fieldElementsPerExtBlob + i) = v b i := by
  refine frAt_hit (v := fun q : ℕ × ℕ => v q.1 q.2) h ?_ (x := (b, i))
    (List.mem_product.mpr ⟨List.mem_range.mpr hb, List.mem_range.mpr hi⟩) m
  rintro ⟨b₁, i₁⟩ h₁ ⟨b₂, i₂⟩ h₂ heq
  obtain ⟨rfl, rfl⟩ := block_inj (List.mem_range.mp (List.mem_product.mp h₁).2)
    (List.mem_range.mp (List.mem_product.mp h₂).2) heq
  rfl

theorem recoverEwMul_rep {b i : ℕ} (hb : b < batch) (hi : i < fieldElementsPerExtBlob)
    {x y : ScalarField} (hx : FrRep (frAt m aBuf (b * fieldElementsPerExtBlob + i)) x)
    (hy : FrRep (frAt m bBuf (ewMulIndex bMode (b * fieldElementsPerExtBlob) i)) y) :
    FrRep (frAt ((recoverEwMul out aBuf bBuf bMode batch).exec id m) out
      (b * fieldElementsPerExtBlob + i)) (x * y) := by
  have helem := frAt_elementwise (m := m) (fun b i => frMul (frAt m aBuf (b * 8192 + i))
    (frAt m bBuf (ewMulIndex bMode (b * 8192) i)))
    (blocks_recoverEwMul m out aBuf bBuf bMode batch) hb hi
  rw [exec, helem]
  exact frRep_mul hx hy

theorem recoverEwDiv_rep {b i : ℕ} (hb : b < batch) (hi : i < fieldElementsPerExtBlob)
    {x y : ScalarField} (hx : FrRep (frAt m aBuf (b * fieldElementsPerExtBlob + i)) x)
    (hy : FrRep (frAt m bBuf (b * fieldElementsPerExtBlob + i)) y) :
    FrRep (frAt ((recoverEwDiv out aBuf bBuf batch).exec id m) out
      (b * fieldElementsPerExtBlob + i)) (x * y⁻¹) := by
  have helem := frAt_elementwise (m := m) (fun b i => frMul (frAt m aBuf (b * 8192 + i))
    (frInv (frAt m bBuf (b * 8192 + i)))) (blocks_recoverEwDiv m out aBuf bBuf batch) hb hi
  rw [exec, helem]
  exact frRep_mul hx (frRep_inv hy)

theorem frame_recoverEwMul {b : Buf} (hout : b ≠ out) :
    (recoverEwMul out aBuf bBuf bMode batch).exec id m b = m b := by
  refine exec_frame ?_
  refine (landing_lanes (ewMulThread out aBuf bBuf bMode) 256 32 batch).trans ?_
  refine List.flatMap_eq_nil_iff.mpr fun q _ => ?_
  rw [ewMulThread]
  split_ifs
  · rfl
  · simp only [stores_bind, stores_frLoad, List.nil_append, stores_frStore,
      landing_block_other hout.symm]

theorem frame_recoverEwDiv {b : Buf} (hout : b ≠ out) :
    (recoverEwDiv out aBuf bBuf batch).exec id m b = m b := by
  refine exec_frame ?_
  refine (landing_lanes (ewDivThread out aBuf bBuf) 256 32 batch).trans ?_
  refine List.flatMap_eq_nil_iff.mpr fun q _ => ?_
  rw [ewDivThread]
  split_ifs
  · rfl
  · simp only [stores_bind, stores_frLoad, List.nil_append, stores_frStore,
      landing_block_other hout.symm]

end Elementwise

/-! ### Powers of the coset shift -/

/-- The accumulator after `i` multiplications. -/
def powSeq (factor : Fr) : ℕ → Fr
  | 0 => frFromCanonical frRawOne
  | i + 1 => frMul (powSeq factor i) factor

def powFactor (mode : ℕ) : Fr := if mode = 0 then frShift7 else frInvShift7

def kPowSeq (out scaleBuf : Buf) (mode : ℕ) : Shader Unit := do
  frStore scaleBuf 0 frInvExtBlob
  each (List.range fieldElementsPerExtBlob) fun i =>
    frStore out (i * frWords) (powSeq (powFactor mode) i)

/-- Both tables of shift powers, as written when a prover is created. -/
def populateCosetShiftTables : List (Shader Unit) :=
  [dispatch (fun _ _ => kPowSeq .cosetShiftFwd .invExtBlob 0) 1 1,
   dispatch (fun _ _ => kPowSeq .cosetShiftInv .invExtBlob 1) 1 1]

section PowSeq
variable {m : Mem} {out b : Buf} {mode : ℕ}

theorem powSeq_rep {factor : Fr} {g : ScalarField} (h : FrRep factor g) (i : ℕ) :
    FrRep (powSeq factor i) (g ^ i) := by
  induction i with
  | zero =>
    rw [pow_zero]
    exact frRep_one
  | succ i ih =>
    rw [pow_succ]
    exact frRep_mul ih h

theorem landing_powSeq (b : Buf) :
    landing b ((dispatch (fun _ _ => kPowSeq out .invExtBlob mode) 1 1).stores id m) =
      landing b ((frStore .invExtBlob 0 frInvExtBlob).stores id m) ++
        (List.range fieldElementsPerExtBlob).flatMap fun i =>
          landing b ((frStore out (i * frWords) (powSeq (powFactor mode) i)).stores id m) := by
  rw [landing_dispatch, List.range_one, List.flatMap_singleton, List.flatMap_singleton, kPowSeq,
    stores_bind, landing_append, stores_each, landing_flatMap]

theorem frame_powSeq (hout : b ≠ out) (hinv : b ≠ .invExtBlob) :
    (dispatch (fun _ _ => kPowSeq out .invExtBlob mode) 1 1).exec id m b = m b := by
  refine exec_frame ?_
  rw [landing_powSeq, stores_frStore, landing_block_other hinv.symm, List.nil_append]
  refine List.flatMap_eq_nil_iff.mpr fun i _ => ?_
  rw [stores_frStore, landing_block_other hout.symm]

theorem powSeq_elem (hout : out ≠ .invExtBlob) {i : ℕ} (hi : i < fieldElementsPerExtBlob) :
    frAt ((dispatch (fun _ _ => kPowSeq out .invExtBlob mode) 1 1).exec id m) out i =
      powSeq (powFactor mode) i := by
  have hblocks : Blocks ((dispatch (fun _ _ => kPowSeq out .invExtBlob mode) 1 1).stores id m) out
      4 8 (List.range fieldElementsPerExtBlob) id
      (fun i => limbWords (powSeq (powFactor mode) i)) := by
    rw [Blocks, landing_powSeq, stores_frStore, landing_block_other hout.symm, List.nil_append]
    exact List.flatMap_congr fun i _ => by rw [stores_frStore, landing_block]; rfl
  exact frAt_hit hblocks (fun x _ y _ h => by rw [show x = y from h]) (List.mem_range.mpr hi) m

theorem powSeq_scale (hout : out ≠ .invExtBlob) :
    frAt ((dispatch (fun _ _ => kPowSeq out .invExtBlob mode) 1 1).exec id m) .invExtBlob 0 =
      frInvExtBlob := by
  have hblocks : Blocks ((dispatch (fun _ _ => kPowSeq out .invExtBlob mode) 1 1).stores id m)
      .invExtBlob 4 8 [0] id (fun _ => limbWords frInvExtBlob) := by
    rw [Blocks, landing_powSeq, stores_frStore, landing_block, List.flatMap_singleton,
      List.flatMap_eq_nil_iff.mpr fun i _ => by rw [stores_frStore, landing_block_other hout],
      List.append_nil]
    rfl
  exact frAt_hit hblocks (fun _ _ _ _ _ => rfl) (List.mem_singleton_self 0) m

end PowSeq

/-! ### The vanishing polynomial -/

/-- The coefficients below the leading one, one missing cell after the other. -/
def vanishingCoeffs (roots missing : Buf) (shared : ℕ → Fr) (missBase count : ℕ) :
    Shader (ℕ → Fr) := do
  let root0 ← load 4 missing (missBase + 1)
  let first ← frLoad roots (root0 * 64 * frWords)
  (List.range' 1 (count - 1)).foldlM (fun sp i => do
    let rooti ← load 4 missing (missBase + 1 + i)
    let root ← frLoad roots (rooti * 64 * frWords)
    pure (mulFactor frAdd frMul sp i (frNeg root))) (Function.update shared 0 (frNeg first))

/-- What the first thread stores, given the number of missing cells. -/
def vanishingTerms (out roots missing : Buf) (shared : ℕ → Fr) (b count : ℕ) : Shader Unit :=
  let outBase := b * fieldElementsPerExtBlob
  let one := frFromCanonical frRawOne
  if count = 0 then frStore out (outBase * frWords) one
  else do
    let sp ← vanishingCoeffs roots missing shared (b * 65) count
    each (List.range (count + 1)) fun i =>
      frStore out ((outBase + i * fieldElementsPerCell) * frWords) (Function.update sp count one i)

/-- Thread `tid` clears every 128th slot; then the first thread spreads the coefficients. -/
def kVanishingPoly (out roots missing : Buf) (shared : ℕ → Fr) (b : ℕ) : Shader Unit := do
  each (List.range 128) fun tid => each (List.range (fieldElementsPerExtBlob / 128)) fun j =>
    frStore out ((b * fieldElementsPerExtBlob + (tid + 128 * j)) * frWords) frZero
  let count ← load 4 missing (b * 65)
  vanishingTerms out roots missing shared b count

def vanishingPolyDispatch (shared : ℕ → ℕ → Fr) (batch : ℕ) : Shader Unit :=
  dispatch (fun _ b => kVanishingPoly .recZCoeff .rootsFwd .recMissing (shared b) b) 1 batch

section Vanishing
variable {m : Mem} {ρ : ℕ → ScalarField} {batch : ℕ} {shared : ℕ → ℕ → Fr}

/-- The roots of the short polynomial of a blob, over a root table. -/
def missingRoots (ρ : ℕ → ScalarField) (m : Mem) (b : ℕ) : List ScalarField :=
  (List.range (m.elem 4 .recMissing (b * 65))).map fun t =>
    ρ (m.elem 4 .recMissing (b * 65 + 1 + t) * 64)

/-- The missing cells of a blob are listed by index, at most 64 of them. -/
structure MissingWf (m : Mem) (b : ℕ) : Prop where
  count_le : m.elem 4 .recMissing (b * 65) ≤ 64
  index_lt : ∀ t < m.elem 4 .recMissing (b * 65), m.elem 4 .recMissing (b * 65 + 1 + t) < 128

theorem mulFactor_rep {sp : ℕ → Fr} {y : ℕ → ScalarField} {i : ℕ} (hi : 0 < i)
    (hsp : ∀ k < i, FrRep (sp k) (y k)) {neg : Fr} {z : ScalarField} (hneg : FrRep neg z) {k : ℕ}
    (hk : k < i + 1) :
    FrRep (mulFactor frAdd frMul sp i neg k) (mulFactor (· + ·) (· * ·) y i z k) := by
  rw [mulFactor_apply _ _ _ hi, mulFactor_apply _ _ _ hi]
  split_ifs with h0 hlt heq
  · exact frRep_mul (hsp 0 hi) hneg
  · exact frRep_add (frRep_mul (hsp k hlt) hneg) (hsp (k - 1) (by omega))
  · exact frRep_add hneg (hsp (i - 1) (by omega))
  · omega

theorem vanishingCoeffs_rep (hroots : RootTable m .rootsFwd ρ) {b : ℕ} (hwf : MissingWf m b)
    (hcount : 0 < m.elem 4 .recMissing (b * 65)) (init : ℕ → Fr) {k : ℕ}
    (hk : k < m.elem 4 .recMissing (b * 65)) :
    FrRep ((vanishingCoeffs .rootsFwd .recMissing init (b * 65)
        (m.elem 4 .recMissing (b * 65))).val id m k)
      (((missingRoots ρ m b).map fun a => X - C a).prod.coeff k) := by
  set count := m.elem 4 .recMissing (b * 65) with hc
  set r := fun t => ρ (m.elem 4 .recMissing (b * 65 + 1 + t) * 64) with hr
  have hroot : ∀ t < count, FrRep (frNeg (frAt m .rootsFwd
      (m.elem 4 .recMissing (b * 65 + 1 + t) * 64))) (-r t) := fun t ht =>
    frRep_neg (hroots _ (by
      have := hwf.index_lt t ht
      exact show _ < 8192 by omega))
  have hval : ∀ n, (vanishingCoeffs .rootsFwd .recMissing init (b * 65) (n + 1)).val id m =
      (List.range' 1 n).foldl (fun sp i => mulFactor frAdd frMul sp i (frNeg (frAt m .rootsFwd
        (m.elem 4 .recMissing (b * 65 + 1 + i) * 64))))
        (Function.update init 0 (frNeg (frAt m .rootsFwd
          (m.elem 4 .recMissing (b * 65 + 1 + 0) * 64)))) := fun n => by
    rw [vanishingCoeffs, val_bind, val_bind, val_foldlM]
    rfl
  -- After the factors of `n + 1` cells the entries below `n + 1` are the product's coefficients.
  have key : ∀ n < count, ∀ k < n + 1,
      FrRep ((vanishingCoeffs .rootsFwd .recMissing init (b * 65) (n + 1)).val id m k)
        ((((List.range (n + 1)).map r).map fun a => X - C a).prod.coeff k) := by
    intro n
    induction n with
    | zero =>
      intro h0 k hk
      obtain rfl : k = 0 := by omega
      rw [hval, List.range'_zero, List.foldl_nil, Function.update_self]
      simpa using hroot 0 h0
    | succ n ih =>
      intro hn k hk
      have hprev := ih (by omega)
      rw [hval, List.range'_1_concat, List.foldl_append, List.foldl_cons, List.foldl_nil, ← hval,
        Nat.add_comm 1 n]
      have hstep := mulFactor_rep (Nat.succ_pos n) hprev (hroot (n + 1) hn) hk
      have hfactors := mulFactor_factors (r := (List.range (n + 1)).map r) (by simp) (r (n + 1))
        (fun k _ => rfl) (k := k) (by simpa using hk)
      simp only [List.length_map, List.length_range] at hfactors
      rw [List.range_succ (n := n + 1), List.map_append, List.map_singleton, ← hfactors]
      exact hstep
  obtain ⟨n, hn⟩ : ∃ n, count = n + 1 := ⟨count - 1, by omega⟩
  have hroots' : missingRoots ρ m b = (List.range (n + 1)).map r := by
    rw [missingRoots, ← hc, hn]
  rw [hroots', hn]
  exact key n (by omega) k (by omega)

@[simp] theorem stores_vanishingCoeffs (u : ℕ → ℕ) (roots missing : Buf) (init : ℕ → Fr)
    (missBase count : ℕ) : (vanishingCoeffs roots missing init missBase count).stores u m = [] := by
  rw [vanishingCoeffs, stores_bind, stores_bind, stores_load, stores_frLoad,
    stores_foldlM fun _ _ _ => rfl]
  rfl

/-- The value of coefficient `i` of the short polynomial, as stored. -/
def shortCoeff (m : Mem) (init : ℕ → Fr) (b i : ℕ) : Fr :=
  if m.elem 4 .recMissing (b * 65) = 0 then frFromCanonical frRawOne
  else Function.update ((vanishingCoeffs .rootsFwd .recMissing init (b * 65)
    (m.elem 4 .recMissing (b * 65))).val id m) (m.elem 4 .recMissing (b * 65))
      (frFromCanonical frRawOne) i

theorem shortCoeff_rep (hroots : RootTable m .rootsFwd ρ) {b : ℕ} (hwf : MissingWf m b)
    (init : ℕ → Fr) {i : ℕ} (hi : i ≤ m.elem 4 .recMissing (b * 65)) :
    FrRep (shortCoeff m init b i) (((missingRoots ρ m b).map fun a => X - C a).prod.coeff i) := by
  have hlength : (missingRoots ρ m b).length = m.elem 4 .recMissing (b * 65) := by
    rw [missingRoots, List.length_map, List.length_range]
  have htop : ((missingRoots ρ m b).map fun a => X - C a).prod.coeff
      (m.elem 4 .recMissing (b * 65)) = 1 := by
    have hmonic := monic_factors (missingRoots ρ m b)
    rwa [Monic, leadingCoeff, natDegree_factors, hlength] at hmonic
  unfold shortCoeff
  split_ifs with h0
  · rw [show i = m.elem 4 .recMissing (b * 65) by omega, htop]
    exact frRep_one
  · rcases Nat.lt_or_eq_of_le hi with hlt | rfl
    · rw [Function.update_of_ne hlt.ne]
      exact vanishingCoeffs_rep hroots hwf (by omega) init hlt
    · rw [Function.update_self, htop]
      exact frRep_one

theorem landing_kVanishingPoly (init : ℕ → Fr) (b : ℕ) :
    landing .recZCoeff ((kVanishingPoly .recZCoeff .rootsFwd .recMissing init b).stores id m) =
      ((List.range 128 ×ˢ List.range 64).flatMap fun q => (List.range 8).map fun k =>
        (4, (b * 8192 + (q.1 + 128 * q.2)) * 8 + k, limbWords frZero k)) ++
      (List.range (m.elem 4 .recMissing (b * 65) + 1)).flatMap fun i => (List.range 8).map fun k =>
        (4, (b * 8192 + i * 64) * 8 + k, limbWords (shortCoeff m init b i) k) := by
  rw [kVanishingPoly, stores_bind, landing_append]
  refine congrArg₂ (· ++ ·) ?_ ?_
  · rw [stores_each, landing_flatMap, flatMap_product]
    refine List.flatMap_congr fun tid _ => ?_
    rw [stores_each, landing_flatMap]
    exact List.flatMap_congr fun j _ => by rw [stores_frStore, landing_block]; rfl
  · rw [stores_bind, stores_load, List.nil_append, val_load, id, vanishingTerms]
    by_cases h0 : m.elem 4 .recMissing (b * 65) = 0
    · have hcoeff : ∀ i, shortCoeff m init b i = frFromCanonical frRawOne := fun i => if_pos h0
      simp only [h0, if_true, hcoeff, Nat.zero_add, List.range_one, List.flatMap_singleton,
        Nat.zero_mul, Nat.add_zero, stores_frStore, landing_block]
      rfl
    · have hcoeff : ∀ i, shortCoeff m init b i = _ := fun i => if_neg h0
      simp only [h0, if_false, hcoeff, stores_bind, stores_vanishingCoeffs, List.nil_append,
        stores_each, landing_flatMap, stores_frStore, landing_block]
      rfl

theorem vanishingPoly_elem {b i : ℕ} (hb : b < batch) (hi : i < fieldElementsPerExtBlob)
    (hwf : ∀ b < batch, MissingWf m b) :
    frAt ((vanishingPolyDispatch shared batch).exec id m) .recZCoeff
        (b * fieldElementsPerExtBlob + i) =
      if 64 ∣ i ∧ i / 64 ≤ m.elem 4 .recMissing (b * 65) then shortCoeff m (shared b) b (i / 64)
      else frZero := by
  have hland : landing .recZCoeff ((vanishingPolyDispatch shared batch).stores id m) =
      (List.range batch).flatMap fun b => landing .recZCoeff ((kVanishingPoly .recZCoeff .rootsFwd
        .recMissing (shared b) b).stores id m) := by
    rw [vanishingPolyDispatch, landing_dispatch]
    exact List.flatMap_congr fun y _ => by rw [List.range_one, List.flatMap_singleton]
  have hgroup : ∀ b < batch, ∀ t ∈ landing .recZCoeff ((kVanishingPoly .recZCoeff .rootsFwd
      .recMissing (shared b) b).stores id m),
        t.1 = 4 ∧ ∃ k < 8192 * 8, t.2.1 = b * (8192 * 8) + k := by
    intro b hb t ht
    rw [landing_kVanishingPoly] at ht
    rcases List.mem_append.mp ht with ht | ht
    · obtain ⟨q, hq, ht⟩ := List.mem_flatMap.mp ht
      obtain ⟨k, hk, rfl⟩ := List.mem_map.mp ht
      have := List.mem_range.mp (List.mem_product.mp hq).1
      have := List.mem_range.mp (List.mem_product.mp hq).2
      have := List.mem_range.mp hk
      exact ⟨rfl, (q.1 + 128 * q.2) * 8 + k, by omega, by ring⟩
    · obtain ⟨j, hj, ht⟩ := List.mem_flatMap.mp ht
      obtain ⟨k, hk, rfl⟩ := List.mem_map.mp ht
      have := List.mem_range.mp hj
      have := (hwf b hb).count_le
      have := List.mem_range.mp hk
      exact ⟨rfl, j * 64 * 8 + k, by omega, by ring⟩
  have hi' : i < 8192 := hi
  -- The zeros are stored first, and the spread coefficients over them.
  refine frAt_lastAt (fun t ht => ?_) (fun k hk => ?_) m
  · rw [hland] at ht
    obtain ⟨b, hb, ht⟩ := List.mem_flatMap.mp ht
    exact (hgroup b (List.mem_range.mp hb) t ht).1
  · have hpos : (b * 8192 + i) * 8 + k = b * (8192 * 8) + (i * 8 + k) := by ring
    rw [hland, hpos, lastAt_group (p := fun b => b) (fun b hb t ht =>
      (hgroup b (List.mem_range.mp hb) t ht).2) (fun _ _ _ _ h => h) (List.mem_range.mpr hb)
      (by omega), ← hpos, landing_kVanishingPoly, lastAt_append]
    have hzero : lastAt ((List.range 128 ×ˢ List.range 64).flatMap fun q => (List.range 8).map
        fun k => (4, (b * 8192 + (q.1 + 128 * q.2)) * 8 + k, limbWords frZero k))
          ((b * 8192 + i) * 8 + k) = some (limbWords frZero k) := by
      have hx : (i % 128, i / 128) ∈ List.range 128 ×ˢ List.range 64 :=
        List.mem_product.mpr ⟨List.mem_range.mpr (Nat.mod_lt i (by decide)),
          List.mem_range.mpr (by omega)⟩
      have := lastAt_blocks (w := 4) (p := fun q : ℕ × ℕ => b * 8192 + (q.1 + 128 * q.2))
        (f := fun _ => limbWords frZero) (fun _ _ _ _ _ => rfl) hx hk
      simpa only [Nat.mod_add_div] using this
    split_ifs with hspread
    · obtain ⟨⟨j, rfl⟩, hj⟩ := hspread
      rw [Nat.mul_div_cancel_left j (by decide)] at hj ⊢
      have := lastAt_blocks (w := 4) (p := fun j => b * 8192 + j * 64)
        (f := fun j => limbWords (shortCoeff m (shared b) b j))
        (fun x _ y _ h => by rw [show x = y by omega]) (List.mem_range.mpr (Nat.lt_succ_of_le hj)) hk
      rw [Nat.mul_comm 64 j, this, Option.some_or]
    · rw [lastAt_blocks_none (fun j hj heq => hspread ?_) hk, Option.none_or, hzero]
      have := List.mem_range.mp hj
      exact ⟨⟨j, by omega⟩, by omega⟩

theorem vanishingPoly_rep (hroots : RootTable m .rootsFwd ρ) (hwf : ∀ b < batch, MissingWf m b)
    {b i : ℕ} (hb : b < batch) (hi : i < fieldElementsPerExtBlob) :
    FrRep (frAt ((vanishingPolyDispatch shared batch).exec id m) .recZCoeff
      (b * fieldElementsPerExtBlob + i)) ((vanishing 64 (missingRoots ρ m b)).coeff i) := by
  rw [vanishingPoly_elem hb hi hwf, vanishing, coeff_expand (by decide)]
  split_ifs with h hdvd hdvd
  · exact shortCoeff_rep hroots (hwf b hb) _ h.2
  · exact absurd h.1 hdvd
  · rw [coeff_eq_zero_of_natDegree_lt]
    · exact frRep_zero
    · rw [natDegree_factors, missingRoots, List.length_map, List.length_range]
      exact Nat.lt_of_not_le fun hle => h ⟨hdvd, hle⟩
  · exact frRep_zero

theorem frame_vanishingPoly {b : Buf} (hout : b ≠ .recZCoeff) :
    (vanishingPolyDispatch shared batch).exec id m b = m b := by
  refine exec_dispatch_frame fun _ b' => ?_
  rw [kVanishingPoly, stores_bind, landing_append, stores_bind, stores_load, List.nil_append,
    landing_each_nil fun tid _ => landing_each_nil fun j _ => ?_, List.nil_append, vanishingTerms]
  · split_ifs
    · rw [stores_frStore, landing_block_other hout.symm]
    · rw [stores_bind, stores_vanishingCoeffs, List.nil_append]
      exact landing_each_nil fun i _ => by rw [stores_frStore, landing_block_other hout.symm]
  · rw [stores_frStore, landing_block_other hout.symm]

end Vanishing

/-! ### Footprints -/

section Footprints
variable {P : Access Buf → Prop} {u : ℕ → ℕ} {m : Mem} {out aBuf bBuf : Buf} {batch : ℕ}

theorem BlobWords.scalar {buf : Buf} {b i : ℕ} (h : BlobWords P u buf (b * 65536) 65536 b)
    (hi : i < 8192) : BlobWords P u buf ((b * 8192 + i) * 8) 8 b := by
  intro k hk
  rw [show (b * 8192 + i) * 8 + k = b * 65536 + (i * 8 + k) by ring]
  exact h _ (by omega)

/-- The words the second operand of a product is read from. -/
def EwMulWords (P : Access Buf → Prop) (u : ℕ → ℕ) (bBuf : Buf) (bMode : EwMulBMode) (b : ℕ) : Prop :=
  match bMode with
  | .batched => BlobWords P u bBuf (b * 65536) 65536 b
  | .sharedTable => BlobWords P u bBuf 0 65536 b
  | .broadcast => BlobWords P u bBuf 0 8 b

theorem within_recoverEwMul {bMode : EwMulBMode}
    (ha : ∀ b < batch, BlobWords P u aBuf (b * 65536) 65536 b)
    (hb : ∀ b < batch, EwMulWords P u bBuf bMode b)
    (hout : ∀ b < batch, BlobWords P u out (b * 65536) 65536 b) :
    Within P u m (recoverEwMul out aBuf bBuf bMode batch) := by
  refine within_dispatch fun b hlt wg hwg => within_each fun tid htid => ?_
  have htid := List.mem_range.mp htid
  unfold ewMulThread
  split_ifs with hi
  · exact within_pure ()
  have hi : wg * 256 + tid < 8192 := Nat.lt_of_not_le hi
  refine within_bind ((ha b hlt).scalar hi).limbsLoad
    (within_bind ?_ ((hout b hlt).scalar hi).limbsStore)
  have hb := hb b hlt
  cases bMode with
  | batched => exact (BlobWords.scalar hb hi).limbsLoad
  | sharedTable =>
    have hwords : BlobWords P u bBuf ((wg * 256 + tid) * 8) 8 b := fun k hk =>
      BlobWords.first hb (by omega)
    exact hwords.limbsLoad
  | broadcast =>
    have hwords : BlobWords P u bBuf (0 * 8) 8 b := by
      rw [Nat.zero_mul]
      exact hb
    exact hwords.limbsLoad

theorem within_recoverEwDiv (ha : ∀ b < batch, BlobWords P u aBuf (b * 65536) 65536 b)
    (hb : ∀ b < batch, BlobWords P u bBuf (b * 65536) 65536 b)
    (hout : ∀ b < batch, BlobWords P u out (b * 65536) 65536 b) :
    Within P u m (recoverEwDiv out aBuf bBuf batch) := by
  refine within_dispatch fun b hlt wg hwg => within_each fun tid htid => ?_
  have htid := List.mem_range.mp htid
  unfold ewDivThread
  split_ifs with hi
  · exact within_pure ()
  have hi : wg * 256 + tid < 8192 := Nat.lt_of_not_le hi
  exact within_bind ((ha b hlt).scalar hi).limbsLoad
    (within_bind ((hb b hlt).scalar hi).limbsLoad ((hout b hlt).scalar hi).limbsStore)

/-- A blob's vanishing polynomial takes the list of its missing cells and some of the roots. -/
theorem within_vanishingPoly {shared : ℕ → ℕ → Fr} (hwf : ∀ b < batch, MissingWf m b)
    (hroots : ∀ b < batch, BlobWords P u .rootsFwd 0 65536 b)
    (hmissing : ∀ b < batch, BlobWords P u .recMissing (b * 65) 65 b)
    (hout : ∀ b < batch, BlobWords P u .recZCoeff (b * 65536) 65536 b) :
    Within P u m (vanishingPolyDispatch shared batch) := by
  refine within_dispatch fun b hb x hx => ?_
  have hcount := (hwf b hb).count_le
  have hstore : ∀ i < 8192, ∀ v : Fr, Within (fun a => P (a.own b)) u m
      (frStore .recZCoeff ((b * fieldElementsPerExtBlob + i) * frWords) v) := fun i hi v =>
    ((hout b hb).scalar hi).limbsStore
  have hroot : ∀ t < m.elem 4 .recMissing (b * 65), Within (fun a => P (a.own b)) u m
      (frLoad .rootsFwd (m.elem 4 .recMissing (b * 65 + 1 + t) * 64 * frWords)) := fun t ht => by
    have hlt := (hwf b hb).index_lt t ht
    have hwords : BlobWords P u .rootsFwd (m.elem 4 .recMissing (b * 65 + 1 + t) * 64 * 8) 8 b :=
      fun k hk => (hroots b hb).first (by omega)
    exact hwords.limbsLoad
  have hindex : ∀ t < m.elem 4 .recMissing (b * 65), Within (fun a => P (a.own b)) u m
      (load 4 .recMissing (b * 65 + 1 + t) : Shader ℕ) := fun t ht => by
    have := hmissing b hb (1 + t) (by omega)
    rw [← add_assoc] at this
    exact within_load this.1 this.2
  unfold kVanishingPoly
  refine within_bind (within_each fun tid htid => within_each fun j hj => ?_)
    (within_bind (within_load ?_ ?_) ?_)
  · have := List.mem_range.mp htid
    have hj : j < 64 := List.mem_range.mp hj
    exact hstore _ (by omega) _
  · exact (hmissing b hb 0 (by decide)).1
  · exact (hmissing b hb 0 (by decide)).2
  rw [val_load, id, vanishingTerms]
  -- Without a missing cell only the constant one is stored.
  by_cases h0 : m.elem 4 .recMissing (b * 65) = 0
  · have hfirst := hstore 0 (by decide) (frFromCanonical frRawOne)
    rw [Nat.add_zero] at hfirst
    rw [if_pos h0]
    exact hfirst
  · rw [if_neg h0]
    refine within_bind ?_ (within_each fun i hi => ?_)
    · unfold vanishingCoeffs
      have h0' : 0 < m.elem 4 .recMissing (b * 65) := Nat.pos_of_ne_zero h0
      refine within_bind (hindex 0 h0') (within_bind (hroot 0 h0')
        (within_foldlM (fun sp i hi => ?_) _))
      have hi := List.mem_range'_1.mp hi
      exact within_bind (hindex i (by omega)) (within_bind (hroot i (by omega)) (within_pure _))
    · have := List.mem_range.mp hi
      exact hstore _ (by simp only [fieldElementsPerCell]; omega) _

end Footprints
end Vkzg
