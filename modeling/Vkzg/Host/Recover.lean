import Vkzg.Host.Missing
import Vkzg.Shaders.CellRoundTrip

/-! `recoverBatch`: the commands it records, and what they leave in the buffers of recovery. -/

namespace Vkzg
open Radix Gpu Gpu.Kernel Polynomial Erasure Fourier BitReversal

/-! ### The commands -/

/-- A transform of the extended domain. `tile` is what workgroup memory holds before each pass, and
`pass` counts the passes so far. -/
def recoverNtt (out inp roots : Buf) (batch : ℕ) (tile : ℕ → ℕ → ℕ → ℕ → Fr) (pass : ℕ) :
    List (Shader Unit) :=
  fourStep .recScratch out inp roots 128 64 fieldElementsPerExtBlob fieldElementsPerExtBlob
    fieldElementsPerExtBlob 0 frZero batch (tile pass) (tile (pass + 1))

/-- The cells as scalars, and the vanishing polynomial. -/
def recoverInputs (batch : ℕ) (shared : ℕ → ℕ → Fr) : List (Shader Unit) :=
  [dispatch (kCellsToFr .recBrp .recScratch) (fieldElementsPerExtBlob / 256) batch,
    vanishingPolyDispatch shared batch]

/-- Up to the values of both sides of the division over a coset. -/
def recoverToCoset (batch : ℕ) (tile : ℕ → ℕ → ℕ → ℕ → Fr) : List (Shader Unit) :=
  recoverNtt .recZEval .recZCoeff .rootsFwd batch tile 0 ++
  [recoverEwMul .recEZEval .recBrp .recZEval .batched batch] ++
  recoverNtt .recEZCoeff .recEZEval .rootsInv batch tile 2 ++
  [recoverEwMul .recEZCoeff .recEZCoeff .invExtBlob .broadcast batch,
    recoverEwMul .recShiftedA .recEZCoeff .cosetShiftFwd .sharedTable batch] ++
  recoverNtt .recCosetA .recShiftedA .rootsFwd batch tile 4 ++
  [recoverEwMul .recShiftedA .recZCoeff .cosetShiftFwd .sharedTable batch] ++
  recoverNtt .recCosetB .recShiftedA .rootsFwd batch tile 6

/-- From the division to the bytes of the cells. -/
def recoverFromCoset (batch : ℕ) (tile : ℕ → ℕ → ℕ → ℕ → Fr) : List (Shader Unit) :=
  [recoverEwDiv .recPCoset .recCosetA .recCosetB batch] ++
  recoverNtt .recPCoeffU .recPCoset .rootsInv batch tile 8 ++
  [recoverEwMul .recPCoeffU .recPCoeffU .invExtBlob .broadcast batch,
    recoverEwMul .recPCoeff .recPCoeffU .cosetShiftInv .sharedTable batch] ++
  recoverNtt .recPFull .recPCoeff .rootsFwd batch tile 10 ++
  [dispatch (kFrToCells .recOut .recPFull) (fieldElementsPerExtBlob / 256) batch]

def recoverCommands (batch : ℕ) (tile : ℕ → ℕ → ℕ → ℕ → Fr) (shared : ℕ → ℕ → Fr) :
    List (Shader Unit) :=
  recoverInputs batch shared ++ recoverToCoset batch tile ++ recoverFromCoset batch tile

/-! ### Arrays of scalars -/

/-- A buffer holds the Montgomery forms of `f b i`, for each blob of a batch. -/
def Holds (m : Mem) (buf : Buf) (batch : ℕ) (f : ℕ → ℕ → ScalarField) : Prop :=
  ∀ b < batch, ∀ i < fieldElementsPerExtBlob,
    FrRep (frAt m buf (b * fieldElementsPerExtBlob + i)) (f b i)

/-- The tables recovery uses. -/
structure RecoverTables (w : ScalarField) (m : Mem) : Prop where
  fwd : RootTable m .rootsFwd fun k => w ^ k
  inv : RootTable m .rootsInv fun k => w⁻¹ ^ k
  shift : ShiftTables m

section Steps
variable {w : ScalarField} {m m' : Mem} {out inp roots aBuf bBuf buf : Buf} {batch pass : ℕ}
  {tile : ℕ → ℕ → ℕ → ℕ → Fr} {bMode : EwMulBMode} {f g : ℕ → ℕ → ScalarField}

theorem Holds.congr (h : Holds m buf batch f) (hm : m' buf = m buf) : Holds m' buf batch f :=
  fun b hb i hi => by
    rw [frAt_congr hm]
    exact h b hb i hi

theorem RecoverTables.congr (h : RecoverTables w m)
    (hm : ∀ b : Buf, b.isSetup = true → m' b = m b) : RecoverTables w m' where
  fwd k hk := by
    rw [frAt_congr (hm .rootsFwd rfl)]
    exact h.fwd k hk
  inv k hk := by
    rw [frAt_congr (hm .rootsInv rfl)]
    exact h.inv k hk
  shift := h.shift.congr hm

theorem frame_recoverNtt (hscratch : buf ≠ .recScratch) (hout : buf ≠ out) :
    runAll (recoverNtt out inp roots batch tile pass) id m buf = m buf :=
  frame_fourStep hscratch hout

/-- What a transform leaves behind: its output, and every buffer but that and the scratch one. -/
theorem run_recoverNtt {v : ScalarField} (out inp roots : Buf) (tile : ℕ → ℕ → ℕ → ℕ → Fr)
    (pass : ℕ) (hv : IsPrimitiveRoot v 8192) (hroots : RootTable m roots fun k => v ^ k)
    (hne : roots ≠ .recScratch) (hout : out.isSetup = false) (hm : RecoverTables w m)
    (h : Holds m inp batch f) :
    ∃ m', runAll (recoverNtt out inp roots batch tile pass) id m = m' ∧ RecoverTables w m' ∧
      Holds m' out batch (fun b => dft v 8192 (f b)) ∧
      ∀ b, b ≠ .recScratch → b ≠ out → m' b = m b := by
  refine ⟨_, rfl, hm.congr fun _ hb => frame_recoverNtt (ne_of_isSetup hb rfl)
    (ne_of_isSetup hb hout), fun b hb k hk => ?_, fun _ => frame_recoverNtt⟩
  have hdft : FrRep (frAt (runAll (fourStep .recScratch out inp roots (2 ^ 7) (2 ^ 6) 8192 8192 8192
      0 frZero batch (tile pass) (tile (pass + 1))) id m) out (b * 8192 + k))
      ((if 0 ≠ 0 then 1 else 1) * dft (v ^ (8192 / (2 ^ 7 * 2 ^ 6))) (2 ^ 7 * 2 ^ 6) (f b) k) :=
    fourStep_dft _ _ _ _ hv hroots (by decide) (by decide) (by decide) hne (by decide) (by decide)
      (fun h0 => absurd rfl h0) hb (fun i hi => h b hb i hi) hk
  rw [if_neg (fun h0 => h0 rfl), one_mul, show 8192 / (2 ^ 7 * 2 ^ 6) = 1 by decide, pow_one] at hdft
  exact hdft

theorem run_recoverEwMul {x y : ℕ → ℕ → ScalarField} (out aBuf bBuf : Buf) (bMode : EwMulBMode)
    (hout : out.isSetup = false) (hm : RecoverTables w m) (hx : Holds m aBuf batch x)
    (hy : ∀ b < batch, ∀ i < fieldElementsPerExtBlob,
      FrRep (frAt m bBuf (ewMulIndex bMode (b * fieldElementsPerExtBlob) i)) (y b i)) :
    ∃ m', (recoverEwMul out aBuf bBuf bMode batch).exec id m = m' ∧ RecoverTables w m' ∧
      Holds m' out batch (fun b i => x b i * y b i) ∧ ∀ b, b ≠ out → m' b = m b :=
  ⟨_, rfl, hm.congr fun _ hb => frame_recoverEwMul (ne_of_isSetup hb hout),
    fun b hb i hi => recoverEwMul_rep hb hi (hx b hb i hi) (hy b hb i hi),
    fun _ => frame_recoverEwMul⟩

theorem run_recoverEwDiv {x y : ℕ → ℕ → ScalarField} (out aBuf bBuf : Buf)
    (hout : out.isSetup = false) (hm : RecoverTables w m) (hx : Holds m aBuf batch x)
    (hy : Holds m bBuf batch y) :
    ∃ m', (recoverEwDiv out aBuf bBuf batch).exec id m = m' ∧ RecoverTables w m' ∧
      Holds m' out batch (fun b i => x b i * (y b i)⁻¹) ∧ ∀ b, b ≠ out → m' b = m b :=
  ⟨_, rfl, hm.congr fun _ hb => frame_recoverEwDiv (ne_of_isSetup hb hout),
    fun b hb i hi => recoverEwDiv_rep hb hi (hx b hb i hi) (hy b hb i hi),
    fun _ => frame_recoverEwDiv⟩

end Steps

/-! ### Runs -/

section Runs
variable {w : ScalarField} {m : Mem} {batch : ℕ} {tile : ℕ → ℕ → ℕ → ℕ → Fr}
  {shared : ℕ → ℕ → Fr} {x z : ℕ → ℕ → ScalarField}

/-- The values the cells stand for, in the order of the domain. -/
def cellValues (m : Mem) (b i : ℕ) : ScalarField :=
  (elementValue (m .recScratch) (b * fieldElementsPerExtBlob + brev i 13) : ℕ)

theorem missingWf_congr {m m' : Mem} (hm : m' .recMissing = m .recMissing) {b : ℕ}
    (h : MissingWf m b) : MissingWf m' b := by
  refine ⟨?_, fun t => ?_⟩
  · rw [Memory.elem_congr hm]
    exact h.count_le
  · rw [Memory.elem_congr hm, Memory.elem_congr hm]
    exact h.index_lt t

theorem missingRoots_congr {m m' : Mem} (hm : m' .recMissing = m .recMissing) (ρ : ℕ → ScalarField)
    (b : ℕ) : missingRoots ρ m' b = missingRoots ρ m b := by
  simp only [missingRoots, Memory.elem_congr hm]

theorem holds_recoverInputs (hm : RecoverTables w m) (hwf : ∀ b < batch, MissingWf m b) :
    let m' := runAll (recoverInputs batch shared) id m
    RecoverTables w m' ∧ Holds m' .recBrp batch (cellValues m) ∧
    Holds m' .recZCoeff batch fun b =>
      (vanishing 64 (missingRoots (fun k => w ^ k) m b)).coeff := by
  simp only [recoverInputs, runAll_cons, runAll_nil]
  have hframe : ∀ b : Buf, b ≠ .recBrp → (dispatch (kCellsToFr .recBrp .recScratch)
      (fieldElementsPerExtBlob / 256) batch).exec id m b = m b := fun _ => frame_cellsToFr
  have T := hm.congr fun b (hb : b.isSetup = true) => hframe b (ne_of_isSetup hb rfl)
  have hx : Holds _ .recBrp batch (cellValues m) := fun b hb i hi =>
    cellsToFr_rep m .recBrp .recScratch hb hi
  have hlist := hframe .recMissing (by decide)
  generalize (dispatch (kCellsToFr .recBrp .recScratch) (fieldElementsPerExtBlob / 256) batch).exec
    id m = m₁ at T hx hlist ⊢
  refine ⟨T.congr fun b hb => frame_vanishingPoly (ne_of_isSetup hb rfl),
    hx.congr (frame_vanishingPoly (by decide)), fun b hb i hi => ?_⟩
  simp only [← missingRoots_congr hlist]
  exact vanishingPoly_rep T.fwd (fun b hb => missingWf_congr hlist (hwf b hb)) hb hi

theorem holds_recoverToCoset (hw : IsPrimitiveRoot w 8192) (hm : RecoverTables w m)
    (hx : Holds m .recBrp batch x) (hz : Holds m .recZCoeff batch z) :
    let m' := runAll (recoverToCoset batch tile) id m
    RecoverTables w m' ∧ Holds m' .recZEval batch (fun b => dft w 8192 (z b)) ∧
    Holds m' .recCosetA batch (fun b => dft w 8192 fun i => dft w⁻¹ 8192 (fun k =>
      x b k * dft w 8192 (z b) k) i * ((8192 : ℕ) : ScalarField)⁻¹ * 7 ^ i) ∧
    Holds m' .recCosetB batch fun b => dft w 8192 fun i => z b i * 7 ^ i := by
  simp only [recoverToCoset, runAll_append, runAll_cons, runAll_nil]
  -- The values of the product, and its coefficients.
  obtain ⟨m₁, h₁, T₁, hv₁, k₁⟩ := run_recoverNtt .recZEval .recZCoeff .rootsFwd tile 0 hw hm.fwd
    (by decide) rfl hm hz
  have hx₁ := hx.congr (k₁ .recBrp (by decide) (by decide))
  have hz₁ := hz.congr (k₁ .recZCoeff (by decide) (by decide))
  obtain ⟨m₂, h₂, T₂, he₂, k₂⟩ := run_recoverEwMul .recEZEval .recBrp .recZEval .batched rfl T₁ hx₁
    fun b hb i hi => hv₁ b hb i hi
  obtain ⟨m₃, h₃, T₃, he₃, k₃⟩ := run_recoverNtt .recEZCoeff .recEZEval .rootsInv tile 2 hw.inv
    T₂.inv (by decide) rfl T₂ he₂
  obtain ⟨m₄, h₄, T₄, he₄, k₄⟩ := run_recoverEwMul .recEZCoeff .recEZCoeff .invExtBlob .broadcast
    rfl T₃ he₃ fun _ _ _ _ => T₃.shift.scale
  -- Both over the coset.
  obtain ⟨m₅, h₅, T₅, ha₅, k₅⟩ := run_recoverEwMul .recShiftedA .recEZCoeff .cosetShiftFwd
    .sharedTable rfl T₄ he₄ fun _ _ i hi => T₄.shift.fwd i hi
  obtain ⟨m₆, h₆, T₆, ha₆, k₆⟩ := run_recoverNtt .recCosetA .recShiftedA .rootsFwd tile 4 hw T₅.fwd
    (by decide) rfl T₅ ha₅
  have hkeep : ∀ b, b ≠ .recScratch → b ≠ .recEZEval → b ≠ .recEZCoeff → b ≠ .recShiftedA →
      b ≠ .recCosetA → m₆ b = m₁ b := fun b h h' h'' h₃ h₄ => by
    rw [k₆ b h h₄, k₅ b h₃, k₄ b h'', k₃ b h h'', k₂ b h']
  have hz₆ := hz₁.congr (hkeep .recZCoeff (by decide) (by decide) (by decide) (by decide) (by decide))
  have hv₆ := hv₁.congr (hkeep .recZEval (by decide) (by decide) (by decide) (by decide) (by decide))
  obtain ⟨m₇, h₇, T₇, hb₇, k₇⟩ := run_recoverEwMul .recShiftedA .recZCoeff .cosetShiftFwd
    .sharedTable rfl T₆ hz₆ fun _ _ i hi => T₆.shift.fwd i hi
  obtain ⟨m₈, h₈, T₈, hb₈, k₈⟩ := run_recoverNtt .recCosetB .recShiftedA .rootsFwd tile 6 hw T₇.fwd
    (by decide) rfl T₇ hb₇
  rw [h₁, h₂, h₃, h₄, h₅, h₆, h₇, h₈]
  exact ⟨T₈, (hv₆.congr (k₇ _ (by decide))).congr (k₈ _ (by decide) (by decide)),
    (ha₆.congr (k₇ _ (by decide))).congr (k₈ _ (by decide) (by decide)), hb₈⟩

theorem holds_recoverFromCoset (hw : IsPrimitiveRoot w 8192) (hm : RecoverTables w m)
    (hx : Holds m .recCosetA batch x) (hz : Holds m .recCosetB batch z) :
    let m' := runAll (recoverFromCoset batch tile) id m
    RecoverTables w m' ∧ ∀ b < batch, ∀ i < fieldElementsPerExtBlob,
      elementValue (m' .recOut) (b * fieldElementsPerExtBlob + i) =
        (dft w 8192 (fun i => dft w⁻¹ 8192 (fun k => x b k * (z b k)⁻¹) i *
          ((8192 : ℕ) : ScalarField)⁻¹ * 7⁻¹ ^ i) (brev i 13)).val := by
  simp only [recoverFromCoset, runAll_append, runAll_cons, runAll_nil]
  obtain ⟨m₁, h₁, T₁, hq₁, -⟩ := run_recoverEwDiv .recPCoset .recCosetA .recCosetB rfl hm hx hz
  obtain ⟨m₂, h₂, T₂, hq₂, -⟩ := run_recoverNtt .recPCoeffU .recPCoset .rootsInv tile 8 hw.inv
    T₁.inv (by decide) rfl T₁ hq₁
  obtain ⟨m₃, h₃, T₃, hq₃, -⟩ := run_recoverEwMul .recPCoeffU .recPCoeffU .invExtBlob .broadcast rfl
    T₂ hq₂ fun _ _ _ _ => T₂.shift.scale
  obtain ⟨m₄, h₄, T₄, hq₄, -⟩ := run_recoverEwMul .recPCoeff .recPCoeffU .cosetShiftInv
    .sharedTable rfl T₃ hq₃ fun _ _ i hi => T₃.shift.inv i hi
  obtain ⟨m₅, h₅, T₅, hq₅, -⟩ := run_recoverNtt .recPFull .recPCoeff .rootsFwd tile 10 hw T₄.fwd
    (by decide) rfl T₄ hq₄
  rw [h₁, h₂, h₃, h₄, h₅]
  exact ⟨T₅.congr fun _ hb => frame_frToCells (ne_of_isSetup hb rfl),
    fun b hb i hi => frToCells_value .recOut hb hi (hq₅ b hb _ (brev_lt (L := 13) (by decide)))⟩

/-- The commands run the steps of recovery on the cell values and the vanishing polynomial. -/
theorem recoverCommands_value (hw : IsPrimitiveRoot w 8192) (hm : RecoverTables w m)
    (hwf : ∀ b < batch, MissingWf m b) :
    let m' := runAll (recoverCommands batch tile shared) id m
    RecoverTables w m' ∧ ∀ b < batch, ∀ i < fieldElementsPerExtBlob,
      elementValue (m' .recOut) (b * fieldElementsPerExtBlob + i) =
        (recover (dft w 8192) (dft w⁻¹ 8192) ((8192 : ℕ) : ScalarField)⁻¹ (fun i => 7 ^ i)
          (fun i => 7⁻¹ ^ i) (vanishing 64 (missingRoots (fun k => w ^ k) m b)).coeff
          (cellValues m b) (brev i 13)).val := by
  simp only [recoverCommands, runAll_append]
  obtain ⟨T₁, hx, hz⟩ := holds_recoverInputs hm hwf
  obtain ⟨T₂, -, ha, hc⟩ := holds_recoverToCoset hw T₁ hx hz
  exact holds_recoverFromCoset hw T₂ ha hc

end Runs

/-! ### Footprints -/

/-- The buffers of recovery with one scalar for each point of the domain. -/
def Buf.isRecScalar : Buf → Bool
  | .recScratch | .recBrp | .recZCoeff | .recZEval | .recEZEval | .recEZCoeff | .recShiftedA
  | .recCosetA | .recCosetB | .recPCoset | .recPCoeffU | .recPCoeff | .recPFull => true
  | _ => false

/-- The tables with one scalar for each point of the domain. -/
def Buf.isRecTable : Buf → Bool
  | .rootsFwd | .rootsInv | .cosetShiftFwd | .cosetShiftInv => true
  | _ => false

/-- `P` holds of every word and byte recovery works on, for the blob it works on. -/
structure RecoverWords (P : Access Buf → Prop) (u : ℕ → ℕ) (batch : ℕ) : Prop where
  exact_index : ∀ n < batch * 262144, u n = n
  scalar : ∀ buf : Buf, buf.isRecScalar = true → ∀ b < batch, ∀ k < 65536,
    P ⟨buf, 4, b * 65536 + k, some b⟩
  table : ∀ buf : Buf, buf.isRecTable = true → ∀ b < batch, ∀ k < 65536, P ⟨buf, 4, k, some b⟩
  scale : ∀ b < batch, ∀ k < 8, P ⟨.invExtBlob, 4, k, some b⟩
  missing : ∀ b < batch, ∀ k < 65, P ⟨.recMissing, 4, b * 65 + k, some b⟩
  cells : ∀ b < batch, ∀ k < 262144, P ⟨.recScratch, 1, b * 262144 + k, some b⟩
  out : ∀ b < batch, ∀ k < 262144, P ⟨.recOut, 1, b * 262144 + k, some b⟩

section Footprints
variable {P : Access Buf → Prop} {u : ℕ → ℕ} {m : Mem} {batch : ℕ}
  {tile : ℕ → ℕ → ℕ → ℕ → Fr} {shared : ℕ → ℕ → Fr}

theorem recoverWords_true (hu : ∀ n < batch * 262144, u n = n) :
    RecoverWords (fun _ => True) u batch where
  exact_index := hu
  scalar _ _ _ _ _ _ := trivial
  table _ _ _ _ _ _ := trivial
  scale _ _ _ _ := trivial
  missing _ _ _ _ := trivial
  cells _ _ _ _ := trivial
  out _ _ _ _ := trivial

theorem RecoverWords.blob (h : RecoverWords P u batch) {buf : Buf} (hbuf : buf.isRecScalar = true) :
    ∀ b < batch, BlobWords P u buf (b * 65536) 65536 b := fun b hb k hk =>
  ⟨h.exact_index _ (by omega), h.scalar buf hbuf b hb k hk⟩

theorem RecoverWords.powers (h : RecoverWords P u batch) {buf : Buf} (hbuf : buf.isRecTable = true) :
    ∀ b < batch, BlobWords P u buf 0 65536 b := fun b hb k hk => by
  rw [Nat.zero_add]
  exact ⟨h.exact_index _ (by omega), h.table buf hbuf b hb k hk⟩

theorem RecoverWords.factor (h : RecoverWords P u batch) :
    ∀ b < batch, BlobWords P u .invExtBlob 0 8 b := fun b hb k hk => by
  rw [Nat.zero_add]
  exact ⟨h.exact_index _ (by omega), h.scale b hb k hk⟩

theorem RecoverWords.list (h : RecoverWords P u batch) :
    ∀ b < batch, BlobWords P u .recMissing (b * 65) 65 b := fun b hb k hk =>
  ⟨h.exact_index _ (by omega), h.missing b hb k hk⟩

theorem within_recoverNtt (h : RecoverWords P u batch) {out inp roots : Buf} {pass : ℕ}
    (hout : out.isRecScalar = true) (hinp : inp.isRecScalar = true)
    (hroots : roots.isRecTable = true) :
    ∀ k ∈ recoverNtt out inp roots batch tile pass, ∀ m, Within P u m k :=
  within_fourStep (show 7 ≤ 7 by decide) (show 6 ≤ 7 by decide) (by decide) (h.powers hroots)
    (h.blob hinp) (h.blob rfl) (h.blob hout)

theorem withinAll_recoverInputs (h : RecoverWords P u batch) (hwf : ∀ b < batch, MissingWf m b) :
    WithinAll P u (recoverInputs batch shared) m :=
  ⟨within_cellsToFr h.exact_index h.cells (h.scalar .recBrp rfl),
    within_vanishingPoly (fun b hb => missingWf_congr (frame_cellsToFr (by decide)) (hwf b hb))
      (h.powers rfl) h.list (h.blob rfl), trivial⟩

theorem withinAll_recoverToCoset (h : RecoverWords P u batch) (m : Mem) :
    WithinAll P u (recoverToCoset batch tile) m := by
  refine withinAll_of_forall (fun k hk m => ?_) m
  simp only [recoverToCoset, List.mem_append, List.mem_cons, List.not_mem_nil, or_false] at hk
  rcases hk with ((((((hk | rfl) | hk) | rfl | rfl) | hk) | rfl) | hk)
  · exact within_recoverNtt h rfl rfl rfl k hk m
  · exact within_recoverEwMul (h.blob rfl) (h.blob rfl) (h.blob rfl)
  · exact within_recoverNtt h rfl rfl rfl k hk m
  · exact within_recoverEwMul (h.blob rfl)
      h.factor (h.blob rfl)
  · exact within_recoverEwMul (h.blob rfl) (h.powers rfl) (h.blob rfl)
  · exact within_recoverNtt h rfl rfl rfl k hk m
  · exact within_recoverEwMul (h.blob rfl) (h.powers rfl) (h.blob rfl)
  · exact within_recoverNtt h rfl rfl rfl k hk m

theorem withinAll_recoverFromCoset (h : RecoverWords P u batch) (m : Mem) :
    WithinAll P u (recoverFromCoset batch tile) m := by
  refine withinAll_of_forall (fun k hk m => ?_) m
  simp only [recoverFromCoset, List.mem_append, List.mem_cons, List.not_mem_nil, or_false] at hk
  rcases hk with ((((rfl | hk) | rfl | rfl) | hk) | rfl)
  · exact within_recoverEwDiv (h.blob rfl) (h.blob rfl) (h.blob rfl)
  · exact within_recoverNtt h rfl rfl rfl k hk m
  · exact within_recoverEwMul (h.blob rfl)
      h.factor (h.blob rfl)
  · exact within_recoverEwMul (h.blob rfl) (h.powers rfl) (h.blob rfl)
  · exact within_recoverNtt h rfl rfl rfl k hk m
  · exact within_frToCells h.exact_index (h.scalar .recPFull rfl) h.out

end Footprints

/-! ### The vanishing polynomial -/

theorem uploadMissing_of_ne {m : Mem} {missing : ℕ → ℕ} {batch : ℕ} {buf : Buf}
    (h : buf ≠ .recMissing) : uploadMissing m missing batch buf = m buf := writeBuf_of_ne h _ _

theorem tables_uploadMissing {w : ScalarField} {m : Mem} (hm : RecoverTables w m)
    (missing : ℕ → ℕ) (batch : ℕ) : RecoverTables w (uploadMissing m missing batch) :=
  hm.congr fun _ hb => uploadMissing_of_ne (ne_of_isSetup hb rfl)

/-- For every mask with at most 64 missing cells in each blob: the coefficients are those of the
product over the missing cells; its values are zero, and all their limbs, on the points of the
missing cells and nowhere else; and on the coset of 7 it is never zero, so that no division there
is by zero. -/
theorem vanishingPoly_exact {w : ScalarField} (hw : IsPrimitiveRoot w 8192) {batch : ℕ} {u : ℕ → ℕ}
    (hu : ∀ n < batch * 262144, u n = n) (cellPresent : Bytes)
    (hcount : ∀ b < batch, (missingCells cellPresent b).length ≤ 64)
    (tile : ℕ → ℕ → ℕ → ℕ → Fr) (shared : ℕ → ℕ → Fr) {m : Mem} (hm : RecoverTables w m) :
    ∃ missing, missingList cellPresent batch = .ok missing ∧
      let m₁ := runAll (recoverInputs batch shared) u (uploadMissing m missing batch)
      let m₂ := runAll (recoverToCoset batch tile) u m₁
      let Z := missingPoly w cellPresent
      ∀ b < batch,
        (∀ i < fieldElementsPerExtBlob,
          FrRep (frAt m₁ .recZCoeff (b * fieldElementsPerExtBlob + i)) ((Z b).coeff i)) ∧
        (∀ c < circulantSize, ∀ e < fieldElementsPerCell,
          let n := brev (64 * c + e) 13
          let a := frAt m₂ .recZEval (b * fieldElementsPerExtBlob + n)
          ((Z b).eval (w ^ n) = 0 ↔ cellPresent (b * circulantSize + c) = 0) ∧
          FrRep a ((Z b).eval (w ^ n)) ∧
          (a = frZero ↔ cellPresent (b * circulantSize + c) = 0)) ∧
        ∀ k < fieldElementsPerExtBlob,
          let a := frAt m₂ .recCosetB (b * fieldElementsPerExtBlob + k)
          (Z b).eval (7 * w ^ k) ≠ 0 ∧ FrRep a ((Z b).eval (7 * w ^ k)) ∧ a ≠ frZero := by
  refine ⟨missingWords cellPresent batch, by rw [missingList_eq, if_pos hcount], ?_⟩
  intro m₁ m₂ Z b hb
  have hwords : RecoverWords (fun _ => True) u batch := recoverWords_true hu
  have hwf : ∀ b < batch, MissingWf (uploadMissing m (missingWords cellPresent batch) batch) b :=
    fun b hb => missingWf_uploadMissing hcount hb
  -- The commands compute the offsets exactly, so that their values can be followed without `u`.
  have hexact₁ : m₁ = runAll (recoverInputs batch shared) id
      (uploadMissing m (missingWords cellPresent batch) batch) :=
    (withinAll_recoverInputs hwords hwf).runAll
  have hexact₂ : m₂ = runAll (recoverToCoset batch tile) id m₁ :=
    (withinAll_recoverToCoset hwords m₁).runAll
  obtain ⟨T₁, hx, hz⟩ : RecoverTables w m₁ ∧ Holds m₁ .recBrp batch _ ∧ Holds m₁ .recZCoeff batch _ :=
    hexact₁ ▸ holds_recoverInputs (tables_uploadMissing hm _ _) hwf
  obtain ⟨-, heval, -, hcoset⟩ : RecoverTables w m₂ ∧ Holds m₂ .recZEval batch _ ∧
      Holds m₂ .recCosetA batch _ ∧ Holds m₂ .recCosetB batch _ :=
    hexact₂ ▸ holds_recoverToCoset hw T₁ hx hz
  have hpoly : vanishing 64 (missingRoots (fun k => w ^ k)
      (uploadMissing m (missingWords cellPresent batch) batch) b) = Z b := by
    rw [missingRoots_uploadMissing hcount hb, ← missingPoly_eq]
  -- Of a degree below the size of the domain, the transform of the coefficients is the values.
  have hdeg : (Z b).degree < (8192 : ℕ) := degree_missingPoly (hcount b hb)
  refine ⟨fun i hi => ?_, fun c hc e he => ?_, fun k hk => ?_⟩
  · have hrep := hz b hb i hi
    simp only [hpoly] at hrep
    exact hrep
  · intro n a
    have hn : n < fieldElementsPerExtBlob := brev_lt (L := 13) (by decide)
    have hrep := heval b hb n hn
    simp only [hpoly, dft_coeff hdeg] at hrep
    have hzero : (Z b).eval (w ^ n) = 0 ↔ cellPresent (b * circulantSize + c) = 0 :=
      eval_missingPoly_eq_zero hw hc he
    refine ⟨hzero, hrep, ?_⟩
    rw [← hzero]
    exact hrep.eq_iff frRep_zero
  · intro a
    have hrep := hcoset b hb k hk
    simp only [hpoly, dft_coset hdeg] at hrep
    have hne : (Z b).eval (7 * w ^ k) ≠ 0 := eval_missingPoly_coset_ne_zero hw k
    exact ⟨hne, hrep, fun h => hne ((hrep.eq_iff frRep_zero).mp h)⟩

/-- The tables over a generator of the roots of unity. -/
def sampleTables : Buf → ℕ → ScalarField
  | .rootsFwd, i => rootOfUnity ^ i
  | .rootsInv, i => rootOfUnity⁻¹ ^ i
  | .cosetShiftFwd, i => ((7 : ℕ) : ScalarField) ^ i
  | .cosetShiftInv, i => ((7 : ℕ) : ScalarField)⁻¹ ^ i
  | .invExtBlob, _ => ((8192 : ℕ) : ScalarField)⁻¹
  | _, _ => 0

theorem recoverTables_sample : RecoverTables rootOfUnity (scalarMem sampleTables) :=
  ⟨fun k _ => frRep_scalarMem sampleTables .rootsFwd k,
    fun k _ => frRep_scalarMem sampleTables .rootsInv k,
    ⟨fun k _ => by
        simpa only [sampleTables, Nat.cast_ofNat] using
          frRep_scalarMem sampleTables .cosetShiftFwd k,
      fun k _ => by
        simpa only [sampleTables, Nat.cast_ofNat] using
          frRep_scalarMem sampleTables .cosetShiftInv k,
      frRep_scalarMem sampleTables .invExtBlob 0⟩⟩

/-- The first half of the cells is there, and the second half missing. -/
def halfPresent : Bytes := fun i => if i < 64 then 1 else 0

theorem vanishingPoly_exact_half :
    ∃ missing, missingList halfPresent 1 = .ok missing ∧
      let m₁ := runAll (recoverInputs 1 fun _ _ => frZero) uint32
        (uploadMissing (scalarMem sampleTables) missing 1)
      let m₂ := runAll (recoverToCoset 1 fun _ _ _ _ => frZero) uint32 m₁
      frAt m₂ .recZEval (0 * 8192 + brev (64 * 100 + 3) 13) = frZero ∧
      frAt m₂ .recZEval (0 * 8192 + brev (64 * 5 + 3) 13) ≠ frZero ∧
      frAt m₂ .recCosetB (0 * 8192 + 9) ≠ frZero := by
  obtain ⟨missing, hlist, h⟩ := @vanishingPoly_exact _ isPrimitiveRoot_rootOfUnity 1 uint32
    (fun n hn => uint32_of_lt (by omega)) halfPresent
    (fun b hb => by
      obtain rfl : b = 0 := by omega
      decide +kernel)
    (fun _ _ _ _ => frZero) (fun _ _ => frZero) _ recoverTables_sample
  obtain ⟨-, hcell, hcoset⟩ := h 0 (by decide)
  refine ⟨missing, hlist, (hcell 100 (by decide) 3 (by decide)).2.2.mpr (by decide), fun hzero => ?_,
    (hcoset 9 (by decide)).2.2⟩
  exact absurd ((hcell 5 (by decide) 3 (by decide)).2.2.mp hzero) (by decide)

end Vkzg
