import Vkzg.Host.AnyOrder
import Vkzg.Shaders.Workgroups

/-! The batches of both calls with the transforms and the circulant columns, whose threads meet at
barriers to share a tile, thread by thread, and the other dispatches by their units: a call returns
what it returns when the threads go in step. -/

namespace Vkzg
open Radix Gpu Gpu.Kernel

/-! ### Dispatches -/

/-- A dispatch: units that run by themselves, or groups of threads with a tile and barriers, where
`shared` is what the tiles hold before. -/
inductive Launch
  | grid (g : Grid Buf)
  | team (T : Transform) (gs : List (ℕ × ℕ)) (shared : ℕ × ℕ → ℕ → Fr)

def Launch.Leaves (u : ℕ → ℕ) : Launch → Mem → Mem → Prop
  | .grid g, m, m' => Interleaved u g.units g.main m m'
  | .team T gs shared, m, m' => T.Leaves u gs shared m m'

/-- Dispatches in order, each after all threads of the one before have ended. -/
inductive ByThread (u : ℕ → ℕ) : List Launch → Mem → Mem → Prop
  | nil (m : Mem) : ByThread u [] m m
  | cons {l ls m m' m''} (h : l.Leaves u m m') (hrest : ByThread u ls m' m'') :
    ByThread u (l :: ls) m m''

/-- What the dispatch can leave is what the units of the grid leave in turn. -/
def Splits (u : ℕ → ℕ) (l : Launch) (g : Grid Buf) : Prop :=
  ∀ m, RaceFree u g.units g.main m → ∀ m', l.Leaves u m m' ↔ m' = (each g.units g.main).exec u m

section Splits
variable {u : ℕ → ℕ} {ls : List Launch} {gs : List (Grid Buf)} {m m' : Mem}

theorem splits_grid (g : Grid Buf) : Splits u (.grid g) g := fun _ hfree _ => hfree.interleaved_iff

theorem splits_grids (gs : List (Grid Buf)) : List.Forall₂ (Splits u) (gs.map .grid) gs :=
  List.forall₂_map_left_iff.mpr (List.forall₂_same.mpr fun g _ => splits_grid g)

theorem byThread_iff (h : List.Forall₂ (Splits u) ls gs) (hfree : RaceFreeAll u gs m) :
    ByThread u ls m m' ↔ m' = runGrids u gs m := by
  induction h generalizing m with
  | nil => exact ⟨fun h => by cases h; rfl, fun h => h ▸ .nil m⟩
  | cons hsplit _ ih =>
    have hfirst := hsplit m hfree.1
    refine ⟨fun hrun => ?_, fun heq => .cons ((hfirst _).mpr rfl) ((ih hfree.2).mpr heq)⟩
    cases hrun with
    | cons h hrest =>
      obtain rfl := (hfirst _).mp h
      exact (ih hfree.2).mp hrest

end Splits

/-! ### The transforms -/

def nttLaunch (out inp roots : Buf) (params : NttParams) (count batch : ℕ)
    (shared : ℕ → ℕ → ℕ → Fr) : Launch :=
  .team (nttTransform ⟨params, out, inp, roots⟩) (List.range batch ×ˢ List.range count)
    fun g => shared g.2 g.1

/-- Both passes of a transform of size `N1 * N2`. -/
def fourStepLaunches (mid out inp roots : Buf) (N1 N2 inBatch midBatch outBatch scale : ℕ)
    (scaleVal : Fr) (batch : ℕ) (shared₁ shared₂ : ℕ → ℕ → ℕ → Fr) : List Launch :=
  [nttLaunch mid inp roots (nttPass1 (N1 * N2) N1 N2 inBatch midBatch) N2 batch shared₁,
   nttLaunch out mid roots
     { nttPass2 (N1 * N2) N1 N2 midBatch outBatch with scale := scale, scaleVal := scaleVal }
     N1 batch shared₂]

def buildCirculantLaunch (shared : ℕ → ℕ → ℕ → Fr) (batch : ℕ) : Launch :=
  .team (circulantTransform .coeffs .polyExt .rootsFwd) (List.range batch ×ˢ List.range phaseATerms)
    fun g => shared g.2 g.1

section Transforms
variable {u : ℕ → ℕ} {batch : ℕ} {shared : ℕ → ℕ → ℕ → Fr}

theorem splits_team {T : Transform} {pos : ℕ × ℕ → ℕ → ℕ} {g : Grid Buf}
    {shared : ℕ × ℕ → ℕ → Fr} (h : T.Fits u g.units pos)
    (hkernel : ∀ i, T.kernel (shared i) i = g.main i) : Splits u (.team T g.units shared) g := by
  intro m _ m'
  refine (h.leaves_iff g.nodup).trans ?_
  rw [funext hkernel]

theorem splits_ntt {out inp roots : Buf} {params : NttParams} {L count : ℕ} (hL : L ≤ 7)
    (hn : params.n = 2 ^ L) (hlog : params.logN = L) (hinp : inp ≠ out) (hroots : roots ≠ out)
    (hT : params.outStrideT = 1) (hI : params.outStrideI = count)
    (hsize : params.n * count ≤ params.outBatch) (htile : ∀ n < 1024, u n = n)
    (hu : ∀ n < batch * (params.outBatch * 8), u n = n) :
    Splits u (nttLaunch out inp roots params count batch shared)
      (nttGrid out inp roots params count batch shared) :=
  splits_team (fits_ntt hL hn hlog hinp hroots hT hI hsize htile hu) fun _ => kernel_nttTransform ..

theorem splits_fourStep {mid out inp roots : Buf} (L1 L2 : ℕ) {inBatch midBatch outBatch scale : ℕ}
    {scaleVal : Fr} {shared₁ shared₂ : ℕ → ℕ → ℕ → Fr} (hL1 : L1 ≤ 7) (hL2 : L2 ≤ 7)
    (hlog1 : ilog2 (2 ^ L1) = L1) (hlog2 : ilog2 (2 ^ L2) = L2) (hmid : inp ≠ mid ∧ roots ≠ mid)
    (hout : mid ≠ out ∧ roots ≠ out)
    (hsize : 2 ^ L1 * 2 ^ L2 ≤ midBatch ∧ 2 ^ L1 * 2 ^ L2 ≤ outBatch)
    (htile : ∀ n < 1024, u n = n) (hu : ∀ n < batch * (midBatch * 8), u n = n)
    (hu' : ∀ n < batch * (outBatch * 8), u n = n) : List.Forall₂ (Splits u)
      (fourStepLaunches mid out inp roots (2 ^ L1) (2 ^ L2) inBatch midBatch outBatch scale scaleVal
        batch shared₁ shared₂)
      (fourStepGrids mid out inp roots (2 ^ L1) (2 ^ L2) inBatch midBatch outBatch scale scaleVal
        batch shared₁ shared₂) :=
  .cons (splits_ntt hL1 rfl hlog1 hmid.1 hmid.2 rfl rfl hsize.1 htile hu)
    (.cons (splits_ntt hL2 rfl hlog2 hout.1 hout.2 rfl rfl
      ((Nat.mul_comm _ _).trans_le hsize.2) htile hu') .nil)

theorem splits_buildCirculant (htile : ∀ n < 1024, u n = n)
    (hu : ∀ n < batch * (8192 * 8), u n = n) :
    Splits u (buildCirculantLaunch shared batch) (buildCirculantGrid shared batch) :=
  splits_team (fits_circulant (by decide) (by decide) htile hu) fun _ => kernel_circulantTransform ..

end Transforms

/-! ### The dispatches of the batches -/

def columnLaunches (p : Prover) (s : Schedule) (batch : ℕ) : List Launch :=
  fourStepLaunches .workA .polyExt .lagrange .rootsInv 64 64 fieldElementsPerBlob
    fieldElementsPerExtBlob fieldElementsPerExtBlob 1 p.invBlob batch (s.tile 0) (s.tile 1) ++
  [buildCirculantLaunch (s.tile 2) batch]

/-- The dispatches of `computeBatch`. -/
def computeLaunches (u : ℕ → ℕ) (p : Prover) (s : Schedule) (batch : ℕ) : List Launch :=
  [.grid (blobToFrGrid batch)] ++ columnLaunches p s batch ++
  (phaseAGrids s.hist s.scat p.gpuTotalCores (s.subgroup 0) .points batch).map .grid ++
  (phaseBGrids u p.gpuTotalCores (s.subgroup 1) batch).map .grid ++ (encodeGrids u batch).map .grid

def recoverNttLaunches (out inp roots : Buf) (batch : ℕ) (tile : ℕ → ℕ → ℕ → ℕ → Fr) (pass : ℕ) :
    List Launch :=
  fourStepLaunches .recScratch out inp roots 128 64 fieldElementsPerExtBlob fieldElementsPerExtBlob
    fieldElementsPerExtBlob 0 frZero batch (tile pass) (tile (pass + 1))

def recoverToCosetLaunches (batch : ℕ) (tile : ℕ → ℕ → ℕ → ℕ → Fr) : List Launch :=
  recoverNttLaunches .recZEval .recZCoeff .rootsFwd batch tile 0 ++
  [.grid (ewMulGrid .recEZEval .recBrp .recZEval .batched batch)] ++
  recoverNttLaunches .recEZCoeff .recEZEval .rootsInv batch tile 2 ++
  [.grid (ewMulGrid .recEZCoeff .recEZCoeff .invExtBlob .broadcast batch),
    .grid (ewMulGrid .recShiftedA .recEZCoeff .cosetShiftFwd .sharedTable batch)] ++
  recoverNttLaunches .recCosetA .recShiftedA .rootsFwd batch tile 4 ++
  [.grid (ewMulGrid .recShiftedA .recZCoeff .cosetShiftFwd .sharedTable batch)] ++
  recoverNttLaunches .recCosetB .recShiftedA .rootsFwd batch tile 6

def recoverFromCosetLaunches (batch : ℕ) (tile : ℕ → ℕ → ℕ → ℕ → Fr) : List Launch :=
  [.grid (ewDivGrid .recPCoset .recCosetA .recCosetB batch)] ++
  recoverNttLaunches .recPCoeffU .recPCoset .rootsInv batch tile 8 ++
  [.grid (ewMulGrid .recPCoeffU .recPCoeffU .invExtBlob .broadcast batch),
    .grid (ewMulGrid .recPCoeff .recPCoeffU .cosetShiftInv .sharedTable batch)] ++
  recoverNttLaunches .recPFull .recPCoeff .rootsFwd batch tile 10 ++
  [.grid (frToCellsGrid batch)]

/-- The dispatches of `recoverBatch`. -/
def recoverLaunches (batch : ℕ) (tile : ℕ → ℕ → ℕ → ℕ → Fr) (shared : ℕ → ℕ → Fr) : List Launch :=
  (recoverInputGrids batch shared).map .grid ++ recoverToCosetLaunches batch tile ++
    recoverFromCosetLaunches batch tile

section Batches
variable {u : ℕ → ℕ} {p : Prover} {s : Schedule} {batch : ℕ} {tile : ℕ → ℕ → ℕ → ℕ → Fr}
  {shared : ℕ → ℕ → Fr}

theorem ExactIndices.tileWord (hu : ExactIndices u batch) : ∀ n < 1024, u n = n :=
  fun n hn => hu.word n (by omega)

theorem splits_computeLaunches (hu : ExactIndices u batch) :
    List.Forall₂ (Splits u) (computeLaunches u p s batch) (computeGrids u p s batch) := by
  have hcolumns : List.Forall₂ (Splits u) (columnLaunches p s batch) (columnGrids p s batch) :=
    List.rel_append (splits_fourStep 6 6 (by decide) (by decide) rfl rfl (by decide) (by decide)
      (by decide) hu.tileWord (hu.below (by decide)) (hu.below (by decide)))
      (.cons (splits_buildCirculant hu.tileWord (hu.below (by decide))) .nil)
  exact List.rel_append (List.rel_append (List.rel_append (List.rel_append
    (.cons (splits_grid _) .nil) hcolumns) (splits_grids _)) (splits_grids _)) (splits_grids _)

theorem splits_recoverNtt {out inp roots : Buf} {pass : ℕ} (hu : ExactIndices u batch)
    (hmid : inp ≠ .recScratch ∧ roots ≠ .recScratch) (hout : .recScratch ≠ out ∧ roots ≠ out) :
    List.Forall₂ (Splits u) (recoverNttLaunches out inp roots batch tile pass)
      (recoverNttGrids out inp roots batch tile pass) :=
  splits_fourStep 7 6 (by decide) (by decide) rfl rfl hmid hout (by decide)
    hu.tileWord (hu.below (by decide)) (hu.below (by decide))

theorem splits_recoverLaunches (hu : ExactIndices u batch) :
    List.Forall₂ (Splits u) (recoverLaunches batch tile shared) (recoverGrids batch tile shared) := by
  have hgrid := fun g : Grid Buf => splits_grid (u := u) g
  refine List.rel_append (List.rel_append (splits_grids _) ?_) ?_
  · exact List.rel_append (List.rel_append (List.rel_append (List.rel_append (List.rel_append
      (List.rel_append (splits_recoverNtt hu (by decide) (by decide)) (.cons (hgrid _) .nil))
      (splits_recoverNtt hu (by decide) (by decide))) (.cons (hgrid _) (.cons (hgrid _) .nil)))
      (splits_recoverNtt hu (by decide) (by decide))) (.cons (hgrid _) .nil))
      (splits_recoverNtt hu (by decide) (by decide))
  · exact List.rel_append (List.rel_append (List.rel_append (List.rel_append (.cons (hgrid _) .nil)
      (splits_recoverNtt hu (by decide) (by decide))) (.cons (hgrid _) (.cons (hgrid _) .nil)))
      (splits_recoverNtt hu (by decide) (by decide))) (.cons (hgrid _) .nil)

end Batches

/-! ### Calls -/

/-- The batch thread by thread. -/
def ComputeBatchByThread (u : ℕ → ℕ) (s : Schedule) (p : Prover) (m : Mem) (proofs : Bytes) (off : ℕ)
    (blobs : Bytes) (batch : ℕ) (r : Result × Bytes × Mem) : Prop :=
  ComputeBatchBy (ByThread u (computeLaunches u p s batch)) m proofs off blobs batch r

def RecoverBatchByThread (u : ℕ → ℕ) (s : Schedule) (m : Mem) (out : Bytes) (off : ℕ)
    (cells cellPresent : Bytes) (batch : ℕ) (r : Result × Bytes × Mem) : Prop :=
  RecoverBatchBy (ByThread u (recoverLaunches batch s.tile (s.tile 12 0))) m out off cells cellPresent
    batch r

def Call.ByThread (u : ℕ → ℕ) (s : ℕ → Schedule) (p : Prover) (m : Mem) :
    Call → Result × Bytes × Mem → Prop :=
  Call.By (fun s => ComputeBatchByThread u s p) (RecoverBatchByThread u) s p m

def CallsByThread (u : ℕ → ℕ) (p : Prover) :
    List ((ℕ → Schedule) × Call) → Mem → List (Result × Bytes) × Mem → Prop :=
  CallsBy fun c m => c.2.ByThread u c.1 p m

/-- Any sequence of calls can run with the threads of the transforms and of the circulant columns in any
order from barrier to barrier and the units of the other dispatches in any order. Each call then returns
what it returns with the threads in step: a function of its arguments and the tables, whatever the tiles
hold before. -/
theorem calls_byThread {w : ScalarField} {P : ℕ → ℕ → ScalarPoint}
    {K : ZMod circulantSize → ScalarField} {u : ℕ → ℕ} {p : Prover} {m : Mem}
    (hw : IsPrimitiveRoot w 8192) (hm : Loaded w P K p m) (calls : List ((ℕ → Schedule) × Call))
    (hu : ∀ c ∈ calls, ExactIndices u (min p.maxBatch c.2.numBlobs))
    (hs : ∀ c ∈ calls, ∀ n, (c.1 n).submission = .completed) :
    (∃ r, CallsByThread u p calls m r) ∧ ∀ r, CallsByThread u p calls m r →
      r = runCalls u p calls m ∧ r.1 = calls.map fun c => c.2.result w P K p.maxBatch := by
  have hiff : ∀ r, CallsByThread u p calls m r ↔ r = runCalls u p calls m := by
    refine callsBy_iff hw hm calls hu hs fun c hc m hm r => ?_
    refine Call.by_iff hw hm c.2 (hu c hc) (hs c hc) (fun n m batch h hbatch proofs off blobs r => ?_)
      fun n m batch hbatch out off cells cellPresent r => ?_
    · refine computeBatchBy_iff (hs c hc n) fun m' => ?_
      rw [byThread_iff (splits_computeLaunches hbatch) (raceFreeAll_computeStart
        h.tables.kernel.plusWf h.tables.kernel.minusWf hbatch blobs), runGrids_eq cuts_computeGrids]
    · refine recoverBatchBy_iff (hs c hc n) fun hcount m' => ?_
      rw [byThread_iff (splits_recoverLaunches hbatch)
        (raceFreeAll_recoverStart (hbatch.below (by decide)) hcount), runGrids_eq cuts_recoverGrids]
  refine ⟨⟨_, (hiff _).mpr rfl⟩, fun r hr => ⟨(hiff r).mp hr, ?_⟩⟩
  rw [(hiff r).mp hr]
  exact (runCalls_result hw hm calls hu hs).1

/-- A blob that is not canonical, and then a recovery of cells that are all there. -/
theorem calls_byThread_pair : ∃ p m, Loaded rootOfUnity (fun _ _ => 0) (fun _ => 0) p m ∧
    let bad : Call := .computeProofsBatch true (fun _ => 0) (fun _ => 255) 1
    let good : Call := .recoverCellsBatch true (fun _ => 0) (fun _ => 1) (fun _ => 1) 1
    let s : ℕ → Schedule := fun _ => undisturbed
    ∃ r, CallsByThread uint32 p [(s, bad), (s, good)] m r ∧
      r.1 = [bad, good].map fun c => c.result rootOfUnity (fun _ _ => 0) (fun _ => 0) p.maxBatch := by
  obtain ⟨p, m, h, hbatch⟩ := exists_loaded rootOfUnity (fun _ _ => 0) (fun _ => 0) none
  refine ⟨p, m, h, ?_⟩
  intro bad good s
  have hle : p.maxBatch ≤ 7281 := by
    rw [hbatch]
    decide
  have hs : ∀ c ∈ [(s, bad), (s, good)], ∀ n, (c.1 n).submission = .completed := by
    intro c hc n
    rcases List.mem_cons.mp hc with rfl | hc
    · rfl
    · rw [List.mem_singleton.mp hc]
      rfl
  obtain ⟨⟨r, hr⟩, hall⟩ := calls_byThread isPrimitiveRoot_rootOfUnity h [(s, bad), (s, good)]
    (fun c _ => exactIndices_uint32 ((Nat.min_le_left _ _).trans hle)) hs
  exact ⟨r, hr, (hall r hr).2⟩

end Vkzg
