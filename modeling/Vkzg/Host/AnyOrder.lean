import Vkzg.Host.Calls
import Vkzg.Shaders.Grids

/-! The batches of both calls with the units of every dispatch running in any order: a call returns
what it returns when they run one after the other. -/

namespace Vkzg
open Radix Gpu Gpu.Kernel BitReversal Chunks

/-! ### The grids -/

def columnGrids (p : Prover) (s : Schedule) (batch : ℕ) : List (Grid Buf) :=
  fourStepGrids .workA .polyExt .lagrange .rootsInv 64 64 fieldElementsPerBlob
    fieldElementsPerExtBlob fieldElementsPerExtBlob 1 p.invBlob batch (s.tile 0) (s.tile 1) ++
  [buildCirculantGrid (s.tile 2) batch]

def phaseAGrids (hist scat : ℕ → ℕ → AtomicOrder) (gpuTotalCores : ℕ) (sg : ℕ → ℕ → Subgroup)
    (out : Buf) (batch : ℕ) : List (Grid Buf) :=
  [phaseASortGrid hist scat batch, phaseAGrid batch,
    recordReduceGrid gpuTotalCores sg out circulantSize batch]

def normalizeLadderGrid (u : ℕ → ℕ) (batch : ℕ) : Grid Buf :=
  let ladderPoints := u (batch * circulantSize * ladderPositions)
  normalizeGrid (circulantSize * ladderPositions) .ladderAff .ladderJacFolded ladderPoints
    (inversionChunk ladderPoints 32 128 8192)

def phaseBGrids (u : ℕ → ℕ) (gpuTotalCores : ℕ) (sg : ℕ → ℕ → Subgroup) (batch : ℕ) :
    List (Grid Buf) :=
  [ladderGrid batch, foldLadderGrid batch, normalizeLadderGrid u batch, phaseBGrid batch,
    recordReduceGrid gpuTotalCores sg .points circulantSize batch, combineGrid batch]

def normalizeProofsGrid (u : ℕ → ℕ) (batch : ℕ) : Grid Buf :=
  let proofPoints := u (batch * circulantSize)
  normalizeGrid circulantSize .proofsAff .proofs proofPoints (inversionChunk proofPoints 4 32 2048)

def encodeGrids (u : ℕ → ℕ) (batch : ℕ) : List (Grid Buf) :=
  [normalizeProofsGrid u batch, compressGrid batch]

/-- The dispatches of `computeBatch`. -/
def computeGrids (u : ℕ → ℕ) (p : Prover) (s : Schedule) (batch : ℕ) : List (Grid Buf) :=
  [blobToFrGrid batch] ++ columnGrids p s batch ++
  phaseAGrids s.hist s.scat p.gpuTotalCores (s.subgroup 0) .points batch ++
  phaseBGrids u p.gpuTotalCores (s.subgroup 1) batch ++ encodeGrids u batch

def recoverNttGrids (out inp roots : Buf) (batch : ℕ) (tile : ℕ → ℕ → ℕ → ℕ → Fr) (pass : ℕ) :
    List (Grid Buf) :=
  fourStepGrids .recScratch out inp roots 128 64 fieldElementsPerExtBlob fieldElementsPerExtBlob
    fieldElementsPerExtBlob 0 frZero batch (tile pass) (tile (pass + 1))

def recoverInputGrids (batch : ℕ) (shared : ℕ → ℕ → Fr) : List (Grid Buf) :=
  [cellsToFrGrid batch, vanishingPolyGrid shared batch]

def recoverToCosetGrids (batch : ℕ) (tile : ℕ → ℕ → ℕ → ℕ → Fr) : List (Grid Buf) :=
  recoverNttGrids .recZEval .recZCoeff .rootsFwd batch tile 0 ++
  [ewMulGrid .recEZEval .recBrp .recZEval .batched batch] ++
  recoverNttGrids .recEZCoeff .recEZEval .rootsInv batch tile 2 ++
  [ewMulGrid .recEZCoeff .recEZCoeff .invExtBlob .broadcast batch,
    ewMulGrid .recShiftedA .recEZCoeff .cosetShiftFwd .sharedTable batch] ++
  recoverNttGrids .recCosetA .recShiftedA .rootsFwd batch tile 4 ++
  [ewMulGrid .recShiftedA .recZCoeff .cosetShiftFwd .sharedTable batch] ++
  recoverNttGrids .recCosetB .recShiftedA .rootsFwd batch tile 6

def recoverFromCosetGrids (batch : ℕ) (tile : ℕ → ℕ → ℕ → ℕ → Fr) : List (Grid Buf) :=
  [ewDivGrid .recPCoset .recCosetA .recCosetB batch] ++
  recoverNttGrids .recPCoeffU .recPCoset .rootsInv batch tile 8 ++
  [ewMulGrid .recPCoeffU .recPCoeffU .invExtBlob .broadcast batch,
    ewMulGrid .recPCoeff .recPCoeffU .cosetShiftInv .sharedTable batch] ++
  recoverNttGrids .recPFull .recPCoeff .rootsFwd batch tile 10 ++
  [frToCellsGrid batch]

/-- The dispatches of `recoverBatch`. -/
def recoverGrids (batch : ℕ) (tile : ℕ → ℕ → ℕ → ℕ → Fr) (shared : ℕ → ℕ → Fr) :
    List (Grid Buf) :=
  recoverInputGrids batch shared ++ recoverToCosetGrids batch tile ++
    recoverFromCosetGrids batch tile

/-! ### Their units in turn -/

section Cuts
variable {u : ℕ → ℕ} {p : Prover} {s : Schedule} {batch cores : ℕ} {hist scat : ℕ → ℕ → AtomicOrder}
  {sg : ℕ → ℕ → Subgroup} {out : Buf} {tile : ℕ → ℕ → ℕ → ℕ → Fr} {shared : ℕ → ℕ → Fr}

theorem cuts_columnGrids :
    List.Forall₂ (Cuts u) (columnGrids p s batch) (columnCommands p s batch) :=
  List.rel_append cuts_fourStep (.cons cuts_buildCirculant .nil)

theorem cuts_phaseAGrids : List.Forall₂ (Cuts u) (phaseAGrids hist scat cores sg out batch)
    (phaseA hist scat cores sg out batch) :=
  .cons cuts_phaseASort (.cons cuts_phaseA (.cons cuts_recordReduce .nil))

theorem cuts_normalizeLadder : Cuts u (normalizeLadderGrid u batch) (normalizeLadder batch) :=
  cuts_uint cuts_normalize

theorem cuts_phaseBGrids :
    List.Forall₂ (Cuts u) (phaseBGrids u cores sg batch) (phaseB cores sg batch) :=
  .cons cuts_ladder (.cons cuts_foldLadder (.cons cuts_normalizeLadder
    (.cons cuts_phaseB (.cons cuts_recordReduce (.cons cuts_combine .nil)))))

theorem cuts_encodeGrids :
    List.Forall₂ (Cuts u) (encodeGrids u batch) (encodeCommands batch) :=
  .cons (cuts_uint cuts_normalize) (.cons cuts_compress .nil)

theorem cuts_computeGrids :
    List.Forall₂ (Cuts u) (computeGrids u p s batch) (computeCommands p s batch) :=
  List.rel_append (List.rel_append (List.rel_append (List.rel_append (.cons cuts_blobToFr .nil)
    cuts_columnGrids) cuts_phaseAGrids) cuts_phaseBGrids) cuts_encodeGrids

theorem cuts_recoverInputGrids :
    List.Forall₂ (Cuts u) (recoverInputGrids batch shared) (recoverInputs batch shared) :=
  .cons cuts_cellsToFr (.cons cuts_vanishingPoly .nil)

theorem cuts_recoverToCosetGrids :
    List.Forall₂ (Cuts u) (recoverToCosetGrids batch tile) (recoverToCoset batch tile) :=
  List.rel_append (List.rel_append (List.rel_append (List.rel_append (List.rel_append
    (List.rel_append cuts_fourStep (.cons cuts_ewMul .nil)) cuts_fourStep)
    (.cons cuts_ewMul (.cons cuts_ewMul .nil))) cuts_fourStep) (.cons cuts_ewMul .nil)) cuts_fourStep

theorem cuts_recoverFromCosetGrids :
    List.Forall₂ (Cuts u) (recoverFromCosetGrids batch tile) (recoverFromCoset batch tile) :=
  List.rel_append (List.rel_append (List.rel_append (List.rel_append (.cons cuts_ewDiv .nil)
    cuts_fourStep) (.cons cuts_ewMul (.cons cuts_ewMul .nil))) cuts_fourStep)
    (.cons cuts_frToCells .nil)

theorem cuts_recoverGrids :
    List.Forall₂ (Cuts u) (recoverGrids batch tile shared) (recoverCommands batch tile shared) :=
  List.rel_append (List.rel_append cuts_recoverInputGrids cuts_recoverToCosetGrids)
    cuts_recoverFromCosetGrids

end Cuts

/-! ### No dispatch races -/

section RaceFree
variable {u : ℕ → ℕ} {p : Prover} {s : Schedule} {m : Mem} {batch cores : ℕ}
  {hist scat : ℕ → ℕ → AtomicOrder} {sg : ℕ → ℕ → Subgroup} {out : Buf}
  {tile : ℕ → ℕ → ℕ → ℕ → Fr} {shared : ℕ → ℕ → Fr}

theorem PermAt.congr {m' : Mem} {buf : Buf} {off : ℕ} (h : PermAt m buf off) (hm : m' buf = m buf) :
    PermAt m' buf off := by
  have helem : ∀ t, m'.elem 4 buf t = m.elem 4 buf t := fun t => Memory.elem_congr hm 4 t
  exact ⟨fun t ht => (helem _).trans_lt (h.lt t ht), fun t ht t' ht' heq => h.inj t ht t' ht' (by
    rwa [helem, helem] at heq)⟩

/-- The chunks of a normalization with `n` points for each blob. -/
theorem raceFree_points {n floorChunk ceilChunk targetThreads : ℕ} {outAffine inJacobian : Buf}
    (hu : ExactIndices u batch) (hn : n ≤ 16384) (hceil : ceilChunk ≤ 128)
    (hinp : normalized outAffine inJacobian = false) (hne : outAffine ≠ .normScratch) :
    let g := normalizeGrid n outAffine inJacobian (u (batch * n))
      (inversionChunk (u (batch * n)) floorChunk ceilChunk targetThreads)
    RaceFree u g.units g.main m := by
  have hcount : batch * n ≤ batch * 16384 := Nat.mul_le_mul_left batch hn
  have hle : inversionChunk (batch * n) floorChunk ceilChunk targetThreads ≤ 128 :=
    inversionChunk_le.trans hceil
  rcases Nat.eq_zero_or_pos batch with rfl | hpos
  · rw [Nat.zero_mul] at hle ⊢
    rw [hu.word 0 (by decide)]
    exact raceFree_normalize hinp hne (fun i hi => absurd hi (Nat.not_lt_zero i))
      fun i hi => hu.word i (by omega)
  · rw [hu.offset _ (by omega)]
    exact raceFree_normalize hinp hne (fun i hi => hu.offset i (by omega))
      fun i hi => hu.offset i (by omega)

theorem raceFreeAll_phaseA (hu : ExactIndices u batch) (hout : .buckets ≠ out) (m : Mem) :
    RaceFreeAll u (phaseAGrids hist scat cores sg out batch) m := by
  refine ⟨raceFree_phaseASort (hu.below (by decide)), raceFree_phaseA (fun b hb j hj => ?_)
    (hu.below (by decide)), raceFree_recordReduce hout (hu.below (by decide)), trivial⟩
  -- the order of the buckets is what the sort has left
  have hexact : Within (fun _ => True) u m (phaseASortDispatch hist scat batch) :=
    within_phaseASort (hu.below (by decide)) (fun _ _ _ _ => trivial) (fun _ _ _ _ => trivial)
      (fun _ _ _ _ => trivial) fun _ _ _ _ => trivial
  have hsorted : SortedAt ((phaseASortDispatch hist scat batch).exec id m) (b * circulantSize + j)
      (digitsAt m b j) := phaseASort_sorted hb hj
  rw [cuts_phaseASort, hexact.exec]
  exact permAt_of_surj hsorted.perm_lt hsorted.perm_surj

theorem raceFreeAll_phaseB (hu : ExactIndices u batch) (hplus : PermAt m plusLists.perm 0)
    (hminus : PermAt m minusLists.perm 0) : RaceFreeAll u (phaseBGrids u cores sg batch) m := by
  have hnormalize : ∀ m, RaceFree u (normalizeLadderGrid u batch).units
      (normalizeLadderGrid u batch).main m := fun m => by
    have h := @raceFree_points u m batch (circulantSize * ladderPositions) 32 128 8192 .ladderAff
      .ladderJacFolded hu (by decide) (by decide) rfl (by decide)
    rwa [← Nat.mul_assoc] at h
  have h := computeWords_true hu
  have hscratch := scratchWords_true hu (n := circulantSize * ladderPositions) (by decide)
  have hladders : ∀ b : Buf, b.isSetup = true →
      runGrids u [ladderGrid batch, foldLadderGrid batch, normalizeLadderGrid u batch] m b = m b := by
    intro b hb
    have hwithin : WithinAll (fun _ => True) u
        [ladderDispatch batch, foldLadderDispatch batch, normalizeLadder batch] m := by
      have hnormalize := @within_normalize _ u ((foldLadderDispatch batch).exec id
        ((ladderDispatch batch).exec id m)) batch (circulantSize * ladderPositions) 32 128 8192
        .ladderAff .ladderJacFolded hu (by decide) (by decide) (h.words (by decide)) hscratch
        (h.words (by decide))
      rw [← Nat.mul_assoc] at hnormalize
      exact ⟨within_ladder (h.words (by decide)) (h.words (by decide)),
        within_foldLadder (h.words (by decide)) (h.words (by decide)), hnormalize, trivial⟩
    rw [runGrids_eq (.cons cuts_ladder (.cons cuts_foldLadder (.cons cuts_normalizeLadder .nil))),
      hwithin.runAll]
    exact frame_ladders hb
  exact ⟨raceFree_ladder (hu.below (by decide)), raceFree_foldLadder (hu.below (by decide)),
    hnormalize _, raceFree_phaseB (hplus.congr (hladders _ rfl)) (hminus.congr (hladders _ rfl))
      (hu.below (by decide)), raceFree_recordReduce (by decide) (hu.below (by decide)),
    raceFree_combine (hu.below (by decide)), trivial⟩

theorem raceFreeAll_computeGrids (hu : ExactIndices u batch) (hplus : PermAt m plusLists.perm 0)
    (hminus : PermAt m minusLists.perm 0) : RaceFreeAll u (computeGrids u p s batch) m := by
  have hcolumns : ∀ m, RaceFreeAll u (columnGrids p s batch) m := fun m =>
    raceFreeAll_append (raceFreeAll_of_forall (raceFree_fourStep (by decide) (by decide) (by decide)
      (hu.below (by decide)) (hu.below (by decide))) m)
      ⟨raceFree_buildCirculant (hu.below (by decide)), trivial⟩
  have hencode : ∀ m, RaceFreeAll u (encodeGrids u batch) m := fun m =>
    ⟨raceFree_points hu (by decide) (by decide) rfl (by decide),
      raceFree_compress (hu.below (by decide)), trivial⟩
  have hbefore : ∀ b : Buf, b.isSetup = true → runGrids u ([blobToFrGrid batch] ++
      columnGrids p s batch ++ phaseAGrids s.hist s.scat p.gpuTotalCores (s.subgroup 0) .points batch)
      m b = m b := by
    intro b hb
    have h := computeWords_true hu
    have hwithin : WithinAll (fun _ => True) u ([blobToFrDispatch batch] ++
        columnCommands p s batch ++ phaseA s.hist s.scat p.gpuTotalCores (s.subgroup 0) .points batch)
        m :=
      withinAll_append (withinAll_append ⟨within_blobToFr (hu.below (by decide)) h.blob
        (h.words (by decide)) h.err, trivial⟩ (withinAll_of_forall (within_columnCommands h) _))
        (withinAll_phaseA h (h.words (by decide)) _)
    rw [runGrids_eq (List.rel_append (List.rel_append (.cons cuts_blobToFr .nil) cuts_columnGrids)
      cuts_phaseAGrids), hwithin.runAll]
    exact frame_beforePhaseB hb
  have hblob : RaceFree u (blobToFrGrid batch).units (blobToFrGrid batch).main m :=
    raceFree_blobToFr (hu.below (by decide)) (hu.word 0 (by decide))
  exact raceFreeAll_append (raceFreeAll_append (raceFreeAll_append (raceFreeAll_append
    ⟨hblob, trivial⟩ (hcolumns _)) (raceFreeAll_phaseA hu (by decide) _))
    (raceFreeAll_phaseB hu (hplus.congr (hbefore _ rfl)) (hminus.congr (hbefore _ rfl)))) (hencode _)

theorem below_of_cells (hu : ∀ n < batch * 262144, u n = n) {k : ℕ} (hk : k ≤ 262144) :
    ∀ n < batch * k, u n = n := fun n hn => hu n (hn.trans_le (Nat.mul_le_mul_left batch hk))

theorem raceFree_recoverNtt {out inp roots : Buf} {pass : ℕ}
    (hu : ∀ n < batch * 262144, u n = n) (hmid : inp ≠ .recScratch ∧ roots ≠ .recScratch)
    (hout : .recScratch ≠ out ∧ roots ≠ out) :
    ∀ g ∈ recoverNttGrids out inp roots batch tile pass, ∀ m, RaceFree u g.units g.main m :=
  raceFree_fourStep hmid hout (by decide) (below_of_cells hu (by decide))
    (below_of_cells hu (by decide))

theorem raceFreeAll_recoverGrids (hu : ∀ n < batch * 262144, u n = n)
    (hwf : ∀ b < batch, MissingWf m b) : RaceFreeAll u (recoverGrids batch tile shared) m := by
  have hscalars : ∀ n < batch * (8192 * 8), u n = n := below_of_cells hu (by decide)
  have hexact : Within (fun _ => True) u m
      (dispatch (kCellsToFr .recBrp .recScratch) (fieldElementsPerExtBlob / 256) batch) :=
    within_cellsToFr hu (fun _ _ _ _ => trivial) fun _ _ _ _ => trivial
  have hinputs : RaceFreeAll u (recoverInputGrids batch shared) m :=
    ⟨raceFree_cellsToFr hscalars, raceFree_vanishingPoly (fun b hb => by
      rw [cuts_cellsToFr, hexact.exec]
      exact missingWf_congr (frame_cellsToFr (by decide)) (hwf b hb)) hscalars, trivial⟩
  refine raceFreeAll_append (raceFreeAll_append hinputs (raceFreeAll_of_forall (fun g hg m => ?_) _))
    (raceFreeAll_of_forall (fun g hg m => ?_) _)
  · simp only [recoverToCosetGrids, List.mem_append, List.mem_cons, List.not_mem_nil, or_false] at hg
    rcases hg with ((((((hg | rfl) | hg) | rfl | rfl) | hg) | rfl) | hg)
    · exact raceFree_recoverNtt hu (by decide) (by decide) g hg m
    · exact raceFree_ewMul (.inl rfl) hscalars
    · exact raceFree_recoverNtt hu (by decide) (by decide) g hg m
    · exact raceFree_ewMul (.inr (by decide)) hscalars
    · exact raceFree_ewMul (.inr (by decide)) hscalars
    · exact raceFree_recoverNtt hu (by decide) (by decide) g hg m
    · exact raceFree_ewMul (.inr (by decide)) hscalars
    · exact raceFree_recoverNtt hu (by decide) (by decide) g hg m
  · simp only [recoverFromCosetGrids, List.mem_append, List.mem_cons, List.not_mem_nil, or_false] at hg
    rcases hg with ((((rfl | hg) | rfl | rfl) | hg) | rfl)
    · exact raceFree_ewDiv hscalars
    · exact raceFree_recoverNtt hu (by decide) (by decide) g hg m
    · exact raceFree_ewMul (.inr (by decide)) hscalars
    · exact raceFree_ewMul (.inr (by decide)) hscalars
    · exact raceFree_recoverNtt hu (by decide) (by decide) g hg m
    · exact raceFree_frToCells (below_of_cells hu (by decide))

end RaceFree

/-! ### Batches -/

/-- What `computeBatch` may return when its dispatches may leave what `R` relates to the memory they
start from. -/
def ComputeBatchBy (R : Mem → Mem → Prop) (m : Mem) (proofs : Bytes) (off : ℕ) (blobs : Bytes)
    (batch : ℕ) (r : Result × Bytes × Mem) : Prop :=
  let m := writeBuf (writeBuf m .blob blobs (batch * bytesPerBlob)) .err (fun _ => 0) 4
  ∃ m', R m m' ∧
    r = if m'.elem 4 .err 0 ≠ 0 then (.errInvalidBlob, proofs, m')
      else (.ok, memcpy proofs off (m' .proofBytes) (batch * circulantSize * bytesPerProof), m')

def RecoverBatchBy (R : Mem → Mem → Prop) (m : Mem) (out : Bytes) (off : ℕ)
    (cells cellPresent : Bytes) (batch : ℕ) (r : Result × Bytes × Mem) : Prop :=
  let m := writeBuf m .recScratch cells (batch * circulantSize * cellBytes)
  match missingList cellPresent batch with
  | .error e => r = (e, out, m)
  | .ok missing =>
    let m := writeBuf (uploadMissing m missing batch) .err (fun _ => 0) 4
    ∃ m', R m m' ∧ r = (.ok, memcpy out off (m' .recOut) (batch * circulantSize * cellBytes), m')

/-- The batch when the units of each dispatch run in any order. -/
def ComputeBatchAnyOrder (u : ℕ → ℕ) (s : Schedule) (p : Prover) (m : Mem) (proofs : Bytes) (off : ℕ)
    (blobs : Bytes) (batch : ℕ) (r : Result × Bytes × Mem) : Prop :=
  ComputeBatchBy (InAnyOrder u (computeGrids u p s batch)) m proofs off blobs batch r

def RecoverBatchAnyOrder (u : ℕ → ℕ) (s : Schedule) (m : Mem) (out : Bytes) (off : ℕ)
    (cells cellPresent : Bytes) (batch : ℕ) (r : Result × Bytes × Mem) : Prop :=
  RecoverBatchBy (InAnyOrder u (recoverGrids batch s.tile (s.tile 12 0))) m out off cells cellPresent
    batch r

section Batches
variable {u : ℕ → ℕ} {p : Prover} {s : Schedule} {m : Mem} {batch off : ℕ} {out : Bytes}
  {r : Result × Bytes × Mem}

theorem ListsWf.permAt {lists : KernelLists} (h : ListsWf m lists) : PermAt m lists.perm 0 := by
  refine permAt_of_surj ?_ ?_
  · simp only [Nat.zero_add]
    exact h.perm_lt
  · simp only [Nat.zero_add]
    exact h.perm_surj

theorem computeBatchBy_iff {R : Mem → Mem → Prop} (hs : s.submission = .completed)
    {proofs blobs : Bytes} (hR : ∀ m', R (computeStart m blobs batch) m' ↔
      m' = runAll (computeCommands p s batch) u (computeStart m blobs batch)) :
    ComputeBatchBy R m proofs off blobs batch r ↔
      r = computeBatch u s p m proofs off blobs batch := by
  have hbatch : computeBatch u s p m proofs off blobs batch =
      let m' := runAll (computeCommands p s batch) u (computeStart m blobs batch)
      if m'.elem 4 .err 0 ≠ 0 then (.errInvalidBlob, proofs, m')
      else (.ok, memcpy proofs off (m' .proofBytes) (batch * circulantSize * bytesPerProof), m') := by
    unfold computeBatch
    simp only [hs, Submission.run]
    rfl
  rw [hbatch]
  refine ⟨?_, fun hr => ⟨_, (hR _).mpr rfl, hr⟩⟩
  rintro ⟨m', hrun, hr⟩
  exact (hR m').mp hrun ▸ hr

theorem recoverBatchBy_iff {R : Mem → Mem → Prop} (hs : s.submission = .completed)
    {cells cellPresent : Bytes} (hR : (∀ b < batch, (missingCells cellPresent b).length ≤ 64) →
      ∀ m', R (recoverStart m cells cellPresent batch) m' ↔ m' = runAll (recoverCommands batch s.tile
        (s.tile 12 0)) u (recoverStart m cells cellPresent batch)) :
    RecoverBatchBy R m out off cells cellPresent batch r ↔
      r = recoverBatch u s m out off cells cellPresent batch := by
  by_cases hcount : ∀ b < batch, (missingCells cellPresent b).length ≤ 64
  · unfold RecoverBatchBy recoverBatch
    simp only [missingList_eq, if_pos hcount, hs, Submission.run]
    refine ⟨?_, fun hr => ⟨_, (hR hcount _).mpr rfl, hr⟩⟩
    rintro ⟨m', hrun, hr⟩
    exact (hR hcount m').mp hrun ▸ hr
  · unfold RecoverBatchBy recoverBatch
    simp only [missingList_eq, if_neg hcount]

theorem raceFreeAll_computeStart (hplus : ListsWf m plusLists) (hminus : ListsWf m minusLists)
    (hu : ExactIndices u batch) (blobs : Bytes) :
    RaceFreeAll u (computeGrids u p s batch) (computeStart m blobs batch) :=
  raceFreeAll_computeGrids hu (hplus.permAt.congr (computeStart_setup rfl))
    (hminus.permAt.congr (computeStart_setup rfl))

theorem raceFreeAll_recoverStart {cells cellPresent : Bytes} (hu : ∀ n < batch * 262144, u n = n)
    (hcount : ∀ b < batch, (missingCells cellPresent b).length ≤ 64) :
    RaceFreeAll u (recoverGrids batch s.tile (s.tile 12 0))
      (recoverStart m cells cellPresent batch) :=
  raceFreeAll_recoverGrids hu fun _ hb =>
    missingWf_congr recoverStart_missing (missingWf_uploadMissing hcount hb)

/-- The threads of a workgroup, or the workgroups where a barrier holds the threads together, may
read and store in any order, each store by itself: `computeBatch` returns what it returns when they
run in turn. -/
theorem computeBatch_anyOrder (hplus : ListsWf m plusLists) (hminus : ListsWf m minusLists)
    (hu : ExactIndices u batch) (hs : s.submission = .completed) (proofs blobs : Bytes) :
    ComputeBatchAnyOrder u s p m proofs off blobs batch r ↔
      r = computeBatch u s p m proofs off blobs batch :=
  computeBatchBy_iff hs fun _ =>
    (raceFreeAll_computeStart hplus hminus hu blobs).runAll_iff cuts_computeGrids

/-- Two blobs of which no element is canonical are refused in any order. -/
theorem computeBatch_anyOrder_bad : ∃ p m, Loaded rootOfUnity (fun _ _ => 0) (fun _ => 0) p m ∧
    ∀ r, ComputeBatchAnyOrder uint32 undisturbed p m (fun _ => 7) 0 (fun _ => 255) 2 r →
      r.1 = .errInvalidBlob ∧ r.2.1 = fun _ => 7 := by
  obtain ⟨p, m, h, -⟩ := exists_loaded rootOfUnity (fun _ _ => 0) (fun _ => 0) none
  have hu : ExactIndices uint32 2 := exactIndices_uint32 (by decide)
  refine ⟨p, m, h, fun r hr => ?_⟩
  rw [(computeBatch_anyOrder h.tables.kernel.plusWf h.tables.kernel.minusWf hu rfl _ _).mp hr]
  obtain ⟨m', heq, -⟩ := @computeBatch_eq _ _ _ uint32 p undisturbed m 2 0 (fun _ => 7)
    (fun _ => 255) isPrimitiveRoot_rootOfUnity h hu rfl
  have hbad : ¬∀ b < 2, Canonical (fun _ => 255) b := fun hall =>
    absurd (hall 0 (by decide) 0 (by decide)) (by decide +kernel)
  rw [heq, if_neg hbad]
  exact ⟨rfl, rfl⟩

end Batches

/-! ### Calls -/

/-- What a call may return where the relations say what its batches may. -/
def Call.By (compute : Schedule → Mem → Bytes → ℕ → Bytes → ℕ → Result × Bytes × Mem → Prop)
    (recover : Schedule → Mem → Bytes → ℕ → Bytes → Bytes → ℕ → Result × Bytes × Mem → Prop)
    (s : ℕ → Schedule) (p : Prover) (m : Mem) : Call → Result × Bytes × Mem → Prop
  | .computeProofsBatch given proofs blobs n, r =>
    if !given then r = (.errBadArgs, proofs, m)
    else if n = 0 then r = (.ok, proofs, m)
    else RunsUntil .ok (fun done batch st => compute (s done) st.2 st.1 (done * proofBytes)
      (slice blobs (done * bytesPerBlob)) batch) (chunks p.maxBatch n) (proofs, m) r
  | .recoverCellsBatch given cellsOut cells cellPresent n, r =>
    if !given then r = (.errBadArgs, cellsOut, m)
    else if n = 0 then r = (.ok, cellsOut, m)
    else RunsUntil .ok (fun done batch st => recover (s done) st.2 st.1 (done * cellsBytes)
      (slice cells (done * cellsBytes)) (slice cellPresent (done * presentBytes)) batch)
      (chunks p.maxBatch n) (cellsOut, m) r

def Call.AnyOrder (u : ℕ → ℕ) (s : ℕ → Schedule) (p : Prover) (m : Mem) :
    Call → Result × Bytes × Mem → Prop :=
  Call.By (fun s => ComputeBatchAnyOrder u s p) (RecoverBatchAnyOrder u) s p m

/-- Calls one after the other. -/
inductive CallsBy (one : (ℕ → Schedule) × Call → Mem → Result × Bytes × Mem → Prop) :
    List ((ℕ → Schedule) × Call) → Mem → List (Result × Bytes) × Mem → Prop
  | nil (m : Mem) : CallsBy one [] m ([], m)
  | cons {c cs m r rest} (h : one c m r) (hrest : CallsBy one cs r.2.2 rest) :
    CallsBy one (c :: cs) m (returned r :: rest.1, rest.2)

def CallsAnyOrder (u : ℕ → ℕ) (p : Prover) :
    List ((ℕ → Schedule) × Call) → Mem → List (Result × Bytes) × Mem → Prop :=
  CallsBy fun c m => c.2.AnyOrder u c.1 p m

section Calls
variable {w : ScalarField} {P : ℕ → ℕ → ScalarPoint} {K : ZMod circulantSize → ScalarField}
  {u : ℕ → ℕ} {p : Prover} {m : Mem}

theorem recoverBatch_setup {s : Schedule} {out : Bytes} {off batch : ℕ} {cells cellPresent : Bytes}
    (hu : ∀ n < batch * 262144, u n = n) (hs : s.submission = .completed) {b : Buf}
    (hb : b.isSetup = true) : (recoverBatch u s m out off cells cellPresent batch).2.2 b = m b := by
  by_cases hcount : ∀ b < batch, (missingCells cellPresent b).length ≤ 64
  · rw [recoverBatch_ok hu hs hcount]
    exact (frame_recoverCommands hb).trans (recoverStart_setup hb)
  · rw [recoverBatch_badArgs hcount]
    exact writeBuf_of_ne (ne_of_isSetup hb rfl) _ _

/-- The loop over the chunks keeps the prover loaded, so each batch is what it is by itself. -/
theorem Call.by_iff {compute : Schedule → Mem → Bytes → ℕ → Bytes → ℕ → Result × Bytes × Mem → Prop}
    {recover : Schedule → Mem → Bytes → ℕ → Bytes → Bytes → ℕ → Result × Bytes × Mem → Prop}
    (hw : IsPrimitiveRoot w 8192) (hm : Loaded w P K p m) (c : Call)
    (hu : ExactIndices u (min p.maxBatch c.numBlobs)) {s : ℕ → Schedule}
    (hs : ∀ n, (s n).submission = .completed)
    (hcompute : ∀ n m batch, Loaded w P K p m → ExactIndices u batch → ∀ proofs off blobs r,
      compute (s n) m proofs off blobs batch r ↔ r = computeBatch u (s n) p m proofs off blobs batch)
    (hrecover : ∀ n m batch, ExactIndices u batch → ∀ out off cells cellPresent r,
      recover (s n) m out off cells cellPresent batch r ↔
        r = recoverBatch u (s n) m out off cells cellPresent batch)
    {r : Result × Bytes × Mem} : c.By compute recover s p m r ↔ r = c.run u s p m := by
  have hbatch : ∀ q ∈ chunks p.maxBatch c.numBlobs, ExactIndices u q.2 := fun q hq => by
    obtain ⟨-, hle, htotal⟩ := chunk_length p.maxBatch_pos hq
    exact hu.mono (Nat.le_min.mpr ⟨hle, by omega⟩)
  cases c with
  | computeProofsBatch given proofs blobs n =>
    simp only [Call.By, Call.run, Vkzg.computeProofsBatch]
    split_ifs
    · exact Iff.rfl
    · exact Iff.rfl
    · rw [loop_eq_runUntil]
      refine runsUntil_iff (I := fun st => Loaded w P K p st.2) (fun q hq st h r =>
        hcompute _ _ _ h (hbatch q hq) _ _ _ r) (fun q hq st h => ?_) hm
      obtain ⟨m', heq, hkeep, -⟩ := @computeBatch_eq w P K u p (s q.1) st.2 q.2 (q.1 * proofBytes)
        st.1 (slice blobs (q.1 * bytesPerBlob)) hw h (hbatch q hq) (hs _)
      rw [computeStep, heq]
      split_ifs <;> exact h.congr hkeep
  | recoverCellsBatch given cellsOut cells cellPresent n =>
    simp only [Call.By, Call.run, Vkzg.recoverCellsBatch]
    split_ifs
    · exact Iff.rfl
    · exact Iff.rfl
    · have hcells : ∀ q ∈ chunks p.maxBatch n, ∀ i < q.2 * 262144, u i = i := fun q hq =>
        (hbatch q hq).below (by decide)
      rw [loop_eq_runUntil]
      exact runsUntil_iff (I := fun st => Loaded w P K p st.2) (fun q hq st _ r =>
        hrecover _ _ _ (hbatch q hq) _ _ _ _ r) (fun q hq st h =>
          h.congr fun b hb => recoverBatch_setup (hcells q hq) (hs _) hb) hm

/-- A sequence, by induction on the calls left: the invariant is that the prover stays loaded. -/
theorem callsBy_iff {one : (ℕ → Schedule) × Call → Mem → Result × Bytes × Mem → Prop}
    (hw : IsPrimitiveRoot w 8192) (hm : Loaded w P K p m) (calls : List ((ℕ → Schedule) × Call))
    (hu : ∀ c ∈ calls, ExactIndices u (min p.maxBatch c.2.numBlobs))
    (hs : ∀ c ∈ calls, ∀ n, (c.1 n).submission = .completed)
    (hone : ∀ c ∈ calls, ∀ m, Loaded w P K p m → ∀ r, one c m r ↔ r = c.2.run u c.1 p m)
    (r : List (Result × Bytes) × Mem) : CallsBy one calls m r ↔ r = runCalls u p calls m := by
  induction calls generalizing m r with
  | nil => exact ⟨fun h => by cases h; rfl, fun h => h ▸ .nil m⟩
  | cons c cs ih =>
    have hc := hone c List.mem_cons_self m hm
    have hkeep := (Call.run_result hw hm c.2 (hu c List.mem_cons_self)
      (hs c List.mem_cons_self)).2
    have hrest := fun r => ih (hm.congr hkeep) (fun c hc => hu c (List.mem_cons_of_mem _ hc))
      (fun c hc => hs c (List.mem_cons_of_mem _ hc))
      (fun c hc => hone c (List.mem_cons_of_mem _ hc)) r
    refine ⟨fun h => ?_, fun h => h ▸ .cons ((hc _).mpr rfl) ((hrest _).mpr rfl)⟩
    cases h with
    | cons h hcs =>
      obtain rfl := (hc _).mp h
      obtain rfl := (hrest _).mp hcs
      rfl

/-- In any sequence of calls, with the units of every dispatch in any order, each call returns what
it returns with the units in turn: a function of its arguments and the tables. -/
theorem calls_anyOrder (hw : IsPrimitiveRoot w 8192) (hm : Loaded w P K p m)
    (calls : List ((ℕ → Schedule) × Call))
    (hu : ∀ c ∈ calls, ExactIndices u (min p.maxBatch c.2.numBlobs))
    (hs : ∀ c ∈ calls, ∀ n, (c.1 n).submission = .completed) (r : List (Result × Bytes) × Mem) :
    (CallsAnyOrder u p calls m r ↔ r = runCalls u p calls m) ∧
      (CallsAnyOrder u p calls m r → r.1 = calls.map fun c => c.2.result w P K p.maxBatch) := by
  have hiff : CallsAnyOrder u p calls m r ↔ r = runCalls u p calls m := by
    refine callsBy_iff hw hm calls hu hs (fun c hc m hm r => ?_) r
    refine Call.by_iff hw hm c.2 (hu c hc) (hs c hc) (fun n m batch h hbatch proofs off blobs r => ?_)
      fun n m batch hbatch out off cells cellPresent r => ?_
    · exact computeBatchBy_iff (hs c hc n) fun _ => (raceFreeAll_computeStart
        h.tables.kernel.plusWf h.tables.kernel.minusWf hbatch blobs).runAll_iff cuts_computeGrids
    · exact recoverBatchBy_iff (hs c hc n) fun hcount _ =>
        (raceFreeAll_recoverStart (hbatch.below (by decide)) hcount).runAll_iff cuts_recoverGrids
  exact ⟨hiff, fun h => (congrArg Prod.fst (hiff.mp h)).trans (runCalls_result hw hm calls hu hs).1⟩

/-- A blob that is not canonical, and then a recovery. -/
theorem calls_anyOrder_pair : ∃ p m, Loaded rootOfUnity (fun _ _ => 0) (fun _ => 0) p m ∧
    let bad : Call := .computeProofsBatch true (fun _ => 0) (fun _ => 255) 1
    let good : Call := .recoverCellsBatch true (fun _ => 0) (fun _ => 1) (fun _ => 1) 1
    let s : ℕ → Schedule := fun _ => undisturbed
    ∀ r, CallsAnyOrder uint32 p [(s, bad), (s, good)] m r →
      r.1 = (runCalls uint32 p [(s, bad), (s, good)] m).1 := by
  obtain ⟨p, m, h, hbatch⟩ := exists_loaded rootOfUnity (fun _ _ => 0) (fun _ => 0) none
  refine ⟨p, m, h, ?_⟩
  intro bad good s r hr
  have hle : p.maxBatch ≤ 7281 := by
    rw [hbatch]
    decide
  have hs : ∀ c ∈ [(s, bad), (s, good)], ∀ n, (c.1 n).submission = .completed := by
    intro c hc n
    rcases List.mem_cons.mp hc with rfl | hc
    · rfl
    · rw [List.mem_singleton.mp hc]
      rfl
  have hany := calls_anyOrder isPrimitiveRoot_rootOfUnity h [(s, bad), (s, good)]
    (fun c _ => exactIndices_uint32 ((Nat.min_le_left _ _).trans hle)) hs r
  exact congrArg Prod.fst (hany.1.mp hr)

end Calls

end Vkzg
