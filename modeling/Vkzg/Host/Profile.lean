import Vkzg.Host.Faults

/-! `profile_batch`: the compute path with a submission of its own for each stage it times. -/

namespace Vkzg
open Radix Gpu Gpu.Kernel Chunks

/-! ### Stages -/

/-- What the compute path flushes after. -/
inductive Stage
  | scalarStage
  | phaseA
  | reduceA
  | ladder
  | foldLadder
  | normalizeLadder
  | phaseB
  | reduceB
  | combine
  | normalizeProofs
  | compress

def stages : List Stage :=
  [.scalarStage, .phaseA, .reduceA, .ladder, .foldLadder, .normalizeLadder, .phaseB, .reduceB,
    .combine, .normalizeProofs, .compress]

/-- What is recorded between two flushes. -/
def Stage.commands (p : Prover) (s : Schedule) (batch : ℕ) : Stage → List (Shader Unit)
  | .scalarStage => blobToFrDispatch batch :: fourStep .workA .polyExt .lagrange .rootsInv 64 64
      fieldElementsPerBlob fieldElementsPerExtBlob fieldElementsPerExtBlob 1 p.invBlob batch
      (s.tile 0) (s.tile 1)
  | .phaseA => [buildCirculantDispatch (s.tile 2) batch, phaseASortDispatch s.hist s.scat batch,
      phaseADispatch batch]
  | .reduceA => [recordReduce p.gpuTotalCores (s.subgroup 0) .points circulantSize batch]
  | .ladder => [ladderDispatch batch]
  | .foldLadder => [foldLadderDispatch batch]
  | .normalizeLadder => [Vkzg.normalizeLadder batch]
  | .phaseB => [phaseBDispatch batch]
  | .reduceB => [recordReduce p.gpuTotalCores (s.subgroup 1) .points circulantSize batch]
  | .combine => [combineDispatch batch]
  | .normalizeProofs => [Vkzg.normalizeProofs batch]
  | .compress => [compressDispatch batch]

theorem flatMap_stages (p : Prover) (s : Schedule) (batch : ℕ) :
    stages.flatMap (Stage.commands p s batch) = computeCommands p s batch := rfl

/-! ### Flushes -/

/-- The device between two submissions. -/
structure Device where
  lost : Bool
  memory : Mem

/-- One flush. It looks neither at the status of the submission nor at that of the wait, which has no
time limit: there is nothing after a rejected submission, as nothing signals its fence. On a lost
device both return at once. -/
def flushAndTime (u : ℕ → ℕ) (sub : Submission) (cmd : List (Shader Unit)) (d : Device) :
    Option Device :=
  if d.lost then some d
  else match sub with
    | .rejected => none
    | .lost m => some ⟨true, m⟩
    | .completed => some ⟨false, runAll cmd u d.memory⟩

def flushAll (u : ℕ → ℕ) : List (Submission × List (Shader Unit)) → Device → Option Device
  | [], d => some d
  | f :: fs, d => (flushAndTime u f.1 f.2 d).bind (flushAll u fs)

/-- `computeBatch` with a flush after each stage, which ends as `flushes` says; the schedule has the
submission of what is left after the last flush, an empty command buffer. -/
def profileBatch (u : ℕ → ℕ) (flushes : Stage → Submission) (s : Schedule) (p : Prover) (m : Mem)
    (given : Bool) (proofs blobs : Bytes) (batch : ℕ) : Option (Result × Bytes × Mem) :=
  if !given then some (.errBadArgs, proofs, m)
  else
    let m := writeBuf (writeBuf m .blob blobs (batch * bytesPerBlob)) .err (fun _ => 0) 4
    (flushAll u (stages.map fun t => (flushes t, t.commands p s batch)) ⟨false, m⟩).map fun d =>
      if d.lost then (.errGpu, proofs, d.memory)
      else match s.submission.run u [] d.memory with
        | (false, m) => (.errGpu, proofs, m)
        | (true, m) =>
          if m.elem 4 .err 0 ≠ 0 then (.errInvalidBlob, proofs, m)
          else (.ok, memcpy proofs 0 (m .proofBytes) (batch * circulantSize * bytesPerProof), m)

section Flushes
variable {u : ℕ → ℕ} {fs before after : List (Submission × List (Shader Unit))} {m : Mem}

theorem flushAndTime_working (u : ℕ → ℕ) (sub : Submission) (cmd : List (Shader Unit)) (m : Mem) :
    flushAndTime u sub cmd ⟨false, m⟩ = match sub with
      | .rejected => none
      | .lost m' => some ⟨true, m'⟩
      | .completed => some ⟨false, runAll cmd u m⟩ := rfl

theorem flushAll_lost (u : ℕ → ℕ) (fs : List (Submission × List (Shader Unit))) (m : Mem) :
    flushAll u fs ⟨true, m⟩ = some ⟨true, m⟩ := by
  induction fs with
  | nil => rfl
  | cons f fs ih => exact ih

/-- Flushes that all complete are one submission of all their commands. -/
theorem flushAll_completed (h : ∀ f ∈ fs, f.1 = .completed) :
    flushAll u fs ⟨false, m⟩ = some ⟨false, runAll (fs.flatMap Prod.snd) u m⟩ := by
  induction fs generalizing m with
  | nil => rfl
  | cons f fs ih =>
    rw [flushAll, h f List.mem_cons_self, flushAndTime_working, Option.bind_some,
      ih fun g hg => h g (List.mem_cons_of_mem _ hg), List.flatMap_cons, runAll_append]

/-- The first flush that does not complete decides. -/
theorem flushAll_fails (h : ∀ f ∈ before, f.1 = .completed) {f : Submission × List (Shader Unit)}
    (hf : f.1 ≠ .completed) : flushAll u (before ++ f :: after) ⟨false, m⟩ =
      match f.1 with
      | .lost m' => some ⟨true, m'⟩
      | _ => none := by
  induction before generalizing m with
  | nil =>
    rw [List.nil_append, flushAll, flushAndTime_working]
    cases hsub : f.1 with
    | rejected => rfl
    | lost m' => exact flushAll_lost u after m'
    | completed => exact absurd hsub hf
  | cons g gs ih =>
    rw [List.cons_append, flushAll, h g List.mem_cons_self, flushAndTime_working, Option.bind_some]
    exact ih fun g hg => h g (List.mem_cons_of_mem _ hg)

/-- All flushes complete, or there is a first one that does not. -/
theorem exists_first_failure (flushes : Stage → Submission) (ts : List Stage) :
    (∀ t ∈ ts, flushes t = .completed) ∨ ∃ before t after, ts = before ++ t :: after ∧
      (∀ t' ∈ before, flushes t' = .completed) ∧ flushes t ≠ .completed := by
  induction ts with
  | nil => exact .inl nofun
  | cons t ts ih =>
    by_cases ht : flushes t = .completed
    · rcases ih with hall | ⟨before, t', after, rfl, hbefore, hfail⟩
      · exact .inl (List.forall_mem_cons.mpr ⟨ht, hall⟩)
      · exact .inr ⟨t :: before, t', after, rfl, List.forall_mem_cons.mpr ⟨ht, hbefore⟩, hfail⟩
    · exact .inr ⟨[], t, ts, rfl, nofun, ht⟩

end Flushes

/-! ### Against the compute path -/

section Profile
variable {w : ScalarField} {P : ℕ → ℕ → ScalarPoint} {K : ZMod circulantSize → ScalarField}
  {u : ℕ → ℕ} {flushes : Stage → Submission} {s : Schedule} {p : Prover} {m : Mem}
  {proofs blobs : Bytes} {batch : ℕ}

/-- Where no flush fails, flushing makes no difference but to what a rejected submission leaves. -/
theorem profileBatch_completed (h : ∀ t ∈ stages, flushes t = .completed) :
    profileBatch u flushes s p m true proofs blobs batch = some (match s.submission with
      | .rejected => (.errGpu, proofs,
          runAll (computeCommands p s batch) u (computeStart m blobs batch))
      | .lost m' => (.errGpu, proofs, m')
      | .completed => computeBatch u s p m proofs 0 blobs batch) := by
  have hflushes : ∀ f ∈ stages.map fun t => (flushes t, t.commands p s batch), f.1 = .completed :=
    List.forall_mem_map.mpr h
  have hcommands : (stages.map fun t => (flushes t, t.commands p s batch)).flatMap Prod.snd =
      computeCommands p s batch := by
    rw [List.flatMap_map]
    exact flatMap_stages p s batch
  rw [profileBatch, if_neg (by decide)]
  simp only
  rw [← computeStart, flushAll_completed hflushes, hcommands, Option.map_some]
  cases hs : s.submission with
  | rejected => rfl
  | lost m' => rfl
  | completed =>
    rw [computeBatch, hs]
    rfl

theorem profileBatch_fails {before after : List Stage} {t : Stage}
    (hstages : stages = before ++ t :: after) (h : ∀ t' ∈ before, flushes t' = .completed)
    (hfail : flushes t ≠ .completed) : profileBatch u flushes s p m true proofs blobs batch =
      match flushes t with
      | .lost m' => some (.errGpu, proofs, m')
      | _ => none := by
  have hbefore : ∀ f ∈ before.map fun t => (flushes t, t.commands p s batch), f.1 = .completed :=
    List.forall_mem_map.mpr h
  rw [profileBatch, if_neg (by decide), hstages, List.map_append, List.map_cons]
  simp only
  rw [flushAll_fails hbefore hfail]
  cases hsub : flushes t with
  | rejected => rfl
  | lost m' => rfl
  | completed => exact absurd hsub hfail

/-- A call with at most a batch of blobs is one batch. -/
theorem computeBatch_single (hw : IsPrimitiveRoot w 8192) (hm : Loaded w P K p m)
    (hbatch : batch ≤ p.maxBatch) (hu : ExactIndices u batch) (hs : s.submission = .completed)
    {s' : ℕ → Schedule} (hs' : ∀ n, (s' n).submission = .completed) :
    returned (computeBatch u s p m proofs 0 blobs batch) =
        returned (computeProofsBatch u s' p m true proofs blobs batch) ∧
      SetupKept m (computeBatch u s p m proofs 0 blobs batch).2.2 := by
  classical
  have hcall := (@computeProofsBatch_outcome w P K u p s' m proofs blobs batch hw hm
    (hu.mono (Nat.min_le_right _ _)) hs').1
  have hslice : slice blobs (0 * bytesPerBlob) = blobs := by
    funext i
    rw [slice, Nat.zero_mul, Nat.zero_add]
  have hreturned : returned (computeProofsBatch u s' p m true proofs blobs batch) = _ := hcall
  rw [hreturned, outcome]
  by_cases hall : ∀ b < batch, Canonical blobs b
  · obtain ⟨hok, hout, hkeep⟩ := @computeBatch_written w P K u p s m proofs blobs 0 batch hw hm hu hs
      fun b _ hb => hall b (by omega)
    rw [hslice, Nat.zero_mul] at hok hout hkeep
    rw [returned, hok, hout, if_pos hall, doneBefore_of_forall hall, Nat.zero_add]
    exact ⟨rfl, hkeep⟩
  · obtain ⟨b, hb, hbad⟩ : ∃ b < batch, ¬Canonical blobs b := by
      push Not at hall
      exact hall
    have hnone : doneBefore p.maxBatch batch (Canonical blobs) = 0 * p.maxBatch :=
      doneBefore_eq p.maxBatch_pos (fun b hb => absurd hb (by omega))
        ⟨b, by omega, by rw [Nat.zero_mul]; omega, hbad⟩
    obtain ⟨herr, hout, hkeep⟩ := @computeBatch_fails w P K u p s m proofs blobs 0 batch hw hm hu hs
      ⟨b, by omega, by omega, hbad⟩ 0
    rw [hslice] at herr hout hkeep
    rw [returned, herr, hout, if_neg hall, hnone, Nat.zero_mul, written_zero]
    exact ⟨rfl, hkeep⟩

theorem setupKept_runAll (hm : Loaded w P K p m) (hu : ExactIndices u batch) :
    SetupKept m (runAll (computeCommands p s batch) u (computeStart m blobs batch)) := fun b hb => by
  have hstart : TablesHold w P K (computeStart m blobs batch) :=
    hm.tables.keep fun b hb => computeStart_setup hb
  rw [runAll_computeCommands hstart hu, computeCommands_setup hb, computeStart_setup hb]

/-- No flush and no last submission fails. -/
def Undisturbed (flushes : Stage → Submission) (s : Schedule) : Prop :=
  (∀ t, flushes t = .completed) ∧ s.submission = .completed

theorem mem_stages (t : Stage) : t ∈ stages := by
  cases t <;> simp [stages]

theorem profileBatch_none (h : ∃ before t after, stages = before ++ t :: after ∧
      (∀ t' ∈ before, flushes t' = .completed) ∧ flushes t = .rejected) :
    profileBatch u flushes s p m true proofs blobs batch = none := by
  obtain ⟨before, t, after, hstages, hbefore, hrejected⟩ := h
  rw [profileBatch_fails hstages hbefore (by simp [hrejected]), hrejected]

end Profile

/-- The compute path with flushes agrees with a call of the interface: it returns no other bytes and no
other status, but `VKZG_ERR_GPU` where a submission fails. It never returns exactly when a flush is
rejected by a device that is not lost yet. What it leaves serves later calls. -/
theorem profileBatch_result {w : ScalarField} (hw : IsPrimitiveRoot w 8192) {P : ℕ → ℕ → ScalarPoint}
    {K : ZMod circulantSize → ScalarField} {p : Prover} {m : Mem} (hm : Loaded w P K p m) {u : ℕ → ℕ}
    {batch : ℕ} (hu : ExactIndices u batch) (hbatch : batch ≤ p.maxBatch)
    (flushes : Stage → Submission) (s : Schedule) {s' : ℕ → Schedule}
    (hs' : ∀ n, (s' n).submission = .completed) (proofs blobs : Bytes) :
    let r := profileBatch u flushes s p m true proofs blobs batch
    (r = none ↔ ∃ before t after, stages = before ++ t :: after ∧
      (∀ t' ∈ before, flushes t' = .completed) ∧ flushes t = .rejected) ∧
    ∀ r', r = some r' →
      (Undisturbed flushes s →
        returned r' = returned (computeProofsBatch u s' p m true proofs blobs batch)) ∧
      (¬Undisturbed flushes s → returned r' = (.errGpu, proofs)) ∧
      ((∀ t, (flushes t).isLost = false) → s.submission.isLost = false → SetupKept m r'.2.2) := by
  intro r
  rcases exists_first_failure flushes stages with hall | ⟨before, t, after, hstages, hbefore, hfail⟩
  · have hr : r = some _ := profileBatch_completed hall
    refine ⟨⟨fun hnone => absurd (hr.symm.trans hnone) nofun, profileBatch_none⟩, fun r' hr' => ?_⟩
    obtain rfl := Option.some.inj (hr.symm.trans hr')
    cases hs : s.submission with
    | rejected =>
      exact ⟨fun h => absurd (hs.symm.trans h.2) nofun, fun _ => rfl,
        fun _ _ => setupKept_runAll hm hu⟩
    | lost m' =>
      exact ⟨fun h => absurd (hs.symm.trans h.2) nofun, fun _ => rfl, fun _ h => absurd h nofun⟩
    | completed =>
      obtain ⟨hreturned, hkeep⟩ := @computeBatch_single w P K u s p m proofs blobs batch hw hm hbatch
        hu hs s' hs'
      exact ⟨fun _ => hreturned, fun h => absurd ⟨fun t => hall t (mem_stages t), hs⟩ h,
        fun _ _ => hkeep⟩
  · have hr : r = _ := profileBatch_fails hstages hbefore hfail
    cases hsub : flushes t with
    | completed => exact absurd hsub hfail
    | rejected =>
      rw [hsub] at hr
      exact ⟨⟨fun _ => ⟨before, t, after, hstages, hbefore, hsub⟩, fun _ => hr⟩,
        fun r' hr' => absurd (hr.symm.trans hr') nofun⟩
    | lost m' =>
      rw [hsub] at hr
      refine ⟨⟨fun hnone => absurd (hr.symm.trans hnone) nofun, profileBatch_none⟩,
        fun r' hr' => ?_⟩
      obtain rfl := Option.some.inj (hr.symm.trans hr')
      refine ⟨fun h => absurd (h.1 t) hfail, fun _ => rfl, fun h => ?_⟩
      exact absurd (hsub ▸ h t) nofun

/-- The flush after the ladder is rejected, or all flushes complete and every element is too large. -/
theorem profileBatch_result_ladder : ∃ p m, Loaded rootOfUnity (fun _ _ => 0) (fun _ => 0) p m ∧
    let flushes : Stage → Submission
      | .ladder => .rejected
      | _ => .completed
    let call := fun flushes => profileBatch uint32 flushes undisturbed p m true (fun _ => 0)
      (fun _ => 255) 1
    call flushes = none ∧ ∃ r, call (fun _ => .completed) = some r ∧ returned r =
      returned (computeProofsBatch uint32 (fun _ => undisturbed) p m true (fun _ => 0)
        (fun _ => 255) 1) := by
  obtain ⟨p, m, h, -⟩ := exists_loaded rootOfUnity (fun _ _ => 0) (fun _ => 0) none
  have hresult := fun flushes => profileBatch_result isPrimitiveRoot_rootOfUnity h
    (exactIndices_uint32 (show 1 ≤ 7281 by decide)) (show 1 ≤ p.maxBatch from p.maxBatch_pos) flushes
    undisturbed (fun _ => rfl : ∀ n : ℕ, undisturbed.submission = .completed) (fun _ => 0)
    (fun _ => 255)
  refine ⟨p, m, h, ?_, ?_⟩
  · exact (hresult _).1.mpr ⟨[.scalarStage, .phaseA, .reduceA], .ladder, _, rfl, by simp, rfl⟩
  · obtain ⟨hnone, hsome⟩ := hresult fun _ => .completed
    obtain ⟨r, hr⟩ := Option.ne_none_iff_exists'.mp
      fun h => absurd (hnone.mp h).choose_spec.choose_spec.choose_spec.2.2 nofun
    exact ⟨r, hr, (hsome r hr).1 ⟨fun _ => rfl, rfl⟩⟩

end Vkzg
