import Vkzg.Host.Calls

/-! Calls on a device that fails. A submission may be rejected, and the device may be lost for good. No
call returns `VKZG_OK` with other bytes than it returns on a device that works, and a device that is
not lost serves later calls as before. -/

namespace Vkzg
open Radix Gpu Chunks

def Submission.isLost : Submission → Bool
  | .lost _ => true
  | _ => false

/-- The commands of the batch with blob `b` complete. -/
def Completes (s : ℕ → Schedule) (maxBatch b : ℕ) : Prop :=
  (s (b / maxBatch * maxBatch)).submission = .completed

open Classical in
/-- What a call returns when its submissions end as the schedules say: the blobs before the first batch
that fails, and the status of that batch. -/
noncomputable def Call.faulted (w : ScalarField) (P : ℕ → ℕ → ScalarPoint)
    (K : ZMod circulantSize → ScalarField) (maxBatch : ℕ) (s : ℕ → Schedule) : Call → Result × Bytes
  | .computeProofsBatch given proofs blobs n =>
    if given then
      outcomeAt .ok (fun b => if (s b).submission = .completed then .errInvalidBlob else .errGpu)
        proofBytes maxBatch n (fun b => Canonical blobs b ∧ Completes s maxBatch b)
        (proofByte w P K blobs) proofs
    else (.errBadArgs, proofs)
  | .recoverCellsBatch given cellsOut cells cellPresent n =>
    if given then
      outcomeAt .ok (fun b => if ∀ b', b ≤ b' → b' < b + min maxBatch (n - b) →
          EnoughCells cellPresent b' then .errGpu else .errBadArgs)
        cellsBytes maxBatch n (fun b => EnoughCells cellPresent b ∧ Completes s maxBatch b)
        (recoveredByte w cells cellPresent) cellsOut
    else (.errBadArgs, cellsOut)

/-! ### One batch -/

section Batch
variable {u : ℕ → ℕ} {s : Schedule} {p : Prover} {m : Mem} {off batch : ℕ}

theorem run_not_completed (hs : s.submission ≠ .completed) (cmds : List (Shader Unit)) :
    (s.submission.run u cmds m).1 = false ∧
      (s.submission.isLost = false → (s.submission.run u cmds m).2 = m) := by
  cases h : s.submission with
  | rejected => exact ⟨rfl, fun _ => rfl⟩
  | lost m' => exact ⟨rfl, fun hlost => absurd hlost (by simp [Submission.isLost])⟩
  | completed => exact absurd h hs

theorem computeBatch_gpu (hs : s.submission ≠ .completed) (proofs blobs : Bytes) :
    let r := computeBatch u s p m proofs off blobs batch
    r.1 = .errGpu ∧ r.2.1 = proofs ∧ (s.submission.isLost = false → SetupKept m r.2.2) := by
  obtain ⟨hfalse, hmem⟩ := @run_not_completed u s (computeStart m blobs batch) hs
    (computeCommands p s batch)
  rw [computeBatch]
  simp only
  rw [← computeStart]
  generalize s.submission.run u (computeCommands p s batch) (computeStart m blobs batch) = r
    at hfalse hmem
  obtain ⟨completed, m'⟩ := r
  subst hfalse
  exact ⟨rfl, rfl, fun hlost b hb => (congrFun (hmem hlost) b).trans (computeStart_setup hb)⟩

theorem recoverBatch_gpu (hs : s.submission ≠ .completed) (out cells : Bytes) {cellPresent : Bytes}
    (h : ∀ b < batch, (missingCells cellPresent b).length ≤ 64) :
    let r := recoverBatch u s m out off cells cellPresent batch
    r.1 = .errGpu ∧ r.2.1 = out ∧ (s.submission.isLost = false → SetupKept m r.2.2) := by
  obtain ⟨hfalse, hmem⟩ := @run_not_completed u s (recoverStart m cells cellPresent batch) hs
    (recoverCommands batch s.tile (s.tile 12 0))
  rw [recoverBatch, missingList_eq, if_pos h]
  simp only
  rw [← recoverStart]
  generalize s.submission.run u (recoverCommands batch s.tile (s.tile 12 0))
    (recoverStart m cells cellPresent batch) = r at hfalse hmem
  obtain ⟨completed, m'⟩ := r
  subst hfalse
  exact ⟨rfl, rfl, fun hlost b hb => (congrFun (hmem hlost) b).trans (recoverStart_setup hb)⟩

end Batch

/-! ### The batches of a call -/

section Steps
variable {w : ScalarField} {P : ℕ → ℕ → ScalarPoint} {K : ZMod circulantSize → ScalarField}
  {u : ℕ → ℕ} {p : Prover} {s : ℕ → Schedule} {m : Mem} {blobs cells cellPresent : Bytes}
  {numBlobs : ℕ}

/-- No submission of a call loses the device. -/
def NoneLost (s : ℕ → Schedule) : Prop := ∀ n, (s n).submission.isLost = false

open Classical in
/-- Only where a submission completes do the tables matter. -/
theorem steps_computeBatch_faults (hw : IsPrimitiveRoot w 8192)
    (hm : (∃ n, (s n).submission = .completed) → Loaded w P K p m)
    (hu : ExactIndices u (min p.maxBatch numBlobs)) :
    StepsAt .ok p.maxBatch numBlobs proofBytes
      (fun b => Canonical blobs b ∧ Completes s p.maxBatch b) (proofByte w P K blobs) (SetupKept m)
      (fun done r m' =>
        r = (if (s done).submission = .completed then .errInvalidBlob else .errGpu) ∧
          (NoneLost s → SetupKept m m')) (computeStep u s p blobs) := by
  constructor
  · intro done batch out m' hdvd hpos _ hlimit hkeep hgood
    have hs : (s done).submission = .completed := by
      have h := (hgood done le_rfl (by omega)).2
      rwa [Completes, Nat.div_mul_cancel hdvd] at h
    obtain ⟨hok, hout, hkeep'⟩ := @computeBatch_written w P K u p (s done) m' out blobs done batch hw
      ((hm ⟨done, hs⟩).congr hkeep) (hu.mono (by omega)) hs fun b hlo hhi => (hgood b hlo hhi).1
    exact ⟨hok, hout, fun b hb => (hkeep' b hb).trans (hkeep b hb)⟩
  · intro done out m' hdvd hlt hkeep ⟨b, hlo, hhi, hbad⟩
    by_cases hs : (s done).submission = .completed
    · have hnot : ¬Canonical blobs b := fun hb =>
        hbad ⟨hb, by rwa [Completes, chunk_start hdvd hlo (by omega)]⟩
      obtain ⟨herr, hout, hkeep'⟩ := @computeBatch_fails w P K u p (s done) m' out blobs done
        (min p.maxBatch (numBlobs - done)) hw ((hm ⟨done, hs⟩).congr hkeep) (hu.mono (by omega)) hs
        ⟨b, hlo, hhi, hnot⟩ (done * proofBytes)
      refine ⟨?_, hout, herr.trans (if_pos hs).symm, fun _ b hb => (hkeep' b hb).trans (hkeep b hb)⟩
      exact fun hok => absurd (herr.symm.trans hok) (by decide : Result.errInvalidBlob ≠ .ok)
    · obtain ⟨herr, hout, hkeep'⟩ := @computeBatch_gpu u (s done) p m' (done * proofBytes)
        (min p.maxBatch (numBlobs - done)) hs out (slice blobs (done * bytesPerBlob))
      refine ⟨?_, hout, herr.trans (if_neg hs).symm,
        fun hlost b hb => (hkeep' (hlost done) b hb).trans (hkeep b hb)⟩
      exact fun hok => absurd (herr.symm.trans hok) (by decide : Result.errGpu ≠ .ok)

theorem enoughCells_iff {b : ℕ} :
    EnoughCells cellPresent b ↔ (missingCells cellPresent b).length ≤ 64 := by
  have hcount : (presentCells cellPresent b).card + (missingCells cellPresent b).length = 128 :=
    card_presentCells_add
  unfold EnoughCells
  omega

open Classical in
theorem steps_recoverBatch_faults (hw : IsPrimitiveRoot w 8192)
    (hm : (∃ n, (s n).submission = .completed) → RecoverTables w m)
    (hu : ExactIndices u (min p.maxBatch numBlobs)) :
    StepsAt .ok p.maxBatch numBlobs cellsBytes
      (fun b => EnoughCells cellPresent b ∧ Completes s p.maxBatch b)
      (recoveredByte w cells cellPresent) (SetupKept m)
      (fun done r m' => r = (if ∀ b, done ≤ b → b < done + min p.maxBatch (numBlobs - done) →
            EnoughCells cellPresent b then .errGpu else .errBadArgs) ∧
          (NoneLost s → SetupKept m m')) (recoverStep u s cells cellPresent) := by
  constructor
  · intro done batch out m' hdvd hpos _ hlimit hkeep hgood
    have hs : (s done).submission = .completed := by
      have h := (hgood done le_rfl (by omega)).2
      rwa [Completes, Nat.div_mul_cancel hdvd] at h
    obtain ⟨hok, hout, hkeep'⟩ := @recoverBatch_written w u (s done) m' out cells cellPresent done
      batch hw ((hm ⟨done, hs⟩).congr hkeep) ((hu.mono (by omega)).below (by decide)) hs
      fun b hlo hhi => enoughCells_iff.mp (hgood b hlo hhi).1
    exact ⟨hok, hout, fun b hb => (hkeep' b hb).trans (hkeep b hb)⟩
  · intro done out m' hdvd hlt hkeep ⟨b, hlo, hhi, hbad⟩
    have hslice : ∀ i, (missingCells (slice cellPresent (done * presentBytes)) i).length ≤ 64 ↔
        EnoughCells cellPresent (done + i) := fun i => by
      rw [missingCells_slice, enoughCells_iff]
    by_cases henough : ∀ b, done ≤ b → b < done + min p.maxBatch (numBlobs - done) →
        EnoughCells cellPresent b
    · have hs : (s done).submission ≠ .completed := fun hs =>
        hbad ⟨henough b hlo hhi, by rwa [Completes, chunk_start hdvd hlo (by omega)]⟩
      obtain ⟨herr, hout, hkeep'⟩ := @recoverBatch_gpu u (s done) m' (done * cellsBytes)
        (min p.maxBatch (numBlobs - done)) hs out (slice cells (done * cellsBytes))
        (slice cellPresent (done * presentBytes))
        fun i hi => (hslice i).mpr (henough _ (by omega) (by omega))
      refine ⟨?_, hout, herr.trans (if_pos henough).symm,
        fun hlost b hb => (hkeep' (hlost done) b hb).trans (hkeep b hb)⟩
      exact fun hok => absurd (herr.symm.trans hok) (by decide : Result.errGpu ≠ .ok)
    · have hmissing : ¬∀ i < min p.maxBatch (numBlobs - done),
          (missingCells (slice cellPresent (done * presentBytes)) i).length ≤ 64 := fun h =>
        henough fun b hlo hhi => by
          have hb := (hslice (b - done)).mp (h (b - done) (by omega))
          rwa [Nat.add_sub_cancel' hlo] at hb
      rw [recoverStep, recoverBatch_badArgs hmissing]
      refine ⟨(by decide : Result.errBadArgs ≠ .ok), rfl, (if_neg henough).symm, fun _ b hb => ?_⟩
      exact (writeBuf_of_ne (ne_of_isSetup hb rfl) _ _).trans (hkeep b hb)

end Steps

/-! ### Sequences of calls -/

/-- Once a call has lost the device, no submission of a later one completes. -/
def StaysLost (calls : List ((ℕ → Schedule) × Call)) : Prop :=
  calls.Pairwise fun c c' => ¬NoneLost c.1 → ∀ n, (c'.1 n).submission ≠ .completed

section Sequence
variable {w : ScalarField} {P : ℕ → ℕ → ScalarPoint} {K : ZMod circulantSize → ScalarField}
  {u : ℕ → ℕ} {p : Prover} {m : Mem} {s : ℕ → Schedule} {maxBatch : ℕ}

open Classical in
theorem Call.run_faulted (hw : IsPrimitiveRoot w 8192) (c : Call)
    (hm : (∃ n, (s n).submission = .completed) → Loaded w P K p m)
    (hu : ExactIndices u (min p.maxBatch c.numBlobs)) :
    returned (c.run u s p m) = c.faulted w P K p.maxBatch s ∧
      (NoneLost s → SetupKept m (c.run u s p m).2.2) := by
  have hkept : SetupKept m m := fun _ _ => rfl
  cases c with
  | computeProofsBatch given proofs blobs n =>
    cases given with
    | false => exact ⟨rfl, fun _ => hkept⟩
    | true =>
      have hr := @computeProofsBatch_eq_loop u p s m proofs blobs n
      simp only [Call.run, Call.faulted, hr]
      exact loop_outcomeAt p.maxBatch_pos (steps_computeBatch_faults hw hm hu)
        (fun _ h _ => h) proofs hkept
  | recoverCellsBatch given cellsOut cells cellPresent n =>
    cases given with
    | false => exact ⟨rfl, fun _ => hkept⟩
    | true =>
      have hr := @recoverCellsBatch_eq_loop u s p m cellsOut cells cellPresent n
      simp only [Call.run, Call.faulted, hr]
      exact loop_outcomeAt p.maxBatch_pos
        (steps_recoverBatch_faults hw (fun hs => (hm hs).recover) hu) (fun _ h _ => h) cellsOut hkept

open Classical in
/-- A failure never makes a call succeed, nor write bytes of its own. -/
theorem Call.faulted_result (hpos : 0 < maxBatch) (c : Call) :
    let r := c.faulted w P K maxBatch s
    (r.1 = .ok ↔ (c.result w P K maxBatch).1 = .ok ∧ ∀ b < c.numBlobs, Completes s maxBatch b) ∧
      (r.1 = .ok → r = c.result w P K maxBatch) ∧
      ∀ i, r.2 i = (c.result w P K maxBatch).2 i ∨ r.2 i = c.array i := by
  have hargs : Result.errBadArgs ≠ .ok := by decide
  have hblob : Result.errInvalidBlob ≠ .ok := by decide
  cases c with
  | computeProofsBatch given proofs blobs n =>
    cases given with
    | false => exact ⟨⟨fun h => absurd h hargs, fun h => absurd h.1 hargs⟩,
        fun _ => rfl, fun _ => .inl rfl⟩
    | true =>
      simp only [Call.faulted, Call.result, if_true]
      refine @outcomeAt_and _ _ _ _ _ _ (Canonical blobs) _ _ _ _ (Completes s maxBatch) _
        (fun b => ?_) hblob hpos proofs
      split_ifs <;> decide
  | recoverCellsBatch given cellsOut cells cellPresent n =>
    cases given with
    | false => exact ⟨⟨fun h => absurd h hargs, fun h => absurd h.1 hargs⟩,
        fun _ => rfl, fun _ => .inl rfl⟩
    | true =>
      simp only [Call.faulted, Call.result, if_true]
      refine @outcomeAt_and _ _ _ _ _ _ (EnoughCells cellPresent) _ _ _ _ (Completes s maxBatch) _
        (fun b => ?_) hargs hpos cellsOut
      split_ifs <;> decide

/-- By induction on the calls left: while some submission left completes, the prover is loaded. -/
theorem runCalls_faulted (hw : IsPrimitiveRoot w 8192) (calls : List ((ℕ → Schedule) × Call))
    (hm : (∃ c ∈ calls, ∃ n, (c.1 n).submission = .completed) → Loaded w P K p m)
    (hu : ∀ c ∈ calls, ExactIndices u (min p.maxBatch c.2.numBlobs)) (hlost : StaysLost calls) :
    (runCalls u p calls m).1 = calls.map fun c => c.2.faulted w P K p.maxBatch c.1 := by
  induction calls generalizing m with
  | nil => rfl
  | cons c cs ih =>
    obtain ⟨hfirst, hlater⟩ := List.pairwise_cons.mp hlost
    obtain ⟨hresult, hkeep⟩ := Call.run_faulted hw c.2
      (fun ⟨n, hn⟩ => hm ⟨c, List.mem_cons_self, n, hn⟩) (hu c List.mem_cons_self)
    have hrest := @ih (c.2.run u c.1 p m).2.2 (fun ⟨c', hc', n, hn⟩ => ?_)
      (fun c' hc' => hu c' (List.mem_cons_of_mem _ hc')) hlater
    · simp only [runCalls, List.map_cons, hresult, hrest]
    · have hnone : NoneLost c.1 := by
        by_contra hsome
        exact hfirst c' hc' hsome n hn
      exact (hm ⟨c', List.mem_cons_of_mem _ hc', n, hn⟩).congr (hkeep hnone)

end Sequence

/-- On a device whose submissions may fail, and which stays lost once it is lost, each call of a run
returns what its own submissions make of it. It succeeds when it would on a device that works and all
its submissions complete, and then with the same bytes. No call writes other bytes than it would. -/
theorem runCalls_faults {w : ScalarField} (hw : IsPrimitiveRoot w 8192)
    {P : ℕ → ℕ → ScalarPoint} {K : ZMod circulantSize → ScalarField} {tables : PrecomputedTables}
    (htables : Generated w P K tables) {opts : Option UInt32} {cores : ℕ} {granted : Bool}
    {sub : Submission} {m₀ m : Mem} {p : Prover}
    (hcreate : createProver tables opts cores granted sub m₀ = .ok (p, m)) {u : ℕ → ℕ}
    (calls : List ((ℕ → Schedule) × Call))
    (hu : ∀ c ∈ calls, ExactIndices u (min p.maxBatch c.2.numBlobs)) (hlost : StaysLost calls) :
    List.Forall₂ (fun c r => r = c.2.faulted w P K p.maxBatch c.1 ∧
        (r.1 = .ok ↔ (c.2.result w P K p.maxBatch).1 = .ok ∧
          ∀ b < c.2.numBlobs, Completes c.1 p.maxBatch b) ∧
        (r.1 = .ok → r = c.2.result w P K p.maxBatch) ∧
        ∀ i, r.2 i = (c.2.result w P K p.maxBatch).2 i ∨ r.2 i = c.2.array i)
      calls (runCalls u p calls m).1 := by
  rw [runCalls_faulted hw calls (fun _ => htables.loaded hcreate) hu hlost,
    List.forall₂_map_right_iff, List.forall₂_same]
  exact fun c _ => ⟨rfl, Call.faulted_result p.maxBatch_pos c.2⟩

/-- A submission is rejected, the next one completes, and then the device is lost. -/
theorem runCalls_faults_lost : ∃ tables p m,
    createProver tables none 0 true .completed (fun _ _ => 0) = .ok (p, m) ∧
    let call : Call := .computeProofsBatch true (fun _ => 0) (fun _ => 0) 1
    let ending : Submission → ℕ → Schedule := fun sub _ => { undisturbed with submission := sub }
    ((runCalls uint32 p [(ending .rejected, call), (ending .completed, call),
      (ending (.lost fun _ _ => 255), call)] m).1.map fun r => decide (r.1 = .ok)) =
        [false, true, false] := by
  obtain ⟨tables, h⟩ := exists_generated rootOfUnity (fun _ _ => 0) fun _ => 0
  obtain ⟨p, m, hcreate⟩ : ∃ p m,
      createProver tables none 0 true .completed (fun _ _ => 0) = .ok (p, m) := ⟨_, _, rfl⟩
  refine ⟨tables, p, m, hcreate, ?_⟩
  intro call ending
  have hbatch : p.maxBatch ≤ 7281 := by
    rw [maxBatch_createProver hcreate]
    decide
  have hlost : StaysLost [(ending .rejected, call), (ending .completed, call),
      (ending (.lost fun _ _ => 255), call)] := by
    simp [StaysLost, NoneLost, ending, Submission.isLost]
  have hcalls := runCalls_faults isPrimitiveRoot_rootOfUnity h hcreate
    [(ending .rejected, call), (ending .completed, call), (ending (.lost fun _ _ => 255), call)]
    (fun c _ => exactIndices_uint32 ((Nat.min_le_left _ _).trans hbatch)) hlost
  have hresult : (call.result rootOfUnity (fun _ _ => 0) (fun _ => 0) p.maxBatch).1 = .ok :=
    if_pos fun b _ i _ => by
      show bigEndian 32 (fun _ => 0) < _
      decide
  -- The only batch starts at blob `0`, where each schedule has the same submission.
  have hiff : ∀ (sub : Submission) (r : Result),
      (r = .ok ↔ (call.result rootOfUnity (fun _ _ => 0) (fun _ => 0) p.maxBatch).1 = .ok ∧
        ∀ b < call.numBlobs, Completes (ending sub) p.maxBatch b) →
      (r = .ok ↔ sub = .completed) := fun sub r hr =>
    hr.trans ⟨fun h => h.2 0 Nat.one_pos, fun (h : sub = .completed) => ⟨hresult, fun _ _ => h⟩⟩
  generalize (runCalls uint32 p _ m).1 = results at hcalls ⊢
  rcases hcalls with - | ⟨⟨-, hrejected, -⟩, - | ⟨⟨-, hcompleted, -⟩, - | ⟨⟨-, hlast, -⟩, - | -⟩⟩⟩
  simp [hiff _ _ hrejected, hiff _ _ hcompleted, hiff _ _ hlast]

end Vkzg
