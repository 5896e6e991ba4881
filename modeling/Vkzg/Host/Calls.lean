import Vkzg.Host.ComputeProofs

/-! The two calls of the interface: what they return depends neither on how a prover cuts them into
batches nor on what it was used for before. -/

namespace Vkzg
open Radix Gpu Chunks

/-- The status of a call and the caller's array after it. -/
def returned (r : Result × Bytes × Mem) : Result × Bytes := (r.1, r.2.1)

/-! ### Recovery by blobs -/

/-- Half of the cells of a blob are present. -/
def EnoughCells (cellPresent : Bytes) (b : ℕ) : Prop := 64 ≤ (presentCells cellPresent b).card

def recoverStep (u : ℕ → ℕ) (s : ℕ → Schedule) (cells cellPresent : Bytes) (done batch : ℕ)
    (st : Bytes × Mem) : Result × Bytes × Mem :=
  recoverBatch u (s done) st.2 st.1 (done * cellsBytes) (slice cells (done * cellsBytes))
    (slice cellPresent (done * presentBytes)) batch

section Recover
variable {w : ScalarField} {u : ℕ → ℕ} {s : ℕ → Schedule} {p : Prover} {m : Mem}
  {cellsOut cells cellPresent : Bytes} {numBlobs : ℕ}

theorem recoverCellsBatch_eq_loop :
    recoverCellsBatch u s p m true cellsOut cells cellPresent numBlobs =
      loop .ok (recoverStep u s cells cellPresent) p.maxBatch p.maxBatch_pos numBlobs 0
        (cellsOut, m) := by
  unfold recoverCellsBatch
  rw [if_neg (by decide)]
  split_ifs with h0
  · rw [h0, loop_zero]
  · rfl

theorem presentCells_slice (done b : ℕ) : presentCells (slice cellPresent (done * presentBytes)) b =
    presentCells cellPresent (done + b) :=
  Finset.filter_congr fun c _ => by rw [slice_present]

theorem recoverable_iff (hs : ∀ n, (s n).submission = .completed) {b : ℕ} :
    Recoverable s p cellPresent b ↔ EnoughCells cellPresent b := by
  have hcount : (presentCells cellPresent b).card + (missingCells cellPresent b).length = 128 :=
    card_presentCells_add
  unfold Recoverable EnoughCells
  rw [and_iff_left (hs _)]
  omega

open Classical in
theorem recoverCellsBatch_outcome (hw : IsPrimitiveRoot w 8192) (hm : RecoverTables w m)
    (hu : ExactIndices u (min p.maxBatch numBlobs)) (hs : ∀ n, (s n).submission = .completed) :
    let r := recoverCellsBatch u s p m true cellsOut cells cellPresent numBlobs
    returned r = outcome .ok .errBadArgs cellsBytes p.maxBatch numBlobs (EnoughCells cellPresent)
      (recoveredByte w cells cellPresent) cellsOut ∧ SetupKept m r.2.2 := by
  intro r
  obtain ⟨hout, hall, hbad⟩ : r.2.1 = _ ∧ (_ → r.1 = .ok ∧ _) ∧ (_ → r.1 ≠ .ok ∧ _) :=
    recoverCellsBatch_items hw hm (hu.below (by decide))
  have hgood : ∀ b < numBlobs, Recoverable s p cellPresent b ↔ EnoughCells cellPresent b :=
    fun b _ => recoverable_iff hs
  rw [doneBefore_congr hgood] at hout
  by_cases h : ∀ b < numBlobs, EnoughCells cellPresent b
  · obtain ⟨hok, hkeep⟩ := hall fun b hb => (hgood b hb).mpr (h b hb)
    exact ⟨Prod.ext (hok.trans (if_pos h).symm) hout, hkeep⟩
  · obtain ⟨b, hb, hnot⟩ : ∃ b < numBlobs, ¬EnoughCells cellPresent b := by
      push Not at h
      exact h
    obtain ⟨-, hfail⟩ := hbad ⟨b, hb, fun hb' => hnot ((hgood b hb).mp hb')⟩
    obtain ⟨herr, hkeep⟩ := hfail hs
    exact ⟨Prod.ext (herr.trans (if_neg h).symm) hout, hkeep⟩

end Recover

theorem Loaded.recover {w : ScalarField} {P : ℕ → ℕ → ScalarPoint}
    {K : ZMod circulantSize → ScalarField} {p : Prover} {m : Mem} (h : Loaded w P K p m) :
    RecoverTables w m := ⟨h.tables.fwd, h.tables.inv, h.ready.shift⟩

/-! ### Calls over many blobs -/

section Single
variable {w : ScalarField} {P : ℕ → ℕ → ScalarPoint} {K : ZMod circulantSize → ScalarField}
  {u : ℕ → ℕ} {s : ℕ → Schedule} {p : Prover} {m : Mem}

open Classical in
theorem computeProofs_single (hw : IsPrimitiveRoot w 8192) (hm : Loaded w P K p m)
    (hu : ExactIndices u 1) (hs : ∀ n, (s n).submission = .completed) (proofs blobs : Bytes) (b : ℕ) :
    returned (computeProofsBatch u s p m true proofs (slice blobs (b * bytesPerBlob)) 1) =
      outcome .ok .errInvalidBlob proofBytes p.maxBatch 1 (fun _ => Canonical blobs b)
        (fun _ => proofByte w P K blobs b) proofs := by
  have hout := (@computeProofsBatch_outcome w P K u p s m proofs (slice blobs (b * bytesPerBlob)) 1 hw
    hm (hu.mono (Nat.min_le_right _ 1)) hs).1
  refine Eq.trans hout (outcome_congr p.maxBatch_pos (fun b' hb' => ?_) (fun b' hb' i _ => ?_) _)
  · rw [canonical_slice, Nat.lt_one_iff.mp hb', Nat.add_zero]
  · rw [proofByte_slice, Nat.lt_one_iff.mp hb', Nat.add_zero]

open Classical in
theorem recoverCells_single (hw : IsPrimitiveRoot w 8192) (hm : RecoverTables w m)
    (hu : ExactIndices u 1) (hs : ∀ n, (s n).submission = .completed)
    (cellsOut cells cellPresent : Bytes) (b : ℕ) :
    returned (recoverCellsBatch u s p m true cellsOut (slice cells (b * cellsBytes))
        (slice cellPresent (b * presentBytes)) 1) =
      outcome .ok .errBadArgs cellsBytes p.maxBatch 1 (fun _ => EnoughCells cellPresent b)
        (fun _ => recoveredByte w cells cellPresent b) cellsOut := by
  have hout := (@recoverCellsBatch_outcome w u s p m cellsOut (slice cells (b * cellsBytes))
    (slice cellPresent (b * presentBytes)) 1 hw hm (hu.mono (Nat.min_le_right _ 1)) hs).1
  refine Eq.trans hout (outcome_congr p.maxBatch_pos (fun b' hb' => ?_) (fun b' hb' i _ => ?_) _)
  · unfold EnoughCells
    rw [presentCells_slice, Nat.lt_one_iff.mp hb', Nat.add_zero]
  · rw [recoveredByte_slice, Nat.lt_one_iff.mp hb', Nat.add_zero]

end Single

/-- The result of a call is that of its blobs one by one, each on any prover with the same tables. A
batch that fails leaves the array as the batches before it made it. -/
theorem calls_transparent {w : ScalarField} (hw : IsPrimitiveRoot w 8192)
    {P : ℕ → ℕ → ScalarPoint} {K : ZMod circulantSize → ScalarField} {p : Prover} {m : Mem}
    (hm : Loaded w P K p m) {u : ℕ → ℕ} {numBlobs : ℕ} (hu : ExactIndices u (min p.maxBatch numBlobs))
    {s : ℕ → Schedule} (hs : ∀ n, (s n).submission = .completed)
    {one : ℕ → Prover} {start : ℕ → Mem} (hone : ∀ b, Loaded w P K (one b) (start b))
    {sone : ℕ → ℕ → Schedule} (hsone : ∀ b n, (sone b n).submission = .completed)
    (arrays : ℕ → Bytes) :
    (∀ proofs blobs : Bytes,
      let r := computeProofsBatch u s p m true proofs blobs numBlobs
      r = runUntil .ok (computeStep u s p blobs) (chunks p.maxBatch numBlobs) (proofs, m) ∧
      Transparent .ok .errInvalidBlob proofBytes p.maxBatch numBlobs (Canonical blobs)
        (fun b => returned (computeProofsBatch u (sone b) (one b) (start b) true (arrays b)
          (slice blobs (b * bytesPerBlob)) 1)) proofs (returned r)) ∧
    (∀ cellsOut cells cellPresent : Bytes,
      let r := recoverCellsBatch u s p m true cellsOut cells cellPresent numBlobs
      r = runUntil .ok (recoverStep u s cells cellPresent) (chunks p.maxBatch numBlobs)
        (cellsOut, m) ∧
      Transparent .ok .errBadArgs cellsBytes p.maxBatch numBlobs (EnoughCells cellPresent)
        (fun b => returned (recoverCellsBatch u (sone b) (one b) (start b) true (arrays b)
          (slice cells (b * cellsBytes)) (slice cellPresent (b * presentBytes)) 1)) cellsOut
        (returned r)) ∧
    (chunks p.maxBatch numBlobs).flatMap (fun c => List.range' c.1 c.2) = List.range numBlobs ∧
    ∀ c ∈ chunks p.maxBatch numBlobs, 0 < c.2 ∧ c.2 ≤ p.maxBatch := by
  classical
  have hu₁ : ∀ b < numBlobs, ExactIndices u 1 := fun b hb =>
    hu.mono (Nat.le_min.mpr ⟨p.maxBatch_pos, Nat.one_le_of_lt hb⟩)
  refine ⟨fun proofs blobs => ⟨?_, ?_⟩, fun cellsOut cells cellPresent => ⟨?_, ?_⟩,
    flatMap_chunks p.maxBatch_pos, fun c hc => ?_⟩
  · exact computeProofsBatch_eq_loop.trans (loop_eq_runUntil p.maxBatch_pos _)
  · have hout := (@computeProofsBatch_outcome w P K u p s m proofs blobs numBlobs hw hm hu hs).1
    unfold returned
    rw [hout]
    exact transparent_outcome (by decide) p.maxBatch_pos (fun b hb =>
      computeProofs_single hw (hone b) (hu₁ b hb) (hsone b) (arrays b) blobs b) proofs
  · exact recoverCellsBatch_eq_loop.trans (loop_eq_runUntil p.maxBatch_pos _)
  · have hout := (@recoverCellsBatch_outcome w u s p m cellsOut cells cellPresent numBlobs hw
      hm.recover hu hs).1
    rw [hout]
    exact transparent_outcome (by decide) p.maxBatch_pos (fun b hb => recoverCells_single hw
      (hone b).recover (hu₁ b hb) (hsone b) (arrays b) cells cellPresent b) cellsOut
  · obtain ⟨hpos, hle, -⟩ := chunk_length p.maxBatch_pos hc
    exact ⟨hpos, hle⟩

/-- Three blobs of zeros on a prover for two: their proofs are computed, but no cell of theirs is
present. -/
theorem calls_transparent_zeros : ∃ p m, Loaded rootOfUnity (fun _ _ => 0) (fun _ => 0) p m ∧
    p.maxBatch = 2 ∧
    (computeProofsBatch uint32 (fun _ => undisturbed) p m true (fun _ => 0) (fun _ => 0) 3).1 = .ok ∧
    (recoverCellsBatch uint32 (fun _ => undisturbed) p m true (fun _ => 0) (fun _ => 0) (fun _ => 0)
      3).1 = .errBadArgs := by
  obtain ⟨p, m, h, hbatch⟩ := exists_loaded rootOfUnity (fun _ _ => 0) (fun _ => 0) (some 2)
  have hu : ExactIndices uint32 (min p.maxBatch 3) := by
    rw [hbatch]
    exact exactIndices_uint32 (by decide)
  obtain ⟨hcompute, hrecover, -⟩ := @calls_transparent rootOfUnity isPrimitiveRoot_rootOfUnity _ _ p m
    h uint32 3 hu (fun _ => undisturbed) (fun _ => rfl) (fun _ => p) (fun _ => m) (fun _ => h)
    (fun _ _ => undisturbed) (fun _ _ => rfl) fun _ _ => 0
  refine ⟨p, m, h, hbatch, (hcompute (fun _ => 0) fun _ => 0).2.ok_iff.mpr fun b _ i _ => ?_,
    (hrecover (fun _ => 0) (fun _ => 0) fun _ => 0).2.err_iff.mpr fun hall => ?_⟩
  · show bigEndian 32 (fun _ => 0) < _
    decide
  · have hnone : presentCells (fun _ => 0) 0 = ∅ := Finset.filter_false_of_mem fun _ _ => by simp
    have henough : 64 ≤ (presentCells (fun _ => 0) 0).card := hall 0 (by decide)
    rw [hnone] at henough
    exact absurd henough (by decide)

/-! ### Sequences of calls -/

/-- A call of the interface with its arguments; `given` says whether no pointer is null. -/
inductive Call
  | computeProofsBatch (given : Bool) (proofs blobs : Bytes) (numBlobs : ℕ)
  | recoverCellsBatch (given : Bool) (cellsOut cells cellPresent : Bytes) (numBlobs : ℕ)

def Call.numBlobs : Call → ℕ
  | .computeProofsBatch _ _ _ n => n
  | .recoverCellsBatch _ _ _ _ n => n

def Call.given : Call → Bool
  | .computeProofsBatch given _ _ _ => given
  | .recoverCellsBatch given _ _ _ _ => given

/-- The array that a call writes, as it was before. -/
def Call.array : Call → Bytes
  | .computeProofsBatch _ proofs _ _ => proofs
  | .recoverCellsBatch _ cellsOut _ _ _ => cellsOut

def Call.run (u : ℕ → ℕ) (s : ℕ → Schedule) (p : Prover) (m : Mem) :
    Call → Result × Bytes × Mem
  | .computeProofsBatch given proofs blobs n => Vkzg.computeProofsBatch u s p m given proofs blobs n
  | .recoverCellsBatch given cellsOut cells cellPresent n =>
    Vkzg.recoverCellsBatch u s p m given cellsOut cells cellPresent n

/-- Calls in the order in which the mutex admits them, each with its schedules: what each returns,
and the memory after the last one. -/
def runCalls (u : ℕ → ℕ) (p : Prover) :
    List ((ℕ → Schedule) × Call) → Mem → List (Result × Bytes) × Mem
  | [], m => ([], m)
  | c :: cs, m =>
    let r := c.2.run u c.1 p m
    let rest := runCalls u p cs r.2.2
    (returned r :: rest.1, rest.2)

open Classical in
/-- What a call returns is a function of its arguments, the batch size and the tables. -/
noncomputable def Call.result (w : ScalarField) (P : ℕ → ℕ → ScalarPoint)
    (K : ZMod circulantSize → ScalarField) (maxBatch : ℕ) : Call → Result × Bytes
  | .computeProofsBatch given proofs blobs n =>
    if given then outcome .ok .errInvalidBlob proofBytes maxBatch n (Canonical blobs)
      (proofByte w P K blobs) proofs
    else (.errBadArgs, proofs)
  | .recoverCellsBatch given cellsOut cells cellPresent n =>
    if given then outcome .ok .errBadArgs cellsBytes maxBatch n (EnoughCells cellPresent)
      (recoveredByte w cells cellPresent) cellsOut
    else (.errBadArgs, cellsOut)

section Sequence
variable {w : ScalarField} {P : ℕ → ℕ → ScalarPoint} {K : ZMod circulantSize → ScalarField}
  {u : ℕ → ℕ} {p : Prover} {m : Mem}

theorem Call.run_result (hw : IsPrimitiveRoot w 8192) (hm : Loaded w P K p m) (c : Call)
    (hu : ExactIndices u (min p.maxBatch c.numBlobs)) {s : ℕ → Schedule}
    (hs : ∀ n, (s n).submission = .completed) :
    returned (c.run u s p m) = c.result w P K p.maxBatch ∧ SetupKept m (c.run u s p m).2.2 := by
  cases c with
  | computeProofsBatch given proofs blobs n =>
    cases given with
    | false => exact ⟨rfl, fun _ _ => rfl⟩
    | true => exact computeProofsBatch_outcome hw hm hu hs
  | recoverCellsBatch given cellsOut cells cellPresent n =>
    cases given with
    | false => exact ⟨rfl, fun _ _ => rfl⟩
    | true => exact recoverCellsBatch_outcome hw hm.recover hu hs

/-- A run of calls, by induction on the calls left: the invariant is that the prover stays loaded. -/
theorem runCalls_result (hw : IsPrimitiveRoot w 8192) (hm : Loaded w P K p m)
    (calls : List ((ℕ → Schedule) × Call))
    (hu : ∀ c ∈ calls, ExactIndices u (min p.maxBatch c.2.numBlobs))
    (hs : ∀ c ∈ calls, ∀ n, (c.1 n).submission = .completed) :
    (runCalls u p calls m).1 = calls.map (fun c => c.2.result w P K p.maxBatch) ∧
      SetupKept m (runCalls u p calls m).2 := by
  induction calls generalizing m with
  | nil => exact ⟨rfl, fun _ _ => rfl⟩
  | cons c cs ih =>
    obtain ⟨hresult, hkeep⟩ := Call.run_result hw hm c.2 (hu c List.mem_cons_self)
      (hs c List.mem_cons_self)
    obtain ⟨hrest, hkeep'⟩ := ih (hm.congr hkeep) (fun c hc => hu c (List.mem_cons_of_mem _ hc))
      fun c hc => hs c (List.mem_cons_of_mem _ hc)
    unfold runCalls
    refine ⟨?_, fun b hb => (hkeep' b hb).trans (hkeep b hb)⟩
    rw [List.map_cons, ← hresult, ← hrest]

theorem maxBatch_createProver {tables : PrecomputedTables} {opts : Option UInt32} {cores : ℕ}
    {granted : Bool} {sub : Submission} {m₀ : Mem}
    (h : createProver tables opts cores granted sub m₀ = .ok (p, m)) :
    p.maxBatch = batchOption opts := by
  rw [(createProver_ok h).1]

end Sequence

/-- In any sequence of calls each one returns what it returns on a fresh prover. Whatever the other
buffers hold, a call returns the same, and it leaves alone the buffers set up at creation. -/
theorem runCalls_history_independent {w : ScalarField} (hw : IsPrimitiveRoot w 8192)
    {P : ℕ → ℕ → ScalarPoint} {K : ZMod circulantSize → ScalarField} {tables : PrecomputedTables}
    (htables : Generated w P K tables) {opts : Option UInt32} {cores : ℕ} {granted : Bool}
    {sub : Submission} {m₀ m : Mem} {p : Prover}
    (hcreate : createProver tables opts cores granted sub m₀ = .ok (p, m)) {u : ℕ → ℕ}
    (calls : List ((ℕ → Schedule) × Call))
    (hu : ∀ c ∈ calls, ExactIndices u (min p.maxBatch c.2.numBlobs))
    (hs : ∀ c ∈ calls, ∀ n, (c.1 n).submission = .completed) :
    List.Forall₂ (fun c r => ∀ cores' granted' sub' m₀' p' m',
        createProver tables opts cores' granted' sub' m₀' = .ok (p', m') →
        ∀ s : ℕ → Schedule, (∀ n, (s n).submission = .completed) →
          returned (c.2.run u s p' m') = r) calls (runCalls u p calls m).1 ∧
    SetupKept m (runCalls u p calls m).2 ∧
    ∀ c ∈ calls, ∀ m₁, SetupKept m m₁ → SetupKept m₁ (c.2.run u c.1 p m₁).2.2 ∧
      ∀ m₂, SetupKept m m₂ → returned (c.2.run u c.1 p m₂) = returned (c.2.run u c.1 p m₁) := by
  have hm : Loaded w P K p m := htables.loaded hcreate
  obtain ⟨hresults, hkeep⟩ := runCalls_result hw hm calls hu hs
  refine ⟨?_, hkeep, fun c hc m₁ hm₁ => ?_⟩
  · rw [hresults, List.forall₂_map_right_iff, List.forall₂_same]
    intro c hc cores' granted' sub' m₀' p' m' hcreate' s hs'
    have hbatch : p'.maxBatch = p.maxBatch :=
      (maxBatch_createProver hcreate').trans (maxBatch_createProver hcreate).symm
    -- The result depends on the prover only through the size of its batches.
    rw [← hbatch]
    exact (Call.run_result hw (htables.loaded hcreate') c.2 (by rw [hbatch]; exact hu c hc) hs').1
  · obtain ⟨hfirst, hkeep₁⟩ := Call.run_result hw (hm.congr hm₁) c.2 (hu c hc) (hs c hc)
    refine ⟨hkeep₁, fun m₂ hm₂ => ?_⟩
    rw [hfirst]
    exact (Call.run_result hw (hm.congr hm₂) c.2 (hu c hc) (hs c hc)).1

/-- A blob that is not canonical, and then a recovery as on a fresh prover. -/
theorem runCalls_history_independent_pair : ∃ tables p m,
    createProver tables none 0 true .completed (fun _ _ => 0) = .ok (p, m) ∧
    let bad : Call := .computeProofsBatch true (fun _ => 0) (fun _ => 255) 1
    let good : Call := .recoverCellsBatch true (fun _ => 0) (fun _ => 1) (fun _ => 1) 1
    let s : ℕ → Schedule := fun _ => undisturbed
    (runCalls uint32 p [(s, bad), (s, good)] m).1 =
      [returned (bad.run uint32 s p m), returned (good.run uint32 s p m)] := by
  obtain ⟨tables, h⟩ := exists_generated rootOfUnity (fun _ _ => 0) fun _ => 0
  obtain ⟨p, m, hcreate⟩ : ∃ p m,
      createProver tables none 0 true .completed (fun _ _ => 0) = .ok (p, m) := ⟨_, _, rfl⟩
  refine ⟨tables, p, m, hcreate, ?_⟩
  intro bad good s
  have hbatch : p.maxBatch ≤ 7281 := by
    rw [maxBatch_createProver hcreate]
    decide
  have hs : ∀ c ∈ [(s, bad), (s, good)], ∀ n, (c.1 n).submission = .completed := by
    intro c hc n
    rcases List.mem_cons.mp hc with rfl | hc
    · rfl
    · rw [List.mem_singleton.mp hc]
      rfl
  obtain ⟨hfresh, -⟩ := runCalls_history_independent isPrimitiveRoot_rootOfUnity h hcreate
    [(s, bad), (s, good)]
    (fun c _ => exactIndices_uint32 ((Nat.min_le_left _ _).trans hbatch)) hs
  rcases hfresh with - | ⟨-, - | ⟨hgood, -⟩⟩
  have hsecond := hgood 0 true .completed (fun _ _ => 0) p m hcreate s fun _ => rfl
  exact congrArg (fun r => [returned (bad.run uint32 s p m), r]) hsecond.symm

end Vkzg
