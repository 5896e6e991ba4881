import Vkzg.Host.RecoverBatch
import Vkzg.Library.Chunks

/-! `vkzg_recover_cells_batch`: the batches of a call one after the other, and what the call writes
over the cells it was given. -/

namespace Vkzg
open Radix Gpu Gpu.Kernel Polynomial Erasure BitReversal Chunks

abbrev cellsBytes : ℕ := circulantSize * cellBytes
abbrev presentBytes : ℕ := circulantSize

/-- `given` says whether no pointer is null. Each batch has a schedule of its own. -/
def recoverCellsBatch (u : ℕ → ℕ) (s : ℕ → Schedule) (p : Prover) (m : Mem) (given : Bool)
    (cellsOut cells cellPresent : Bytes) (numBlobs : ℕ) : Result × Bytes × Mem :=
  if !given then (.errBadArgs, cellsOut, m)
  else if numBlobs = 0 then (.ok, cellsOut, m)
  else
    loop .ok (fun done batch st => recoverBatch u (s done) st.2 st.1 (done * cellsBytes)
        (slice cells (done * cellsBytes)) (slice cellPresent (done * presentBytes)) batch)
      p.maxBatch p.maxBatch_pos numBlobs 0 (cellsOut, m)

/-! ### One batch of a call -/

noncomputable def recoveredByte (w : ScalarField) (cells cellPresent : Bytes) (b i : ℕ) : UInt8 :=
  bigEndianByte 32 ((recovered w cells cellPresent b).eval (w ^ brev (i / 32) 13)).val (i % 32)

section Batch
variable {w : ScalarField} {u : ℕ → ℕ} {s : Schedule} {m : Mem} {out cells cellPresent : Bytes}
  {done batch : ℕ}

theorem slice_present (b c : ℕ) : slice cellPresent (done * presentBytes) (b * circulantSize + c) =
    cellPresent ((done + b) * circulantSize + c) := by
  rw [slice, Nat.add_mul, Nat.add_assoc]

theorem missingCells_slice (b : ℕ) : missingCells (slice cellPresent (done * presentBytes)) b =
    missingCells cellPresent (done + b) :=
  List.filter_congr fun c _ => by rw [slice_present]

theorem recovered_slice (b : ℕ) : recovered w (slice cells (done * cellsBytes))
    (slice cellPresent (done * presentBytes)) b = recovered w cells cellPresent (done + b) := by
  have helements : presentElements (slice cellPresent (done * presentBytes)) b =
      presentElements cellPresent (done + b) :=
    Finset.filter_congr fun n _ => by rw [slice_present]
  have hvalue : ∀ n, elementValue (slice cells (done * cellsBytes))
      (b * fieldElementsPerExtBlob + n) =
        elementValue cells ((done + b) * fieldElementsPerExtBlob + n) := fun n => by
    refine bigEndian_congr fun k _ => ?_
    simp only [slice, cellsBytes, circulantSize, cellBytes, fieldElementsPerExtBlob]
    congr 1
    ring
  unfold recovered
  simp only [helements, hvalue]

theorem recoveredByte_slice (b i : ℕ) : recoveredByte w (slice cells (done * cellsBytes))
    (slice cellPresent (done * presentBytes)) b i = recoveredByte w cells cellPresent (done + b) i := by
  rw [recoveredByte, recovered_slice, recoveredByte]

theorem frame_recoverCommands {tile : ℕ → ℕ → ℕ → ℕ → Fr} {shared : ℕ → ℕ → Fr} {b : Buf}
    (hb : b.isSetup = true) : runAll (recoverCommands batch tile shared) id m b = m b := by
  have hne : ∀ out : Buf, out.isSetup = false → b ≠ out := fun _ => ne_of_isSetup hb
  simp only [recoverCommands, recoverInputs, recoverToCoset, recoverFromCoset, runAll_append,
    runAll_cons, runAll_nil]
  rw [frame_frToCells (hne _ rfl), frame_recoverNtt (hne _ rfl) (hne _ rfl),
    frame_recoverEwMul (hne _ rfl), frame_recoverEwMul (hne _ rfl),
    frame_recoverNtt (hne _ rfl) (hne _ rfl), frame_recoverEwDiv (hne _ rfl),
    frame_recoverNtt (hne _ rfl) (hne _ rfl), frame_recoverEwMul (hne _ rfl),
    frame_recoverNtt (hne _ rfl) (hne _ rfl), frame_recoverEwMul (hne _ rfl),
    frame_recoverEwMul (hne _ rfl), frame_recoverNtt (hne _ rfl) (hne _ rfl),
    frame_recoverEwMul (hne _ rfl), frame_recoverNtt (hne _ rfl) (hne _ rfl),
    frame_vanishingPoly (hne _ rfl), frame_cellsToFr (hne _ rfl)]

/-- A batch that succeeds sets the cells of its blobs, and keeps the tables. -/
theorem recoverBatch_written (hw : IsPrimitiveRoot w 8192) (hm : RecoverTables w m)
    (hu : ∀ n < batch * 262144, u n = n) (hs : s.submission = .completed)
    (h : ∀ b, done ≤ b → b < done + batch → (missingCells cellPresent b).length ≤ 64) :
    let r := recoverBatch u s m out (done * cellsBytes) (slice cells (done * cellsBytes))
      (slice cellPresent (done * presentBytes)) batch
    r.1 = .ok ∧ r.2.1 = written cellsBytes (recoveredByte w cells cellPresent) done (done + batch)
      out ∧ ∀ b : Buf, b.isSetup = true → r.2.2 b = m b := by
  intro r
  have hmissing : ∀ b < batch,
      (missingCells (slice cellPresent (done * presentBytes)) b).length ≤ 64 := fun b hb => by
    rw [missingCells_slice]
    exact h _ (by omega) (by omega)
  have hok := @recoverBatch_ok u s m out (slice cells (done * cellsBytes))
    (slice cellPresent (done * presentBytes)) (done * cellsBytes) batch hu hs hmissing
  refine ⟨by simp only [r, hok], ?_, fun b hb => ?_⟩
  · funext i
    unfold written
    split_ifs with hi
    · simp only [cellsBytes, circulantSize, cellBytes] at hi ⊢
      -- The byte belongs to element `i % 262144 / 32` of its blob.
      obtain ⟨b, hb⟩ : ∃ b, i / 262144 = done + b := ⟨i / 262144 - done, by omega⟩
      have hbyte := @recoverBatch_byte w u s m out (slice cells (done * cellsBytes))
        (slice cellPresent (done * presentBytes)) (done * cellsBytes) batch hw hm hu hs hmissing
        b (i % 262144 / 2048) (i % 2048 / 32) (i % 32) (by omega)
        (by simp only [circulantSize]; omega) (by simp only [fieldElementsPerCell]; omega)
        (Nat.mod_lt i (by decide))
      have hidx : done * cellsBytes + ((b * circulantSize + i % 262144 / 2048) * cellBytes +
          (i % 2048 / 32 * 32 + i % 32)) = i := by
        simp only [cellsBytes, circulantSize, cellBytes]
        omega
      have helement : 64 * (i % 262144 / 2048) + i % 2048 / 32 = i % 262144 / 32 := by omega
      rw [hidx, recovered_slice, helement] at hbyte
      rw [recoveredByte, hb, show i % 262144 % 32 = i % 32 by omega]
      exact hbyte
    · simp only [r, hok]
      refine memcpy_other ?_
      rw [Nat.add_mul] at hi
      simp only [cellsBytes] at hi ⊢
      rw [Nat.mul_assoc batch]
      omega
  · simp only [r, hok]
    rw [frame_recoverCommands hb, recoverStart_setup hb]

theorem recoverBatch_fails (h : ¬((∀ b < batch, (missingCells cellPresent b).length ≤ 64) ∧
    s.submission = .completed)) {off : ℕ} :
    (recoverBatch u s m out off cells cellPresent batch).1 ≠ .ok ∧
      (recoverBatch u s m out off cells cellPresent batch).2.1 = out := by
  by_cases hmissing : ∀ b < batch, (missingCells cellPresent b).length ≤ 64
  · rw [recoverBatch, missingList_eq, if_pos hmissing]
    cases hs : s.submission with
    | rejected => simp [Submission.run]
    | lost m' => simp [Submission.run]
    | completed => exact absurd ⟨hmissing, hs⟩ h
  · rw [recoverBatch_badArgs hmissing]
    exact ⟨(by decide : Result.errBadArgs ≠ .ok), rfl⟩

end Batch

/-! ### The loop of a call -/

section Call
variable {w : ScalarField} {u : ℕ → ℕ} {s : ℕ → Schedule} {p : Prover} {m : Mem}
  {cellsOut cells cellPresent : Bytes} {numBlobs : ℕ}

/-- Enough cells of a blob are present, and the commands of its batch complete. -/
def Recoverable (s : ℕ → Schedule) (p : Prover) (cellPresent : Bytes) (b : ℕ) : Prop :=
  (missingCells cellPresent b).length ≤ 64 ∧
    (s (b / p.maxBatch * p.maxBatch)).submission = .completed

/-- The buffers set up for a prover are as they were. -/
def SetupKept (m m' : Mem) : Prop := ∀ b : Buf, b.isSetup = true → m' b = m b

theorem steps_recoverBatch (hw : IsPrimitiveRoot w 8192) (hm : RecoverTables w m)
    (hu : ∀ n < min p.maxBatch numBlobs * 262144, u n = n) :
    Steps .ok p.maxBatch numBlobs cellsBytes (Recoverable s p cellPresent)
      (recoveredByte w cells cellPresent) (SetupKept m)
      (fun r m' => (∀ n, (s n).submission = .completed) → r = .errBadArgs ∧ SetupKept m m')
      fun done batch st => recoverBatch u (s done) st.2 st.1 (done * cellsBytes)
        (slice cells (done * cellsBytes)) (slice cellPresent (done * presentBytes)) batch := by
  constructor
  · intro done batch out m' hdvd hpos htotal hlimit hkeep hgood
    have hs : (s done).submission = .completed := by
      have h := (hgood done le_rfl (by omega)).2
      rwa [Nat.div_mul_cancel hdvd] at h
    have hwritten := @recoverBatch_written w u (s done) m' out cells cellPresent done batch hw
      (hm.congr hkeep) (fun n hn => hu n (hn.trans_le (Nat.mul_le_mul_right _ (by omega)))) hs
      fun b hlo hhi => (hgood b hlo hhi).1
    obtain ⟨hok, hout, hkeep'⟩ := hwritten
    exact ⟨hok, hout, fun b hb => (hkeep' b hb).trans (hkeep b hb)⟩
  · intro done batch out m' hdvd hpos htotal hlimit hkeep ⟨b, hlo, hhi, hbad⟩
    obtain ⟨k, rfl⟩ := hdvd
    -- A bad blob makes its batch fail: it lacks cells, or the commands do not complete.
    have hchunk : b / p.maxBatch * p.maxBatch = p.maxBatch * k := by
      rw [Nat.mul_comm]
      congr 1
      exact Nat.div_eq_of_lt_le (by rwa [Nat.mul_comm]) (by rw [Nat.succ_mul, Nat.mul_comm k]; omega)
    have hfail : ¬((∀ b < batch, (missingCells (slice cellPresent (p.maxBatch * k * presentBytes))
        b).length ≤ 64) ∧ (s (p.maxBatch * k)).submission = .completed) := by
      rintro ⟨hmissing, hs⟩
      refine hbad ⟨?_, by rwa [hchunk]⟩
      have h := hmissing (b - p.maxBatch * k) (by omega)
      rwa [missingCells_slice, Nat.add_sub_cancel' hlo] at h
    obtain ⟨hne, hout⟩ := @recoverBatch_fails u _ m' out (slice cells (p.maxBatch * k * cellsBytes))
      _ batch hfail (p.maxBatch * k * cellsBytes)
    refine ⟨hne, hout, fun hall => ?_⟩
    have hmissing : ¬∀ b < batch, (missingCells (slice cellPresent
        (p.maxBatch * k * presentBytes)) b).length ≤ 64 := fun h => hfail ⟨h, hall _⟩
    rw [recoverBatch_badArgs hmissing]
    exact ⟨rfl, fun b hb => (writeBuf_of_ne (ne_of_isSetup hb rfl) _ _).trans (hkeep b hb)⟩

open Classical in
/-- What a call does: it recovers the blobs before the first batch that fails. -/
theorem recoverCellsBatch_items (hw : IsPrimitiveRoot w 8192) (hm : RecoverTables w m)
    (hu : ∀ n < min p.maxBatch numBlobs * 262144, u n = n) :
    let r := recoverCellsBatch u s p m true cellsOut cells cellPresent numBlobs
    r.2.1 = written cellsBytes (recoveredByte w cells cellPresent) 0
        (doneBefore p.maxBatch numBlobs (Recoverable s p cellPresent)) cellsOut ∧
      ((∀ b < numBlobs, Recoverable s p cellPresent b) → r.1 = .ok ∧ SetupKept m r.2.2) ∧
      ((∃ b < numBlobs, ¬Recoverable s p cellPresent b) → r.1 ≠ .ok ∧
        ((∀ n, (s n).submission = .completed) → r.1 = .errBadArgs ∧ SetupKept m r.2.2)) := by
  have hitems := loop_items p.maxBatch_pos
    (@steps_recoverBatch w u s p m cells cellPresent numBlobs hw hm hu) cellsOut
    (show SetupKept m m from fun _ _ => rfl)
  by_cases h0 : numBlobs = 0
  · subst h0
    have hdone : doneBefore p.maxBatch 0 (Recoverable s p cellPresent) = 0 :=
      doneBefore_of_forall fun b hb => absurd hb (Nat.not_lt_zero b)
    refine ⟨?_, fun _ => ⟨rfl, fun _ _ => rfl⟩, fun ⟨b, hb, _⟩ => absurd hb (Nat.not_lt_zero b)⟩
    rw [hdone, written_zero]
    rfl
  · simp only [recoverCellsBatch, Bool.not_true, Bool.false_eq_true, if_false, if_neg h0]
    exact hitems

/-! ### The cells a call was given -/

theorem recoveredByte_present (hw : IsPrimitiveRoot w 8192) {b c i : ℕ}
    (hc : c ∈ presentCells cellPresent b) (hi : i < cellBytes) :
    recoveredByte w cells cellPresent b (c * cellBytes + i) = bigEndianByte 32
      (elementValue cells ((b * circulantSize + c) * fieldElementsPerCell + i / 32) % frModulus)
      (i % 32) := by
  simp only [cellBytes] at hi ⊢
  have he : i / 32 < 64 := by omega
  have hn : (c * 2048 + i) / 32 = 64 * c + i / 32 := by omega
  have hk : (c * 2048 + i) % 32 = i % 32 := by omega
  rw [recoveredByte, hn, hk, eval_recovered_cell hw hc he, ZMod.val_natCast]

/-- The bytes of a present cell, where no batch fails. -/
theorem recoverCellsBatch_present (hw : IsPrimitiveRoot w 8192) (hm : RecoverTables w m)
    (hu : ∀ n < min p.maxBatch numBlobs * 262144, u n = n)
    (hgood : ∀ b < numBlobs, Recoverable s p cellPresent b) :
    let r := recoverCellsBatch u s p m true cellsOut cells cellPresent numBlobs
    r.1 = .ok ∧ ∀ b < numBlobs, ∀ c ∈ presentCells cellPresent b, ∀ i < cellBytes,
      r.2.1 ((b * circulantSize + c) * cellBytes + i) = bigEndianByte 32 (elementValue cells
        ((b * circulantSize + c) * fieldElementsPerCell + i / 32) % frModulus) (i % 32) := by
  classical
  intro r
  obtain ⟨hout, hall, -⟩ : r.2.1 = _ ∧ (_ → r.1 = .ok ∧ _) ∧ (_ → r.1 ≠ .ok ∧ _) :=
    recoverCellsBatch_items hw hm hu
  rw [doneBefore_of_forall hgood] at hout
  refine ⟨(hall hgood).1, fun b hb c hc i hi => ?_⟩
  have hc' := (mem_presentCells.mp hc).1
  simp only [circulantSize, cellBytes] at hc' hi
  have hidx : (b * circulantSize + c) * cellBytes + i = b * cellsBytes + (c * cellBytes + i) := by
    simp only [circulantSize, cellsBytes, cellBytes]
    ring
  have hlt : c * cellBytes + i < cellsBytes := by
    simp only [circulantSize, cellsBytes, cellBytes]
    omega
  rw [hout, hidx, written_hit _ _ hb hlt]
  exact recoveredByte_present hw hc hi

/-- A call that succeeds returns every present cell as it was exactly when all of them are
canonical; else it succeeds with other bytes, as no kernel of recovery checks an element. -/
theorem recoverCellsBatch_keeps_iff (hw : IsPrimitiveRoot w 8192) (hready : Ready p m)
    (hfwd : RootTable m .rootsFwd fun k => w ^ k) (hinv : RootTable m .rootsInv fun k => w⁻¹ ^ k)
    (hu : ∀ n < min p.maxBatch numBlobs * 262144, u n = n) (s : ℕ → Schedule) (given : Bool)
    (cellsOut cells cellPresent : Bytes) :
    let r := recoverCellsBatch u s p m given cellsOut cells cellPresent numBlobs
    (r.1 = .ok → ∀ b < numBlobs, ∀ c ∈ presentCells cellPresent b, ∀ i < cellBytes,
      r.2.1 ((b * circulantSize + c) * cellBytes + i) =
        cells ((b * circulantSize + c) * cellBytes + i)) ↔
    (∀ b < numBlobs, ∀ c ∈ presentCells cellPresent b, ∀ e < 64,
      elementValue cells ((b * circulantSize + c) * fieldElementsPerCell + e) < frModulus) ∨
    given = false ∨ (∃ b < numBlobs, (presentCells cellPresent b).card < 64) ∨
    ∃ k, k * p.maxBatch < numBlobs ∧ (s (k * p.maxBatch)).submission ≠ .completed := by
  intro r
  have hcount : ∀ b, (presentCells cellPresent b).card + (missingCells cellPresent b).length = 128 :=
    fun _ => card_presentCells_add
  cases given with
  | false =>
    have hstatus : r.1 ≠ .ok := (by decide : Result.errBadArgs ≠ .ok)
    exact ⟨fun _ => .inr (.inl rfl), fun _ hok => absurd hok hstatus⟩
  | true =>
    have hm : RecoverTables w m := ⟨hfwd, hinv, hready.shift⟩
    by_cases hgood : ∀ b < numBlobs, Recoverable s p cellPresent b
    · obtain ⟨hok, hbyte⟩ : r.1 = .ok ∧ _ := recoverCellsBatch_present hw hm hu hgood
      constructor
      · intro hsame
        -- The bytes that come back are those of the reductions.
        refine .inl fun b hb c hc e he => reduced_bytes_iff.mp fun k hk => ?_
        have hi : e * 32 + k < cellBytes := block_lt (q := 64) he hk
        have hkept := hsame hok b hb c hc _ hi
        rwa [hbyte b hb c hc _ hi, block_div hk, Nat.mul_add_mod_of_lt hk, cellByte_eq] at hkept
      · rintro (hcanonical | hgiven | ⟨b, hb, hfew⟩ | ⟨k, hk, hfail⟩) - b' hb' c hc i hi
        · have he : i / 32 < 64 := Nat.div_lt_of_lt_mul hi
          have hsrc := cellByte_eq b' c (i / 32) (i % 32)
          rw [Nat.div_add_mod'] at hsrc
          rw [hbyte b' hb' c hc i hi, hsrc]
          exact reduced_bytes_iff.mpr (hcanonical b' hb' c hc _ he) _ (Nat.mod_lt i (by decide))
        -- In each other case some batch is one that cannot be recovered.
        · exact absurd hgiven (by decide)
        · have hmissing := (hgood b hb).1
          have := hcount b
          omega
        · have hs := (hgood _ hk).2
          rw [Nat.mul_div_cancel k p.maxBatch_pos] at hs
          exact absurd hs hfail
    · push Not at hgood
      obtain ⟨b, hb, hnot⟩ := hgood
      have hfail : r.1 ≠ .ok := by
        classical
        exact ((recoverCellsBatch_items hw hm hu).2.2 ⟨b, hb, hnot⟩).1
      refine ⟨fun _ => .inr (.inr ?_), fun _ hok => absurd hok hfail⟩
      by_cases hmissing : (missingCells cellPresent b).length ≤ 64
      · exact .inr ⟨b / p.maxBatch, (Nat.div_mul_le_self b p.maxBatch).trans_lt hb,
          fun hs => hnot ⟨hmissing, hs⟩⟩
      · have := hcount b
        exact .inl ⟨b, hb, by omega⟩

end Call

theorem recoverable_ones (p : Prover) :
    ∀ b < 1, Recoverable (fun _ => undisturbed) p (fun _ => 1) b := by
  intro b _
  refine ⟨?_, rfl⟩
  have hnil : missingCells (fun _ => 1) b = [] := List.filter_eq_nil_iff.mpr fun c _ => by
    simp
  rw [hnil]
  decide

/-- All elements are `2 ^ 256 - 1`, and the first byte that comes back is another one. -/
theorem recoverCellsBatch_changes : ∃ p m,
    Loaded rootOfUnity (fun _ _ => 0) (fun _ => 0) p m ∧
    let r := recoverCellsBatch uint32 (fun _ => undisturbed) p m true (fun _ => 0) (fun _ => 255)
      (fun _ => 1) 1
    ¬(r.1 = .ok → ∀ b < 1, ∀ c ∈ presentCells (fun _ => 1) b, ∀ i < cellBytes,
      r.2.1 ((b * circulantSize + c) * cellBytes + i) = 255) := by
  obtain ⟨p, m, h, -⟩ := exists_loaded rootOfUnity (fun _ _ => 0) (fun _ => 0) none
  refine ⟨p, m, h, ?_⟩
  intro r hclaim
  have hu : ∀ n < min p.maxBatch 1 * 262144, uint32 n = n := fun n hn =>
    uint32_of_lt (hn.trans_le ((Nat.mul_le_mul_right _ (Nat.min_le_right _ 1)).trans (by decide)))
  obtain ⟨hok, hbyte⟩ := @recoverCellsBatch_present rootOfUnity uint32 (fun _ => undisturbed) p m
    (fun _ => 0) (fun _ => 255) (fun _ => 1) 1 isPrimitiveRoot_rootOfUnity
    ⟨h.tables.fwd, h.tables.inv, h.ready.shift⟩ hu (recoverable_ones p)
  have hpresent : 0 ∈ presentCells (fun _ => 1) 0 := mem_presentCells.mpr ⟨by decide, by decide⟩
  have hsame := hclaim hok 0 Nat.one_pos 0 hpresent 0 (by decide)
  have hvalue : ∀ i, elementValue (fun _ => 255) i = 2 ^ 256 - 1 := fun i => by
    show bigEndian 32 (fun _ => 255) = _
    decide
  rw [hbyte 0 Nat.one_pos 0 hpresent 0 (by decide), hvalue] at hsame
  exact absurd hsame (by decide)

theorem recoverCellsBatch_keeps_iff_ones : ∃ p m,
    Loaded rootOfUnity (fun _ _ => 0) (fun _ => 0) p m ∧
    let r := recoverCellsBatch uint32 (fun _ => undisturbed) p m true (fun _ => 0) (fun _ => 1)
      (fun _ => 1) 1
    (r.1 = .ok → ∀ b < 1, ∀ c ∈ presentCells (fun _ => 1) b, ∀ i < cellBytes,
      r.2.1 ((b * circulantSize + c) * cellBytes + i) = 1) := by
  obtain ⟨p, m, h, -⟩ := exists_loaded rootOfUnity (fun _ _ => 0) (fun _ => 0) none
  refine ⟨p, m, h, ?_⟩
  have hu : ∀ n < min p.maxBatch 1 * 262144, uint32 n = n := fun n hn =>
    uint32_of_lt (hn.trans_le ((Nat.mul_le_mul_right _ (Nat.min_le_right _ 1)).trans (by decide)))
  refine (recoverCellsBatch_keeps_iff isPrimitiveRoot_rootOfUnity h.ready h.tables.fwd h.tables.inv hu
    (fun _ => undisturbed) true (fun _ => 0) (fun _ => 1) (fun _ => 1)).mpr (.inl ?_)
  intro b _ c _ e _
  show bigEndian 32 (fun _ => 1) < _
  decide

end Vkzg
