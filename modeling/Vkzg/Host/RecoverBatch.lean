import Vkzg.Host.Recover
import Vkzg.Host.Generated

/-! `recoverBatch`: what it returns, and that the cells it writes are the values of the polynomial
that interpolates the present ones. -/

namespace Vkzg
open Radix Gpu Gpu.Kernel Polynomial Erasure Fourier BitReversal

abbrev bytesPerFieldElement : ℕ := 32
abbrev cellBytes : ℕ := 2048

/-- Recovers the cells of a batch into the array `out` from an offset on. -/
def recoverBatch (u : ℕ → ℕ) (s : Schedule) (m : Mem) (out : Bytes) (off : ℕ)
    (cells cellPresent : Bytes) (batch : ℕ) : Result × Bytes × Mem :=
  let m := writeBuf m .recScratch cells (batch * circulantSize * cellBytes)
  match missingList cellPresent batch with
  | .error e => (e, out, m)
  | .ok missing =>
    let m := writeBuf (uploadMissing m missing batch) .err (fun _ => 0) 4
    match s.submission.run u (recoverCommands batch s.tile (s.tile 12 0)) m with
    | (false, m) => (.errGpu, out, m)
    | (true, m) => (.ok, memcpy out off (m .recOut) (batch * circulantSize * cellBytes), m)

/-! ### The commands of a batch -/

section Commands
variable {w : ScalarField} {u : ℕ → ℕ} {m : Mem} {batch : ℕ} {tile : ℕ → ℕ → ℕ → ℕ → Fr}
  {shared : ℕ → ℕ → Fr} {cells cellPresent : Bytes}

def recoverStart (m : Mem) (cells cellPresent : Bytes) (batch : ℕ) : Mem :=
  writeBuf (uploadMissing (writeBuf m .recScratch cells (batch * circulantSize * cellBytes))
    (missingWords cellPresent batch) batch) .err (fun _ => 0) 4

theorem recoverStart_setup {b : Buf} (hb : b.isSetup = true) :
    recoverStart m cells cellPresent batch b = m b := by
  rw [recoverStart, writeBuf_of_ne (ne_of_isSetup hb rfl), uploadMissing,
    writeBuf_of_ne (ne_of_isSetup hb rfl), writeBuf_of_ne (ne_of_isSetup hb rfl)]

theorem recoverStart_missing : recoverStart m cells cellPresent batch .recMissing =
    uploadMissing (writeBuf m .recScratch cells (batch * circulantSize * cellBytes))
      (missingWords cellPresent batch) batch .recMissing :=
  writeBuf_of_ne (by decide) _ _

theorem recoverStart_cells {b i : ℕ} (hb : b < batch) (hi : i < fieldElementsPerExtBlob) :
    elementValue (recoverStart m cells cellPresent batch .recScratch)
      (b * fieldElementsPerExtBlob + i) = elementValue cells (b * fieldElementsPerExtBlob + i) := by
  refine elementValue_eq_iff.mpr fun k hk => ?_
  rw [recoverStart, writeBuf_of_ne (by decide), uploadMissing, writeBuf_of_ne (by decide)]
  refine writeBuf_byte ?_
  simp only [circulantSize, cellBytes, fieldElementsPerExtBlob] at hi ⊢
  omega

theorem withinAll_recoverCommands {P : Access Buf → Prop} (h : RecoverWords P u batch)
    (hwf : ∀ b < batch, MissingWf m b) :
    WithinAll P u (recoverCommands batch tile shared) m :=
  withinAll_append (withinAll_append (withinAll_recoverInputs h hwf)
    (withinAll_recoverToCoset h _)) (withinAll_recoverFromCoset h _)

end Commands

/-! ### The polynomial of the present cells -/

/-- The present cells of a blob, and the elements they hold. -/
def presentCells (cellPresent : Bytes) (b : ℕ) : Finset ℕ :=
  (Finset.range circulantSize).filter fun c => cellPresent (b * circulantSize + c) ≠ 0

def presentElements (cellPresent : Bytes) (b : ℕ) : Finset ℕ :=
  (Finset.range fieldElementsPerExtBlob).filter fun n =>
    cellPresent (b * circulantSize + n / fieldElementsPerCell) ≠ 0

/-- The polynomial through the present elements. -/
noncomputable def recovered (w : ScalarField) (cells cellPresent : Bytes) (b : ℕ) :
    ScalarField[X] :=
  Lagrange.interpolate (presentElements cellPresent b) (fun n => w ^ brev n 13) fun n =>
    ((elementValue cells (b * fieldElementsPerExtBlob + n) : ℕ) : ScalarField)

section Recovered
variable {w : ScalarField} {cells cellPresent : Bytes} {b n : ℕ}

theorem mem_presentCells {c : ℕ} : c ∈ presentCells cellPresent b ↔
    c < circulantSize ∧ cellPresent (b * circulantSize + c) ≠ 0 := by
  rw [presentCells, Finset.mem_filter, Finset.mem_range]

theorem mem_presentElements : n ∈ presentElements cellPresent b ↔
    n < fieldElementsPerExtBlob ∧
      cellPresent (b * circulantSize + n / fieldElementsPerCell) ≠ 0 := by
  rw [presentElements, Finset.mem_filter, Finset.mem_range]

theorem cell_mem_presentElements {c e : ℕ} (hc : c < circulantSize) (he : e < fieldElementsPerCell)
    (h : cellPresent (b * circulantSize + c) ≠ 0) :
    fieldElementsPerCell * c + e ∈ presentElements cellPresent b := by
  simp only [circulantSize, fieldElementsPerCell] at hc he
  rw [mem_presentElements]
  refine ⟨?_, ?_⟩
  · simp only [fieldElementsPerCell, fieldElementsPerExtBlob]
    omega
  · rwa [Nat.mul_comm fieldElementsPerCell, block_div he]

theorem presentElements_cell (hn : n ∈ presentElements cellPresent b) :
    n / 64 ∈ presentCells cellPresent b ∧ 64 * (n / 64) + n % 64 = n := by
  obtain ⟨hlt, hpresent⟩ := mem_presentElements.mp hn
  exact ⟨mem_presentCells.mpr ⟨Nat.div_lt_of_lt_mul hlt, hpresent⟩, Nat.div_add_mod n 64⟩

theorem cellElement_eq (b c e : ℕ) : (b * circulantSize + c) * fieldElementsPerCell + e =
    b * fieldElementsPerExtBlob + (64 * c + e) := by
  simp only [circulantSize, fieldElementsPerCell, fieldElementsPerExtBlob]
  ring

theorem cellByte_eq (b c e k : ℕ) : (b * circulantSize + c) * cellBytes + (e * 32 + k) =
    ((b * circulantSize + c) * fieldElementsPerCell + e) * 32 + k := by
  simp only [circulantSize, cellBytes, fieldElementsPerCell]
  ring

/-- Reduction keeps the bytes of the canonical elements, and of no others. -/
theorem reduced_bytes_iff : (∀ k < 32, bigEndianByte 32 (elementValue cells n % frModulus) k =
    cells (n * 32 + k)) ↔ elementValue cells n < frModulus := by
  constructor
  · intro h
    have hvalue : elementValue cells n = elementValue cells n % frModulus % 256 ^ 32 := by
      rw [← bigEndian_bigEndianByte]
      exact bigEndian_congr fun k hk => (h k hk).symm
    rw [hvalue]
    exact (Nat.mod_le _ _).trans_lt (Nat.mod_lt _ (by decide))
  · intro h k hk
    rw [Nat.mod_eq_of_lt h, elementValue, bigEndianByte_bigEndian _ hk]

theorem card_presentElements :
    (presentElements cellPresent b).card = 64 * (presentCells cellPresent b).card := by
  rw [presentElements, presentCells, Finset.card_filter, Finset.card_filter,
    show fieldElementsPerExtBlob = circulantSize * 64 by decide, sum_range_mul, Finset.mul_sum]
  refine Finset.sum_congr rfl fun c _ => ?_
  have hcell : ∀ e ∈ Finset.range 64, (if cellPresent (b * circulantSize +
      (c * 64 + e) / fieldElementsPerCell) ≠ 0 then 1 else 0) =
        if cellPresent (b * circulantSize + c) ≠ 0 then 1 else 0 := fun e he => by
    rw [fieldElementsPerCell, block_div (Finset.mem_range.mp he)]
  rw [Finset.sum_congr rfl hcell, Finset.sum_const, Finset.card_range, smul_eq_mul]

theorem card_presentCells_add :
    (presentCells cellPresent b).card + (missingCells cellPresent b).length = 128 := by
  have hmissing : (missingCells cellPresent b).length = ((Finset.range circulantSize).filter fun c =>
      ¬cellPresent (b * circulantSize + c) ≠ 0).card := by
    rw [missingCells, ← List.toFinset_card_of_nodup (List.nodup_range.filter _),
      List.toFinset_filter, List.toFinset_range]
    simp only [decide_eq_true_eq, ne_eq, not_not]
  rw [presentCells, hmissing, Finset.card_filter_add_card_filter_not, Finset.card_range]

theorem points_injOn (hw : IsPrimitiveRoot w 8192) :
    Set.InjOn (fun n => w ^ brev n 13) (presentElements cellPresent b) := by
  intro n hn n' hn' heq
  have hlt : n < 2 ^ 13 := (mem_presentElements.mp hn).1
  have hlt' : n' < 2 ^ 13 := (mem_presentElements.mp hn').1
  have hbrev : ∀ i, brev i 13 < 8192 := fun i => brev_lt (L := 13) (by decide)
  have hexp : brev (brev n 13) 13 = brev (brev n' 13) 13 :=
    congrArg (brev · 13) (hw.pow_inj (hbrev n) (hbrev n') heq)
  rwa [brev_brev (by decide) hlt, brev_brev (by decide) hlt'] at hexp

theorem eval_recovered (hw : IsPrimitiveRoot w 8192) (hn : n ∈ presentElements cellPresent b) :
    (recovered w cells cellPresent b).eval (w ^ brev n 13) =
      ((elementValue cells (b * fieldElementsPerExtBlob + n) : ℕ) : ScalarField) := by
  have heval := Lagrange.eval_interpolate_at_node (fun n =>
    ((elementValue cells (b * fieldElementsPerExtBlob + n) : ℕ) : ScalarField)) (points_injOn hw) hn
  exact heval

theorem degree_recovered (hw : IsPrimitiveRoot w 8192) :
    (recovered w cells cellPresent b).degree < (64 * (presentCells cellPresent b).card : ℕ) := by
  rw [← card_presentElements]
  exact Lagrange.degree_interpolate_lt _ (points_injOn hw)

theorem eq_recovered (hw : IsPrimitiveRoot w 8192) {Q : ScalarField[X]}
    (hQ : Q.degree < (64 * (presentCells cellPresent b).card : ℕ))
    (heval : ∀ n ∈ presentElements cellPresent b, Q.eval (w ^ brev n 13) =
      ((elementValue cells (b * fieldElementsPerExtBlob + n) : ℕ) : ScalarField)) :
    Q = recovered w cells cellPresent b := by
  rw [← card_presentElements] at hQ
  exact Lagrange.eq_interpolate_of_eval_eq _ (points_injOn hw) hQ heval

/-- The polynomial takes the values the present cells hold. -/
theorem eval_recovered_cell (hw : IsPrimitiveRoot w 8192) {c e : ℕ}
    (hc : c ∈ presentCells cellPresent b) (he : e < 64) :
    (recovered w cells cellPresent b).eval (w ^ brev (64 * c + e) 13) = ((elementValue cells
      ((b * circulantSize + c) * fieldElementsPerCell + e) : ℕ) : ScalarField) := by
  obtain ⟨hlt, hpresent⟩ := mem_presentCells.mp hc
  rw [cellElement_eq]
  exact eval_recovered hw (cell_mem_presentElements hlt he hpresent)

theorem eq_recovered_cells (hw : IsPrimitiveRoot w 8192) {Q : ScalarField[X]}
    (hQ : Q.degree < (64 * (presentCells cellPresent b).card : ℕ))
    (heval : ∀ c ∈ presentCells cellPresent b, ∀ e < 64, Q.eval (w ^ brev (64 * c + e) 13) =
      ((elementValue cells ((b * circulantSize + c) * fieldElementsPerCell + e) : ℕ) :
        ScalarField)) :
    Q = recovered w cells cellPresent b := by
  refine eq_recovered hw hQ fun n hn => ?_
  obtain ⟨hcell, hsplit⟩ := presentElements_cell hn
  have hvalue := heval _ hcell _ (Nat.mod_lt n (by decide))
  rwa [cellElement_eq, hsplit] at hvalue

theorem recovered_congr {cells' : Bytes} (h : ∀ c ∈ presentCells cellPresent b, ∀ i < cellBytes,
      cells' ((b * circulantSize + c) * cellBytes + i) =
        cells ((b * circulantSize + c) * cellBytes + i)) :
    recovered w cells' cellPresent b = recovered w cells cellPresent b := by
  unfold recovered
  refine Lagrange.interpolate_eq_of_values_eq_on _ _ fun n hn => ?_
  obtain ⟨hcell, -⟩ := presentElements_cell hn
  have hmod : n % 64 < 64 := Nat.mod_lt n (by decide)
  have hvalue : elementValue cells' (b * fieldElementsPerExtBlob + n) =
      elementValue cells (b * fieldElementsPerExtBlob + n) := by
    refine elementValue_eq_iff.mpr fun k hk => ?_
    have hidx : (b * fieldElementsPerExtBlob + n) * 32 + k =
        (b * circulantSize + n / 64) * cellBytes + (n % 64 * 32 + k) := by
      simp only [circulantSize, cellBytes, fieldElementsPerExtBlob]
      omega
    rw [hidx]
    apply h _ hcell
    simp only [cellBytes]
    omega
  rw [hvalue]

end Recovered

/-! ### What a batch returns -/

section Batch
variable {w : ScalarField} {u : ℕ → ℕ} {s : Schedule} {m : Mem} {out cells cellPresent : Bytes}
  {off batch : ℕ}

theorem recoverBatch_badArgs (h : ¬∀ b < batch, (missingCells cellPresent b).length ≤ 64) :
    recoverBatch u s m out off cells cellPresent batch =
      (.errBadArgs, out, writeBuf m .recScratch cells (batch * circulantSize * cellBytes)) := by
  rw [recoverBatch, missingList_eq, if_neg h]

theorem recoverBatch_ok (hu : ∀ n < batch * 262144, u n = n) (hs : s.submission = .completed)
    (h : ∀ b < batch, (missingCells cellPresent b).length ≤ 64) :
    let m' := runAll (recoverCommands batch s.tile (s.tile 12 0)) id
      (recoverStart m cells cellPresent batch)
    recoverBatch u s m out off cells cellPresent batch =
      (.ok, memcpy out off (m' .recOut) (batch * circulantSize * cellBytes), m') := by
  have hwords : RecoverWords (fun _ => True) u batch := recoverWords_true hu
  have hwf : ∀ b < batch, MissingWf (recoverStart m cells cellPresent batch) b := fun b hb =>
    missingWf_congr recoverStart_missing (missingWf_uploadMissing h hb)
  have hrun : runAll (recoverCommands batch s.tile (s.tile 12 0)) u
      (recoverStart m cells cellPresent batch) = _ := (withinAll_recoverCommands hwords hwf).runAll
  rw [recoverBatch, missingList_eq, if_pos h]
  simp only [hs, Submission.run]
  rw [← recoverStart, hrun]

/-- Each element written is the value of the polynomial of the present cells, at its point. -/
theorem recoverStart_value (hw : IsPrimitiveRoot w 8192) (hm : RecoverTables w m)
    (h : ∀ b < batch, (missingCells cellPresent b).length ≤ 64) {tile : ℕ → ℕ → ℕ → ℕ → Fr}
    {shared : ℕ → ℕ → Fr} {b : ℕ} (hb : b < batch) {i : ℕ} (hi : i < fieldElementsPerExtBlob) :
    elementValue (runAll (recoverCommands batch tile shared) id
        (recoverStart m cells cellPresent batch) .recOut) (b * fieldElementsPerExtBlob + i) =
      ((recovered w cells cellPresent b).eval (w ^ brev i 13)).val := by
  have hwf : ∀ b < batch, MissingWf (recoverStart m cells cellPresent batch) b := fun b hb =>
    missingWf_congr recoverStart_missing (missingWf_uploadMissing h hb)
  have hroots : vanishing 64 (missingRoots (fun k => w ^ k)
      (recoverStart m cells cellPresent batch) b) = missingPoly w cellPresent b := by
    rw [missingRoots_congr recoverStart_missing, missingRoots_uploadMissing h hb, ← missingPoly_eq]
  have hpos : ∀ k, brev k 13 < 8192 := fun k => brev_lt (L := 13) (by decide)
  have hcount : (presentCells cellPresent b).card + (missingCells cellPresent b).length = 128 :=
    card_presentCells_add
  -- The degrees of the two factors add up to the size of the domain.
  have hP : (recovered w cells cellPresent b).degree <
      (64 * (presentCells cellPresent b).card : ℕ) := degree_recovered hw
  have hP' : (recovered w cells cellPresent b).degree < (8192 : ℕ) :=
    hP.trans_le (by exact_mod_cast show 64 * (presentCells cellPresent b).card ≤ 8192 by omega)
  have hPZ : (recovered w cells cellPresent b * missingPoly w cellPresent b).degree < (8192 : ℕ) :=
    calc (recovered w cells cellPresent b * missingPoly w cellPresent b).degree
        = (recovered w cells cellPresent b).degree +
            ((missingCells cellPresent b).length * 64 : ℕ) := by
          rw [degree_mul, missingPoly_eq, degree_vanishing (by decide), List.length_map]
      _ < (64 * (presentCells cellPresent b).card : ℕ) +
            ((missingCells cellPresent b).length * 64 : ℕ) :=
          WithBot.add_lt_add_right (WithBot.natCast_ne_bot _) hP
      _ = (8192 : ℕ) := by
          rw [← Nat.cast_add]
          congr 1
          omega
  have hvalues : ∀ k < 8192, (missingPoly w cellPresent b).eval (w ^ k) = 0 ∨
      cellValues (recoverStart m cells cellPresent batch) b k =
        (recovered w cells cellPresent b).eval (w ^ k) := by
    intro k hk
    have hk' : brev (brev k 13) 13 = k := brev_brev (by decide) hk
    have hn : 64 * (brev k 13 / 64) + brev k 13 % 64 = brev k 13 := Nat.div_add_mod _ _
    have hcell : brev k 13 / 64 < circulantSize := Nat.div_lt_of_lt_mul (hpos k)
    by_cases hpresent : cellPresent (b * circulantSize + brev k 13 / 64) = 0
    · refine .inl ?_
      have hzero := (eval_missingPoly_eq_zero hw hcell
        (Nat.mod_lt (brev k 13) (by decide))).mpr hpresent
      rwa [hn, hk'] at hzero
    · refine .inr ?_
      have heval := @eval_recovered w cells cellPresent b (brev k 13) hw
        (mem_presentElements.mpr ⟨hpos k, hpresent⟩)
      rw [hk'] at heval
      rw [cellValues, recoverStart_cells hb (hpos k), heval]
  rw [(recoverCommands_value hw (hm.congr fun b hb => recoverStart_setup hb) hwf).2 b hb i hi, hroots,
    recover_eq hw (natCast_ne_zero_of_lt (by decide) (by decide)) (fun _ _ _ => rfl)
      (fun _ _ _ => rfl) seven_ne_zero (degree_missingPoly (h b hb)) hP' hPZ
      (fun k _ => eval_missingPoly_coset_ne_zero hw k) (fun _ _ => rfl) hvalues (hpos i)]

theorem missing_le (h : ∀ b < batch, 64 ≤ (presentCells cellPresent b).card) :
    ∀ b < batch, (missingCells cellPresent b).length ≤ 64 := by
  intro b hb
  have hcount : (presentCells cellPresent b).card + (missingCells cellPresent b).length = 128 :=
    card_presentCells_add
  have := h b hb
  omega

theorem recoverBatch_byte (hw : IsPrimitiveRoot w 8192) (hm : RecoverTables w m)
    (hu : ∀ n < batch * 262144, u n = n) (hs : s.submission = .completed)
    (h : ∀ b < batch, (missingCells cellPresent b).length ≤ 64) {b c e k : ℕ} (hb : b < batch)
    (hc : c < circulantSize) (he : e < fieldElementsPerCell) (hk : k < 32) :
    (recoverBatch u s m out off cells cellPresent batch).2.1
        (off + ((b * circulantSize + c) * cellBytes + (e * 32 + k))) =
      bigEndianByte 32 ((recovered w cells cellPresent b).eval (w ^ brev (64 * c + e) 13)).val k := by
  simp only [circulantSize, fieldElementsPerCell] at hc he
  have hi : 64 * c + e < fieldElementsPerExtBlob := by
    simp only [fieldElementsPerExtBlob]
    omega
  have hidx : (b * circulantSize + c) * cellBytes + (e * 32 + k) =
      (b * fieldElementsPerExtBlob + (64 * c + e)) * 32 + k := by rw [cellByte_eq, cellElement_eq]
  have hlt : (b * fieldElementsPerExtBlob + (64 * c + e)) * 32 + k <
      batch * circulantSize * cellBytes := by
    simp only [circulantSize, cellBytes, fieldElementsPerExtBlob] at hi ⊢
    omega
  simp only [recoverBatch_ok hu hs h]
  rw [hidx, memcpy_hit hlt, ← recoverStart_value hw hm h hb hi, elementValue,
    bigEndianByte_bigEndian _ hk]

end Batch

/-- Recovery writes the values of the one polynomial of small degree through the present cells. So
missing cells do not matter, present cells come back, and the evaluations of a blob are completed. -/
theorem recoverBatch_interpolates {w : ScalarField} (hw : IsPrimitiveRoot w 8192) {p : Prover}
    {m : Mem} (hready : Ready p m) (hfwd : RootTable m .rootsFwd fun k => w ^ k)
    (hinv : RootTable m .rootsInv fun k => w⁻¹ ^ k) {u : ℕ → ℕ} {batch : ℕ}
    (hu : ∀ n < batch * 262144, u n = n) {s : Schedule} (hs : s.submission = .completed)
    (out : Bytes) (off : ℕ) (cells cellPresent : Bytes)
    (hcount : ∀ b < batch, 64 ≤ (presentCells cellPresent b).card)
    (hcanonical : ∀ b < batch, ∀ c ∈ presentCells cellPresent b, ∀ e < 64,
      elementValue cells ((b * circulantSize + c) * fieldElementsPerCell + e) < frModulus) :
    let r := recoverBatch u s m out off cells cellPresent batch
    let point := fun c e => w ^ brev (64 * c + e) 13
    let value := fun b c e => ((elementValue cells
      ((b * circulantSize + c) * fieldElementsPerCell + e) : ℕ) : ScalarField)
    let written := fun b c i => r.2.1 (off + ((b * circulantSize + c) * cellBytes + i))
    r.1 = .ok ∧
    (∀ b < batch, ∃ P : ScalarField[X],
      P.degree < (64 * (presentCells cellPresent b).card : ℕ) ∧
      (∀ c ∈ presentCells cellPresent b, ∀ e < 64, P.eval (point c e) = value b c e) ∧
      (∀ Q : ScalarField[X], Q.degree < (64 * (presentCells cellPresent b).card : ℕ) →
        (∀ c ∈ presentCells cellPresent b, ∀ e < 64, Q.eval (point c e) = value b c e) → Q = P) ∧
      (∀ c < circulantSize, ∀ e < 64, ∀ k < 32,
        written b c (e * 32 + k) = bigEndianByte 32 (P.eval (point c e)).val k) ∧
      (∀ c ∈ presentCells cellPresent b, ∀ i < cellBytes,
        written b c i = cells ((b * circulantSize + c) * cellBytes + i)) ∧
      ∀ f : ScalarField[X], f.degree < (4096 : ℕ) →
        (∀ c ∈ presentCells cellPresent b, ∀ e < 64, f.eval (point c e) = value b c e) →
        ∀ c < circulantSize, ∀ e < 64, ∀ k < 32,
          written b c (e * 32 + k) = bigEndianByte 32 (f.eval (point c e)).val k) ∧
    ∀ cells' : Bytes, (∀ b < batch, ∀ c ∈ presentCells cellPresent b, ∀ i < cellBytes,
        cells' ((b * circulantSize + c) * cellBytes + i) =
          cells ((b * circulantSize + c) * cellBytes + i)) →
      ∀ b < batch, ∀ c < circulantSize, ∀ i < cellBytes,
        (recoverBatch u s m out off cells' cellPresent batch).2.1
          (off + ((b * circulantSize + c) * cellBytes + i)) = written b c i := by
  intro r point value written
  have hm : RecoverTables w m := ⟨hfwd, hinv, hready.shift⟩
  have hmissing := missing_le hcount
  have hbyte : ∀ b < batch, ∀ c < circulantSize, ∀ e < 64, ∀ k < 32, written b c (e * 32 + k) =
      bigEndianByte 32 ((recovered w cells cellPresent b).eval (point c e)).val k :=
    fun b hb c hc e he k hk => recoverBatch_byte hw hm hu hs hmissing hb hc he hk
  have heval : ∀ b, ∀ c ∈ presentCells cellPresent b, ∀ e < 64,
      (recovered w cells cellPresent b).eval (point c e) = value b c e :=
    fun b c hc e he => eval_recovered_cell hw hc he
  refine ⟨?_, fun b hb => ⟨recovered w cells cellPresent b, degree_recovered hw, heval b,
    fun Q hdeg hQ => eq_recovered_cells hw hdeg hQ, hbyte b hb, fun c hc i hi => ?_,
    fun f hf hvalues c hc e he k hk => ?_⟩, ?_⟩
  · simp only [r, recoverBatch_ok hu hs hmissing]
  · -- A canonical element is the value of the polynomial, so that its bytes come back.
    have hi' : i / 32 * 32 + i % 32 = i := Nat.div_add_mod' i 32
    have he : i / 32 < 64 := Nat.div_lt_of_lt_mul hi
    have hk : i % 32 < 32 := Nat.mod_lt i (by decide)
    have hout := hbyte b hb c (mem_presentCells.mp hc).1 (i / 32) he (i % 32) hk
    rw [heval b c hc _ he, ZMod.val_natCast,
      reduced_bytes_iff.mpr (hcanonical b hb c hc _ he) _ hk, ← cellByte_eq, hi'] at hout
    exact hout
  · -- With 64 cells present a polynomial of a blob has few enough coefficients to be the one.
    have hdeg : f.degree < (64 * (presentCells cellPresent b).card : ℕ) :=
      hf.trans_le (by exact_mod_cast Nat.mul_le_mul_left 64 (hcount b hb))
    rw [eq_recovered_cells hw hdeg hvalues]
    exact hbyte b hb c hc e he k hk
  · intro cells' hcells b hb c hc i hi
    have hi' : i / 32 * 32 + i % 32 = i := Nat.div_add_mod' i 32
    have he : i / 32 < 64 := Nat.div_lt_of_lt_mul hi
    have hk : i % 32 < 32 := Nat.mod_lt i (by decide)
    rw [← hi', hbyte b hb c hc _ he _ hk, ← recovered_congr (hcells b hb)]
    exact recoverBatch_byte hw hm hu hs hmissing hb hc he hk

/-- Half of the cells are present and hold ones; the bytes of the others do not matter. -/
theorem recoverBatch_interpolates_half : ∃ p m, Ready p m ∧
    let cellPresent : Bytes := fun i => if i < 64 then 0 else 1
    let cells : Bytes := fun i => if i < 131072 then 255 else 1
    let r := recoverBatch id undisturbed m cells 0 cells cellPresent 1
    r.1 = .ok ∧ ∀ c < 128, ∀ i < 2048, r.2.1 (0 + ((0 * 128 + c) * 2048 + i)) =
      (recoverBatch id undisturbed m cells 0 (fun _ => 1) cellPresent 1).2.1
        (0 + ((0 * 128 + c) * 2048 + i)) := by
  obtain ⟨p, m, h, -⟩ := exists_loaded rootOfUnity (fun _ _ => 0) (fun _ => 0) none
  refine ⟨p, m, h.ready, ?_⟩
  intro cellPresent cells r
  have hpresent : ∀ c, c ∈ presentCells cellPresent 0 ↔ 64 ≤ c ∧ c < 128 := fun c => by
    simp only [presentCells, Finset.mem_filter, Finset.mem_range, cellPresent, Nat.zero_mul,
      Nat.zero_add, circulantSize]
    split_ifs <;> simp <;> omega
  have hcard : (presentCells cellPresent 0).card = 64 := by
    rw [show presentCells cellPresent 0 = Finset.Ico 64 128 from
      Finset.ext fun c => by rw [hpresent, Finset.mem_Ico], Nat.card_Ico]
  have hbyte : ∀ c ∈ presentCells cellPresent 0, ∀ i, cells ((0 * 128 + c) * 2048 + i) = 1 :=
    fun c hc i => by
      have := (hpresent c).mp hc
      simp only [cells]
      rw [if_neg (by omega)]
  have hvalue : ∀ c ∈ presentCells cellPresent 0, ∀ e < 64,
      elementValue cells ((0 * circulantSize + c) * fieldElementsPerCell + e) < frModulus := by
    intro c hc e _
    have hone : elementValue cells ((0 * circulantSize + c) * fieldElementsPerCell + e) =
        bigEndian 32 fun _ => 1 := bigEndian_congr fun k _ => by
      rw [show ((0 * circulantSize + c) * fieldElementsPerCell + e) * 32 + k =
        (0 * 128 + c) * 2048 + (e * 32 + k) by
          simp only [circulantSize, fieldElementsPerCell]; ring, hbyte c hc]
    rw [hone]
    decide
  have hmain := @recoverBatch_interpolates _ isPrimitiveRoot_rootOfUnity p m h.ready h.tables.fwd
    h.tables.inv id 1 (fun _ _ => rfl) undisturbed rfl cells 0 cells cellPresent
    (fun b hb => by rw [Nat.lt_one_iff.mp hb, hcard])
    (fun b hb => by rw [Nat.lt_one_iff.mp hb]; exact hvalue)
  refine ⟨hmain.1, fun c hc i hi => ?_⟩
  refine (hmain.2.2 (fun _ => 1) (fun b hb c hc i _ => ?_) 0 Nat.one_pos c hc i hi).symm
  rw [Nat.lt_one_iff.mp hb] at hc ⊢
  exact (hbyte c hc i).symm

end Vkzg
