import Vkzg.Host.Verification

/-! The Java binding: one prover behind synchronized methods, and native memory that a wrong call
would break. -/

namespace Vkzg.Java
open Polynomial Radix BitReversal

/-- A Java `long`. -/
abbrev Long := BitVec 64

/-- A Java array of bytes. -/
structure Array where
  bytes : List UInt8
  length_lt : bytes.length < 2 ^ 31

def Array.length (a : Array) : ℕ := a.bytes.length

/-- The segment an array is copied to. -/
def Array.segment (a : Array) : Bytes := fun i => a.bytes.getD i 0

def bytesPerCell : ℕ := fieldElementsPerCell * bytesPerFieldElement

inductive Request
  | init (maxBatchSize : Long)
  | deinit
  | computeCellKzgProofsBatch (blobs : Array) (blobCount : Long)
  | recoverCellsBatch (cells cellPresent : Array) (blobCount : Long)
  | deviceName
  | gpuCoreCount

inductive Response
  | done
  | bytes (a : List UInt8)
  | name (s : String)
  | count (n : ℕ)
  | illegalState
  | illegalArgument
  | vkzgException (rc : Result)
  | assertionError

/-- What a request depends on besides its arguments: how the native library gets to a device with its
tables, what the device does, and which sizes an arena has room for. -/
structure Env where
  opens : Result
  tables : PrecomputedTables
  deviceName : String
  cores : ℕ
  granted : Bool
  sub : Submission
  memory : Mem
  schedule : ℕ → Schedule
  allocates : ℕ → Bool

/-- A prover of the native library with the name of its device and the contents of its buffers. -/
structure Opened where
  deviceName : String
  prover : Prover
  mem : Mem

/-- The provers of the native library by address, an address above all of them, and the static field
of the class. -/
structure State where
  heap : ℕ → Option Opened
  fresh : ℕ
  proverHandle : Option ℕ

def unloaded : State := ⟨fun _ => none, 0, none⟩

/-! ### Requests -/

/-- What `init` writes to the options: `(int) maxBatchSize`, if it is not zero. -/
def options (maxBatchSize : Long) : Option UInt32 :=
  some (if maxBatchSize ≠ 0 then UInt32.ofBitVec (maxBatchSize.truncate 32) else 0)

/-- The address of the new prover, or `none` for a null pointer. -/
def proverNew (e : Env) (opts : Option UInt32) (st : State) : Result × Option ℕ × State :=
  if e.opens ≠ .ok then (e.opens, none, st)
  else match createProver e.tables opts e.cores e.granted e.sub e.memory with
    | .ok pm => (.ok, some st.fresh, { st with
        heap := Function.update st.heap st.fresh (some ⟨e.deviceName, pm.1, pm.2⟩)
        fresh := st.fresh + 1 })
    | .error rc => (rc, none, st)

def init (e : Env) (maxBatchSize : Long) (st : State) : Response × State :=
  if st.proverHandle.isSome then (.illegalState, st)
  else if !e.allocates 4 || !e.allocates 8 then (.assertionError, st)
  else
    let r := proverNew e (options maxBatchSize) st
    if r.1 ≠ .ok then (.vkzgException r.1, r.2.2)
    else (.done, { r.2.2 with proverHandle := r.2.1 })

/-- There is no next state after a free of what is not there. -/
def deinit (st : State) : Option (Response × State) :=
  match st.proverHandle with
  | none => some (.illegalState, st)
  | some h =>
    match st.heap h with
    | none => none
    | some _ => some (.done, { st with heap := Function.update st.heap h none, proverHandle := none })

/-- A native call on the prover at `h` for `n` blobs, each with its part in every segment. There is no
next state where the call breaks the contract of the header: without a prover, or with a segment too
short for the `n` parts the header declares. -/
def native (st : State) (h n : ℕ) (segments : List (ℕ × ℕ))
    (call : Prover → Mem → Result × Bytes × Mem) (length : ℤ) : Option (Response × State) :=
  match st.heap h with
  | none => none
  | some o =>
    if ∃ s ∈ segments, s.1 < n * s.2 then none
    else
      let r := call o.prover o.mem
      let st' := { st with heap := Function.update st.heap h (some { o with mem := r.2.2 }) }
      if r.1 ≠ .ok then some (.vkzgException r.1, st')
      else if length < 0 then some (.assertionError, st')
      else some (.bytes ((List.range length.toNat).map r.2.1), st')

def computeCellKzgProofsBatch (u : ℕ → ℕ) (e : Env) (blobs : Array) (blobCount : Long)
    (st : State) : Option (Response × State) :=
  match st.proverHandle with
  | none => some (.illegalState, st)
  | some h =>
    if BitVec.ofNat 64 blobs.length ≠ blobCount * BitVec.ofNat 64 bytesPerBlob then
      some (.illegalArgument, st)
    else
      let proofsLen := blobCount * BitVec.ofNat 64 circulantSize * BitVec.ofNat 64 bytesPerProof
      if !e.allocates blobs.length || proofsLen.toInt < 0 || !e.allocates proofsLen.toNat then
        some (.assertionError, st)
      else native st h blobCount.toNat
        [(blobs.length, bytesPerBlob), (proofsLen.toNat, proofBytes)]
        (fun p m => computeProofsBatch u e.schedule p m true (fun _ => 0) blobs.segment
          blobCount.toNat)
        (proofsLen.truncate 32).toInt

def recoverCellsBatch (u : ℕ → ℕ) (e : Env) (cells cellPresent : Array) (blobCount : Long)
    (st : State) : Option (Response × State) :=
  match st.proverHandle with
  | none => some (.illegalState, st)
  | some h =>
    let cellsPerBlobBytes := BitVec.ofNat 64 circulantSize * BitVec.ofNat 64 bytesPerCell
    if BitVec.ofNat 64 cells.length ≠ blobCount * cellsPerBlobBytes then some (.illegalArgument, st)
    else if BitVec.ofNat 64 cellPresent.length ≠ blobCount * BitVec.ofNat 64 circulantSize then
      some (.illegalArgument, st)
    else if !e.allocates cells.length || !e.allocates cellPresent.length then
      some (.assertionError, st)
    else native st h blobCount.toNat
      [(cells.length, cellsBytes), (cells.length, cellsBytes), (cellPresent.length, presentBytes)]
      (fun p m => Vkzg.recoverCellsBatch u e.schedule p m true (fun _ => 0) cells.segment
        cellPresent.segment blobCount.toNat)
      cells.length

/-- What is read off the prover that is open. -/
def readProver (response : Opened → Response) (st : State) : Option (Response × State) :=
  match st.proverHandle with
  | none => some (.illegalState, st)
  | some h => (st.heap h).map fun o => (response o, st)

def deviceName : State → Option (Response × State) := readProver fun o => .name o.deviceName

def gpuCoreCount : State → Option (Response × State) :=
  readProver fun o => .count o.prover.gpuTotalCores

def step (u : ℕ → ℕ) (e : Env) (st : State) : Request → Option (Response × State)
  | .init n => some (init e n st)
  | .deinit => deinit st
  | .computeCellKzgProofsBatch blobs n => computeCellKzgProofsBatch u e blobs n st
  | .recoverCellsBatch cells cellPresent n => recoverCellsBatch u e cells cellPresent n st
  | .deviceName => deviceName st
  | .gpuCoreCount => gpuCoreCount st

/-- Requests in the order in which the lock of the class admits them. -/
def run (u : ℕ → ℕ) : List (Env × Request) → State → Option (List Response × State)
  | [], st => some ([], st)
  | r :: rs, st =>
    (step u r.1 st r.2).bind fun s => (run u rs s.2).map fun t => (s.1 :: t.1, t.2)

/-! ### What is undefined -/

/-- A count for which the product with the size of a blob wraps around to the length of the array. -/
def Overlong (e : Env) : Request → Prop
  | .computeCellKzgProofsBatch blobs n => 2 ^ 47 ≤ n.toNat ∧
      blobs.length = n.toNat % 2 ^ 47 * bytesPerBlob ∧
      n.toNat * proofBytes % 2 ^ 64 < 2 ^ 63 ∧
      e.allocates blobs.length = true ∧ e.allocates (n.toNat * proofBytes % 2 ^ 64) = true
  | .recoverCellsBatch cells cellPresent n => 2 ^ 57 ≤ n.toNat ∧
      cells.length = n.toNat % 2 ^ 57 * cellsBytes ∧
      cellPresent.length = n.toNat % 2 ^ 57 * presentBytes ∧
      e.allocates cells.length = true ∧ e.allocates cellPresent.length = true
  | _ => False

/-- The static field holds the address of a prover, if any. -/
def Live (st : State) : Prop := ∀ h, st.proverHandle = some h → (st.heap h).isSome

section Undefined
variable {u : ℕ → ℕ} {e : Env} {st st' : State} {blobs cells cellPresent : Array} {n : Long}
  {r : Response}

theorem blobs_guard : BitVec.ofNat 64 blobs.length = n * BitVec.ofNat 64 bytesPerBlob ↔
    blobs.length = n.toNat * bytesPerBlob % 2 ^ 64 := by
  have hlt : blobs.length < 2 ^ 31 := blobs.length_lt
  rw [← BitVec.toNat_inj, BitVec.toNat_mul, BitVec.toNat_ofNat, BitVec.toNat_ofNat]
  simp only [bytesPerBlob]
  omega

theorem proofsLen_toNat :
    (n * BitVec.ofNat 64 circulantSize * BitVec.ofNat 64 bytesPerProof).toNat =
      n.toNat * proofBytes % 2 ^ 64 := by
  rw [BitVec.toNat_mul, BitVec.toNat_mul, BitVec.toNat_ofNat, BitVec.toNat_ofNat]
  simp only [circulantSize, bytesPerProof, proofBytes]
  omega

theorem blobs_wraps {len n : ℕ} (hlen : len < 2 ^ 31) :
    len = n * bytesPerBlob % 2 ^ 64 ↔ len = n % 2 ^ 47 * bytesPerBlob := by
  simp only [bytesPerBlob]
  omega

theorem cells_guard : BitVec.ofNat 64 cells.length = n * (BitVec.ofNat 64 circulantSize *
      BitVec.ofNat 64 bytesPerCell) ↔ cells.length = n.toNat * cellsBytes % 2 ^ 64 := by
  have hlt : cells.length < 2 ^ 31 := cells.length_lt
  rw [← BitVec.toNat_inj, BitVec.toNat_mul, BitVec.toNat_mul, BitVec.toNat_ofNat, BitVec.toNat_ofNat,
    BitVec.toNat_ofNat]
  simp only [circulantSize, bytesPerCell, fieldElementsPerCell, bytesPerFieldElement, cellsBytes,
    cellBytes, Nat.reducePow, Nat.reduceMul, Nat.reduceMod]
  omega

theorem present_guard : BitVec.ofNat 64 cellPresent.length = n * BitVec.ofNat 64 circulantSize ↔
    cellPresent.length = n.toNat * presentBytes % 2 ^ 64 := by
  have hlt : cellPresent.length < 2 ^ 31 := cellPresent.length_lt
  rw [← BitVec.toNat_inj, BitVec.toNat_mul, BitVec.toNat_ofNat, BitVec.toNat_ofNat]
  simp only [circulantSize, presentBytes]
  omega

theorem cells_wraps {len len' n : ℕ} (hlen : len < 2 ^ 31) (hlen' : len' < 2 ^ 31) :
    len = n * cellsBytes % 2 ^ 64 ∧ len' = n * presentBytes % 2 ^ 64 ↔
      len = n % 2 ^ 57 * cellsBytes ∧ len' = n % 2 ^ 57 * presentBytes := by
  simp only [cellsBytes, circulantSize, cellBytes, presentBytes]
  omega

theorem native_eq_none {h k : ℕ} {segments : List (ℕ × ℕ)} {call : Prover → Mem → Result × Bytes × Mem}
    {length : ℤ} (hlive : (st.heap h).isSome) :
    native st h k segments call length = none ↔ ∃ s ∈ segments, s.1 < k * s.2 := by
  obtain ⟨o, hheap⟩ := Option.isSome_iff_exists.mp hlive
  unfold native
  rw [hheap]
  simp only
  split_ifs with hshort <;> simp [hshort]

theorem native_live {h k : ℕ} {segments : List (ℕ × ℕ)} {call : Prover → Mem → Result × Bytes × Mem}
    {length : ℤ} (hlive : Live st) (hrun : native st h k segments call length = some (r, st')) :
    Live st' := by
  unfold native at hrun
  have hupdate : ∀ o, Live { st with heap := Function.update st.heap h (some o) } :=
    fun o k hk => by
      rcases eq_or_ne k h with rfl | hne
      · simp
      · simpa [Function.update_of_ne hne] using hlive k hk
  cases hheap : st.heap h with
  | none => simp [hheap] at hrun
  | some o =>
    simp only [hheap] at hrun
    split_ifs at hrun <;> cases hrun <;> exact hupdate _

theorem readProver_eq_none {response : Opened → Response} (hlive : Live st) :
    readProver response st ≠ none := by
  unfold readProver
  cases hhandle : st.proverHandle with
  | none => simp
  | some h =>
    obtain ⟨o, hheap⟩ := Option.isSome_iff_exists.mp (hlive h hhandle)
    simp [hheap]

theorem readProver_state {response : Opened → Response} (hrun : readProver response st = some (r, st')) :
    st' = st := by
  unfold readProver at hrun
  split at hrun
  · cases hrun
    rfl
  · obtain ⟨o, -, heq⟩ := Option.map_eq_some_iff.mp hrun
    cases heq
    rfl

theorem toInt_neg_iff {k : Long} : k.toInt < 0 ↔ 2 ^ 63 ≤ k.toNat := by
  rw [BitVec.toInt_eq_toNat_cond]
  split_ifs <;> omega

theorem compute_eq_none (hlive : Live st) : computeCellKzgProofsBatch u e blobs n st = none ↔
    st.proverHandle.isSome ∧ Overlong e (.computeCellKzgProofsBatch blobs n) := by
  unfold computeCellKzgProofsBatch
  cases hhandle : st.proverHandle with
  | none => simp
  | some h =>
    simp only [Option.isSome_some, true_and, Overlong]
    have hwraps := @blobs_wraps blobs.length n.toNat blobs.length_lt
    by_cases hguard : BitVec.ofNat 64 blobs.length = n * BitVec.ofNat 64 bytesPerBlob
    · rw [if_neg (not_not_intro hguard)]
      have hlen := hwraps.mp (blobs_guard.mp hguard)
      rw [proofsLen_toNat]
      split_ifs with hfail
      · simp only [false_iff]
        rintro ⟨-, -, hsign, halloc, halloc'⟩
        rw [halloc, halloc', decide_eq_false (mt toInt_neg_iff.mp (by rw [proofsLen_toNat]; omega))]
          at hfail
        exact absurd hfail (by decide)
      · simp only [Bool.or_eq_true, Bool.not_eq_true', decide_eq_true_eq, not_or,
          Bool.not_eq_false, toInt_neg_iff, proofsLen_toNat, not_le] at hfail
        obtain ⟨⟨halloc, hsign⟩, halloc'⟩ := hfail
        rw [native_eq_none (hlive h hhandle)]
        simp only [List.mem_cons, List.not_mem_nil, or_false, exists_eq_or_imp, exists_eq_left]
        refine ⟨fun hshort => ⟨?_, hlen, hsign, halloc, halloc'⟩, fun hlong => .inl ?_⟩
        · by_contra hle
          have hlt : blobs.length < 2 ^ 31 := blobs.length_lt
          rw [Nat.mod_eq_of_lt (not_le.mp hle)] at hlen
          simp only [bytesPerBlob, proofBytes, circulantSize, bytesPerProof] at hlen hshort
          omega
        · rw [hlen]
          exact Nat.mul_lt_mul_of_pos_right ((Nat.mod_lt _ (by decide)).trans_le hlong.1) (by decide)
    · rw [if_pos hguard]
      simp only [reduceCtorEq, false_iff]
      exact fun hlong => hguard (blobs_guard.mpr (hwraps.mpr hlong.2.1))

theorem recover_eq_none (hlive : Live st) : recoverCellsBatch u e cells cellPresent n st = none ↔
    st.proverHandle.isSome ∧ Overlong e (.recoverCellsBatch cells cellPresent n) := by
  unfold recoverCellsBatch
  cases hhandle : st.proverHandle with
  | none => simp
  | some h =>
    simp only [Option.isSome_some, true_and, Overlong]
    have hwraps := @cells_wraps cells.length cellPresent.length n.toNat cells.length_lt
      cellPresent.length_lt
    by_cases hcells : BitVec.ofNat 64 cells.length = n * (BitVec.ofNat 64 circulantSize *
        BitVec.ofNat 64 bytesPerCell)
    · rw [if_neg (not_not_intro hcells)]
      rw [cells_guard] at hcells
      by_cases hpresent : BitVec.ofNat 64 cellPresent.length = n * BitVec.ofNat 64 circulantSize
      · rw [if_neg (not_not_intro hpresent)]
        rw [present_guard] at hpresent
        obtain ⟨hlen, hlen'⟩ := hwraps.mp ⟨hcells, hpresent⟩
        split_ifs with hfail
        · simp only [false_iff]
          rintro ⟨-, -, -, halloc, halloc'⟩
          simp [halloc, halloc'] at hfail
        · simp only [Bool.or_eq_true, Bool.not_eq_true', not_or, Bool.not_eq_false] at hfail
          rw [native_eq_none (hlive h hhandle)]
          simp only [List.mem_cons, List.not_mem_nil, or_false, exists_eq_or_imp, exists_eq_left]
          refine ⟨fun hshort => ⟨?_, hlen, hlen', hfail⟩, fun hlong => .inl ?_⟩
          · by_contra hle
            rw [Nat.mod_eq_of_lt (not_le.mp hle)] at hlen hlen'
            omega
          · rw [hlen]
            exact Nat.mul_lt_mul_of_pos_right ((Nat.mod_lt _ (by decide)).trans_le hlong.1) (by decide)
      · rw [if_pos hpresent]
        rw [present_guard] at hpresent
        simp only [reduceCtorEq, false_iff]
        exact fun h => hpresent (hwraps.mpr ⟨h.2.1, h.2.2.1⟩).2
    · rw [if_pos hcells]
      rw [cells_guard] at hcells
      simp only [reduceCtorEq, false_iff]
      exact fun h => hcells (hwraps.mpr ⟨h.2.1, h.2.2.1⟩).1

theorem step_eq_none (hlive : Live st) (q : Request) : step u e st q = none ↔
    st.proverHandle.isSome ∧ Overlong e q := by
  cases q with
  | init n => simp [step, Overlong]
  | deinit =>
    simp only [step, deinit, Overlong, and_false, iff_false]
    cases hhandle : st.proverHandle with
    | none => simp
    | some h =>
      obtain ⟨o, hheap⟩ := Option.isSome_iff_exists.mp (hlive h hhandle)
      simp [hheap]
  | computeCellKzgProofsBatch blobs n => exact compute_eq_none hlive
  | recoverCellsBatch cells cellPresent n => exact recover_eq_none hlive
  | deviceName => simp [step, deviceName, readProver_eq_none hlive, Overlong]
  | gpuCoreCount => simp [step, gpuCoreCount, readProver_eq_none hlive, Overlong]

theorem createProver_error {tables : PrecomputedTables} {opts : Option UInt32} {cores : ℕ}
    {granted : Bool} {sub : Submission} {m : Mem} {rc : Result}
    (h : createProver tables opts cores granted sub m = .error rc) : rc ≠ .ok := by
  unfold createProver at h
  split at h
  · split at h <;> cases h
    decide
  · cases h
    decide

/-- What `init` does with the static field null and room for its two small segments. -/
theorem init_closed (hclosed : st.proverHandle = none)
    (hroom : e.allocates 4 = true ∧ e.allocates 8 = true) :
    init e n st = if e.opens ≠ .ok then (.vkzgException e.opens, st)
      else match createProver e.tables (options n) e.cores e.granted e.sub e.memory with
        | .ok pm => (.done, ⟨Function.update st.heap st.fresh (some ⟨e.deviceName, pm.1, pm.2⟩),
            st.fresh + 1, some st.fresh⟩)
        | .error rc => (.vkzgException rc, st) := by
  unfold init proverNew
  rw [hclosed, hroom.1, hroom.2]
  by_cases hopen : e.opens = .ok
  · rw [if_neg (not_not_intro hopen), if_neg (not_not_intro hopen)]
    cases hnew : createProver e.tables (options n) e.cores e.granted e.sub e.memory with
    | ok pm => rfl
    | error rc => exact if_pos (createProver_error hnew)
  · simp only [ne_eq, hopen, not_false_eq_true, if_true]
    rfl

theorem init_live (hlive : Live st) : Live (init e n st).2 := by
  by_cases hclosed : st.proverHandle = none
  · by_cases hroom : e.allocates 4 = true ∧ e.allocates 8 = true
    · rw [init_closed hclosed hroom]
      split_ifs
      · exact hlive
      · split
        · exact fun h hh => by simp [← Option.some.inj hh]
        · exact hlive
    · have hfull : (!e.allocates 4 || !e.allocates 8) = true := by
        simpa [imp_iff_not_or] using hroom
      rw [init, hclosed, if_neg (by simp), if_pos hfull]
      exact hlive
  · rw [init, if_pos (Option.isSome_iff_ne_none.mpr hclosed)]
    exact hlive

theorem step_live (hlive : Live st) {q : Request} (hstep : step u e st q = some (r, st')) :
    Live st' := by
  cases q with
  | init n =>
    obtain rfl : (init e n st).2 = st' := congrArg Prod.snd (Option.some.inj hstep)
    exact init_live hlive
  | deinit =>
    simp only [step, deinit] at hstep
    split at hstep
    · cases hstep
      exact hlive
    · split at hstep
      · cases hstep
      · cases hstep
        exact fun _ h => absurd h nofun
  | computeCellKzgProofsBatch blobs n =>
    simp only [step, computeCellKzgProofsBatch] at hstep
    split at hstep
    · cases hstep
      exact hlive
    · split_ifs at hstep
      · cases hstep
        exact hlive
      · cases hstep
        exact hlive
      · exact native_live hlive hstep
  | recoverCellsBatch cells cellPresent n =>
    simp only [step, recoverCellsBatch] at hstep
    split at hstep
    · cases hstep
      exact hlive
    · split_ifs at hstep
      · cases hstep
        exact hlive
      · cases hstep
        exact hlive
      · cases hstep
        exact hlive
      · exact native_live hlive hstep
  | deviceName => exact readProver_state hstep ▸ hlive
  | gpuCoreCount => exact readProver_state hstep ▸ hlive

end Undefined

theorem run_eq_none {u : ℕ → ℕ} {requests : List (Env × Request)} {st : State} (hlive : Live st) :
    run u requests st = none ↔ ∃ before r after, requests = before ++ r :: after ∧
      ∃ responses st', run u before st = some (responses, st') ∧ st'.proverHandle.isSome ∧
        Overlong r.1 r.2 := by
  induction requests generalizing st with
  | nil => simp [run]
  | cons r rs ih =>
    have hnone := @step_eq_none u r.1 st hlive r.2
    cases hstep : step u r.1 st r.2 with
    | none =>
      rw [run, hstep]
      refine ⟨fun _ => ⟨[], r, rs, rfl, [], st, rfl, hnone.mp hstep⟩, fun _ => rfl⟩
    | some s =>
      have hrest := ih (step_live hlive hstep)
      rw [run, hstep]
      simp only [Option.bind_some, Option.map_eq_none_iff, hrest]
      constructor
      · rintro ⟨before, r', after, rfl, responses, st', hrun, hopen, hlong⟩
        refine ⟨r :: before, r', after, rfl, s.1 :: responses, st', ?_, hopen, hlong⟩
        rw [run, hstep, Option.bind_some, hrun]
        rfl
      · rintro ⟨before, r', after, hsplit, responses, st', hrun, hopen, hlong⟩
        cases before with
        | nil =>
          obtain ⟨rfl, rfl⟩ := List.cons.inj hsplit
          cases hrun
          exact absurd (hnone.mpr ⟨hopen, hlong⟩) (by simp [hstep])
        | cons r'' before =>
          obtain ⟨rfl, rfl⟩ := List.cons.inj hsplit
          rw [run, hstep, Option.bind_some] at hrun
          obtain ⟨t, hrun, ht⟩ := Option.map_eq_some_iff.mp hrun
          cases ht
          exact ⟨before, r', after, rfl, t.1, t.2, ‹_›, hopen, hlong⟩

/-- Whatever the driver, the files and the device do, no run of requests uses or frees a prover that
is not there, and every native call has arrays as long as the header declares, except for a count past
the arrays that the product in the check wraps around to their length. -/
theorem run_undefined_iff (u : ℕ → ℕ) (requests : List (Env × Request)) :
    run u requests unloaded = none ↔ ∃ before r after, requests = before ++ r :: after ∧
      ∃ responses st, run u before unloaded = some (responses, st) ∧ st.proverHandle.isSome ∧
        Overlong r.1 r.2 := run_eq_none nofun

/-! ### Sessions -/

/-- What opening a prover ends in. -/
def openStatus (e : Env) : Result :=
  if e.opens ≠ .ok then e.opens
  else if e.granted then
    match e.sub with
    | .completed => .ok
    | _ => .errGpu
  else .errMalloc

section Sessions
variable (w : ScalarField) (P : ℕ → ℕ → ScalarPoint) (K : ZMod circulantSize → ScalarField)

open Classical in
/-- The proofs of an array of blobs, whose length is checked against a product of 64 bits. -/
noncomputable def proofsOf (e : Env) (blobs : Array) (n : ℕ) : Response :=
  if blobs.length ≠ n * bytesPerBlob % 2 ^ 64 then .illegalArgument
  else if !e.allocates blobs.length || decide (2 ^ 63 ≤ n * proofBytes % 2 ^ 64) ||
      !e.allocates (n * proofBytes % 2 ^ 64) then .assertionError
  else if ∀ b < n, Canonical blobs.segment b then
    .bytes ((List.range (n * proofBytes)).map fun i =>
      proofByte w P K blobs.segment (i / proofBytes) (i % proofBytes))
  else .vkzgException .errInvalidBlob

open Classical in
/-- The cells that an array of cells determines, with the same checks of the lengths. -/
noncomputable def cellsOf (e : Env) (cells cellPresent : Array) (n : ℕ) : Response :=
  if cells.length ≠ n * cellsBytes % 2 ^ 64 ∨ cellPresent.length ≠ n * presentBytes % 2 ^ 64 then
    .illegalArgument
  else if !e.allocates cells.length || !e.allocates cellPresent.length then .assertionError
  else if ∀ b < n, EnoughCells cellPresent.segment b then
    .bytes ((List.range (n * cellsBytes)).map fun i =>
      recoveredByte w cells.segment cellPresent.segment (i / cellsBytes) (i % cellsBytes))
  else .vkzgException .errBadArgs

/-- What a session shows of its device. -/
structure Session where
  deviceName : String
  cores : ℕ

/-- The response to a request, and the session after it if there is one. -/
noncomputable def respond (e : Env) : Option Session → Request → Response × Option Session
  | none, .init _ =>
    if !e.allocates 4 || !e.allocates 8 then (.assertionError, none)
    else if openStatus e ≠ .ok then (.vkzgException (openStatus e), none)
    else (.done, some ⟨e.deviceName, e.cores⟩)
  | none, _ => (.illegalState, none)
  | some c, .init _ => (.illegalState, some c)
  | some _, .deinit => (.done, none)
  | some c, .computeCellKzgProofsBatch blobs n => (proofsOf w P K e blobs n.toNat, some c)
  | some c, .recoverCellsBatch cells cellPresent n => (cellsOf w e cells cellPresent n.toNat, some c)
  | some c, .deviceName => (.name c.deviceName, some c)
  | some c, .gpuCoreCount => (.count c.cores, some c)

noncomputable def respondAll : List (Env × Request) → Option Session → List Response
  | [], _ => []
  | r :: rs, session =>
    let s := respond w P K r.1 session r.2
    s.1 :: respondAll rs s.2

/-- The state of the binding in a session. -/
def Tracks (st : State) : Option Session → Prop
  | none => st.proverHandle = none ∧ st.heap = fun _ => none
  | some c => ∃ h p m, st.proverHandle = some h ∧
      st.heap = Function.update (fun _ => none) h (some ⟨c.deviceName, p, m⟩) ∧ Loaded w P K p m ∧
      p.gpuTotalCores = c.cores ∧ p.maxBatch ≤ 7281

/-- No table file but the generated one, a device that works, batches whose indices fit into 32 bits,
and no native call but what the header allows. -/
structure Regular (r : Env × Request) : Prop where
  tables : Generated w P K r.1.tables
  completes : ∀ n, (r.1.schedule n).submission = .completed
  batch : ∀ n, r.2 = .init n → batchOption (options n) ≤ 7281
  declared : ¬Overlong r.1 r.2

variable {w P K} {e : Env} {st : State} {c : Session}

theorem native_run {h k : ℕ} {o : Opened} {segments : List (ℕ × ℕ)}
    {call : Prover → Mem → Result × Bytes × Mem} {length : ℤ} (hheap : st.heap h = some o)
    (hlong : ∀ s ∈ segments, k * s.2 ≤ s.1) (hlength : 0 ≤ length) :
    native st h k segments call length = some
      (if (call o.prover o.mem).1 ≠ .ok then .vkzgException (call o.prover o.mem).1
        else .bytes ((List.range length.toNat).map (call o.prover o.mem).2.1),
      { st with heap := Function.update st.heap h (some { o with mem := (call o.prover o.mem).2.2 }) }) := by
  unfold native
  rw [hheap]
  simp only
  rw [if_neg fun ⟨s, hs, hshort⟩ => absurd (hlong s hs) (not_le.mpr hshort)]
  split_ifs with hok hneg
  · rfl
  · exact absurd hlength (not_le.mpr hneg)
  · rfl

open Classical in
theorem response_outcome {err : Result} {size limit n : ℕ} {good : ℕ → Prop}
    {val : ℕ → ℕ → UInt8} {out : Bytes} {r : Result × Bytes × Mem} (herr : err ≠ .ok)
    (h : returned r = Chunks.outcome .ok err size limit n good val out) :
    (if r.1 ≠ .ok then Response.vkzgException r.1 else .bytes ((List.range (n * size)).map r.2.1)) =
      if ∀ b < n, good b then .bytes ((List.range (n * size)).map fun i => val (i / size) (i % size))
      else .vkzgException err := by
  obtain ⟨hstatus, hbytes⟩ := Prod.mk.inj h
  by_cases hall : ∀ b < n, good b
  · rw [if_pos hall] at hstatus ⊢
    rw [hstatus, if_neg (not_not_intro rfl), hbytes, Chunks.doneBefore_of_forall hall]
    refine congrArg _ (List.map_congr_left fun i hi => if_pos ⟨?_, List.mem_range.mp hi⟩)
    rw [Nat.zero_mul]
    exact Nat.zero_le i
  · rw [if_neg hall] at hstatus ⊢
    rw [hstatus, if_pos herr]

/-- A native call in a session ends as its outcome says, and the session goes on. -/
theorem native_tracks {call : Prover → Mem → Result × Bytes × Mem} (hst : Tracks w P K st (some c))
    {h n : ℕ} (hhandle : st.proverHandle = some h) {segments : List (ℕ × ℕ)} {length : ℤ}
    (hlong : ∀ s ∈ segments, n * s.2 ≤ s.1) (hlength : 0 ≤ length)
    (hkeep : ∀ p m, Loaded w P K p m → p.maxBatch ≤ 7281 → SetupKept m (call p m).2.2)
    {q : Response} (hq : ∀ p m, Loaded w P K p m → p.maxBatch ≤ 7281 →
      (if (call p m).1 ≠ .ok then .vkzgException (call p m).1
        else .bytes ((List.range length.toNat).map (call p m).2.1)) = q) :
    ∃ st', native st h n segments call length = some (q, st') ∧ Tracks w P K st' (some c) := by
  obtain ⟨h', p, m, hhandle', hheap, hloaded, hcores, hbatch⟩ := hst
  obtain rfl : h = h' := Option.some.inj (hhandle.symm.trans hhandle')
  have hprover : st.heap h = some ⟨c.deviceName, p, m⟩ := by
    rw [hheap, Function.update_self]
  refine ⟨{ st with heap := Function.update st.heap h (some ⟨c.deviceName, p, (call p m).2.2⟩) }, ?_,
    h, p, (call p m).2.2, hhandle, ?_, hloaded.congr (hkeep p m hloaded hbatch), hcores, hbatch⟩
  · rw [native_run hprover hlong hlength, hq p m hloaded hbatch]
  · simp only [hheap, Function.update_idem]

theorem compute_tracks (hw : IsPrimitiveRoot w 8192) (hst : Tracks w P K st (some c))
    {blobs : Array} {n : Long} (hs : ∀ k, (e.schedule k).submission = .completed)
    (hn : ¬Overlong e (.computeCellKzgProofsBatch blobs n)) :
    ∃ st', computeCellKzgProofsBatch uint32 e blobs n st = some (proofsOf w P K e blobs n.toNat, st') ∧
      Tracks w P K st' (some c) := by
  have hlt : blobs.length < 2 ^ 31 := blobs.length_lt
  obtain ⟨h, hhandle⟩ : ∃ h, st.proverHandle = some h := ⟨_, hst.choose_spec.choose_spec.choose_spec.1⟩
  unfold computeCellKzgProofsBatch proofsOf
  rw [hhandle]
  simp only
  have hsign : decide ((n * BitVec.ofNat 64 circulantSize * BitVec.ofNat 64 bytesPerProof).toInt < 0) =
      decide (2 ^ 63 ≤ n.toNat * proofBytes % 2 ^ 64) := by
    rw [decide_eq_decide, toInt_neg_iff, proofsLen_toNat]
  rw [hsign, proofsLen_toNat]
  by_cases hlen : blobs.length = n.toNat * bytesPerBlob % 2 ^ 64
  · rw [if_neg (not_not_intro (blobs_guard.mpr hlen)), if_neg (not_not_intro hlen)]
    by_cases hfail : (!e.allocates blobs.length || decide (2 ^ 63 ≤ n.toNat * proofBytes % 2 ^ 64) ||
        !e.allocates (n.toNat * proofBytes % 2 ^ 64)) = true
    · rw [if_pos hfail, if_pos hfail]
      exact ⟨st, rfl, hst⟩
    · rw [if_neg hfail, if_neg hfail]
      -- The sizes are allocated, so the count is one that the product does not wrap around.
      have hsmall : n.toNat < 2 ^ 47 := by
        simp only [Bool.or_eq_true, Bool.not_eq_true', decide_eq_true_eq, not_or,
          Bool.not_eq_false, not_le] at hfail
        obtain ⟨⟨halloc, hpos⟩, halloc'⟩ := hfail
        by_contra hle
        exact hn ⟨not_lt.mp hle, (blobs_wraps hlt).mp hlen, hpos, halloc, halloc'⟩
      have hexact : blobs.length = n.toNat * bytesPerBlob := by
        rw [hlen, Nat.mod_eq_of_lt]
        simp only [bytesPerBlob]
        omega
      have hproofs : n.toNat * proofBytes < 2 ^ 31 := by
        simp only [bytesPerBlob, proofBytes, circulantSize, bytesPerProof] at hexact ⊢
        omega
      have hlength : ((n * BitVec.ofNat 64 circulantSize *
          BitVec.ofNat 64 bytesPerProof).truncate 32).toInt = (n.toNat * proofBytes : ℕ) := by
        have htoNat : ((n * BitVec.ofNat 64 circulantSize *
            BitVec.ofNat 64 bytesPerProof).truncate 32).toNat = n.toNat * proofBytes := by
          rw [BitVec.truncate_eq_setWidth, BitVec.toNat_setWidth, proofsLen_toNat]
          omega
        rw [BitVec.toInt_eq_toNat_of_lt (by omega), htoNat]
      rw [Nat.mod_eq_of_lt (show n.toNat * proofBytes < 2 ^ 64 by omega), hlength]
      have hcall := fun p m (hm : Loaded w P K p m) (hbatch : p.maxBatch ≤ 7281) =>
        Call.run_result hw hm (.computeProofsBatch true (fun _ => 0) blobs.segment n.toNat)
          (exactIndices_uint32 ((Nat.min_le_left _ _).trans hbatch)) hs
      refine native_tracks hst hhandle (fun s hmem => ?_) (Int.natCast_nonneg _)
        (fun p m hm hbatch => (hcall p m hm hbatch).2) fun p m hm hbatch => ?_
      · rcases List.mem_cons.mp hmem with rfl | hmem
        · exact hexact.ge
        · rw [List.mem_singleton.mp hmem]
      · obtain ⟨hresult, -⟩ := hcall p m hm hbatch
        rw [Call.result, if_pos rfl] at hresult
        rw [Int.toNat_natCast]
        exact response_outcome nofun hresult
  · rw [if_pos fun hg => hlen (blobs_guard.mp hg), if_pos hlen]
    exact ⟨st, rfl, hst⟩

theorem recover_tracks (hw : IsPrimitiveRoot w 8192) (hst : Tracks w P K st (some c))
    {cells cellPresent : Array} {n : Long} (hs : ∀ k, (e.schedule k).submission = .completed)
    (hn : ¬Overlong e (.recoverCellsBatch cells cellPresent n)) :
    ∃ st', recoverCellsBatch uint32 e cells cellPresent n st =
        some (cellsOf w e cells cellPresent n.toNat, st') ∧ Tracks w P K st' (some c) := by
  obtain ⟨h, hhandle⟩ : ∃ h, st.proverHandle = some h := ⟨_, hst.choose_spec.choose_spec.choose_spec.1⟩
  unfold recoverCellsBatch cellsOf
  rw [hhandle]
  simp only
  by_cases hlen : cells.length = n.toNat * cellsBytes % 2 ^ 64 ∧
      cellPresent.length = n.toNat * presentBytes % 2 ^ 64
  · rw [if_neg (not_not_intro (cells_guard.mpr hlen.1)),
      if_neg (not_not_intro (present_guard.mpr hlen.2)),
      if_neg (not_or.mpr ⟨not_not_intro hlen.1, not_not_intro hlen.2⟩)]
    by_cases hfail : (!e.allocates cells.length || !e.allocates cellPresent.length) = true
    · rw [if_pos hfail, if_pos hfail]
      exact ⟨st, rfl, hst⟩
    · rw [if_neg hfail, if_neg hfail]
      obtain ⟨hcells, hpresent⟩ := (cells_wraps cells.length_lt cellPresent.length_lt).mp hlen
      have hsmall : n.toNat < 2 ^ 57 := by
        simp only [Bool.or_eq_true, Bool.not_eq_true', not_or, Bool.not_eq_false] at hfail
        by_contra hle
        exact hn ⟨not_lt.mp hle, hcells, hpresent, hfail⟩
      replace hcells : cells.length = n.toNat * cellsBytes := by
        rwa [Nat.mod_eq_of_lt hsmall] at hcells
      replace hpresent : cellPresent.length = n.toNat * presentBytes := by
        rwa [Nat.mod_eq_of_lt hsmall] at hpresent
      have hcall := fun p m (hm : Loaded w P K p m) (hbatch : p.maxBatch ≤ 7281) =>
        Call.run_result hw hm (.recoverCellsBatch true (fun _ => 0) cells.segment
          cellPresent.segment n.toNat) (exactIndices_uint32 ((Nat.min_le_left _ _).trans hbatch)) hs
      refine native_tracks hst hhandle (fun s hmem => ?_) (Int.natCast_nonneg _)
        (fun p m hm hbatch => (hcall p m hm hbatch).2) fun p m hm hbatch => ?_
      · simp only [List.mem_cons, List.not_mem_nil, or_false] at hmem
        rcases hmem with rfl | rfl | rfl
        · exact hcells.ge
        · exact hcells.ge
        · exact hpresent.ge
      · obtain ⟨hresult, -⟩ := hcall p m hm hbatch
        rw [Call.result, if_pos rfl] at hresult
        rw [Int.toNat_natCast, hcells]
        exact response_outcome nofun hresult
  · rw [if_pos (not_and_or.mp hlen)]
    by_cases hcells : cells.length = n.toNat * cellsBytes % 2 ^ 64
    · rw [if_neg (not_not_intro (cells_guard.mpr hcells)),
        if_pos fun hg => hlen ⟨hcells, present_guard.mp hg⟩]
      exact ⟨st, rfl, hst⟩
    · rw [if_pos fun hg => hcells (cells_guard.mp hg)]
      exact ⟨st, rfl, hst⟩

theorem openStatus_eq {opts : Option UInt32} (hopen : e.opens = .ok) : openStatus e =
    match createProver e.tables opts e.cores e.granted e.sub e.memory with
    | .ok _ => .ok
    | .error rc => rc := by
  unfold openStatus createProver
  rw [if_neg (not_not_intro hopen)]
  split_ifs
  · cases e.sub <;> rfl
  · rfl

theorem init_tracks (hst : Tracks w P K st none) {n : Long} (htables : Generated w P K e.tables)
    (hbatch : batchOption (options n) ≤ 7281) :
    (init e n st).1 = (respond w P K e none (.init n)).1 ∧
      Tracks w P K (init e n st).2 (respond w P K e none (.init n)).2 := by
  obtain ⟨hclosed, hheap⟩ := hst
  unfold respond
  by_cases hroom : (!e.allocates 4 || !e.allocates 8) = true
  · rw [if_pos hroom, init, hclosed, if_neg (by simp), if_pos hroom]
    exact ⟨rfl, hclosed, hheap⟩
  · rw [if_neg hroom, init_closed hclosed (by simpa using hroom)]
    by_cases hopen : e.opens = .ok
    · rw [if_neg (not_not_intro hopen), @openStatus_eq e (options n) hopen]
      cases hnew : createProver e.tables (options n) e.cores e.granted e.sub e.memory with
      | error rc =>
        simp only
        rw [if_pos (createProver_error hnew)]
        exact ⟨rfl, hclosed, hheap⟩
      | ok pm =>
        simp only
        rw [if_neg (not_not_intro rfl)]
        refine ⟨rfl, st.fresh, pm.1, pm.2, rfl, ?_, htables.loaded hnew, ?_, ?_⟩
        · rw [hheap]
        · rw [(createProver_ok hnew).1]
        · rw [maxBatch_createProver hnew]
          exact hbatch
    · have hstatus : openStatus e = e.opens := if_pos hopen
      rw [if_pos hopen, hstatus, if_pos hopen]
      exact ⟨rfl, hclosed, hheap⟩

theorem step_tracks (hw : IsPrimitiveRoot w 8192) {session : Option Session}
    (hst : Tracks w P K st session) {q : Request} (hq : Regular w P K (e, q)) :
    ∃ st', step uint32 e st q = some ((respond w P K e session q).1, st') ∧
      Tracks w P K st' (respond w P K e session q).2 := by
  cases session with
  | none =>
    have hclosed : st.proverHandle = none := hst.1
    cases q with
    | init n =>
      obtain ⟨hresponse, htracks⟩ := init_tracks hst hq.tables (hq.batch n rfl)
      exact ⟨_, congrArg some (Prod.ext hresponse rfl), htracks⟩
    | deinit => exact ⟨st, by rw [step, deinit, hclosed]; rfl, hst⟩
    | computeCellKzgProofsBatch blobs n =>
      exact ⟨st, by rw [step, computeCellKzgProofsBatch, hclosed]; rfl, hst⟩
    | recoverCellsBatch cells cellPresent n =>
      exact ⟨st, by rw [step, recoverCellsBatch, hclosed]; rfl, hst⟩
    | deviceName => exact ⟨st, by rw [step, deviceName, readProver, hclosed]; rfl, hst⟩
    | gpuCoreCount => exact ⟨st, by rw [step, gpuCoreCount, readProver, hclosed]; rfl, hst⟩
  | some c =>
    cases q with
    | computeCellKzgProofsBatch blobs n =>
      exact compute_tracks hw hst hq.completes hq.declared
    | recoverCellsBatch cells cellPresent n =>
      exact recover_tracks hw hst hq.completes hq.declared
    | init n =>
      have hsession := hst
      obtain ⟨h, p, m, hhandle, -⟩ := hsession
      exact ⟨st, by rw [step, init, hhandle]; rfl, hst⟩
    | deinit =>
      obtain ⟨h, p, m, hhandle, hheap, -⟩ := hst
      refine ⟨{ st with heap := Function.update st.heap h none, proverHandle := none }, ?_, rfl, ?_⟩
      · rw [step, deinit, hhandle]
        simp only [hheap, Function.update_self]
        rfl
      · simp only [hheap, Function.update_idem]
        exact Function.update_eq_self h _
    | deviceName =>
      have hsession := hst
      obtain ⟨h, p, m, hhandle, hheap, -⟩ := hsession
      refine ⟨st, ?_, hst⟩
      rw [step, deviceName, readProver, hhandle]
      simp only [hheap, Function.update_self, Option.map_some]
      rfl
    | gpuCoreCount =>
      have hsession := hst
      obtain ⟨h, p, m, hhandle, hheap, -, hcores, -⟩ := hsession
      refine ⟨st, ?_, hst⟩
      rw [step, gpuCoreCount, readProver, hhandle]
      simp only [hheap, Function.update_self, Option.map_some, hcores]
      rfl

/-- By induction on the requests left: the state is one of the session so far. -/
theorem run_tracks (hw : IsPrimitiveRoot w 8192) {session : Option Session}
    (hst : Tracks w P K st session) {requests : List (Env × Request)}
    (hrequests : ∀ r ∈ requests, Regular w P K r) :
    ∃ st', run uint32 requests st = some (respondAll w P K requests session, st') := by
  induction requests generalizing st session with
  | nil => exact ⟨st, rfl⟩
  | cons r rs ih =>
    obtain ⟨st₁, hstep, hst₁⟩ := step_tracks hw hst (hrequests r List.mem_cons_self)
    obtain ⟨st₂, hrun⟩ := ih hst₁ fun r hr => hrequests r (List.mem_cons_of_mem _ hr)
    refine ⟨st₂, ?_⟩
    rw [run, hstep, Option.bind_some, hrun]
    rfl

end Sessions

/-- Any run of requests is answered as by sessions without memory: what a call returns depends on its
arguments and on the device of the prover that is open, not on its batches, the calls before it or the
sessions before its own. -/
theorem run_responds {w : ScalarField} (hw : IsPrimitiveRoot w 8192) {P : ℕ → ℕ → ScalarPoint}
    {K : ZMod circulantSize → ScalarField} (requests : List (Env × Request))
    (hrequests : ∀ r ∈ requests, Regular w P K r) :
    ∃ st, run uint32 requests unloaded = some (respondAll w P K requests none, st) := by
  have hstart : Tracks w P K unloaded none := ⟨rfl, rfl⟩
  exact run_tracks hw hstart hrequests

/-! ### A session -/

/-- The first bytes of what a function gives, as an array. -/
def Array.of (f : Bytes) (n : ℕ) (h : n < 2 ^ 31) : Array := ⟨(List.range n).map f, by simpa⟩

section Sample
variable {f : Bytes} {n : ℕ} {h : n < 2 ^ 31}

@[simp] theorem length_of : (Array.of f n h).length = n := by
  simp [Array.of, Array.length]

theorem segment_of {i : ℕ} (hi : i < n) : (Array.of f n h).segment i = f i := by
  simp [Array.of, Array.segment, List.getD_eq_getElem?_getD, hi]

theorem elementValue_of {i : ℕ} (hi : i * 32 + 32 ≤ n) :
    elementValue (Array.of f n h).segment i = elementValue f i :=
  bigEndian_congr fun _ hk => segment_of (by omega)

end Sample

/-- The values of `X ^ 64` on the domain of a blob. -/
noncomputable def sampleBlob : Array :=
  .of (extended rootOfUnity (X ^ 64)) bytesPerBlob (by decide)

/-- Cells of which the last 64 hold values of `X ^ 64`. -/
noncomputable def sampleCells : Array :=
  .of (fun i => if i < 131072 then 255 else extended rootOfUnity (X ^ 64) i) cellsBytes (by decide)

def samplePresent : Array := .of (fun i => if i < 64 then 0 else 1) presentBytes (by decide)

theorem elementValue_sampleBlob {i : ℕ} (hi : i < fieldElementsPerBlob) :
    elementValue sampleBlob.segment i = elementValue (extended rootOfUnity (X ^ 64)) i :=
  elementValue_of (by simp only [bytesPerBlob, fieldElementsPerBlob] at hi ⊢; omega)

theorem proofByte_sampleBlob (i : ℕ) :
    proofByte rootOfUnity (setupPoint rootOfUnity 5 generator) (cosetKernel rootOfUnity)
      sampleBlob.segment 0 i = compressed generatorPoint (i % bytesPerProof) := by
  have hw := isPrimitiveRoot_rootOfUnity
  have hpoly : blobPoly rootOfUnity sampleBlob.segment 0 = X ^ 64 :=
    (eq_blobPoly hw degree_X_pow_64 fun i hi => by
      rw [← blobValue_extended _ _ hi, blobValue, blobValue, Nat.zero_mul, Nat.zero_add,
        elementValue_sampleBlob hi]).symm
  rw [proofByte, proofPoint_eq hw 5 generator _ _ (brev_lt (L := 7) (by decide)), hpoly,
    (X_pow_div_mod _).1, eval_one, one_smul]
  rfl

theorem presentCells_samplePresent : presentCells samplePresent.segment 0 = Finset.Ico 64 128 := by
  rw [← presentCells_half]
  ext c
  simp only [mem_presentCells, Nat.zero_mul, Nat.zero_add]
  refine and_congr_right fun hc => ?_
  rw [samplePresent, segment_of hc]

theorem recoveredByte_sampleCells (i : ℕ) :
    recoveredByte rootOfUnity sampleCells.segment samplePresent.segment 0 i =
      extended rootOfUnity (X ^ 64) i := by
  have hrecovered : recovered rootOfUnity sampleCells.segment samplePresent.segment 0 = X ^ 64 := by
    refine (eq_recovered_cells isPrimitiveRoot_rootOfUnity ?_ fun c hc e he => ?_).symm
    · exact degree_presentCells degree_X_pow_64 (by rw [EnoughCells, presentCells_samplePresent]; decide)
    · have hwhole := cellsOf_extended rootOfUnity (X ^ 64) {c} c (Finset.mem_singleton_self c) e he
      rw [presentCells_samplePresent, Finset.mem_Ico] at hc
      rw [← hwhole, sampleCells, cellValue]
      refine congrArg Nat.cast (bigEndian_congr fun k hk => ?_)
      simp only [circulantSize, fieldElementsPerCell]
      rw [segment_of (by simp only [cellsBytes, circulantSize, cellBytes]; omega), if_neg (by omega)]
  rw [recoveredByte, hrecovered]
  rfl

/-- A blob, its proofs and half of its cells in one session, and what is refused in it and after it. -/
theorem run_responds_session : ∃ e st, run uint32
    [(e, .init 0), (e, .init 0), (e, .deviceName), (e, .computeCellKzgProofsBatch sampleBlob 1),
      (e, .recoverCellsBatch sampleCells samplePresent 1),
      (e, .computeCellKzgProofsBatch sampleBlob (-1)), (e, .deinit), (e, .gpuCoreCount)] unloaded =
    some ([.done, .illegalState, .name "Apple M1 (G13G B1)",
      .bytes ((List.range proofBytes).map fun i => compressed generatorPoint (i % bytesPerProof)),
      .bytes ((List.range cellsBytes).map (extended rootOfUnity (X ^ 64))),
      .illegalArgument, .done, .illegalState], st) := by
  have hw := isPrimitiveRoot_rootOfUnity
  obtain ⟨tables, h⟩ := exists_generated rootOfUnity (setupPoint rootOfUnity 5 generator)
    (cosetKernel rootOfUnity)
  let e : Env := ⟨.ok, tables, "Apple M1 (G13G B1)", 8, true, .completed, fun _ _ => 0,
    fun _ => undisturbed, fun _ => true⟩
  have hregular : ∀ q : Request, (∀ n, q = .init n → n = 0) → ¬Overlong e q →
      Regular rootOfUnity (setupPoint rootOfUnity 5 generator) (cosetKernel rootOfUnity) (e, q) :=
    fun q hinit hq => ⟨h, fun _ => rfl, fun n hn => by rw [hinit n hn]; decide, hq⟩
  have hrequests : ∀ r ∈ [(e, .init 0), (e, .init 0), (e, .deviceName),
      (e, .computeCellKzgProofsBatch sampleBlob 1),
      (e, .recoverCellsBatch sampleCells samplePresent 1),
      (e, .computeCellKzgProofsBatch sampleBlob (-1)), (e, .deinit), (e, .gpuCoreCount)],
      Regular rootOfUnity (setupPoint rootOfUnity 5 generator) (cosetKernel rootOfUnity) r := by
    simp only [List.mem_cons, List.not_mem_nil, or_false, forall_eq_or_imp, forall_eq]
    refine ⟨hregular _ ?_ ?_, hregular _ ?_ ?_, hregular _ ?_ ?_, hregular _ ?_ ?_, hregular _ ?_ ?_,
      hregular _ ?_ ?_, hregular _ ?_ ?_, hregular _ ?_ ?_⟩ <;>
        simp [Overlong, sampleBlob, bytesPerBlob]
  obtain ⟨st, hrun⟩ := run_responds hw _ hrequests
  have hproofs : proofsOf rootOfUnity (setupPoint rootOfUnity 5 generator) (cosetKernel rootOfUnity) e
      sampleBlob 1 = .bytes ((List.range proofBytes).map fun i =>
        compressed generatorPoint (i % bytesPerProof)) := by
    have hcanonical : ∀ b < 1, Canonical sampleBlob.segment b := fun b hb i hi => by
      have hone := canonical_extended rootOfUnity (X ^ 64) 0 Nat.one_pos i hi
      rw [Nat.lt_one_iff.mp hb, Nat.zero_mul, Nat.zero_add] at *
      rwa [elementValue_sampleBlob hi]
    rw [proofsOf, if_neg (by simp [sampleBlob, bytesPerBlob]), if_neg (by simp [e, proofBytes,
      circulantSize, bytesPerProof]), if_pos hcanonical, Nat.one_mul]
    refine congrArg _ (List.map_congr_left fun i hi => ?_)
    have hi := List.mem_range.mp hi
    rw [Nat.div_eq_of_lt hi, Nat.mod_eq_of_lt hi, proofByte_sampleBlob]
  have hcells : cellsOf rootOfUnity e sampleCells samplePresent 1 =
      .bytes ((List.range cellsBytes).map (extended rootOfUnity (X ^ 64))) := by
    have henough : ∀ b < 1, EnoughCells samplePresent.segment b := fun b hb => by
      rw [Nat.lt_one_iff.mp hb, EnoughCells, presentCells_samplePresent]
      decide
    rw [cellsOf, if_neg (by simp [sampleCells, samplePresent, cellsBytes, presentBytes, circulantSize,
      cellBytes]), if_neg (by simp [e]), if_pos henough, Nat.one_mul]
    refine congrArg _ (List.map_congr_left fun i hi => ?_)
    have hi := List.mem_range.mp hi
    rw [Nat.div_eq_of_lt hi, Nat.mod_eq_of_lt hi, recoveredByte_sampleCells]
  have hwrong : proofsOf rootOfUnity (setupPoint rootOfUnity 5 generator) (cosetKernel rootOfUnity) e
      sampleBlob 18446744073709551615 = .illegalArgument := by
    rw [proofsOf, if_pos (by simp [sampleBlob, bytesPerBlob])]
  refine ⟨e, st, hrun.trans ?_⟩
  simp only [respondAll, respond]
  simp [openStatus, e, hproofs, hcells, hwrong]

end Vkzg.Java
