import Vkzg.Shaders.PhaseA
import Vkzg.Shaders.PhaseB
import Vkzg.Shaders.Recovery

/-! A prover of `vkzg.cpp`: its configuration, its buffers, how they are set up, and what a submission
of commands leaves open. -/

namespace Vkzg
open Radix Gpu Gpu.Kernel

/-! ### Host memory -/

/-- An array of bytes on the host. -/
abbrev Bytes := ℕ → UInt8

def slice (a : Bytes) (off : ℕ) : Bytes := fun i => a (off + i)

def memcpy (dst : Bytes) (dstOff : ℕ) (src : Bytes) (n : ℕ) : Bytes := fun i =>
  if dstOff ≤ i ∧ i < dstOff + n then src (i - dstOff) else dst i

/-- The bytes of an array of 32-bit words. -/
def wordBytes (f : ℕ → ℕ) : Bytes := fun i => byteOf (f (i / 4)) (i % 4)

def writeBuf (m : Mem) (buf : Buf) (src : Bytes) (n : ℕ) : Mem :=
  Function.update m buf (memcpy (m buf) 0 src n)

theorem writeBuf_of_ne {m : Mem} {buf b : Buf} (h : b ≠ buf) (src : Bytes) (n : ℕ) :
    writeBuf m buf src n b = m b := Function.update_of_ne h _ _

theorem writeBuf_byte {m : Mem} {buf : Buf} {src : Bytes} {n i : ℕ} (hi : i < n) :
    writeBuf m buf src n buf i = src i := by
  rw [writeBuf, Function.update_self, memcpy, Nat.zero_add, if_pos ⟨Nat.zero_le i, hi⟩,
    Nat.sub_zero]

theorem elem_writeBuf_wordBytes {m : Mem} {buf : Buf} {f : ℕ → ℕ} {n i : ℕ} (hi : i < n)
    (hf : f i < 256 ^ 4) : (writeBuf m buf (wordBytes f) (n * 4)).elem 4 buf i = f i := by
  rw [← Nat.mod_eq_of_lt hf, ← bytesValue_byteOf]
  refine bytesValue_congr fun k hk => ?_
  rw [writeBuf_byte (by omega), wordBytes, Nat.mul_comm, block_div hk, Nat.mul_add_mod_of_lt hk]

theorem memcpy_hit {dst src : Bytes} {off n i : ℕ} (hi : i < n) :
    memcpy dst off src n (off + i) = src i := by
  rw [memcpy, if_pos ⟨Nat.le_add_right off i, by omega⟩, Nat.add_sub_cancel_left]

theorem memcpy_other {dst src : Bytes} {off n i : ℕ} (h : i < off ∨ off + n ≤ i) :
    memcpy dst off src n i = dst i := by
  rw [memcpy, if_neg (by omega)]

/-! ### Status codes -/

inductive Result
  | ok | errBadArgs | errMalloc | errIo | errSetup | errGpu | errInvalidBlob
deriving DecidableEq, Repr

/-! ### The prover -/

/-- What stays the same over the life of a prover. -/
structure Prover where
  maxBatch : ℕ
  gpuTotalCores : ℕ
  invBlob : Fr
  maxBatch_pos : 0 < maxBatch
  maxBatch_lt : maxBatch < 2 ^ 32

structure PrecomputedTables where
  positionTable : List UInt32
  rootsFwd : List UInt32
  rootsInv : List UInt32
  kernelItemsPlus : List UInt32
  kernelItemsMinus : List UInt32
  kernelOffsetsPlus : List UInt32
  kernelOffsetsMinus : List UInt32
  kernelPermPlus : List UInt32
  kernelPermMinus : List UInt32
  invBlob : Fr

/-- The buffers written when a prover is created and read by every call. -/
def Buf.isSetup : Buf → Bool
  | .table | .rootsFwd | .rootsInv | .kernelItemsPlus | .kernelOffsetsPlus | .kernelPermPlus
  | .kernelItemsMinus | .kernelOffsetsMinus | .kernelPermMinus | .cosetShiftFwd | .cosetShiftInv
  | .invExtBlob => true
  | _ => false

theorem ne_of_isSetup {buf out : Buf} (hbuf : buf.isSetup = true) (hout : out.isSetup = false) :
    buf ≠ out := by
  rintro rfl
  rw [hout] at hbuf
  exact absurd hbuf (by decide)

/-- How a submitted command buffer ends. A lost device leaves any memory behind. -/
inductive Submission
  | rejected
  | lost (m : Mem)
  | completed

def Submission.run (s : Submission) (u : ℕ → ℕ) (cmds : List (Shader Unit)) (m : Mem) :
    Bool × Mem :=
  match s with
  | .rejected => (false, m)
  | .lost m' => (false, m')
  | .completed => (true, runAll cmds u m)

/-- What the device leaves open in one call: how the submission ends, what workgroup memory holds
before each pass, the order of atomic additions, and the subgroups of each reduction, which hold
whole teams of eight lanes. -/
structure Schedule where
  submission : Submission
  tile : ℕ → ℕ → ℕ → ℕ → Fr
  hist : ℕ → ℕ → AtomicOrder
  scat : ℕ → ℕ → AtomicOrder
  subgroup : ℕ → ℕ → ℕ → Subgroup
  subgroup_dvd : ∀ pass wg b, 8 ∣ (subgroup pass wg b).size
  subgroup_pos : ∀ pass wg b, 0 < (subgroup pass wg b).size

theorem Schedule.wholeTeams (s : Schedule) (pass gpuTotalCores : ℕ) {count batch : ℕ} :
    WholeTeams gpuTotalCores count batch (s.subgroup pass) :=
  wholeTeams_of_dvd (s.subgroup_dvd pass) (s.subgroup_pos pass)

/-- A call that nothing goes wrong in, on subgroups of 32 threads. -/
def undisturbed : Schedule where
  submission := .completed
  tile _ _ _ _ := frRawOne
  hist _ _ := inTurn
  scat _ _ := inReverse
  subgroup _ _ _ := ⟨32, fun _ _ => g1Identity⟩
  subgroup_dvd _ _ _ := by decide
  subgroup_pos _ _ _ := by decide

/-! ### Creation -/

def uploadWords (m : Mem) (buf : Buf) (words : List UInt32) : Mem :=
  writeBuf m buf (wordBytes fun i => (words.getD i 0).toNat) (words.length * 4)

def uploadTables (tables : PrecomputedTables) (m : Mem) : Mem :=
  [(Buf.table, tables.positionTable), (.rootsFwd, tables.rootsFwd), (.rootsInv, tables.rootsInv),
    (.kernelItemsPlus, tables.kernelItemsPlus), (.kernelOffsetsPlus, tables.kernelOffsetsPlus),
    (.kernelPermPlus, tables.kernelPermPlus), (.kernelItemsMinus, tables.kernelItemsMinus),
    (.kernelOffsetsMinus, tables.kernelOffsetsMinus),
    (.kernelPermMinus, tables.kernelPermMinus)].foldl (fun m t => uploadWords m t.1 t.2) m

theorem uploadWords_of_ne {b buf : Buf} (h : b ≠ buf) (m : Mem) (words : List UInt32) :
    uploadWords m buf words b = m b := writeBuf_of_ne h _ _

theorem elem_uploadWords (m : Mem) (buf : Buf) {words : List UInt32} {i : ℕ}
    (hi : i < words.length) : (uploadWords m buf words).elem 4 buf i = (words.getD i 0).toNat :=
  elem_writeBuf_wordBytes hi (UInt32.toNat_lt _)

theorem foldl_uploadWords_of_ne {buf : Buf} {q : List (Buf × List UInt32)}
    (hq : ∀ t ∈ q, buf ≠ t.1) (m : Mem) :
    q.foldl (fun m t => uploadWords m t.1 t.2) m buf = m buf := by
  induction q generalizing m with
  | nil => rfl
  | cons t q ih =>
    rw [List.foldl_cons, ih fun s hs => hq s (List.mem_cons_of_mem t hs)]
    exact uploadWords_of_ne (hq t List.mem_cons_self) m t.2

theorem elem_uploadTables {m : Mem} {buf : Buf} {words : List UInt32}
    {p q : List (Buf × List UInt32)} {i : ℕ} (hi : i < words.length)
    (hq : ∀ t ∈ q, buf ≠ t.1) :
    ((p ++ (buf, words) :: q).foldl (fun m t => uploadWords m t.1 t.2) m).elem 4 buf i =
      (words.getD i 0).toNat := by
  rw [List.foldl_append, List.foldl_cons, Memory.elem_congr (foldl_uploadWords_of_ne hq _)]
  exact elem_uploadWords _ _ hi

/-- The batch size a prover is created for: `none` stands for null options. -/
def batchOption (opts : Option UInt32) : ℕ :=
  match opts with
  | some n => if n ≠ 0 then n.toNat else 4
  | none => 4

theorem batchOption_pos (opts : Option UInt32) : 0 < batchOption opts := by
  rcases opts with - | n
  · decide
  · simp only [batchOption]
    split_ifs with h
    · exact Nat.pos_of_ne_zero fun h0 => h (UInt32.toNat_inj.mp h0)
    · decide

theorem batchOption_lt (opts : Option UInt32) : batchOption opts < 2 ^ 32 := by
  rcases opts with - | n
  · decide
  · simp only [batchOption]
    split_ifs
    · exact n.toNat_lt
    · decide

/-- Creation on a device that has `m` in its memory; `granted` says whether every buffer could be
allocated. -/
def createProver (tables : PrecomputedTables) (opts : Option UInt32) (gpuTotalCores : ℕ)
    (granted : Bool) (s : Submission) (m : Mem) : Except Result (Prover × Mem) :=
  if granted then
    match s.run id populateCosetShiftTables (uploadTables tables m) with
    | (true, m) => .ok (⟨batchOption opts, gpuTotalCores, tables.invBlob, batchOption_pos opts,
        batchOption_lt opts⟩, m)
    | (false, _) => .error .errGpu
  else .error .errMalloc

/-- The shift powers and the scale that recovery uses. -/
structure ShiftTables (m : Mem) : Prop where
  fwd : ∀ i < fieldElementsPerExtBlob, FrRep (frAt m .cosetShiftFwd i) (7 ^ i)
  inv : ∀ i < fieldElementsPerExtBlob, FrRep (frAt m .cosetShiftInv i) (7⁻¹ ^ i)
  scale : FrRep (frAt m .invExtBlob 0) ((8192 : ℕ) : ScalarField)⁻¹

theorem ShiftTables.congr {m m' : Mem} (h : ShiftTables m)
    (hm : ∀ b : Buf, b.isSetup = true → m' b = m b) : ShiftTables m' where
  fwd i hi := by
    rw [frAt_congr (hm .cosetShiftFwd rfl)]
    exact h.fwd i hi
  inv i hi := by
    rw [frAt_congr (hm .cosetShiftInv rfl)]
    exact h.inv i hi
  scale := by
    rw [frAt_congr (hm .invExtBlob rfl)]
    exact h.scale

theorem shiftTables_populate (m : Mem) : ShiftTables (runAll populateCosetShiftTables id m) := by
  rw [populateCosetShiftTables, runAll_cons, runAll_cons, runAll_nil]
  refine ⟨fun i hi => ?_, fun i hi => ?_, ?_⟩
  · rw [frAt_congr (frame_powSeq (by decide) (by decide)), powSeq_elem (by decide) hi, powFactor,
      if_pos rfl]
    exact powSeq_rep frRep_shift7 i
  · rw [powSeq_elem (by decide) hi, powFactor, if_neg one_ne_zero]
    exact powSeq_rep frRep_invShift7 i
  · rw [powSeq_scale (by decide), Nat.cast_ofNat]
    exact frRep_invExtBlob

theorem createProver_ok {tables : PrecomputedTables} {opts : Option UInt32} {cores : ℕ}
    {granted : Bool} {s : Submission} {m m' : Mem} {p : Prover}
    (h : createProver tables opts cores granted s m = .ok (p, m')) :
    p = ⟨batchOption opts, cores, tables.invBlob, batchOption_pos opts, batchOption_lt opts⟩ ∧
      m' = runAll populateCosetShiftTables id (uploadTables tables m) := by
  unfold createProver at h
  split_ifs at h
  cases s with
  | rejected => simp [Submission.run] at h
  | lost m' => simp [Submission.run] at h
  | completed =>
    simp only [Submission.run, Except.ok.injEq, Prod.mk.injEq] at h
    exact ⟨h.1.symm, h.2.symm⟩

theorem shiftTables_createProver {tables : PrecomputedTables} {opts : Option UInt32} {cores : ℕ}
    {granted : Bool} {s : Submission} {m m' : Mem} {p : Prover}
    (h : createProver tables opts cores granted s m = .ok (p, m')) : ShiftTables m' := by
  rw [(createProver_ok h).2]
  exact shiftTables_populate _

/-- The memory of a prover at any time of its life: some creation succeeded, and the buffers it set
up are as it left them. -/
def Ready (p : Prover) (m : Mem) : Prop :=
  ∃ tables opts cores granted s m₀ m', createProver tables opts cores granted s m₀ = .ok (p, m') ∧
    ∀ b : Buf, b.isSetup = true → m b = m' b

section Ready
variable {p : Prover} {m m' : Mem}

theorem Ready.congr (h : Ready p m) (hm : ∀ b : Buf, b.isSetup = true → m' b = m b) :
    Ready p m' := by
  obtain ⟨tables, opts, cores, granted, s, m₀, m₁, hcreate, hsetup⟩ := h
  exact ⟨tables, opts, cores, granted, s, m₀, m₁, hcreate, fun b hb => (hm b hb).trans (hsetup b hb)⟩

theorem Ready.shift (h : Ready p m) : ShiftTables m := by
  obtain ⟨tables, opts, cores, granted, s, m₀, m₁, hcreate, hsetup⟩ := h
  exact (shiftTables_createProver hcreate).congr hsetup

end Ready

end Vkzg
