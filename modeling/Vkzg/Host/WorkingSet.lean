import Vkzg.Host.Compute
import Vkzg.Host.RecoverCells

/-! The buffers of a prover, as they are sized on the host, against the indices its kernels compute
with 32-bit words. -/

namespace Vkzg
open Radix Gpu Gpu.Kernel

/-! ### Sizes -/

/-- The bytes `allocateWorkingSet` asks for. -/
def workingSetBytes (B : ℕ) : Buf → ℕ
  | .blob => B * bytesPerBlob
  | .lagrange => B * fieldElementsPerBlob * frWords * 4
  | .workA | .polyExt => B * fieldElementsPerExtBlob * frWords * 4
  | .coeffs => B * circulantSize * phaseATerms * frWords * 4
  | .buckets => B * circulantSize * numBuckets * jacobianWords * 4
  | .items => B * circulantSize * phaseAItems * 2
  | .starts => B * circulantSize * (numBuckets + 1) * 4
  | .perm => B * circulantSize * numBuckets * 4
  | .points | .proofs => B * circulantSize * jacobianWords * 4
  | .ladderJac | .ladderJacFolded => B * circulantSize * ladderPositions * jacobianWords * 4
  | .ladderAff => B * circulantSize * ladderPositions * affineWords * 4
  | .proofsAff => B * circulantSize * affineWords * 4
  | .proofBytes => B * circulantSize * bytesPerProof
  | .normScratch => B * circulantSize * ladderPositions * fpWords * 4
  | .err => 4
  | .recMissing => B * 65 * 4
  | .recScratch | .recBrp | .recZCoeff | .recZEval | .recEZEval | .recEZCoeff | .recShiftedA
  | .recCosetA | .recCosetB | .recPCoset | .recPCoeffU | .recPCoeff | .recPFull | .recOut =>
    B * fieldElementsPerExtBlob * frWords * 4
  | _ => 0

def setupBytes (tables : PrecomputedTables) : Buf → ℕ
  | .table => tables.positionTable.length * 4
  | .rootsFwd => tables.rootsFwd.length * 4
  | .rootsInv => tables.rootsInv.length * 4
  | .kernelItemsPlus => tables.kernelItemsPlus.length * 4
  | .kernelOffsetsPlus => tables.kernelOffsetsPlus.length * 4
  | .kernelPermPlus => tables.kernelPermPlus.length * 4
  | .kernelItemsMinus => tables.kernelItemsMinus.length * 4
  | .kernelOffsetsMinus => tables.kernelOffsetsMinus.length * 4
  | .kernelPermMinus => tables.kernelPermMinus.length * 4
  | .cosetShiftFwd | .cosetShiftInv => fieldElementsPerExtBlob * frWords * 4
  | .invExtBlob => frWords * 4
  | _ => 0

/-- What `createBuffer` makes of a size: no buffer is empty. -/
def createBytes (bytes : ℕ) : ℕ := if bytes = 0 then 16 else bytes

def bufferBytes (tables : PrecomputedTables) (B : ℕ) (b : Buf) : ℕ :=
  createBytes (if b.isSetup then setupBytes tables b else workingSetBytes B b)

theorem le_createBytes (bytes : ℕ) : bytes ≤ createBytes bytes := by
  rw [createBytes]
  split_ifs <;> omega

theorem createBytes_of_pos {bytes : ℕ} (h : 0 < bytes) : createBytes bytes = bytes :=
  if_neg h.ne'

theorem bufferBytes_setup {tables : PrecomputedTables} {B : ℕ} {b : Buf} (hb : b.isSetup = true) :
    bufferBytes tables B b = createBytes (setupBytes tables b) := congrArg createBytes (if_pos hb)

theorem workingSetBytes_le {tables : PrecomputedTables} {B : ℕ} {b : Buf} (hb : b.isSetup = false) :
    workingSetBytes B b ≤ bufferBytes tables B b := by
  refine (le_createBytes _).trans_eq' ?_
  rw [hb, if_neg Bool.false_ne_true]

/-- The buffers divided among the blobs of a batch. -/
def Buf.perBlob (b : Buf) : Bool := !b.isSetup && b != .err

/-- The scratch of the normalizations is divided by each of them in its own way. -/
def Buf.fixedSlices (b : Buf) : Bool := b.perBlob && b != .normScratch

theorem workingSetBytes_mul (B : ℕ) {b : Buf} (hb : b.perBlob = true) :
    workingSetBytes B b = B * workingSetBytes 1 b := by
  cases b <;> unfold workingSetBytes <;> simp only [Nat.one_mul, Nat.mul_assoc] <;>
    exact absurd hb (by decide)

theorem parsed_of_load {env : Option File} {build install : File} {out tables : PrecomputedTables}
    (h : loadPrecomputedTables env build install out = (.ok, tables)) :
    ∃ f, Accepted f ∧ tables = parsed f := by
  have hload : ∀ file out, loadFrom file out = (.ok, tables) →
      ∃ f, Accepted f ∧ tables = parsed f := by
    intro file out h
    have hstatus : loadStatus file = .ok := by rw [← loadFrom_status file out, h]
    obtain ⟨f, rfl, hf⟩ := loadStatus_ok hstatus
    rw [loadFrom_accepted hf] at h
    exact ⟨f, hf, (congrArg Prod.snd h).symm⟩
  have htry : ∀ file rest out, tryLoad file rest out = (.ok, tables) →
      (∀ out, rest out = (.ok, tables) → ∃ f, Accepted f ∧ tables = parsed f) →
      ∃ f, Accepted f ∧ tables = parsed f := by
    intro file rest out h hrest
    simp only [tryLoad] at h
    split_ifs at h with hok
    · exact hload file out (Prod.ext hok (Prod.mk.inj h).2)
    · exact hrest _ h
  unfold loadPrecomputedTables at h
  rcases env with - | file
  · exact htry build _ out h (hload install)
  · exact htry file _ out h fun out h => htry build _ out h (hload install)

/-! ### What keeps to its slice -/

section Slices
variable {tables : PrecomputedTables} {B batch : ℕ} {stride : Buf → ℕ}

theorem inSlices_slice {buf : Buf} {width n b k : ℕ} (hbuf : buf.perBlob = true)
    (hstride : stride buf = width * n) (hle : stride buf ≤ workingSetBytes 1 buf)
    (hbatch : batch ≤ B) (hb : b < batch) (hk : k < n) :
    InSlices (bufferBytes tables B) stride Buf.perBlob batch ⟨buf, width, b * n + k, some b⟩ := by
  have hsetup : buf.isSetup = false := by
    cases h : buf.isSetup with
    | false => rfl
    | true => simp [Buf.perBlob, h] at hbuf
  have hlo : width * (b * n) = b * (width * n) := by ring
  have hhi : width * (b * n + k + 1) ≤ (b + 1) * (width * n) := calc
    width * (b * n + k + 1) ≤ width * ((b + 1) * n) := by
      refine Nat.mul_le_mul_left width ?_
      rw [Nat.succ_mul]
      omega
    _ = (b + 1) * (width * n) := by ring
  refine ⟨b, hb, rfl, ?_, fun _ => ⟨?_, ?_⟩⟩
  · refine le_trans ?_ (workingSetBytes_le hsetup)
    rw [workingSetBytes_mul B hbuf]
    exact hhi.trans (Nat.mul_le_mul (hb.trans_le hbatch) (hstride ▸ hle))
  · simp only [hstride, ← hlo]
    exact Nat.mul_le_mul_left width (Nat.le_add_right _ _)
  · simp only [hstride]
    exact hhi

theorem inSlices_shared {buf : Buf} {width n b k : ℕ} (hbuf : buf.perBlob = false)
    (hsize : width * n ≤ bufferBytes tables B buf) (hb : b < batch) (hk : k < n) :
    InSlices (bufferBytes tables B) stride Buf.perBlob batch ⟨buf, width, k, some b⟩ := by
  refine ⟨b, hb, rfl, (Nat.mul_le_mul_left width hk).trans hsize, fun h => ?_⟩
  rw [hbuf] at h
  exact absurd h (by decide)

theorem setupBytes_le {buf : Buf} (hbuf : buf.isSetup = true) {n : ℕ} (h : n ≤ setupBytes tables buf) :
    n ≤ bufferBytes tables B buf := by
  rw [bufferBytes_setup hbuf]
  exact h.trans (le_createBytes _)

/-- The words of the file behind a prover's tables. -/
structure Sized (tables : PrecomputedTables) : Prop where
  table : tables.positionTable.length = 6291456
  rootsFwd : tables.rootsFwd.length = 65536
  rootsInv : tables.rootsInv.length = 65536
  offsetsPlus : tables.kernelOffsetsPlus.length = 129
  offsetsMinus : tables.kernelOffsetsMinus.length = 129
  permPlus : tables.kernelPermPlus.length = 128
  permMinus : tables.kernelPermMinus.length = 128

theorem sized_parsed {f : List UInt8} : Sized (parsed f) := by
  constructor
  · simp only [parsed, length_wordsFrom, positionTableWords, circulantSize, phaseATerms, numDigits,
      affineWords]
  · simp only [parsed, length_wordsFrom, fieldElementsPerExtBlob, frWords]
  · simp only [parsed, length_wordsFrom, fieldElementsPerExtBlob, frWords]
  · simp only [parsed, length_wordsFrom, numBuckets]
  · simp only [parsed, length_wordsFrom, numBuckets]
  · simp only [parsed, length_wordsFrom, numBuckets]
  · simp only [parsed, length_wordsFrom, numBuckets]

theorem computeWords_inSlices (hsized : Sized tables) (hB : B ≤ 7281) (hbatch : batch ≤ B)
    (hstride : ∀ buf ≠ .normScratch, stride buf = workingSetBytes 1 buf) :
    ComputeWords (InSlices (bufferBytes tables B) stride Buf.perBlob batch) uint32 batch := by
  have hslices : ∀ t ∈ computeSlices, t.1.perBlob = true ∧ t.1 ≠ .normScratch ∧
      workingSetBytes 1 t.1 = 4 * t.2 := by decide
  have hitems := hstride .items (by decide)
  have hblob := hstride .blob (by decide)
  have hproofs := hstride .proofBytes (by decide)
  refine ⟨exactIndices_uint32 (hbatch.trans hB), fun t ht b hb k hk => ?_,
    fun buf hbuf b hb k hk => ?_, fun b hb k hk => ?_, fun b hb k hk => ?_, fun b hb k hk => ?_,
    fun b hb k hk => ?_, fun b hb => ?_⟩
  · obtain ⟨hown, hne, hsize⟩ := hslices t ht
    exact inSlices_slice hown ((hstride _ hne).trans hsize) (hstride _ hne).le hbatch hb hk
  · rcases hbuf with rfl | rfl
    · refine inSlices_shared rfl (setupBytes_le rfl ?_) hb hk
      rw [setupBytes, hsized.rootsFwd]
    · refine inSlices_shared rfl (setupBytes_le rfl ?_) hb hk
      rw [setupBytes, hsized.rootsInv]
  · refine inSlices_shared rfl (setupBytes_le rfl ?_) hb hk
    rw [setupBytes, hsized.table]
  · exact inSlices_slice rfl (hitems.trans (by decide)) hitems.le hbatch hb hk
  · exact inSlices_slice rfl (hblob.trans (by decide)) hblob.le hbatch hb hk
  · exact inSlices_slice rfl (hproofs.trans (by decide)) hproofs.le hbatch hb hk
  · exact inSlices_shared rfl (show 4 * 1 ≤ bufferBytes tables B .err from le_rfl) hb Nat.one_pos

theorem recoverWords_inSlices (hsized : Sized tables) (hB : B ≤ 7281) (hbatch : batch ≤ B) :
    RecoverWords (InSlices (bufferBytes tables B) (workingSetBytes 1) Buf.perBlob batch) uint32
      batch where
  exact_index n hn := uint32_of_lt (by omega)
  scalar buf hbuf b hb k hk := by
    have hscalar : buf.perBlob = true ∧ workingSetBytes 1 buf = 4 * 65536 := by
      cases buf <;> first | exact ⟨rfl, rfl⟩ | exact absurd hbuf (by decide)
    exact inSlices_slice hscalar.1 hscalar.2 le_rfl hbatch hb hk
  table buf hbuf b hb k hk := by
    have hsetup : buf.isSetup = true := by
      cases buf <;> first | rfl | exact absurd hbuf (by decide)
    have htable : buf.perBlob = false ∧ setupBytes tables buf = 4 * 65536 := by
      cases buf <;> first
        | exact absurd hbuf (by decide)
        | exact ⟨rfl, rfl⟩
        | exact ⟨rfl, by rw [setupBytes, hsized.rootsFwd]⟩
        | exact ⟨rfl, by rw [setupBytes, hsized.rootsInv]⟩
    exact inSlices_shared htable.1 (setupBytes_le hsetup htable.2.ge) hb hk
  scale b hb k hk :=
    inSlices_shared rfl (show 4 * 8 ≤ bufferBytes tables B .invExtBlob from le_rfl) hb hk
  missing b hb k hk := inSlices_slice rfl rfl le_rfl hbatch hb hk
  cells b hb k hk := inSlices_slice rfl rfl le_rfl hbatch hb hk
  out b hb k hk := inSlices_slice rfl rfl le_rfl hbatch hb hk

end Slices

/-! ### The kernel lists -/

/-- The words in the buffer of an item list. The buffer of an empty list has four, which nothing is
uploaded to: they are as the device had them. -/
def bufferWords (m₀ : Mem) (buf : Buf) (items : List UInt32) : List ℕ :=
  if items = [] then (List.range 4).map (m₀.elem 4 buf) else items.map UInt32.toNat

/-- What keeps the split pass to its buffers: the buckets, items and ladder places that the lists of
the half at `base` name are there. -/
structure ListSafe (words : List ℕ) (offsets perm : List UInt32) (base : ℕ) : Prop where
  bucket : ∀ t < numBuckets, (perm.getD t 0).toNat < numBuckets
  item : ∀ t < numBuckets, ∀ it, (offsets.getD (perm.getD t 0).toNat 0).toNat ≤ it →
    it < (offsets.getD ((perm.getD t 0).toNat + 1) 0).toNat → it < words.length ∧
      (base + 63) * ladderPositions + itemPosition (words.getD it 0) < 4096

/-- `m₀` is the memory that the buffers are made in. -/
structure ListsSafe (t : PrecomputedTables) (m₀ : Mem) : Prop where
  plus : ListSafe (bufferWords m₀ .kernelItemsPlus t.kernelItemsPlus) t.kernelOffsetsPlus
    t.kernelPermPlus 0
  minus : ListSafe (bufferWords m₀ .kernelItemsMinus t.kernelItemsMinus) t.kernelOffsetsMinus
    t.kernelPermMinus 64

section Words
variable {m₀ : Mem} {buf : Buf} {items : List UInt32}

theorem length_bufferWords : (bufferWords m₀ buf items).length * 4 = createBytes (items.length * 4) := by
  unfold bufferWords createBytes
  rcases items with _ | ⟨x, l⟩
  · rfl
  · rw [if_neg (List.cons_ne_nil x l), List.length_map, if_neg (by simp)]

theorem bufferWords_getD (h : items ≠ []) {i : ℕ} (hi : i < items.length) :
    (bufferWords m₀ buf items).getD i 0 = (items.getD i 0).toNat := by
  rw [bufferWords, if_neg h, List.getD_eq_getElem?_getD, List.getElem?_map,
    List.getElem?_eq_getElem hi, List.getD_eq_getElem?_getD, List.getElem?_eq_getElem hi]
  rfl

/-- The buffer holds these words once the tables are uploaded. -/
theorem elem_bufferWords {p q : List (Buf × List UInt32)} (hp : ∀ t ∈ p, buf ≠ t.1)
    (hq : ∀ t ∈ q, buf ≠ t.1) {i : ℕ} (hi : i < (bufferWords m₀ buf items).length) :
    ((p ++ (buf, items) :: q).foldl (fun m t => uploadWords m t.1 t.2) m₀).elem 4 buf i =
      (bufferWords m₀ buf items).getD i 0 := by
  rcases eq_or_ne items [] with rfl | hne
  · have hempty : ∀ m : Mem, uploadWords m buf [] = m := fun m => by
      exact Function.update_eq_self_iff.mpr (funext fun i => memcpy_other (.inr (Nat.zero_le i)))
    have hi' : i < 4 := hi
    rw [List.foldl_append, List.foldl_cons, hempty,
      Memory.elem_congr ((foldl_uploadWords_of_ne hq _).trans (foldl_uploadWords_of_ne hp _)),
      bufferWords, if_pos rfl, List.getD_eq_getElem?_getD, List.getElem?_map,
      List.getElem?_range hi']
    rfl
  · have hlen : i < items.length := by
      rwa [bufferWords, if_neg hne, List.length_map] at hi
    rw [elem_uploadTables hlen hq, bufferWords_getD hne hlen]

theorem HalfWf.safe {offsets perm : List UInt32} {base : ℕ} (h : HalfWf items offsets perm)
    (hbase : base ≤ 64) : ListSafe (bufferWords m₀ buf items) offsets perm base where
  bucket t ht := h.perm_lt ht
  item t ht it hlo hhi := by
    have hlt := h.perm_lt ht
    have hfirst := (h.offset_le hlt.le).1.trans hlo
    have hlast := hhi.trans_le (h.offset_le hlt).2
    have hlen : it < items.length := hlast.trans_le h.total
    have hne : items ≠ [] := List.ne_nil_of_length_pos (by omega)
    have hpos := h.position it hfirst hlast
    rw [bufferWords_getD hne hlen]
    simp only [ladderPositions] at hpos ⊢
    refine ⟨?_, by omega⟩
    rwa [bufferWords, if_neg hne, List.length_map]

end Words

/-- The buffers of one half hold the words of its items, its offsets and its order. -/
structure WordsHold (m : Mem) (lists : KernelLists) (words : List ℕ) (offsets perm : List UInt32) :
    Prop where
  words : ∀ i < words.length, m.elem 4 lists.items i = words.getD i 0
  offsets : ∀ i < offsets.length, m.elem 4 lists.offsets i = (offsets.getD i 0).toNat
  perm : ∀ i < perm.length, m.elem 4 lists.perm i = (perm.getD i 0).toNat

section Lists
variable {tables : PrecomputedTables} {m m₀ : Mem} {batch B base b : ℕ} {stride : Buf → ℕ}
  {lists : KernelLists} {words : List ℕ} {offsets perm : List UInt32}

theorem wordsHold_plus (hm : ∀ b : Buf, b.isKernelList = true → m b = uploadTables tables m₀ b) :
    WordsHold m plusLists (bufferWords m₀ .kernelItemsPlus tables.kernelItemsPlus)
      tables.kernelOffsetsPlus tables.kernelPermPlus where
  words i hi := (Memory.elem_congr (hm .kernelItemsPlus rfl) 4 i).trans
    (elem_bufferWords (p := [_, _, _]) (q := [_, _, _, _, _]) (by simp) (by simp) hi)
  offsets := (halfHolds_plus hm).offsets
  perm := (halfHolds_plus hm).perm

theorem wordsHold_minus (hm : ∀ b : Buf, b.isKernelList = true → m b = uploadTables tables m₀ b) :
    WordsHold m minusLists (bufferWords m₀ .kernelItemsMinus tables.kernelItemsMinus)
      tables.kernelOffsetsMinus tables.kernelPermMinus where
  words i hi := (Memory.elem_congr (hm .kernelItemsMinus rfl) 4 i).trans
    (elem_bufferWords (p := [_, _, _, _, _, _]) (q := [_, _]) (by simp) (by simp) hi)
  offsets := (halfHolds_minus hm).offsets
  perm := (halfHolds_minus hm).perm

theorem listWords_inSlices (hsafe : ListSafe words offsets perm base)
    (hm : WordsHold m lists words offsets perm) (hoffs : offsets.length = 129)
    (hperms : perm.length = 128) (hb : b < batch)
    (hperm : lists.perm.perBlob = false ∧ perm.length * 4 ≤ bufferBytes tables B lists.perm)
    (hoffsets : lists.offsets.perBlob = false ∧
      offsets.length * 4 ≤ bufferBytes tables B lists.offsets)
    (hwords : lists.items.perBlob = false ∧ words.length * 4 ≤ bufferBytes tables B lists.items) :
    ListWords (InSlices (bufferBytes tables B) stride Buf.perBlob batch) uint32 m lists base b := by
  have hbucket : ∀ t < numBuckets, m.elem 4 lists.perm t = (perm.getD t 0).toNat :=
    fun t ht => hm.perm t (hperms ▸ ht)
  have hoff : ∀ k ≤ numBuckets, m.elem 4 lists.offsets k = (offsets.getD k 0).toNat :=
    fun k hk => hm.offsets k (by simp only [numBuckets] at hk; omega)
  refine ⟨fun k hk => ?_, fun k hk => ?_, fun t ht => ?_, fun t ht it hlo hhi => ?_⟩
  · rw [Nat.zero_add]
    exact ⟨uint32_of_lt (by omega), inSlices_shared hperm.1 (by rw [Nat.mul_comm]; exact hperm.2) hb
      (hperms ▸ hk)⟩
  · rw [Nat.zero_add]
    exact ⟨uint32_of_lt (by omega), inSlices_shared hoffsets.1
      (by rw [Nat.mul_comm]; exact hoffsets.2) hb (hoffs ▸ hk)⟩
  · rw [hbucket t ht]
    exact hsafe.bucket t ht
  · have hlt := hsafe.bucket t ht
    rw [hbucket t ht, hoff _ hlt.le] at hlo
    rw [hbucket t ht, hoff _ hlt] at hhi
    obtain ⟨hlen, hpos⟩ := hsafe.item t ht it hlo hhi
    refine ⟨uint32_of_lt (hhi.trans (UInt32.toNat_lt _)), inSlices_shared hwords.1
      (by rw [Nat.mul_comm]; exact hwords.2) hb hlen, ?_⟩
    rwa [hm.words it hlen]

theorem listsHold_inSlices (hsized : Sized tables) (hsafe : ListsSafe tables m₀)
    (hm : ∀ b : Buf, b.isKernelList = true → m b = uploadTables tables m₀ b) :
    ListsHold (InSlices (bufferBytes tables B) stride Buf.perBlob batch) uint32 batch m where
  plus _ hb := listWords_inSlices hsafe.plus (wordsHold_plus hm) hsized.offsetsPlus
    hsized.permPlus hb ⟨rfl, setupBytes_le rfl le_rfl⟩ ⟨rfl, setupBytes_le rfl le_rfl⟩
    ⟨rfl, length_bufferWords.le⟩
  minus _ hb := listWords_inSlices hsafe.minus (wordsHold_minus hm) hsized.offsetsMinus
    hsized.permMinus hb ⟨rfl, setupBytes_le rfl le_rfl⟩ ⟨rfl, setupBytes_le rfl le_rfl⟩
    ⟨rfl, length_bufferWords.le⟩

end Lists

/-! ### Batches of a prover -/

/-- Every batch is sound on 32-bit words, whatever the working set holds. -/
def BatchesSound (tables : PrecomputedTables) (p : Prover) (m : Mem) : Prop :=
  ∀ batch ≤ p.maxBatch, ∀ m', SetupKept m m' → ∀ s : Schedule,
    (∀ blobs, SoundRun (bufferBytes tables p.maxBatch) Buf.perBlob Buf.fixedSlices batch uint32
      (computeCommands p s batch) (computeStart m' blobs batch)) ∧
    ∀ cells cellPresent, (∀ b < batch, (missingCells cellPresent b).length ≤ 64) →
      SoundRun (bufferBytes tables p.maxBatch) Buf.perBlob Buf.fixedSlices batch uint32
        (recoverCommands batch s.tile (s.tile 12 0)) (recoverStart m' cells cellPresent batch)

section Batches
variable {tables : PrecomputedTables} {p : Prover} {m m₀ : Mem} {batch : ℕ}

/-- The slices of the scratch when it holds words for `n` points of each blob. -/
def scratchStride (n : ℕ) (b : Buf) : ℕ :=
  if b = .normScratch then 4 * (n * fpWords) else workingSetBytes 1 b

theorem scratchWords_inSlices {B n : ℕ} (hn : n ≤ circulantSize * ladderPositions) (hB : B ≤ 7281)
    (hbatch : batch ≤ B) : ScratchWords
      (InSlices (bufferBytes tables B) (scratchStride n) Buf.perBlob batch) uint32 batch n := by
  intro b hb k hk
  have hn' : n ≤ 4096 := hn
  have hidx : b * (n * 12) + k < batch * (n * 12) := block_lt hb hk
  have hle : batch * (n * 12) ≤ 7281 * (4096 * 12) :=
    Nat.mul_le_mul (hbatch.trans hB) (Nat.mul_le_mul_right 12 hn')
  have hstride : scratchStride n .normScratch ≤ workingSetBytes 1 .normScratch := by
    simp only [scratchStride, if_true, workingSetBytes, fpWords, circulantSize, ladderPositions]
    omega
  exact ⟨uint32_of_lt (by omega), inSlices_slice rfl rfl hstride hbatch hb hk⟩

theorem fixedSlices_stride {n : ℕ} {b : Buf} (hb : b.fixedSlices = true) :
    b.perBlob = true ∧ scratchStride n b = workingSetBytes 1 b := by
  obtain ⟨hblob, hne⟩ := Bool.and_eq_true_iff.mp hb
  exact ⟨hblob, if_neg (bne_iff_ne.mp hne)⟩

theorem computeCommands_sound (hsized : Sized tables) (hsafe : ListsSafe tables m₀)
    (hm : ∀ b : Buf, b.isKernelList = true → m b = uploadTables tables m₀ b) {B : ℕ} (hB : B ≤ 7281)
    (hbatch : batch ≤ B) (s : Schedule) :
    SoundRun (bufferBytes tables B) Buf.perBlob Buf.fixedSlices batch uint32
      (computeCommands p s batch) m := by
  have hwords : ∀ n, ComputeWords (InSlices (bufferBytes tables B) (scratchStride n) Buf.perBlob
      batch) uint32 batch := fun n => computeWords_inSlices hsized hB hbatch fun b hb => if_neg hb
  -- Each normalization lays the scratch out in slices of its own.
  have hproofs := @withinAll_proofCommands _ _ m _ p s (hwords (circulantSize * ladderPositions))
    (scratchWords_inSlices le_rfl hB hbatch) (listsHold_inSlices hsized hsafe hm)
  have hencode := withinAll_encodeCommands (hwords circulantSize)
    (scratchWords_inSlices (by decide) hB hbatch)
  have hfixed : ∀ n a, InSlices (bufferBytes tables B) (scratchStride n) Buf.perBlob batch a →
      InSlices (bufferBytes tables B) (workingSetBytes 1) Buf.fixedSlices batch a :=
    fun n a ha => ha.fixed fun b hb => fixedSlices_stride hb
  unfold computeCommands
  exact ⟨soundAll_append.mpr ⟨hproofs.sound, (hencode _).sound⟩,
    (withinAll_append (hproofs.mono (hfixed _)) ((hencode _).mono (hfixed _))).apart⟩

theorem recoverCommands_sound (hsized : Sized tables) {B : ℕ} (hB : B ≤ 7281) (hbatch : batch ≤ B)
    {tile : ℕ → ℕ → ℕ → ℕ → Fr} {shared : ℕ → ℕ → Fr} {cells cellPresent : Bytes}
    (hmissing : ∀ b < batch, (missingCells cellPresent b).length ≤ 64) :
    SoundRun (bufferBytes tables B) Buf.perBlob Buf.fixedSlices batch uint32
      (recoverCommands batch tile shared) (recoverStart m cells cellPresent batch) := by
  have hlists : ∀ b < batch, MissingWf (recoverStart m cells cellPresent batch) b := fun b hb =>
    missingWf_congr recoverStart_missing (missingWf_uploadMissing hmissing hb)
  have hwithin : WithinAll _ uint32 (recoverCommands batch tile shared) _ :=
    withinAll_recoverCommands (recoverWords_inSlices hsized hB hbatch) hlists
  refine ⟨hwithin.sound, (hwithin.mono fun a ha => ha.fixed fun b hb => ⟨?_, rfl⟩).apart⟩
  exact (Bool.and_eq_true_iff.mp hb).1

/-- Some thread of the split pass works on the last output of the last blob, whose buckets have no
32-bit indices from 7282 blobs on. -/
theorem phaseBDispatch_unsound {size : Buf → ℕ} {divided : Buf → Bool} (hbatch : 7281 < batch) :
    ¬Sound size divided batch uint32 m (phaseBDispatch batch) := by
  intro h
  obtain ⟨k, hk⟩ : ∃ k, m.elem 4 (listsOf 127).perm 0 = k := ⟨_, rfl⟩
  have hmem : (4, ((7281 * circulantSize + 127) * numBuckets + k) * 36 + 0,
      g1Words (splitBucket m 7281 127 k) 0) ∈
        landing .buckets ((phaseBDispatch batch).stores id m) := by
    refine blocks_phaseB.mem_iff.mpr ⟨(7281, 127, 0), ?_, 0, by decide, ?_⟩
    · exact List.mem_product.mpr ⟨List.mem_range.mpr hbatch, List.mem_product.mpr
        ⟨List.mem_range.mpr (by decide), List.mem_range.mpr (by decide)⟩⟩
    · simp only [hk]
  -- No store on 32-bit words has an index like this one.
  obtain ⟨s, hs, -, hword⟩ := mem_landing.mp hmem
  rw [← h.stores] at hs
  have hidx : ((7281 * circulantSize + 127) * numBuckets + k) * 36 + 0 = s.idx :=
    congrArg (fun t => t.2.1) hword
  have hlt := confined_uint32.stored s hs
  simp only [circulantSize, numBuckets] at hidx
  omega

/-- The thread at place `t` of output `a` reads the lists of its half. -/
theorem mem_phaseB_accesses {a b t : ℕ} (ha : a < circulantSize) (hb : b < batch)
    (ht : t < numBuckets) :
    let lists := listsOf a
    let bucket := m.elem 4 lists.perm (uint32 t)
    let lo := m.elem 4 lists.offsets (uint32 bucket)
    let hi := m.elem 4 lists.offsets (uint32 (bucket + 1))
    let found := accesses (phaseBDispatch batch) uint32 m
    ⟨lists.offsets, 4, uint32 bucket, some b⟩ ∈ found ∧
      ⟨lists.offsets, 4, uint32 (bucket + 1), some b⟩ ∈ found ∧
      ∀ it, lo ≤ it → it < hi → ⟨lists.items, 4, uint32 it, some b⟩ ∈ found ∧
        ⟨.ladderAff, 4, uint32 (b * circulantSize * ladderPositions * affineWords +
          halfBase a * ladderPositions * affineWords +
          (((halfIndex a + 2 ^ 32 - itemTap (m.elem 4 lists.items (uint32 it))) % 2 ^ 32 &&&
            (circulantHalf - 1)) * ladderPositions +
              itemPosition (m.elem 4 lists.items (uint32 it))) * affineWords + 0), some b⟩ ∈ found := by
  intro lists bucket lo hi found
  have hthread : ∀ acc : Access Buf, acc ∈ ((do
      let bucket ← load 4 lists.perm t
      let lo ← load 4 lists.offsets bucket
      let hi ← load 4 lists.offsets (bucket + 1)
      let lbase := b * circulantSize * ladderPositions * affineWords +
        halfBase a * ladderPositions * affineWords
      let acc ← (List.range' lo (hi - lo)).foldlM (phaseBStep lists lbase (halfIndex a)
        (decide (a ≥ circulantHalf))) g1Identity
      g1Store .buckets
        ((b * circulantSize * numBuckets + a * numBuckets + bucket) * jacobianWords) acc :
          Shader Unit).reads uint32 m) → acc.own b ∈ found := fun acc hacc =>
    mem_accesses_dispatch ha hb (mem_reads_each (List.mem_range.mpr ht) hacc)
  have hrange : ∀ it, lo ≤ it → it < hi → it ∈ List.range' lo (hi - lo) := fun it hlo hhi =>
    List.mem_range'_1.mpr ⟨hlo, by omega⟩
  -- The loads of a thread, in the order in which it makes them.
  refine ⟨hthread ⟨lists.offsets, 4, uint32 bucket, none⟩ ?_,
    hthread ⟨lists.offsets, 4, uint32 (bucket + 1), none⟩ ?_, fun it hlo hhi =>
      ⟨hthread ⟨lists.items, 4, uint32 it, none⟩ ?_, hthread ⟨.ladderAff, 4, _, none⟩ ?_⟩⟩
  · exact List.mem_append_right _ (List.mem_append_left _ (List.mem_singleton.mpr rfl))
  · exact List.mem_append_right _ (List.mem_append_right _ (List.mem_append_left _
      (List.mem_singleton.mpr rfl)))
  · refine List.mem_append_right _ (List.mem_append_right _ (List.mem_append_right _
      (List.mem_append_left _ (mem_reads_foldlM (i := it) ?_ (fun acc => ?_) _))))
    · exact hrange it hlo hhi
    · exact List.mem_append_left _ (List.mem_singleton.mpr rfl)
  · refine List.mem_append_right _ (List.mem_append_right _ (List.mem_append_right _
      (List.mem_append_left _ (mem_reads_foldlM (i := it) ?_ (fun acc => ?_) _))))
    · exact hrange it hlo hhi
    · exact List.mem_append_right _ (List.mem_append_left _ (List.mem_append_left _
        (List.mem_append_left _ (List.mem_map.mpr ⟨0, List.mem_range.mpr (by decide), rfl⟩))))

theorem listSafe_of_sound {words : List ℕ} {offsets perm : List UInt32} {base B : ℕ}
    {divided : Buf → Bool}
    (hB : B ≤ 7281) (hpos : 0 < B)
    (hsound : Sound (bufferBytes tables B) divided B uint32 m (phaseBDispatch B))
    (hhalf : ∀ aa < circulantHalf, ∃ a < circulantSize, halfIndex a = aa ∧ halfBase a = base ∧
      WordsHold m (listsOf a) words offsets perm ∧
      bufferBytes tables B (listsOf a).offsets = offsets.length * 4 ∧
      bufferBytes tables B (listsOf a).items = words.length * 4)
    (hbase : base ≤ 64) (hoffs : offsets.length = 129) (hperms : perm.length = 128) :
    ListSafe words offsets perm base := by
  have hbucket : ∀ t < numBuckets, (perm.getD t 0).toNat < numBuckets := by
    intro t ht
    obtain ⟨a, ha, -, -, hm, hoffsets, -⟩ := hhalf 0 (by decide)
    obtain ⟨hfirst, hsecond, -⟩ := @mem_phaseB_accesses m B a (B - 1) t ha (by omega) ht
    have ht' : t < 128 := ht
    rw [uint32_of_lt (show t < 2 ^ 32 by omega), hm.perm t (hperms ▸ ht)] at hfirst hsecond
    have hword : (perm.getD t 0).toNat < 2 ^ 32 := UInt32.toNat_lt _
    rw [uint32_of_lt hword] at hfirst
    have hle := hsound.inside _ hfirst
    simp only [hoffsets, hoffs] at hle
    rw [uint32_of_lt (show (perm.getD t 0).toNat + 1 < 2 ^ 32 by omega)] at hsecond
    have hle' := hsound.inside _ hsecond
    simp only [hoffsets, hoffs] at hle'
    simp only [numBuckets]
    omega
  refine ⟨hbucket, fun t ht it hlo hhi => ?_⟩
  have hlt : (perm.getD t 0).toNat < 128 := hbucket t ht
  have hit : it < 2 ^ 32 := hhi.trans (UInt32.toNat_lt _)
  -- The output that takes the item to the end of the half's ladders.
  obtain ⟨a, ha, hidx, hbasea, hm, -, hsize⟩ := hhalf
    ((itemTap (words.getD it 0) + 63) % 64) (Nat.mod_lt _ (by decide))
  obtain ⟨-, -, hall⟩ := @mem_phaseB_accesses m B a (B - 1) t ha (by omega) ht
  have ht' : t < 128 := ht
  rw [uint32_of_lt (show t < 2 ^ 32 by omega), hm.perm t (hperms ▸ ht),
    uint32_of_lt (show (perm.getD t 0).toNat < 2 ^ 32 by omega),
    uint32_of_lt (show (perm.getD t 0).toNat + 1 < 2 ^ 32 by omega), hm.offsets _ (by omega),
    hm.offsets _ (by omega)] at hall
  obtain ⟨hread, hladder⟩ := hall it hlo hhi
  rw [uint32_of_lt hit] at hread hladder
  have hlen : it < words.length := by
    have hle := hsound.inside _ hread
    simp only [hsize] at hle
    omega
  refine ⟨hlen, ?_⟩
  rw [hm.words it hlen] at hladder
  have htap : itemTap (words.getD it 0) < 256 := Nat.and_lt_two_pow (n := 8) _ (by decide)
  have hplace : itemPosition (words.getD it 0) < 256 :=
    Nat.and_lt_two_pow (n := 8) _ (by decide)
  have hsrc : (halfIndex a + 2 ^ 32 - itemTap (words.getD it 0)) % 2 ^ 32 &&&
      (circulantHalf - 1) = 63 := by
    rw [Nat.and_two_pow_sub_one_eq_mod _ 6, hidx]
    omega
  rw [hsrc, hbasea] at hladder
  generalize itemPosition (words.getD it 0) = d at hplace hladder ⊢
  have hle := hsound.inside _ hladder
  simp only [circulantSize, ladderPositions, affineWords] at hle ⊢
  rw [uint32_of_lt (by omega)] at hle
  have hladderBytes : bufferBytes tables B .ladderAff = B * 128 * 32 * 24 * 4 :=
    createBytes_of_pos (show 0 < B * 128 * 32 * 24 * 4 by omega)
  rw [hladderBytes] at hle
  omega

/-- The split pass of a batch as large as the prover allows. What comes before it is sound, so it
finds the lists of the tables. -/
theorem BatchesSound.split {opts : Option UInt32} {cores : ℕ} {granted : Bool} {sub : Submission}
    (h : BatchesSound tables p m)
    (hcreate : createProver tables opts cores granted sub m₀ = .ok (p, m)) :
    ∃ m', (∀ b : Buf, b.isKernelList = true → m' b = uploadTables tables m₀ b) ∧
      Sound (bufferBytes tables p.maxBatch) Buf.perBlob p.maxBatch uint32 m'
        (phaseBDispatch p.maxBatch) := by
  obtain ⟨hcompute, -⟩ := h p.maxBatch le_rfl m (fun _ _ => rfl) undisturbed
  have hall := hcompute fun _ => 0
  unfold computeCommands at hall
  obtain ⟨hbefore, hphaseB⟩ := soundAll_append.mp (soundAll_append.mp hall.each).1
  rw [hbefore.runAll] at hphaseB
  have hsplit : phaseB p.gpuTotalCores (undisturbed.subgroup 1) p.maxBatch =
      [ladderDispatch p.maxBatch, foldLadderDispatch p.maxBatch, normalizeLadder p.maxBatch] ++
        [phaseBDispatch p.maxBatch, recordReduce p.gpuTotalCores (undisturbed.subgroup 1) .points
          circulantSize p.maxBatch, combineDispatch p.maxBatch] := rfl
  rw [hsplit] at hphaseB
  obtain ⟨hladders, hpass, -⟩ := soundAll_append.mp hphaseB
  rw [hladders.runAll] at hpass
  refine ⟨_, fun b hb => ?_, hpass⟩
  have hsetup := isSetup_of_isKernelList hb
  exact (frame_ladders hsetup).trans ((frame_beforePhaseB hsetup).trans
    ((computeStart_setup hsetup).trans (createProver_lists hcreate hb)))

theorem listsSafe_of_sound {divided : Buf → Bool} {B : ℕ} (hsized : Sized tables) (hB : B ≤ 7281)
    (hpos : 0 < B) (hm : ∀ b : Buf, b.isKernelList = true → m b = uploadTables tables m₀ b)
    (hsound : Sound (bufferBytes tables B) divided B uint32 m (phaseBDispatch B)) :
    ListsSafe tables m₀ where
  plus := by
    refine listSafe_of_sound hB hpos hsound (fun aa haa => ?_) (by decide) hsized.offsetsPlus
      hsized.permPlus
    have hnot : ¬aa ≥ circulantHalf := Nat.not_le_of_lt haa
    refine ⟨aa, haa.trans (by decide), if_neg hnot, if_neg hnot, ?_⟩
    rw [listsOf, if_neg hnot]
    exact ⟨wordsHold_plus hm, createBytes_of_pos
      (show 0 < tables.kernelOffsetsPlus.length * 4 by rw [hsized.offsetsPlus]; decide),
      length_bufferWords.symm⟩
  minus := by
    refine listSafe_of_sound hB hpos hsound (fun aa haa => ?_) le_rfl hsized.offsetsMinus
      hsized.permMinus
    have hge : aa + 64 ≥ circulantHalf := Nat.le_add_left 64 aa
    have haa' : aa < 64 := haa
    refine ⟨aa + 64, ?_, ?_, if_pos hge, ?_⟩
    · simp only [circulantSize]
      omega
    · rw [halfIndex, if_pos hge]
      exact Nat.add_sub_cancel aa 64
    · rw [listsOf, if_pos hge]
      exact ⟨wordsHold_minus hm, createBytes_of_pos
        (show 0 < tables.kernelOffsetsMinus.length * 4 by rw [hsized.offsetsMinus]; decide),
      length_bufferWords.symm⟩

end Batches

/-- The indices of all dispatches are exact, in bounds and apart for different blobs exactly when the
words of the buckets have 32-bit indices and the kernel lists name what is there. Creation accepts
larger batches, and any lists. The scratch of the normalizations is divided by each of them anew. -/
theorem batchesSound_iff {env : Option File} {build install : File} {out tables : PrecomputedTables}
    (hload : loadPrecomputedTables env build install out = (.ok, tables)) {opts : Option UInt32}
    {cores : ℕ} {sub : Submission} {m₀ m : Mem} {p : Prover}
    (hcreate : createProver tables opts cores true sub m₀ = .ok (p, m)) :
    BatchesSound tables p m ↔ batchOption opts ≤ 7281 ∧ ListsSafe tables m₀ := by
  have hbatch : p.maxBatch = batchOption opts := by rw [(createProver_ok hcreate).1]
  obtain ⟨f, -, hf⟩ := parsed_of_load hload
  have hsized : Sized tables := hf ▸ sized_parsed
  rw [← hbatch]
  constructor
  · intro h
    obtain ⟨m', hm', hsound⟩ := h.split hcreate
    have hsmall : p.maxBatch ≤ 7281 := by
      by_contra hlarge
      exact phaseBDispatch_unsound (Nat.lt_of_not_le hlarge) hsound
    exact ⟨hsmall, listsSafe_of_sound hsized hsmall p.maxBatch_pos hm' hsound⟩
  · rintro ⟨hsmall, hsafe⟩ batch hle m' hkeep s
    have hlists : ∀ blobs, ∀ b : Buf, b.isKernelList = true →
        computeStart m' blobs batch b = uploadTables tables m₀ b := fun blobs b hb => by
      have hsetup := isSetup_of_isKernelList hb
      rw [computeStart_setup hsetup, hkeep b hsetup, createProver_lists hcreate hb]
    exact ⟨fun blobs => computeCommands_sound hsized hsafe (hlists blobs) hsmall hle s,
      fun cells cellPresent hmissing => recoverCommands_sound hsized hsmall hle hmissing⟩

theorem load_accepted {f : List UInt8} (h : Accepted f) (out : PrecomputedTables) :
    loadPrecomputedTables none (some f) none out = (.ok, parsed f) := by
  simp only [loadPrecomputedTables, tryLoad, loadFrom_accepted h, if_true]

theorem createProver_completed (tables : PrecomputedTables) (opts : Option UInt32) : ∃ p m,
    createProver tables opts 0 true .completed (fun _ _ => 0) = .ok (p, m) := ⟨_, _, rfl⟩

/-- A prover of the default batch size. -/
theorem batchesSound_default : ∃ p m,
    createProver (parsed idleFile) none 0 true .completed (fun _ _ => 0) = .ok (p, m) ∧
      BatchesSound (parsed idleFile) p m := by
  obtain ⟨p, m, h⟩ := createProver_completed (parsed idleFile) none
  have hsafe : ListsSafe (parsed idleFile) fun _ _ => 0 :=
    ⟨tablesWf_idleFile.plus.safe (by decide), tablesWf_idleFile.minus.safe le_rfl⟩
  exact ⟨p, m, h, (batchesSound_iff (load_accepted accepted_idleFile emptyTables) h).mpr
    ⟨by decide, hsafe⟩⟩

/-- A prover for 7282 blobs. -/
theorem batchesSound_fails : ∃ tables p m,
    loadPrecomputedTables none (some idleFile) none emptyTables = (.ok, tables) ∧
      createProver tables (some 7282) 0 true .completed (fun _ _ => 0) = .ok (p, m) ∧
      ¬BatchesSound tables p m := by
  obtain ⟨p, m, h⟩ := createProver_completed (parsed idleFile) (some 7282)
  have hbatch : 7281 < p.maxBatch := by
    rw [(createProver_ok h).1]
    decide
  refine ⟨parsed idleFile, p, m, load_accepted accepted_idleFile emptyTables, h, fun hsound => ?_⟩
  obtain ⟨m', -, hpass⟩ := hsound.split h
  exact phaseBDispatch_unsound hbatch hpass

end Vkzg
