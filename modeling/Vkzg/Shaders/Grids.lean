import Vkzg.Library.Races
import Vkzg.Shaders.Footprints
import Vkzg.Shaders.Recovery

/-! The dispatches as grids of the units that run by themselves: a thread where the threads of a
workgroup do not wait for each other, else a workgroup. No grid races. -/

namespace Vkzg
open Radix Gpu Gpu.Kernel BitReversal

variable {u : ℕ → ℕ} {m : Mem} {batch : ℕ}

/-! ### Loads and stores -/

section Accesses
variable {flag out : Buf → Bool} {own : Buf → ℕ → ℕ → Prop} {buf : Buf} {off n : ℕ}

theorem keeps_limbsLoad (hflag : flag buf = false)
    (h : out buf = true → ∀ k < n, own buf 4 (u (off + k))) :
    Keeps flag out own u m (limbsLoad n buf off) :=
  keeps_loadWords (fun _ _ h => Limbs.ofFn_congr fun k hk => by rw [h k hk]) hflag h

theorem keeps_limbsStore {a : Limbs n} (hflag : flag buf = false) (hout : out buf = true)
    (h : ∀ k < n, own buf 4 (u (off + k))) : Keeps flag out own u m (limbsStore buf off a) :=
  keeps_storeWords hflag hout h

theorem keeps_g1Load (hflag : flag buf = false) (hout : out buf = false) :
    Keeps flag out own u m (g1Load buf off) := by
  have hnot : out buf = true → ∀ off, ∀ k < 12, own buf 4 (u (off + k)) := fun h =>
    absurd (hout.symm.trans h) (by decide)
  exact keeps_bind (keeps_limbsLoad hflag fun h => hnot h _) (keeps_bind
    (keeps_limbsLoad hflag fun h => hnot h _) (keeps_bind (keeps_limbsLoad hflag fun h => hnot h _)
      (keeps_pure _)))

theorem keeps_g1aLoad (hflag : flag buf = false) (hout : out buf = false) :
    Keeps flag out own u m (g1aLoad buf off) := by
  have hnot : out buf = true → ∀ off, ∀ k < 12, own buf 4 (u (off + k)) := fun h =>
    absurd (hout.symm.trans h) (by decide)
  exact keeps_bind (keeps_limbsLoad hflag fun h => hnot h _) (keeps_bind
    (keeps_limbsLoad hflag fun h => hnot h _) (keeps_pure _))

theorem keeps_g1Store {a : G1} (hflag : flag buf = false) (hout : out buf = true)
    (h : ∀ k < 36, own buf 4 (u (off + k))) : Keeps flag out own u m (g1Store buf off a) := by
  refine keeps_bind (keeps_limbsStore hflag hout fun k hk => h k (by omega)) (keeps_bind
    (keeps_limbsStore hflag hout fun k hk => ?_) (keeps_limbsStore hflag hout fun k hk => ?_))
  · rw [add_assoc]
    exact h (12 + k) (by omega)
  · rw [add_assoc]
    exact h (2 * 12 + k) (by omega)

theorem keeps_g1aStore {a : G1A} (hflag : flag buf = false) (hout : out buf = true)
    (h : ∀ k < 24, own buf 4 (u (off + k))) : Keeps flag out own u m (g1aStore buf off a) := by
  refine keeps_bind (keeps_limbsStore hflag hout fun k hk => h k (by omega))
    (keeps_limbsStore hflag hout fun k hk => ?_)
  rw [add_assoc]
  exact h (12 + k) (by omega)

theorem keeps_limbBytesStore {a : Limbs n} (hflag : flag buf = false) (hout : out buf = true)
    (h : ∀ k < n * 4, own buf 1 (u (off + k))) : Keeps flag out own u m (limbBytesStore buf off a) := by
  refine keeps_each fun limb hlimb => keeps_each fun t ht => keeps_store hflag hout (h _ ?_)
  have := List.mem_range.mp hlimb
  have := List.mem_range.mp ht
  omega

end Accesses

/-! ### Elements by the unit that stores them -/

/-- No buffer is a flag. -/
def noFlag (_ : Buf) : Bool := false

/-- The buffer a grid stores to. -/
def only (buf b : Buf) : Bool := b == buf

/-- The item and the column of the unit that stores word `n`, where each item has `N` elements of `W`
words and column `pos e` stores element `e`. -/
def slotKey (W N : ℕ) (pos : ℕ → ℕ) (n : ℕ) : ℕ × ℕ := (n / W / N, pos (n / W % N))

theorem slotKey_eq {W N b e k : ℕ} (pos : ℕ → ℕ) (hu : ∀ n < batch * (N * W), u n = n)
    (hb : b < batch) (he : e < N) (hk : k < W) :
    slotKey W N pos (u ((b * N + e) * W + k)) = (b, pos e) := by
  have hlt : (b * N + e) * W + k < batch * (N * W) := by
    rw [← Nat.mul_assoc]
    exact block_lt (block_lt hb he) hk
  rw [hu _ hlt, slotKey, block_div hk, block_div he, Nat.mul_add_mod_of_lt he]

/-- The words of the elements that column `i` of row `b` stores. -/
def slotOwn (w W N : ℕ) (pos : ℕ → ℕ) (b i : ℕ) (_ : Buf) (w' n : ℕ) : Prop :=
  w' = w ∧ slotKey W N pos n = (b, i)

theorem raceFree_slots {g : Grid Buf} (flag : Buf → Bool) (buf : Buf) (w W N : ℕ) (pos : ℕ → ℕ)
    (h : ∀ b < g.rows, ∀ i < g.cols,
      Keeps flag (only buf) (slotOwn w W N pos b i) u m (g.unit b i)) :
    RaceFree u g.units g.main m :=
  Grid.raceFree flag (only buf) (fun _ => w) (fun _ => slotKey W N pos) id (fun _ _ _ _ h => h) h

/-! ### Field elements in bytes -/

def blobToFrGrid (batch : ℕ) : Grid Buf :=
  lanes 256 (fun wg b tid => blobToFrThread b (wg * 256 + tid)) (fieldElementsPerBlob / 256) batch

def cellsToFrGrid (batch : ℕ) : Grid Buf :=
  lanes 256 (fun wg b tid => cellsToFrThread .recBrp .recScratch b (wg * 256 + tid))
    (fieldElementsPerExtBlob / 256) batch

def frToCellsGrid (batch : ℕ) : Grid Buf :=
  lanes 256 (fun wg b tid => frToCellsThread .recOut .recPFull b (wg * 256 + tid))
    (fieldElementsPerExtBlob / 256) batch

theorem raceFree_blobToFr (hu : ∀ n < batch * (4096 * 8), u n = n) (h0 : u 0 = 0) :
    RaceFree u (blobToFrGrid batch).units (blobToFrGrid batch).main m := by
  refine raceFree_slots (only .err) .lagrange 4 8 4096 (brev · 12) fun b hb i hi => ?_
  have hi : i < 2 ^ 12 := hi
  have hrev : brev i 12 < 4096 := brev_lt (L := 12) (by decide)
  show Keeps _ _ _ _ _ (blobToFrThread b (i / 256 * 256 + i % 256))
  rw [Nat.div_add_mod']
  refine keeps_bind (keeps_loadWords (fun _ _ => frOfBytes_congr) rfl nofun) (keeps_bind ?_
    (keeps_limbsStore rfl rfl fun k hk => ⟨rfl, ?_⟩))
  · unfold reportNonCanonical
    split_ifs
    · exact keeps_pure ()
    · exact keeps_atomicOr rfl h0
  · exact (slotKey_eq (brev · 12) hu hb hrev hk).trans (congrArg (b, ·) (brev_brev (by decide) hi))

theorem raceFree_cellsToFr (hu : ∀ n < batch * (8192 * 8), u n = n) :
    RaceFree u (cellsToFrGrid batch).units (cellsToFrGrid batch).main m := by
  refine raceFree_slots noFlag .recBrp 4 8 8192 (brev · 13) fun b hb i hi => ?_
  have hi : i < 2 ^ 13 := hi
  have hrev : brev i 13 < 8192 := brev_lt (L := 13) (by decide)
  show Keeps _ _ _ _ _ (cellsToFrThread .recBrp .recScratch b (i / 256 * 256 + i % 256))
  rw [Nat.div_add_mod', cellsToFrThread, if_neg (show ¬i ≥ fieldElementsPerExtBlob from Nat.not_le.mpr hi)]
  refine keeps_bind (keeps_loadWords (fun _ _ => frOfBytes_congr) rfl fun h => absurd h (by decide))
    (keeps_limbsStore rfl rfl fun k hk => ⟨rfl, ?_⟩)
  exact (slotKey_eq (brev · 13) hu hb hrev hk).trans (congrArg (b, ·) (brev_brev (by decide) hi))

theorem raceFree_frToCells (hu : ∀ n < batch * (8192 * 32), u n = n) :
    RaceFree u (frToCellsGrid batch).units (frToCellsGrid batch).main m := by
  refine raceFree_slots noFlag .recOut 1 32 8192 (brev · 13) fun b hb i hi => ?_
  have hi : i < 2 ^ 13 := hi
  have hrev : brev i 13 < 8192 := brev_lt (L := 13) (by decide)
  show Keeps _ _ _ _ _ (frToCellsThread .recOut .recPFull b (i / 256 * 256 + i % 256))
  rw [Nat.div_add_mod', frToCellsThread, if_neg (show ¬i ≥ fieldElementsPerExtBlob from Nat.not_le.mpr hi)]
  refine keeps_bind (keeps_limbsLoad rfl fun h => absurd h (by decide))
    (keeps_limbBytesStore rfl rfl fun k hk => ⟨rfl, ?_⟩)
  exact (slotKey_eq (brev · 13) hu hb hrev hk).trans (congrArg (b, ·) (brev_brev (by decide) hi))

/-! ### Products -/

def ewMulGrid (out aBuf bBuf : Buf) (bMode : EwMulBMode) (batch : ℕ) : Grid Buf :=
  lanes 256 (fun wg b tid => ewMulThread out aBuf bBuf bMode b (wg * 256 + tid))
    (fieldElementsPerExtBlob / 256) batch

def ewDivGrid (out aBuf bBuf : Buf) (batch : ℕ) : Grid Buf :=
  lanes 256 (fun wg b tid => ewDivThread out aBuf bBuf b (wg * 256 + tid))
    (fieldElementsPerExtBlob / 256) batch

/-- The product may take the place of a factor that is read at the same index. -/
theorem raceFree_ewMul {out aBuf bBuf : Buf} {bMode : EwMulBMode}
    (hb : bMode = .batched ∨ bBuf ≠ out) (hu : ∀ n < batch * (8192 * 8), u n = n) :
    RaceFree u (ewMulGrid out aBuf bBuf bMode batch).units (ewMulGrid out aBuf bBuf bMode batch).main
      m := by
  refine raceFree_slots noFlag out 4 8 8192 id fun b hb' i hi => ?_
  have hi : i < 8192 := hi
  show Keeps _ _ _ _ _ (ewMulThread out aBuf bBuf bMode b (i / 256 * 256 + i % 256))
  rw [Nat.div_add_mod', ewMulThread, if_neg (Nat.not_le.mpr hi)]
  have hown : ∀ buf, ∀ k < 8, slotOwn 4 8 8192 id b i buf 4 (u ((b * 8192 + i) * 8 + k)) :=
    fun _ k hk => ⟨rfl, slotKey_eq id hu hb' hi hk⟩
  refine keeps_bind (keeps_limbsLoad rfl fun _ => hown aBuf) (keeps_bind
    (keeps_limbsLoad rfl fun hout => ?_) (keeps_limbsStore rfl (beq_self_eq_true out) (hown out)))
  rcases hb with rfl | hne
  · exact hown bBuf
  · exact absurd (eq_of_beq hout) hne

theorem raceFree_ewDiv {out aBuf bBuf : Buf} (hu : ∀ n < batch * (8192 * 8), u n = n) :
    RaceFree u (ewDivGrid out aBuf bBuf batch).units (ewDivGrid out aBuf bBuf batch).main m := by
  refine raceFree_slots noFlag out 4 8 8192 id fun b hb i hi => ?_
  have hi : i < 8192 := hi
  show Keeps _ _ _ _ _ (ewDivThread out aBuf bBuf b (i / 256 * 256 + i % 256))
  rw [Nat.div_add_mod', ewDivThread, if_neg (Nat.not_le.mpr hi)]
  have hown : ∀ buf, ∀ k < 8, slotOwn 4 8 8192 id b i buf 4 (u ((b * 8192 + i) * 8 + k)) :=
    fun _ k hk => ⟨rfl, slotKey_eq id hu hb hi hk⟩
  exact keeps_bind (keeps_limbsLoad rfl fun _ => hown aBuf) (keeps_bind
    (keeps_limbsLoad rfl fun _ => hown bBuf)
    (keeps_limbsStore rfl (beq_self_eq_true out) (hown out)))

/-! ### Points -/

/-- The thread of point `j`. -/
def ladderThread (b j : ℕ) : Shader Unit := do
  let acc ← g1Load .points ((b * circulantSize + j) * jacobianWords)
  each (List.range ladderPositions) fun d => g1Store .ladderJac
    (((b * circulantSize + j) * ladderPositions + d) * jacobianWords) (ladderPoint acc d)

/-- The thread of outputs `a` and `a + circulantHalf`. -/
def combineThread (b a : ℕ) : Shader Unit := do
  let cp ← g1Load .points ((b * circulantSize + a) * jacobianWords)
  let cm ← g1Load .points ((b * circulantSize + a + circulantHalf) * jacobianWords)
  g1Store .proofs ((b * circulantSize + a) * jacobianWords) (g1Add cp cm)
  g1Store .proofs ((b * circulantSize + a + circulantHalf) * jacobianWords) (g1Sub cp cm)

def ladderGrid (batch : ℕ) : Grid Buf :=
  lanes 32 (fun wg b tid => ladderThread b (wg * 32 + tid)) (circulantSize / 32) batch

def foldLadderGrid (batch : ℕ) : Grid Buf :=
  lanes 128 (fun wg b tid => foldThread b (wg * 128 + tid)) (circulantHalf * ladderPositions / 128)
    batch

def combineGrid (batch : ℕ) : Grid Buf :=
  lanes circulantHalf (fun _ b a => combineThread b a) 1 batch

def compressGrid (batch : ℕ) : Grid Buf :=
  lanes 64 (fun wg b tid => compressThread .proofBytes .proofsAff b (wg * 64 + tid))
    (circulantSize / 64) batch

theorem raceFree_ladder (hu : ∀ n < batch * (4096 * 36), u n = n) :
    RaceFree u (ladderGrid batch).units (ladderGrid batch).main m := by
  refine raceFree_slots noFlag .ladderJac 4 36 4096 (· / 32) fun b hb j hj => ?_
  have hj : j < 128 := hj
  show Keeps _ _ _ _ _ (ladderThread b (j / 32 * 32 + j % 32))
  rw [Nat.div_add_mod']
  refine keeps_bind (keeps_g1Load rfl rfl) (keeps_each fun d hd =>
    keeps_g1Store rfl rfl fun k hk => ⟨rfl, ?_⟩)
  have hd : d < 32 := List.mem_range.mp hd
  have hindex : (b * circulantSize + j) * ladderPositions + d = b * 4096 + (j * 32 + d) := by
    simp only [circulantSize, ladderPositions]
    ring
  rw [hindex]
  exact (slotKey_eq (· / 32) hu hb (show j * 32 + d < 4096 by omega) hk).trans
    (congrArg (b, ·) (block_div hd))

theorem raceFree_foldLadder (hu : ∀ n < batch * (4096 * 36), u n = n) :
    RaceFree u (foldLadderGrid batch).units (foldLadderGrid batch).main m := by
  refine raceFree_slots noFlag .ladderJacFolded 4 36 4096 (· % 2048) fun b hb i hi => ?_
  have hi : i < 2048 := hi
  show Keeps _ _ _ _ _ (foldThread b (i / 128 * 128 + i % 128))
  rw [Nat.div_add_mod']
  have hown : ∀ h, ∀ k < 36, h < 2 → slotOwn 4 36 4096 (· % 2048) b i .ladderJacFolded 4
      (u ((b * 4096 + (h * 2048 + i)) * 36 + k)) := fun h k hk hh =>
    ⟨rfl, (slotKey_eq (· % 2048) hu hb (block_lt hh hi) hk).trans
      (congrArg (b, ·) (Nat.mul_add_mod_of_lt hi))⟩
  have hindex : ∀ h, b * 128 * 32 * 36 + ((i / 32 + h * 64) * 32 + i % 32) * 36 =
      (b * 4096 + (h * 2048 + i)) * 36 := fun h => by omega
  have hlow := hindex 0
  have hhigh := hindex 1
  rw [Nat.zero_mul, Nat.add_zero] at hlow
  rw [Nat.one_mul] at hhigh
  unfold foldThread
  simp only [ladderPositions, circulantHalf, circulantSize, jacobianWords]
  rw [hlow, hhigh]
  exact keeps_bind (keeps_g1Load rfl rfl) (keeps_bind (keeps_g1Load rfl rfl) (keeps_bind
    (keeps_g1Store rfl rfl fun k hk => hown 0 k hk (by decide))
    (keeps_g1Store rfl rfl fun k hk => hown 1 k hk (by decide))))

theorem raceFree_combine (hu : ∀ n < batch * (128 * 36), u n = n) :
    RaceFree u (combineGrid batch).units (combineGrid batch).main m := by
  refine raceFree_slots noFlag .proofs 4 36 128 (· % 64) fun b hb a ha => ?_
  have ha : a < 64 := ha
  show Keeps _ _ _ _ _ (combineThread b (a % 64))
  rw [Nat.mod_eq_of_lt ha]
  refine keeps_bind (keeps_g1Load rfl rfl) (keeps_bind (keeps_g1Load rfl rfl) (keeps_bind
    (keeps_g1Store rfl rfl fun k hk => ⟨rfl, ?_⟩) (keeps_g1Store rfl rfl fun k hk => ⟨rfl, ?_⟩)))
  · exact (slotKey_eq (· % 64) hu hb (by omega) hk).trans (congrArg (b, ·) (Nat.mod_eq_of_lt ha))
  · rw [Nat.add_assoc]
    exact (slotKey_eq (· % 64) hu hb (show a + 64 < 128 by omega) hk).trans
      (congrArg (b, ·) (by omega))

theorem keeps_compressProof {own : Buf → ℕ → ℕ → Prop} {out : Buf} {obase : ℕ} {p : G1A}
    (h : ∀ k < 48, own out 1 (u (obase + k))) :
    Keeps noFlag (only out) own u m (compressProof out obase p) := by
  have hout : only out out = true := beq_self_eq_true out
  have h0 : own out 1 (u obase) := h 0 (by decide)
  unfold compressProof
  split_ifs
  · exact keeps_bind (keeps_storeWords rfl hout h) (keeps_store rfl hout h0)
  · exact keeps_bind (keeps_limbBytesStore rfl hout h) (keeps_bind
      (keeps_reload rfl fun k hk => h k (by omega)) (keeps_store rfl hout h0))

theorem raceFree_compress (hu : ∀ n < batch * (128 * 48), u n = n) :
    RaceFree u (compressGrid batch).units (compressGrid batch).main m := by
  refine raceFree_slots noFlag .proofBytes 1 48 128 (brev · 7) fun b hb i hi => ?_
  have hi : i < 2 ^ 7 := hi
  have hrev : brev i 7 < 128 := brev_lt (L := 7) (by decide)
  show Keeps _ _ _ _ _ (compressThread .proofBytes .proofsAff b (i / 64 * 64 + i % 64))
  rw [Nat.div_add_mod']
  have hown : ∀ k < 48, slotOwn 1 48 128 (brev · 7) b i .proofBytes 1
      (u ((b * 128 + brev i 7) * 48 + k)) := fun k hk =>
    ⟨rfl, (slotKey_eq (brev · 7) hu hb hrev hk).trans
      (congrArg (b, ·) (brev_brev (by decide) hi))⟩
  exact keeps_bind (keeps_g1aLoad rfl rfl) (keeps_compressProof hown)

/-! ### Chunks of points -/

/-- The thread of chunk `gid`. -/
def normalizeThread (perBlob : ℕ) (pc : NormalizePC) (gid : ℕ) : Shader Unit := do
  let lo ← uint (gid * pc.chunk)
  let next ← uint (lo + pc.chunk)
  normalizeChunk perBlob pc lo next

def normalizeGrid (perBlob : ℕ) (outAffine inJacobian : Buf) (count chunk : ℕ) : Grid Buf :=
  lanes 64 (fun wg _ tid => normalizeThread perBlob ⟨outAffine, inJacobian, count, chunk⟩
    (wg * 64 + tid)) (((count + chunk - 1) / chunk + 63) / 64) 1

section Normalize
variable {own : Buf → ℕ → ℕ → Prop} {pc : NormalizePC} {perBlob : ℕ}

/-- The buffers a normalization stores to. -/
def normalized (outAffine b : Buf) : Bool := b == .normScratch || b == outAffine

theorem keeps_normalizePoint {z : ℕ → Fp} {n lo k : ℕ} {zk : Fp}
    (hinp : normalized pc.outAffine pc.inJacobian = false)
    (hscratch : ∀ t < 12, own .normScratch 4 (u ((lo + k) * 12 + t)))
    (hout : ∀ t < 24, own pc.outAffine 4 (u ((lo + k) * 24 + t))) :
    Keeps noFlag (normalized pc.outAffine) own u m (normalizePoint pc z n lo k zk) := by
  have hstored : normalized pc.outAffine pc.outAffine = true := by simp [normalized]
  have hread : ∀ off, Keeps noFlag (normalized pc.outAffine) own u m (fpLoad pc.inJacobian off) :=
    fun off => keeps_limbsLoad rfl fun h => absurd (hinp.symm.trans h) (by decide)
  unfold normalizePoint
  split_ifs
  · exact keeps_storeWords rfl hstored hout
  · exact keeps_bind (keeps_reload rfl hscratch) (keeps_bind (hread _) (keeps_bind (hread _)
      (keeps_g1aStore rfl hstored hout)))

theorem keeps_normalizeChunk {lo next : ℕ} (hinp : normalized pc.outAffine pc.inJacobian = false)
    (hscratch : ∀ i, lo ≤ i → i < min next pc.count → ∀ t < 12, own .normScratch 4 (u (i * 12 + t)))
    (hout : ∀ i, lo ≤ i → i < min next pc.count → ∀ t < 24, own pc.outAffine 4 (u (i * 24 + t))) :
    Keeps noFlag (normalized pc.outAffine) own u m (normalizeChunk perBlob pc lo next) := by
  have hread : ∀ off, Keeps noFlag (normalized pc.outAffine) own u m (fpLoad pc.inJacobian off) :=
    fun off => keeps_limbsLoad rfl fun h => absurd (hinp.symm.trans h) (by decide)
  have hlt : ∀ k < min next pc.count - lo, lo + k < min next pc.count := fun k hk => by omega
  unfold normalizeChunk
  split_ifs
  · refine keeps_bind (keeps_gather fun k _ => keeps_owned (hread _)) (keeps_bind
      (keeps_each fun k hk => keeps_owned ?_) (keeps_each fun k hk => keeps_owned ?_))
    · exact keeps_limbsStore rfl rfl
        (hscratch _ (Nat.le_add_right lo k) (hlt k (List.mem_range.mp hk)))
    · have hk := hlt k (List.mem_range.mp (List.mem_reverse.mp hk))
      exact keeps_bind (hread _) (keeps_normalizePoint hinp
        (hscratch _ (Nat.le_add_right lo k) hk) (hout _ (Nat.le_add_right lo k) hk))
  · exact keeps_pure ()

end Normalize

/-- Each thread keeps to the points of its chunk. -/
theorem raceFree_normalize {perBlob count chunk : ℕ} {outAffine inJacobian : Buf}
    (hinp : normalized outAffine inJacobian = false) (hne : outAffine ≠ .normScratch)
    (hwords : ∀ n < 24 * count, u n = n) (hspan : ∀ n ≤ count + 64 * chunk, u n = n) :
    RaceFree u (normalizeGrid perBlob outAffine inJacobian count chunk).units
      (normalizeGrid perBlob outAffine inJacobian count chunk).main m := by
  refine Grid.raceFree noFlag (normalized outAffine) (fun _ => 4)
    (fun buf n => n / (if buf = .normScratch then 12 else 24) / chunk) Prod.snd
    (fun i hi j hj h => ?_) fun y hy gid hgid => ?_
  · have hi : i.1 < 1 := (Grid.mem_units.mp hi).1
    have hj : j.1 < 1 := (Grid.mem_units.mp hj).1
    exact Prod.ext (by omega) h
  · have hlast := @thread_bound count chunk (gid / 64) (gid % 64)
      (Nat.div_lt_of_lt_mul (by rwa [Nat.mul_comm])) (Nat.mod_lt _ (by decide))
    show Keeps _ _ _ _ _ (normalizeThread perBlob _ (gid / 64 * 64 + gid % 64))
    rw [Nat.div_add_mod'] at hlast ⊢
    have hchunk : ∀ i, gid * chunk ≤ i → i < min (gid * chunk + chunk) count → i / chunk = gid :=
      fun i hlo hhi => by
        obtain ⟨k, rfl⟩ := Nat.exists_eq_add_of_le hlo
        exact block_div (by omega)
    refine keeps_bind (keeps_uint _) (keeps_bind (keeps_uint _) ?_)
    have hlo : (uint (gid * chunk) : Shader ℕ).val u m = gid * chunk := hspan _ (by omega)
    have hnext : (uint (gid * chunk + chunk) : Shader ℕ).val u m = gid * chunk + chunk :=
      hspan _ hlast
    simp only [hlo, hnext]
    refine @keeps_normalizeChunk u m _ ⟨outAffine, inJacobian, count, chunk⟩ _ _ _ hinp
      (fun i hle hlt t ht => ⟨rfl, ?_⟩)
      fun i hle hlt t ht => ⟨rfl, ?_⟩
    · have hcount : i < count := hlt.trans_le (min_le_right _ _)
      rw [hwords _ (by omega), if_pos rfl, block_div ht]
      exact hchunk i hle hlt
    · have hcount : i < count := hlt.trans_le (min_le_right _ _)
      rw [hwords _ (by omega), if_neg hne, block_div ht]
      exact hchunk i hle hlt

/-! ### Transforms -/

section Transforms
variable {out : Buf → Bool} {own : Buf → ℕ → ℕ → Prop} {roots : Buf}

theorem keeps_butterflyStage (hroots : out roots = false) (n rootStride len : ℕ) (tile : ℕ → Fr) :
    Keeps noFlag out own u m (butterflyStage roots n rootStride tile len) :=
  keeps_bind (keeps_gather fun _ _ => keeps_bind
    (keeps_limbsLoad rfl fun h => absurd (hroots.symm.trans h) (by decide)) (keeps_pure _))
    (keeps_pure _)

theorem keeps_nttTile {pc : NttPC} {shared : ℕ → Fr} {t b : ℕ} (hinp : out pc.inp = false)
    (hroots : out pc.roots = false) : Keeps noFlag out own u m (nttTile pc shared t b) :=
  keeps_bind (keeps_gather fun _ _ => keeps_bind
    (keeps_limbsLoad rfl fun h => absurd (hinp.symm.trans h) (by decide)) (keeps_pure _))
    (keeps_foldlM (fun tile len _ => keeps_butterflyStage hroots _ _ len tile) _)

theorem keeps_nttResult {pc : NttPC} {tile : ℕ → Fr} {t tid : ℕ} (hroots : out pc.roots = false) :
    Keeps noFlag out own u m (nttResult pc tile t tid) := by
  unfold nttResult
  by_cases h0 : pc.twiddleStride ≠ 0
  · simp only [if_pos h0]
    exact keeps_bind (keeps_limbsLoad rfl fun h => absurd (hroots.symm.trans h) (by decide))
      (keeps_bind (keeps_pure _) (keeps_pure _))
  · simp only [if_neg h0]
    exact keeps_bind (keeps_pure _) (keeps_pure _)

theorem keeps_circulantEntry {polyBuf : Buf} {i b tid : ℕ} (hpoly : out polyBuf = false) :
    Keeps noFlag out own u m (circulantEntry polyBuf i b tid) := by
  have hload : ∀ off, Keeps noFlag out own u m (frLoad polyBuf off) := fun off =>
    keeps_limbsLoad rfl fun h => absurd (hpoly.symm.trans h) (by decide)
  unfold circulantEntry
  split_ifs
  · exact hload _
  · exact hload _
  · exact keeps_pure _

theorem keeps_circulantTile {polyBuf : Buf} {shared : ℕ → Fr} {i b : ℕ}
    (hpoly : out polyBuf = false) (hroots : out roots = false) :
    Keeps noFlag out own u m (circulantTile polyBuf roots shared i b) :=
  keeps_bind (keeps_gather fun _ _ => keeps_bind (keeps_circulantEntry hpoly) (keeps_pure _))
    (keeps_foldlM (fun tile len _ => keeps_butterflyStage hroots _ _ len tile) _)

end Transforms

def nttGrid (out inp roots : Buf) (params : NttParams) (count batch : ℕ)
    (shared : ℕ → ℕ → ℕ → Fr) : Grid Buf :=
  groups (fun t b => kNttPass ⟨params, out, inp, roots⟩ (shared t b) t b) count batch

/-- Both passes of a transform of size `N1 * N2`. -/
def fourStepGrids (mid out inp roots : Buf) (N1 N2 inBatch midBatch outBatch scale : ℕ)
    (scaleVal : Fr) (batch : ℕ) (shared₁ shared₂ : ℕ → ℕ → ℕ → Fr) : List (Grid Buf) :=
  [nttGrid mid inp roots (nttPass1 (N1 * N2) N1 N2 inBatch midBatch) N2 batch shared₁,
   nttGrid out mid roots
     { nttPass2 (N1 * N2) N1 N2 midBatch outBatch with scale := scale, scaleVal := scaleVal }
     N1 batch shared₂]

def buildCirculantGrid (shared : ℕ → ℕ → ℕ → Fr) (batch : ℕ) : Grid Buf :=
  groups (fun i b => kBuildCirculant .coeffs .polyExt .rootsFwd (shared i b) i b) phaseATerms batch

/-- Both passes store output `t + tid * count` in group `t`. -/
theorem raceFree_ntt {out inp roots : Buf} {params : NttParams} {count : ℕ}
    {shared : ℕ → ℕ → ℕ → Fr} (hinp : inp ≠ out) (hroots : roots ≠ out)
    (hT : params.outStrideT = 1) (hI : params.outStrideI = count)
    (hsize : params.n * count ≤ params.outBatch) (hu : ∀ n < batch * (params.outBatch * 8), u n = n) :
    RaceFree u (nttGrid out inp roots params count batch shared).units
      (nttGrid out inp roots params count batch shared).main m := by
  refine raceFree_slots noFlag out 4 8 params.outBatch (· % count) fun b hb t ht => ?_
  have ht : t < count := ht
  refine keeps_bind (keeps_nttTile (beq_false_of_ne hinp) (beq_false_of_ne hroots))
    (keeps_each fun tid htid => keeps_bind (keeps_nttResult (beq_false_of_ne hroots))
      (keeps_limbsStore rfl (beq_self_eq_true out) fun k hk => ⟨rfl, ?_⟩))
  have htid : tid < params.n := of_decide_eq_true (List.mem_filter.mp htid).2
  have hlt : tid * count + t < params.outBatch := (block_lt htid ht).trans_le hsize
  have hindex : b * params.outBatch * frWords +
      (t * params.outStrideT + tid * params.outStrideI) * frWords =
        (b * params.outBatch + (tid * count + t)) * 8 := by
    rw [hT, hI, frWords]
    ring
  rw [hindex]
  exact (slotKey_eq (· % count) hu hb hlt hk).trans
    (congrArg (b, ·) (Nat.mul_add_mod_of_lt ht))

theorem raceFree_fourStep {mid out inp roots : Buf} {N1 N2 inBatch midBatch outBatch scale : ℕ}
    {scaleVal : Fr} {shared₁ shared₂ : ℕ → ℕ → ℕ → Fr} (hmid : inp ≠ mid ∧ roots ≠ mid)
    (hout : mid ≠ out ∧ roots ≠ out) (hsize : N1 * N2 ≤ midBatch ∧ N1 * N2 ≤ outBatch)
    (hu : ∀ n < batch * (midBatch * 8), u n = n) (hu' : ∀ n < batch * (outBatch * 8), u n = n) :
    ∀ g ∈ fourStepGrids mid out inp roots N1 N2 inBatch midBatch outBatch scale scaleVal batch
      shared₁ shared₂, ∀ m, RaceFree u g.units g.main m := by
  intro g hg m
  rcases List.mem_cons.mp hg with rfl | hg
  · exact raceFree_ntt hmid.1 hmid.2 rfl rfl hsize.1 hu
  · obtain rfl := List.mem_singleton.mp hg
    exact raceFree_ntt hout.1 hout.2 rfl rfl ((Nat.mul_comm N2 N1).trans_le hsize.2) hu'

theorem raceFree_buildCirculant {shared : ℕ → ℕ → ℕ → Fr}
    (hu : ∀ n < batch * (8192 * 8), u n = n) :
    RaceFree u (buildCirculantGrid shared batch).units (buildCirculantGrid shared batch).main m := by
  refine raceFree_slots noFlag .coeffs 4 8 8192 (· % 64) fun b hb i hi => ?_
  have hi : i < 64 := hi
  refine keeps_bind (keeps_circulantTile rfl rfl) (keeps_each fun tid htid =>
    keeps_limbsStore rfl rfl fun k hk => ⟨rfl, ?_⟩)
  have htid : tid < 128 := List.mem_range.mp htid
  have hindex : b * circulantSize * phaseATerms + tid * phaseATerms + i =
      b * 8192 + (tid * 64 + i) := by
    simp only [circulantSize, phaseATerms]
    ring
  rw [hindex]
  exact (slotKey_eq (· % 64) hu hb (show tid * 64 + i < 8192 by omega) hk).trans
    (congrArg (b, ·) (Nat.mul_add_mod_of_lt hi))

/-! ### The sort -/

/-- The elements the sort stores for each output, by buffer. -/
def sortedLength : Buf → ℕ
  | .perm => numBuckets
  | .starts => numBuckets + 1
  | _ => phaseAItems

def sortedWidth (b : Buf) : ℕ := if b = .items then 2 else 4

def isSorted (b : Buf) : Bool := b == .perm || b == .starts || b == .items

def phaseASortGrid (hist scat : ℕ → ℕ → AtomicOrder) (batch : ℕ) : Grid Buf :=
  groups (fun j b => kPhaseASort (hist j b) (scat j b) j b) circulantSize batch

theorem keeps_phaseASort {own : Buf → ℕ → ℕ → Prop} {hist scat : AtomicOrder} {j b : ℕ}
    (h : ∀ buf, isSorted buf = true → ∀ k < sortedLength buf,
      own buf (sortedWidth buf) (u ((b * circulantSize + j) * sortedLength buf + k))) :
    Keeps noFlag isSorted own u m (kPhaseASort hist scat j b) := by
  refine keeps_bind (keeps_gather fun _ _ => keeps_map _ (keeps_limbsLoad rfl nofun)) ?_
  generalize (gather (List.range phaseATerms) _).val u m = scalars
  -- the slots of the sort are those of the output, whatever the digits are
  have hbounds : ∀ it : ℕ × ℕ, -(numBuckets : ℤ) ≤ recoded (scalars.getD it.1 frZero) it.2 ∧
      recoded (scalars.getD it.1 frZero) it.2 ≤ numBuckets := fun it => by
    rw [recoded_eq]
    have h := SignedDigits.digit_bounds (h := numBuckets) (by decide)
      (s := (scalars.getD it.1 frZero).toNat) it.2
    exact ⟨Int.le_of_lt h.1, h.2⟩
  have hright := sortItems_right (hist.perm.trans scat.perm.symm)
    (by rw [scat.perm.length_eq, List.length_product, List.length_range, List.length_range]; rfl)
    hbounds
  refine keeps_bind (keeps_each fun p hp => ?_) (keeps_bind ?_ (keeps_each fun p hp => ?_))
  · have hslot := hright.slots.mem_iff.mp (List.mem_map_of_mem hp)
    exact keeps_store rfl rfl (h .perm rfl _ (List.mem_range.mp hslot))
  · exact keeps_storeWords rfl rfl (h .starts rfl)
  · exact keeps_store rfl rfl (h .items rfl _ (hright.bound p hp).1)

/-- Each group keeps to the slots of its output, in whichever order its atomics come. -/
theorem raceFree_phaseASort {hist scat : ℕ → ℕ → AtomicOrder}
    (hu : ∀ n < batch * (128 * 2048), u n = n) :
    RaceFree u (phaseASortGrid hist scat batch).units (phaseASortGrid hist scat batch).main m := by
  refine Grid.raceFree noFlag isSorted sortedWidth (fun buf n => n / sortedLength buf)
    (fun i => i.1 * circulantSize + i.2) (fun i hi j hj heq => ?_) fun b hb j hj => ?_
  · have hi : i.2 < circulantSize := (Grid.mem_units.mp hi).2
    have hj : j.2 < circulantSize := (Grid.mem_units.mp hj).2
    simp only [circulantSize] at heq hi hj
    exact Prod.ext (by omega) (by omega)
  · refine keeps_phaseASort fun buf hbuf k hk => ⟨rfl, ?_⟩
    have hb : b < batch := hb
    have hj : j < 128 := hj
    have hlength : sortedLength buf ≤ 2048 := by
      cases buf <;> decide
    have hlt : (b * circulantSize + j) * sortedLength buf + k < batch * (128 * 2048) := by
      refine (block_lt (block_lt hb hj) hk).trans_le ?_
      rw [← Nat.mul_assoc]
      exact Nat.mul_le_mul_left _ hlength
    rw [hu _ hlt]
    exact block_div hk

/-! ### The reduction of buckets -/

def reduceGrid (lanes : ℕ) (sg : ℕ → ℕ → Subgroup) (out : Buf) (count batch : ℕ) : Grid Buf :=
  groups (fun wg b => kBucketReduce lanes (sg wg b) ⟨out, .buckets, count⟩ wg b)
    ((count + 32 / lanes - 1) / (32 / lanes)) batch

def recordReduceGrid (gpuTotalCores : ℕ) (sg : ℕ → ℕ → Subgroup) (out : Buf) (count batch : ℕ) :
    Grid Buf :=
  reduceGrid (if useLatencyReduce count batch gpuTotalCores then reduceLanes * 2 else reduceLanes)
    sg out count batch

/-- A group stores the totals of its own teams, and only those below the count. -/
theorem raceFree_reduce {q : ℕ} (hq : q ≤ 5) {sg : ℕ → ℕ → Subgroup} {out : Buf}
    (hout : .buckets ≠ out) (hu : ∀ n < batch * (128 * 36), u n = n) :
    RaceFree u (reduceGrid (2 ^ q) sg out circulantSize batch).units
      (reduceGrid (2 ^ q) sg out circulantSize batch).main m := by
  refine raceFree_slots noFlag out 4 36 128 (· / (32 / 2 ^ q)) fun b hb wg _ => ?_
  have hload : ∀ off, Keeps noFlag (only out) (slotOwn 4 36 128 (· / (32 / 2 ^ q)) b wg) u m
      (g1Load .buckets off) := fun off => keeps_g1Load rfl (beq_false_of_ne hout)
  refine keeps_bind (keeps_bind (keeps_gather fun tid _ => ?_) (keeps_pure _))
    (keeps_each fun tid htid => keeps_g1Store rfl (beq_self_eq_true out) fun k hk => ⟨rfl, ?_⟩)
  · refine keeps_bind (keeps_foldlM (fun acc i _ => ?_) _) (keeps_pure _)
    exact keeps_bind (hload _) (keeps_pure _)
  · obtain ⟨htid, hstores⟩ := List.mem_filter.mp htid
    have hraw : wg * (32 / 2 ^ q) + tid / 2 ^ q < 128 := (of_decide_eq_true hstores).2
    have hteam : tid / 2 ^ q < 32 / 2 ^ q := by
      have htid : tid < 32 := List.mem_range.mp htid
      interval_cases q <;> omega
    have hmin : min (wg * (32 / 2 ^ q) + tid / 2 ^ q) (circulantSize - 1) =
        wg * (32 / 2 ^ q) + tid / 2 ^ q := min_eq_left (by simp only [circulantSize]; omega)
    simp only [hmin]
    exact (slotKey_eq (· / (32 / 2 ^ q)) hu hb hraw hk).trans (congrArg (b, ·) (block_div hteam))

theorem raceFree_recordReduce {gpuTotalCores : ℕ} {sg : ℕ → ℕ → Subgroup} {out : Buf}
    (hout : .buckets ≠ out) (hu : ∀ n < batch * (128 * 36), u n = n) :
    RaceFree u (recordReduceGrid gpuTotalCores sg out circulantSize batch).units
      (recordReduceGrid gpuTotalCores sg out circulantSize batch).main m := by
  unfold recordReduceGrid
  split_ifs
  · exact raceFree_reduce (q := 3) (by decide) hout hu
  · exact raceFree_reduce (q := 2) (by decide) hout hu

/-! ### Recovery -/

def vanishingPolyGrid (shared : ℕ → ℕ → Fr) (batch : ℕ) : Grid Buf :=
  groups (fun _ b => kVanishingPoly .recZCoeff .rootsFwd .recMissing (shared b) b) 1 batch

theorem keeps_vanishingCoeffs {out : Buf → Bool} {own : Buf → ℕ → ℕ → Prop} {roots missing : Buf}
    {shared : ℕ → Fr} {missBase count : ℕ} (hroots : out roots = false)
    (hmissing : out missing = false) :
    Keeps noFlag out own u m (vanishingCoeffs roots missing shared missBase count) := by
  have hload : ∀ i, Keeps noFlag out own u m (load 4 missing i) := fun i =>
    keeps_load rfl fun h => absurd (hmissing.symm.trans h) (by decide)
  have hroot : ∀ off, Keeps noFlag out own u m (frLoad roots off) := fun off =>
    keeps_limbsLoad rfl fun h => absurd (hroots.symm.trans h) (by decide)
  refine keeps_bind (hload _) (keeps_bind (hroot _) (keeps_foldlM (fun sp i _ => ?_) _))
  exact keeps_bind (hload _) (keeps_bind (hroot _) (keeps_pure _))

theorem raceFree_vanishingPoly {shared : ℕ → ℕ → Fr} (hwf : ∀ b < batch, MissingWf m b)
    (hu : ∀ n < batch * (8192 * 8), u n = n) :
    RaceFree u (vanishingPolyGrid shared batch).units (vanishingPolyGrid shared batch).main m := by
  refine raceFree_slots noFlag .recZCoeff 4 8 8192 (fun _ => 0) fun b hb i hi => ?_
  obtain rfl : i = 0 := Nat.lt_one_iff.mp hi
  have hb : b < batch := hb
  have hstore : ∀ e < 8192, ∀ a : Fr, Keeps noFlag (only .recZCoeff)
      (slotOwn 4 8 8192 (fun _ => 0) b 0) u m (frStore .recZCoeff ((b * 8192 + e) * 8) a) :=
    fun e he a => keeps_limbsStore rfl rfl fun k hk => ⟨rfl, slotKey_eq (fun _ => 0) hu hb he hk⟩
  refine keeps_bind (keeps_each fun tid htid => keeps_each fun j hj => hstore _ ?_ _)
    (keeps_bind (keeps_load rfl nofun) ?_)
  · have htid : tid < 128 := List.mem_range.mp htid
    have hj : j < 64 := List.mem_range.mp hj
    omega
  · have hcount : (load 4 Buf.recMissing (b * 65)).val u m ≤ 64 := by
      rw [val_load, hu _ (by omega)]
      exact (hwf b hb).count_le
    generalize (load 4 Buf.recMissing (b * 65)).val u m = count at hcount
    unfold vanishingTerms
    split_ifs
    · have h0 := hstore 0 (by decide) (frFromCanonical frRawOne)
      rw [Nat.add_zero] at h0
      exact h0
    · refine keeps_bind (keeps_vanishingCoeffs rfl rfl) (keeps_each fun i hi => hstore _ ?_ _)
      have hi := List.mem_range.mp hi
      simp only [fieldElementsPerCell]
      omega

/-! ### The bucket passes -/

/-- The thread at place `tid` of the bucket order of output `j`. -/
def phaseAThread (j b tid : ℕ) : Shader Unit := do
  let outIndex := b * circulantSize + j
  let startsBase := outIndex * (numBuckets + 1)
  let bucket ← load 4 .perm (outIndex * numBuckets + tid)
  let lo ← load 4 .starts (startsBase + bucket)
  let hi ← load 4 .starts (startsBase + bucket + 1)
  let acc ← (List.range' lo (hi - lo)).foldlM
    (phaseAStep (j * phaseATerms * numDigits * affineWords) (outIndex * phaseAItems)) g1Identity
  g1Store .buckets
    ((b * circulantSize * numBuckets + j * numBuckets + bucket) * jacobianWords) acc

/-- The thread at place `tid` of the bucket order of the half output `a` belongs to. -/
def splitThread (a b tid : ℕ) : Shader Unit := do
  let lists := listsOf a
  let bucket ← load 4 lists.perm tid
  let lo ← load 4 lists.offsets bucket
  let hi ← load 4 lists.offsets (bucket + 1)
  let lbase := b * circulantSize * ladderPositions * affineWords +
    halfBase a * ladderPositions * affineWords
  let acc ← (List.range' lo (hi - lo)).foldlM
    (phaseBStep lists lbase (halfIndex a) (decide (a ≥ circulantHalf))) g1Identity
  g1Store .buckets
    ((b * circulantSize * numBuckets + a * numBuckets + bucket) * jacobianWords) acc

def phaseAGrid (batch : ℕ) : Grid Buf := lanes numBuckets phaseAThread circulantSize batch

def phaseBGrid (batch : ℕ) : Grid Buf := lanes numBuckets splitThread circulantSize batch

/-- The bucket order at an offset visits each bucket once. -/
structure PermAt (m : Mem) (buf : Buf) (off : ℕ) : Prop where
  lt : ∀ t < numBuckets, m.elem 4 buf (off + t) < numBuckets
  inj : ∀ t < numBuckets, ∀ t' < numBuckets,
    m.elem 4 buf (off + t) = m.elem 4 buf (off + t') → t = t'

theorem permAt_of_surj {buf : Buf} {off : ℕ}
    (hlt : ∀ t < numBuckets, m.elem 4 buf (off + t) < numBuckets)
    (hsurj : ∀ k < numBuckets, ∃ t < numBuckets, m.elem 4 buf (off + t) = k) : PermAt m buf off := by
  refine ⟨hlt, fun t ht t' ht' heq => ?_⟩
  have hinj : Set.InjOn (fun t => m.elem 4 buf (off + t)) (Finset.range numBuckets) :=
    Finset.injOn_of_surjOn_of_card_le _
      (fun t ht => Finset.mem_coe.mpr (Finset.mem_range.mpr (hlt t (Finset.mem_range.mp ht))))
      (fun k hk => by
        obtain ⟨t, ht, heq⟩ := hsurj k (Finset.mem_range.mp hk)
        exact ⟨t, Finset.mem_coe.mpr (Finset.mem_range.mpr ht), heq⟩) (Nat.le_refl _)
  exact hinj (Finset.mem_coe.mpr (Finset.mem_range.mpr ht))
    (Finset.mem_coe.mpr (Finset.mem_range.mpr ht')) heq

/-- Threads that store different buckets of each output. -/
theorem raceFree_buckets {thread : ℕ → ℕ → ℕ → Shader Unit} (bucket : ℕ → ℕ → ℕ → ℕ)
    (hinj : ∀ b < batch, ∀ j < circulantSize, ∀ t < numBuckets, ∀ t' < numBuckets,
      bucket b j t = bucket b j t' → t = t')
    (hlt : ∀ b < batch, ∀ j < circulantSize, ∀ t < numBuckets, bucket b j t < numBuckets)
    (hu : ∀ n < batch * (16384 * 36), u n = n)
    (h : ∀ b < batch, ∀ j < circulantSize, ∀ t < numBuckets, ∀ own : Buf → ℕ → ℕ → Prop,
      (∀ k < 36, own .buckets 4 (u ((b * circulantSize * numBuckets + j * numBuckets +
        bucket b j t) * jacobianWords + k))) →
      Keeps noFlag (only .buckets) own u m (thread j b t)) :
    RaceFree u (lanes numBuckets thread circulantSize batch).units
      (lanes numBuckets thread circulantSize batch).main m := by
  have hcol : ∀ i < 128 * 128, i / 128 < circulantSize ∧ i % 128 < numBuckets := fun i hi =>
    ⟨Nat.div_lt_of_lt_mul hi, Nat.mod_lt i (by decide)⟩
  refine Grid.raceFree noFlag (only .buckets) (fun _ => 4) (fun _ => slotKey 36 16384 id)
    (fun i => (i.1, i.2 / 128 * 128 + bucket i.1 (i.2 / 128) (i.2 % 128)))
    (fun i hi j hj heq => ?_) fun b hb i hi => ?_
  · obtain ⟨hi₁, hi₂⟩ := Grid.mem_units.mp hi
    obtain ⟨hj₁, hj₂⟩ := Grid.mem_units.mp hj
    obtain ⟨hrow, hcolumn⟩ := Prod.mk.inj heq
    have hi := hcol i.2 hi₂
    have hj := hcol j.2 hj₂
    have hbi : bucket i.1 (i.2 / 128) (i.2 % 128) < 128 := hlt _ hi₁ _ hi.1 _ hi.2
    have hbj : bucket j.1 (j.2 / 128) (j.2 % 128) < 128 := hlt _ hj₁ _ hj.1 _ hj.2
    have hout : i.2 / 128 = j.2 / 128 := by omega
    have hbucket : bucket i.1 (i.2 / 128) (i.2 % 128) = bucket j.1 (j.2 / 128) (j.2 % 128) := by
      omega
    rw [hrow, hout] at hbucket
    have hplace := hinj _ hj₁ _ hj.1 _ hi.2 _ hj.2 hbucket
    exact Prod.ext hrow (by omega)
  · obtain ⟨hj, ht⟩ := hcol i hi
    refine h b hb _ hj _ ht _ fun k hk => ⟨rfl, ?_⟩
    have hbucket : bucket b (i / 128) (i % 128) < 128 := hlt b hb _ hj _ ht
    have hindex : b * circulantSize * numBuckets + i / 128 * numBuckets +
        bucket b (i / 128) (i % 128) = b * 16384 + (i / 128 * 128 + bucket b (i / 128) (i % 128)) := by
      simp only [circulantSize, numBuckets]
      ring
    simp only [circulantSize] at hj
    rw [hindex]
    exact slotKey_eq id hu hb (show i / 128 * 128 + bucket b (i / 128) (i % 128) < 16384 by omega) hk

theorem raceFree_phaseA (hperm : ∀ b < batch, ∀ j < circulantSize,
      PermAt m .perm ((b * circulantSize + j) * numBuckets))
    (hu : ∀ n < batch * (16384 * 36), u n = n) :
    RaceFree u (phaseAGrid batch).units (phaseAGrid batch).main m := by
  refine raceFree_buckets
    (fun b j t => m.elem 4 .perm ((b * circulantSize + j) * numBuckets + t))
    (fun b hb j hj => (hperm b hb j hj).inj) (fun b hb j hj => (hperm b hb j hj).lt) hu
    fun b hb j hj t ht own hown => ?_
  have hexact : u ((b * circulantSize + j) * numBuckets + t) =
      (b * circulantSize + j) * numBuckets + t := by
    simp only [circulantSize, numBuckets] at hj ht ⊢
    exact hu _ (by omega)
  refine keeps_bind (keeps_load rfl nofun) ?_
  rw [val_load, hexact]
  refine keeps_bind (keeps_load rfl nofun) (keeps_bind (keeps_load rfl nofun)
    (keeps_bind (keeps_foldlM (fun acc it _ => ?_) _) (keeps_g1Store rfl rfl hown)))
  exact keeps_bind (keeps_load rfl nofun) (keeps_bind (keeps_g1aLoad rfl rfl) (keeps_pure _))

theorem raceFree_phaseB (hplus : PermAt m plusLists.perm 0) (hminus : PermAt m minusLists.perm 0)
    (hu : ∀ n < batch * (16384 * 36), u n = n) :
    RaceFree u (phaseBGrid batch).units (phaseBGrid batch).main m := by
  have hperm : ∀ a, PermAt m (listsOf a).perm 0 := fun a => by
    unfold listsOf
    split_ifs
    · exact hminus
    · exact hplus
  refine raceFree_buckets (fun _ a t => m.elem 4 (listsOf a).perm (0 + t))
    (fun b _ a _ => (hperm a).inj) (fun b _ a _ => (hperm a).lt) hu
    fun b hb a ha t ht own hown => ?_
  have hexact : u t = 0 + t := by
    simp only [numBuckets] at ht
    rw [hu _ (by omega), Nat.zero_add]
  have hread : ∀ buf, only .buckets buf = false → ∀ i, Keeps noFlag (only .buckets) own u m
      (load 4 buf i) := fun buf hbuf i =>
    keeps_load rfl fun h => absurd (hbuf.symm.trans h) (by decide)
  have hlists : only .buckets (listsOf a).perm = false ∧ only .buckets (listsOf a).offsets = false ∧
      only .buckets (listsOf a).items = false := by
    unfold listsOf
    split_ifs <;> exact ⟨rfl, rfl, rfl⟩
  refine keeps_bind (hread _ hlists.1 _) ?_
  rw [val_load, hexact]
  refine keeps_bind (hread _ hlists.2.1 _) (keeps_bind (hread _ hlists.2.1 _)
    (keeps_bind (keeps_foldlM (fun acc it _ => ?_) _) (keeps_g1Store rfl rfl hown)))
  exact keeps_bind (hread _ hlists.2.2 _) (keeps_bind (keeps_g1aLoad rfl rfl) (keeps_pure _))

/-! ### The units of a dispatch in turn -/

section Cuts
variable {out aBuf bBuf : Buf} {shared : ℕ → ℕ → Fr}

theorem cuts_blobToFr : Cuts u (blobToFrGrid batch) (blobToFrDispatch batch) := cuts_lanes _

theorem cuts_cellsToFr : Cuts u (cellsToFrGrid batch)
    (dispatch (kCellsToFr .recBrp .recScratch) (fieldElementsPerExtBlob / 256) batch) := cuts_lanes _

theorem cuts_frToCells : Cuts u (frToCellsGrid batch)
    (dispatch (kFrToCells .recOut .recPFull) (fieldElementsPerExtBlob / 256) batch) := cuts_lanes _

theorem cuts_ewMul {bMode : EwMulBMode} : Cuts u (ewMulGrid out aBuf bBuf bMode batch)
    (recoverEwMul out aBuf bBuf bMode batch) := cuts_lanes _

theorem cuts_ewDiv : Cuts u (ewDivGrid out aBuf bBuf batch) (recoverEwDiv out aBuf bBuf batch) :=
  cuts_lanes _

theorem cuts_ladder : Cuts u (ladderGrid batch) (ladderDispatch batch) := cuts_lanes _

theorem cuts_foldLadder : Cuts u (foldLadderGrid batch) (foldLadderDispatch batch) := cuts_lanes _

theorem cuts_combine : Cuts u (combineGrid batch) (combineDispatch batch) := cuts_lanes _

theorem cuts_compress : Cuts u (compressGrid batch) (compressDispatch batch) := cuts_lanes _

theorem cuts_normalize {perBlob count chunk : ℕ} {outAffine inJacobian : Buf} :
    Cuts u (normalizeGrid perBlob outAffine inJacobian count chunk)
      (recordNormalize perBlob outAffine inJacobian count chunk) := cuts_lanes _

theorem cuts_phaseA : Cuts u (phaseAGrid batch) (phaseADispatch batch) := cuts_lanes _

theorem cuts_phaseB : Cuts u (phaseBGrid batch) (phaseBDispatch batch) := cuts_lanes _

theorem cuts_phaseASort {hist scat : ℕ → ℕ → AtomicOrder} :
    Cuts u (phaseASortGrid hist scat batch) (phaseASortDispatch hist scat batch) := cuts_groups _

theorem cuts_recordReduce {gpuTotalCores count : ℕ} {sg : ℕ → ℕ → Subgroup} :
    Cuts u (recordReduceGrid gpuTotalCores sg out count batch)
      (recordReduce gpuTotalCores sg out count batch) := cuts_groups _

theorem cuts_buildCirculant {tile : ℕ → ℕ → ℕ → Fr} :
    Cuts u (buildCirculantGrid tile batch) (buildCirculantDispatch tile batch) := cuts_groups _

theorem cuts_vanishingPoly :
    Cuts u (vanishingPolyGrid shared batch) (vanishingPolyDispatch shared batch) := cuts_groups _

theorem cuts_fourStep {mid inp roots : Buf} {N1 N2 inBatch midBatch outBatch scale : ℕ}
    {scaleVal : Fr} {shared₁ shared₂ : ℕ → ℕ → ℕ → Fr} : List.Forall₂ (Cuts u)
      (fourStepGrids mid out inp roots N1 N2 inBatch midBatch outBatch scale scaleVal batch shared₁
        shared₂)
      (fourStep mid out inp roots N1 N2 inBatch midBatch outBatch scale scaleVal batch shared₁
        shared₂) :=
  .cons (cuts_groups _) (.cons (cuts_groups _) .nil)

end Cuts

end Vkzg
