import Vkzg.Shaders.BuildCirculant
import Vkzg.Shaders.CellRoundTrip
import Vkzg.Shaders.Compress
import Vkzg.Shaders.DigitSort
import Vkzg.Shaders.PhaseB

/-! What the kernels of `computeBatch` access: each blob its own slice of every working buffer, and
the tables. -/

namespace Vkzg
open Radix Gpu Gpu.Kernel BitReversal CountingSort

variable {P : Access Buf → Prop} {u : ℕ → ℕ} {m : Mem} {batch : ℕ}

/-! ### Blobs to scalars -/

theorem within_atomicOr {β : Type} {P : Access β → Prop} {m : Memory β} {w i v : ℕ} {b : β}
    (hu : u i = i) (hP : P ⟨b, w, i, none⟩) : Within P u m (atomicOr w b i v) where
  val := rfl
  reads := congrArg (fun j => [(⟨b, w, j, none⟩ : Access β)]) hu
  stores := by rw [stores_atomicOr, stores_atomicOr, hu, id]
  read _ ha := List.mem_singleton.mp ha ▸ hP
  stored _ hs := List.mem_singleton.mp hs ▸ hP

theorem within_blobToFr (hu : ∀ n < batch * 131072, u n = n)
    (hblob : ∀ b < batch, ∀ k < 131072, P ⟨.blob, 1, b * 131072 + k, some b⟩)
    (hlagrange : ∀ b < batch, BlobWords P u .lagrange (b * (4096 * 8)) (4096 * 8) b)
    (herr : ∀ b < batch, P ⟨.err, 4, 0, some b⟩) : Within P u m (blobToFrDispatch batch) := by
  refine within_dispatch fun b hb wg hwg => within_each fun tid htid => ?_
  have htid := List.mem_range.mp htid
  have hwg : wg < 16 := hwg
  have hrev : brev (wg * 256 + tid) 12 < 2 ^ 12 := brev_lt (by decide)
  refine within_bind (within_loadWords (fun _ _ => frOfBytes_congr) (fun k hk => hu _ ?_)
    fun k hk => ?_) (within_bind ?_ (within_limbsStore ?_ ?_))
  · simp only [bytesPerBlob]
    omega
  · have h := hblob b hb ((wg * 256 + tid) * 32 + k) (by omega)
    rwa [← add_assoc] at h
  · unfold reportNonCanonical
    split_ifs
    · exact within_pure ()
    · exact within_atomicOr (hu 0 (by omega)) (herr b hb)
  · exact ((hlagrange b hb).element hrev).1
  · exact ((hlagrange b hb).element hrev).2

/-! ### Phase A -/

/-- The sorted items of output `o` keep to their slots and to the terms of the table. -/
structure ItemsWf (m : Mem) (o : ℕ) : Prop where
  perm_lt : ∀ t < numBuckets, m.elem 4 .perm (o * numBuckets + t) < numBuckets
  item : ∀ k < numBuckets, ∀ it, m.elem 4 .starts (o * (numBuckets + 1) + k) ≤ it →
    it < m.elem 4 .starts (o * (numBuckets + 1) + k + 1) →
    it < phaseAItems ∧ m.elem 2 .items (o * phaseAItems + it) >>> 6 < phaseATerms

theorem itemsWf_sort {hist scat : ℕ → ℕ → AtomicOrder} {b j : ℕ} (hb : b < batch)
    (hj : j < circulantSize) :
    ItemsWf ((phaseASortDispatch hist scat batch).exec id m) (b * circulantSize + j) := by
  have hsorted : SortedAt ((phaseASortDispatch hist scat batch).exec id m) (b * circulantSize + j)
      (digitsAt m b j) := phaseASort_sorted hb hj
  refine ⟨hsorted.perm_lt, fun k hk it hlo hhi => ?_⟩
  obtain ⟨l, hl, hlen, hitem⟩ := hsorted.bucket k hk
  obtain ⟨i, rfl⟩ := Nat.exists_eq_add_of_le hlo
  have hi : i < l.length := by omega
  have hmem := (mem_withKey_phaseAIds.mp (hl.mem_iff.mp (List.getElem_mem hi)))
  have hle : ((phaseASortDispatch hist scat batch).exec id m).elem 4 .starts
      ((b * circulantSize + j) * (numBuckets + 1) + (k + 1)) ≤ phaseAItems := by
    rw [sort_start_elem hb hj (Nat.succ_lt_succ hk)]
    exact (sortedAt_right m hist scat b j).start_le _ hk
  refine ⟨hhi.trans_le hle, ?_⟩
  · rw [hitem i hi, packItem_thread _ hmem.2.1]
    exact hmem.1

theorem within_phaseA (hwf : ∀ b < batch, ∀ j < circulantSize, ItemsWf m (b * circulantSize + j))
    (hu : ∀ n < batch * 262144, u n = n)
    (hperm : ∀ b < batch, ∀ k < 16384, P ⟨.perm, 4, b * 16384 + k, some b⟩)
    (hstarts : ∀ b < batch, ∀ k < 16512, P ⟨.starts, 4, b * 16512 + k, some b⟩)
    (hitems : ∀ b < batch, ∀ k < 262144, P ⟨.items, 2, b * 262144 + k, some b⟩)
    (htable : ∀ b < batch, BlobWords P u .table 0 6291456 b)
    (hbuckets : ∀ b < batch, BlobWords P u .buckets (b * (16384 * 36)) (16384 * 36) b) :
    Within P u m (phaseADispatch batch) := by
  refine within_dispatch fun b hb j hj => within_each fun tid htid => ?_
  have htid : tid < 128 := List.mem_range.mp htid
  have hwf := hwf b hb j hj
  have hj : j < 128 := hj
  have hslot : (b * circulantSize + j) * numBuckets + tid = b * 16384 + (j * 128 + tid) :=
    outputWord_eq numBuckets b j tid
  refine within_bind (within_load ?_ ?_) ?_
  · rw [hslot]
    exact hu _ (by omega)
  · rw [hslot]
    exact hperm b hb _ (by omega)
  -- The place of a thread names its bucket, and the starts of the bucket bound its items.
  simp only [val_load, id]
  have hbucket : m.elem 4 .perm ((b * circulantSize + j) * numBuckets + tid) < 128 :=
    hwf.perm_lt tid htid
  generalize m.elem 4 .perm ((b * circulantSize + j) * numBuckets + tid) = bucket at hbucket
  have hstart : ∀ k ≤ 128, (b * circulantSize + j) * (numBuckets + 1) + k =
      b * 16512 + (j * 129 + k) := fun k _ => outputWord_eq (numBuckets + 1) b j k
  have hload : ∀ k ≤ 128, Within (fun a => P (a.own b)) u m
      (load 4 .starts ((b * circulantSize + j) * (numBuckets + 1) + k)) := fun k hk => by
    refine within_load ?_ ?_
    · rw [hstart k hk]
      exact hu _ (by omega)
    · rw [hstart k hk]
      exact hstarts b hb _ (by omega)
  refine within_bind (hload bucket hbucket.le) (within_bind (hload (bucket + 1) hbucket) ?_)
  have hindex : b * circulantSize * numBuckets + j * numBuckets + bucket =
      b * 16384 + (j * 128 + bucket) := by
    simp only [circulantSize, numBuckets]
    ring
  have hblock := (hbuckets b hb).element (show j * 128 + bucket < 16384 by omega)
  refine within_bind (within_foldlM (fun acc it hit => ?_) _) (within_g1Store ?_ ?_)
  · rw [List.mem_range'_1] at hit
    simp only [val_load, id] at hit
    obtain ⟨hslot, hterm⟩ := hwf.item bucket hbucket it hit.1 (by omega)
    have hitem : (b * circulantSize + j) * phaseAItems + it = b * 262144 + (j * 2048 + it) :=
      outputWord_eq phaseAItems b j it
    simp only [phaseAItems, phaseATerms] at hslot hterm
    refine within_bind (within_load ?_ ?_) (within_bind (within_g1aLoad ?_ ?_) (within_pure _))
    · rw [hitem]
      exact hu _ (by omega)
    · rw [hitem]
      exact hitems b hb _ (by omega)
    all_goals
      simp only [val_load, id]
      generalize m.elem 2 .items ((b * circulantSize + j) * 2048 + it) = packed at hterm ⊢
      have hdigit : packed >>> 1 &&& 31 < 32 := (Nat.and_le_right).trans_lt (by decide)
      intro k hk
      have hword := (htable b hb).first (show j * 49152 + ((packed >>> 6) * 32 +
        (packed >>> 1 &&& 31)) * 24 + k < 6291456 by omega)
      simp only [phaseATerms, numDigits, affineWords]
      rw [show j * 64 * 32 * 24 = j * 49152 by ring]
    · exact hword.1
    · exact hword.2
  · rw [hindex]
    exact hblock.1
  · rw [hindex]
    exact hblock.2

/-! ### Phase B -/

theorem within_ladder (hpoints : ∀ b < batch, BlobWords P u .points (b * (128 * 36)) (128 * 36) b)
    (hladder : ∀ b < batch, BlobWords P u .ladderJac (b * (4096 * 36)) (4096 * 36) b) :
    Within P u m (ladderDispatch batch) := by
  refine within_dispatch fun b hb wg hwg => within_each fun tid htid => ?_
  have htid : tid < 32 := List.mem_range.mp htid
  have hwg : wg < 4 := hwg
  have hpoint := (hpoints b hb).element (show wg * 32 + tid < 128 by omega)
  refine within_bind (within_g1Load hpoint.1 hpoint.2) (within_each fun d hd => ?_)
  have hd : d < 32 := List.mem_range.mp hd
  have hstore := (hladder b hb).element (show (wg * 32 + tid) * 32 + d < 4096 by omega)
  have hindex : (b * circulantSize + (wg * 32 + tid)) * ladderPositions + d =
      b * 4096 + ((wg * 32 + tid) * 32 + d) := by
    simp only [circulantSize, ladderPositions]
    ring
  rw [hindex]
  exact within_g1Store hstore.1 hstore.2

theorem within_foldLadder
    (hladder : ∀ b < batch, BlobWords P u .ladderJac (b * (4096 * 36)) (4096 * 36) b)
    (hfolded : ∀ b < batch, BlobWords P u .ladderJacFolded (b * (4096 * 36)) (4096 * 36) b) :
    Within P u m (foldLadderDispatch batch) := by
  refine within_dispatch fun b hb wg hwg => within_each fun tid htid => ?_
  have htid : tid < 128 := List.mem_range.mp htid
  have hwg : wg < 16 := hwg
  have hj : (wg * 128 + tid) / 32 < 64 := by omega
  have hd : (wg * 128 + tid) % 32 < 32 := Nat.mod_lt _ (by decide)
  unfold foldThread
  simp only [ladderPositions, circulantHalf, circulantSize, jacobianWords]
  generalize (wg * 128 + tid) / 32 = j at hj ⊢
  generalize (wg * 128 + tid) % 32 = d at hd ⊢
  have hindex : ∀ j, b * 128 * 32 * 36 + (j * 32 + d) * 36 = (b * 4096 + (j * 32 + d)) * 36 :=
    fun j => by ring
  have hlow := (hladder b hb).element (show j * 32 + d < 4096 by omega)
  have hhigh := (hladder b hb).element (show (j + 64) * 32 + d < 4096 by omega)
  have hlow' := (hfolded b hb).element (show j * 32 + d < 4096 by omega)
  have hhigh' := (hfolded b hb).element (show (j + 64) * 32 + d < 4096 by omega)
  rw [hindex, hindex]
  exact within_bind (within_g1Load hlow.1 hlow.2) (within_bind (within_g1Load hhigh.1 hhigh.2)
    (within_bind (within_g1Store hlow'.1 hlow'.2) (within_g1Store hhigh'.1 hhigh'.2)))

theorem within_combine (hpoints : ∀ b < batch, BlobWords P u .points (b * (128 * 36)) (128 * 36) b)
    (hproofs : ∀ b < batch, BlobWords P u .proofs (b * (128 * 36)) (128 * 36) b) :
    Within P u m (combineDispatch batch) := by
  refine within_dispatch fun b hb _ _ => within_each fun a ha => ?_
  have ha : a < 64 := List.mem_range.mp ha
  have hlow := (hpoints b hb).element (show a < 128 by omega)
  have hhigh := (hpoints b hb).element (show a + 64 < 128 by omega)
  have hlow' := (hproofs b hb).element (show a < 128 by omega)
  have hhigh' := (hproofs b hb).element (show a + 64 < 128 by omega)
  simp only [circulantSize, circulantHalf, jacobianWords, Nat.add_assoc (b * 128)]
  exact within_bind (within_g1Load hlow.1 hlow.2) (within_bind (within_g1Load hhigh.1 hhigh.2)
    (within_bind (within_g1Store hlow'.1 hlow'.2) (within_g1Store hhigh'.1 hhigh'.2)))

/-- `P` holds of the words of the kernel lists that some thread visits. They name buckets there are,
and places on the ladders of the half that starts at `base`. -/
structure ListWords (P : Access Buf → Prop) (u : ℕ → ℕ) (m : Mem) (lists : KernelLists) (base b : ℕ) :
    Prop where
  perm : BlobWords P u lists.perm 0 128 b
  offsets : BlobWords P u lists.offsets 0 129 b
  bucket : ∀ t < numBuckets, m.elem 4 lists.perm t < numBuckets
  item : ∀ t < numBuckets, ∀ it, m.elem 4 lists.offsets (m.elem 4 lists.perm t) ≤ it →
    it < m.elem 4 lists.offsets (m.elem 4 lists.perm t + 1) →
      u it = it ∧ P ⟨lists.items, 4, it, some b⟩ ∧
        (base + 63) * ladderPositions + itemPosition (m.elem 4 lists.items it) < 4096

theorem ListWords.congr {m' : Mem} {lists : KernelLists} {base b : ℕ}
    (h : ListWords P u m lists base b) (hitems : m' lists.items = m lists.items)
    (hoffsets : m' lists.offsets = m lists.offsets) (hperm : m' lists.perm = m lists.perm) :
    ListWords P u m' lists base b where
  perm := h.perm
  offsets := h.offsets
  bucket := by
    simp only [Memory.elem_congr hperm]
    exact h.bucket
  item := by
    simp only [Memory.elem_congr hoffsets, Memory.elem_congr hperm, Memory.elem_congr hitems]
    exact h.item

theorem ListsWf.position (h : ListsWf m lists) : ∀ k < numBuckets, ∀ it,
    m.elem 4 lists.offsets k ≤ it → it < m.elem 4 lists.offsets (k + 1) →
      itemPosition (m.elem 4 lists.items it) < ladderPositions := by
  intro k hk it hlo hhi
  refine (h.item k hk _ ?_).2
  rw [bucketItems]
  exact List.mem_map_of_mem (List.mem_range'_1.mpr ⟨hlo, by omega⟩)

theorem within_phaseBStep {b base aa t : ℕ} {lists : KernelLists} {isMinus : Bool} {acc : G1}
    {it : ℕ} (hlists : ListWords P u m lists base b)
    (hladder : BlobWords P u .ladderAff (b * (4096 * 24)) (4096 * 24) b) (ht : t < numBuckets)
    (hlo : m.elem 4 lists.offsets (m.elem 4 lists.perm t) ≤ it)
    (hhi : it < m.elem 4 lists.offsets (m.elem 4 lists.perm t + 1)) :
    Within (fun a => P (a.own b)) u m (phaseBStep lists
      (b * circulantSize * ladderPositions * affineWords + base * ladderPositions * affineWords)
      aa isMinus acc it) := by
  obtain ⟨hexact, hP, hpos⟩ := hlists.item t ht it hlo hhi
  have hval : (load 4 lists.items it).val id m = m.elem 4 lists.items it := rfl
  refine within_bind (within_load hexact hP) (within_bind ?_ (within_pure _))
  rw [hval]
  generalize m.elem 4 lists.items it = packed at hpos ⊢
  have hsrc : (aa + 2 ^ 32 - itemTap packed) % 2 ^ 32 &&& (circulantHalf - 1) < 64 :=
    Nat.and_le_right.trans_lt (by decide)
  generalize (aa + 2 ^ 32 - itemTap packed) % 2 ^ 32 &&& (circulantHalf - 1) = src at hsrc ⊢
  have hblock := hladder.element (show (base + src) * 32 + itemPosition packed < 4096 by
    simp only [ladderPositions] at hpos
    omega)
  have hindex : (b * 4096 + ((base + src) * 32 + itemPosition packed)) * 24 =
      b * circulantSize * ladderPositions * affineWords + base * ladderPositions * affineWords +
        (src * ladderPositions + itemPosition packed) * affineWords := by
    simp only [circulantSize, ladderPositions, affineWords]
    ring
  rw [hindex] at hblock
  exact within_g1aLoad hblock.1 hblock.2

theorem within_phaseBSplit (hplus : ∀ b < batch, ListWords P u m plusLists 0 b)
    (hminus : ∀ b < batch, ListWords P u m minusLists 64 b)
    (hladder : ∀ b < batch, BlobWords P u .ladderAff (b * (4096 * 24)) (4096 * 24) b)
    (hbuckets : ∀ b < batch, BlobWords P u .buckets (b * (16384 * 36)) (16384 * 36) b) :
    Within P u m (phaseBDispatch batch) := by
  refine within_dispatch fun b hb a ha => within_each fun tid htid => ?_
  have htid : tid < numBuckets := List.mem_range.mp htid
  have hlists : ListWords P u m (listsOf a) (halfBase a) b := by
    rw [listsOf, halfBase]
    split_ifs
    · exact hminus b hb
    · exact hplus b hb
  have hbucket : m.elem 4 (listsOf a).perm tid < numBuckets := hlists.bucket tid htid
  have hstep := fun acc it => @within_phaseBStep P u m b (halfBase a) (halfIndex a) tid (listsOf a)
    (decide (a ≥ circulantHalf)) acc it hlists (hladder b hb) htid
  have hval : (load 4 (listsOf a).perm tid).val id m = m.elem 4 (listsOf a).perm tid := rfl
  refine within_bind (within_load (hlists.perm.first htid).1 (hlists.perm.first htid).2) ?_
  rw [hval]
  generalize m.elem 4 (listsOf a).perm tid = bucket at hbucket hstep ⊢
  have hload : ∀ k ≤ numBuckets, Within (fun a => P (a.own b)) u m
      (load 4 (listsOf a).offsets k) := fun k hk =>
    within_load (hlists.offsets.first (Nat.lt_succ_of_le hk)).1
      (hlists.offsets.first (Nat.lt_succ_of_le hk)).2
  have hblock := (hbuckets b hb).element (block_lt (q := 128) (show a < 128 from ha) hbucket)
  have hindex : (b * 16384 + (a * 128 + bucket)) * 36 =
      (b * circulantSize * numBuckets + a * numBuckets + bucket) * jacobianWords := by
    simp only [circulantSize, numBuckets, jacobianWords]
    ring
  rw [hindex] at hblock
  refine within_bind (hload bucket hbucket.le) (within_bind (hload (bucket + 1) hbucket)
    (within_bind (within_foldlM (fun acc it hit => ?_) _) (within_g1Store hblock.1 hblock.2)))
  have hlo : (load 4 (listsOf a).offsets bucket).val id m = m.elem 4 (listsOf a).offsets bucket :=
    rfl
  have hhi : (load 4 (listsOf a).offsets (bucket + 1)).val id m =
      m.elem 4 (listsOf a).offsets (bucket + 1) := rfl
  rw [hlo, hhi, List.mem_range'_1] at hit
  exact hstep acc it hit.1 (by omega)

/-! ### The normalizations -/

theorem pointWords_slices {pc : NormalizePC} {n : ℕ} (hcount : pc.count = batch * n)
    (hinp : ∀ b < batch, BlobWords P u pc.inJacobian (b * (n * 36)) (n * 36) b)
    (hscratch : ∀ b < batch, BlobWords P u .normScratch (b * (n * 12)) (n * 12) b)
    (hout : ∀ b < batch, BlobWords P u pc.outAffine (b * (n * 24)) (n * 24) b) :
    PointWords P n pc := by
  intro i hi
  rw [hcount] at hi
  have hn : 0 < n := Nat.pos_of_ne_zero fun h0 => by simp [h0] at hi
  have hb : i / n < batch := Nat.div_lt_of_lt_mul (by rwa [Nat.mul_comm] at hi)
  have hmod := Nat.mod_lt i hn
  have hi' : i / n * n + i % n = i := Nat.div_add_mod' i n
  have hx := ((hinp _ hb).element hmod).2
  have hs := ((hscratch _ hb).element hmod).2
  have ho := ((hout _ hb).element hmod).2
  rw [hi'] at hx hs ho
  exact ⟨hx, hs, ho⟩

end Vkzg
