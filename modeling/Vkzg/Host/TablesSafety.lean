import Vkzg.Host.Tables

/-! What the split pass of phase B relies on in the tables it is given. Loading checks the header
and the lengths of the file; that the kernel lists make sense is left to whoever wrote the file. -/

namespace Vkzg
open Radix Gpu Gpu.Kernel

/-! ### Lists the kernel can follow -/

/-- The lists of one half visit every bucket once, keep to the items there are, and name positions
on the ladder. -/
structure HalfWf (items offsets perm : List UInt32) : Prop where
  perm : (perm.map UInt32.toNat).Perm (List.range numBuckets)
  mono : ∀ k < numBuckets, (offsets.getD k 0).toNat ≤ (offsets.getD (k + 1) 0).toNat
  total : (offsets.getD numBuckets 0).toNat ≤ items.length
  position : ∀ it, (offsets.getD 0 0).toNat ≤ it → it < (offsets.getD numBuckets 0).toNat →
    itemPosition (items.getD it 0).toNat < ladderPositions

structure TablesWf (t : PrecomputedTables) : Prop where
  plus : HalfWf t.kernelItemsPlus t.kernelOffsetsPlus t.kernelPermPlus
  minus : HalfWf t.kernelItemsMinus t.kernelOffsetsMinus t.kernelPermMinus

section Half
variable {items offsets perm : List UInt32}

theorem getD_of_lt {xs : List UInt32} {i : ℕ} (hi : i < xs.length) : xs.getD i 0 = xs[i] := by
  rw [List.getD_eq_getElem?_getD, List.getElem?_eq_getElem hi, Option.getD_some]

theorem HalfWf.length_perm (h : HalfWf items offsets perm) : perm.length = numBuckets := by
  have := h.perm.length_eq
  rwa [List.length_map, List.length_range] at this

theorem HalfWf.perm_lt (h : HalfWf items offsets perm) {t : ℕ} (ht : t < numBuckets) :
    (perm.getD t 0).toNat < numBuckets := by
  have hlen := h.length_perm
  rw [getD_of_lt (by omega)]
  exact List.mem_range.mp (h.perm.mem_iff.mp (List.mem_map_of_mem (List.getElem_mem _)))

theorem HalfWf.perm_inj (h : HalfWf items offsets perm) {t t' : ℕ} (ht : t < numBuckets)
    (ht' : t' < numBuckets) (heq : (perm.getD t 0).toNat = (perm.getD t' 0).toNat) : t = t' := by
  have hlen := h.length_perm
  have hnodup := h.perm.nodup_iff.mpr List.nodup_range
  rw [getD_of_lt (by omega), getD_of_lt (by omega)] at heq
  refine (@List.Nodup.getElem_inj_iff _ _ hnodup t ?_ t' ?_).mp ?_
  · rw [List.length_map]
    omega
  · rw [List.length_map]
    omega
  · rw [List.getElem_map, List.getElem_map, heq]

theorem HalfWf.perm_surj (h : HalfWf items offsets perm) {k : ℕ} (hk : k < numBuckets) :
    ∃ t < numBuckets, (perm.getD t 0).toNat = k := by
  obtain ⟨w, hw, rfl⟩ := List.mem_map.mp (h.perm.mem_iff.mpr (List.mem_range.mpr hk))
  obtain ⟨t, ht, rfl⟩ := List.getElem_of_mem hw
  refine ⟨t, h.length_perm ▸ ht, ?_⟩
  rw [getD_of_lt ht]

/-- Every item of a bucket lies between the first offset and the last. -/
theorem HalfWf.offset_le (h : HalfWf items offsets perm) {k : ℕ} (hk : k ≤ numBuckets) :
    (offsets.getD 0 0).toNat ≤ (offsets.getD k 0).toNat ∧
      (offsets.getD k 0).toNat ≤ (offsets.getD numBuckets 0).toNat := by
  have hmono : ∀ d k, k + d ≤ numBuckets →
      (offsets.getD k 0).toNat ≤ (offsets.getD (k + d) 0).toNat := by
    intro d
    induction d with
    | zero => exact fun k _ => Nat.le_refl _
    | succ d ih => exact fun k hk => (ih k (by omega)).trans (h.mono (k + d) (by omega))
  have h₀ := hmono k 0 (by omega)
  have h₁ := hmono (numBuckets - k) k (by omega)
  rw [Nat.zero_add] at h₀
  rw [Nat.add_sub_cancel' hk] at h₁
  exact ⟨h₀, h₁⟩

end Half

/-! ### Lists in memory -/

/-- The buffers of one half hold its lists. -/
structure HalfHolds (m : Mem) (lists : KernelLists) (items offsets perm : List UInt32) : Prop where
  items : ∀ i < items.length, m.elem 4 lists.items i = (items.getD i 0).toNat
  offsets : ∀ i < offsets.length, m.elem 4 lists.offsets i = (offsets.getD i 0).toNat
  perm : ∀ i < perm.length, m.elem 4 lists.perm i = (perm.getD i 0).toNat

def Buf.isKernelList : Buf → Bool
  | .kernelItemsPlus | .kernelOffsetsPlus | .kernelPermPlus
  | .kernelItemsMinus | .kernelOffsetsMinus | .kernelPermMinus => true
  | _ => false

section Uploaded
variable {tables : PrecomputedTables} {m₀ m : Mem}

theorem halfHolds_plus (h : ∀ b : Buf, b.isKernelList = true → m b = uploadTables tables m₀ b) :
    HalfHolds m plusLists tables.kernelItemsPlus tables.kernelOffsetsPlus tables.kernelPermPlus where
  items i hi := (Memory.elem_congr (h .kernelItemsPlus rfl) 4 i).trans
    (elem_uploadTables (p := [_, _, _]) (q := [_, _, _, _, _]) hi (by simp))
  offsets i hi := (Memory.elem_congr (h .kernelOffsetsPlus rfl) 4 i).trans
    (elem_uploadTables (p := [_, _, _, _]) (q := [_, _, _, _]) hi (by simp))
  perm i hi := (Memory.elem_congr (h .kernelPermPlus rfl) 4 i).trans
    (elem_uploadTables (p := [_, _, _, _, _]) (q := [_, _, _]) hi (by simp))

theorem halfHolds_minus (h : ∀ b : Buf, b.isKernelList = true → m b = uploadTables tables m₀ b) :
    HalfHolds m minusLists tables.kernelItemsMinus tables.kernelOffsetsMinus
      tables.kernelPermMinus where
  items i hi := (Memory.elem_congr (h .kernelItemsMinus rfl) 4 i).trans
    (elem_uploadTables (p := [_, _, _, _, _, _]) (q := [_, _]) hi (by simp))
  offsets i hi := (Memory.elem_congr (h .kernelOffsetsMinus rfl) 4 i).trans
    (elem_uploadTables (p := [_, _, _, _, _, _, _]) (q := [_]) hi (by simp))
  perm i hi := (Memory.elem_congr (h .kernelPermMinus rfl) 4 i).trans
    (elem_uploadTables (p := [_, _, _, _, _, _, _, _]) (q := []) hi (by simp))

end Uploaded

/-! ### The split pass -/

section Split
variable {P : Access Buf → Prop} {m : Mem} {lists : KernelLists} {items offsets perm : List UInt32}
  {batch : ℕ}

theorem uint32_le (n : ℕ) : uint32 n ≤ n := Nat.mod_le n _

theorem confined_phaseBStep {it half : ℕ} {b aa : ℕ} (hb : b < batch) (hhalf : half ≤ circulantHalf)
    (hwf : HalfWf items offsets perm) (hm : HalfHolds m lists items offsets perm)
    (hlo : (offsets.getD 0 0).toNat ≤ it) (hhi : it < (offsets.getD numBuckets 0).toNat)
    (hitems : ∀ i < items.length, P ⟨lists.items, 4, i, none⟩)
    (hladder : ∀ i < batch * 98304, P ⟨.ladderAff, 4, i, none⟩) (isMinus : Bool) (acc : G1) :
    Confined P uint32 m (phaseBStep lists (b * circulantSize * ladderPositions * affineWords +
      half * ladderPositions * affineWords) aa isMinus acc it) := by
  have hlen := hhi.trans_le hwf.total
  have hit : uint32 it = it := uint32_of_lt (hhi.trans (UInt32.toNat_lt _))
  have hpos := hwf.position it hlo hhi
  refine confined_bind (confined_load (by rw [hit]; exact hitems it hlen)) ?_
  rw [val_load, hit, hm.items it hlen]
  have hsrc : ∀ n : ℕ, n &&& (circulantHalf - 1) < circulantHalf := fun n =>
    (Nat.and_le_right).trans_lt (by decide)
  have hbound : ∀ k < 24, uint32 (b * circulantSize * ladderPositions * affineWords +
      half * ladderPositions * affineWords + (((aa + 2 ^ 32 - itemTap (items.getD it 0).toNat) %
        2 ^ 32 &&& (circulantHalf - 1)) * ladderPositions +
          itemPosition (items.getD it 0).toNat) * affineWords + k) < batch * 98304 := fun k hk => by
    refine (uint32_le _).trans_lt ?_
    have := hsrc ((aa + 2 ^ 32 - itemTap (items.getD it 0).toNat) % 2 ^ 32)
    generalize (aa + 2 ^ 32 - itemTap (items.getD it 0).toNat) % 2 ^ 32 &&& (circulantHalf - 1) = src
      at this ⊢
    simp only [circulantSize, circulantHalf, ladderPositions, affineWords] at *
    omega
  exact confined_bind (confined_g1aLoad fun k hk => hladder _ (hbound k hk)) (confined_pure _)

theorem confined_splitThread {a b tid : ℕ} (ha : a < circulantSize) (hb : b < batch)
    (htid : tid < numBuckets) (hlists : listsOf a = lists) (hlen : offsets.length = numBuckets + 1)
    (hwf : HalfWf items offsets perm) (hm : HalfHolds m lists items offsets perm)
    (hperm : ∀ i < perm.length, P ⟨lists.perm, 4, i, none⟩)
    (hoffsets : ∀ i < offsets.length, P ⟨lists.offsets, 4, i, none⟩)
    (hitems : ∀ i < items.length, P ⟨lists.items, 4, i, none⟩)
    (hladder : ∀ i < batch * 98304, P ⟨.ladderAff, 4, i, none⟩)
    (hbuckets : ∀ i < batch * 589824, P ⟨.buckets, 4, i, none⟩) :
    Confined P uint32 m (do
      let bucket ← load 4 (listsOf a).perm tid
      let lo ← load 4 (listsOf a).offsets bucket
      let hi ← load 4 (listsOf a).offsets (bucket + 1)
      let lbase := b * circulantSize * ladderPositions * affineWords +
        halfBase a * ladderPositions * affineWords
      let acc ← (List.range' lo (hi - lo)).foldlM (phaseBStep (listsOf a) lbase (halfIndex a)
        (decide (a ≥ circulantHalf))) g1Identity
      g1Store .buckets
        ((b * circulantSize * numBuckets + a * numBuckets + bucket) * jacobianWords) acc) := by
  subst hlists
  simp only [numBuckets, circulantSize] at htid hlen ha
  have hplen : tid < perm.length := by rw [hwf.length_perm]; exact htid
  have hbucket := hwf.perm_lt htid
  have hu : uint32 tid = tid := uint32_of_lt (by omega)
  refine confined_bind (confined_load (by rw [hu]; exact hperm tid hplen)) ?_
  rw [val_load, hu, hm.perm tid hplen]
  -- From here on it only matters that the bucket is one of the 128.
  generalize (perm.getD tid 0).toNat = bucket at hbucket
  simp only [numBuckets] at hbucket
  have hu₀ : uint32 bucket = bucket := uint32_of_lt (by omega)
  have hu₁ : uint32 (bucket + 1) = bucket + 1 := uint32_of_lt (by omega)
  refine confined_bind (confined_load (by rw [hu₀]; exact hoffsets _ (by omega)))
    (confined_bind (confined_load (by rw [hu₁]; exact hoffsets _ (by omega)))
      (confined_bind (confined_foldlM (fun acc it hit => ?_) _) (confined_g1Store fun k hk => ?_)))
  · rw [val_load, val_load, hu₀, hu₁, hm.offsets _ (by omega), hm.offsets _ (by omega)] at hit
    obtain ⟨hlo, -⟩ := hwf.offset_le (k := bucket) (by simp only [numBuckets]; omega)
    obtain ⟨-, hhi⟩ := hwf.offset_le (k := bucket + 1) (by simp only [numBuckets]; omega)
    have hrange := List.mem_range'_1.mp hit
    refine confined_phaseBStep hb ?_ hwf hm (by omega) (by omega) hitems hladder _ acc
    rw [halfBase]
    split_ifs
    · exact Nat.le_refl _
    · exact Nat.zero_le _
  · refine hbuckets _ ((uint32_le _).trans_lt ?_)
    simp only [circulantSize, numBuckets, jacobianWords]
    omega

end Split

/-- The sizes, in words, of the buffers of a split pass over a batch. -/
def splitWords (tables : PrecomputedTables) (batch : ℕ) : Buf → ℕ
  | .kernelItemsPlus => tables.kernelItemsPlus.length
  | .kernelOffsetsPlus => tables.kernelOffsetsPlus.length
  | .kernelPermPlus => tables.kernelPermPlus.length
  | .kernelItemsMinus => tables.kernelItemsMinus.length
  | .kernelOffsetsMinus => tables.kernelOffsetsMinus.length
  | .kernelPermMinus => tables.kernelPermMinus.length
  | .ladderAff => batch * circulantSize * ladderPositions * affineWords
  | .buckets => batch * circulantSize * numBuckets * jacobianWords
  | _ => 0

/-- An access to a word that its buffer has. -/
def InSplitBuffers (tables : PrecomputedTables) (batch : ℕ) (a : Access Buf) : Prop :=
  a.width = 4 ∧ a.idx < splitWords tables batch a.buf

section Dispatch
variable {tables : PrecomputedTables} {m₀ m : Mem} {batch : ℕ}

theorem confined_phaseB (hwf : TablesWf tables)
    (hplus : tables.kernelOffsetsPlus.length = numBuckets + 1)
    (hminus : tables.kernelOffsetsMinus.length = numBuckets + 1)
    (hm : ∀ b : Buf, b.isKernelList = true → m b = uploadTables tables m₀ b) :
    Confined (InSplitBuffers tables batch) uint32 m (phaseBDispatch batch) := by
  refine confined_dispatch fun b hb a ha => confined_each fun tid htid => ?_
  have htid := List.mem_range.mp htid
  have hladder : ∀ i < batch * 98304,
      InSplitBuffers tables batch ⟨.ladderAff, 4, i, none⟩ := fun i hi => ⟨rfl, by
    simp only [splitWords, circulantSize, ladderPositions, affineWords]
    omega⟩
  have hbuckets : ∀ i < batch * 589824,
      InSplitBuffers tables batch ⟨.buckets, 4, i, none⟩ := fun i hi => ⟨rfl, by
    simp only [splitWords, circulantSize, numBuckets, jacobianWords]
    omega⟩
  by_cases hhalf : a ≥ circulantHalf
  · exact confined_splitThread ha hb htid (if_pos hhalf) hminus hwf.minus (halfHolds_minus hm)
      (fun i hi => ⟨rfl, hi⟩) (fun i hi => ⟨rfl, hi⟩) (fun i hi => ⟨rfl, hi⟩) hladder hbuckets
  · exact confined_splitThread ha hb htid (if_neg hhalf) hplus hwf.plus (halfHolds_plus hm)
      (fun i hi => ⟨rfl, hi⟩) (fun i hi => ⟨rfl, hi⟩) (fun i hi => ⟨rfl, hi⟩) hladder hbuckets

/-- Word indices wrap around, so no access is past the last 32-bit index. -/
theorem confined_uint32 : Confined (fun a => a.idx < 2 ^ 32) uint32 m (phaseBDispatch batch) := by
  have hlt : ∀ n, uint32 n < 2 ^ 32 := fun n => Nat.mod_lt n (by decide)
  have hload : ∀ (b : Buf) (i : ℕ), Confined (fun a => a.idx < 2 ^ 32) uint32 m
      (load 4 b i : Shader ℕ) := fun b i => confined_load (hlt i)
  refine confined_dispatch fun b _ a _ => confined_each fun tid _ => confined_bind (hload _ _)
    (confined_bind (hload _ _) (confined_bind (hload _ _) (confined_bind ?_
      (confined_g1Store fun k _ => hlt _))))
  refine confined_foldlM (fun acc it _ => ?_) _
  refine confined_bind (hload _ _) ?_
  exact confined_bind (confined_g1aLoad fun k _ => hlt _) (confined_pure _)

/-- Where the bucket of each place of the permutation goes. -/
def bucketPlace (m : Mem) (q : ℕ × ℕ × ℕ) : ℕ :=
  (q.1 * circulantSize + q.2.1) * numBuckets + m.elem 4 (listsOf q.2.1).perm q.2.2

/-- What a thread computes for bucket `k` with 32-bit indices. -/
def deviceBucket (m : Mem) (b a k : ℕ) : G1 :=
  let lo := m.elem 4 (listsOf a).offsets (uint32 k)
  let hi := m.elem 4 (listsOf a).offsets (uint32 (k + 1))
  let lbase := b * circulantSize * ladderPositions * affineWords +
    halfBase a * ladderPositions * affineWords
  ((List.range' lo (hi - lo)).foldlM (phaseBStep (listsOf a) lbase (halfIndex a)
    (decide (a ≥ circulantHalf))) g1Identity : Shader G1).val uint32 m

/-- As long as the words of the buckets have 32-bit indices, every thread stores one bucket. -/
theorem blocks_phaseB_uint32 (hbatch : batch * 589824 ≤ 2 ^ 32)
    (hperm : ∀ a < circulantSize, ∀ t < numBuckets, m.elem 4 (listsOf a).perm t < numBuckets) :
    Blocks ((phaseBDispatch batch).stores uint32 m) .buckets 4 36
      (List.range batch ×ˢ (List.range circulantSize ×ˢ List.range numBuckets)) (bucketPlace m)
      (fun q => g1Words (deviceBucket m q.1 q.2.1 (m.elem 4 (listsOf q.2.1).perm q.2.2))) := by
  refine blocks_dispatch (fun b a t => bucketPlace m (b, a, t))
    (fun b a t => g1Words (deviceBucket m b a (m.elem 4 (listsOf a).perm t)))
    fun b hb a ha => blocks_each fun t ht => ?_
  have ht := List.mem_range.mp ht
  rw [stores_bind, stores_bind, stores_bind, stores_bind, stores_load, stores_load, stores_load,
    stores_foldlM fun g it _ => stores_phaseBStep uint32 _ _ _ _ g it, stores_g1Store]
  have hut : uint32 t = t := uint32_of_lt (by simp only [numBuckets] at ht; omega)
  simp only [List.nil_append, landing_block, val_load, bucketPlace, hut]
  refine List.map_congr_left fun k hk => ?_
  have hk := List.mem_range.mp hk
  have hlt := hperm a ha t ht
  have hidx : (b * circulantSize * numBuckets + a * numBuckets + m.elem 4 (listsOf a).perm t) *
      jacobianWords + k = ((b * circulantSize + a) * numBuckets + m.elem 4 (listsOf a).perm t) * 36 +
        k := by
    rw [Nat.add_mul (b * circulantSize)]
  rw [hidx, uint32_of_lt]
  · rfl
  · simp only [circulantSize, numBuckets] at *
    omega

theorem phaseB_covers (hwf : TablesWf tables) (hbatch : batch * 589824 ≤ 2 ^ 32)
    (hm : ∀ b : Buf, b.isKernelList = true → m b = uploadTables tables m₀ b)
    {b a k w : ℕ} (hb : b < batch) (ha : a < circulantSize) (hk : k < numBuckets) (hw : w < 36) :
    ((landing .buckets ((phaseBDispatch batch).stores uint32 m)).filter fun t =>
      t.2.1 = ((b * circulantSize + a) * numBuckets + k) * 36 + w).length = 1 := by
  have hhalf : ∀ a, ∃ items offsets perm, HalfWf items offsets perm ∧
      HalfHolds m (listsOf a) items offsets perm := fun a => by
    by_cases ha : a ≥ circulantHalf
    · refine ⟨_, _, _, hwf.minus, ?_⟩
      rw [listsOf, if_pos ha]
      exact halfHolds_minus hm
    · refine ⟨_, _, _, hwf.plus, ?_⟩
      rw [listsOf, if_neg ha]
      exact halfHolds_plus hm
  have hlt : ∀ a, ∀ t < numBuckets, m.elem 4 (listsOf a).perm t < numBuckets := by
    intro a t ht
    obtain ⟨items, offsets, perm, hwf, hm⟩ := hhalf a
    rw [hm.perm t (hwf.length_perm ▸ ht)]
    exact hwf.perm_lt ht
  have hinj : ∀ a, ∀ t < numBuckets, ∀ t' < numBuckets,
      m.elem 4 (listsOf a).perm t = m.elem 4 (listsOf a).perm t' → t = t' := by
    intro a t ht t' ht' heq
    obtain ⟨items, offsets, perm, hwf, hm⟩ := hhalf a
    rw [hm.perm t (hwf.length_perm ▸ ht), hm.perm t' (hwf.length_perm ▸ ht')] at heq
    exact hwf.perm_inj ht ht' heq
  -- The one thread that works on the bucket.
  obtain ⟨t, ht, hkt⟩ : ∃ t < numBuckets, m.elem 4 (listsOf a).perm t = k := by
    obtain ⟨items, offsets, perm, hwf, hm⟩ := hhalf a
    obtain ⟨t, ht, hkt⟩ := hwf.perm_surj hk
    exact ⟨t, ht, (hm.perm t (hwf.length_perm ▸ ht)).trans hkt⟩
  have honce := (blocks_phaseB_uint32 hbatch fun a _ => hlt a).once
    (List.nodup_range.product (List.nodup_range.product List.nodup_range)) ?_
    (x := (b, a, t)) (List.mem_product.mpr ⟨List.mem_range.mpr hb,
      List.mem_product.mpr ⟨List.mem_range.mpr ha, List.mem_range.mpr ht⟩⟩) hw
  · simp only [bucketPlace, hkt] at honce
    exact honce
  · rintro ⟨b₁, a₁, t₁⟩ h₁ ⟨b₂, a₂, t₂⟩ h₂ heq
    obtain ⟨-, h₁⟩ := List.mem_product.mp h₁
    obtain ⟨-, h₂⟩ := List.mem_product.mp h₂
    have ha₁ := List.mem_range.mp (List.mem_product.mp h₁).1
    have ha₂ := List.mem_range.mp (List.mem_product.mp h₂).1
    have ht₁ := List.mem_range.mp (List.mem_product.mp h₁).2
    have ht₂ := List.mem_range.mp (List.mem_product.mp h₂).2
    obtain ⟨hba, hperm⟩ := block_inj (hlt a₁ t₁ ht₁) (hlt a₂ t₂ ht₂) heq
    obtain ⟨rfl, rfl⟩ := block_inj ha₁ ha₂ hba
    rw [hinj a₁ t₁ ht₁ t₂ ht₂ hperm]

end Dispatch

/-! ### What an accepted file guarantees -/

section Accepted
variable {f : List UInt8} {out : PrecomputedTables}

/-- Content that is not accepted is reported as malformed. From accepted content with well-formed
kernel lists, the split pass stays within its buffers for every batch, and fills every bucket as
long as the words of the buckets have 32-bit indices. -/
theorem loadFrom_safe (f : List UInt8) (out : PrecomputedTables) :
    let r := loadFrom (some f) out
    (r.1 ≠ .ok → r.1 = .errSetup) ∧
    (r.1 = .ok → TablesWf r.2 → ∀ m₀ m : Mem,
      (∀ b : Buf, b.isKernelList = true → m b = uploadTables r.2 m₀ b) → ∀ batch,
        ((∀ a ∈ (phaseBDispatch batch).reads uint32 m, InSplitBuffers r.2 batch a) ∧
          ∀ s ∈ (phaseBDispatch batch).stores uint32 m, InSplitBuffers r.2 batch s.toAccess) ∧
        (batch * 589824 ≤ 2 ^ 32 →
          ∀ b < batch, ∀ a < circulantSize, ∀ k < numBuckets, ∀ w < jacobianWords,
            ((landing .buckets ((phaseBDispatch batch).stores uint32 m)).filter fun t => t.2.1 =
              ((b * circulantSize + a) * numBuckets + k) * jacobianWords + w).length = 1)) := by
  intro r
  have hstatus : r.1 = if Accepted f then .ok else .errSetup := loadFrom_status (some f) out
  refine ⟨fun hne => ?_, fun hok hwf m₀ m hm batch => ?_⟩
  · by_cases hacc : Accepted f
    · rw [if_pos hacc] at hstatus
      exact absurd hstatus hne
    · rwa [if_neg hacc] at hstatus
  · have hacc : Accepted f := by
      by_contra hacc
      rw [hok, if_neg hacc] at hstatus
      exact absurd hstatus (by decide)
    have hr : r.2 = parsed f := by rw [show r = _ from loadFrom_accepted hacc out]
    have hconf : Confined (InSplitBuffers r.2 batch) uint32 m (phaseBDispatch batch) :=
      confined_phaseB hwf (by rw [hr]; exact length_wordsFrom _ _ _)
        (by rw [hr]; exact length_wordsFrom _ _ _) hm
    exact ⟨⟨hconf.read, hconf.stored⟩, fun hbatch b hb a ha k hk w hw =>
      phaseB_covers hwf hbatch hm hb ha hk hw⟩

end Accepted

/-! ### Files with given words -/

def plainHeader : List UInt8 := [0x56, 0x4B, 0x5A, 0x47, 1, 0, 0, 0, 0, 0, 0, 0, 0, 0, 0, 0]

/-- The words a file without items has after its header. -/
def plainWords : ℕ := 6423050

def plainFile (words : List UInt32) : List UInt8 := plainHeader ++ bytesOf words

theorem getD_bytesOf (words : List UInt32) (i : ℕ) {k : ℕ} (hk : k < 4) :
    (bytesOf words).getD (4 * i + k) 0 = byteOf (words.getD i 0).toNat k := by
  induction words generalizing i with
  | nil => simp [bytesOf, byteOf]
  | cons w words ih =>
    have hcons : bytesOf (w :: words) = (List.range 4).map (byteOf w.toNat) ++ bytesOf words := rfl
    cases i with
    | zero =>
      rw [hcons, Nat.mul_zero, Nat.zero_add, List.getD_eq_getElem?_getD,
        List.getElem?_append_left (by simpa using hk)]
      simp [hk]
    | succ i =>
      rw [hcons, List.getD_eq_getElem?_getD, List.getElem?_append_right (by simp; omega),
        List.getD_cons_succ, ← ih i, List.getD_eq_getElem?_getD]
      congr 2
      simp
      omega

section PlainFile
variable {words : List UInt32}

theorem headerOf_plainFile : headerOf (plainFile words) = ⟨kMagic, kVersion, 0, 0⟩ := by
  rw [← headerOf_take, plainFile, List.take_left' (show plainHeader.length = 16 from rfl)]
  decide

theorem accepted_plainFile (h : words.length = plainWords) : Accepted (plainFile words) := by
  refine ⟨by rw [headerOf_plainFile], by rw [headerOf_plainFile], ?_⟩
  rw [tableWords, headerOf_plainFile, plainFile, List.length_append, length_bytesOf, h]
  decide

theorem wordAt_plainFile (i : ℕ) : wordAt (plainFile words) (4 + i) = words.getD i 0 := by
  have hbyte : ∀ k < 4, (plainFile words).getD (4 * (4 + i) + k) 0 =
      byteOf (words.getD i 0).toNat k := fun k hk => by
    rw [← getD_bytesOf words i hk, plainFile, List.getD_eq_getElem?_getD,
      List.getElem?_append_right (by simp [plainHeader]; omega), List.getD_eq_getElem?_getD]
    congr 2
    simp [plainHeader]
    omega
  have hlt : (words.getD i 0).toNat < 256 ^ 4 := UInt32.toNat_lt _
  rw [wordAt, bytesValue_congr hbyte, bytesValue_byteOf, Nat.mod_eq_of_lt hlt, UInt32.ofNat_toNat]

theorem wordsFrom_plainFile {off : ℕ} (start count : ℕ) (h : off = 4 + start) :
    wordsFrom (plainFile words) off count =
      (List.range count).map fun i => words.getD (start + i) 0 := by
  subst h
  exact List.map_congr_left fun i _ => by rw [add_assoc, wordAt_plainFile]

theorem lists_plainFile (words : List UInt32) :
    let t := parsed (plainFile words)
    let list := fun start count => (List.range count).map fun i => words.getD (start + i) 0
    t.kernelItemsPlus = [] ∧ t.kernelItemsMinus = [] ∧
    t.kernelOffsetsPlus = list 6422528 129 ∧ t.kernelOffsetsMinus = list 6422657 129 ∧
    t.kernelPermPlus = list 6422786 128 ∧ t.kernelPermMinus = list 6422914 128 := by
  simp only [parsed, headerOf_plainFile]
  exact ⟨rfl, rfl, wordsFrom_plainFile _ _ (by decide), wordsFrom_plainFile _ _ (by decide),
    wordsFrom_plainFile _ _ (by decide), wordsFrom_plainFile _ _ (by decide)⟩

end PlainFile

def emptyTables : PrecomputedTables := ⟨[], [], [], [], [], [], [], [], [], frZero⟩

/-! ### A file nobody would write -/

/-- The header, and then only ones. -/
def onesFile : List UInt8 := plainFile (List.replicate plainWords 0xffffffff)

theorem accepted_onesFile : Accepted onesFile := accepted_plainFile List.length_replicate

theorem permPlus_onesFile : (parsed onesFile).kernelPermPlus.getD 0 0 = 0xffffffff := by
  obtain ⟨-, -, -, -, hperm, -⟩ := lists_plainFile (List.replicate plainWords 0xffffffff)
  rw [onesFile, hperm, getD_of_lt (by simp), List.getElem_map, List.getElem_range,
    List.getD_eq_getElem?_getD, List.getElem?_replicate, if_pos (by decide), Option.getD_some]

/-- A file of ones is accepted although its permutation is none, and already the first thread of
the split pass reads far outside of the offsets. Past 7281 blobs, whatever the file, the last word
of the buckets is never stored. -/
theorem loadFrom_onesFile :
    let t := parsed onesFile
    let m := uploadTables t fun _ _ => 0
    loadFrom (some onesFile) emptyTables = (.ok, t) ∧ ¬TablesWf t ∧
      (∃ a ∈ (phaseBDispatch 1).reads uint32 m, ¬InSplitBuffers t 1 a) ∧
      ∀ m : Mem, ∀ s ∈ (phaseBDispatch 7282).stores uint32 m,
        s.toAccess.idx ≠ ((7281 * circulantSize + 127) * numBuckets + 127) * jacobianWords + 35 := by
  intro t m
  have hlen : t.kernelPermPlus.length = numBuckets := length_wordsFrom _ _ _
  refine ⟨loadFrom_accepted accepted_onesFile _, fun hwf => ?_, ⟨⟨.kernelOffsetsPlus, 4,
    0xffffffff, some 0⟩, ?_, fun h => ?_⟩, fun m s hs heq => ?_⟩
  · have := hwf.plus.perm_lt (t := 0) (by decide)
    rw [permPlus_onesFile] at this
    exact absurd this (by decide)
  · have hholds : HalfHolds m plusLists t.kernelItemsPlus t.kernelOffsetsPlus t.kernelPermPlus :=
      halfHolds_plus fun _ _ => rfl
    have hread := hholds.perm 0 (by rw [hlen]; decide)
    rw [permPlus_onesFile] at hread
    have hidx : 0xffffffff = uint32 (m.elem 4 plusLists.perm (uint32 0)) := by
      rw [show uint32 0 = 0 from rfl, hread]
      decide
    refine List.mem_flatMap.mpr ⟨0, by decide, List.mem_map.mpr
      ⟨⟨.kernelOffsetsPlus, 4, 0xffffffff, none⟩, List.mem_flatMap.mpr ⟨0, by decide,
        List.mem_flatMap.mpr ⟨0, by decide, ?_⟩⟩, rfl⟩⟩
    exact List.mem_append_right _ (List.mem_append_left _ (List.mem_singleton.mpr
      (congrArg (fun i => (⟨.kernelOffsetsPlus, 4, i, none⟩ : Access Buf)) hidx)))
  · have hoff : t.kernelOffsetsPlus.length = numBuckets + 1 := length_wordsFrom _ _ _
    have := h.2
    simp only [splitWords, hoff] at this
    exact absurd this (by decide)
  · have hconf : Confined (fun a => a.idx < 2 ^ 32) uint32 m (phaseBDispatch 7282) :=
      confined_uint32
    have hlt := hconf.stored s hs
    rw [heq] at hlt
    exact absurd hlt (by decide)

/-! ### A file without items -/

/-- The words of the two permutations, and those after them. -/
def idleTail : List UInt32 :=
  (List.range 128).map UInt32.ofNat ++ ((List.range 128).map UInt32.ofNat ++ List.replicate 8 0)

theorem length_idleTail : idleTail.length = 264 := by
  simp only [idleTail, List.length_append, List.length_map, List.length_range,
    List.length_replicate]

/-- Every bucket in its own place, and empty. -/
def idleFile : List UInt8 := plainFile (List.replicate 6422786 0 ++ idleTail)

theorem accepted_idleFile : Accepted idleFile := by
  refine accepted_plainFile ?_
  rw [List.length_append, List.length_replicate, length_idleTail, plainWords]

theorem idleWords_zero {i : ℕ} (hi : i < 6422786) :
    (List.replicate 6422786 0 ++ idleTail).getD i 0 = 0 := by
  rw [List.getD_eq_getElem?_getD, List.getElem?_append_left (by rwa [List.length_replicate]),
    List.getElem?_replicate, if_pos hi, Option.getD_some]

theorem idleWords_tail (i : ℕ) :
    (List.replicate 6422786 0 ++ idleTail).getD (6422786 + i) 0 = idleTail.getD i 0 := by
  rw [List.getD_eq_getElem?_getD, List.getElem?_append_right
    (by rw [List.length_replicate]; exact Nat.le_add_right _ i), List.length_replicate,
    Nat.add_sub_cancel_left, List.getD_eq_getElem?_getD]

theorem idleTail_perm {start i : ℕ} (hstart : start = 0 ∨ start = 128) (hi : i < 128) :
    (idleTail.getD (start + i) 0).toNat = i := by
  have hlen : ((List.range 128).map UInt32.ofNat).length = 128 := by
    rw [List.length_map, List.length_range]
  have hget : ∀ l, (((List.range 128).map UInt32.ofNat ++ l).getD i 0).toNat = i := by
    intro l
    rw [List.getD_eq_getElem?_getD, List.getElem?_append_left (by rwa [hlen]), List.getElem?_map,
      List.getElem?_range hi, Option.map_some, Option.getD_some]
    exact UInt32.toNat_ofNat_of_lt (hi.trans (by decide))
  rcases hstart with rfl | rfl
  · rw [Nat.zero_add]
    exact hget _
  · rw [idleTail, List.getD_eq_getElem?_getD, List.getElem?_append_right
      (by rw [hlen]; exact Nat.le_add_right 128 i), hlen, Nat.add_sub_cancel_left,
      ← List.getD_eq_getElem?_getD]
    exact hget _

theorem halfWf_idle {offsets perm : List UInt32} (hoffsets : ∀ k, offsets.getD k 0 = 0)
    (hperm : (perm.map UInt32.toNat).Perm (List.range numBuckets)) : HalfWf [] offsets perm where
  perm := hperm
  mono k _ := by rw [hoffsets, hoffsets]
  total := by rw [hoffsets]; exact Nat.le_refl _
  position it _ h := by
    rw [hoffsets] at h
    exact absurd h (Nat.not_lt_zero it)

theorem tablesWf_idleFile : TablesWf (parsed idleFile) := by
  obtain ⟨hplus, hminus, hoffP, hoffM, hpermP, hpermM⟩ :=
    lists_plainFile (List.replicate 6422786 0 ++ idleTail)
  have hoffsets : ∀ start, start + 129 ≤ 6422786 → ∀ k, ((List.range 129).map fun i =>
      (List.replicate 6422786 0 ++ idleTail).getD (start + i) 0).getD k 0 = 0 := by
    intro start hstart k
    by_cases hk : k < 129
    · rw [getD_of_lt (by rwa [List.length_map, List.length_range]), List.getElem_map,
        List.getElem_range]
      exact idleWords_zero (by omega)
    · rw [List.getD_eq_getElem?_getD, List.getElem?_eq_none
        (by rw [List.length_map, List.length_range]; exact Nat.le_of_not_lt hk), Option.getD_none]
  have hperm : ∀ start, start = 0 ∨ start = 128 → ((((List.range 128).map fun i =>
      (List.replicate 6422786 0 ++ idleTail).getD (6422786 + start + i) 0).map
        UInt32.toNat).Perm (List.range 128)) := by
    intro start hstart
    refine List.Perm.of_eq ?_
    rw [List.map_map]
    refine (List.map_congr_left fun i hi => ?_).trans (List.map_id _)
    rw [Function.comp_apply, add_assoc, idleWords_tail,
      idleTail_perm hstart (List.mem_range.mp hi), id]
  constructor
  · rw [idleFile, hplus, hoffP, hpermP]
    exact halfWf_idle (hoffsets 6422528 (by decide)) (hperm 0 (.inl rfl))
  · rw [idleFile, hminus, hoffM, hpermM]
    exact halfWf_idle (hoffsets 6422657 (by decide)) (hperm 128 (.inr rfl))

/-- The split pass of one blob over the lists of such a file. -/
theorem loadFrom_idleFile :
    let t := (loadFrom (some idleFile) emptyTables).2
    TablesWf t ∧ ∀ a ∈ (phaseBDispatch 1).reads uint32 (uploadTables t fun _ _ => 0),
      InSplitBuffers t 1 a := by
  dsimp only
  have hload := loadFrom_accepted accepted_idleFile emptyTables
  have hwf : TablesWf (loadFrom (some idleFile) emptyTables).2 := by
    rw [hload]
    exact tablesWf_idleFile
  have hok : (loadFrom (some idleFile) emptyTables).1 = .ok := by rw [hload]
  exact ⟨hwf, (((loadFrom_safe idleFile emptyTables).2 hok hwf _ _ fun b _ => rfl) 1).1.1⟩

end Vkzg
