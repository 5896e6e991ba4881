import Vkzg.Library.Circulant
import Vkzg.Shaders.Normalize
import Vkzg.Shaders.PhaseA

/-! Phase B: `k_ladder.comp`, `k_fold_ladder.comp`, `k_phase_b_split.comp` and
`k_combine_split.comp`. With the normalization and the bucket reduction between them they compute
the circulant product of 128 points as a cyclic and a negacyclic product of 64. -/

namespace Vkzg
open Radix Gpu Gpu.Kernel

/-! ### The kernels -/

/-- `2 ^ (8 d)` times a point, by doublings. -/
def ladderPoint (p : G1) : ℕ → G1
  | 0 => p
  | d + 1 => g1DblN windowBits (ladderPoint p d)

def kLadder (wg b : ℕ) : Shader Unit :=
  each (List.range 32) fun tid => do
    let j := wg * 32 + tid
    let acc ← g1Load .points ((b * circulantSize + j) * jacobianWords)
    each (List.range ladderPositions) fun d => g1Store .ladderJac
      (((b * circulantSize + j) * ladderPositions + d) * jacobianWords) (ladderPoint acc d)

/-- The thread of point `jd / 32` and position `jd % 32`. -/
def foldThread (b jd : ℕ) : Shader Unit := do
  let j := jd / ladderPositions
  let d := jd % ladderPositions
  let blobBase := b * circulantSize * ladderPositions * jacobianWords
  let lo := blobBase + (j * ladderPositions + d) * jacobianWords
  let hi := blobBase + ((j + circulantHalf) * ladderPositions + d) * jacobianWords
  let a ← g1Load .ladderJac lo
  let c ← g1Load .ladderJac hi
  g1Store .ladderJacFolded lo (g1Add a c)
  g1Store .ladderJacFolded hi (g1Sub a c)

def kFoldLadder (wg b : ℕ) : Shader Unit :=
  each (List.range 128) fun tid => foldThread b (wg * 128 + tid)

/-- The buffers of one half's kernel lists. -/
structure KernelLists where
  items : Buf
  offsets : Buf
  perm : Buf

def plusLists : KernelLists := ⟨.kernelItemsPlus, .kernelOffsetsPlus, .kernelPermPlus⟩

def minusLists : KernelLists := ⟨.kernelItemsMinus, .kernelOffsetsMinus, .kernelPermMinus⟩

def itemTap (packed : ℕ) : ℕ := packed &&& 0xff
def itemPosition (packed : ℕ) : ℕ := packed >>> 8 &&& 0xff
def itemSign (packed : ℕ) : ℕ := packed >>> 16 &&& 1

def phaseBStep (lists : KernelLists) (lbase aa : ℕ) (isMinus : Bool) (acc : G1) (it : ℕ) :
    Shader G1 := do
  let packed ← load 4 lists.items it
  let e := itemTap packed
  let src := (aa + 2 ^ 32 - e) % 2 ^ 32 &&& (circulantHalf - 1)
  let pt ← g1aLoad .ladderAff (lbase + (src * ladderPositions + itemPosition packed) * affineWords)
  let pt := if itemSign packed ≠ 0 then { pt with y := fpNeg pt.y } else pt
  let pt := if isMinus ∧ e > aa then { pt with y := fpNeg pt.y } else pt
  pure (g1Madd acc pt)

/-- The lists of the half an output belongs to. -/
def listsOf (a : ℕ) : KernelLists := if a ≥ circulantHalf then minusLists else plusLists

/-- The output within its half, and where the half's ladder rows begin. -/
def halfIndex (a : ℕ) : ℕ := if a ≥ circulantHalf then a - circulantHalf else a
def halfBase (a : ℕ) : ℕ := if a ≥ circulantHalf then circulantHalf else 0

def kPhaseBSplit (a b : ℕ) : Shader Unit := do
  let isMinus := decide (a ≥ circulantHalf)
  let aa := halfIndex a
  let lists := listsOf a
  let halfOffset := halfBase a * ladderPositions * affineWords
  each (List.range numBuckets) fun tid => do
    let bucket ← load 4 lists.perm tid
    let lo ← load 4 lists.offsets bucket
    let hi ← load 4 lists.offsets (bucket + 1)
    let lbase := b * circulantSize * ladderPositions * affineWords + halfOffset
    let acc ← (List.range' lo (hi - lo)).foldlM (phaseBStep lists lbase aa isMinus) g1Identity
    g1Store .buckets
      ((b * circulantSize * numBuckets + a * numBuckets + bucket) * jacobianWords) acc

def kCombineSplit (b : ℕ) : Shader Unit :=
  each (List.range circulantHalf) fun a => do
    let cp ← g1Load .points ((b * circulantSize + a) * jacobianWords)
    let cm ← g1Load .points ((b * circulantSize + a + circulantHalf) * jacobianWords)
    g1Store .proofs ((b * circulantSize + a) * jacobianWords) (g1Add cp cm)
    g1Store .proofs ((b * circulantSize + a + circulantHalf) * jacobianWords) (g1Sub cp cm)

/-! ### Recording phase B -/

def ladderDispatch (batch : ℕ) : Shader Unit := dispatch kLadder (circulantSize / 32) batch

def foldLadderDispatch (batch : ℕ) : Shader Unit :=
  dispatch kFoldLadder (circulantHalf * ladderPositions / 128) batch

def normalizeLadder (batch : ℕ) : Shader Unit := do
  let ladderPoints ← uint (batch * circulantSize * ladderPositions)
  recordNormalize (circulantSize * ladderPositions) .ladderAff .ladderJacFolded ladderPoints
    (inversionChunk ladderPoints 32 128 8192)

def phaseBDispatch (batch : ℕ) : Shader Unit := dispatch kPhaseBSplit circulantSize batch

def combineDispatch (batch : ℕ) : Shader Unit := dispatch (fun _ b => kCombineSplit b) 1 batch

/-- From the points `u` of phase A to the circulant product. -/
def phaseB (gpuTotalCores : ℕ) (sg : ℕ → ℕ → Subgroup) (batch : ℕ) : List (Shader Unit) :=
  [ladderDispatch batch, foldLadderDispatch batch, normalizeLadder batch, phaseBDispatch batch,
    recordReduce gpuTotalCores sg .points circulantSize batch, combineDispatch batch]

/-! ### The ladder and its fold -/

section Ladder
variable {m : Mem} {batch : ℕ} {u : ℕ → ℕ → Point}

theorem ladderPoint_rep {p : G1} {P : Point} (h : G1Rep p P) (d : ℕ) :
    G1Rep (ladderPoint p d) (2 ^ (8 * d) • P) := by
  induction d with
  | zero => simpa [ladderPoint] using h
  | succ d ih =>
    rw [ladderPoint, Nat.mul_succ, pow_add, mul_nsmul]
    exact g1Rep_dblN ih 8

theorem blocks_ladder (m : Mem) (batch : ℕ) :
    Blocks ((ladderDispatch batch).stores id m) .ladderJac 4 36
    (List.range batch ×ˢ (List.range 4 ×ˢ (List.range 32 ×ˢ List.range ladderPositions)))
    (fun q => (q.1 * circulantSize + (q.2.1 * 32 + q.2.2.1)) * ladderPositions + q.2.2.2)
    (fun q => g1Words (ladderPoint (g1At m .points
      (q.1 * circulantSize + (q.2.1 * 32 + q.2.2.1))) q.2.2.2)) := by
  refine blocks_dispatch (fun b wg (p : ℕ × ℕ) =>
    (b * circulantSize + (wg * 32 + p.1)) * ladderPositions + p.2)
    (fun b wg (p : ℕ × ℕ) => g1Words (ladderPoint (g1At m .points
      (b * circulantSize + (wg * 32 + p.1))) p.2)) fun b _ wg _ => ?_
  rw [Blocks, kLadder, stores_each, landing_flatMap]
  rw [flatMap_product]
  refine List.flatMap_congr fun tid _ => ?_
  rw [stores_bind, stores_g1Load, List.nil_append, stores_each, landing_flatMap]
  refine List.flatMap_congr fun d _ => ?_
  rw [stores_g1Store, landing_block, val_g1Load]
  rfl

theorem ladder_rep (hu : ∀ b < batch, ∀ j < circulantSize,
      G1Rep (g1At m .points (b * circulantSize + j)) (u b j)) {b j d : ℕ} (hb : b < batch)
    (hj : j < circulantSize) (hd : d < ladderPositions) :
    G1Rep (g1At ((ladderDispatch batch).exec id m) .ladderJac
      ((b * circulantSize + j) * ladderPositions + d)) (2 ^ (8 * d) • u b j) := by
  have hdiv : j / 32 < 4 := Nat.div_lt_of_lt_mul hj
  have hj' : j / 32 * 32 + j % 32 = j := Nat.div_add_mod' j 32
  have hhit := g1At_hit (blocks_ladder m batch) (x := (b, j / 32, j % 32, d)) ?_
    (by simp only [List.mem_product, List.mem_range]; exact ⟨hb, hdiv, Nat.mod_lt j (by decide), hd⟩)
    m
  · simp only [hj'] at hhit
    rw [exec, hhit]
    exact ladderPoint_rep (hu b hb j hj) d
  · rintro ⟨b₁, w₁, t₁, d₁⟩ h₁ ⟨b₂, w₂, t₂, d₂⟩ h₂ heq
    simp only [List.mem_product, List.mem_range] at h₁ h₂
    obtain ⟨hpoint, rfl⟩ := block_inj h₁.2.2.2 h₂.2.2.2 heq
    simp only [hpoint]

/-- What the fold stores at position `d` for point `j` of the lower or upper half. -/
def foldPoint (m : Mem) (b j d half : ℕ) : G1 :=
  let a := g1At m .ladderJac ((b * circulantSize + j) * ladderPositions + d)
  let c := g1At m .ladderJac ((b * circulantSize + (j + circulantHalf)) * ladderPositions + d)
  if half = 0 then g1Add a c else g1Sub a c

theorem foldPoint_zero (b j d : ℕ) : foldPoint m b j d 0 =
    g1Add (g1At m .ladderJac ((b * circulantSize + j) * ladderPositions + d))
      (g1At m .ladderJac ((b * circulantSize + (j + circulantHalf)) * ladderPositions + d)) := by
  rw [foldPoint, if_pos rfl]

theorem foldPoint_one (b j d : ℕ) : foldPoint m b j d 1 =
    g1Sub (g1At m .ladderJac ((b * circulantSize + j) * ladderPositions + d))
      (g1At m .ladderJac ((b * circulantSize + (j + circulantHalf)) * ladderPositions + d)) := by
  rw [foldPoint, if_neg one_ne_zero]

theorem foldRow_lt {w t f : ℕ} (hw : w < 16) (ht : t < 128) (hf : f = 0 ∨ f = 1) :
    (w * 128 + t) / 32 + f * 64 < 128 := by omega

theorem foldRow_inj {r r' f f' : ℕ} (hr : r < 64) (hr' : r' < 64) (heq : r + f * 64 = r' + f' * 64) :
    r = r' ∧ f = f' := by omega

theorem ladderIndex_eq (b j d : ℕ) : b * circulantSize * ladderPositions * jacobianWords +
    (j * ladderPositions + d) * jacobianWords =
      ((b * circulantSize + j) * ladderPositions + d) * 36 := by ring

theorem landing_foldThread (b jd : ℕ) :
    landing .ladderJacFolded ((foldThread b jd).stores id m) =
      ([0, 1] : List ℕ).flatMap fun half => (List.range 36).map fun k =>
        (4, ((b * circulantSize + (jd / ladderPositions + half * circulantHalf)) * ladderPositions +
          jd % ladderPositions) * 36 + k,
          g1Words (foldPoint m b (jd / ladderPositions) (jd % ladderPositions) half) k) := by
  rw [foldThread, stores_bind, stores_bind, stores_bind, stores_g1Load, stores_g1Load,
    List.nil_append, List.nil_append, stores_g1Store, stores_g1Store, landing_append, landing_block,
    landing_block, ladderIndex_eq, ladderIndex_eq, val_g1Load, val_g1Load, List.flatMap_cons,
    List.flatMap_cons, List.flatMap_nil, List.append_nil, foldPoint_zero, foldPoint_one, Nat.zero_mul,
    Nat.one_mul, Nat.add_zero]
  simp only [id]

theorem blocks_foldLadder (m : Mem) (batch : ℕ) :
    Blocks ((foldLadderDispatch batch).stores id m) .ladderJacFolded 4 36
    (List.range batch ×ˢ (List.range 16 ×ˢ (List.range 128 ×ˢ ([0, 1] : List ℕ))))
    (fun q => (q.1 * circulantSize + ((q.2.1 * 128 + q.2.2.1) / ladderPositions +
      q.2.2.2 * circulantHalf)) * ladderPositions + (q.2.1 * 128 + q.2.2.1) % ladderPositions)
    (fun q => g1Words (foldPoint m q.1 ((q.2.1 * 128 + q.2.2.1) / ladderPositions)
      ((q.2.1 * 128 + q.2.2.1) % ladderPositions) q.2.2.2)) := by
  refine blocks_dispatch (fun b wg (p : ℕ × ℕ) =>
    (b * circulantSize + ((wg * 128 + p.1) / ladderPositions + p.2 * circulantHalf)) *
      ladderPositions + (wg * 128 + p.1) % ladderPositions)
    (fun b wg (p : ℕ × ℕ) => g1Words (foldPoint m b ((wg * 128 + p.1) / ladderPositions)
      ((wg * 128 + p.1) % ladderPositions) p.2)) fun b _ wg _ => ?_
  rw [Blocks, kFoldLadder, stores_each, landing_flatMap, flatMap_product]
  exact List.flatMap_congr fun tid _ => landing_foldThread b (wg * 128 + tid)

theorem foldLadder_elem {b j d half : ℕ} (hb : b < batch) (hj : j < circulantHalf)
    (hd : d < ladderPositions) (hhalf : half ∈ [0, 1]) :
    g1At ((foldLadderDispatch batch).exec id m) .ladderJacFolded
      ((b * circulantSize + (j + half * circulantHalf)) * ladderPositions + d) =
        foldPoint m b j d half := by
  have hjd : j * 32 + d < 128 * 16 := block_lt (q := 64) hj hd
  have hdiv : (j * 32 + d) / 32 = j := block_div hd
  have hmod : (j * 32 + d) % 32 = d := Nat.mul_add_mod_of_lt hd
  have hhit := g1At_hit (blocks_foldLadder m batch)
    (x := (b, (j * 32 + d) / 128, (j * 32 + d) % 128, half)) ?_
    (by simp only [List.mem_product, List.mem_range]
        exact ⟨hb, Nat.div_lt_of_lt_mul (hjd), Nat.mod_lt _ (by decide), hhalf⟩) m
  · simp only [Nat.div_add_mod', hdiv, hmod] at hhit
    exact hhit
  · rintro ⟨b₁, w₁, t₁, f₁⟩ h₁ ⟨b₂, w₂, t₂, f₂⟩ h₂ heq
    simp only [List.mem_product, List.mem_range, List.mem_cons, List.not_mem_nil, or_false] at h₁ h₂
    obtain ⟨hpoint, hpos⟩ := block_inj (Nat.mod_lt _ (by decide)) (Nat.mod_lt _ (by decide)) heq
    obtain ⟨rfl, hrows⟩ := block_inj (foldRow_lt h₁.2.1 h₁.2.2.1 h₁.2.2.2)
      (foldRow_lt h₂.2.1 h₂.2.2.1 h₂.2.2.2) hpoint
    have hjd : ∀ w t, w < 16 → t < 128 → (w * 128 + t) / 32 < 64 := fun w t _ _ => by omega
    obtain ⟨hrow, rfl⟩ := foldRow_inj (hjd _ _ h₁.2.1 h₁.2.2.1) (hjd _ _ h₂.2.1 h₂.2.2.1) hrows
    simp only [ladderPositions] at hpos ⊢
    rw [hrow, hpos]

/-- The fold leaves the sums of opposite points in the lower half, the differences in the upper. -/
theorem foldLadder_rep (hL : ∀ b < batch, ∀ j < circulantSize, ∀ d < ladderPositions,
      G1Rep (g1At m .ladderJac ((b * circulantSize + j) * ladderPositions + d))
        (2 ^ (8 * d) • u b j)) {b j d : ℕ} (hb : b < batch) (hj : j < circulantHalf)
    (hd : d < ladderPositions) :
    G1Rep (g1At ((foldLadderDispatch batch).exec id m) .ladderJacFolded
        ((b * circulantSize + j) * ladderPositions + d))
      (2 ^ (8 * d) • (u b j + u b (j + circulantHalf))) ∧
    G1Rep (g1At ((foldLadderDispatch batch).exec id m) .ladderJacFolded
        ((b * circulantSize + (j + circulantHalf)) * ladderPositions + d))
      (2 ^ (8 * d) • (u b j - u b (j + circulantHalf))) := by
  have hlow := foldLadder_elem (m := m) hb hj hd (show 0 ∈ [0, 1] by simp)
  have hhigh := foldLadder_elem (m := m) hb hj hd (show 1 ∈ [0, 1] by simp)
  rw [Nat.zero_mul, Nat.add_zero] at hlow
  rw [Nat.one_mul] at hhigh
  have ha := hL b hb j (Nat.lt_trans hj (by decide)) d hd
  have hc := hL b hb (j + circulantHalf) (Nat.add_lt_add_right hj circulantHalf) d hd
  rw [hlow, hhigh, foldPoint_zero, foldPoint_one, nsmul_add, nsmul_sub]
  exact ⟨g1Rep_add ha hc, g1Rep_sub ha hc⟩

end Ladder

/-! ### The kernel lists -/

def bucketItems (m : Mem) (lists : KernelLists) (k : ℕ) : List ℕ :=
  let lo := m.elem 4 lists.offsets k
  (List.range' lo (m.elem 4 lists.offsets (k + 1) - lo)).map (m.elem 4 lists.items)

/-- The lists visit every bucket, and their items name taps and positions in range. -/
structure ListsWf (m : Mem) (lists : KernelLists) : Prop where
  perm_lt : ∀ t < numBuckets, m.elem 4 lists.perm t < numBuckets
  perm_surj : ∀ k < numBuckets, ∃ t < numBuckets, m.elem 4 lists.perm t = k
  item : ∀ k < numBuckets, ∀ packed ∈ bucketItems m lists k,
    itemTap packed < circulantHalf ∧ itemPosition packed < ladderPositions

/-- What an item of bucket `k` contributes to its tap. -/
def itemWeight (k packed : ℕ) : ℤ :=
  (if itemSign packed ≠ 0 then -1 else 1) * ((k + 1) * 2 ^ (8 * itemPosition packed))

/-- The kernel value the lists encode at tap `e`. -/
def tapOf (m : Mem) (lists : KernelLists) (e : ℕ) : ℤ :=
  ∑ k ∈ Finset.range numBuckets,
    ((bucketItems m lists k).map fun packed => if itemTap packed = e then itemWeight k packed else 0).sum

/-- An item's multiple of the point of its tap. -/
def tapPoint {G : Type} [AddCommGroup G] (V : ℕ → G) (packed : ℕ) : G :=
  if itemSign packed ≠ 0 then -(2 ^ (8 * itemPosition packed) • V (itemTap packed))
  else 2 ^ (8 * itemPosition packed) • V (itemTap packed)

/-- The point a tap reaches from an output, negated where the negacyclic half wraps. -/
def wrapped {G : Type} [AddCommGroup G] (W : ℕ → G) (aa : ℕ) (isMinus : Bool) (e : ℕ) : G :=
  if isMinus ∧ e > aa then -W (Circulant.source circulantHalf aa e)
  else W (Circulant.source circulantHalf aa e)

/-- The folded points of the half an output belongs to. -/
def halfPoints {G : Type} [AddCommGroup G] (u : ℕ → G) (a s : ℕ) : G :=
  if a ≥ circulantHalf then u s - u (s + circulantHalf) else u s + u (s + circulantHalf)

/-- The reduced output: of the cyclic product below 64, of the negacyclic one from there on. -/
def splitOutput {G : Type} [AddCommGroup G] (plus minus : ℕ → ℤ) (u : ℕ → G) (a : ℕ) : G :=
  if a ≥ circulantHalf then Circulant.negacyclic circulantHalf minus u (a - circulantHalf)
  else Circulant.cyclic circulantHalf plus u a

section Taps
variable {G : Type} [AddCommGroup G] {V : ℕ → G}

theorem smul_tapPoint (k packed : ℕ) :
    (k + 1) • tapPoint V packed = itemWeight k packed • V (itemTap packed) := by
  rw [tapPoint, itemWeight]
  split_ifs
  · rw [smul_neg, ← mul_smul, neg_one_mul, neg_smul, ← natCast_zsmul]
    push_cast
    rfl
  · rw [← mul_smul, one_mul, ← natCast_zsmul]
    push_cast
    rfl

theorem flip_flip (n : ℕ) (P : G) (c₁ c₂ : Prop) [Decidable c₁] [Decidable c₂] :
    (if c₂ then -(if c₁ then -(n • P) else n • P) else if c₁ then -(n • P) else n • P) =
      if c₁ then -(n • if c₂ then -P else P) else n • if c₂ then -P else P := by
  split_ifs <;> simp

/-- Grouping the weighted items of all buckets by tap. -/
theorem sum_tapPoint (items : ℕ → List ℕ)
    (htap : ∀ k < numBuckets, ∀ packed ∈ items k, itemTap packed < circulantHalf) :
    ∑ k ∈ Finset.range numBuckets, (k + 1) • ((items k).map (tapPoint V)).sum =
      ∑ e ∈ Finset.range circulantHalf, (∑ k ∈ Finset.range numBuckets, ((items k).map fun packed =>
        if itemTap packed = e then itemWeight k packed else 0).sum) • V e := by
  have hlist : ∀ k (l : List ℕ), (∀ packed ∈ l, itemTap packed < circulantHalf) →
      (k + 1) • (l.map (tapPoint V)).sum = ∑ e ∈ Finset.range circulantHalf,
        (l.map fun packed => if itemTap packed = e then itemWeight k packed else 0).sum • V e := by
    intro k l
    induction l with
    | nil => simp
    | cons packed l ih =>
      intro hl
      have hmem : itemTap packed ∈ Finset.range circulantHalf :=
        Finset.mem_range.mpr (hl packed List.mem_cons_self)
      rw [List.map_cons, List.sum_cons, smul_add, smul_tapPoint,
        ih fun p hp => hl p (List.mem_cons_of_mem packed hp)]
      simp only [List.map_cons, List.sum_cons, add_smul, Finset.sum_add_distrib, ite_smul, zero_smul,
        Finset.sum_ite_eq, if_pos hmem]
  rw [Finset.sum_congr rfl fun k hk => hlist k _ (htap k (Finset.mem_range.mp hk)),
    Finset.sum_comm]
  exact Finset.sum_congr rfl fun e _ => Finset.sum_smul.symm

theorem sum_wrapped (plus minus : ℕ → ℤ) (u : ℕ → G) (a : ℕ) :
    ∑ e ∈ Finset.range circulantHalf, (if a ≥ circulantHalf then minus e else plus e) •
        wrapped (halfPoints u a) (halfIndex a) (decide (a ≥ circulantHalf)) e =
      splitOutput plus minus u a := by
  rw [splitOutput]
  by_cases ha : a ≥ circulantHalf
  · simp only [ha, if_true, Circulant.negacyclic, wrapped, halfPoints, halfIndex, decide_true,
      true_and]
  · simp only [ha, if_false, Circulant.cyclic, wrapped, halfPoints, halfIndex, decide_false,
      Bool.false_eq_true, false_and]

end Taps

section Lists
variable {m m' : Mem} {lists : KernelLists}

theorem bucketItems_congr (hitems : m' lists.items = m lists.items)
    (hoffsets : m' lists.offsets = m lists.offsets) :
    bucketItems m' lists = bucketItems m lists := by
  have hwords : m'.elem 4 lists.items = m.elem 4 lists.items :=
    funext (Memory.elem_congr hitems 4)
  funext k
  simp only [bucketItems, hwords, Memory.elem_congr hoffsets]

theorem tapOf_congr (hitems : m' lists.items = m lists.items)
    (hoffsets : m' lists.offsets = m lists.offsets) : tapOf m' lists = tapOf m lists := by
  funext e
  rw [tapOf, bucketItems_congr hitems hoffsets, tapOf]

theorem ListsWf.congr (h : ListsWf m lists) (hitems : m' lists.items = m lists.items)
    (hoffsets : m' lists.offsets = m lists.offsets) (hperm : m' lists.perm = m lists.perm) :
    ListsWf m' lists where
  perm_lt t ht := by
    rw [Memory.elem_congr hperm]
    exact h.perm_lt t ht
  perm_surj k hk := by
    simp only [Memory.elem_congr hperm]
    exact h.perm_surj k hk
  item := by
    rw [bucketItems_congr hitems hoffsets]
    exact h.item

end Lists

/-! ### The split product -/

/-- What the thread of bucket `k` of output `a` stores. -/
def splitBucket (m : Mem) (b a k : ℕ) : G1 :=
  let lo := m.elem 4 (listsOf a).offsets k
  let hi := m.elem 4 (listsOf a).offsets (k + 1)
  (List.range' lo (hi - lo)).foldl (fun acc it => (phaseBStep (listsOf a)
    (b * circulantSize * ladderPositions * affineWords + halfBase a * ladderPositions * affineWords)
    (halfIndex a) (decide (a ≥ circulantHalf)) acc it).val id m) g1Identity

section Split
variable {m : Mem} {batch : ℕ}

theorem source_eq_and {aa e : ℕ} (haa : aa < 64) (he : e < 64) :
    (aa + 2 ^ 32 - e) % 2 ^ 32 &&& (circulantHalf - 1) = Circulant.source circulantHalf aa e := by
  rw [Nat.and_two_pow_sub_one_eq_mod _ 6]
  show _ % 64 = (aa + 64 - e) % 64
  omega

theorem phaseBStep_rep {lists : KernelLists} {row aa it packed : ℕ} {isMinus : Bool} {W : ℕ → Point}
    (haa : aa < circulantHalf) (hpacked : m.elem 4 lists.items it = packed)
    (hitem : itemTap packed < circulantHalf ∧ itemPosition packed < ladderPositions)
    (hW : ∀ s < circulantHalf, ∀ d < ladderPositions,
      G1ARep (g1aAt m .ladderAff ((row + s) * ladderPositions + d)) (2 ^ (8 * d) • W s))
    {g : G1} {Q : Point} (hQ : G1Rep g Q) :
    G1Rep ((phaseBStep lists (row * ladderPositions * affineWords) aa isMinus g it).val id m)
      (Q + tapPoint (wrapped W aa isMinus) packed) := by
  have hidx : ∀ s d, row * ladderPositions * affineWords + (s * ladderPositions + d) * affineWords =
      ((row + s) * ladderPositions + d) * 24 := fun s d => by ring
  have hpt := hW _ (Circulant.source_lt (e := itemTap packed) haa) _ hitem.2
  simp only [phaseBStep, val_bind, val_load, val_pure, id, hpacked, source_eq_and haa hitem.1, hidx,
    val_g1aLoad]
  refine g1Rep_madd hQ ?_
  rw [tapPoint, wrapped, ← flip_flip]
  exact g1aRep_flip (g1aRep_flip hpt)

theorem stores_phaseBStep (v : ℕ → ℕ) (lists : KernelLists) (lbase aa : ℕ) (isMinus : Bool) (g : G1)
    (it : ℕ) : (phaseBStep lists lbase aa isMinus g it).stores v m = [] := rfl

theorem blocks_phaseB : Blocks ((phaseBDispatch batch).stores id m) .buckets 4 36
    (List.range batch ×ˢ (List.range circulantSize ×ˢ List.range numBuckets))
    (fun q => (q.1 * circulantSize + q.2.1) * numBuckets + m.elem 4 (listsOf q.2.1).perm q.2.2)
    (fun q => g1Words (splitBucket m q.1 q.2.1 (m.elem 4 (listsOf q.2.1).perm q.2.2))) := by
  refine blocks_dispatch (fun b a t => (b * circulantSize + a) * numBuckets +
    m.elem 4 (listsOf a).perm t)
    (fun b a t => g1Words (splitBucket m b a (m.elem 4 (listsOf a).perm t)))
    fun b _ a _ => blocks_each fun t _ => ?_
  rw [stores_bind, stores_bind, stores_bind, stores_bind, stores_load, stores_load, stores_load,
    stores_foldlM fun g it _ => stores_phaseBStep id _ _ _ _ g it, stores_g1Store]
  simp only [List.nil_append, landing_block, val_load, id, val_foldlM, splitBucket, Nat.add_mul]

theorem listsWf_listsOf (hplus : ListsWf m plusLists) (hminus : ListsWf m minusLists) (a : ℕ) :
    ListsWf m (listsOf a) := by
  rw [listsOf]
  split_ifs
  · exact hminus
  · exact hplus

theorem splitBucket_rep {b a k : ℕ} (ha : a < circulantSize) (hwf : ListsWf m (listsOf a))
    (hk : k < numBuckets) {W : ℕ → Point}
    (hW : ∀ s < circulantHalf, ∀ d < ladderPositions, G1ARep (g1aAt m .ladderAff
      ((b * circulantSize + halfBase a + s) * ladderPositions + d)) (2 ^ (8 * d) • W s)) :
    G1Rep (splitBucket m b a k) ((bucketItems m (listsOf a) k).map
      (tapPoint (wrapped W (halfIndex a) (decide (a ≥ circulantHalf))))).sum := by
  have hindex : halfIndex a < circulantHalf := by
    rw [halfIndex]
    split_ifs with h
    · exact Nat.sub_lt_left_of_lt_add h ha
    · exact Nat.lt_of_not_ge h
  have hlen : m.elem 4 (listsOf a).offsets (k + 1) - m.elem 4 (listsOf a).offsets k =
      ((bucketItems m (listsOf a) k).map
        (tapPoint (wrapped W (halfIndex a) (decide (a ≥ circulantHalf))))).length := by
    rw [List.length_map, bucketItems, List.length_map, List.length_range']
  rw [splitBucket, hlen, ← zero_add (List.sum _), ← Nat.add_mul, ← Nat.add_mul]
  refine foldl_range'_rep (fun i hi g P hg => ?_) g1Rep_identity
  rw [List.length_map] at hi
  rw [List.getElem_map]
  refine phaseBStep_rep hindex ?_ (hwf.item k hk _ (List.getElem_mem hi)) hW hg
  simp [bucketItems, List.getElem_range']

theorem phaseB_buckets (hplus : ListsWf m plusLists) (hminus : ListsWf m minusLists)
    {u : ℕ → ℕ → Point}
    (hA : ∀ b < batch, ∀ a < circulantSize, ∀ s < circulantHalf, ∀ d < ladderPositions,
      G1ARep (g1aAt m .ladderAff ((b * circulantSize + halfBase a + s) * ladderPositions + d))
        (2 ^ (8 * d) • halfPoints (u b) a s)) :
    BucketsHold ((phaseBDispatch batch).exec id m) circulantSize batch fun b a k =>
      ((bucketItems m (listsOf a) k).map (tapPoint (wrapped (halfPoints (u b) a) (halfIndex a)
        (decide (a ≥ circulantHalf))))).sum := by
  intro b hb a ha k hk
  have hwf := listsWf_listsOf hplus hminus
  obtain ⟨t, ht, hperm⟩ := (hwf a).perm_surj k hk
  have hhit := g1At_hit (blocks_phaseB (m := m)) (x := (b, a, t)) ?_
    (by simp only [List.mem_product, List.mem_range]; exact ⟨hb, ha, ht⟩) m
  · simp only [hperm] at hhit
    rw [exec, hhit]
    exact splitBucket_rep ha (hwf a) hk (hA b hb a ha)
  · rintro ⟨b₁, a₁, t₁⟩ h₁ ⟨b₂, a₂, t₂⟩ h₂ heq
    simp only [List.mem_product, List.mem_range] at h₁ h₂
    obtain ⟨ho, hbucket⟩ := block_inj ((hwf a₁).perm_lt t₁ h₁.2.2) ((hwf a₂).perm_lt t₂ h₂.2.2) heq
    obtain ⟨rfl, rfl⟩ := block_inj h₁.2.1 h₂.2.1 ho
    simp only [hbucket]

end Split

/-! ### The recombination -/

section Combine
variable {m : Mem} {batch : ℕ}

/-- What the recombination stores for output `a` of the lower or upper half. -/
def combinePoint (m : Mem) (b a half : ℕ) : G1 :=
  let cp := g1At m .points (b * circulantSize + a)
  let cm := g1At m .points (b * circulantSize + a + circulantHalf)
  if half = 0 then g1Add cp cm else g1Sub cp cm

theorem landing_kCombineSplit (b : ℕ) : landing .proofs ((kCombineSplit b).stores id m) =
    (List.range circulantHalf ×ˢ ([0, 1] : List ℕ)).flatMap fun p => (List.range 36).map fun k =>
      (4, (b * circulantSize + (p.1 + p.2 * circulantHalf)) * 36 + k,
        g1Words (combinePoint m b p.1 p.2) k) := by
  rw [flatMap_product, kCombineSplit, stores_each, landing_flatMap]
  refine List.flatMap_congr fun a _ => ?_
  rw [stores_bind, stores_bind, stores_bind, stores_g1Load, stores_g1Load, List.nil_append,
    List.nil_append, stores_g1Store, stores_g1Store, landing_append, landing_block, landing_block,
    val_g1Load, val_g1Load, List.flatMap_cons, List.flatMap_cons, List.flatMap_nil, List.append_nil,
    combinePoint, combinePoint, if_pos rfl, if_neg one_ne_zero, Nat.zero_mul, Nat.one_mul,
    Nat.add_zero, ← Nat.add_assoc]
  simp only [id]

theorem blocks_combine (m : Mem) (batch : ℕ) :
    Blocks ((combineDispatch batch).stores id m) .proofs 4 36
    (List.range batch ×ˢ (List.range 1 ×ˢ (List.range circulantHalf ×ˢ ([0, 1] : List ℕ))))
    (fun q => q.1 * circulantSize + (q.2.2.1 + q.2.2.2 * circulantHalf))
    (fun q => g1Words (combinePoint m q.1 q.2.2.1 q.2.2.2)) :=
  blocks_dispatch (fun b _ (p : ℕ × ℕ) => b * circulantSize + (p.1 + p.2 * circulantHalf))
    (fun b _ (p : ℕ × ℕ) => g1Words (combinePoint m b p.1 p.2))
    fun b _ _ _ => landing_kCombineSplit b

theorem combine_elem {b a half : ℕ} (hb : b < batch) (ha : a < circulantHalf)
    (hhalf : half ∈ ([0, 1] : List ℕ)) :
    g1At ((combineDispatch batch).exec id m) .proofs
      (b * circulantSize + (a + half * circulantHalf)) = combinePoint m b a half := by
  have hhit := g1At_hit (blocks_combine m batch) (x := (b, 0, a, half)) ?_
    (by simp only [List.mem_product, List.mem_range]; exact ⟨hb, Nat.one_pos, ha, hhalf⟩) m
  · exact hhit
  · rintro ⟨b₁, w₁, a₁, f₁⟩ h₁ ⟨b₂, w₂, a₂, f₂⟩ h₂ heq
    simp only [List.mem_product, List.mem_range, List.mem_cons, List.not_mem_nil, or_false] at h₁ h₂
    have hlt : ∀ a f, a < 64 → f = 0 ∨ f = 1 → a + f * 64 < 128 := fun a f _ _ => by omega
    obtain ⟨rfl, hrow⟩ := block_inj (hlt _ _ h₁.2.2.1 h₁.2.2.2) (hlt _ _ h₂.2.2.1 h₂.2.2.2) heq
    obtain ⟨rfl, rfl⟩ := foldRow_inj h₁.2.2.1 h₂.2.2.1 hrow
    rfl

theorem combine_rep {C : ℕ → ℕ → Point} (hC : ∀ b < batch, ∀ a < circulantSize,
      G1Rep (g1At m .points (b * circulantSize + a)) (C b a)) {b a : ℕ} (hb : b < batch)
    (ha : a < circulantHalf) :
    G1Rep (g1At ((combineDispatch batch).exec id m) .proofs (b * circulantSize + a))
      (C b a + C b (a + circulantHalf)) ∧
    G1Rep (g1At ((combineDispatch batch).exec id m) .proofs
        (b * circulantSize + (a + circulantHalf)))
      (C b a - C b (a + circulantHalf)) := by
  have hlow := combine_elem (m := m) hb ha (show 0 ∈ [0, 1] by simp)
  have hhigh := combine_elem (m := m) hb ha (show 1 ∈ [0, 1] by simp)
  rw [Nat.zero_mul, Nat.add_zero] at hlow
  rw [Nat.one_mul] at hhigh
  have hp := hC b hb a (Nat.lt_trans ha (by decide))
  have hm := hC b hb (a + circulantHalf) (Nat.add_lt_add_right ha circulantHalf)
  rw [← Nat.add_assoc] at hm
  rw [hlow, hhigh, combinePoint, combinePoint, if_pos rfl, if_neg one_ne_zero]
  exact ⟨g1Rep_add hp hm, g1Rep_sub hp hm⟩

end Combine

/-! ### The whole of phase B -/

section PhaseB
variable {m : Mem} {batch : ℕ} {sg : ℕ → ℕ → Subgroup} {b : Buf}

theorem frame_ladder (hb : b ≠ .ladderJac) : (ladderDispatch batch).exec id m b = m b :=
  exec_dispatch_frame fun wg y => landing_each_nil fun tid _ => by
    rw [stores_bind, stores_g1Load, List.nil_append]
    exact landing_each_nil fun d _ => by rw [stores_g1Store, landing_block_other hb.symm]

theorem frame_foldLadder (hb : b ≠ .ladderJacFolded) :
    (foldLadderDispatch batch).exec id m b = m b :=
  exec_dispatch_frame fun wg y => landing_each_nil fun tid _ => by
    rw [foldThread, stores_bind, stores_bind, stores_bind, stores_g1Load, stores_g1Load,
      List.nil_append, List.nil_append, stores_g1Store, stores_g1Store, landing_append,
      landing_block_other hb.symm, landing_block_other hb.symm, List.nil_append]

theorem frame_normalizeLadder (hscratch : b ≠ .normScratch) (hb : b ≠ .ladderAff) :
    (normalizeLadder batch).exec id m b = m b := by
  rw [normalizeLadder, exec_uint_bind]
  exact frame_recordNormalize hscratch hb

theorem frame_phaseBDispatch (hb : b ≠ .buckets) : (phaseBDispatch batch).exec id m b = m b :=
  exec_dispatch_frame fun a y => landing_each_nil fun tid _ => by
    rw [stores_bind, stores_bind, stores_bind, stores_bind, stores_load, stores_load, stores_load,
      stores_foldlM fun g it _ => stores_phaseBStep id _ _ _ _ g it, stores_g1Store]
    simp only [List.nil_append, landing_block_other hb.symm]

theorem frame_combine (hb : b ≠ .proofs) : (combineDispatch batch).exec id m b = m b :=
  exec_dispatch_frame fun _ y => landing_each_nil fun a _ => by
    rw [stores_bind, stores_bind, stores_bind, stores_g1Load, stores_g1Load, List.nil_append,
      List.nil_append, stores_g1Store, stores_g1Store, landing_append, landing_block_other hb.symm,
      landing_block_other hb.symm, List.nil_append]

theorem frame_phaseB (gpuTotalCores : ℕ) (hjac : b ≠ .ladderJac) (hfolded : b ≠ .ladderJacFolded)
    (hscratch : b ≠ .normScratch) (haff : b ≠ .ladderAff) (hbuckets : b ≠ .buckets)
    (hpoints : b ≠ .points) (hproofs : b ≠ .proofs) :
    runAll (phaseB gpuTotalCores sg batch) id m b = m b := by
  rw [phaseB, runAll_cons, runAll_cons, runAll_cons, runAll_cons, runAll_cons, runAll_cons,
    runAll_nil, frame_combine hproofs, frame_recordReduce hpoints, frame_phaseBDispatch hbuckets,
    frame_normalizeLadder hscratch haff, frame_foldLadder hfolded, frame_ladder hjac]

/-- The points of the folded ladder, both halves in a row. -/
def folded {G : Type} [AddCommGroup G] (u : ℕ → G) (j : ℕ) : G :=
  if j < circulantHalf then u j + u (j + circulantHalf) else u (j - circulantHalf) - u j

theorem folded_half {G : Type} [AddCommGroup G] (u : ℕ → G) {a s : ℕ} (hs : s < circulantHalf) :
    folded u (halfBase a + s) = halfPoints u a s := by
  rw [folded, halfBase, halfPoints]
  by_cases ha : a ≥ circulantHalf
  · rw [if_pos ha, if_pos ha, if_neg (Nat.not_lt.mpr (Nat.le_add_right _ s)),
      Nat.add_sub_cancel_left, Nat.add_comm s]
  · rw [if_neg ha, if_neg ha, Nat.zero_add, if_pos hs]

theorem normalizeLadder_rep {u : ℕ → ℕ → Point}
    (hF : ∀ b < batch, ∀ j < circulantHalf, ∀ d < ladderPositions,
      G1Rep (g1At m .ladderJacFolded ((b * circulantSize + j) * ladderPositions + d))
        (2 ^ (8 * d) • (u b j + u b (j + circulantHalf))) ∧
      G1Rep (g1At m .ladderJacFolded
          ((b * circulantSize + (j + circulantHalf)) * ladderPositions + d))
        (2 ^ (8 * d) • (u b j - u b (j + circulantHalf))))
    {b j d : ℕ} (hb : b < batch) (hj : j < circulantSize) (hd : d < ladderPositions) :
    G1ARep (g1aAt ((normalizeLadder batch).exec id m) .ladderAff
      ((b * circulantSize + j) * ladderPositions + d)) (2 ^ (8 * d) • folded (u b) j) := by
  have hpoint : ∀ b < batch, ∀ j < circulantSize, ∀ d < ladderPositions,
      G1Rep (g1At m .ladderJacFolded ((b * circulantSize + j) * ladderPositions + d))
        (2 ^ (8 * d) • folded (u b) j) := by
    intro b hb j hj d hd
    rw [folded]
    split_ifs with hlow
    · exact (hF b hb j hlow d hd).1
    · have hback : j - circulantHalf + circulantHalf = j :=
        Nat.sub_add_cancel (Nat.le_of_not_lt hlow)
      have hhigh := (hF b hb (j - circulantHalf)
        (Nat.sub_lt_left_of_lt_add (Nat.le_of_not_lt hlow) hj) d hd).2
      rwa [hback] at hhigh
  have hrow : b * circulantSize + j < batch * circulantSize := block_lt hb hj
  have hchunk : 0 < inversionChunk (batch * circulantSize * ladderPositions) 32 128 8192 :=
    inversionChunk_pos (by decide) (by decide)
  -- Point `i` of the batch is place `i % 32` of the ladder of output `i / 32`.
  have hrep := recordNormalize_rep (m := m) (circulantSize * ladderPositions) hchunk
    (show Buf.ladderAff ≠ .normScratch by decide)
    (P := fun i => 2 ^ (8 * (i % ladderPositions)) •
      folded (u (i / ladderPositions / circulantSize)) (i / ladderPositions % circulantSize))
    (fun i hi => by
      have hi' : i / ladderPositions < batch * circulantSize :=
        Nat.div_lt_of_lt_mul (by rwa [Nat.mul_comm])
      have := hpoint _ (Nat.div_lt_of_lt_mul (by rwa [Nat.mul_comm] at hi')) _
        (Nat.mod_lt (i / ladderPositions) (by decide)) _ (Nat.mod_lt i (by decide))
      rwa [Nat.div_add_mod', Nat.div_add_mod'] at this)
    (block_lt hrow hd)
  rw [normalizeLadder, exec_uint_bind]
  simpa only [block_div hd, Nat.mul_add_mod_of_lt hd, block_div hj, Nat.mul_add_mod_of_lt hj]
    using hrep

/-- The reduced outputs of phase B, over any points and any well-formed lists. -/
theorem phaseB_reduced {u : ℕ → ℕ → Point} (hplus : ListsWf m plusLists)
    (hminus : ListsWf m minusLists) {gpuTotalCores : ℕ}
    (hteams : WholeTeams gpuTotalCores circulantSize batch sg)
    (hA : ∀ b < batch, ∀ j < circulantSize, ∀ d < ladderPositions,
      G1ARep (g1aAt m .ladderAff ((b * circulantSize + j) * ladderPositions + d))
        (2 ^ (8 * d) • folded (u b) j)) {b a : ℕ} (hb : b < batch) (ha : a < circulantSize) :
    G1Rep (g1At (runAll [phaseBDispatch batch,
        recordReduce gpuTotalCores sg .points circulantSize batch] id m) .points
        (b * circulantSize + a))
      (splitOutput (tapOf m plusLists) (tapOf m minusLists) (u b) a) := by
  have hB := phaseB_buckets (u := u) hplus hminus fun b (hb : b < batch) a ha s hs d hd => by
    have hbase : halfBase a + s < circulantSize := by
      rw [halfBase]
      split_ifs
      · exact Nat.add_lt_add_left hs circulantHalf
      · rw [Nat.zero_add]
        exact Nat.lt_trans hs (by decide)
    have h := hA b hb _ hbase d hd
    rwa [folded_half _ hs, ← Nat.add_assoc] at h
  have hrep := (recordReduce_reducesTo hteams hB .points).rep (Nat.le_refl _) hb ha
  have hwf := listsWf_listsOf hplus hminus a
  rw [sum_tapPoint _ fun k hk packed hp => (hwf.item k hk packed hp).1] at hrep
  have htap : ∀ e, tapOf m (listsOf a) e =
      if a ≥ circulantHalf then tapOf m minusLists e else tapOf m plusLists e := fun e => by
    rw [listsOf]
    split_ifs <;> rfl
  rw [← sum_wrapped]
  simp only [← htap]
  exact hrep

/-- Phase B over any points and any well-formed lists: the sum and the difference of the cyclic and
the negacyclic product. -/
theorem phaseB_rep {u : ℕ → ℕ → Point} (hplus : ListsWf m plusLists)
    (hminus : ListsWf m minusLists) {gpuTotalCores : ℕ}
    (hteams : WholeTeams gpuTotalCores circulantSize batch sg)
    (hu : ∀ b < batch, ∀ j < circulantSize,
      G1Rep (g1At m .points (b * circulantSize + j)) (u b j)) {b a : ℕ} (hb : b < batch) (ha : a < circulantHalf) :
    G1Rep (g1At (runAll (phaseB gpuTotalCores sg batch) id m) .proofs (b * circulantSize + a))
      (Circulant.cyclic circulantHalf (tapOf m plusLists) (u b) a +
        Circulant.negacyclic circulantHalf (tapOf m minusLists) (u b) a) ∧
    G1Rep (g1At (runAll (phaseB gpuTotalCores sg batch) id m) .proofs
        (b * circulantSize + (a + circulantHalf)))
      (Circulant.cyclic circulantHalf (tapOf m plusLists) (u b) a -
        Circulant.negacyclic circulantHalf (tapOf m minusLists) (u b) a) := by
  rw [phaseB, runAll_cons, runAll_cons, runAll_cons]
  set m₃ := (normalizeLadder batch).exec id
    ((foldLadderDispatch batch).exec id ((ladderDispatch batch).exec id m)) with hm₃
  have hframe : ∀ b, b ≠ .ladderJac → b ≠ .ladderJacFolded → b ≠ .normScratch → b ≠ .ladderAff →
      m₃ b = m b := fun b h1 h2 h3 h4 => by
    rw [hm₃, frame_normalizeLadder h3 h4, frame_foldLadder h2, frame_ladder h1]
  -- The passes before the split leave the lists alone.
  have hlists : ∀ lists, lists = plusLists ∨ lists = minusLists →
      m₃ lists.items = m lists.items ∧ m₃ lists.offsets = m lists.offsets ∧
        m₃ lists.perm = m lists.perm := by
    rintro lists (rfl | rfl) <;>
      exact ⟨hframe _ (by decide) (by decide) (by decide) (by decide),
        hframe _ (by decide) (by decide) (by decide) (by decide),
        hframe _ (by decide) (by decide) (by decide) (by decide)⟩
  obtain ⟨hpi, hpo, hpp⟩ := hlists plusLists (.inl rfl)
  obtain ⟨hmi, hmo, hmp⟩ := hlists minusLists (.inr rfl)
  have hC : ∀ b < batch, ∀ a < circulantSize, G1Rep (g1At (runAll [phaseBDispatch batch,
        recordReduce gpuTotalCores sg .points circulantSize batch] id m₃) .points
        (b * circulantSize + a))
      (splitOutput (tapOf m plusLists) (tapOf m minusLists) (u b) a) := by
    intro b hb a ha
    rw [← tapOf_congr hpi hpo, ← tapOf_congr hmi hmo]
    refine phaseB_reduced (hplus.congr hpi hpo hpp) (hminus.congr hmi hmo hmp) hteams ?_ hb ha
    intro b hb j hj d hd
    exact normalizeLadder_rep (fun b hb j hj d hd => foldLadder_rep
      (fun b hb j hj d hd => ladder_rep hu hb hj hd) hb hj hd) hb hj hd
  have hrep := combine_rep hC hb ha
  have hnot : ¬a ≥ circulantHalf := Nat.not_le.mpr ha
  simp only [splitOutput, if_neg hnot, if_pos (show a + circulantHalf ≥ circulantHalf from
    Nat.le_add_left _ _), Nat.add_sub_cancel] at hrep
  exact hrep

/-- The lists encode the two half kernels of `K`. -/
structure Encodes (m : Mem) (K : ZMod circulantSize → ScalarField) : Prop where
  plusWf : ListsWf m plusLists
  minusWf : ListsWf m minusLists
  plus : ∀ e < circulantHalf, (tapOf m plusLists e : ScalarField) = (K e + K (e + 64)) / 2
  minus : ∀ e < circulantHalf, (tapOf m minusLists e : ScalarField) = (K e - K (e + 64)) / 2

theorem half_add_half : (2 : ScalarField)⁻¹ + 2⁻¹ = 1 := by
  have h2 : (2 : ScalarField) ≠ 0 := by
    exact_mod_cast natCast_ne_zero_of_lt (n := 2) (by decide) two_lt_frModulus
  rw [← two_mul, mul_inv_cancel₀ h2]

/-- Over points of scalar order phase B is the circulant product. -/
theorem phaseB_product {K : ZMod circulantSize → ScalarField} (hK : Encodes m K)
    {gpuTotalCores : ℕ} (hteams : WholeTeams gpuTotalCores circulantSize batch sg)
    {u : ℕ → ℕ → ScalarPoint} (hu : ∀ b < batch, ∀ j < circulantSize,
      G1Rep (g1At m .points (b * circulantSize + j)) (u b j)) {b a : ℕ} (hb : b < batch) (ha : a < circulantSize) :
    G1Rep (g1At (runAll (phaseB gpuTotalCores sg batch) id m) .proofs (b * circulantSize + a))
      ((Circulant.product circulantSize K (u b) a : ScalarPoint) : Point) := by
  have hlow : ∀ a < circulantHalf, _ := fun a ha =>
    phaseB_rep hK.plusWf hK.minusWf hteams hu hb (a := a) ha
  have hsplit : ∀ a < circulantHalf, _ := fun a ha =>
    Circulant.coe_product_split (n := circulantSize) (h := circulantHalf) ScalarPoint rfl
      (K := K) (u := u b) (a := a) ha half_add_half (tapOf m plusLists) (tapOf m minusLists)
      (fun e he => by rw [hK.plus e he, div_eq_inv_mul, Nat.cast_ofNat])
      (fun e he => by rw [hK.minus e he, div_eq_inv_mul, Nat.cast_ofNat])
  by_cases hhalf : a < circulantHalf
  · rw [(hsplit a hhalf).1]
    exact (hlow a hhalf).1
  · obtain ⟨c, rfl⟩ : ∃ c, a = c + circulantHalf :=
      ⟨a - circulantHalf, (Nat.sub_add_cancel (Nat.le_of_not_lt hhalf)).symm⟩
    have hc : c < circulantHalf := Nat.lt_of_add_lt_add_right ha
    rw [(hsplit c hc).2]
    exact (hlow c hc).2

end PhaseB

end Vkzg
