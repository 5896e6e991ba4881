import Vkzg.Library.BatchInverse
import Vkzg.Shaders.Buffers

/-! `k_normalize.comp` and the host's choice of its chunk: Jacobian points to affine ones, with one
field inversion for each thread's chunk. -/

namespace Vkzg
open Radix Gpu Gpu.Kernel ShortWeierstrass

/-! ### The kernel -/

/-- The product of the nonzero `z` below index `k` of a chunk. -/
def chunkProduct (z : ℕ → Fp) : ℕ → Fp
  | 0 => fpOne
  | k + 1 => if fpIsZero (z k) then chunkProduct z k else fpMul (chunkProduct z k) (z k)

/-- The inverse carried down the chunk, after `s` of its `n` points. -/
def chunkInverse (z : ℕ → Fp) (n : ℕ) : ℕ → Fp
  | 0 => fpInv (chunkProduct z n)
  | s + 1 => if fpIsZero (z (n - 1 - s)) then chunkInverse z n s
      else fpMul (chunkInverse z n s) (z (n - 1 - s))

/-- The affine point of a chunk's point, from the two running values at its index. -/
def affineFrom (p : G1) (pre inv : Fp) : G1A :=
  let zinv := fpMul pre inv
  let z2 := fpSqr zinv
  let z3 := fpMul z2 zinv
  ⟨fpMul p.x z2, fpMul p.y z3⟩

structure NormalizePC where
  outAffine : Buf
  inJacobian : Buf
  count : ℕ
  chunk : ℕ

/-- The first loop of a thread: before each point the product so far goes to the scratch buffer. -/
def storeProducts (perBlob lo n : ℕ) (z : ℕ → Fp) : Shader Unit :=
  each (List.range n) fun k => owned ((lo + k) / perBlob)
    (fpStore .normScratch ((lo + k) * fpWords) (chunkProduct z k))

/-- What the backward loop does at index `k`, once it has read the `z` there. The product before the
point is read back from the scratch buffer. -/
def normalizePoint (pc : NormalizePC) (z : ℕ → Fp) (n lo k : ℕ) (zk : Fp) : Shader Unit :=
  let dst := (lo + k) * affineWords
  if fpIsZero zk then storeWords 4 affineWords pc.outAffine dst fun _ => 0
  else do
    let pre ← reload 4 fpWords .normScratch ((lo + k) * fpWords) (chunkProduct z k)
    let x ← fpLoad pc.inJacobian ((lo + k) * jacobianWords)
    let y ← fpLoad pc.inJacobian ((lo + k) * jacobianWords + fpWords)
    g1aStore pc.outAffine dst (affineFrom ⟨x, y, zk⟩ pre (chunkInverse z n (n - 1 - k)))

/-- The two loops of a thread over its points from `lo` up to `next`; `perBlob` points in a row
belong to one blob. The lists of indices are those of `upLoop` and `downLoop`, less `lo`. -/
def normalizeChunk (perBlob : ℕ) (pc : NormalizePC) (lo next : ℕ) : Shader Unit :=
  if lo < pc.count then do
    let n := min next pc.count - lo
    let zs ← gather (List.range n) fun k => owned ((lo + k) / perBlob)
      (fpLoad pc.inJacobian ((lo + k) * jacobianWords + 2 * fpWords))
    let z := fun k => zs.getD k fpZero
    storeProducts perBlob lo n z
    each (List.range n).reverse fun k => owned ((lo + k) / perBlob) do
      let zk ← fpLoad pc.inJacobian ((lo + k) * jacobianWords + 2 * fpWords)
      normalizePoint pc z n lo k zk
  else pure ()

def kNormalize (perBlob : ℕ) (pc : NormalizePC) (wg : ℕ) : Shader Unit :=
  each (List.range 64) fun tid => do
    let lo ← uint ((wg * 64 + tid) * pc.chunk)
    let next ← uint (lo + pc.chunk)
    normalizeChunk perBlob pc lo next

/-! ### Recording a normalization -/

/-- Points per thread of the batched inversion. -/
def inversionChunk (count floorChunk ceilChunk targetThreads : ℕ) : ℕ :=
  let chunk := count / targetThreads
  let chunk := if chunk < floorChunk then floorChunk else chunk
  if chunk > ceilChunk then ceilChunk else chunk

def recordNormalize (perBlob : ℕ) (outAffine inJacobian : Buf) (count chunk : ℕ) : Shader Unit :=
  let threads := (count + chunk - 1) / chunk
  let groups := (threads + 63) / 64
  dispatch (fun wg _ => kNormalize perBlob ⟨outAffine, inJacobian, count, chunk⟩ wg) groups 1

theorem inversionChunk_pos {count floorChunk ceilChunk targetThreads : ℕ} (hfloor : 0 < floorChunk)
    (hceil : 0 < ceilChunk) : 0 < inversionChunk count floorChunk ceilChunk targetThreads := by
  simp only [inversionChunk]
  split_ifs <;> omega

/-! ### The affine points -/

section Chunk
variable {z : ℕ → Fp} {ζ : ℕ → BaseField} {n : ℕ}

theorem chunkProduct_rep (h : ∀ k < n, FpRep (z k) (ζ k)) {k : ℕ} (hk : k ≤ n) :
    FpRep (chunkProduct z k) (BatchInverse.prefixProd ζ k) := by
  induction k with
  | zero => exact fpRep_one
  | succ k ih =>
    rw [chunkProduct, BatchInverse.prefixProd]
    simp only [fpIsZero_iff (h k hk)]
    split_ifs
    · exact ih (Nat.le_of_succ_le hk)
    · exact fpRep_mul (ih (Nat.le_of_succ_le hk)) (h k hk)

theorem chunkInverse_rep (h : ∀ k < n, FpRep (z k) (ζ k)) {s : ℕ} (hs : s ≤ n) :
    FpRep (chunkInverse z n s) (BatchInverse.carried ζ n s) := by
  induction s with
  | zero => exact fpRep_inv (chunkProduct_rep h (Nat.le_refl n))
  | succ s ih =>
    have hz := h (n - 1 - s) (by omega)
    rw [chunkInverse, BatchInverse.carried]
    simp only [fpIsZero_iff hz]
    split_ifs
    · exact ih (Nat.le_of_succ_le hs)
    · exact fpRep_mul (ih (Nat.le_of_succ_le hs)) hz

/-- What a thread makes of the point at index `k` of its chunk. -/
def chunkAffine (p : G1) (z : ℕ → Fp) (n k : ℕ) : G1A :=
  if fpIsZero p.z then ⟨fpZero, fpZero⟩
  else affineFrom p (chunkProduct z k) (chunkInverse z n (n - 1 - k))

theorem chunkAffine_coords {ζ : ℕ → BaseField} (h : ∀ k < n, FpRep (z k) (ζ k)) {k : ℕ}
    (hk : k < n) {p : G1} {t : Triple BaseField} (hc : CoordRep p t) (hz : p.z = z k) :
    FpRep (chunkAffine p z n k).x t.affine.1 ∧ FpRep (chunkAffine p z n k).y t.affine.2 := by
  have hζ : t.z = ζ k := (hc.z).unique (hz ▸ h k hk)
  rw [chunkAffine]
  simp only [fpIsZero_iff hc.z]
  split_ifs with h0
  · simp only [Triple.affine, h0, inv_zero, mul_zero]
    exact ⟨fpRep_zero, fpRep_zero⟩
  · have hinv := fpRep_mul (chunkProduct_rep h (Nat.le_of_lt hk))
      (chunkInverse_rep h (s := n - 1 - k) (by omega))
    rw [BatchInverse.prefixProd_mul_carried hk (hζ ▸ h0), ← hζ] at hinv
    exact ⟨fpRep_mul hc.x (fpRep_sqr hinv), fpRep_mul hc.y (fpRep_mul (fpRep_sqr hinv) hinv)⟩

end Chunk

/-! ### The dispatch -/

section Dispatch
variable {m : Mem} {pc : NormalizePC} {perBlob : ℕ}

/-- The number of points a thread works on. -/
def chunkLength (count chunk gid : ℕ) : ℕ := min (gid * chunk + chunk) count - gid * chunk

/-- What thread `gid` stores for the point at index `k` of its chunk. -/
def normalizedAt (m : Mem) (pc : NormalizePC) (gid k : ℕ) : G1A :=
  let n := chunkLength pc.count pc.chunk gid
  chunkAffine (g1At m pc.inJacobian (gid * pc.chunk + k))
    (fun k => ((List.range n).map fun k => (g1At m pc.inJacobian (gid * pc.chunk + k)).z).getD k
      fpZero) n k

theorem chunkLength_spec {count chunk gid k : ℕ} (hk : k < chunkLength count chunk gid) :
    k < chunk ∧ gid * chunk + k < count := by
  rw [chunkLength] at hk
  omega

theorem mod_lt_chunkLength {count chunk i : ℕ} (hchunk : 0 < chunk) (hi : i < count) :
    i % chunk < chunkLength count chunk (i / chunk) := by
  have hgid := Nat.div_add_mod' i chunk
  have hk := Nat.mod_lt i hchunk
  rw [chunkLength]
  omega

theorem normalizedAt_coords (pc : NormalizePC) {t : ℕ → Triple BaseField}
    (ht : ∀ i < pc.count, CoordRep (g1At m pc.inJacobian i) (t i))
    {gid k : ℕ} (hk : k < chunkLength pc.count pc.chunk gid) :
    FpRep (normalizedAt m pc gid k).x (t (gid * pc.chunk + k)).affine.1 ∧
      FpRep (normalizedAt m pc gid k).y (t (gid * pc.chunk + k)).affine.2 := by
  have hget : ∀ k < chunkLength pc.count pc.chunk gid,
      ((List.range (chunkLength pc.count pc.chunk gid)).map fun k =>
        (g1At m pc.inJacobian (gid * pc.chunk + k)).z).getD k fpZero =
          (g1At m pc.inJacobian (gid * pc.chunk + k)).z := fun k hk => by
    simp [List.getD_eq_getElem?_getD, hk]
  refine chunkAffine_coords (ζ := fun k => (t (gid * pc.chunk + k)).z) (fun k hk => ?_) hk
    (ht _ (chunkLength_spec hk).2) (hget k hk).symm
  rw [hget k hk]
  exact (ht _ (chunkLength_spec hk).2).z

/-- What the backward loop reads back is what the first loop has stored. -/
theorem reload_product (perBlob lo : ℕ) {n : ℕ} (z : ℕ → Fp) {k : ℕ} (hk : k < n) :
    limbsAt 12 ((storeProducts perBlob lo n z).exec id m) .normScratch ((lo + k) * 12) =
      chunkProduct z k := by
  have hblocks : Blocks ((storeProducts perBlob lo n z).stores id m) .normScratch 4 12 (List.range n)
      (fun k => lo + k) fun k => limbWords (chunkProduct z k) := blocks_each fun k _ => by
    rw [stores_owned, landing_map_own, stores_fpStore, landing_block]
    rfl
  refine limbsOf_eq fun j hj => ?_
  rw [exec, hblocks.hit (fun x _ y _ h => by rw [Nat.add_left_cancel h]) (List.mem_range.mpr hk) hj,
    Nat.mod_eq_of_lt (limbWords_lt _ _)]

theorem landing_storeProducts {b : Buf} (hscratch : b ≠ .normScratch) (lo n : ℕ) (z : ℕ → Fp) :
    landing b ((storeProducts perBlob lo n z).stores id m) = [] := by
  refine landing_each_nil fun k _ => ?_
  rw [stores_owned, landing_map_own, stores_fpStore, landing_block_other hscratch.symm]

theorem g1aWords_identity {k : ℕ} (hk : k < 24) : g1aWords ⟨fpZero, fpZero⟩ k = 0 := by
  have hzero : ∀ k < 12, limbWords fpZero k = 0 := by decide
  rw [g1aWords]
  split_ifs with h
  · exact hzero k h
  · exact hzero (k - 12) (by omega)

theorem landing_normalizePoint (z : ℕ → Fp) (n lo k : ℕ) :
    landing pc.outAffine ((normalizePoint pc z n lo k (g1At m pc.inJacobian (lo + k)).z).stores
      id m) = (List.range 24).map fun i => (4, (lo + k) * 24 + i,
        g1aWords (chunkAffine (g1At m pc.inJacobian (lo + k)) z n k) i) := by
  rw [normalizePoint, chunkAffine]
  split_ifs
  · rw [stores_storeWords, landing_block]
    refine List.map_congr_left fun i hi => ?_
    rw [g1aWords_identity (List.mem_range.mp hi), id]
  · simp only [stores_bind, stores_reload, stores_fpLoad, stores_g1aStore, List.nil_append]
    rw [landing_block]
    rfl

theorem landing_normalizeChunk (pc : NormalizePC) (hscratch : pc.outAffine ≠ .normScratch) (gid : ℕ) :
    landing pc.outAffine
      ((normalizeChunk perBlob pc (gid * pc.chunk) (gid * pc.chunk + pc.chunk)).stores id m) =
      (List.range (chunkLength pc.count pc.chunk gid)).reverse.flatMap fun k =>
        (List.range 24).map fun i => (4, (gid * pc.chunk + k) * 24 + i,
          g1aWords (normalizedAt m pc gid k) i) := by
  rw [normalizeChunk]
  split_ifs with hlo
  · rw [stores_bind, stores_bind, stores_gather_nil fun _ _ => rfl, List.nil_append,
      landing_append, landing_storeProducts hscratch, List.nil_append, stores_each, landing_flatMap]
    refine List.flatMap_congr fun k _ => ?_
    rw [stores_owned, landing_map_own, stores_bind, stores_fpLoad, List.nil_append]
    exact landing_normalizePoint _ _ _ _
  · rw [stores_pure, landing_nil, chunkLength, Nat.sub_eq_zero_of_le (by omega)]
    rfl

theorem blocks_recordNormalize (m : Mem) (perBlob : ℕ) {outAffine : Buf} (inJacobian : Buf)
    (count chunk : ℕ) (hscratch : outAffine ≠ .normScratch) :
    Blocks ((recordNormalize perBlob outAffine inJacobian count chunk).stores id m) outAffine 4 24
      (gridItems (((count + chunk - 1) / chunk + 63) / 64) 1 fun _ wg =>
        (List.range 64).flatMap fun tid =>
          (List.range (chunkLength count chunk (wg * 64 + tid))).reverse.map fun k => (tid, k))
      (fun q => (q.2.1 * 64 + q.2.2.1) * chunk + q.2.2.2)
      (fun q => g1aWords (normalizedAt m ⟨outAffine, inJacobian, count, chunk⟩
        (q.2.1 * 64 + q.2.2.1) q.2.2.2)) := by
  refine blocks_grid (fun _ wg (p : ℕ × ℕ) => (wg * 64 + p.1) * chunk + p.2)
    (fun _ wg (p : ℕ × ℕ) => g1aWords (normalizedAt m ⟨outAffine, inJacobian, count, chunk⟩
      (wg * 64 + p.1) p.2)) fun _ _ wg _ => ?_
  rw [Blocks, kNormalize, stores_each, landing_flatMap, List.flatMap_assoc]
  refine List.flatMap_congr fun tid _ => ?_
  rw [List.flatMap_map]
  exact landing_normalizeChunk ⟨outAffine, inJacobian, count, chunk⟩ hscratch _

/-- The workgroup, the thread and the place in its chunk of a point. -/
def pointItem (chunk i : ℕ) : ℕ × ℕ × ℕ × ℕ :=
  (0, i / chunk / 64, i / chunk % 64, i % chunk)

theorem pointItem_mem {count chunk : ℕ} (hchunk : 0 < chunk) {i : ℕ} (hi : i < count) :
    pointItem chunk i ∈ gridItems (((count + chunk - 1) / chunk + 63) / 64) 1 fun _ wg =>
      (List.range 64).flatMap fun tid =>
        (List.range (chunkLength count chunk (wg * 64 + tid))).reverse.map fun k => (tid, k) := by
  have hgid := Nat.div_add_mod' i chunk
  have hgroups : i / chunk < ((count + chunk - 1) / chunk + 63) / 64 * 64 := by
    have hthreads : i / chunk < (count + chunk - 1) / chunk := by
      rw [Nat.lt_iff_add_one_le, Nat.le_div_iff_mul_le hchunk, Nat.succ_mul]
      omega
    omega
  refine mem_gridItems.mpr ⟨Nat.one_pos, Nat.div_lt_of_lt_mul (by rwa [Nat.mul_comm] at hgroups),
    List.mem_flatMap.mpr ⟨_, List.mem_range.mpr (Nat.mod_lt _ (by decide)), List.mem_map.mpr
      ⟨_, List.mem_reverse.mpr (List.mem_range.mpr ?_), rfl⟩⟩⟩
  change i % chunk < chunkLength count chunk (i / chunk / 64 * 64 + i / chunk % 64)
  rw [Nat.div_add_mod']
  exact mod_lt_chunkLength hchunk hi

theorem pointItem_inj {count chunk groups : ℕ} {x y : ℕ × ℕ × ℕ × ℕ}
    (hx : x ∈ gridItems groups 1 fun _ wg => (List.range 64).flatMap fun tid =>
      (List.range (chunkLength count chunk (wg * 64 + tid))).reverse.map fun k => (tid, k))
    (hy : y ∈ gridItems groups 1 fun _ wg => (List.range 64).flatMap fun tid =>
      (List.range (chunkLength count chunk (wg * 64 + tid))).reverse.map fun k => (tid, k))
    (heq : (x.2.1 * 64 + x.2.2.1) * chunk + x.2.2.2 = (y.2.1 * 64 + y.2.2.1) * chunk + y.2.2.2) :
    x = y := by
  obtain ⟨b₁, wg₁, t₁, k₁⟩ := x
  obtain ⟨b₂, wg₂, t₂, k₂⟩ := y
  have hmem : ∀ wg t k, (t, k) ∈ ((List.range 64).flatMap fun tid => (List.range
      (chunkLength count chunk (wg * 64 + tid))).reverse.map fun k => (tid, k)) →
        t < 64 ∧ k < chunk := by
    intro wg t k h
    obtain ⟨tid, htid, h⟩ := List.mem_flatMap.mp h
    obtain ⟨k', hk', h⟩ := List.mem_map.mp h
    obtain ⟨rfl, rfl⟩ := Prod.mk.inj h
    exact ⟨List.mem_range.mp htid,
      (chunkLength_spec (List.mem_range.mp (List.mem_reverse.mp hk'))).1⟩
  obtain ⟨hb₁, -, h₁⟩ := mem_gridItems.mp hx
  obtain ⟨hb₂, -, h₂⟩ := mem_gridItems.mp hy
  obtain ⟨ht₁, hk₁⟩ := hmem _ _ _ h₁
  obtain ⟨ht₂, hk₂⟩ := hmem _ _ _ h₂
  obtain ⟨hg, hk⟩ := block_inj hk₁ hk₂ heq
  obtain ⟨hwg, ht⟩ := block_inj ht₁ ht₂ hg
  obtain rfl : b₁ = b₂ := (Nat.lt_one_iff.mp hb₁).trans (Nat.lt_one_iff.mp hb₂).symm
  simp only at hk hwg ht
  rw [hk, hwg, ht]

theorem recordNormalize_at (perBlob : ℕ) {outAffine inJacobian : Buf} {count chunk : ℕ}
    (hchunk : 0 < chunk) (hscratch : outAffine ≠ .normScratch) {i : ℕ} (hi : i < count) :
    g1aAt ((recordNormalize perBlob outAffine inJacobian count chunk).exec id m) outAffine i =
      normalizedAt m ⟨outAffine, inJacobian, count, chunk⟩ (i / chunk) (i % chunk) := by
  have hhit := g1aAt_hit (blocks_recordNormalize m perBlob inJacobian count chunk hscratch)
    (fun x hx y hy h => by rw [pointItem_inj hx hy h]) (pointItem_mem hchunk hi) m
  simp only [pointItem, Nat.div_add_mod'] at hhit
  rw [exec, hhit]

theorem recordNormalize_coords (perBlob : ℕ) {outAffine inJacobian : Buf} {count chunk : ℕ}
    (hchunk : 0 < chunk) (hscratch : outAffine ≠ .normScratch) {t : ℕ → Triple BaseField}
    (ht : ∀ i < count, CoordRep (g1At m inJacobian i) (t i)) {i : ℕ} (hi : i < count) :
    let a := g1aAt ((recordNormalize perBlob outAffine inJacobian count chunk).exec id m) outAffine i
    FpRep a.x (t i).affine.1 ∧ FpRep a.y (t i).affine.2 := by
  have h := normalizedAt_coords ⟨outAffine, inJacobian, count, chunk⟩ ht
    (mod_lt_chunkLength hchunk hi)
  rw [Nat.div_add_mod'] at h
  intro a
  rwa [show a = _ from recordNormalize_at perBlob hchunk hscratch hi]

/-- Every point below the count ends up affine, in place. -/
theorem recordNormalize_rep (perBlob : ℕ) {outAffine inJacobian : Buf} {count chunk : ℕ}
    (hchunk : 0 < chunk)
    (hscratch : outAffine ≠ .normScratch) {P : ℕ → Point}
    (hP : ∀ i < count, G1Rep (g1At m inJacobian i) (P i)) {i : ℕ} (hi : i < count) :
    G1ARep (g1aAt ((recordNormalize perBlob outAffine inJacobian count chunk).exec id m) outAffine i)
      (P i) := by
  have hcoord : ∀ i < count, CoordRep (g1At m inJacobian i)
      ⟨fpValue (g1At m inJacobian i).x, fpValue (g1At m inJacobian i).y,
        fpValue (g1At m inJacobian i).z⟩ := fun i hi => by
    obtain ⟨t, hc, -⟩ := hP i hi
    rw [fpValue_eq hc.x, fpValue_eq hc.y, fpValue_eq hc.z]
    exact hc
  obtain ⟨hx, hy⟩ := recordNormalize_coords perBlob hchunk hscratch hcoord hi
  exact ⟨_, hx, hy, g1Affine_represents (hP i hi)⟩

theorem frame_recordNormalize {outAffine inJacobian b : Buf} {count chunk : ℕ}
    (hscratch : b ≠ .normScratch) (hout : b ≠ outAffine) :
    (recordNormalize perBlob outAffine inJacobian count chunk).exec id m b = m b := by
  refine exec_dispatch_frame fun wg _ => landing_each_nil fun tid _ => ?_
  simp only [stores_bind, stores_uint, List.nil_append]
  rw [normalizeChunk]
  split_ifs
  · rw [stores_bind, stores_bind, stores_gather_nil fun _ _ => rfl, List.nil_append,
      landing_append, landing_storeProducts hscratch, landing_each_nil fun k _ => ?_, List.nil_append]
    rw [stores_owned, landing_map_own, stores_bind, stores_fpLoad, List.nil_append, normalizePoint]
    split_ifs
    · rw [stores_storeWords, landing_block_other hout.symm]
    · simp only [stores_bind, stores_reload, stores_fpLoad, stores_g1aStore, List.nil_append]
      exact landing_block_other hout.symm _ _ _ _
  · rw [stores_pure, landing_nil]

end Dispatch

/-! ### The loops of a thread -/

/-- The indices `for (i = lo; i < hi; i++)` has yet to visit, when its test is made at most so many
times more. -/
def upLoop (hi : ℕ) : ℕ → ℕ → Option (List ℕ)
  | 0, _ => none
  | tests + 1, i =>
    if i < hi then (upLoop hi tests (uint32 (i + 1))).map fun is => i :: is else some []

/-- The indices `for (i = hi; i-- > lo;)` has yet to visit, when it also breaks at `lo`. -/
def downLoop (lo : ℕ) : ℕ → ℕ → Option (List ℕ)
  | 0, _ => none
  | tests + 1, i =>
    -- the decrement takes effect whatever the test says
    let k := uint32 (i + (2 ^ 32 - 1))
    if i > lo then
      if k = lo then some [k] else (downLoop lo tests k).map fun is => k :: is
    else some []

theorem upLoop_eq {hi : ℕ} (hhi : hi < 2 ^ 32) {n tests i : ℕ} (hn : i + n = hi) (ht : n < tests) :
    upLoop hi tests i = some ((List.range n).map (i + ·)) := by
  induction tests generalizing n i with
  | zero => exact absurd ht (Nat.not_lt_zero n)
  | succ tests ih =>
    rw [upLoop]
    cases n with
    | zero =>
      rw [if_neg (by omega)]
      rfl
    | succ n =>
      rw [if_pos (by omega), uint32_of_lt (by omega), ih (n := n) (by omega) (by omega),
        List.range_succ_eq_map, List.map_cons, List.map_map, Option.map_some]
      refine congrArg (fun is => some (i :: is)) (List.map_congr_left fun k _ => ?_)
      simp only [Function.comp_apply]
      omega

theorem downLoop_eq {lo n tests i : ℕ} (hi : i < 2 ^ 32) (hn : lo + n = i) (ht : n < tests) :
    downLoop lo tests i = some ((List.range n).reverse.map (lo + ·)) := by
  induction tests generalizing n i with
  | zero => exact absurd ht (Nat.not_lt_zero n)
  | succ tests ih =>
    rw [downLoop]
    cases n with
    | zero =>
      rw [if_neg (by omega)]
      rfl
    | succ n =>
      have hk : uint32 (i + (2 ^ 32 - 1)) = lo + n := by
        rw [uint32]
        omega
      rw [if_pos (by omega), hk, List.range_succ, List.reverse_append, List.reverse_singleton,
        List.map_append]
      cases n with
      | zero =>
        rw [if_pos (Nat.add_zero lo)]
        rfl
      | succ n =>
        rw [if_neg (by omega), ih (n := n + 1) (by omega) rfl (by omega)]
        rfl

/-! ### Device indices -/

section Device
variable {m : Mem} {perBlob : ℕ} {pc : NormalizePC} {P : Access Buf → Prop} {u : ℕ → ℕ}

/-- `P` holds of the words of every point below the count, accessed for the blob of the point. -/
def PointWords (P : Access Buf → Prop) (perBlob : ℕ) (pc : NormalizePC) : Prop :=
  ∀ i < pc.count, (∀ k < 36, P ⟨pc.inJacobian, 4, i * 36 + k, some (i / perBlob)⟩) ∧
    (∀ k < 12, P ⟨.normScratch, 4, i * 12 + k, some (i / perBlob)⟩) ∧
    ∀ k < 24, P ⟨pc.outAffine, 4, i * 24 + k, some (i / perBlob)⟩

theorem within_coord (hP : PointWords P perBlob pc) (hwords : ∀ n < 36 * pc.count, u n = n)
    {i off : ℕ} (hi : i < pc.count) (hoff : off ≤ 24) :
    Within (fun a => P (a.own (i / perBlob))) u m (fpLoad pc.inJacobian (i * 36 + off)) := by
  refine within_limbsLoad (fun k hk => hwords _ (by omega)) fun k hk => ?_
  rw [add_assoc]
  exact (hP i hi).1 (off + k) (by omega)

theorem within_normalizePoint (hP : PointWords P perBlob pc) (hwords : ∀ n < 36 * pc.count, u n = n)
    {lo k : ℕ} (hlt : lo + k < pc.count) (z : ℕ → Fp) (n : ℕ) (zk : Fp) :
    Within (fun a => P (a.own ((lo + k) / perBlob))) u m
      (normalizePoint pc z n lo k zk) := by
  have hdst : ∀ j < 24, u ((lo + k) * 24 + j) = (lo + k) * 24 + j := fun j hj =>
    hwords _ (by omega)
  have hpre : ∀ j < 12, u ((lo + k) * 12 + j) = (lo + k) * 12 + j := fun j hj =>
    hwords _ (by omega)
  have hcoord := fun (n : ℕ) (hn : n ≤ 24) => within_coord (m := m) hP hwords hlt hn
  have hx := hcoord 0 (by decide)
  have hy := hcoord 12 (by decide)
  unfold normalizePoint
  by_cases hzk : fpIsZero zk = true
  · rw [if_pos hzk]
    exact within_storeWords hdst (hP _ hlt).2.2
  · rw [if_neg hzk]
    exact within_bind (within_reload hpre (hP _ hlt).2.1)
      (within_bind hx (within_bind hy (within_g1aStore hdst (hP _ hlt).2.2)))

theorem within_storeProducts (hP : PointWords P perBlob pc) (hwords : ∀ n < 36 * pc.count, u n = n)
    {lo n : ℕ} (hlt : ∀ k < n, lo + k < pc.count) (z : ℕ → Fp) :
    Within P u m (storeProducts perBlob lo n z) := by
  refine within_each fun k hk => within_owned ?_
  have hi := hlt k (List.mem_range.mp hk)
  exact within_limbsStore (fun j hj => hwords _ (by simp only [fpWords]; omega)) (hP _ hi).2.1

theorem within_normalizeChunk (hP : PointWords P perBlob pc) (hwords : ∀ n < 36 * pc.count, u n = n)
    (lo next : ℕ) : Within P u m (normalizeChunk perBlob pc lo next) := by
  unfold normalizeChunk
  by_cases hlo : lo < pc.count
  · rw [if_pos hlo]
    have hlt : ∀ k < min next pc.count - lo, lo + k < pc.count := fun k hk => by omega
    refine within_bind (within_gather fun k hk =>
        within_owned (within_coord hP hwords (hlt k (List.mem_range.mp hk)) (Nat.le_refl 24)))
      (within_bind (within_storeProducts hP hwords hlt _)
        (within_each fun k hk => within_owned ?_))
    have hi := hlt k (List.mem_range.mp (List.mem_reverse.mp hk))
    exact within_bind (within_coord hP hwords hi (Nat.le_refl 24))
      (within_normalizePoint hP hwords hi _ _ _)
  · rw [if_neg hlo]
    exact within_pure ()

theorem thread_bound {count chunk wg tid : ℕ}
    (hwg : wg < ((count + chunk - 1) / chunk + 63) / 64) (htid : tid < 64) :
    (wg * 64 + tid) * chunk + chunk ≤ count + 64 * chunk := by
  have hthreads : (count + chunk - 1) / chunk * chunk ≤ count + chunk - 1 := Nat.div_mul_le_self _ _
  have hgid : wg * 64 + tid + 1 ≤ (count + chunk - 1) / chunk + 63 := by omega
  have hmul : (wg * 64 + tid) * chunk + chunk ≤ (count + chunk - 1) / chunk * chunk + 63 * chunk := by
    rw [← Nat.succ_mul, ← Nat.add_mul]
    exact Nat.mul_le_mul_right chunk hgid
  omega

theorem within_recordNormalize {outAffine inJacobian : Buf} {count chunk : ℕ}
    (hP : PointWords P perBlob ⟨outAffine, inJacobian, count, chunk⟩)
    (hwords : ∀ n < 36 * count, u n = n) (hspan : ∀ n ≤ count + 64 * chunk, u n = n) :
    Within P u m (recordNormalize perBlob outAffine inJacobian count chunk) := by
  refine within_dispatch fun y _ wg hwg => within_each fun tid htid => ?_
  have hlast := thread_bound hwg (List.mem_range.mp htid)
  refine within_bind (within_uint (hspan _ ?_)) (within_bind (within_uint (hspan _ ?_)) ?_)
  · change (wg * 64 + tid) * chunk ≤ count + 64 * chunk
    omega
  · change (wg * 64 + tid) * chunk + chunk ≤ count + 64 * chunk
    omega
  · exact within_normalizeChunk (P := fun a => P (a.own y)) hP hwords _ _

end Device

/-! ### Batched and per-point normalization -/

/-- All coordinates of the point are below the modulus. -/
def G1.Reduced (g : G1) : Prop :=
  g.x.toNat < fpModulus ∧ g.y.toNat < fpModulus ∧ g.z.toNat < fpModulus

theorem coordRep_fpValue {g : G1} (h : g.Reduced) :
    CoordRep g ⟨fpValue g.x, fpValue g.y, fpValue g.z⟩ :=
  ⟨fpRep_fpValue h.1, fpRep_fpValue h.2.1, fpRep_fpValue h.2.2⟩

theorem eq_fpZero {a : Fp} (h : FpRep a 0) : a = fpZero := h.eq fpRep_zero

/-- However the points are grouped into chunks, each is written once, as its own coordinates
divided by the powers of its own `z`; the loops over a chunk end for every first index, and the second
one reads back what the first one has stored. -/
theorem recordNormalize_pointwise {outAffine inJacobian : Buf} {count chunk : ℕ}
    (hchunk : 1 ≤ chunk) (hwords : 36 * count < 2 ^ 32) (hspan : count + 64 * chunk < 2 ^ 32)
    (hbufs : [outAffine, inJacobian, .normScratch].Nodup) (perBlob : ℕ) (m : Mem)
    (hred : ∀ i < count, (g1At m inJacobian i).Reduced) :
    let k := recordNormalize perBlob outAffine inJacobian count chunk
    (∀ floorChunk ceilChunk targetThreads, 1 ≤ floorChunk → floorChunk ≤ ceilChunk →
      1 ≤ targetThreads → 1 ≤ inversionChunk count floorChunk ceilChunk targetThreads) ∧
    (∀ i < count, ∀ w < 24,
      ((landing outAffine (k.stores uint32 m)).filter fun t => t.2.1 = i * 24 + w).length = 1) ∧
    (∀ i < count,
      let g := g1At m inJacobian i
      let a := g1aAt (k.exec uint32 m) outAffine i
      (g.z.toNat = 0 → a = ⟨fpZero, fpZero⟩) ∧
      (g.z.toNat ≠ 0 → FpRep a.x (fpValue g.x / fpValue g.z ^ 2) ∧
        FpRep a.y (fpValue g.y / fpValue g.z ^ 3))) ∧
    (∀ gid, gid * chunk < count →
      let lo := gid * chunk
      let hi := min (lo + chunk) count
      ∀ tests, hi - lo < tests →
        upLoop hi tests lo = some ((List.range (chunkLength count chunk gid)).map (lo + ·)) ∧
        downLoop lo tests hi =
          some ((List.range (chunkLength count chunk gid)).reverse.map (lo + ·))) ∧
    ∀ gid z, ∀ k < chunkLength count chunk gid, ∀ view : Mem,
      limbsAt 12 ((storeProducts perBlob (gid * chunk) (chunkLength count chunk gid) z).exec uint32
        view) .normScratch ((gid * chunk + k) * 12) = chunkProduct z k := by
  have hscratch : outAffine ≠ .normScratch := by
    rintro rfl
    simp at hbufs
  have hanywhere : PointWords (fun _ => True) perBlob ⟨outAffine, inJacobian, count, chunk⟩ :=
    fun _ _ => ⟨fun _ _ => trivial, fun _ _ => trivial, fun _ _ => trivial⟩
  have hexact : ∀ n < 36 * count, uint32 n = n := fun _ hn => uint32_of_lt (by omega)
  have hin : Within (fun _ => True) uint32 m
      (recordNormalize perBlob outAffine inJacobian count chunk) :=
    within_recordNormalize hanywhere hexact fun _ hn => uint32_of_lt (by omega)
  refine ⟨fun _ _ _ hfloor hceil _ => inversionChunk_pos hfloor (hfloor.trans hceil),
    fun i hi w hw => ?_, fun i hi => ?_, fun gid hgid tests ht => ?_, fun gid z k hk view => ?_⟩
  -- A thread writes the points of its own chunk, and each point lies in one chunk.
  · have hnodup : (gridItems (((count + chunk - 1) / chunk + 63) / 64) 1 fun _ wg =>
        (List.range 64).flatMap fun tid =>
          (List.range (chunkLength count chunk (wg * 64 + tid))).reverse.map fun k =>
            (tid, k)).Nodup :=
      nodup_gridItems fun _ _ => nodup_flatMap_pair List.nodup_range fun _ _ =>
        List.nodup_reverse.mpr List.nodup_range
    have honce := (blocks_recordNormalize m perBlob inJacobian count chunk hscratch).once hnodup
      (fun x hx y hy => pointItem_inj hx hy) (pointItem_mem hchunk hi) hw
    simp only [pointItem, Nat.div_add_mod'] at honce
    rw [hin.stores]
    exact honce
  · have hcoord := recordNormalize_coords perBlob hchunk hscratch
      (fun i hi => coordRep_fpValue (hred i hi)) hi
    obtain ⟨hx, hy⟩ := hcoord
    rw [hin.exec]
    have hz := (fpRep_fpValue (hred i hi).2.2).toNat_eq_zero
    refine ⟨fun h0 => ?_, fun h0 => ?_⟩
    · simp only [Triple.affine, hz.mp h0, inv_zero, mul_zero] at hx hy
      generalize g1aAt _ _ _ = a at hx hy
      exact congrArg₂ G1A.mk (eq_fpZero hx) (eq_fpZero hy)
    · have hne := fun h => h0 (hz.mpr h)
      refine ⟨?_, ?_⟩
      · convert hx using 1
        simp only [Triple.affine]
        field_simp
      · convert hy using 1
        simp only [Triple.affine]
        field_simp
  · have hlen : chunkLength count chunk gid = min (gid * chunk + chunk) count - gid * chunk := rfl
    exact ⟨upLoop_eq (by omega) (by omega) (by omega),
      downLoop_eq (by omega) (by omega) (by omega)⟩
  · rw [(within_storeProducts hanywhere hexact (fun k hk => (chunkLength_spec hk).2) z).exec]
    exact reload_product perBlob _ z hk

/-- Finite points of order three next to points at infinity. -/
def normalizeSample : Mem := wordMem fun _ i =>
  g1Words (if i / 36 % 2 = 0 then zeroTwoScaled fpOne else ⟨fpOne, fpOne, fpZero⟩) (i % 36)

theorem g1At_normalizeSample (b : Buf) (i : ℕ) : g1At normalizeSample b i =
    if i % 2 = 0 then zeroTwoScaled fpOne else ⟨fpOne, fpOne, fpZero⟩ :=
  g1At_wordMem (a := fun i => if i % 2 = 0 then _ else _) (fun _ => rfl) i

/-- Three points in chunks of two: the last chunk is short and the middle point at infinity. -/
theorem recordNormalize_pointwise_sample :
    let a := fun i => g1aAt ((recordNormalize 3 .proofsAff .proofs 3 2).exec uint32 normalizeSample)
      .proofsAff i
    a 1 = ⟨fpZero, fpZero⟩ ∧ FpRep (a 2).y (fpValue (fpDbl (fpMul fpOne (fpSqr fpOne))) /
      fpValue fpOne ^ 3) := by
  have hred : ∀ i < 3, (g1At normalizeSample .proofs i).Reduced := fun i _ => by
    rw [g1At_normalizeSample]
    split_ifs
    · exact ⟨fpRep_zero.reduced,
        (fpRep_dbl (fpRep_mul fpRep_one (fpRep_sqr fpRep_one))).reduced, fpRep_one.reduced⟩
    · exact ⟨fpRep_one.reduced, fpRep_one.reduced, fpRep_zero.reduced⟩
  obtain ⟨-, -, h, -⟩ := @recordNormalize_pointwise .proofsAff .proofs 3 2 (by decide) (by decide)
    (by decide) (by decide) 3 normalizeSample hred
  have h₁ := (h 1 (by decide)).1
  have h₂ := (h 2 (by decide)).2
  rw [g1At_normalizeSample] at h₁ h₂
  exact ⟨h₁ (by decide), (h₂ (by decide)).2⟩

end Vkzg
