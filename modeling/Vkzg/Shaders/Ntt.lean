import Vkzg.Shaders.Buffers
import Vkzg.Library.Dft

/-! `k_ntt_pass.comp`: one pass of a four-step transform, with the parameters the host gives the
two passes. Together the passes compute the discrete Fourier transform. -/

namespace Vkzg
open Radix Gpu Gpu.Kernel Fourier BitReversal

/-! ### The kernel -/

def bitfieldReverse (x : ℕ) : ℕ := rev 32 x

def brev (x bits : ℕ) : ℕ := bitfieldReverse x >>> (32 - bits)

/-- The butterfly lengths 2, 4, …, up to `n`. -/
def stageLens (n : ℕ) : List ℕ := (List.range n.log2).map (2 <<< ·)

/-- The pair of tile entries one thread of a butterfly stage rewrites. -/
def butterflyThread (roots : Buf) (n rootStride len : ℕ) (tile : ℕ → Fr) (tid : ℕ) :
    Shader (List (ℕ × Fr)) := do
  let hlen := len >>> 1
  let step := n / len
  let blk := tid / hlen
  let j := tid - blk * hlen
  let base := blk * len
  let w ← frLoad roots (j * step * rootStride * frWords)
  let a := tile (base + j)
  let c := frMul (tile (base + j + hlen)) w
  pure [(base + j, frAdd a c), (base + j + hlen, frSub a c)]

/-- One stage of the butterflies in workgroup memory. -/
def butterflyStage (roots : Buf) (n rootStride : ℕ) (tile : ℕ → Fr) (len : ℕ) :
    Shader (ℕ → Fr) := do
  let pairs ← gather ((List.range circulantSize).filter (· < n >>> 1))
    (butterflyThread roots n rootStride len tile)
  pure (Shared.write tile pairs.flatten)

structure NttParams where
  n : ℕ
  logN : ℕ
  inStrideT : ℕ
  inStrideI : ℕ
  outStrideT : ℕ
  outStrideI : ℕ
  rootStride : ℕ
  twiddleStride : ℕ
  fullN : ℕ
  inBatch : ℕ
  outBatch : ℕ
  scale : ℕ
  scaleVal : Fr

structure NttPC extends NttParams where
  out : Buf
  inp : Buf
  roots : Buf

def nttTile (pc : NttPC) (shared : ℕ → Fr) (t b : ℕ) : Shader (ℕ → Fr) := do
  let srcBase := b * pc.inBatch * frWords
  let loaded ← gather ((List.range circulantSize).filter (· < pc.n)) fun tid => do
    let v ← frLoad pc.inp (srcBase + (t * pc.inStrideT + tid * pc.inStrideI) * frWords)
    pure (brev tid pc.logN, v)
  (stageLens pc.n).foldlM (butterflyStage pc.roots pc.n pc.rootStride) (Shared.write shared loaded)

/-- The value a thread stores: its tile entry, twiddled and scaled. -/
def nttResult (pc : NttPC) (tile : ℕ → Fr) (t tid : ℕ) : Shader Fr := do
  let v ← if pc.twiddleStride ≠ 0 then do
      let e := (t * tid) % pc.fullN
      let w ← frLoad pc.roots (e * pc.twiddleStride * frWords)
      pure (frMul (tile tid) w)
    else pure (tile tid)
  pure (if pc.scale ≠ 0 then frMul v pc.scaleVal else v)

def kNttPass (pc : NttPC) (shared : ℕ → Fr) (t b : ℕ) : Shader Unit := do
  let dstBase := b * pc.outBatch * frWords
  let tile ← nttTile pc shared t b
  each ((List.range circulantSize).filter (· < pc.n)) fun tid => do
    let v ← nttResult pc tile t tid
    frStore pc.out (dstBase + (t * pc.outStrideT + tid * pc.outStrideI) * frWords) v

/-! ### Host parameters -/

/-- The least `r` with `n ≤ 2 ^ r`. -/
def ilog2 (n : ℕ) : ℕ := ((List.range 32).find? fun r => n ≤ 1 <<< r).getD 32

def nttPass1 (N N1 N2 inBatch outBatch : ℕ) : NttParams where
  n := N1
  logN := ilog2 N1
  inStrideT := 1
  inStrideI := N2
  outStrideT := 1
  outStrideI := N2
  rootStride := fieldElementsPerExtBlob / N1
  twiddleStride := fieldElementsPerExtBlob / N
  fullN := N
  inBatch := inBatch
  outBatch := outBatch
  scale := 0
  scaleVal := frZero

def nttPass2 (N N1 N2 inBatch outBatch : ℕ) : NttParams where
  n := N2
  logN := ilog2 N2
  inStrideT := N2
  inStrideI := 1
  outStrideT := 1
  outStrideI := N1
  rootStride := fieldElementsPerExtBlob / N2
  twiddleStride := 0
  fullN := N
  inBatch := inBatch
  outBatch := outBatch
  scale := 0
  scaleVal := frZero

/-- `shared` is what workgroup memory holds before the kernel runs. -/
def recordNtt (out inp roots : Buf) (params : NttParams) (count batch : ℕ)
    (shared : ℕ → ℕ → ℕ → Fr) : Shader Unit :=
  dispatch (fun t b => kNttPass ⟨params, out, inp, roots⟩ (shared t b) t b) count batch

/-! ### The butterflies over the scalar field -/

theorem brev_eq {bits : ℕ} (hbits : bits ≤ 32) (x : ℕ) : brev x bits = rev bits x := by
  rw [brev, bitfieldReverse, Nat.shiftRight_eq_div_pow]
  conv_lhs => rw [show 32 = bits + (32 - bits) by omega, Nat.add_sub_cancel_left]
  exact rev_div bits (32 - bits) x

/-- The transform of `2 ^ L` points the network computes for a root table. -/
def subTransform (ρ : ℕ → ScalarField) (L rootStride : ℕ) (x : ℕ → ScalarField) :
    ℕ → ScalarField :=
  butterflies (fun s o => ρ (o * 2 ^ (L - 1 - s) * rootStride)) L fun i => x (rev L i)

/-- A root table holds the Montgomery forms of `ρ`. -/
def RootTable (m : Mem) (buf : Buf) (ρ : ℕ → ScalarField) : Prop :=
  ∀ k < fieldElementsPerExtBlob, FrRep (frAt m buf k) (ρ k)

section Network
variable {m : Mem} {roots : Buf} {ρ : ℕ → ScalarField} {L rootStride : ℕ}

/-- Thread `blk * half + j` rewrites offsets `j` and `j + half` of block `blk`. -/
theorem val_butterflyThread (n : ℕ) (tile : ℕ → Fr) {s blk j : ℕ} (hj : j < 2 ^ s) :
    (butterflyThread roots n rootStride (2 <<< s) tile (blk * 2 ^ s + j)).val id m =
      let i := blk * (2 * 2 ^ s) + j
      let c := frMul (tile (i + 2 ^ s)) (frAt m roots (j * (n / (2 * 2 ^ s)) * rootStride))
      [(i, frAdd (tile i) c), (i + 2 ^ s, frSub (tile i) c)] := by
  have hlen : 2 <<< s = 2 * 2 ^ s := Nat.shiftLeft_eq 2 s
  have hhalf : (2 * 2 ^ s) >>> 1 = 2 ^ s := by
    rw [Nat.shiftRight_eq_div_pow, pow_one, Nat.mul_div_cancel_left _ (by decide)]
  have hblk : (blk * 2 ^ s + j) / 2 ^ s = blk := by
    rw [Nat.add_comm, Nat.add_mul_div_right _ _ (Nat.two_pow_pos s), Nat.div_eq_of_lt hj, zero_add]
  simp only [butterflyThread, val_bind, val_pure, val_frLoad, hlen, hhalf, hblk,
    Nat.add_sub_cancel_left]

theorem pair_lt {d h blk j : ℕ} (hblk : blk < d) (hj : j < h) :
    blk * (2 * h) + j + h < d * (2 * h) := by
  rw [add_assoc]
  exact block_lt hblk (by omega)

theorem butterflyStage_rep (hroots : RootTable m roots ρ)
    (hL : L ≤ 7) (hstride : 2 ^ L * rootStride = 8192) {s : ℕ} (hs : s < L) {tile : ℕ → Fr}
    {x : ℕ → ScalarField} (ht : ∀ i < 2 ^ L, FrRep (tile i) (x i)) {i : ℕ} (hi : i < 2 ^ L) :
    FrRep ((butterflyStage roots (2 ^ L) rootStride tile (2 <<< s)).val id m i)
      (stage (fun o => ρ (o * 2 ^ (L - 1 - s) * rootStride)) (2 ^ s) x i) := by
  obtain ⟨d, rfl⟩ : ∃ d, L = d + 1 + s := ⟨L - 1 - s, by omega⟩
  have hpow : 2 ^ (d + 1 + s) = 2 ^ d * (2 * 2 ^ s) := by rw [pow_add, pow_succ]; ring
  have hstep : 2 ^ (d + 1 + s) / (2 * 2 ^ s) = 2 ^ d := by
    rw [hpow, Nat.mul_div_cancel _ (by positivity)]
  have hhalfn : 2 ^ (d + 1 + s) >>> 1 = 2 ^ d * 2 ^ s := by
    rw [Nat.shiftRight_eq_div_pow, hpow, Nat.mul_left_comm, pow_one,
      Nat.mul_div_cancel_left _ (by decide)]
  have hlanes : 2 ^ d * 2 ^ s ≤ circulantSize := by
    rw [← pow_add]
    exact Nat.pow_le_pow_right (by decide) (show d + s ≤ 7 by omega)
  have hroot : ∀ j < 2 ^ s, FrRep (frAt m roots (j * 2 ^ d * rootStride))
      (ρ (j * 2 ^ d * rootStride)) := by
    intro j hj
    refine hroots _ (lt_of_lt_of_eq (Nat.mul_lt_mul_of_pos_right ?_ ?_) hstride)
    · rw [hpow, Nat.mul_comm]
      exact Nat.mul_lt_mul_of_pos_left (by omega) (Nat.two_pow_pos d)
    · exact Nat.pos_of_ne_zero fun h => by simp [h] at hstride
  simp only [butterflyStage, val_bind, val_pure, val_gather, hhalfn, filter_lt_range hlanes,
    show d + 1 + s - 1 - s = d by omega]
  -- A thread writes both ends of its butterfly, and every position is an end of one.
  refine Shared.write_gather (P := fun k v => FrRep v (stage _ (2 ^ s) x k)) ?_ ?_ tile
  · intro tid htid p hp
    have hblk : tid / 2 ^ s < 2 ^ d :=
      Nat.div_lt_of_lt_mul (by rw [Nat.mul_comm]; exact List.mem_range.mp htid)
    have hj : tid % 2 ^ s < 2 ^ s := Nat.mod_lt _ (Nat.two_pow_pos s)
    rw [← Nat.div_add_mod' tid (2 ^ s), val_butterflyThread _ _ hj, hstep] at hp
    have hbound := pair_lt hblk hj
    rw [← hpow] at hbound
    have ha := ht _ (lt_of_le_of_lt (Nat.le_add_right _ _) hbound)
    have hc := frRep_mul (ht _ hbound) (hroot _ hj)
    simp only [List.mem_cons, List.not_mem_nil, or_false] at hp
    rcases hp with rfl | rfl
    · rw [stage_low _ hj, mul_comm (ρ _)]
      exact frRep_add ha hc
    · rw [stage_high _ hj, mul_comm (ρ _)]
      exact frRep_sub ha hc
  · have hblk : i / (2 * 2 ^ s) < 2 ^ d :=
      Nat.div_lt_of_lt_mul (by rwa [Nat.mul_comm, ← hpow])
    have ho : i % (2 * 2 ^ s) < 2 * 2 ^ s := Nat.mod_lt _ (by positivity)
    have hdecomp := Nat.div_add_mod' i (2 * 2 ^ s)
    have hmem : ∀ j < 2 ^ s, i / (2 * 2 ^ s) * 2 ^ s + j ∈ List.range (2 ^ d * 2 ^ s) :=
      fun j hj => List.mem_range.mpr (block_lt hblk hj)
    rcases Nat.lt_or_ge (i % (2 * 2 ^ s)) (2 ^ s) with hlt | hge
    · refine ⟨_, hmem _ hlt, ?_⟩
      rw [val_butterflyThread _ _ hlt]
      exact ⟨_, List.mem_cons_self, hdecomp⟩
    · have hlt : i % (2 * 2 ^ s) - 2 ^ s < 2 ^ s := by omega
      refine ⟨_, hmem _ hlt, ?_⟩
      rw [val_butterflyThread _ _ hlt]
      exact ⟨_, List.mem_cons_of_mem _ List.mem_cons_self, by simp only; omega⟩

/-- The shared-memory network computes the sub-transform of what was loaded in reversed order. -/
theorem nttStages_rep (hroots : RootTable m roots ρ) (hL : L ≤ 7)
    (hstride : 2 ^ L * rootStride = 8192) {tile : ℕ → Fr} {x : ℕ → ScalarField}
    (ht : ∀ i < 2 ^ L, FrRep (tile i) (x (rev L i))) {i : ℕ} (hi : i < 2 ^ L) :
    FrRep (((stageLens (2 ^ L)).foldlM (butterflyStage roots (2 ^ L) rootStride) tile).val id m i)
      (subTransform ρ L rootStride x i) := by
  rw [val_foldlM, stageLens, Nat.log2_two_pow, List.foldl_map]
  have key : ∀ S ≤ L, ∀ i < 2 ^ L,
      FrRep ((List.range S).foldl
        (fun t s => (butterflyStage roots (2 ^ L) rootStride t (2 <<< s)).val id m) tile i)
        (butterflies (fun s o => ρ (o * 2 ^ (L - 1 - s) * rootStride)) S
          (fun i => x (rev L i)) i) := by
    intro S
    induction S with
    | zero => exact fun _ => ht
    | succ S ih =>
      intro hS i hi
      rw [butterflies_succ, List.range_succ, List.foldl_append]
      exact butterflyStage_rep hroots hL hstride (by omega) (ih (by omega)) hi
  exact key L le_rfl i hi

end Network

/-! ### One pass -/

section Pass
variable {m : Mem} {ρ : ℕ → ScalarField} {pc : NttPC} {L : ℕ} {shared : ℕ → Fr} {t b : ℕ}

theorem lanes_eq (hn : pc.n = 2 ^ L) (hL : L ≤ 7) :
    (List.range circulantSize).filter (· < pc.n) = List.range (2 ^ L) := by
  rw [hn]
  exact filter_lt_range (Nat.pow_le_pow_right (by decide) hL)

theorem loaded_rep {v : ℕ → Fr} {x : ℕ → ScalarField} (hx : ∀ i < 2 ^ L, FrRep (v i) (x i))
    (shared : ℕ → Fr) {i : ℕ} (hi : i < 2 ^ L) :
    FrRep (Shared.write shared ((List.range (2 ^ L)).map fun tid => (rev L tid, v tid)) i)
      (x (rev L i)) := by
  have hflat : ((List.range (2 ^ L)).map fun tid => (rev L tid, v tid)) =
      ((List.range (2 ^ L)).map fun tid => [(rev L tid, v tid)]).flatten := by
    rw [← List.flatMap_def, ← List.map_eq_flatMap]
  rw [hflat]
  refine Shared.write_gather (P := fun k v => FrRep v (x (rev L k))) ?_ ?_ shared
  · intro tid htid p hp
    obtain rfl := List.mem_singleton.mp hp
    rw [List.mem_range] at htid
    rw [rev_rev htid]
    exact hx tid htid
  · exact ⟨rev L i, List.mem_range.mpr (rev_lt L i), _, List.mem_singleton_self _, rev_rev hi⟩

theorem nttTile_rep (pc : NttPC) (hroots : RootTable m pc.roots ρ) (hn : pc.n = 2 ^ L) (hL : L ≤ 7)
    (hlog : pc.logN = L) (hstride : 2 ^ L * pc.rootStride = 8192) {x : ℕ → ScalarField}
    (hx : ∀ i < 2 ^ L, FrRep (frAt m pc.inp
      (b * pc.inBatch + (t * pc.inStrideT + i * pc.inStrideI))) (x i)) {i : ℕ} (hi : i < 2 ^ L) :
    FrRep ((nttTile pc shared t b).val id m i) (subTransform ρ L pc.rootStride x i) := by
  simp only [nttTile, val_bind, val_gather, val_pure, lanes_eq hn hL, ← Nat.add_mul, val_frLoad,
    hlog, brev_eq (show L ≤ 32 by omega)]
  rw [hn]
  refine nttStages_rep hroots hL hstride (fun i hi => ?_) hi
  exact loaded_rep hx shared hi

theorem nttResult_rep (pc : NttPC) (hroots : RootTable m pc.roots ρ)
    (htw : ∀ tid < 2 ^ L, (t * tid) % pc.fullN * pc.twiddleStride < 8192) {s : ScalarField}
    (hs : pc.scale ≠ 0 → FrRep pc.scaleVal s) {tile : ℕ → Fr} {i : ℕ} (hi : i < 2 ^ L)
    {y : ScalarField} (hy : FrRep (tile i) y) :
    FrRep ((nttResult pc tile t i).val id m)
      (y * (if pc.twiddleStride ≠ 0 then ρ (t * i % pc.fullN * pc.twiddleStride) else 1) *
        (if pc.scale ≠ 0 then s else 1)) := by
  unfold nttResult
  by_cases htw0 : pc.twiddleStride ≠ 0
  · have hv := frRep_mul hy (hroots _ (htw i hi))
    by_cases hs0 : pc.scale ≠ 0
    · simpa [htw0, hs0] using frRep_mul hv (hs hs0)
    · simpa [htw0, hs0] using hv
  · by_cases hs0 : pc.scale ≠ 0
    · simpa [htw0, hs0] using frRep_mul hy (hs hs0)
    · simpa [htw0, hs0] using hy

@[simp] theorem stores_butterflyStage (u : ℕ → ℕ) (roots : Buf) (n rootStride : ℕ)
    (tile : ℕ → Fr) (len : ℕ) :
    (butterflyStage roots n rootStride tile len).stores u m = [] := by
  simp [butterflyStage, butterflyThread]

@[simp] theorem stores_nttTile (u : ℕ → ℕ) : (nttTile pc shared t b).stores u m = [] := by
  simp only [nttTile, stores_bind, stores_gather, stores_frLoad, stores_pure, List.append_nil]
  rw [stores_foldlM fun tile len _ => stores_butterflyStage u _ _ _ tile len, List.append_nil]
  exact List.flatMap_eq_nil_iff.mpr fun _ _ => rfl

@[simp] theorem stores_nttResult (u : ℕ → ℕ) (tile : ℕ → Fr) (i : ℕ) :
    (nttResult pc tile t i).stores u m = [] := by
  unfold nttResult
  split_ifs <;> rfl

theorem blocks_kNttPass (pc : NttPC) (hn : pc.n = 2 ^ L) (hL : L ≤ 7) :
    Blocks ((kNttPass pc shared t b).stores id m) pc.out 4 8 (List.range (2 ^ L))
      (fun tid => b * pc.outBatch + (t * pc.outStrideT + tid * pc.outStrideI))
      (fun tid => limbWords
        ((nttResult pc ((nttTile pc shared t b).val id m) t tid).val id m)) := by
  simp only [kNttPass, stores_bind, stores_nttTile, List.nil_append, lanes_eq hn hL]
  refine blocks_each fun tid _ => ?_
  simp only [stores_bind, stores_nttResult, List.nil_append, stores_frStore, ← Nat.add_mul]
  exact landing_block none _ _ _

end Pass

section Dispatch
variable {m : Mem} {ρ : ℕ → ScalarField} {params : NttParams} {L count batch : ℕ}
  {out inp roots : Buf} {shared : ℕ → ℕ → ℕ → Fr}

theorem blocks_recordNtt (m : Mem) (params : NttParams) (count batch : ℕ) (out inp roots : Buf)
    (shared : ℕ → ℕ → ℕ → Fr) (hn : params.n = 2 ^ L) (hL : L ≤ 7) :
    Blocks ((recordNtt out inp roots params count batch shared).stores id m) out 4 8
      (List.range batch ×ˢ (List.range count ×ˢ List.range (2 ^ L)))
      (fun q => q.1 * params.outBatch + (q.2.1 * params.outStrideT + q.2.2 * params.outStrideI))
      (fun q => limbWords ((nttResult ⟨params, out, inp, roots⟩
        ((nttTile ⟨params, out, inp, roots⟩ (shared q.2.1 q.1) q.2.1 q.1).val id m)
        q.2.1 q.2.2).val id m)) :=
  blocks_dispatch _ _ fun _ _ _ _ => blocks_kNttPass ⟨params, out, inp, roots⟩ hn hL

theorem frame_recordNtt {b : Buf} (hb : b ≠ out) :
    (recordNtt out inp roots params count batch shared).exec id m b = m b := by
  refine exec_dispatch_frame fun x y => ?_
  simp only [kNttPass, stores_bind, stores_nttTile, List.nil_append, stores_each,
    stores_nttResult, stores_frStore, landing_flatMap, landing_block_other hb.symm]
  exact List.flatMap_eq_nil_iff.mpr fun _ _ => rfl

theorem outIndex_inj {stride : ℕ} (hsize : 2 ^ L * count ≤ stride)
    {q q' : ℕ × ℕ × ℕ} (hq : q ∈ List.range batch ×ˢ (List.range count ×ˢ List.range (2 ^ L)))
    (hq' : q' ∈ List.range batch ×ˢ (List.range count ×ˢ List.range (2 ^ L)))
    (h : q.1 * stride + (q.2.1 * 1 + q.2.2 * count) =
      q'.1 * stride + (q'.2.1 * 1 + q'.2.2 * count)) : q = q' := by
  obtain ⟨b, t, i⟩ := q
  obtain ⟨b', t', i'⟩ := q'
  simp only [List.mem_product, List.mem_range, mul_one] at hq hq' h ⊢
  have hlt : t + i * count < stride := by
    rw [Nat.add_comm]
    exact lt_of_lt_of_le (block_lt hq.2.2 hq.2.1) hsize
  have hlt' : t' + i' * count < stride := by
    rw [Nat.add_comm]
    exact lt_of_lt_of_le (block_lt hq'.2.2 hq'.2.1) hsize
  obtain ⟨rfl, hin⟩ := block_inj hlt hlt' h
  rw [Nat.add_comm, Nat.add_comm t'] at hin
  obtain ⟨rfl, rfl⟩ := block_inj hq.2.1 hq'.2.1 hin
  rfl

/-- What one pass leaves at output `tid` of workgroup `t` of a blob. -/
theorem recordNtt_rep (params : NttParams) (count batch : ℕ) (out inp : Buf)
    (shared : ℕ → ℕ → ℕ → Fr) (hroots : RootTable m roots ρ) (hn : params.n = 2 ^ L) (hL : L ≤ 7)
    (hlog : params.logN = L) (hstride : 2 ^ L * params.rootStride = 8192)
    (hT : params.outStrideT = 1) (hI : params.outStrideI = count)
    (hsize : 2 ^ L * count ≤ params.outBatch)
    (htw : ∀ t < count, ∀ tid < 2 ^ L, (t * tid) % params.fullN * params.twiddleStride < 8192)
    {s : ScalarField} (hs : params.scale ≠ 0 → FrRep params.scaleVal s) {b : ℕ} (hb : b < batch)
    {t : ℕ} (ht : t < count) {x : ℕ → ScalarField}
    (hx : ∀ i < 2 ^ L, FrRep (frAt m inp
      (b * params.inBatch + (t * params.inStrideT + i * params.inStrideI))) (x i))
    {tid : ℕ} (htid : tid < 2 ^ L) :
    FrRep (frAt ((recordNtt out inp roots params count batch shared).exec id m) out
        (b * params.outBatch + (t + tid * count)))
      (subTransform ρ L params.rootStride x tid *
        (if params.twiddleStride ≠ 0 then ρ (t * tid % params.fullN * params.twiddleStride)
          else 1) * (if params.scale ≠ 0 then s else 1)) := by
  have hmem : (b, t, tid) ∈ List.range batch ×ˢ (List.range count ×ˢ List.range (2 ^ L)) := by
    simp only [List.mem_product, List.mem_range]
    exact ⟨hb, ht, htid⟩
  have hblocks := blocks_recordNtt m params count batch out inp roots shared hn hL
  simp only [hT, hI] at hblocks
  have hhit := frAt_hit hblocks (fun q hq q' hq' h => by rw [outIndex_inj hsize hq hq' h]) hmem m
  simp only [mul_one] at hhit
  rw [exec, hhit]
  exact nttResult_rep ⟨params, out, inp, roots⟩ hroots (htw t ht) hs htid
    (nttTile_rep ⟨params, out, inp, roots⟩ hroots hn hL hlog hstride hx htid)

end Dispatch

/-! ### Footprints -/

section Footprints
variable {P : Access Buf → Prop} {u : ℕ → ℕ} {m : Mem} {L : ℕ} {roots : Buf}

theorem within_butterflyStage {rootStride : ℕ} (hu : ∀ i < 65536, u i = i)
    (hroots : ∀ i < 65536, P ⟨roots, 4, i, none⟩) (hstride : 2 ^ L * rootStride = 8192) {s : ℕ}
    (hs : s < L) (tile : ℕ → Fr) :
    Within P u m (butterflyStage roots (2 ^ L) rootStride tile (2 <<< s)) := by
  obtain ⟨d, rfl⟩ : ∃ d, L = d + 1 + s := ⟨L - 1 - s, by omega⟩
  have hpow : 2 ^ (d + 1 + s) = 2 ^ d * (2 * 2 ^ s) := by rw [pow_add, pow_succ]; ring
  have hlen : 2 <<< s = 2 * 2 ^ s := Nat.shiftLeft_eq 2 s
  have hstep : 2 ^ (d + 1 + s) / (2 * 2 ^ s) = 2 ^ d := by
    rw [hpow, Nat.mul_div_cancel _ (by positivity)]
  have hhalf : (2 * 2 ^ s) >>> 1 = 2 ^ s := by
    rw [Nat.shiftRight_eq_div_pow, pow_one, Nat.mul_div_cancel_left _ (by decide)]
  refine within_bind (within_gather fun tid _ => ?_) (within_pure _)
  simp only [butterflyThread, hlen, hhalf, hstep]
  have hj : tid - tid / 2 ^ s * 2 ^ s < 2 ^ s := by
    have := Nat.div_add_mod' tid (2 ^ s)
    have := Nat.mod_lt tid (Nat.two_pow_pos s)
    omega
  generalize tid - tid / 2 ^ s * 2 ^ s = j at hj
  have hlt : j * 2 ^ d * rootStride < 8192 := by
    refine lt_of_lt_of_eq (Nat.mul_lt_mul_of_pos_right ?_ ?_) hstride
    · rw [hpow, Nat.mul_comm]
      exact Nat.mul_lt_mul_of_pos_left (by omega) (Nat.two_pow_pos d)
    · exact Nat.pos_of_ne_zero fun h => by simp [h] at hstride
  have hword : ∀ k < 8, j * 2 ^ d * rootStride * 8 + k < 65536 := fun k hk => by omega
  exact within_bind (within_limbsLoad (fun k hk => hu _ (hword k hk))
    fun k hk => hroots _ (hword k hk)) (within_pure _)

theorem within_nttResult {pc : NttPC} {tile : ℕ → Fr} {t tid : ℕ} (hu : ∀ i < 65536, u i = i)
    (hroots : ∀ i < 65536, P ⟨pc.roots, 4, i, none⟩)
    (htw : t * tid % pc.fullN * pc.twiddleStride < 8192) :
    Within P u m (nttResult pc tile t tid) := by
  have hword : ∀ k < 8, t * tid % pc.fullN * pc.twiddleStride * 8 + k < 65536 := fun k hk => by
    omega
  unfold nttResult
  by_cases h0 : pc.twiddleStride ≠ 0
  · simp only [if_pos h0]
    exact within_bind (within_limbsLoad (fun k hk => hu _ (hword k hk))
      fun k hk => hroots _ (hword k hk)) (within_bind (within_pure _) (within_pure _))
  · simp only [if_neg h0]
    exact within_bind (within_pure _) (within_pure _)

/-- Thread `tid` of a pass reads one scalar, roots of the table, and writes one scalar. -/
theorem within_kNttPass {pc : NttPC} {shared : ℕ → Fr} {t b : ℕ} (hn : pc.n = 2 ^ L) (hL : L ≤ 7)
    (hstride : 2 ^ L * pc.rootStride = 8192) (hu : ∀ i < 65536, u i = i)
    (hroots : ∀ i < 65536, P ⟨pc.roots, 4, i, none⟩)
    (htw : ∀ tid < 2 ^ L, t * tid % pc.fullN * pc.twiddleStride < 8192)
    (hinp : ∀ tid < 2 ^ L, ∀ k < 8,
      let i := (b * pc.inBatch + (t * pc.inStrideT + tid * pc.inStrideI)) * 8 + k
      u i = i ∧ P ⟨pc.inp, 4, i, none⟩)
    (hout : ∀ tid < 2 ^ L, ∀ k < 8,
      let i := (b * pc.outBatch + (t * pc.outStrideT + tid * pc.outStrideI)) * 8 + k
      u i = i ∧ P ⟨pc.out, 4, i, none⟩) : Within P u m (kNttPass pc shared t b) := by
  unfold kNttPass nttTile
  simp only [lanes_eq hn hL, ← Nat.add_mul]
  refine within_bind (within_bind (within_gather fun tid htid => ?_) ?_)
    (within_each fun tid htid => within_bind ?_ ?_)
  · have htid := List.mem_range.mp htid
    exact within_bind (within_limbsLoad (fun k hk => (hinp tid htid k hk).1)
      fun k hk => (hinp tid htid k hk).2) (within_pure _)
  · rw [hn, stageLens, Nat.log2_two_pow]
    refine within_foldlM (fun tile len hlen => ?_) _
    obtain ⟨s, hs, rfl⟩ := List.mem_map.mp hlen
    exact within_butterflyStage hu hroots hstride (List.mem_range.mp hs) tile
  · exact within_nttResult hu hroots (htw tid (List.mem_range.mp htid))
  · have htid := List.mem_range.mp htid
    exact within_limbsStore (fun k hk => (hout tid htid k hk).1) fun k hk => (hout tid htid k hk).2

end Footprints

end Vkzg
