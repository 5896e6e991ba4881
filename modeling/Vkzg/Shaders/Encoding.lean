import Vkzg.Shaders.Ntt
import Vkzg.Library.LimbBytes

/-! `k_blob_to_fr.comp`, `k_cells_to_fr.comp` and `k_fr_to_cells.comp`: field elements between
32 big-endian bytes in wire order and Montgomery limbs in transform order. -/

namespace Vkzg
open Radix Gpu Gpu.Kernel BitReversal

/-! ### Bytes and limbs -/

/-- 32 big-endian bytes as 8 little-endian 32-bit limbs. -/
def frOfBytes (bytes : ℕ → ℕ) : Fr := Limbs.ofFn 8 fun limb =>
  let off := (7 - limb) * 4
  UInt32.ofNat (bytes off <<< 24 ||| bytes (off + 1) <<< 16 ||| bytes (off + 2) <<< 8 |||
    bytes (off + 3))

def frBytesLoad (buf : Buf) (srcBase : ℕ) : Shader Fr := frOfBytes <$> loadWords 1 32 buf srcBase

/-- Little-endian limbs to big-endian bytes. -/
def limbBytesStore {n : ℕ} (buf : Buf) (obase : ℕ) (a : Limbs n) : Shader Unit :=
  each (List.range n) fun limb => each (List.range 4) fun t =>
    store 1 buf (obase + ((n - 1 - limb) * 4 + t)) ((a.get limb).toNat >>> (24 - 8 * t))

/-! ### The kernels -/

/-- Flags a blob element that is not canonical. -/
def reportNonCanonical (v : Fr) : Shader Unit :=
  if frIsCanonical v then pure () else atomicOr 4 .err 0 1

def blobToFrThread (b i : ℕ) : Shader Unit := do
  let v ← frBytesLoad .blob (b * bytesPerBlob + i * 32)
  reportNonCanonical v
  frStore .lagrange ((b * fieldElementsPerBlob + brev i logBlob) * frWords) (frFromCanonical v)

def kBlobToFr (wg b : ℕ) : Shader Unit :=
  each (List.range 256) fun tid => blobToFrThread b (wg * 256 + tid)

def cellsToFrThread (out cells : Buf) (b i : ℕ) : Shader Unit :=
  if i ≥ fieldElementsPerExtBlob then pure () else do
    let v ← frBytesLoad cells (b * fieldElementsPerExtBlob * 32 + i * 32)
    frStore out ((b * fieldElementsPerExtBlob + brev i 13) * frWords) (frFromCanonical v)

def kCellsToFr (out cells : Buf) (wg b : ℕ) : Shader Unit :=
  each (List.range 256) fun tid => cellsToFrThread out cells b (wg * 256 + tid)

def frToCellsThread (out inp : Buf) (b i : ℕ) : Shader Unit :=
  if i ≥ fieldElementsPerExtBlob then pure () else do
    let v ← frLoad inp ((b * fieldElementsPerExtBlob + i) * frWords)
    limbBytesStore out ((b * fieldElementsPerExtBlob + brev i 13) * 32) (frToCanonical v)

def kFrToCells (out inp : Buf) (wg b : ℕ) : Shader Unit :=
  each (List.range 256) fun tid => frToCellsThread out inp b (wg * 256 + tid)

def blobToFrDispatch (batch : ℕ) : Shader Unit :=
  dispatch kBlobToFr (fieldElementsPerBlob / 256) batch

/-! ### The value of 32 bytes -/

section Bytes
variable {m : Mem}

theorem elem_byte (m : Mem) (buf : Buf) (i : ℕ) : m.elem 1 buf i = (m buf i).toNat := by
  simp [Memory.elem, bytesValue]

theorem shift_join (f : ℕ → UInt8) :
    (f 0).toNat <<< 24 ||| (f 1).toNat <<< 16 ||| (f 2).toNat <<< 8 ||| (f 3).toNat =
      bigEndian 4 f := by
  have h0 := (f 0).toNat_lt
  have h1 := (f 1).toNat_lt
  have h2 := (f 2).toNat_lt
  have h3 := (f 3).toNat_lt
  have hjoin : ∀ {x y i : ℕ}, y < 2 ^ i → x <<< i ||| y = x * 2 ^ i + y := fun {x y i} hy => by
    rw [Nat.shiftLeft_eq, Nat.mul_comm, Nat.two_pow_add_eq_or_of_lt hy]
  have hshift : (f 0).toNat <<< 24 ||| (f 1).toNat <<< 16 ||| (f 2).toNat <<< 8 =
      ((f 0).toNat <<< 16 ||| (f 1).toNat <<< 8 ||| (f 2).toNat) <<< 8 := by
    simp only [Nat.shiftLeft_or_distrib, ← Nat.shiftLeft_add]
  have hshift' : (f 0).toNat <<< 16 ||| (f 1).toNat <<< 8 =
      ((f 0).toNat <<< 8 ||| (f 1).toNat) <<< 8 := by
    simp only [Nat.shiftLeft_or_distrib, ← Nat.shiftLeft_add]
  rw [hshift, hjoin h3, hshift', hjoin h2, hjoin h1]
  simp only [bigEndian, bytesValue, Nat.reduceSub, Nat.reduceAdd]
  omega

theorem frOfBytes_toNat (f : ℕ → UInt8) :
    (frOfBytes fun k => (f k).toNat).toNat = bigEndian (4 * 8) f := by
  have hlimb : (frOfBytes fun k => (f k).toNat) = Limbs.ofFn 8 fun i =>
      UInt32.ofNat (bigEndian 4 fun k => f ((7 - i) * 4 + k)) := by
    refine Limbs.ofFn_congr fun i _ => ?_
    rw [← shift_join, Nat.add_zero]
  rw [hlimb]
  exact Limbs.toNat_ofFn_bigEndian 8 f

/-- The number in the 32 bytes of element `i` of a buffer of encoded elements. -/
def elementValue (bytes : ℕ → UInt8) (i : ℕ) : ℕ := bigEndian 32 fun k => bytes (i * 32 + k)

def frBytesAt (m : Mem) (buf : Buf) (i : ℕ) : Fr :=
  frOfBytes fun k => m.elem 1 buf (i * 32 + k)

@[simp] theorem val_frBytesLoad (buf : Buf) (i : ℕ) :
    (frBytesLoad buf (i * 32)).val id m = frBytesAt m buf i := rfl

@[simp] theorem stores_frBytesLoad (u : ℕ → ℕ) (buf : Buf) (off : ℕ) :
    (frBytesLoad buf off).stores u m = [] := rfl

theorem frBytesAt_toNat (m : Mem) (buf : Buf) (i : ℕ) :
    (frBytesAt m buf i).toNat = elementValue (m buf) i := by
  simp only [frBytesAt, elem_byte]
  exact frOfBytes_toNat fun k => m buf (i * 32 + k)

/-- A byte of a slot, where every thread of a grid stores bytes of a slot of its own. -/
theorem byte_lanes {thread : ℕ → ℕ → Shader Unit} {size gx gy n : ℕ} {out : Buf} {pos : ℕ × ℕ → ℕ}
    (hslot : ∀ q ∈ List.range gy ×ˢ List.range (gx * size),
      ∀ t ∈ landing out ((thread q.1 q.2).stores id m), t.1 = 1 ∧ ∃ k < n, t.2.1 = pos q * n + k)
    (hinj : ∀ q ∈ List.range gy ×ˢ List.range (gx * size),
      ∀ q' ∈ List.range gy ×ˢ List.range (gx * size), pos q = pos q' → q = q')
    {q : ℕ × ℕ} (hq : q ∈ List.range gy ×ˢ List.range (gx * size)) {k v : ℕ} (hk : k < n)
    (hv : lastAt (landing out ((thread q.1 q.2).stores id m)) (pos q * n + k) = some v) :
    (dispatch (fun x y => each (List.range size) fun t => thread y (x * size + t)) gx gy).exec id m
      out (pos q * n + k) = UInt8.ofNat v := by
  have hland := landing_lanes (b := out) (u := id) (m := m) thread size gx gy
  have hwidth : ∀ t ∈ landing out ((dispatch (fun x y => each (List.range size) fun t =>
      thread y (x * size + t)) gx gy).stores id m), t.1 = 1 := by
    intro t ht
    rw [hland] at ht
    obtain ⟨q, hq, ht⟩ := List.mem_flatMap.mp ht
    exact (hslot q hq t ht).1
  have hlast := lastAt_group (p := pos) (fun q hq t ht => (hslot q hq t ht).2) hinj hq hk
  have hbyte := elem_applyAll_lastAt hwidth (pos q * n + k) m
  rw [hland, hlast, hv, elem_byte, Option.map_some, Option.getD_some, pow_one] at hbyte
  rw [← UInt8.toNat_inj, UInt8.toNat_ofNat']
  exact hbyte

end Bytes

/-! ### From bytes -/

section FromBytes
variable {m : Mem} {batch : ℕ}

theorem brev_pos_inj {L b b' i i' : ℕ} (hL : L ≤ 32) (hi : i < 2 ^ L) (hi' : i' < 2 ^ L)
    (h : b * 2 ^ L + brev i L = b' * 2 ^ L + brev i' L) : b = b' ∧ i = i' := by
  rw [brev_eq hL, brev_eq hL] at h
  obtain ⟨hb, hrev⟩ := block_inj (rev_lt L i) (rev_lt L i') h
  exact ⟨hb, rev_inj hi hi' hrev⟩

theorem brev_brev {L i : ℕ} (hL : L ≤ 32) (hi : i < 2 ^ L) : brev (brev i L) L = i := by
  rw [brev_eq hL, brev_eq hL, rev_rev hi]

theorem brev_lt {L i : ℕ} (hL : L ≤ 32) : brev i L < 2 ^ L := by
  rw [brev_eq hL]
  exact rev_lt L i

@[simp] theorem landing_reportNonCanonical {buf : Buf} (h : buf ≠ .err) (u : ℕ → ℕ) (v : Fr) :
    landing buf ((reportNonCanonical v).stores u m) = [] := by
  unfold reportNonCanonical
  split_ifs
  · rfl
  · simp [landing, h.symm]

theorem landing_err_reportNonCanonical (v : Fr) :
    landing .err ((reportNonCanonical v).stores id m) =
      if frIsCanonical v then [] else [(4, 0, m.elem 4 .err 0 ||| 1)] := by
  unfold reportNonCanonical
  split_ifs
  · rfl
  · simp [landing]

theorem blocks_blobToFr (m : Mem) (batch : ℕ) : Blocks ((blobToFrDispatch batch).stores id m)
    .lagrange 4 8 (List.range batch ×ˢ List.range (fieldElementsPerBlob / 256 * 256))
    (fun q => q.1 * 4096 + brev q.2 12)
    (fun q => limbWords (frFromCanonical (frBytesAt m .blob (q.1 * 4096 + q.2)))) := by
  refine blocks_lanes blobToFrThread (fun b i => b * 4096 + brev i 12)
    (fun b i => limbWords (frFromCanonical (frBytesAt m .blob (b * 4096 + i)))) fun b _ i _ => ?_
  have hbase : b * 131072 + i * 32 = (b * 4096 + i) * 32 := by omega
  simp only [blobToFrThread, hbase, stores_bind, val_frBytesLoad, stores_frBytesLoad,
    List.nil_append, landing_append, stores_frStore]
  rw [landing_reportNonCanonical (by decide), List.nil_append]
  exact landing_block none _ _ _

theorem blobToFr_elem {b i : ℕ} (hb : b < batch) (hi : i < fieldElementsPerBlob) :
    frAt ((blobToFrDispatch batch).exec id m) .lagrange (b * fieldElementsPerBlob + i) =
      frFromCanonical (frBytesAt m .blob (b * fieldElementsPerBlob + brev i 12)) := by
  have hlt : brev i 12 < 2 ^ 12 := brev_lt (by decide)
  have hhit := frAt_hit (blocks_blobToFr m batch) (x := (b, brev i 12)) ?_
    (by simp only [List.mem_product, List.mem_range]; exact ⟨hb, hlt⟩) m
  · simp only [brev_brev (show 12 ≤ 32 by decide) hi] at hhit
    exact hhit
  · rintro ⟨b₁, i₁⟩ h₁ ⟨b₂, i₂⟩ h₂ heq
    simp only [List.mem_product, List.mem_range] at h₁ h₂
    obtain ⟨rfl, rfl⟩ := brev_pos_inj (L := 12) (by decide) h₁.2 h₂.2 heq
    rfl

theorem blobToFr_rep {b i : ℕ} (hb : b < batch) (hi : i < fieldElementsPerBlob) :
    FrRep (frAt ((blobToFrDispatch batch).exec id m) .lagrange (b * fieldElementsPerBlob + i))
      (elementValue (m .blob) (b * fieldElementsPerBlob + brev i 12) : ScalarField) := by
  rw [blobToFr_elem hb hi, ← frBytesAt_toNat]
  exact frRep_fromCanonical _

theorem frame_blobToFr {b : Buf} (hout : b ≠ .lagrange) (herr : b ≠ .err) :
    (blobToFrDispatch batch).exec id m b = m b := by
  refine exec_frame ?_
  rw [blobToFrDispatch]
  refine (landing_lanes blobToFrThread 256 (fieldElementsPerBlob / 256) batch).trans ?_
  refine List.flatMap_eq_nil_iff.mpr fun q _ => ?_
  simp only [blobToFrThread, stores_bind, stores_frBytesLoad, List.nil_append, landing_append,
    stores_frStore, landing_reportNonCanonical herr, landing_block_other hout.symm]

/-- The error word is flagged exactly when an element of the batch is not canonical. -/
theorem blobToFr_err (herr : m.elem 4 .err 0 = 0) :
    ((blobToFrDispatch batch).exec id m).elem 4 .err 0 =
      if ∀ b < batch, ∀ i < fieldElementsPerBlob,
        elementValue (m .blob) (b * fieldElementsPerBlob + i) < frModulus then 0 else 1 := by
  -- A thread stores to the error word only if its element is not canonical.
  have hthread : ∀ b i, landing .err ((blobToFrThread b i).stores id m) =
      if elementValue (m .blob) (b * 4096 + i) < frModulus then [] else [(4, 0, 1)] := by
    intro b i
    have hbase : b * 131072 + i * 32 = (b * 4096 + i) * 32 := by omega
    simp only [blobToFrThread, hbase, stores_bind, val_frBytesLoad, stores_frBytesLoad,
      List.nil_append, landing_append, stores_frStore, landing_block_other (show
        Buf.lagrange ≠ .err by decide), List.append_nil, landing_err_reportNonCanonical, herr,
      ← frBytesAt_toNat, ← frIsCanonical_iff]
    rfl
  have hland : landing .err ((blobToFrDispatch batch).stores id m) =
      (List.range batch ×ˢ List.range (fieldElementsPerBlob / 256 * 256)).flatMap fun q =>
        if elementValue (m .blob) (q.1 * 4096 + q.2) < frModulus then [] else [(4, 0, 1)] := by
    refine (landing_lanes blobToFrThread 256 (fieldElementsPerBlob / 256) batch).trans ?_
    exact List.flatMap_congr fun q _ => hthread q.1 q.2
  split_ifs with hall
  · have hnil : landing .err ((blobToFrDispatch batch).stores id m) = [] := by
      rw [hland]
      refine List.flatMap_eq_nil_iff.mpr fun q hq => if_pos ?_
      obtain ⟨hb, hi⟩ := List.mem_product.mp hq
      exact hall q.1 (List.mem_range.mp hb) q.2 (List.mem_range.mp hi)
    rw [Memory.elem_congr (exec_frame hnil), herr]
  · push Not at hall
    obtain ⟨b, hb, i, hi, hbad⟩ := hall
    have hmem : ∀ t ∈ landing .err ((blobToFrDispatch batch).stores id m), t = (4, 0, 1) := by
      intro t ht
      rw [hland] at ht
      obtain ⟨q, -, hq⟩ := List.mem_flatMap.mp ht
      split_ifs at hq
      · exact absurd hq List.not_mem_nil
      · exact List.mem_singleton.mp hq
    -- All stores to the word set the same bit, so that their order does not matter.
    have hhit : (applyAll ((blobToFrDispatch batch).stores id m) m).elem 4 .err 0 = 1 % 256 ^ 4 := by
      refine elem_applyAll_hit (fun s hs hsb => ?_) (fun s hs hsb _ => ?_) ?_ m
      · exact (Prod.mk.inj (hmem _ (mem_landing.mpr ⟨s, hs, hsb, rfl⟩))).1
      · exact congrArg (fun t => t.2.2) (hmem _ (mem_landing.mpr ⟨s, hs, hsb, rfl⟩))
      · have hbit : (4, 0, 1) ∈ landing .err ((blobToFrDispatch batch).stores id m) := by
          rw [hland]
          refine List.mem_flatMap.mpr ⟨(b, i), ?_, ?_⟩
          · exact List.mem_product.mpr ⟨List.mem_range.mpr hb, List.mem_range.mpr hi⟩
          · rw [if_neg (Nat.not_lt.mpr hbad)]
            exact List.mem_singleton_self _
        obtain ⟨s, hs, hsb, heq⟩ := mem_landing.mp hbit
        exact ⟨s, hs, hsb, (congrArg (fun t => t.2.1) heq).symm⟩
    exact hhit

theorem blocks_cellsToFr (m : Mem) (out cells : Buf) (batch : ℕ) :
    Blocks ((dispatch (kCellsToFr out cells) (fieldElementsPerExtBlob / 256) batch).stores id m)
      out 4 8 (List.range batch ×ˢ List.range (fieldElementsPerExtBlob / 256 * 256))
      (fun q => q.1 * 8192 + brev q.2 13)
      (fun q => limbWords (frFromCanonical (frBytesAt m cells (q.1 * 8192 + q.2)))) := by
  refine blocks_lanes (cellsToFrThread out cells) (fun b i => b * 8192 + brev i 13)
    (fun b i => limbWords (frFromCanonical (frBytesAt m cells (b * 8192 + i)))) fun b _ i hi => ?_
  have hbase : b * 8192 * 32 + i * 32 = (b * 8192 + i) * 32 := by omega
  rw [cellsToFrThread, if_neg (Nat.not_le.mpr (show i < 8192 from hi)), hbase, stores_bind,
    stores_frBytesLoad, List.nil_append, val_frBytesLoad, stores_frStore]
  exact landing_block none _ _ _

theorem cellsToFr_rep (m : Mem) (out cells : Buf) {b i : ℕ} (hb : b < batch)
    (hi : i < fieldElementsPerExtBlob) :
    FrRep (frAt ((dispatch (kCellsToFr out cells) (fieldElementsPerExtBlob / 256) batch).exec id m)
      out (b * fieldElementsPerExtBlob + i))
      (elementValue (m cells) (b * fieldElementsPerExtBlob + brev i 13) : ScalarField) := by
  have hlt : brev i 13 < 2 ^ 13 := brev_lt (by decide)
  have hhit := frAt_hit (blocks_cellsToFr m out cells batch) (x := (b, brev i 13)) ?_
    (List.mem_product.mpr ⟨List.mem_range.mpr hb, List.mem_range.mpr hlt⟩) m
  · simp only [brev_brev (show 13 ≤ 32 by decide) hi] at hhit
    rw [exec, hhit, ← frBytesAt_toNat]
    exact frRep_fromCanonical _
  · rintro ⟨b₁, i₁⟩ h₁ ⟨b₂, i₂⟩ h₂ heq
    obtain ⟨rfl, rfl⟩ := brev_pos_inj (L := 13) (by decide)
      (List.mem_range.mp (List.mem_product.mp h₁).2)
      (List.mem_range.mp (List.mem_product.mp h₂).2) heq
    rfl

theorem frame_cellsToFr {out cells b : Buf} (hout : b ≠ out) :
    (dispatch (kCellsToFr out cells) (fieldElementsPerExtBlob / 256) batch).exec id m b = m b := by
  refine exec_frame ?_
  refine (landing_lanes (cellsToFrThread out cells) 256 32 batch).trans ?_
  refine List.flatMap_eq_nil_iff.mpr fun q _ => ?_
  rw [cellsToFrThread]
  split_ifs
  · rfl
  · simp only [stores_bind, stores_frBytesLoad, List.nil_append, stores_frStore,
      landing_block_other hout.symm]

end FromBytes

/-! ### To bytes -/

section ToBytes
variable {m : Mem} {batch : ℕ}

theorem landing_limbBytesStore {n : ℕ} (buf : Buf) (pos : ℕ) (a : Limbs n) :
    landing buf ((limbBytesStore buf (pos * (n * 4)) a).stores id m) =
      (List.range n).flatMap fun limb => (List.range 4).map fun t =>
        (1, pos * (n * 4) + ((n - 1 - limb) * 4 + t), (a.get limb).toNat >>> (24 - 8 * t)) := by
  rw [limbBytesStore, stores_each, landing_flatMap]
  refine List.flatMap_congr fun limb _ => ?_
  rw [stores_each, landing_flatMap, List.map_eq_flatMap]
  refine List.flatMap_congr fun t _ => ?_
  simp [landing]

theorem landing_limbBytesStore_other {n : ℕ} {buf b : Buf} (h : b ≠ buf) (off : ℕ) (a : Limbs n) :
    landing b ((limbBytesStore buf off a).stores id m) = [] := by
  rw [limbBytesStore]
  refine landing_each_nil fun limb _ => landing_each_nil fun t _ => ?_
  simp [landing, h.symm]

theorem lastAt_limbBytes {n : ℕ} (a : Limbs n) (base : ℕ) {k : ℕ} (hk : k < 4 * n) :
    lastAt ((List.range n).flatMap fun limb => (List.range 4).map fun t =>
        (1, base + ((n - 1 - limb) * 4 + t), (a.get limb).toNat >>> (24 - 8 * t))) (base + k) =
      some ((a.get (n - 1 - k / 4)).toNat >>> (24 - 8 * (k % 4))) := by
  have hlimb : n - 1 - k / 4 < n := by omega
  rw [lastAt_flatMap (x := n - 1 - k / 4) (List.mem_range.mpr hlimb)]
  · have hpos : base + k = base + ((n - 1 - (n - 1 - k / 4)) * 4 + k % 4) := by omega
    rw [hpos, List.map_eq_flatMap, lastAt_flatMap (x := k % 4)
      (List.mem_range.mpr (Nat.mod_lt k (by decide)))]
    · simp [lastAt]
    · intro t ht hne s hs
      simp only [List.mem_singleton] at hs
      subst hs
      simp only
      omega
  · intro limb hlt hne s hs
    obtain ⟨t, ht, rfl⟩ := List.mem_map.mp hs
    have := List.mem_range.mp hlt
    have := List.mem_range.mp ht
    simp only
    omega

theorem landing_frToCellsThread (out inp : Buf) {b i : ℕ} (hi : i < 8192) :
    landing out ((frToCellsThread out inp b i).stores id m) =
      (List.range 8).flatMap fun limb => (List.range 4).map fun t =>
        (1, (b * 8192 + brev i 13) * (8 * 4) + ((8 - 1 - limb) * 4 + t),
          ((frToCanonical (frAt m inp (b * 8192 + i))).get limb).toNat >>> (24 - 8 * t)) := by
  rw [frToCellsThread, if_neg (Nat.not_le.mpr hi), stores_bind, stores_frLoad, List.nil_append,
    val_frLoad]
  exact landing_limbBytesStore _ _ _

theorem landing_frToCells (m : Mem) (out inp : Buf) (batch : ℕ) :
    landing out
        ((dispatch (kFrToCells out inp) (fieldElementsPerExtBlob / 256) batch).stores id m) =
      (List.range batch ×ˢ List.range fieldElementsPerExtBlob).flatMap fun q =>
        (List.range 8).flatMap fun limb => (List.range 4).map fun t =>
          (1, (q.1 * 8192 + brev q.2 13) * (8 * 4) + ((8 - 1 - limb) * 4 + t),
            ((frToCanonical (frAt m inp (q.1 * 8192 + q.2))).get limb).toNat >>> (24 - 8 * t)) := by
  refine (landing_lanes (frToCellsThread out inp) 256 32 batch).trans ?_
  exact List.flatMap_congr fun q hq =>
    landing_frToCellsThread out inp (List.mem_range.mp (List.mem_product.mp hq).2)

theorem frToCells_byte {out inp : Buf} {b i k : ℕ} (hb : b < batch)
    (hi : i < fieldElementsPerExtBlob) (hk : k < 32) :
    (dispatch (kFrToCells out inp) (fieldElementsPerExtBlob / 256) batch).exec id m out
        ((b * fieldElementsPerExtBlob + i) * 32 + k) =
      bigEndianByte 32 (frToCanonical (frAt m inp
        (b * fieldElementsPerExtBlob + brev i 13))).toNat k := by
  have hlt : brev i 13 < 8192 := brev_lt (L := 13) (by decide)
  have hslot : ∀ q ∈ List.range batch ×ˢ List.range (32 * 256),
      ∀ t ∈ landing out ((frToCellsThread out inp q.1 q.2).stores id m),
        t.1 = 1 ∧ ∃ k < 32, t.2.1 = (q.1 * 8192 + brev q.2 13) * 32 + k := by
    intro q hq t ht
    rw [landing_frToCellsThread _ _ (List.mem_range.mp (List.mem_product.mp hq).2)] at ht
    obtain ⟨limb, hlimb, ht⟩ := List.mem_flatMap.mp ht
    obtain ⟨s, hs, rfl⟩ := List.mem_map.mp ht
    have := List.mem_range.mp hlimb
    have := List.mem_range.mp hs
    exact ⟨rfl, _, by omega, rfl⟩
  -- Reversal is injective on a blob: no other thread writes to the slot.
  have hinj : ∀ q ∈ List.range batch ×ˢ List.range (32 * 256),
      ∀ q' ∈ List.range batch ×ˢ List.range (32 * 256),
        q.1 * 8192 + brev q.2 13 = q'.1 * 8192 + brev q'.2 13 → q = q' := by
    intro q hq q' hq' heq
    obtain ⟨hq₁, hq₂⟩ := brev_pos_inj (L := 13) (by decide)
      (List.mem_range.mp (List.mem_product.mp hq).2)
      (List.mem_range.mp (List.mem_product.mp hq').2) heq
    exact Prod.ext hq₁ hq₂
  have hlast : lastAt (landing out ((frToCellsThread out inp b (brev i 13)).stores id m))
      ((b * 8192 + brev (brev i 13) 13) * 32 + k) = some (((frToCanonical (frAt m inp
        (b * 8192 + brev i 13))).get (8 - 1 - k / 4)).toNat >>> (24 - 8 * (k % 4))) := by
    rw [landing_frToCellsThread _ _ hlt]
    exact lastAt_limbBytes _ _ hk
  have hbyte := byte_lanes hslot hinj (q := (b, brev i 13))
    (List.mem_product.mpr ⟨List.mem_range.mpr hb, List.mem_range.mpr hlt⟩) hk hlast
  rw [Limbs.get_bigEndianByte _ (n := 8) hk] at hbyte
  simp only [brev_brev (show 13 ≤ 32 by decide) hi] at hbyte
  exact hbyte

theorem frame_frToCells {out inp b : Buf} (hout : b ≠ out) :
    (dispatch (kFrToCells out inp) (fieldElementsPerExtBlob / 256) batch).exec id m b = m b := by
  refine exec_frame ?_
  refine (landing_lanes (frToCellsThread out inp) 256 32 batch).trans ?_
  refine List.flatMap_eq_nil_iff.mpr fun q _ => ?_
  rw [frToCellsThread]
  split_ifs
  · rfl
  · rw [stores_bind, stores_frLoad, List.nil_append]
    exact landing_limbBytesStore_other hout _ _

end ToBytes

end Vkzg
