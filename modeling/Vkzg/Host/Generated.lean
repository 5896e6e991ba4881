import Vkzg.Host.TablesSafety

/-! What `precomputed_tables.bin` holds: the powers of a root of unity, the points of phase A with
their multiples, and the kernel of phase B by its half taps. Any such tables can be loaded. -/

namespace Vkzg
open Radix Gpu Gpu.Kernel

/-- The buffers hold the tables over a root of unity `w`, points `P` of phase A and a kernel `K`. -/
structure TablesHold (w : ScalarField) (P : ℕ → ℕ → ScalarPoint)
    (K : ZMod circulantSize → ScalarField) (m : Mem) : Prop where
  fwd : RootTable m .rootsFwd fun k => w ^ k
  inv : RootTable m .rootsInv fun k => w⁻¹ ^ k
  table : TableHolds m fun j i d => 2 ^ (8 * d) • (P j i : Point)
  kernel : Encodes m K

/-- The tables a file gives, wherever they are uploaded. -/
structure Generated (w : ScalarField) (P : ℕ → ℕ → ScalarPoint)
    (K : ZMod circulantSize → ScalarField) (tables : PrecomputedTables) : Prop where
  scale : FrRep tables.invBlob ((4096 : ℕ) : ScalarField)⁻¹
  upload : ∀ m, TablesHold w P K (uploadTables tables m)

/-- A prover that was created from such tables, at any time of its life. -/
structure Loaded (w : ScalarField) (P : ℕ → ℕ → ScalarPoint)
    (K : ZMod circulantSize → ScalarField) (p : Prover) (m : Mem) : Prop where
  ready : Ready p m
  tables : TablesHold w P K m
  scale : FrRep p.invBlob ((4096 : ℕ) : ScalarField)⁻¹

section Loaded
variable {w : ScalarField} {P : ℕ → ℕ → ScalarPoint} {K : ZMod circulantSize → ScalarField}
  {p : Prover} {m m' : Mem}

theorem TablesHold.congr (h : TablesHold w P K m) (hfwd : m' .rootsFwd = m .rootsFwd)
    (hinv : m' .rootsInv = m .rootsInv) (htable : m' .table = m .table)
    (hlists : ∀ b : Buf, b.isKernelList = true → m' b = m b) : TablesHold w P K m' where
  fwd k hk := by
    rw [frAt_congr hfwd]
    exact h.fwd k hk
  inv k hk := by
    rw [frAt_congr hinv]
    exact h.inv k hk
  table j hj i hi d hd := by
    rw [g1aAt_congr htable]
    exact h.table j hj i hi d hd
  kernel := ⟨h.kernel.plusWf.congr (hlists _ rfl) (hlists _ rfl) (hlists _ rfl),
    h.kernel.minusWf.congr (hlists _ rfl) (hlists _ rfl) (hlists _ rfl),
    fun e he => by
      rw [tapOf_congr (hlists plusLists.items rfl) (hlists plusLists.offsets rfl)]
      exact h.kernel.plus e he,
    fun e he => by
      rw [tapOf_congr (hlists minusLists.items rfl) (hlists minusLists.offsets rfl)]
      exact h.kernel.minus e he⟩

theorem isSetup_of_isKernelList {b : Buf} (h : b.isKernelList = true) : b.isSetup = true := by
  cases b <;> simp_all [Buf.isKernelList, Buf.isSetup]

theorem TablesHold.keep (h : TablesHold w P K m) (hm : ∀ b : Buf, b.isSetup = true → m' b = m b) :
    TablesHold w P K m' :=
  h.congr (hm _ rfl) (hm _ rfl) (hm _ rfl) fun b hb => hm b (isSetup_of_isKernelList hb)

theorem Loaded.congr (h : Loaded w P K p m) (hm : ∀ b : Buf, b.isSetup = true → m' b = m b) :
    Loaded w P K p m' where
  ready := h.ready.congr hm
  tables := h.tables.keep hm
  scale := h.scale

theorem frame_populate {b : Buf} (h₀ : b ≠ .cosetShiftFwd) (h₁ : b ≠ .cosetShiftInv)
    (h₂ : b ≠ .invExtBlob) (m : Mem) : runAll populateCosetShiftTables id m b = m b := by
  rw [populateCosetShiftTables, runAll_cons, runAll_cons, runAll_nil, frame_powSeq h₁ h₂,
    frame_powSeq h₀ h₂]

theorem createProver_lists {tables : PrecomputedTables} {opts : Option UInt32} {cores : ℕ}
    {granted : Bool} {s : Submission} (h : createProver tables opts cores granted s m = .ok (p, m'))
    {b : Buf} (hb : b.isKernelList = true) : m' b = uploadTables tables m b := by
  rw [(createProver_ok h).2]
  have hne : ∀ c : Buf, c.isKernelList = false → b ≠ c := by
    rintro c hc rfl
    rw [hc] at hb
    exact absurd hb (by decide)
  exact frame_populate (hne _ rfl) (hne _ rfl) (hne _ rfl) _

theorem Generated.loaded {tables : PrecomputedTables} {opts : Option UInt32} {cores : ℕ}
    {granted : Bool} {s : Submission} (h : Generated w P K tables)
    (hcreate : createProver tables opts cores granted s m = .ok (p, m')) : Loaded w P K p m' := by
  have hready : Ready p m' := ⟨tables, opts, cores, granted, s, m, m', hcreate, fun _ _ => rfl⟩
  obtain ⟨hp, hm'⟩ := createProver_ok hcreate
  refine ⟨hready, (h.upload m).congr ?_ ?_ ?_ fun b hb => createProver_lists hcreate hb, ?_⟩
  · rw [hm']
    exact frame_populate (by decide) (by decide) (by decide) _
  · rw [hm']
    exact frame_populate (by decide) (by decide) (by decide) _
  · rw [hm']
    exact frame_populate (by decide) (by decide) (by decide) _
  · rw [hp]
    exact h.scale

end Loaded

/-! ### Any such tables can be loaded -/

def packWords {n : ℕ} (f : ℕ → Limbs n) (count : ℕ) : List UInt32 :=
  (List.range (count * n)).map fun i => (f (i / n)).get (i % n)

/-- A kernel list whose only bucket is the first: digit `d` of tap `e` as that many items. -/
def tapItems (x : ℕ → ℕ) : List ℕ :=
  (List.range circulantHalf ×ˢ List.range ladderPositions).flatMap fun it =>
    List.replicate (x it.1 / 256 ^ it.2 % 256) (it.1 + 256 * it.2)

def tapOffsets (x : ℕ → ℕ) (k : ℕ) : ℕ := if k = 0 then 0 else (tapItems x).length

def word32 (l : List ℕ) : List UInt32 := l.map UInt32.ofNat

section Pack
variable {m : Mem} {buf : Buf} {n count : ℕ} {f : ℕ → Limbs n}

theorem length_packWords : (packWords f count).length = count * n := by
  rw [packWords, List.length_map, List.length_range]

theorem limbsAt_packWords (h : ∀ i < (packWords f count).length,
    m.elem 4 buf i = ((packWords f count).getD i 0).toNat) {i : ℕ} (hi : i < count) :
    limbsAt n m buf (i * n) = f i := by
  refine limbsOf_eq fun k hk => ?_
  have hlt : i * n + k < count * n := block_lt hi hk
  rw [h _ (by rwa [length_packWords]), packWords, List.getD_eq_getElem?_getD, List.getElem?_map,
    List.getElem?_range hlt, Option.map_some, Option.getD_some, block_div hk,
    Nat.mul_add_mod_of_lt hk, limbWords]

end Pack

section Taps
variable {x : ℕ → ℕ} {e d : ℕ}

theorem length_tapItems_lt : (tapItems x).length < 2 ^ 32 := by
  have hle : (tapItems x).length ≤ circulantHalf * ladderPositions * 255 := by
    rw [tapItems, List.length_flatMap]
    calc _ ≤ ((List.range circulantHalf ×ˢ List.range ladderPositions).map fun _ => 255).sum := by
          refine List.sum_le_sum fun it _ => ?_
          rw [List.length_replicate]
          omega
      _ = circulantHalf * ladderPositions * 255 := by
          rw [List.map_const', List.sum_replicate, List.length_product, List.length_range,
            List.length_range, smul_eq_mul]
  exact hle.trans_lt (by decide)

theorem itemTap_pack (he : e < circulantHalf) : itemTap (e + 256 * d) = e := by
  simp only [circulantHalf] at he
  rw [itemTap, Nat.and_two_pow_sub_one_eq_mod _ 8]
  omega

theorem itemPosition_pack (he : e < circulantHalf) (hd : d < ladderPositions) :
    itemPosition (e + 256 * d) = d := by
  simp only [circulantHalf, ladderPositions] at he hd
  rw [itemPosition, Nat.and_two_pow_sub_one_eq_mod _ 8, Nat.shiftRight_eq_div_pow]
  omega

theorem itemSign_pack (he : e < circulantHalf) (hd : d < ladderPositions) :
    itemSign (e + 256 * d) = 0 := by
  simp only [circulantHalf, ladderPositions] at he hd
  rw [itemSign, Nat.shiftRight_eq_div_pow, show (e + 256 * d) / 2 ^ 16 = 0 by omega]
  rfl

theorem mem_tapItems {packed : ℕ} (h : packed ∈ tapItems x) :
    ∃ e < circulantHalf, ∃ d < ladderPositions, packed = e + 256 * d := by
  obtain ⟨⟨e, d⟩, hmem, hpacked⟩ := List.mem_flatMap.mp h
  obtain ⟨he, hd⟩ := List.mem_product.mp hmem
  exact ⟨e, List.mem_range.mp he, d, List.mem_range.mp hd, (List.mem_replicate.mp hpacked).2⟩

theorem sum_digits256 (v n : ℕ) :
    ∑ d ∈ Finset.range n, v / 256 ^ d % 256 * 256 ^ d = v % 256 ^ n := by
  induction n with
  | zero => simp [Nat.mod_one]
  | succ n ih =>
    rw [Finset.sum_range_succ, ih, pow_succ, Nat.mod_mul]
    ring

/-- The items of a tap spell its value. -/
theorem sum_tapItems (he : e < circulantHalf) (hx : x e < 256 ^ 32) :
    ((tapItems x).map fun packed => if itemTap packed = e then itemWeight 0 packed else 0).sum =
      x e := by
  have hitem : ∀ it ∈ List.range circulantHalf ×ˢ List.range ladderPositions,
      ((List.replicate (x it.1 / 256 ^ it.2 % 256) (it.1 + 256 * it.2)).map fun packed =>
        if itemTap packed = e then itemWeight 0 packed else 0).sum =
          if it.1 = e then ((x e / 256 ^ it.2 % 256 * 256 ^ it.2 : ℕ) : ℤ) else 0 := by
    rintro ⟨e', d⟩ hmem
    obtain ⟨he', hd⟩ := List.mem_product.mp hmem
    have he' := List.mem_range.mp he'
    have hd := List.mem_range.mp hd
    rw [List.map_replicate, List.sum_replicate, itemTap_pack he']
    split_ifs with h
    · rw [itemWeight, itemSign_pack he' hd, itemPosition_pack he' hd, pow_mul, h]
      norm_num
    · exact smul_zero _
  have hproduct : (List.range circulantHalf ×ˢ List.range ladderPositions : List (ℕ × ℕ)) =
      phaseAIds := rfl
  rw [tapItems, List.map_flatMap, List.flatMap_def, List.sum_flatten, List.map_map,
    List.map_congr_left (g := fun it => if it.1 = e then
      ((x e / 256 ^ it.2 % 256 * 256 ^ it.2 : ℕ) : ℤ) else 0) hitem, hproduct, sum_phaseAIds,
    Finset.sum_comm]
  simp only [Finset.sum_ite_eq', if_pos (Finset.mem_range.mpr he)]
  rw [← Nat.cast_sum, sum_digits256, Nat.mod_eq_of_lt hx]

end Taps

section Lists
variable {m : Mem} {lists : KernelLists} {x : ℕ → ℕ}

theorem word32_getD {l : List ℕ} (hl : ∀ a ∈ l, a < 2 ^ 32) {i : ℕ} (hi : i < l.length) :
    ((word32 l).getD i 0).toNat = l[i] := by
  have hi' : i < (word32 l).length := by rwa [word32, List.length_map]
  rw [getD_of_lt hi']
  simp only [word32, List.getElem_map]
  exact UInt32.toNat_ofNat_of_lt' (hl _ (List.getElem_mem hi))

/-- The lists of one half with the given taps. -/
def TapsHold (m : Mem) (lists : KernelLists) (x : ℕ → ℕ) : Prop :=
  HalfHolds m lists (word32 (tapItems x)) (word32 ((List.range (numBuckets + 1)).map (tapOffsets x)))
    (word32 (List.range numBuckets))

theorem TapsHold.perm (h : TapsHold m lists x) {t : ℕ} (ht : t < numBuckets) :
    m.elem 4 lists.perm t = t := by
  have hlt : t < (List.range numBuckets).length := by rwa [List.length_range]
  have hsmall : ∀ a ∈ List.range numBuckets, a < 2 ^ 32 := fun a ha =>
    (List.mem_range.mp ha).trans (by decide)
  rw [HalfHolds.perm h t (by rwa [word32, List.length_map]), word32_getD hsmall hlt,
    List.getElem_range]

theorem TapsHold.offsets (h : TapsHold m lists x) {k : ℕ} (hk : k ≤ numBuckets) :
    m.elem 4 lists.offsets k = tapOffsets x k := by
  have hlt : k < ((List.range (numBuckets + 1)).map (tapOffsets x)).length := by
    rw [List.length_map, List.length_range]
    omega
  have hsmall : ∀ a ∈ (List.range (numBuckets + 1)).map (tapOffsets x), a < 2 ^ 32 := by
    intro a ha
    obtain ⟨k, -, rfl⟩ := List.mem_map.mp ha
    rw [tapOffsets]
    split_ifs
    · decide
    · exact length_tapItems_lt
  rw [HalfHolds.offsets h k (by rwa [word32, List.length_map]), word32_getD hsmall hlt,
    List.getElem_map, List.getElem_range]

theorem TapsHold.bucketItems (h : TapsHold m lists x) {k : ℕ} (hk : k < numBuckets) :
    bucketItems m lists k = if k = 0 then tapItems x else [] := by
  have hsmall : ∀ a ∈ tapItems x, a < 2 ^ 32 := by
    intro a ha
    obtain ⟨e, he, d, hd, rfl⟩ := mem_tapItems ha
    simp only [circulantHalf, ladderPositions] at he hd
    omega
  rw [Vkzg.bucketItems, h.offsets hk.le, h.offsets hk]
  split_ifs with h0
  · refine List.ext_getElem ?_ fun i hi hi' => ?_
    · simp [tapOffsets, h0]
    · have hitem := HalfHolds.items h i (by rwa [word32, List.length_map])
      rw [word32_getD hsmall hi'] at hitem
      simpa [tapOffsets, h0] using hitem
  · simp [tapOffsets, h0]

theorem TapsHold.listsWf (h : TapsHold m lists x) : ListsWf m lists where
  perm_lt t ht := by rwa [h.perm ht]
  perm_surj k hk := ⟨k, hk, h.perm hk⟩
  item k hk packed hp := by
    rw [h.bucketItems hk] at hp
    split_ifs at hp
    · obtain ⟨e, he, d, hd, rfl⟩ := mem_tapItems hp
      rw [itemTap_pack he, itemPosition_pack he hd]
      exact ⟨he, hd⟩
    · exact absurd hp List.not_mem_nil

theorem TapsHold.tapOf (h : TapsHold m lists x) {e : ℕ} (he : e < circulantHalf)
    (hx : x e < 256 ^ 32) : tapOf m lists e = x e := by
  rw [Vkzg.tapOf, Finset.sum_eq_single_of_mem 0 (Finset.mem_range.mpr (by decide)) fun k hk h0 => ?_]
  · rw [h.bucketItems (by decide), if_pos rfl, sum_tapItems he hx]
  · rw [h.bucketItems (Finset.mem_range.mp hk), if_neg h0]
    rfl

end Lists

/-- The coordinates of a point, `(0, 0)` for infinity. -/
def affineCoords : Point → BaseField × BaseField
  | .zero => (0, 0)
  | .some x y _ => (x, y)

theorem affineRepresents_affineCoords (P : Point) :
    ShortWeierstrass.Triple.AffineRepresents (affineCoords P) P := by
  rcases P with _ | ⟨x, y, h⟩ <;> rfl

/-- Tables that hold given roots, points and taps. -/
def tablesOf (fwd inv : ℕ → ScalarField) (T : ℕ → Point) (plus minus : ℕ → ℕ) (scale : ScalarField) :
    PrecomputedTables where
  positionTable := packWords (fun i => fpMont.encode (if i % 2 = 0 then (affineCoords (T (i / 2))).1
    else (affineCoords (T (i / 2))).2)) (2 * (circulantSize * phaseATerms * numDigits))
  rootsFwd := packWords (fun k => frMont.encode (fwd k)) fieldElementsPerExtBlob
  rootsInv := packWords (fun k => frMont.encode (inv k)) fieldElementsPerExtBlob
  kernelItemsPlus := word32 (tapItems plus)
  kernelItemsMinus := word32 (tapItems minus)
  kernelOffsetsPlus := word32 ((List.range (numBuckets + 1)).map (tapOffsets plus))
  kernelOffsetsMinus := word32 ((List.range (numBuckets + 1)).map (tapOffsets minus))
  kernelPermPlus := word32 (List.range numBuckets)
  kernelPermMinus := word32 (List.range numBuckets)
  invBlob := frMont.encode scale

section Uploaded
variable {tables : PrecomputedTables} {m₀ m : Mem} {f : ℕ → ScalarField}

theorem rootTable_upload {buf : Buf} {words : List UInt32}
    (hwords : words = packWords (fun k => frMont.encode (f k)) fieldElementsPerExtBlob)
    (hm : ∀ i < words.length, m.elem 4 buf i = (words.getD i 0).toNat) : RootTable m buf f := by
  intro k hk
  rw [hwords] at hm
  rw [frAt, limbsAt_packWords hm hk]
  exact Montgomery.rep_encode frMont _

theorem elem_rootsFwd (h : m .rootsFwd = uploadTables tables m₀ .rootsFwd) :
    ∀ i < tables.rootsFwd.length, m.elem 4 .rootsFwd i = (tables.rootsFwd.getD i 0).toNat :=
  fun i hi => (Memory.elem_congr h 4 i).trans
    (elem_uploadTables (p := [_]) (q := [_, _, _, _, _, _, _]) hi (by simp))

theorem elem_rootsInv (h : m .rootsInv = uploadTables tables m₀ .rootsInv) :
    ∀ i < tables.rootsInv.length, m.elem 4 .rootsInv i = (tables.rootsInv.getD i 0).toNat :=
  fun i hi => (Memory.elem_congr h 4 i).trans
    (elem_uploadTables (p := [_, _]) (q := [_, _, _, _, _, _]) hi (by simp))

theorem elem_positionTable (h : m .table = uploadTables tables m₀ .table) :
    ∀ i < tables.positionTable.length,
      m.elem 4 .table i = (tables.positionTable.getD i 0).toNat :=
  fun i hi => (Memory.elem_congr h 4 i).trans
    (elem_uploadTables (p := []) (q := [_, _, _, _, _, _, _, _]) hi (by simp))

theorem g1aRep_upload {T : ℕ → Point} {words : List UInt32} {count : ℕ}
    (hwords : words = packWords (fun i => fpMont.encode (if i % 2 = 0
      then (affineCoords (T (i / 2))).1 else (affineCoords (T (i / 2))).2)) (2 * count))
    (hm : ∀ i < words.length, m.elem 4 .table i = (words.getD i 0).toNat) {n : ℕ} (hn : n < count) :
    G1ARep (g1aAt m .table n) (T n) := by
  rw [hwords] at hm
  have hx := limbsAt_packWords hm (show 2 * n < 2 * count by omega)
  have hy := limbsAt_packWords hm (show 2 * n + 1 < 2 * count by omega)
  rw [if_pos (by omega), show 2 * n / 2 = n by omega, show 2 * n * 12 = n * 24 by ring] at hx
  rw [if_neg (by omega), show (2 * n + 1) / 2 = n by omega,
    show (2 * n + 1) * 12 = n * 24 + 12 by ring] at hy
  refine ⟨affineCoords (T n), ?_, ?_, affineRepresents_affineCoords _⟩
  · rw [g1aAt, hx]
    exact Montgomery.rep_encode fpMont _
  · rw [g1aAt, hy]
    exact Montgomery.rep_encode fpMont _

end Uploaded

/-- Whatever roots, points and kernel are wanted, there are tables for them. -/
theorem exists_generated (w : ScalarField) (P : ℕ → ℕ → ScalarPoint)
    (K : ZMod circulantSize → ScalarField) : ∃ tables, Generated w P K tables := by
  let T : ℕ → Point := fun n => 2 ^ (8 * (n % 32)) • (P (n / 32 / 64) (n / 32 % 64) : Point)
  let tap : (ScalarField → ScalarField → ScalarField) → ℕ → ℕ := fun f e =>
    (f (K e) (K (e + 64)) / 2).val
  obtain ⟨tables, htables⟩ : ∃ tables, tables = tablesOf (fun k => w ^ k) (fun k => w⁻¹ ^ k) T
    (tap (· + ·)) (tap (· - ·)) ((4096 : ℕ) : ScalarField)⁻¹ := ⟨_, rfl⟩
  have hval : ∀ x : ScalarField, x.val < 256 ^ 32 := fun x => (ZMod.val_lt x).trans (by decide)
  refine ⟨tables, ?_, fun m => ⟨?_, ?_, ?_, ?_⟩⟩
  · rw [htables]
    exact Montgomery.rep_encode frMont _
  · exact rootTable_upload (by rw [htables, tablesOf]) (elem_rootsFwd rfl)
  · exact rootTable_upload (by rw [htables, tablesOf]) (elem_rootsInv rfl)
  · intro j hj i hi d hd
    simp only [circulantSize, phaseATerms, numDigits] at hj hi hd
    have hn : (j * 64 + i) * 32 + d < circulantSize * phaseATerms * numDigits := by
      simp only [circulantSize, phaseATerms, numDigits]
      omega
    have hrep := g1aRep_upload (T := T) (by rw [htables, tablesOf])
      (@elem_positionTable tables m (uploadTables tables m) rfl) hn
    simp only [T] at hrep
    rw [show ((j * 64 + i) * 32 + d) % 32 = d by omega,
      show ((j * 64 + i) * 32 + d) / 32 / 64 = j by omega,
      show ((j * 64 + i) * 32 + d) / 32 % 64 = i by omega] at hrep
    exact hrep
  · have hplus : TapsHold (uploadTables tables m) plusLists (tap (· + ·)) := by
      have h := @halfHolds_plus tables m (uploadTables tables m) fun _ _ => rfl
      rwa [htables] at h ⊢
    have hminus : TapsHold (uploadTables tables m) minusLists (tap (· - ·)) := by
      have h := @halfHolds_minus tables m (uploadTables tables m) fun _ _ => rfl
      rwa [htables] at h ⊢
    refine ⟨hplus.listsWf, hminus.listsWf, fun e he => ?_, fun e he => ?_⟩
    · rw [hplus.tapOf he (hval _), Int.cast_natCast, ZMod.natCast_val, ZMod.cast_id]
    · rw [hminus.tapOf he (hval _), Int.cast_natCast, ZMod.natCast_val, ZMod.cast_id]

theorem exists_loaded (w : ScalarField) (P : ℕ → ℕ → ScalarPoint)
    (K : ZMod circulantSize → ScalarField) (opts : Option UInt32) :
    ∃ p m, Loaded w P K p m ∧ p.maxBatch = batchOption opts := by
  obtain ⟨tables, h⟩ := exists_generated w P K
  exact ⟨_, _, h.loaded (show createProver tables opts 0 true .completed (fun _ _ => 0) = .ok _ from
    rfl), rfl⟩

end Vkzg
