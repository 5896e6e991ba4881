import Vkzg.Shaders.Encoding

/-! Cells to field elements and back. Whatever the 32 bytes of an element are, the way there and
back reduces their number modulo the scalar modulus; the way back and there changes nothing. -/

namespace Vkzg
open Radix Gpu Gpu.Kernel BitReversal

/-! ### Footprints -/

section Footprints
variable {P : Access Buf → Prop} {u : ℕ → ℕ} {m : Mem} {batch : ℕ}

theorem frOfBytes_congr {f g : ℕ → ℕ} (h : ∀ k < 32, f k = g k) : frOfBytes f = frOfBytes g :=
  Limbs.ofFn_congr fun i hi => by
    simp only [h _ (show (7 - i) * 4 < 32 by omega), h _ (show (7 - i) * 4 + 1 < 32 by omega),
      h _ (show (7 - i) * 4 + 2 < 32 by omega), h _ (show (7 - i) * 4 + 3 < 32 by omega)]

theorem within_limbBytesStore {n : ℕ} {buf : Buf} {off : ℕ} {a : Limbs n}
    (hu : ∀ k < n * 4, u (off + k) = off + k) (hP : ∀ k < n * 4, P ⟨buf, 1, off + k, none⟩) :
    Within P u m (limbBytesStore buf off a) := by
  refine within_each fun limb hlimb => within_each fun t ht => ?_
  have := List.mem_range.mp hlimb
  have := List.mem_range.mp ht
  exact within_store (hu _ (by omega)) (hP _ (by omega))

/-- The cell kernels evaluate no index beyond the bytes of the batch. -/
theorem within_cellsToFr {out cells : Buf} (hu : ∀ n < batch * 262144, u n = n)
    (hcells : ∀ b < batch, ∀ k < 262144, P ⟨cells, 1, b * 262144 + k, some b⟩)
    (hout : ∀ b < batch, ∀ k < 65536, P ⟨out, 4, b * 65536 + k, some b⟩) :
    Within P u m (dispatch (kCellsToFr out cells) (fieldElementsPerExtBlob / 256) batch) := by
  refine within_dispatch fun b hb wg hwg => within_each fun tid htid => ?_
  have htid := List.mem_range.mp htid
  unfold cellsToFrThread
  split_ifs with hi
  · exact within_pure ()
  · have hrev : brev (wg * 256 + tid) 13 < 2 ^ 13 := brev_lt (by decide)
    simp only [fieldElementsPerExtBlob] at hwg hi ⊢
    refine within_bind (within_loadWords (fun _ _ => frOfBytes_congr) (fun k hk => hu _ ?_)
      fun k hk => ?_) (within_limbsStore (fun k hk => hu _ ?_) fun k hk => ?_)
    · omega
    · have := hcells b hb ((wg * 256 + tid) * 32 + k) (by omega)
      rwa [← add_assoc, show b * 262144 = b * 8192 * 32 by omega] at this
    · simp only [frWords]
      omega
    · have := hout b hb (brev (wg * 256 + tid) 13 * 8 + k) (by omega)
      rwa [← add_assoc, show b * 65536 = b * 8192 * 8 by omega, ← Nat.add_mul] at this

theorem within_frToCells {out inp : Buf} (hu : ∀ n < batch * 262144, u n = n)
    (hinp : ∀ b < batch, ∀ k < 65536, P ⟨inp, 4, b * 65536 + k, some b⟩)
    (hout : ∀ b < batch, ∀ k < 262144, P ⟨out, 1, b * 262144 + k, some b⟩) :
    Within P u m (dispatch (kFrToCells out inp) (fieldElementsPerExtBlob / 256) batch) := by
  refine within_dispatch fun b hb wg hwg => within_each fun tid htid => ?_
  have htid := List.mem_range.mp htid
  unfold frToCellsThread
  split_ifs with hi
  · exact within_pure ()
  · have hrev : brev (wg * 256 + tid) 13 < 2 ^ 13 := brev_lt (by decide)
    simp only [fieldElementsPerExtBlob] at hwg hi ⊢
    refine within_bind (within_limbsLoad (fun k hk => hu _ ?_) fun k hk => ?_)
      (within_limbBytesStore (fun k hk => hu _ ?_) fun k hk => ?_)
    · simp only [frWords]
      omega
    · have := hinp b hb ((wg * 256 + tid) * 8 + k) (by omega)
      rwa [← add_assoc, show b * 65536 = b * 8192 * 8 by omega, ← Nat.add_mul] at this
    · omega
    · have := hout b hb (brev (wg * 256 + tid) 13 * 32 + k) (by omega)
      rwa [← add_assoc, show b * 262144 = b * 8192 * 32 by omega, ← Nat.add_mul] at this

end Footprints

/-! ### Every position once -/

section Once
variable {m : Mem} {out inp : Buf} {batch b i : ℕ}

theorem cellsToFr_once (hb : b < batch) (hi : i < fieldElementsPerExtBlob) {k : ℕ} (hk : k < 8) :
    ((landing out ((dispatch (kCellsToFr out inp) (fieldElementsPerExtBlob / 256) batch).stores
      id m)).filter fun t => t.2.1 = (b * 8192 + i) * 8 + k).length = 1 := by
  have hlt : brev i 13 < 2 ^ 13 := brev_lt (by decide)
  have h := (blocks_cellsToFr m out inp batch).once (List.nodup_range.product List.nodup_range)
    (fun x hx y hy heq => ?_) (x := (b, brev i 13))
    (List.mem_product.mpr ⟨List.mem_range.mpr hb, List.mem_range.mpr hlt⟩) hk
  · simp only [brev_brev (show 13 ≤ 32 by decide) hi] at h
    exact h
  · obtain ⟨hb', hi'⟩ := brev_pos_inj (L := 13) (by decide)
      (List.mem_range.mp (List.mem_product.mp hx).2)
      (List.mem_range.mp (List.mem_product.mp hy).2) heq
    exact Prod.ext hb' hi'

theorem nodup_frToCells : ((landing out ((dispatch (kFrToCells out inp)
    (fieldElementsPerExtBlob / 256) batch).stores id m)).map fun t => t.2.1).Nodup := by
  rw [landing_frToCells, List.map_flatMap]
  simp only [List.map_flatMap, List.map_map]
  refine List.nodup_flatMap.mpr ⟨fun q _ => List.nodup_flatMap.mpr ⟨fun limb _ => ?_, ?_⟩, ?_⟩
  · refine List.nodup_range.map fun t t' h => ?_
    simp only [Function.comp_apply] at h
    omega
  · refine List.nodup_range.imp_of_mem fun {l l'} hl hl' hne =>
      List.disjoint_left.mpr fun p hp hp' => ?_
    obtain ⟨t, ht, rfl⟩ := List.mem_map.mp hp
    obtain ⟨t', ht', h⟩ := List.mem_map.mp hp'
    simp only [List.mem_range, Function.comp_apply] at hl hl' ht ht' h
    omega
  · refine (List.nodup_range.product List.nodup_range).imp_of_mem fun {q q'} hq hq' hne =>
      List.disjoint_left.mpr fun p hp hp' => hne ?_
    obtain ⟨l, hl, hp⟩ := List.mem_flatMap.mp hp
    obtain ⟨l', hl', hp'⟩ := List.mem_flatMap.mp hp'
    obtain ⟨t, ht, rfl⟩ := List.mem_map.mp hp
    obtain ⟨t', ht', h⟩ := List.mem_map.mp hp'
    simp only [List.mem_range, Function.comp_apply] at hl hl' ht ht' h
    obtain ⟨hpos, -⟩ := block_inj (n := 8 * 4) (by omega) (by omega) h
    obtain ⟨hb', hi'⟩ := brev_pos_inj (L := 13) (by decide)
      (List.mem_range.mp (List.mem_product.mp hq').2)
      (List.mem_range.mp (List.mem_product.mp hq).2) hpos
    exact Prod.ext hb'.symm hi'.symm

theorem frToCells_once (hb : b < batch) (hi : i < fieldElementsPerExtBlob) {k : ℕ} (hk : k < 32) :
    ((landing out ((dispatch (kFrToCells out inp) (fieldElementsPerExtBlob / 256) batch).stores
      id m)).filter fun t => t.2.1 = (b * 8192 + i) * 32 + k).length = 1 := by
  have hlt : brev i 13 < 2 ^ 13 := brev_lt (by decide)
  have hmem : ∃ t ∈ landing out ((dispatch (kFrToCells out inp)
      (fieldElementsPerExtBlob / 256) batch).stores id m), t.2.1 = (b * 8192 + i) * 32 + k := by
    rw [landing_frToCells]
    refine ⟨_, List.mem_flatMap.mpr ⟨(b, brev i 13), List.mem_product.mpr
      ⟨List.mem_range.mpr hb, List.mem_range.mpr hlt⟩, List.mem_flatMap.mpr
        ⟨7 - k / 4, List.mem_range.mpr (by omega), List.mem_map.mpr
          ⟨k % 4, List.mem_range.mpr (by omega), rfl⟩⟩⟩, ?_⟩
    simp only [brev_brev (show 13 ≤ 32 by decide) hi]
    omega
  obtain ⟨t, ht, heq⟩ := hmem
  rw [← heq]
  exact once_of_nodup nodup_frToCells ht

end Once

/-! ### The round trips -/

section RoundTrip
variable {m : Mem} {batch b i : ℕ}

theorem elementValue_eq_iff {f g : ℕ → UInt8} :
    elementValue f i = elementValue g i ↔ ∀ k < 32, f (i * 32 + k) = g (i * 32 + k) := by
  constructor
  · intro h k hk
    rw [← bigEndianByte_bigEndian (fun k => f (i * 32 + k)) hk,
      ← bigEndianByte_bigEndian (fun k => g (i * 32 + k)) hk]
    exact congrArg (bigEndianByte 32 · k) h
  · exact fun h => bigEndian_congr h

theorem frToCells_value (out : Buf) {inp : Buf} (hb : b < batch) (hi : i < fieldElementsPerExtBlob)
    {x : ScalarField} (hx : FrRep (frAt m inp (b * fieldElementsPerExtBlob + brev i 13)) x) :
    elementValue ((dispatch (kFrToCells out inp) (fieldElementsPerExtBlob / 256) batch).exec id m
      out) (b * fieldElementsPerExtBlob + i) = x.val := by
  have hlt : x.val < 256 ^ 32 := (ZMod.val_lt x).trans (by decide)
  have hbytes : elementValue ((dispatch (kFrToCells out inp) (fieldElementsPerExtBlob / 256)
      batch).exec id m out) (b * fieldElementsPerExtBlob + i) =
        bigEndian 32 (bigEndianByte 32 x.val) :=
    bigEndian_congr fun k hk => by rw [frToCells_byte hb hi hk, frToCanonical_toNat hx]
  rw [hbytes, bigEndian_bigEndianByte, Nat.mod_eq_of_lt hlt]

/-- Cells to field elements to cells reduces every element and keeps exactly the canonical ones;
field elements to cells to field elements keeps every reduced element. The evaluation of indices
need only be exact on the bytes of the batch. -/
theorem cells_round_trip {u : ℕ → ℕ} (hu : ∀ n < batch * 262144, u n = n) {src mid dst : Buf}
    (hsrc : mid ≠ src) (hmid : dst ≠ mid) (m : Mem) :
    let toFr := fun out cells => dispatch (kCellsToFr out cells) (fieldElementsPerExtBlob / 256) batch
    let toCells := fun out inp => dispatch (kFrToCells out inp) (fieldElementsPerExtBlob / 256) batch
    (let m₁ := (toFr mid src).exec u m
     let m₂ := (toCells dst mid).exec u m₁
     m₁ src = m src ∧ m₂ mid = m₁ mid ∧
     ∀ b < batch, ∀ i < fieldElementsPerExtBlob,
      let e := b * fieldElementsPerExtBlob + i
      FrRep (frAt m₁ mid (b * fieldElementsPerExtBlob + brev i 13)) (elementValue (m src) e) ∧
      (∀ k < 32, m₂ dst (e * 32 + k) = bigEndianByte 32 (elementValue (m src) e % frModulus) k) ∧
      ((∀ k < 32, m₂ dst (e * 32 + k) = m src (e * 32 + k)) ↔
        elementValue (m src) e < frModulus)) ∧
    (let m₁ := (toCells mid src).exec u m
     let m₂ := (toFr dst mid).exec u m₁
     ∀ b < batch, (∀ i < fieldElementsPerExtBlob,
        (frAt m src (b * fieldElementsPerExtBlob + i)).toNat < frModulus) →
      ∀ i < fieldElementsPerExtBlob, frAt m₂ dst (b * fieldElementsPerExtBlob + i) =
        frAt m src (b * fieldElementsPerExtBlob + i)) ∧
    ∀ out inp, ∀ b < batch, ∀ i < fieldElementsPerExtBlob,
      (∀ k < 8, ((landing out ((toFr out inp).stores u m)).filter fun t =>
        t.2.1 = (b * fieldElementsPerExtBlob + i) * 8 + k).length = 1) ∧
      ∀ k < 32, ((landing out ((toCells out inp).stores u m)).filter fun t =>
        t.2.1 = (b * fieldElementsPerExtBlob + i) * 32 + k).length = 1 := by
  intro toFr toCells
  have hfr : ∀ m out inp, Within (fun _ => True) u m (toFr out inp) := fun _ _ _ =>
    within_cellsToFr hu (fun _ _ _ _ => trivial) fun _ _ _ _ => trivial
  have hcells : ∀ m out inp, Within (fun _ => True) u m (toCells out inp) := fun _ _ _ =>
    within_frToCells hu (fun _ _ _ _ => trivial) fun _ _ _ _ => trivial
  refine ⟨?_, ?_, fun out inp b hb i hi => ⟨fun k hk => ?_, fun k hk => ?_⟩⟩
  · simp only [(hfr _ _ _).exec, (hcells _ _ _).exec]
    refine ⟨frame_cellsToFr hsrc.symm, frame_frToCells hmid.symm, fun b hb i hi => ?_⟩
    have hlt : brev i 13 < fieldElementsPerExtBlob := brev_lt (L := 13) (by decide)
    -- The second kernel reverses the order that the first one reversed.
    have hrep := cellsToFr_rep m mid src hb hlt
    rw [brev_brev (by decide) hi] at hrep
    have hval := frToCells_value dst hb hi hrep
    rw [ZMod.val_natCast] at hval
    refine ⟨hrep, fun k hk => ?_, ?_⟩
    · rw [frToCells_byte hb hi hk, frToCanonical_toNat hrep, ZMod.val_natCast]
    · rw [← elementValue_eq_iff, hval]
      exact Nat.mod_eq_iff_lt (by decide)
  · simp only [(hfr _ _ _).exec, (hcells _ _ _).exec]
    intro b hb hred i hi
    have hlt : brev i 13 < fieldElementsPerExtBlob := brev_lt (L := 13) (by decide)
    obtain ⟨x, hx⟩ := Montgomery.exists_rep frMont (hred i hi)
    have hrep := cellsToFr_rep ((toCells mid src).exec id m) dst mid hb hi
    rw [frToCells_value _ hb hlt (by rwa [brev_brev (by decide) hi]), ZMod.natCast_val,
      ZMod.cast_id] at hrep
    exact hrep.eq hx
  · rw [(hfr _ _ _).stores]
    exact cellsToFr_once hb hi hk
  · rw [(hcells _ _ _).stores]
    exact frToCells_once hb hi hk

end RoundTrip

/-- Cells of the largest number 32 bytes can hold. -/
def onesMem : Mem := fun _ _ => 255

theorem elementValue_onesMem (b : Buf) (i : ℕ) : elementValue (onesMem b) i = 2 ^ 256 - 1 := by
  simp [elementValue, onesMem, bigEndian, bytesValue]

/-- The largest element comes back as its residue, and so not as itself. -/
theorem cells_round_trip_onesMem :
    let m := (dispatch (kFrToCells .recOut .recBrp) (fieldElementsPerExtBlob / 256) 1).exec uint32
      ((dispatch (kCellsToFr .recBrp .recScratch) (fieldElementsPerExtBlob / 256) 1).exec uint32
        onesMem)
    (∀ k < 32, m .recOut (8191 * 32 + k) = bigEndianByte 32 ((2 ^ 256 - 1) % frModulus) k) ∧
      ¬∀ k < 32, m .recOut (8191 * 32 + k) = onesMem .recScratch (8191 * 32 + k) := by
  obtain ⟨⟨-, -, h⟩, -⟩ := @cells_round_trip 1 uint32 (fun n hn => uint32_of_lt (by omega))
    .recScratch .recBrp .recOut (by decide) (by decide) onesMem
  obtain ⟨-, hbytes, hiff⟩ := h 0 (by decide) 8191 (by decide)
  rw [elementValue_onesMem] at hbytes hiff
  exact ⟨hbytes, fun hall => absurd (hiff.mp hall) (by decide)⟩

end Vkzg
