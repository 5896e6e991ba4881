import Vkzg.Shaders.CellRoundTrip

/-! `k_compress_proofs.comp`: affine points to 48 bytes each, the abscissa with three flag bits in
the byte that has room for them, in bit-reversed slots. -/

namespace Vkzg
open Radix Gpu Gpu.Kernel BitReversal ShortWeierstrass

/-! ### The kernel -/

/-- Compressed, and the sign of the canonical ordinate. -/
def proofFlags (y : Fp) : ℕ := if fpIsLexLargest y then 0x80 ||| 0x20 else 0x80

/-- The bytes of one point, at an offset. -/
def compressProof (out : Buf) (obase : ℕ) (p : G1A) : Shader Unit :=
  if g1aIsIdentity p then do
    storeWords 1 bytesPerProof out obase fun _ => 0
    store 1 out obase 0xc0
  else do
    let x := fpToCanonical p.x
    let y := fpToCanonical p.y
    limbBytesStore out obase x
    let flags := proofFlags y
    -- the byte read back is the top one of the abscissa, stored by this thread
    let top ← reload 1 1 out obase ((x.get 11).toNat >>> 24)
    store 1 out obase (top ||| flags)

def compressThread (out affine : Buf) (b i : ℕ) : Shader Unit := do
  let p ← g1aLoad affine ((b * circulantSize + i) * affineWords)
  compressProof out ((b * circulantSize + brev i logCirculant) * bytesPerProof) p

def kCompressProofs (out affine : Buf) (wg b : ℕ) : Shader Unit :=
  each (List.range 64) fun tid => compressThread out affine b (wg * 64 + tid)

def compressDispatch (batch : ℕ) : Shader Unit :=
  dispatch (kCompressProofs .proofBytes .proofsAff) (circulantSize / 64) batch

/-! ### The standard encoding -/

/-- The sign of an ordinate: whether it is the larger one of a root and its negation. -/
def signBit (y : BaseField) : Bool := (fpModulus - 1) / 2 < y.val

/-- The compressed encoding of a point, byte by byte. -/
def compressed : Point → ℕ → UInt8
  | .zero, k => if k = 0 then 0xc0 else 0
  | .some x y _, k => if k = 0 then
      bigEndianByte 48 x.val 0 ||| (if signBit y then 0x80 ||| 0x20 else 0x80)
    else bigEndianByte 48 x.val k

theorem top_lt (x : BaseField) : (bigEndianByte 48 x.val 0).toNat < 0x20 := by
  have hx : x.val < 0x20 * 256 ^ 47 := (ZMod.val_lt x).trans (by decide)
  rw [bigEndianByte, byteOf, UInt8.toNat_ofNat']
  exact (Nat.mod_le _ _).trans_lt (Nat.div_lt_of_lt_mul (by rwa [Nat.mul_comm] at hx))

/-- Flags above the bits of a byte do not collide with them. -/
theorem flags_apart {v : UInt8} (hv : v.toNat < 0x20) (s : Bool) :
    let w := v ||| (if s then 0x80 ||| 0x20 else 0x80)
    w &&& 0x80 = 0x80 ∧ w &&& 0x40 = 0 ∧ (w &&& 0x20 = 0x20 ↔ s = true) ∧ w &&& 0x1f = v := by
  have key : ∀ n < 32, ∀ s : Bool,
      let w := UInt8.ofNat n ||| (if s then 0x80 ||| 0x20 else 0x80)
      w &&& 0x80 = 0x80 ∧ w &&& 0x40 = 0 ∧ (w &&& 0x20 = 0x20 ↔ s = true) ∧
        w &&& 0x1f = UInt8.ofNat n := by decide
  have h := key v.toNat hv s
  rwa [UInt8.ofNat_toNat] at h

/-- Of two roots with the same sign there is only one. -/
theorem eq_of_signBit {y y' : BaseField} (hsq : y ^ 2 = y' ^ 2) (hs : signBit y = signBit y') :
    y = y' := by
  rcases sq_eq_sq_iff_eq_or_eq_neg.mp hsq with h | h
  · exact h
  · rcases eq_or_ne y' 0 with rfl | hne
    · rw [h, neg_zero]
    · have : NeZero y' := ⟨hne⟩
      have hneg : y.val = fpModulus - y'.val := by rw [h, ZMod.val_neg_of_ne_zero]
      have hlt := ZMod.val_lt y'
      have hodd : fpModulus % 2 = 1 := by decide
      have hiff := decide_eq_decide.mp hs
      omega

theorem compressed_some_zero {x y : BaseField} (h : Curve.Nonsingular x y) :
    compressed (.some x y h) 0 =
      bigEndianByte 48 x.val 0 ||| (if signBit y then 0x80 ||| 0x20 else 0x80) := rfl

theorem compressed_some_pos {x y : BaseField} (h : Curve.Nonsingular x y) {k : ℕ} (hk : k ≠ 0) :
    compressed (.some x y h) k = bigEndianByte 48 x.val k := if_neg hk

/-- The marker of infinity is set for no finite point. -/
theorem compressed_zero_ne {x y : BaseField} (h : Curve.Nonsingular x y) :
    compressed 0 0 ≠ compressed (.some x y h) 0 := by
  intro heq
  have hbit := (flags_apart (top_lt x) (signBit y)).2.1
  rw [← compressed_some_zero h, ← heq] at hbit
  exact absurd hbit (by decide)

theorem compressed_injective {P Q : Point} (h : ∀ k < 48, compressed P k = compressed Q k) :
    P = Q := by
  rcases P with _ | ⟨x, y, hP⟩ <;> rcases Q with _ | ⟨x', y', hQ⟩
  · rfl
  · exact absurd (h 0 (by decide)) (compressed_zero_ne hQ)
  · exact absurd (h 0 (by decide)).symm (compressed_zero_ne hP)
  · have h₀ := h 0 (by decide)
    obtain ⟨-, -, hs, htop⟩ := flags_apart (top_lt x) (signBit y)
    obtain ⟨-, -, hs', htop'⟩ := flags_apart (top_lt x') (signBit y')
    rw [← compressed_some_zero hP, h₀, compressed_some_zero hQ] at hs htop
    have hbyte : ∀ k < 48, bigEndianByte 48 x.val k = bigEndianByte 48 x'.val k := by
      intro k hk
      rcases eq_or_ne k 0 with rfl | hne
      · exact htop.symm.trans htop'
      · rw [← compressed_some_pos hP hne, h k hk, compressed_some_pos hQ hne]
    have hlt : ∀ z : BaseField, z.val < 256 ^ 48 := fun z => (ZMod.val_lt z).trans (by decide)
    have hval : x.val = x'.val := by
      rw [← Nat.mod_eq_of_lt (hlt x), ← Nat.mod_eq_of_lt (hlt x'), ← bigEndian_bigEndianByte,
        ← bigEndian_bigEndianByte]
      exact bigEndian_congr hbyte
    obtain rfl := ZMod.val_injective _ hval
    obtain rfl : y = y' := by
      refine eq_of_signBit ?_ (Bool.eq_iff_iff.mpr (hs.symm.trans hs'))
      rw [Triple.equation_iff.mp hP.1, Triple.equation_iff.mp hQ.1]
    rfl

/-! ### The bytes of a slot -/

section Slot
variable {m : Mem} {out : Buf} {p : G1A} {P : Point}

theorem g1aIsIdentity_iff (h : G1ARep p P) : g1aIsIdentity p = true ↔ P = 0 := by
  obtain ⟨q, hx, hy, hq⟩ := h
  rw [g1aIsIdentity, Bool.and_eq_true, fpIsZero_iff hx, fpIsZero_iff hy]
  rcases P with _ | ⟨x, y, hP⟩
  · obtain rfl : q = (0, 0) := hq
    exact iff_of_true ⟨rfl, rfl⟩ rfl
  · obtain rfl : q = (x, y) := hq
    refine iff_of_false ?_ (WeierstrassCurve.Affine.Point.some_ne_zero _)
    rintro ⟨rfl, rfl⟩
    have heq := Triple.equation_iff.mp hP.1
    exact four_ne_zero_base (by linear_combination -heq)

theorem landing_compressProof_identity (hid : g1aIsIdentity p = true) (out : Buf) (pos : ℕ) :
    landing out ((compressProof out (pos * 48) p).stores id m) =
      (List.range 48).map (fun k => (1, pos * 48 + k, 0)) ++ [(1, pos * 48, 0xc0)] := by
  rw [compressProof, if_pos hid, stores_bind, landing_append, stores_storeWords, landing_block]
  simp [landing]

theorem landing_compressProof (hid : ¬g1aIsIdentity p = true) (out : Buf) (pos : ℕ) :
    landing out ((compressProof out (pos * 48) p).stores id m) =
      ((List.range 12).flatMap fun limb => (List.range 4).map fun t =>
        (1, pos * 48 + ((12 - 1 - limb) * 4 + t),
          ((fpToCanonical p.x).get limb).toNat >>> (24 - 8 * t))) ++
      [(1, pos * 48, ((fpToCanonical p.x).get 11).toNat >>> 24 |||
        proofFlags (fpToCanonical p.y))] := by
  rw [compressProof, if_neg hid]
  simp only [stores_bind, stores_reload, List.nil_append, landing_append, val_reload]
  rw [landing_limbBytesStore (n := 12) out pos]
  simp [landing]

theorem landing_compressProof_other {b : Buf} (h : b ≠ out) (off : ℕ) (p : G1A) :
    landing b ((compressProof out off p).stores id m) = [] := by
  have hstore : ∀ v, landing b ((store 1 out off v : Shader Unit).stores id m) = [] := fun v => by
    simp [landing, h.symm]
  by_cases hid : g1aIsIdentity p = true
  · rw [compressProof, if_pos hid, stores_bind, landing_append, stores_storeWords,
      landing_block_other h.symm, List.nil_append, hstore]
  · rw [compressProof, if_neg hid]
    simp only [stores_bind, landing_append, stores_reload, List.nil_append]
    rw [landing_limbBytesStore_other h, List.nil_append]
    exact hstore _

theorem lastAt_compressProof (hp : G1ARep p P) (pos : ℕ) {k : ℕ} (hk : k < 48) :
    ∃ v, lastAt (landing out ((compressProof out (pos * 48) p).stores id m)) (pos * 48 + k) =
      some v ∧ UInt8.ofNat v = compressed P k := by
  have htail : ∀ v, k ≠ 0 → lastAt [(1, pos * 48, v)] (pos * 48 + k) = none := fun v hne =>
    lastAt_eq_none fun t ht => by
      rw [List.mem_singleton.mp ht]
      simp only
      omega
  -- The top byte is stored a second time, with the flags.
  by_cases hid : g1aIsIdentity p = true
  · obtain rfl := (g1aIsIdentity_iff hp).mp hid
    rw [landing_compressProof_identity hid, lastAt_append]
    rcases eq_or_ne k 0 with rfl | hne
    · exact ⟨0xc0, by simp [lastAt], rfl⟩
    · refine ⟨0, ?_, (if_neg hne).symm⟩
      rw [htail _ hne, Option.none_or]
      refine lastAt_eq_some ⟨_, List.mem_map.mpr ⟨k, List.mem_range.mpr hk, rfl⟩, rfl⟩
        fun t ht _ => ?_
      obtain ⟨j, -, rfl⟩ := List.mem_map.mp ht
      rfl
  · have hfin := fun h => hid ((g1aIsIdentity_iff hp).mpr h)
    obtain ⟨q, hx, hy, hq⟩ := hp
    rcases P with _ | ⟨x, y, hP⟩
    · exact absurd rfl hfin
    obtain rfl : q = (x, y) := hq
    rw [landing_compressProof hid, lastAt_append]
    have hbyte := Limbs.get_bigEndianByte (fpToCanonical p.x) (n := 12) hk
    rw [fpToCanonical_toNat hx] at hbyte
    rcases eq_or_ne k 0 with rfl | hne
    · refine ⟨((fpToCanonical p.x).get 11).toNat >>> 24 ||| proofFlags (fpToCanonical p.y),
        by simp [lastAt], ?_⟩
      have hsign : fpIsLexLargest (fpToCanonical p.y) = signBit y := by
        rw [Bool.eq_iff_iff, fpIsLexLargest_iff, fpToCanonical_toNat hy, signBit,
          decide_eq_true_iff]
      rw [compressed_some_zero, UInt8.ofNat_or, ← hbyte, proofFlags, hsign]
      cases signBit y <;> rfl
    · refine ⟨_, ?_, hbyte.trans (compressed_some_pos hP hne).symm⟩
      rw [htail _ hne, Option.none_or]
      exact lastAt_limbBytes _ _ hk

theorem slot_of_mem {pos : ℕ} {t : ℕ × ℕ × ℕ}
    (ht : t ∈ landing out ((compressProof out (pos * 48) p).stores id m)) :
    t.1 = 1 ∧ ∃ k < 48, t.2.1 = pos * 48 + k := by
  by_cases hid : g1aIsIdentity p = true
  · rw [landing_compressProof_identity hid] at ht
    rcases List.mem_append.mp ht with ht | ht
    · obtain ⟨k, hk, rfl⟩ := List.mem_map.mp ht
      exact ⟨rfl, k, List.mem_range.mp hk, rfl⟩
    · rw [List.mem_singleton.mp ht]
      exact ⟨rfl, 0, by decide, rfl⟩
  · rw [landing_compressProof hid] at ht
    rcases List.mem_append.mp ht with ht | ht
    · obtain ⟨limb, hlimb, ht⟩ := List.mem_flatMap.mp ht
      obtain ⟨s, hs, rfl⟩ := List.mem_map.mp ht
      have := List.mem_range.mp hlimb
      have := List.mem_range.mp hs
      exact ⟨rfl, _, by omega, rfl⟩
    · rw [List.mem_singleton.mp ht]
      exact ⟨rfl, 0, by decide, rfl⟩

theorem exists_slot_mem (p : G1A) (pos : ℕ) {k : ℕ} (hk : k < 48) :
    ∃ t ∈ landing out ((compressProof out (pos * 48) p).stores id m), t.2.1 = pos * 48 + k := by
  by_cases hid : g1aIsIdentity p = true
  · rw [landing_compressProof_identity hid]
    exact ⟨_, List.mem_append_left _ (List.mem_map.mpr ⟨k, List.mem_range.mpr hk, rfl⟩), rfl⟩
  · rw [landing_compressProof hid]
    refine ⟨_, List.mem_append_left _ (List.mem_flatMap.mpr ⟨11 - k / 4, List.mem_range.mpr
      (by omega), List.mem_map.mpr ⟨k % 4, List.mem_range.mpr (by omega), rfl⟩⟩), ?_⟩
    simp only
    omega

theorem reload_top (x : Fp) (pos : ℕ) :
    (applyAll ((limbBytesStore out (pos * (12 * 4)) x).stores id m) m).elem 1 out (pos * 48) =
      (x.get 11).toNat >>> 24 := by
  have hland := landing_limbBytesStore (m := m) out pos x
  have hwidth : ∀ t ∈ landing out ((limbBytesStore out (pos * (12 * 4)) x).stores id m),
      t.1 = 1 := by
    intro t ht
    rw [hland] at ht
    obtain ⟨limb, -, ht⟩ := List.mem_flatMap.mp ht
    obtain ⟨s, -, rfl⟩ := List.mem_map.mp ht
    rfl
  have htop : (x.get 11).toNat >>> 24 < 256 := by
    have hlt := (x.get 11).toNat_lt
    rw [Nat.shiftRight_eq_div_pow]
    omega
  have hlast := lastAt_limbBytes x (pos * (12 * 4)) (k := 0) (by decide)
  rw [Nat.add_zero] at hlast
  rw [elem_applyAll_lastAt hwidth, hland, hlast, Option.map_some, Option.getD_some, pow_one]
  exact Nat.mod_eq_of_lt htop

end Slot

/-! ### The dispatch -/

section Dispatch
variable {P : Access Buf → Prop} {u : ℕ → ℕ} {m : Mem} {out affine : Buf} {batch : ℕ}

theorem within_compressProof {off : ℕ} {p : G1A} (hu : ∀ k < 48, u (off + k) = off + k)
    (hP : ∀ k < 48, P ⟨out, 1, off + k, none⟩) : Within P u m (compressProof out off p) := by
  have hu₀ : u off = off := hu 0 (by decide)
  have hP₀ : P ⟨out, 1, off, none⟩ := hP 0 (by decide)
  unfold compressProof
  split_ifs
  · exact within_bind (within_storeWords hu hP) (within_store hu₀ hP₀)
  · refine within_bind (within_limbBytesStore hu hP) (within_bind (within_reload (fun k hk => ?_)
      fun k hk => ?_) (within_store hu₀ hP₀))
    · exact hu k (by omega)
    · exact hP k (by omega)

theorem within_compressThread {b i : ℕ} (hb : b < batch) (hi : i < 128)
    (hu : ∀ n < batch * 6144, u n = n)
    (haff : ∀ k < 3072, P ⟨affine, 4, b * 3072 + k, none⟩)
    (hout : ∀ k < 6144, P ⟨out, 1, b * 6144 + k, none⟩) :
    Within P u m (compressThread out affine b i) := by
  have hrev : brev i 7 < 2 ^ 7 := brev_lt (by decide)
  refine within_bind (within_g1aLoad (fun k hk => hu _ ?_) fun k hk => ?_)
    (within_compressProof (fun k hk => hu _ ?_) fun k hk => ?_)
  · simp only [circulantSize, affineWords]
    omega
  · have := haff (i * 24 + k) (by omega)
    rwa [← add_assoc, show b * 3072 = b * 128 * 24 by omega, ← Nat.add_mul] at this
  · simp only [circulantSize, logCirculant, bytesPerProof]
    omega
  · have := hout (brev i 7 * 48 + k) (by omega)
    rwa [← add_assoc, show b * 6144 = b * 128 * 48 by omega, ← Nat.add_mul] at this

theorem within_compress (hu : ∀ n < batch * 6144, u n = n)
    (haff : ∀ b < batch, ∀ k < 3072, P ⟨affine, 4, b * 3072 + k, some b⟩)
    (hout : ∀ b < batch, ∀ k < 6144, P ⟨out, 1, b * 6144 + k, some b⟩) :
    Within P u m (dispatch (kCompressProofs out affine) (circulantSize / 64) batch) := by
  refine within_dispatch fun b hb wg hwg => within_each fun tid htid => ?_
  have htid := List.mem_range.mp htid
  simp only [circulantSize] at hwg
  exact within_compressThread (P := fun a => P (a.own b)) hb (by omega) hu (haff b hb) (hout b hb)

theorem slot_inj {b b' i i' : ℕ} (hi : i < 128) (hi' : i' < 128)
    (h : b * 128 + brev i 7 = b' * 128 + brev i' 7) : b = b' ∧ i = i' :=
  brev_pos_inj (L := 7) (by decide) hi hi' h

theorem landing_compressThread (out affine : Buf) (b i : ℕ) :
    landing out ((compressThread out affine b i).stores id m) =
      landing out ((compressProof out ((b * 128 + brev i 7) * 48)
        (g1aAt m affine (b * 128 + i))).stores id m) := by
  rw [compressThread, stores_bind, stores_g1aLoad, List.nil_append, val_g1aLoad]

theorem compress_byte {Q : Point} {b i k : ℕ} (hb : b < batch) (hi : i < 128) (hk : k < 48)
    (hQ : G1ARep (g1aAt m affine (b * 128 + i)) Q) :
    (dispatch (kCompressProofs out affine) (circulantSize / 64) batch).exec id m out
      ((b * 128 + brev i 7) * 48 + k) = compressed Q k := by
  have hslot : ∀ q ∈ List.range batch ×ˢ List.range (2 * 64),
      ∀ t ∈ landing out ((compressThread out affine q.1 q.2).stores id m),
        t.1 = 1 ∧ ∃ k < 48, t.2.1 = (q.1 * 128 + brev q.2 7) * 48 + k := by
    intro q _ t ht
    rw [landing_compressThread] at ht
    exact slot_of_mem ht
  have hinj : ∀ q ∈ List.range batch ×ˢ List.range (2 * 64),
      ∀ q' ∈ List.range batch ×ˢ List.range (2 * 64),
        q.1 * 128 + brev q.2 7 = q'.1 * 128 + brev q'.2 7 → q = q' := by
    intro q hq q' hq' heq
    obtain ⟨hq₁, hq₂⟩ := slot_inj (List.mem_range.mp (List.mem_product.mp hq).2)
      (List.mem_range.mp (List.mem_product.mp hq').2) heq
    exact Prod.ext hq₁ hq₂
  obtain ⟨v, hlast, hv⟩ := @lastAt_compressProof m out _ _ hQ (b * 128 + brev i 7) k hk
  rw [← landing_compressThread] at hlast
  rw [← hv]
  exact byte_lanes hslot hinj (q := (b, i))
    (List.mem_product.mpr ⟨List.mem_range.mpr hb, List.mem_range.mpr hi⟩) hk hlast

/-- A slot is stored to by the one point whose reversed index it has. -/
theorem slot_iff {b b' i s k : ℕ} (hi : i < 128) (hs : s < 128) (hk : k < 48) :
    (∃ t ∈ landing out ((compressThread out affine b' i).stores id m),
      t.2.1 = (b * 128 + s) * 48 + k) ↔ b' = b ∧ i = brev s 7 := by
  rw [landing_compressThread]
  constructor
  · rintro ⟨t, ht, heq⟩
    obtain ⟨-, k', hk', hidx⟩ := slot_of_mem ht
    obtain ⟨hpos, -⟩ := block_inj hk' hk (hidx.symm.trans heq)
    rw [← brev_brev (show 7 ≤ 32 by decide) (show s < 2 ^ 7 from hs)] at hpos
    exact slot_inj hi (brev_lt (L := 7) (by decide)) hpos
  · rintro ⟨rfl, rfl⟩
    have h := @exists_slot_mem m out (g1aAt m affine (b' * 128 + brev s 7))
      (b' * 128 + brev (brev s 7) 7) k hk
    rwa [brev_brev (by decide) (show s < 2 ^ 7 from hs)] at h ⊢

theorem frame_compress {b : Buf} (hout : b ≠ out) :
    (dispatch (kCompressProofs out affine) (circulantSize / 64) batch).exec id m b = m b := by
  refine exec_dispatch_frame fun wg y => landing_each_nil fun tid _ => ?_
  rw [compressThread, stores_bind, stores_g1aLoad, List.nil_append]
  exact landing_compressProof_other hout _ _

end Dispatch

/-- The bytes of every point are its standard encoding: the canonical abscissa with flags in bits
it leaves free. Every slot has one point, and the bytes determine the point. The byte that is read
back for the flags is the one its thread has stored. -/
theorem compressProofs_standard {batch : ℕ} {u : ℕ → ℕ} (hu : ∀ n < batch * 6144, u n = n)
    {out affine : Buf} (hbufs : affine ≠ out) (m : Mem) {P : ℕ → ℕ → Point}
    (hP : ∀ b < batch, ∀ i < circulantSize, G1ARep (g1aAt m affine (b * circulantSize + i)) (P b i)) :
    let m' := (dispatch (kCompressProofs out affine) (circulantSize / 64) batch).exec u m
    let slot := fun b i => (b * circulantSize + brev i 7) * bytesPerProof
    m' affine = m affine ∧
    (∀ b < batch, ∀ i < circulantSize, ∀ k < bytesPerProof,
      m' out (slot b i + k) = compressed (P b i) k) ∧
    (∀ k, compressed 0 k = if k = 0 then 0xc0 else 0) ∧
    (∀ x y, ∀ h : Curve.Nonsingular x y,
      let top := compressed (.some x y h) 0
      (bigEndianByte 48 x.val 0).toNat < 0x20 ∧ top &&& 0x1f = bigEndianByte 48 x.val 0 ∧
      top &&& 0x80 = 0x80 ∧ top &&& 0x40 = 0 ∧
      (top &&& 0x20 = 0x20 ↔ (fpModulus - 1) / 2 < y.val) ∧
      ∀ k, k ≠ 0 → compressed (.some x y h) k = bigEndianByte 48 x.val k) ∧
    (∀ b < batch, ∀ s < circulantSize, ∀ k < bytesPerProof, ∀ b' < batch, ∀ i < circulantSize,
      (∃ t ∈ landing out ((compressThread out affine b' i).stores u m),
        t.2.1 = (b * circulantSize + s) * bytesPerProof + k) ↔ b' = b ∧ i = brev s 7) ∧
    (∀ b < batch, ∀ i < circulantSize, ∀ b' < batch, ∀ i' < circulantSize,
      (∀ k < bytesPerProof, m' out (slot b i + k) = m' out (slot b' i' + k)) → P b i = P b' i') ∧
    (∀ x y, Curve.Nonsingular x y → ∀ y', y' ^ 2 = x ^ 3 + 4 →
      (signBit y' = signBit y ↔ y' = y)) ∧
    ∀ b < batch, ∀ i < circulantSize, ∀ (x : Fp) (view : Mem),
      ((limbBytesStore out (slot b i) x).exec u view).elem 1 out (slot b i) =
        (x.get 11).toNat >>> 24 := by
  intro m' slot
  have hexec : m' = (dispatch (kCompressProofs out affine) (circulantSize / 64) batch).exec id m :=
    (within_compress (P := fun _ => True) hu (fun _ _ _ _ => trivial) fun _ _ _ _ => trivial).exec
  have hbyte : ∀ b < batch, ∀ i < circulantSize, ∀ k < bytesPerProof,
      m' out (slot b i + k) = compressed (P b i) k := fun b hb i hi k hk => by
    rw [hexec]
    exact compress_byte hb hi hk (hP b hb i hi)
  refine ⟨by rw [hexec]; exact frame_compress hbufs, hbyte, fun _ => rfl, fun x y h => ?_,
    fun b _ s hs k hk b' hb' i hi => ?_, fun b hb i hi b' hb' i' hi' heq => ?_,
    fun x y h y' hy' => ⟨fun hs => ?_, fun hy => by rw [hy]⟩, fun b hb i hi x view => ?_⟩
  · obtain ⟨hset, hclear, hsign, htop⟩ := flags_apart (top_lt x) (signBit y)
    exact ⟨top_lt x, htop, hset, hclear, hsign.trans decide_eq_true_iff,
      fun k hk => compressed_some_pos h hk⟩
  · rw [(within_compressThread (P := fun _ => True) hb' hi hu (fun _ _ => trivial)
      fun _ _ => trivial).stores]
    exact slot_iff hi hs hk
  · refine compressed_injective fun k hk => ?_
    rw [← hbyte b hb i hi k hk, ← hbyte b' hb' i' hi' k hk, heq k hk]
  · exact eq_of_signBit (hy'.trans (Triple.equation_iff.mp h.1).symm) hs
  · have hrev : brev i 7 < 128 := brev_lt (L := 7) (by decide)
    have hslot : ∀ k < 48, u (slot b i + k) = slot b i + k := fun k hk => by
      have hlt := block_lt (block_lt hb hrev) hk
      rw [Nat.mul_assoc] at hlt
      exact hu _ hlt
    rw [(within_limbBytesStore (P := fun _ => True) hslot fun _ _ => trivial).exec]
    exact reload_top x _

/-- A blob of equal points, of order three: the sixth one goes to slot 80. -/
theorem compressProofs_standard_zeroTwo :
    ((List.range bytesPerProof).map fun k =>
      (dispatch (kCompressProofs .proofBytes .proofsAff) (circulantSize / 64) 1).exec uint32
        (wordMem fun _ i => g1aWords zeroTwoA (i % 24)) .proofBytes (80 * bytesPerProof + k)) =
      (List.range bytesPerProof).map (compressed zeroTwo) := by
  have h := (@compressProofs_standard 1 uint32 (fun n hn => uint32_of_lt (by omega))
    .proofBytes .proofsAff (by decide) (wordMem fun _ i => g1aWords zeroTwoA (i % 24))
    (fun _ _ => zeroTwo) fun b _ i _ => ?_).2.1
  · exact List.map_congr_left fun k hk => h 0 (by decide) 5 (by decide) k (List.mem_range.mp hk)
  · rw [g1aAt_wordMem fun _ => rfl]
    exact g1aRep_zeroTwoA

end Vkzg
