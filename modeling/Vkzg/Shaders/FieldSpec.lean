import Vkzg.Shaders.Primes

/-! What the limb arithmetic computes in the two prime fields. `FpRep a x` and `FrRep a x` say that
the limbs `a` are the reduced Montgomery form of `x`. -/

namespace Vkzg
open Radix

abbrev BaseField := ZMod fpModulus
abbrev ScalarField := ZMod frModulus

abbrev FpRep (a : Fp) (x : BaseField) : Prop := fpMont.Rep a x
abbrev FrRep (a : Fr) (x : ScalarField) : Prop := frMont.Rep a x

theorem two_lt_fpModulus : 2 < fpModulus := by decide

theorem two_lt_frModulus : 2 < frModulus := by decide

/-! ### Base field -/

section BaseField
variable {a b : Fp} {x y : BaseField}

theorem fpRep_zero : FpRep fpZero 0 := Montgomery.Rep.zero fpMont (by decide)

theorem fpRep_one : FpRep fpOne 1 := by
  refine ⟨by decide, ?_⟩
  have h : fpOne.toNat = base ^ 12 % fpModulus := by decide
  rw [h, ZMod.natCast_mod, Nat.cast_pow, one_mul]

theorem fpRep_add (ha : FpRep a x) (hb : FpRep b y) : FpRep (fpAdd a b) (x + y) := ha.add hb

theorem fpRep_sub (ha : FpRep a x) (hb : FpRep b y) : FpRep (fpSub a b) (x - y) := ha.sub hb

theorem fpRep_mul (ha : FpRep a x) (hb : FpRep b y) : FpRep (fpMul a b) (x * y) := ha.mul hb

theorem fpRep_dbl (ha : FpRep a x) : FpRep (fpDbl a) (x + x) := fpRep_add ha ha

theorem fpRep_sqr (ha : FpRep a x) : FpRep (fpSqr a) (x * x) := fpRep_mul ha ha

theorem fpIsZero_iff (ha : FpRep a x) : fpIsZero a = true ↔ x = 0 := by
  rw [← ha.toNat_eq_zero, fpIsZero, beq_iff_eq, orAll_eq_zero, Limbs.toNat]

theorem fpEq_iff (ha : FpRep a x) (hb : FpRep b y) : fpEq a b = true ↔ x = y := by
  rw [← ha.eq_iff hb, fpEq, beq_iff_eq, xorAll_eq_zero (by rw [a.size, b.size])]
  exact ⟨fun h => Limbs.toNat_inj (congrArg value h), fun h => congrArg Limbs.v h⟩

theorem fpRep_neg (ha : FpRep a x) : FpRep (fpNeg a) (-x) := by
  rw [fpNeg]
  split_ifs with h
  · rw [fpIsZero_iff ha] at h
    subst h
    rwa [neg_zero]
  · rw [← zero_sub]
    exact fpRep_sub fpRep_zero ha

theorem fpRep_inv (ha : FpRep a x) : FpRep (fpInv a) x⁻¹ :=
  Montgomery.powLoop_inv ha (by decide) two_lt_fpModulus

theorem fpToCanonical_toNat (ha : FpRep a x) : (fpToCanonical a).toNat = x.val :=
  ha.mul_one_toNat (by decide) (by decide)

theorem fpIsLexLargest_iff (c : Fp) :
    fpIsLexLargest c = true ↔ (fpModulus - 1) / 2 < c.toNat := by
  have hhalf : fpPHalf.toNat = (fpModulus - 1) / 2 := by decide
  rw [fpIsLexLargest, scanTop_getD (by rw [c.size, fpPHalf.size]), decide_eq_true_iff, ← hhalf]
  rfl

end BaseField

/-! ### Scalar field -/

section ScalarField
variable {a b : Fr} {x y : ScalarField}

theorem frRep_zero : FrRep frZero 0 := Montgomery.Rep.zero frMont (by decide)

theorem frRep_add (ha : FrRep a x) (hb : FrRep b y) : FrRep (frAdd a b) (x + y) := ha.add hb

theorem frRep_sub (ha : FrRep a x) (hb : FrRep b y) : FrRep (frSub a b) (x - y) := ha.sub hb

theorem frRep_mul (ha : FrRep a x) (hb : FrRep b y) : FrRep (frMul a b) (x * y) := ha.mul hb

theorem frRep_neg (ha : FrRep a x) : FrRep (frNeg a) (-x) := by
  rw [← zero_sub]
  exact frRep_sub frRep_zero ha

theorem frRep_inv (ha : FrRep a x) : FrRep (frInv a) x⁻¹ :=
  Montgomery.powLoop_inv ha (by decide) two_lt_frModulus

theorem frToCanonical_toNat (ha : FrRep a x) : (frToCanonical a).toNat = x.val :=
  ha.mul_one_toNat (by decide) (by decide)

/-- Leaving Montgomery form reduces whatever the limbs hold. -/
theorem frToCanonical_lt (a : Fr) : (frToCanonical a).toNat < frModulus :=
  (Montgomery.mul_spec frMont a (by decide)).1

/-- Entering Montgomery form reduces whatever the limbs hold. -/
theorem frRep_fromCanonical (a : Fr) : FrRep (frFromCanonical a) (a.toNat : ScalarField) := by
  refine Montgomery.rep_mul_square frMont a (by decide) ?_
  have h : frR2.toNat = base ^ 8 * base ^ 8 % frModulus := by decide
  rw [h, ZMod.natCast_mod, Nat.cast_mul, Nat.cast_pow]

theorem frRep_one : FrRep (frFromCanonical frRawOne) 1 := by
  have h := frRep_fromCanonical frRawOne
  rwa [show frRawOne.toNat = 1 by decide, Nat.cast_one] at h

theorem frIsCanonical_iff (a : Fr) : frIsCanonical a = true ↔ a.toNat < frModulus := by
  have hp : frP.toNat = frModulus := by decide
  rw [frIsCanonical, scanTop_getD (by rw [a.size, frP.size]), decide_eq_true_iff, ← hp]
  rfl

theorem frRep_shift7 : FrRep frShift7 7 := by
  refine ⟨by decide, ?_⟩
  have h : frShift7.toNat = 7 * base ^ 8 % frModulus := by decide
  rw [h, ZMod.natCast_mod]
  push_cast
  rfl

/-- A constant whose product with `n` is the Montgomery one represents the inverse of `n`. -/
theorem frRep_natCast_inv {n : ℕ} (ha : a.toNat < frModulus)
    (h : n * a.toNat % frModulus = base ^ 8 % frModulus) (hn : (n : ScalarField) ≠ 0) :
    FrRep a (n : ScalarField)⁻¹ := by
  refine ⟨ha, ?_⟩
  have hcast := (ZMod.natCast_eq_natCast_iff' (n * a.toNat) (base ^ 8) frModulus).mpr h
  push_cast at hcast
  rw [← hcast, inv_mul_cancel_left₀ hn]

theorem natCast_ne_zero_of_lt {n : ℕ} (h0 : 0 < n) (hn : n < frModulus) :
    (n : ScalarField) ≠ 0 := by
  rw [Ne, ZMod.natCast_eq_zero_iff]
  exact fun hdvd => absurd (Nat.le_of_dvd h0 hdvd) (by omega)

theorem frRep_invShift7 : FrRep frInvShift7 7⁻¹ :=
  frRep_natCast_inv (n := 7) (by decide) (by decide)
    (natCast_ne_zero_of_lt (by decide) (by decide))

theorem frRep_invExtBlob : FrRep frInvExtBlob (8192 : ScalarField)⁻¹ :=
  frRep_natCast_inv (n := 8192) (by decide) (by decide)
    (natCast_ne_zero_of_lt (by decide) (by decide))

end ScalarField

/-! ### Exactness -/

theorem eq_of_cast_eq {N c d : ℕ} (hc : c < N) (hd : d < N) (h : (c : ZMod N) = d) : c = d := by
  have hmod := (ZMod.natCast_eq_natCast_iff' c d N).mp h
  rwa [Nat.mod_eq_of_lt hc, Nat.mod_eq_of_lt hd] at hmod

theorem base_pow_cast (N n : ℕ) : (base : ZMod N) ^ n = 2 ^ (32 * n) := by
  rw [base, Nat.cast_pow, ← pow_mul]
  rfl

theorem cast_eq_zero_iff {N c : ℕ} (hc : c < N) : (c : ZMod N) = 0 ↔ c = 0 := by
  refine ⟨fun h => eq_of_cast_eq hc (Nat.zero_lt_of_lt hc) ?_, fun h => ?_⟩
  · rw [h, Nat.cast_zero]
  · rw [h, Nat.cast_zero]

theorem toNat_fpZero : fpZero.toNat = 0 := by decide

theorem toNat_frZero : frZero.toNat = 0 := by decide

theorem toNat_fpNeg {a : Fp} (ha : a.toNat < fpModulus) :
    (fpNeg a).toNat = (fpModulus - a.toNat) % fpModulus := by
  have hzero : fpIsZero a = true ↔ a.toNat = 0 := by
    rw [fpIsZero, beq_iff_eq, orAll_eq_zero, Limbs.toNat]
  unfold fpNeg
  split_ifs with h
  · rw [hzero.mp h, Nat.sub_zero, Nat.mod_self]
  · rw [fpSub, Montgomery.toNat_sub fpMont (by decide) ha, toNat_fpZero, Nat.zero_add]

/-- The limb arithmetic is exact: products, sums, differences and negations are the reduced ones,
no accumulator and no top word of a product overflows, and the tests on limbs decide zero and
equality. The first operand of a scalar product may be any eight limbs. -/
theorem limbArithmetic_exact :
    (∀ a b : Fp, a.toNat < fpModulus → b.toNat < fpModulus →
      ((fpMul a b).toNat < fpModulus ∧
        ((fpMul a b).toNat : BaseField) = a.toNat * b.toNat * (2 ^ 384)⁻¹ ∧
        (∀ c < fpModulus, (c : BaseField) = a.toNat * b.toNat * (2 ^ 384)⁻¹ →
          c = (fpMul a b).toNat) ∧ fpMont.NoOverflow a b) ∧
      (fpAdd a b).toNat = (a.toNat + b.toNat) % fpModulus ∧
      (fpSub a b).toNat = (a.toNat + (fpModulus - b.toNat)) % fpModulus ∧
      (fpNeg a).toNat = (fpModulus - a.toNat) % fpModulus ∧
      (fpIsZero a = true ↔ (a.toNat : BaseField) = 0) ∧
      (fpEq a b = true ↔ (a.toNat : BaseField) = b.toNat)) ∧
    (∀ a b : Fr, b.toNat < frModulus →
      (frMul a b).toNat < frModulus ∧
      ((frMul a b).toNat : ScalarField) = a.toNat * b.toNat * (2 ^ 256)⁻¹ ∧
      (∀ c < frModulus, (c : ScalarField) = a.toNat * b.toNat * (2 ^ 256)⁻¹ →
        c = (frMul a b).toNat) ∧ frMont.NoOverflow a b) ∧
    ∀ a b : Fr, a.toNat < frModulus → b.toNat < frModulus →
      (frAdd a b).toNat = (a.toNat + b.toNat) % frModulus ∧
      (frSub a b).toNat = (a.toNat + (frModulus - b.toNat)) % frModulus ∧
      (frNeg a).toNat = (frModulus - a.toNat) % frModulus ∧
      (orAll a.v = 0 ↔ (a.toNat : ScalarField) = 0) ∧
      (xorAll a.v b.v = 0 ↔ (a.toNat : ScalarField) = b.toNat) := by
  refine ⟨fun a b ha hb => ⟨?_, ?_, ?_, toNat_fpNeg ha, ?_, ?_⟩, fun a b hb => ?_,
    fun a b ha hb => ⟨?_, ?_, ?_, ?_, ?_⟩⟩
  · have hlt := (Montgomery.mul_spec fpMont a hb).1
    have hcast := Montgomery.mul_cast fpMont a hb
    rw [base_pow_cast] at hcast
    exact ⟨hlt, hcast, fun c hc h => eq_of_cast_eq hc hlt (h.trans hcast.symm),
      fpMont.noOverflow a b⟩
  · exact Montgomery.toNat_add fpMont ha hb
  · exact Montgomery.toNat_sub fpMont ha hb
  · rw [cast_eq_zero_iff ha, fpIsZero, beq_iff_eq, orAll_eq_zero, Limbs.toNat]
  · rw [fpEq, beq_iff_eq, xorAll_eq_zero (by rw [a.size, b.size])]
    refine ⟨fun h => congrArg (fun v => ((value v : ℕ) : BaseField)) h, fun h => ?_⟩
    exact congrArg Limbs.v (Limbs.toNat_inj (eq_of_cast_eq ha hb h))
  · have hlt := (Montgomery.mul_spec frMont a hb).1
    have hcast := Montgomery.mul_cast frMont a hb
    rw [base_pow_cast] at hcast
    exact ⟨hlt, hcast, fun c hc h => eq_of_cast_eq hc hlt (h.trans hcast.symm),
      frMont.noOverflow a b⟩
  · exact Montgomery.toNat_add frMont ha hb
  · exact Montgomery.toNat_sub frMont ha hb
  · rw [frNeg, frSub, Montgomery.toNat_sub frMont (by decide) ha, toNat_frZero, Nat.zero_add]
  · rw [cast_eq_zero_iff ha, orAll_eq_zero, Limbs.toNat]
  · rw [xorAll_eq_zero (by rw [a.size, b.size])]
    refine ⟨fun h => congrArg (fun v => ((value v : ℕ) : ScalarField)) h, fun h => ?_⟩
    exact congrArg Limbs.v (Limbs.toNat_inj (eq_of_cast_eq ha hb h))

/-! ### Inversion -/

/-- Inversion by exponentiation is inversion in the field, for every reduced element, and the loop
computes the power of any exponent with a set bit. -/
theorem inversion_exact :
    (fpPMinus2.toNat = fpModulus - 2 ∧ frPMinus2.toNat = frModulus - 2) ∧
    (∀ a : Fp, a.toNat < fpModulus → ∃ x : BaseField, FpRep a x ∧ (x = 0 ↔ a.toNat = 0) ∧
      FpRep (fpInv a) x⁻¹ ∧ (a.toNat ≠ 0 → fpMul a (fpInv a) = fpOne) ∧
      ∀ e : Fp, (∃ i < 12, ∃ b < 32, e.get i >>> UInt32.ofNat b &&& 1 ≠ 0) →
        FpRep (Montgomery.powLoop fpMul e a) (x ^ e.toNat)) ∧
    (∀ a : Fr, a.toNat < frModulus → ∃ x : ScalarField, FrRep a x ∧ (x = 0 ↔ a.toNat = 0) ∧
      FrRep (frInv a) x⁻¹ ∧ (a.toNat ≠ 0 → frMul a (frInv a) = frFromCanonical frRawOne) ∧
      ∀ e : Fr, (∃ i < 8, ∃ b < 32, e.get i >>> UInt32.ofNat b &&& 1 ≠ 0) →
        FrRep (Montgomery.powLoop frMul e a) (x ^ e.toNat)) ∧
    fpInv fpZero = fpZero ∧ frInv frZero = frZero := by
  refine ⟨⟨by decide, by decide⟩, fun a ha => ?_, fun a ha => ?_, ?_, ?_⟩
  · obtain ⟨x, hx⟩ := Montgomery.exists_rep fpMont ha
    refine ⟨x, hx, hx.toNat_eq_zero.symm, fpRep_inv hx, fun h0 => ?_, fun e he => ?_⟩
    · have hmul := fpRep_mul hx (fpRep_inv hx)
      rw [mul_inv_cancel₀ fun h => h0 (hx.toNat_eq_zero.mpr h)] at hmul
      exact hmul.eq fpRep_one
    · obtain ⟨i, hi, b, hb, hbit⟩ := he
      exact Montgomery.powLoop_rep hx (Montgomery.toNat_ne_zero_of_bit hi hb hbit)
  · obtain ⟨x, hx⟩ := Montgomery.exists_rep frMont ha
    refine ⟨x, hx, hx.toNat_eq_zero.symm, frRep_inv hx, fun h0 => ?_, fun e he => ?_⟩
    · have hmul := frRep_mul hx (frRep_inv hx)
      rw [mul_inv_cancel₀ fun h => h0 (hx.toNat_eq_zero.mpr h)] at hmul
      exact hmul.eq frRep_one
    · obtain ⟨i, hi, b, hb, hbit⟩ := he
      exact Montgomery.powLoop_rep hx (Montgomery.toNat_ne_zero_of_bit hi hb hbit)
  · have hzero := fpRep_inv fpRep_zero
    rw [inv_zero] at hzero
    exact hzero.eq fpRep_zero
  · have hzero := frRep_inv frRep_zero
    rw [inv_zero] at hzero
    exact hzero.eq frRep_zero

end Vkzg
