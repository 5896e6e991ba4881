import Vkzg.Library.Newton
import Vkzg.Shaders.FieldSpec

/-! `gen_constants.py`: the constants of the two fields, for any moduli of their sizes. -/

namespace Vkzg.GenConstants
open Radix

/-! ### The generator -/

/-- `-mod^{-1} mod 2^bits`, by ten rounds. -/
def n0 (mod bits : ℕ) : ℕ := (-Newton.inverse mod (2 ^ bits) 10 % 2 ^ bits).toNat

def limbs (x nlimbs width : ℕ) : List ℕ :=
  (List.range nlimbs).map fun i => x >>> (width * i) &&& (1 <<< width - 1)

/-- The array of the shaders with the limbs as its literals. -/
def glslArr (x nlimbs : ℕ) : Limbs nlimbs :=
  ⟨(limbs x nlimbs 32).map UInt32.ofNat, by simp [limbs]⟩

def toMont (x mod bits : ℕ) : ℕ := x * (1 <<< bits) % mod

/-- `pow(x, -1, mod)`, which fails if there is no inverse. -/
def powInv (x mod : ℕ) : Option ℕ := if x.Coprime mod then some (x : ZMod mod)⁻¹.val else none

structure DeviceConstants where
  fpP : Fp
  fpN0 : UInt32
  fpR : Fp
  fpPMinus2 : Fp
  fpPHalf : Fp
  frP : Fr
  frN0 : UInt32
  frR2 : Fr
  frPMinus2 : Fr
  frShift7 : Fr
  frInvShift7 : Fr
  frInvExtBlob : Fr
deriving DecidableEq

/-- What is written for the moduli `P` and `R`, given the two inverses modulo `R`. -/
def deviceConstants (P R invShift7 invExtBlob : ℕ) : DeviceConstants where
  fpP := glslArr P 12
  fpN0 := UInt32.ofNat (n0 P 32)
  fpR := glslArr (toMont 1 P 384) 12
  fpPMinus2 := glslArr (P - 2) 12
  fpPHalf := glslArr ((P - 1) / 2) 12
  frP := glslArr R 8
  frN0 := UInt32.ofNat (n0 R 32)
  frR2 := glslArr (toMont (toMont 1 R 256) R 256) 8
  frPMinus2 := glslArr (R - 2) 8
  frShift7 := glslArr (toMont 7 R 256) 8
  frInvShift7 := glslArr (toMont invShift7 R 256) 8
  frInvExtBlob := glslArr (toMont invExtBlob R 256) 8

def main (P R : ℕ) : Option DeviceConstants := do
  let invShift7 ← powInv 7 R
  let invExtBlob ← powInv 8192 R
  return deviceConstants P R invShift7 invExtBlob

/-! ### Its parts -/

section Parts
variable {n N x : ℕ}

theorem glslArr_eq (x n : ℕ) : glslArr x n = Limbs.ofNat n x := by
  simp only [glslArr, limbs, Limbs.ofNat, Limbs.ofFn, List.map_map, Limbs.mk.injEq]
  refine List.map_congr_left fun i _ => ?_
  have hmask : 1 <<< 32 - 1 = 2 ^ 32 - 1 := by decide
  rw [Function.comp_apply, Nat.shiftRight_eq_div_pow, hmask, Nat.and_two_pow_sub_one_eq_mod, base,
    ← pow_mul]
  exact UInt32.ofNat_mod_size

theorem toNat_glslArr (h : x < base ^ n) : (glslArr x n).toNat = x := by
  rw [glslArr_eq, Limbs.toNat_ofNat, Nat.mod_eq_of_lt h]

theorem coe_n0 (N bits : ℕ) : (n0 N bits : ℤ) = -Newton.inverse N (2 ^ bits) 10 % 2 ^ bits :=
  Int.toNat_of_nonneg (Int.emod_nonneg _ (by positivity))

theorem n0_lt (N bits : ℕ) : n0 N bits < 2 ^ bits := by
  have h := Int.emod_lt_of_pos (-Newton.inverse N (2 ^ bits) 10)
    (show (0 : ℤ) < 2 ^ bits by positivity)
  rw [← coe_n0] at h
  exact_mod_cast h

/-- Ten rounds are enough for words of up to 1024 bits. -/
theorem n0_clears (hN : N.Coprime 2) {bits : ℕ} (hbits : bits ≤ 1024) :
    (n0 N bits * N + 1) % 2 ^ bits = 0 := by
  have hodd : (N : ℤ) % 2 = 1 := by
    obtain ⟨k, rfl⟩ := Nat.coprime_two_right.mp hN
    omega
  have hinv : (N : ℤ) * Newton.inverse N (2 ^ bits) 10 ≡ 1 [ZMOD 2 ^ bits] :=
    Newton.inverse_modEq hodd hbits
  have hclears : (n0 N bits * N + 1 : ℤ) ≡ 0 [ZMOD 2 ^ bits] := by
    calc (n0 N bits * N + 1 : ℤ) ≡ -Newton.inverse N (2 ^ bits) 10 * N + 1 [ZMOD 2 ^ bits] := by
          rw [coe_n0]
          exact ((Int.mod_modEq _ _).mul_right _).add_right 1
      _ = -(N * Newton.inverse N (2 ^ bits) 10) + 1 := by ring
      _ ≡ -1 + 1 [ZMOD 2 ^ bits] := hinv.neg.add_right 1
      _ = 0 := by ring
  exact Nat.mod_eq_zero_of_dvd (by exact_mod_cast Int.modEq_zero_iff_dvd.mp hclears)

theorem powInv_eq_none : powInv x N = none ↔ ¬x.Coprime N := by
  unfold powInv
  split_ifs with h
  · exact ⟨nofun, fun hnot => absurd h hnot⟩
  · exact ⟨fun _ => h, fun _ => rfl⟩

theorem coe_powInv [NeZero N] {v : ℕ} (h : powInv x N = some v) : (v : ZMod N) = (x : ZMod N)⁻¹ := by
  unfold powInv at h
  split_ifs at h
  obtain rfl := Option.some.inj h
  exact ZMod.natCast_zmod_val _

theorem powInv_eq_some {v : ℕ} (hv : v < N) (hN : 1 < N) (h : x * v % N = 1) :
    powInv x N = some v := by
  have : NeZero N := ⟨by omega⟩
  have hprod : (x : ZMod N) * v = 1 := by
    have hcast := congrArg (Nat.cast : ℕ → ZMod N) h
    rwa [ZMod.natCast_mod, Nat.cast_mul, Nat.cast_one] at hcast
  have hcop : x.Coprime N := (ZMod.isUnit_iff_coprime x N).mp (IsUnit.of_mul_eq_one _ hprod)
  rw [powInv, if_pos hcop, ZMod.inv_eq_of_mul_eq_one N _ _ hprod, ZMod.val_natCast,
    Nat.mod_eq_of_lt hv]

/-- The array of a Montgomery form represents the number. -/
theorem rep_toMont (M : Montgomery n N) (x : ℕ) :
    M.Rep (glslArr (toMont x N (32 * n)) n) (x : ZMod N) := by
  have hlt : toMont x N (32 * n) < N := Nat.mod_lt _ M.modulus_pos
  have hroom := M.room
  have hvalue : (glslArr (toMont x N (32 * n)) n).toNat = x * base ^ n % N := by
    rw [toNat_glslArr (by omega), toMont, Nat.shiftLeft_eq, one_mul, base, ← pow_mul]
  refine ⟨by rw [hvalue]; exact Nat.mod_lt _ M.modulus_pos, ?_⟩
  rw [hvalue, ZMod.natCast_mod, Nat.cast_mul, Nat.cast_pow]

/-- The modulus as the shaders work with it. -/
def montgomery (n N : ℕ) (hn : 0 < n) (hN : N.Coprime 2) (hroom : 2 * N ≤ base ^ n) :
    Montgomery n N where
  p := glslArr N n
  n0 := UInt32.ofNat (n0 N 32)
  modulus := by
    have hpos : 0 < base ^ n := Nat.pow_pos (by decide)
    have hvalue : value (glslArr N n).v = N := toNat_glslArr (by omega)
    refine ⟨fun hnil => ?_, ?_⟩
    · have hsize := (glslArr N n).size
      rw [hnil, List.length_nil] at hsize
      omega
    · rw [hvalue, UInt32.toNat_ofNat_of_lt' (n0_lt N 32)]
      exact n0_clears hN (by decide)
  toNat_p := toNat_glslArr (by
    have hpos : 0 < base ^ n := Nat.pow_pos (by decide)
    omega)
  room := hroom
  odd := hN

theorem powLoop_glslArr (M : Montgomery n N) (hN : N.Prime) {a : Limbs n} {x : ZMod N}
    (ha : M.Rep a x) : M.Rep (Montgomery.powLoop M.mul (glslArr (N - 2) n) a) x⁻¹ := by
  have : Fact N.Prime := ⟨hN⟩
  have hne : 2 ≠ N := fun h => by
    have hodd := M.odd
    rw [← h] at hodd
    exact absurd hodd (by decide)
  have htwo : 2 < N := lt_of_le_of_ne hN.two_le hne
  have hroom := M.room
  exact Montgomery.powLoop_inv ha (by rw [toNat_glslArr (by omega)]; omega) htwo

theorem mul_glslArr (M : Montgomery n N) (a : Limbs n) :
    M.Rep (M.mul a (glslArr (toMont (toMont 1 N (32 * n)) N (32 * n)) n)) (a.toNat : ZMod N) := by
  have hsquare := rep_toMont M (toMont 1 N (32 * n))
  refine Montgomery.rep_mul_square M a hsquare.reduced ?_
  rw [hsquare.cast, toMont, Nat.shiftLeft_eq, ZMod.natCast_mod, one_mul, one_mul, base, Nat.cast_pow,
    Nat.cast_pow, ← pow_mul]

end Parts

/-! ### The constants -/

/-- What the arithmetic of the shaders needs of its constants. -/
structure Suits {P R : ℕ} (M : Montgomery 12 P) (M' : Montgomery 8 R) (c : DeviceConstants) :
    Prop where
  fpP : M.p = c.fpP
  fpN0 : M.n0 = c.fpN0
  fpR : M.Rep c.fpR 1
  fpPMinus2 : P.Prime → ∀ a x, M.Rep a x → M.Rep (Montgomery.powLoop M.mul c.fpPMinus2 a) x⁻¹
  fpPHalf : c.fpPHalf.toNat = (P - 1) / 2
  frP : M'.p = c.frP
  frN0 : M'.n0 = c.frN0
  frR2 : ∀ a, M'.Rep (M'.mul a c.frR2) (a.toNat : ZMod R)
  frPMinus2 : R.Prime → ∀ a x, M'.Rep a x → M'.Rep (Montgomery.powLoop M'.mul c.frPMinus2 a) x⁻¹
  frShift7 : M'.Rep c.frShift7 7
  frInvShift7 : M'.Rep c.frInvShift7 7⁻¹
  frInvExtBlob : M'.Rep c.frInvExtBlob 8192⁻¹

theorem suits_deviceConstants {P R invShift7 invExtBlob : ℕ} (hP : P.Coprime 2) (hR : R.Coprime 2)
    (hroomP : 2 * P ≤ base ^ 12) (hroomR : 2 * R ≤ base ^ 8) (hshift : powInv 7 R = some invShift7)
    (hext : powInv 8192 R = some invExtBlob) :
    Suits (montgomery 12 P (by decide) hP hroomP) (montgomery 8 R (by decide) hR hroomR)
      (deviceConstants P R invShift7 invExtBlob) := by
  have hpos : 0 < R := (montgomery 8 R (by decide) hR hroomR).modulus_pos
  have : NeZero R := ⟨hpos.ne'⟩
  have hP12 : (P - 1) / 2 < base ^ 12 := by
    have h0 : 0 < base ^ 12 := by decide
    omega
  constructor
  · rfl
  · rfl
  · have hone := rep_toMont (montgomery 12 P (by decide) hP hroomP) 1
    rwa [Nat.cast_one] at hone
  · exact fun hprime _ _ ha => powLoop_glslArr _ hprime ha
  · exact toNat_glslArr hP12
  · rfl
  · rfl
  · exact fun a => mul_glslArr _ a
  · exact fun hprime _ _ ha => powLoop_glslArr _ hprime ha
  · have hseven := rep_toMont (montgomery 8 R (by decide) hR hroomR) 7
    rwa [Nat.cast_ofNat] at hseven
  · have hrep := rep_toMont (montgomery 8 R (by decide) hR hroomR) invShift7
    rwa [coe_powInv hshift, Nat.cast_ofNat] at hrep
  · have hrep := rep_toMont (montgomery 8 R (by decide) hR hroomR) invExtBlob
    rwa [coe_powInv hext, Nat.cast_ofNat] at hrep

/-- For any odd moduli with a spare bit in their limbs the generator fails exactly where the coset
shift has no inverse, and the constants it writes are right. -/
theorem main_suits {P R : ℕ} (hP : P.Coprime 2) (hR : R.Coprime 2) (hroomP : 2 * P ≤ base ^ 12)
    (hroomR : 2 * R ≤ base ^ 8) : (main P R = none ↔ 7 ∣ R) ∧
      ∀ c, main P R = some c →
        ∃ (M : Montgomery 12 P) (M' : Montgomery 8 R), Suits M M' c := by
  have hpow : Nat.Coprime 8192 R := Nat.Coprime.pow_left 13 hR.symm
  obtain ⟨invExtBlob, hext⟩ := Option.ne_none_iff_exists'.mp fun h => powInv_eq_none.mp h hpow
  have hseven : powInv 7 R = none ↔ 7 ∣ R := by
    rw [powInv_eq_none, Nat.Prime.coprime_iff_not_dvd (by norm_num), not_not]
  cases hshift : powInv 7 R with
  | none =>
    have hmain : main P R = none := by
      rw [main, hshift]
      rfl
    exact ⟨⟨fun _ => hseven.mp hshift, fun _ => hmain⟩,
      fun c hc => absurd (hmain.symm.trans hc) nofun⟩
  | some invShift7 =>
    have hmain : main P R = some (deviceConstants P R invShift7 invExtBlob) := by
      rw [main, hshift, hext]
      rfl
    refine ⟨⟨fun h => absurd (hmain.symm.trans h) nofun, fun hdvd => ?_⟩, fun c hc => ?_⟩
    · exact absurd (hshift.symm.trans (hseven.mpr hdvd)) nofun
    · obtain rfl := Option.some.inj (hmain.symm.trans hc)
      exact ⟨_, _, suits_deviceConstants hP hR hroomP hroomR hshift hext⟩

/-- What the shaders include. -/
def shaderConstants : DeviceConstants :=
  ⟨fpP, fpN0, fpR, fpPMinus2, fpPHalf, frP, frN0, frR2, frPMinus2, frShift7, frInvShift7,
    frInvExtBlob⟩

theorem main_shaderConstants : main fpModulus frModulus = some shaderConstants := by
  have hshift : powInv 7 frModulus =
      some 0x211f5460e751918257c7624b7077624aaa362edc49241a48db6db6db24924925 :=
    powInv_eq_some (by decide) (by decide) (by decide)
  have hext : powInv 8192 frModulus =
      some 0x73ea07e5ef04305c48f83e3949618af693930615dfe65c0c2007ffff00080001 :=
    powInv_eq_some (by decide) (by decide) (by decide)
  rw [main, hshift, hext]
  simp only [Option.bind_eq_bind, Option.bind_some, Option.pure_def, Option.some.injEq]
  decide +kernel

theorem main_suits_shaders :
    ∃ (M : Montgomery 12 fpModulus) (M' : Montgomery 8 frModulus), Suits M M' shaderConstants :=
  (main_suits (by decide) (by decide) (by decide) (by decide)).2 _ main_shaderConstants

end Vkzg.GenConstants
