import Vkzg.Library.Lucas
import Vkzg.Library.Montgomery
import Vkzg.Shaders.Layout
import Mathlib.Tactic.NormNum.Prime

/-! The field arithmetic of `field.glsl.inc` and its constants: 12-limb residues of the base
field, 8-limb residues of the scalar field, both in Montgomery form. -/

namespace Vkzg
open Radix

/-! ### Constants -/

def fpModulus : ℕ :=
  0x1a0111ea397fe69a4b1ba7b6434bacd764774b84f38512bf6730d2a0f6b0f6241eabfffeb153ffffb9feffffffffaaab

def frModulus : ℕ := 0x73eda753299d7d483339d80809a1d80553bda402fffe5bfeffffffff00000001

abbrev Fp := Limbs 12
abbrev Fr := Limbs 8

def fpP : Fp := ⟨[0xffffaaab, 0xb9feffff, 0xb153ffff, 0x1eabfffe, 0xf6b0f624, 0x6730d2a0,
  0xf38512bf, 0x64774b84, 0x434bacd7, 0x4b1ba7b6, 0x397fe69a, 0x1a0111ea], rfl⟩

def fpN0 : UInt32 := 0xfffcfffd

def fpR : Fp := ⟨[0x0002fffd, 0x76090000, 0xc40c0002, 0xebf4000b, 0x53c758ba, 0x5f489857,
  0x70525745, 0x77ce5853, 0xa256ec6d, 0x5c071a97, 0xfa80e493, 0x15f65ec3], rfl⟩

def fpPMinus2 : Fp := ⟨[0xffffaaa9, 0xb9feffff, 0xb153ffff, 0x1eabfffe, 0xf6b0f624, 0x6730d2a0,
  0xf38512bf, 0x64774b84, 0x434bacd7, 0x4b1ba7b6, 0x397fe69a, 0x1a0111ea], rfl⟩

def fpPHalf : Fp := ⟨[0xffffd555, 0xdcff7fff, 0x58a9ffff, 0x0f55ffff, 0x7b587b12, 0xb3986950,
  0x79c2895f, 0xb23ba5c2, 0x21a5d66b, 0x258dd3db, 0x1cbff34d, 0x0d0088f5], rfl⟩

def frP : Fr := ⟨[0x00000001, 0xffffffff, 0xfffe5bfe, 0x53bda402, 0x09a1d805, 0x3339d808,
  0x299d7d48, 0x73eda753], rfl⟩

def frN0 : UInt32 := 0xffffffff

def frR2 : Fr := ⟨[0xf3f29c6d, 0xc999e990, 0x87925c23, 0x2b6cedcb, 0x7254398f, 0x05d31496,
  0x9f59ff11, 0x0748d9d9], rfl⟩

def frPMinus2 : Fr := ⟨[0xffffffff, 0xfffffffe, 0xfffe5bfe, 0x53bda402, 0x09a1d805, 0x3339d808,
  0x299d7d48, 0x73eda753], rfl⟩

def frShift7 : Fr := ⟨[0xfffffff1, 0x0000000e, 0x00189c0f, 0x17e363d3, 0x6f8457b0, 0xff9c5787,
  0x8fc5a8c4, 0x35133220], rfl⟩

def frInvShift7 : Fr := ⟨[0xdb6db6dc, 0xdb6db6da, 0xdb6cc6da, 0xe6b5824a, 0x05810db9, 0xf8b356e0,
  0x60ec4796, 0x66d0f1e6], rfl⟩

def frInvExtBlob : Fr := ⟨[0x00000000, 0x00000000, 0x00000000, 0x00000000, 0x00000000, 0x00000000,
  0x00000000, 0x00080000], rfl⟩

def fpMont : Montgomery 12 fpModulus where
  p := fpP
  n0 := fpN0
  modulus := ⟨by decide, by decide⟩
  toNat_p := by decide
  room := by decide
  odd := by decide

def frMont : Montgomery 8 frModulus where
  p := frP
  n0 := frN0
  modulus := ⟨by decide, by decide⟩
  toNat_p := by decide
  room := by decide
  odd := by decide

/-! ### Base field -/

def fpZero : Fp := Limbs.ofFn 12 fun _ => 0

def fpOne : Fp := fpR

def fpIsZero (a : Fp) : Bool := orAll a.v == 0

def fpEq (a b : Fp) : Bool := xorAll a.v b.v == 0

def fpAdd (a b : Fp) : Fp := fpMont.add a b

def fpSub (a b : Fp) : Fp := fpMont.sub a b

def fpNeg (a : Fp) : Fp := if fpIsZero a then a else fpSub fpZero a

def fpDbl (a : Fp) : Fp := fpAdd a a

def fpMul (a b : Fp) : Fp := fpMont.mul a b

def fpSqr (a : Fp) : Fp := fpMul a a

def fpInv (a : Fp) : Fp := Montgomery.powLoop fpMul fpPMinus2 a

def fpToCanonical (a : Fp) : Fp := fpMul a (Limbs.ofFn 12 fun i => if i = 0 then 1 else 0)

def fpIsLexLargest (canonical : Fp) : Bool := (scanTop fpPHalf.v canonical.v).getD false

/-! ### Scalar field -/

def frZero : Fr := Limbs.ofFn 8 fun _ => 0

def frAdd (a b : Fr) : Fr := frMont.add a b

def frSub (a b : Fr) : Fr := frMont.sub a b

def frMul (a b : Fr) : Fr := frMont.mul a b

def frNeg (a : Fr) : Fr := frSub frZero a

def frInv (a : Fr) : Fr := Montgomery.powLoop frMul frPMinus2 a

def frRawOne : Fr := Limbs.ofFn 8 fun i => if i = 0 then 1 else 0

def frToCanonical (a : Fr) : Fr := frMul a frRawOne

def frFromCanonical (a : Fr) : Fr := frMul a frR2

def frIsCanonical (a : Fr) : Bool := (scanTop a.v frP.v).getD false

end Vkzg
