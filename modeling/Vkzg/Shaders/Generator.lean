import Vkzg.Shaders.G1

/-! The generator of the points of scalar order, with which the embedded setup begins. Double-and-add
checks its order. -/

namespace Vkzg
open ShortWeierstrass

/-- The first 48 bytes of the embedded setup, less the flags of the encoding. -/
def generatorX : ℕ :=
  0x17f1d3a73197d7942695638c4fa9ac0fc3688c4f9774b905a14e3a3f171bac586c55e83ff97a1aeffb3af00adb22c6bb

def generatorY : ℕ :=
  0x08b3f481e3aaa0f1a09e30ed741d8ae4fcf5e095d5d00af600db18cb2c04b3edd03cc744a2888ae40caa232946c5e7e1

def generatorTriple : Triple BaseField := ⟨generatorX, generatorY, 1⟩

theorem nonsingular_generator : Curve.Nonsingular (generatorX : BaseField) generatorY := by
  have hcurve : (generatorY : BaseField) ^ 2 = (generatorX : BaseField) ^ 3 + 4 := by decide +kernel
  have hy : (generatorY : BaseField) ≠ 0 := by decide +kernel
  rw [WeierstrassCurve.Affine.nonsingular_iff']
  refine ⟨Triple.equation_iff.mpr hcurve, .inr ?_⟩
  simpa [Curve, curve] using mul_ne_zero two_ne_zero_base hy

def generatorPoint : Point := .some generatorX generatorY nonsingular_generator

theorem represents_generator : generatorTriple.Represents generatorPoint :=
  ⟨one_ne_zero, by rw [generatorTriple, one_pow, mul_one], by rw [generatorTriple, one_pow, mul_one]⟩

theorem nsmul_generator_eq_zero_iff {e : ℕ} (he : e < 2 ^ 255) :
    e • generatorPoint = 0 ↔ (generatorTriple.multiple 255 e).z = 0 :=
  (Triple.z_eq_zero_iff
    (Triple.represents_multiple two_ne_zero_base represents_generator 255 he)).symm

theorem multiple_generator : (generatorTriple.multiple 255 frModulus).z = 0 := by decide +kernel

theorem frModulus_nsmul_generator : frModulus • generatorPoint = 0 :=
  (nsmul_generator_eq_zero_iff (by decide)).mpr multiple_generator

def generator : ScalarPoint := ⟨generatorPoint, mem_scalarPoint frModulus_nsmul_generator⟩

theorem generator_ne_zero : generator ≠ 0 := fun h =>
  WeierstrassCurve.Affine.Point.some_ne_zero nonsingular_generator (congrArg Subtype.val h)

end Vkzg
