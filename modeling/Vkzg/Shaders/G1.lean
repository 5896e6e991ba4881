import Vkzg.Shaders.FieldSpec
import Vkzg.Library.ShortWeierstrass
import Mathlib.Algebra.Module.Torsion.Basic

/-! The curve arithmetic of `field.glsl.inc` on `y² = x³ + 4`. `G1Rep g P` says that `g` is a
reduced Jacobian representative of the point `P`; every operation maps representatives to
representatives. -/

namespace Vkzg
open ShortWeierstrass

/-- Jacobian coordinates; `z = 0` is the point at infinity. -/
structure G1 where
  x : Fp
  y : Fp
  z : Fp
deriving DecidableEq

/-- Affine coordinates, with `(0, 0)` for the point at infinity. -/
structure G1A where
  x : Fp
  y : Fp
deriving DecidableEq

def g1Identity : G1 := ⟨fpZero, fpOne, fpZero⟩

def g1aIsIdentity (p : G1A) : Bool := fpIsZero p.x && fpIsZero p.y

/-- dbl-2009-l. -/
def g1Dbl (p : G1) : G1 :=
  if fpIsZero p.z then p else
    let a := fpSqr p.x
    let b := fpSqr p.y
    let c := fpSqr b
    let t0 := fpSub (fpSub (fpSqr (fpAdd p.x b)) a) c
    let d := fpDbl t0
    let e := fpAdd (fpDbl a) a
    let f := fpSqr e
    let x := fpSub f (fpDbl d)
    let t1 := fpMul e (fpSub d x)
    let t2 := fpDbl (fpDbl (fpDbl c))
    ⟨x, fpSub t1 t2, fpDbl (fpMul p.y p.z)⟩

/-- add-2007-bl. -/
def g1Add (a b : G1) : G1 :=
  if fpIsZero a.z then b else if fpIsZero b.z then a else
    let z1z1 := fpSqr a.z
    let z2z2 := fpSqr b.z
    let u1 := fpMul a.x z2z2
    let u2 := fpMul b.x z1z1
    let s1 := fpMul a.y (fpMul b.z z2z2)
    let s2 := fpMul b.y (fpMul a.z z1z1)
    if fpEq u1 u2 then if fpEq s1 s2 then g1Dbl a else g1Identity else
      let h := fpSub u2 u1
      let i := fpSqr (fpDbl h)
      let j := fpMul h i
      let k := fpDbl (fpSub s2 s1)
      let v := fpMul u1 i
      let x := fpSub (fpSub (fpSqr k) j) (fpDbl v)
      let t := fpMul k (fpSub v x)
      let z := fpSub (fpSub (fpSqr (fpAdd a.z b.z)) z1z1) z2z2
      ⟨x, fpSub t (fpDbl (fpMul s1 j)), fpMul z h⟩

/-- madd-2007-bl: Jacobian + affine. -/
def g1Madd (a : G1) (b : G1A) : G1 :=
  if g1aIsIdentity b then a else if fpIsZero a.z then ⟨b.x, b.y, fpOne⟩ else
    let z1z1 := fpSqr a.z
    let u2 := fpMul b.x z1z1
    let s2 := fpMul b.y (fpMul a.z z1z1)
    if fpEq a.x u2 then if fpEq a.y s2 then g1Dbl a else g1Identity else
      let h := fpSub u2 a.x
      let hh := fpSqr h
      let i := fpDbl (fpDbl hh)
      let j := fpMul h i
      let k := fpDbl (fpSub s2 a.y)
      let v := fpMul a.x i
      let x := fpSub (fpSub (fpSqr k) j) (fpDbl v)
      let t := fpMul k (fpSub v x)
      let z := fpSub (fpSub (fpSqr (fpAdd a.z h)) z1z1) hh
      ⟨x, fpSub t (fpDbl (fpMul a.y j)), z⟩

def g1Neg (p : G1) : G1 := { p with y := fpNeg p.y }

def g1Sub (a b : G1) : G1 := g1Add a (g1Neg b)

/-! ### The points behind the coordinates -/

abbrev Curve : WeierstrassCurve.Affine BaseField := curve 4

abbrev Point := Curve.Point

theorem two_ne_zero_base : (2 : BaseField) ≠ 0 := by
  have h : ((2 : ℕ) : BaseField) ≠ 0 := by
    rw [Ne, ZMod.natCast_eq_zero_iff]
    exact fun hdvd => absurd (Nat.le_of_dvd (by decide) hdvd) (by decide)
  exact_mod_cast h

theorem four_ne_zero_base : (4 : BaseField) ≠ 0 := by
  rw [show (4 : BaseField) = 2 * 2 by norm_num]
  exact mul_ne_zero two_ne_zero_base two_ne_zero_base

/-- Coordinatewise Montgomery representation of a field triple. -/
structure CoordRep (g : G1) (t : Triple BaseField) : Prop where
  x : FpRep g.x t.x
  y : FpRep g.y t.y
  z : FpRep g.z t.z

def G1Rep (g : G1) (P : Point) : Prop := ∃ t : Triple BaseField, CoordRep g t ∧ t.Represents P

def G1ARep (a : G1A) (P : Point) : Prop :=
  ∃ q : BaseField × BaseField, FpRep a.x q.1 ∧ FpRep a.y q.2 ∧ Triple.AffineRepresents q P

/-- The field element limbs stand for. -/
def fpValue (a : Fp) : BaseField := a.toNat * ((Radix.base : BaseField) ^ 12)⁻¹

/-- The affine coordinates of a Jacobian point, `(0, 0)` for infinity. -/
def g1Affine (g : G1) : BaseField × BaseField :=
  Triple.affine ⟨fpValue g.x, fpValue g.y, fpValue g.z⟩

theorem fpValue_eq {a : Fp} {x : BaseField} (h : FpRep a x) : fpValue a = x := by
  rw [fpValue, h.cast, mul_inv_cancel_right₀ (Radix.Montgomery.isUnit_base fpMont).ne_zero]

section Coordinates
variable {g g' : G1} {t t' : Triple BaseField}

theorem coordRep_identity : CoordRep g1Identity Triple.infinity :=
  ⟨fpRep_zero, fpRep_one, fpRep_zero⟩

theorem coordRep_neg (h : CoordRep g t) : CoordRep (g1Neg g) t.neg := ⟨h.x, fpRep_neg h.y, h.z⟩

theorem coordRep_dbl (h : CoordRep g t) : CoordRep (g1Dbl g) t.dbl := by
  unfold g1Dbl Triple.dbl
  simp only [fpIsZero_iff h.z]
  split_ifs
  · exact h
  · have ha := fpRep_sqr h.x
    have hb := fpRep_sqr h.y
    have hc := fpRep_sqr hb
    have hd := fpRep_dbl (fpRep_sub (fpRep_sub (fpRep_sqr (fpRep_add h.x hb)) ha) hc)
    have he := fpRep_add (fpRep_dbl ha) ha
    have hx := fpRep_sub (fpRep_sqr he) (fpRep_dbl hd)
    exact ⟨hx, fpRep_sub (fpRep_mul he (fpRep_sub hd hx)) (fpRep_dbl (fpRep_dbl (fpRep_dbl hc))),
      fpRep_dbl (fpRep_mul h.y h.z)⟩

theorem coordRep_add (h : CoordRep g t) (h' : CoordRep g' t') :
    CoordRep (g1Add g g') (t.add t') := by
  have hz1 := fpRep_sqr h.z
  have hz2 := fpRep_sqr h'.z
  have hu1 := fpRep_mul h.x hz2
  have hu2 := fpRep_mul h'.x hz1
  have hs1 := fpRep_mul h.y (fpRep_mul h'.z hz2)
  have hs2 := fpRep_mul h'.y (fpRep_mul h.z hz1)
  unfold g1Add Triple.add
  simp only [fpIsZero_iff h.z, fpIsZero_iff h'.z, fpEq_iff hu1 hu2, fpEq_iff hs1 hs2]
  split_ifs
  · exact h'
  · exact h
  · exact coordRep_dbl h
  · exact coordRep_identity
  · have hh := fpRep_sub hu2 hu1
    have hi := fpRep_sqr (fpRep_dbl hh)
    have hj := fpRep_mul hh hi
    have hk := fpRep_dbl (fpRep_sub hs2 hs1)
    have hv := fpRep_mul hu1 hi
    have hx := fpRep_sub (fpRep_sub (fpRep_sqr hk) hj) (fpRep_dbl hv)
    exact ⟨hx, fpRep_sub (fpRep_mul hk (fpRep_sub hv hx)) (fpRep_dbl (fpRep_mul hs1 hj)),
      fpRep_mul (fpRep_sub (fpRep_sub (fpRep_sqr (fpRep_add h.z h'.z)) hz1) hz2) hh⟩

theorem coordRep_madd (h : CoordRep g t) {a : G1A} {q : BaseField × BaseField}
    (hx : FpRep a.x q.1) (hy : FpRep a.y q.2) : CoordRep (g1Madd g a) (t.addAffine q) := by
  have hz1 := fpRep_sqr h.z
  have hu2 := fpRep_mul hx hz1
  have hs2 := fpRep_mul hy (fpRep_mul h.z hz1)
  unfold g1Madd Triple.addAffine g1aIsIdentity
  simp only [Bool.and_eq_true, fpIsZero_iff hx, fpIsZero_iff hy, fpIsZero_iff h.z,
    fpEq_iff h.x hu2, fpEq_iff h.y hs2]
  split_ifs
  · exact h
  · exact ⟨hx, hy, fpRep_one⟩
  · exact coordRep_dbl h
  · exact coordRep_identity
  · have hh := fpRep_sub hu2 h.x
    have hhh := fpRep_sqr hh
    have hi := fpRep_dbl (fpRep_dbl hhh)
    have hj := fpRep_mul hh hi
    have hk := fpRep_dbl (fpRep_sub hs2 h.y)
    have hv := fpRep_mul h.x hi
    have hx3 := fpRep_sub (fpRep_sub (fpRep_sqr hk) hj) (fpRep_dbl hv)
    exact ⟨hx3, fpRep_sub (fpRep_mul hk (fpRep_sub hv hx3)) (fpRep_dbl (fpRep_mul h.y hj)),
      fpRep_sub (fpRep_sub (fpRep_sqr (fpRep_add h.z hh)) hz1) hhh⟩

end Coordinates

section Points
variable {g g' : G1} {a : G1A} {P Q : Point}

theorem g1Rep_identity : G1Rep g1Identity 0 :=
  ⟨_, coordRep_identity, Triple.represents_infinity⟩

theorem g1Rep_dbl (h : G1Rep g P) : G1Rep (g1Dbl g) (P + P) := by
  obtain ⟨t, hc, ht⟩ := h
  exact ⟨t.dbl, coordRep_dbl hc, Triple.represents_dbl two_ne_zero_base ht⟩

theorem g1Rep_add (h : G1Rep g P) (h' : G1Rep g' Q) : G1Rep (g1Add g g') (P + Q) := by
  obtain ⟨t, hc, ht⟩ := h
  obtain ⟨t', hc', ht'⟩ := h'
  exact ⟨t.add t', coordRep_add hc hc', Triple.represents_add two_ne_zero_base ht ht'⟩

theorem g1Rep_madd (h : G1Rep g P) (h' : G1ARep a Q) : G1Rep (g1Madd g a) (P + Q) := by
  obtain ⟨t, hc, ht⟩ := h
  obtain ⟨q, hx, hy, hq⟩ := h'
  exact ⟨t.addAffine q, coordRep_madd hc hx hy,
    Triple.represents_addAffine two_ne_zero_base four_ne_zero_base ht hq⟩

theorem g1Rep_neg (h : G1Rep g P) : G1Rep (g1Neg g) (-P) := by
  obtain ⟨t, hc, ht⟩ := h
  exact ⟨t.neg, coordRep_neg hc, Triple.represents_neg ht⟩

theorem g1Rep_sub (h : G1Rep g P) (h' : G1Rep g' Q) : G1Rep (g1Sub g g') (P - Q) := by
  rw [sub_eq_add_neg]
  exact g1Rep_add h (g1Rep_neg h')

theorem g1aRep_neg (h : G1ARep a P) : G1ARep { a with y := fpNeg a.y } (-P) := by
  obtain ⟨q, hx, hy, hq⟩ := h
  refine ⟨(q.1, -q.2), hx, fpRep_neg hy, ?_⟩
  rcases P with _ | ⟨x, y, hP⟩
  · obtain rfl : q = (0, 0) := hq
    exact Prod.ext rfl neg_zero
  · obtain rfl : q = (x, y) := hq
    exact Prod.ext rfl (Triple.negY_eq x y).symm

theorem g1aRep_flip {c : Prop} [Decidable c] (h : G1ARep a P) :
    G1ARep (if c then { a with y := fpNeg a.y } else a) (if c then -P else P) := by
  split_ifs
  · exact g1aRep_neg h
  · exact h

theorem g1Affine_represents (h : G1Rep g P) : Triple.AffineRepresents (g1Affine g) P := by
  obtain ⟨t, hc, ht⟩ := h
  rw [g1Affine, fpValue_eq hc.x, fpValue_eq hc.y, fpValue_eq hc.z]
  exact Triple.affineRepresents_affine ht

theorem g1Affine_eq (h : G1Rep g P) (h' : G1Rep g' P) : g1Affine g = g1Affine g' :=
  Triple.affineRepresents_unique (g1Affine_represents h) (g1Affine_represents h')

end Points

/-! ### Points of scalar order -/

/-- The points whose order divides the scalar modulus. -/
abbrev ScalarPoint : AddSubgroup Point := AddSubgroup.torsionBy Point (frModulus : ℤ)

instance : Module ScalarField ScalarPoint := AddSubgroup.torsionBy.zmodModule

theorem mem_scalarPoint {P : Point} (h : frModulus • P = 0) : P ∈ ScalarPoint :=
  AddSubgroup.torsionBy.nsmul_iff.mpr h

theorem coe_smul_scalarPoint (s : ScalarField) (P : ScalarPoint) :
    ((s • P : ScalarPoint) : Point) = s.val • (P : Point) := by
  have h : s • P = s.val • P := by
    conv_lhs => rw [← ZMod.natCast_zmod_val s]
    exact Nat.cast_smul_eq_nsmul ScalarField s.val P
  rw [h]
  exact AddSubgroup.coe_nsmul _ _ _

/-! ### A point of order three -/

theorem nonsingular_zero_two : Curve.Nonsingular 0 2 := by
  rw [WeierstrassCurve.Affine.nonsingular_iff']
  simp only [Curve, curve, WeierstrassCurve.Affine.equation_iff]
  refine ⟨by norm_num, .inr ?_⟩
  simpa using two_ne_zero_base

def zeroTwo : Point := .some 0 2 nonsingular_zero_two

theorem zeroTwo_add_self : zeroTwo + zeroTwo = -zeroTwo := by
  have hy : (2 : BaseField) ≠ Curve.negY 0 2 := by
    rw [Triple.negY_eq]
    exact fun h => four_ne_zero_base (by linear_combination h)
  rw [zeroTwo, WeierstrassCurve.Affine.Point.add_self_of_Y_ne hy,
    WeierstrassCurve.Affine.Point.neg_some, WeierstrassCurve.Affine.Point.some.injEq,
    Triple.addX_eq, Triple.addY_eq, Triple.negY_eq,
    Triple.slope_self two_ne_zero_base two_ne_zero_base]
  simp

theorem pow_nsmul_zeroTwo (n : ℕ) : 2 ^ (8 * n) • zeroTwo = zeroTwo := by
  have hfour : 4 • zeroTwo = zeroTwo := by
    rw [show 4 = 2 * 2 by decide, mul_nsmul, two_nsmul, two_nsmul, zeroTwo_add_self, ← neg_add,
      zeroTwo_add_self, neg_neg]
  rw [Nat.mul_comm, show n * 8 = 2 * (n * 4) by omega, pow_mul]
  induction n * 4 with
  | zero => exact one_nsmul _
  | succ k ih => rw [pow_succ, mul_nsmul, ih, show 2 ^ 2 = 4 by decide, hfour]

def zeroTwoA : G1A := ⟨fpZero, fpAdd fpOne fpOne⟩

theorem g1aRep_zeroTwoA : G1ARep zeroTwoA zeroTwo :=
  ⟨(0, 1 + 1), fpRep_zero, fpRep_add fpRep_one fpRep_one, by
    rw [one_add_one_eq_two]
    rfl⟩

/-! ### Completeness over all representatives -/

theorem fpRep_fpValue {a : Fp} (h : a.toNat < fpModulus) : FpRep a (fpValue a) := by
  obtain ⟨x, hx⟩ := Radix.Montgomery.exists_rep fpMont h
  rwa [fpValue_eq hx]

/-- Infinity is represented by a zero `z` next to any reduced `x` and `y`, and by nothing else. -/
theorem g1Rep_zero_iff {g : G1} :
    G1Rep g 0 ↔ g.x.toNat < fpModulus ∧ g.y.toNat < fpModulus ∧ g.z.toNat = 0 := by
  constructor
  · rintro ⟨t, hc, ht⟩
    exact ⟨hc.x.reduced, hc.y.reduced, hc.z.toNat_eq_zero.mpr (Triple.represents_zero.mp ht)⟩
  · rintro ⟨hx, hy, hz⟩
    exact ⟨⟨_, _, 0⟩, ⟨fpRep_fpValue hx, fpRep_fpValue hy, Radix.Montgomery.Rep.zero fpMont hz⟩, rfl⟩

/-- A finite point is represented by the scaled coordinates of every nonzero `z`. -/
theorem g1Rep_some {x y ζ : BaseField} {hP : Curve.Nonsingular x y} {g : G1} (hζ : ζ ≠ 0)
    (hx : FpRep g.x (x * ζ ^ 2)) (hy : FpRep g.y (y * ζ ^ 3)) (hz : FpRep g.z ζ) :
    G1Rep g (.some x y hP) :=
  ⟨⟨_, _, ζ⟩, ⟨hx, hy, hz⟩, Triple.represents_some.mpr ⟨hζ, rfl, rfl⟩⟩

/-- Every formula computes the group law on all representatives of all points, so that what it
computes depends on the points alone. -/
theorem g1_complete {P Q R : Point} {g h : G1} {a : G1A} (hg : G1Rep g P) (hh : G1Rep h Q)
    (ha : G1ARep a R) :
    (G1Rep (g1Dbl g) (2 • P) ∧ G1Rep (g1Add g h) (P + Q) ∧ G1Rep (g1Madd g a) (P + R) ∧
      G1Rep (g1Neg g) (-P) ∧ G1Rep (g1Sub g h) (P - Q)) ∧
    ∀ g' h' a', G1Rep g' P → G1Rep h' Q → G1ARep a' R →
      g1Affine (g1Dbl g') = g1Affine (g1Dbl g) ∧
      g1Affine (g1Add g' h') = g1Affine (g1Add g h) ∧
      g1Affine (g1Madd g' a') = g1Affine (g1Madd g a) ∧
      g1Affine (g1Neg g') = g1Affine (g1Neg g) ∧
      g1Affine (g1Sub g' h') = g1Affine (g1Sub g h) := by
  refine ⟨⟨?_, g1Rep_add hg hh, g1Rep_madd hg ha, g1Rep_neg hg, g1Rep_sub hg hh⟩, ?_⟩
  · rw [two_nsmul]
    exact g1Rep_dbl hg
  · intro g' h' a' hg' hh' ha'
    exact ⟨g1Affine_eq (g1Rep_dbl hg') (g1Rep_dbl hg),
      g1Affine_eq (g1Rep_add hg' hh') (g1Rep_add hg hh),
      g1Affine_eq (g1Rep_madd hg' ha') (g1Rep_madd hg ha),
      g1Affine_eq (g1Rep_neg hg') (g1Rep_neg hg),
      g1Affine_eq (g1Rep_sub hg' hh') (g1Rep_sub hg hh)⟩

/-- The point of order three with `z` a given field element. -/
def zeroTwoScaled (z : Fp) : G1 := ⟨fpZero, fpDbl (fpMul z (fpSqr z)), z⟩

theorem g1Rep_zeroTwoScaled {z : Fp} {ζ : BaseField} (hζ : ζ ≠ 0) (hz : FpRep z ζ) :
    G1Rep (zeroTwoScaled z) zeroTwo := by
  refine g1Rep_some hζ ?_ ?_ hz
  · rw [zero_mul]
    exact fpRep_zero
  · rw [show 2 * ζ ^ 3 = ζ * (ζ * ζ) + ζ * (ζ * ζ) by ring]
    exact fpRep_dbl (fpRep_mul hz (fpRep_sqr hz))

/-- A point plus itself under another representative, minus infinity with stray coordinates. -/
theorem g1_complete_zeroTwo :
    G1Rep (g1Add (zeroTwoScaled fpOne) (zeroTwoScaled (fpDbl fpOne))) (zeroTwo + zeroTwo) ∧
      G1Rep (g1Sub (zeroTwoScaled fpOne) ⟨fpOne, fpOne, fpZero⟩) (zeroTwo - 0) := by
  have hone := g1Rep_zeroTwoScaled one_ne_zero fpRep_one
  have htwo := g1Rep_zeroTwoScaled (one_add_one_eq_two (R := BaseField) ▸ two_ne_zero_base)
    (fpRep_dbl fpRep_one)
  have hinf : G1Rep ⟨fpOne, fpOne, fpZero⟩ 0 :=
    g1Rep_zero_iff.mpr ⟨fpRep_one.reduced, fpRep_one.reduced, by decide⟩
  exact ⟨(g1_complete hone htwo g1aRep_zeroTwoA).1.2.1,
    (g1_complete hone hinf g1aRep_zeroTwoA).1.2.2.2.2⟩

end Vkzg
