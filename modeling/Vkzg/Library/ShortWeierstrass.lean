import Mathlib.AlgebraicGeometry.EllipticCurve.Affine.Point
import Mathlib.Tactic.FieldSimp
import Mathlib.Tactic.LinearCombination

/-! Jacobian coordinates on the curves `y² = x³ + b`. The classical doubling, addition and mixed
addition formulas compute the group law on every representative of every point. -/

namespace ShortWeierstrass
open WeierstrassCurve.Affine

variable {F : Type} [Field F] {b : F}

def curve (b : F) : WeierstrassCurve.Affine F := ⟨0, 0, 0, 0, b⟩

/-- Jacobian coordinates: `(x / z², y / z³)`, or infinity when `z = 0`. -/
structure Triple (F : Type) where
  x : F
  y : F
  z : F

namespace Triple

def infinity : Triple F := ⟨0, 1, 0⟩

def neg (p : Triple F) : Triple F := { p with y := -p.y }

/-- The triple is one of the representatives of the point. -/
def Represents (p : Triple F) : (curve b).Point → Prop
  | .zero => p.z = 0
  | .some x y _ => p.z ≠ 0 ∧ p.x = x * p.z ^ 2 ∧ p.y = y * p.z ^ 3

variable {p q : Triple F} {P Q : (curve b).Point}

theorem represents_zero : p.Represents (0 : (curve b).Point) ↔ p.z = 0 := Iff.rfl

theorem represents_some {x y : F} {h : (curve b).Nonsingular x y} :
    p.Represents (.some x y h) ↔ p.z ≠ 0 ∧ p.x = x * p.z ^ 2 ∧ p.y = y * p.z ^ 3 := Iff.rfl

theorem represents_infinity : (infinity : Triple F).Represents (0 : (curve b).Point) := rfl

theorem negY_eq (x y : F) : (curve b).negY x y = -y := by simp [negY, curve]

theorem addX_eq (x₁ x₂ l : F) : (curve b).addX x₁ x₂ l = l ^ 2 - x₁ - x₂ := by simp [addX, curve]

theorem addY_eq (x₁ x₂ y₁ l : F) :
    (curve b).addY x₁ x₂ y₁ l = -(l * (l ^ 2 - x₁ - x₂ - x₁) + y₁) := by
  rw [addY, negY_eq, negAddY, addX_eq]

theorem equation_iff {x y : F} : (curve b).Equation x y ↔ y ^ 2 = x ^ 3 + b := by
  simp [WeierstrassCurve.Affine.equation_iff, curve]

theorem z_eq_zero_iff (h : p.Represents P) : p.z = 0 ↔ P = 0 := by
  rcases P with _ | ⟨x, y, hP⟩
  · exact iff_of_true h rfl
  · exact iff_of_false h.1 (Point.some_ne_zero _)

theorem represents_neg (h : p.Represents P) : p.neg.Represents (-P) := by
  rcases P with _ | ⟨x, y, hP⟩
  · exact h
  · obtain ⟨hz, hx, hy⟩ := h
    rw [Point.neg_some, represents_some, negY_eq]
    exact ⟨hz, hx, by rw [neg, hy, neg_mul]⟩

variable [DecidableEq F]

/-- dbl-2009-l. -/
def dbl (p : Triple F) : Triple F :=
  if p.z = 0 then p else
    let a := p.x * p.x
    let b := p.y * p.y
    let c := b * b
    let t := (p.x + b) * (p.x + b) - a - c
    let d := t + t
    let e := a + a + a
    let x := e * e - (d + d)
    let c2 := c + c
    let c4 := c2 + c2
    let yz := p.y * p.z
    ⟨x, e * (d - x) - (c4 + c4), yz + yz⟩

/-- add-2007-bl. -/
def add (p q : Triple F) : Triple F :=
  if p.z = 0 then q else if q.z = 0 then p else
    let z1 := p.z * p.z
    let z2 := q.z * q.z
    let u1 := p.x * z2
    let u2 := q.x * z1
    let s1 := p.y * (q.z * z2)
    let s2 := q.y * (p.z * z1)
    if u1 = u2 then if s1 = s2 then p.dbl else infinity else
      let h := u2 - u1
      let i := (h + h) * (h + h)
      let j := h * i
      let k := (s2 - s1) + (s2 - s1)
      let v := u1 * i
      let x := k * k - j - (v + v)
      let sj := s1 * j
      ⟨x, k * (v - x) - (sj + sj), ((p.z + q.z) * (p.z + q.z) - z1 - z2) * h⟩

/-- madd-2007-bl; the pair `(0, 0)` stands for infinity. -/
def addAffine (p : Triple F) (q : F × F) : Triple F :=
  if q.1 = 0 ∧ q.2 = 0 then p else if p.z = 0 then ⟨q.1, q.2, 1⟩ else
    let z1 := p.z * p.z
    let u2 := q.1 * z1
    let s2 := q.2 * (p.z * z1)
    if p.x = u2 then if p.y = s2 then p.dbl else infinity else
      let h := u2 - p.x
      let hh := h * h
      let hh2 := hh + hh
      let i := hh2 + hh2
      let j := h * i
      let k := (s2 - p.y) + (s2 - p.y)
      let v := p.x * i
      let x := k * k - j - (v + v)
      let yj := p.y * j
      ⟨x, k * (v - x) - (yj + yj), (p.z + h) * (p.z + h) - z1 - hh⟩

/-- The second operand of a mixed addition: the coordinates, or `(0, 0)` for infinity. -/
def AffineRepresents (q : F × F) : (curve b).Point → Prop
  | .zero => q = (0, 0)
  | .some x y _ => q = (x, y)

/-- The affine coordinates of a triple, `(0, 0)` for infinity. -/
def affine (p : Triple F) : F × F := (p.x * (p.z⁻¹ * p.z⁻¹), p.y * (p.z⁻¹ * p.z⁻¹ * p.z⁻¹))

omit [DecidableEq F] in
theorem affineRepresents_affine (h : p.Represents P) : AffineRepresents p.affine P := by
  rcases P with _ | ⟨x, y, hP⟩
  · have hz : p.z = 0 := h
    simp [AffineRepresents, affine, hz]
  · obtain ⟨hz, hx, hy⟩ := h
    refine Prod.ext ?_ ?_
    · rw [affine, hx]
      field_simp
    · rw [affine, hy]
      field_simp

omit [DecidableEq F] in
theorem affineRepresents_unique {q q' : F × F} (h : AffineRepresents q P)
    (h' : AffineRepresents q' P) : q = q' := by
  rcases P with _ | ⟨x, y, hP⟩ <;> exact Eq.trans h (Eq.symm h')

/-- The tangent at a point off the `x`-axis. -/
theorem slope_self {x y : F} (h2 : (2 : F) ≠ 0) (hy : y ≠ 0) :
    (curve b).slope x x y y = 3 * x ^ 2 / (2 * y) := by
  have hne : y ≠ (curve b).negY x y := by
    rw [negY_eq]
    intro hc
    exact mul_ne_zero h2 hy (by linear_combination hc)
  rw [slope_of_Y_ne rfl hne, negY_eq]
  simp [curve, two_mul]

theorem represents_dbl (h2 : (2 : F) ≠ 0) (h : p.Represents P) : p.dbl.Represents (P + P) := by
  rcases P with _ | ⟨x, y, hP⟩
  · have hz : p.z = 0 := h
    rw [dbl, if_pos hz]
    exact hz
  · obtain ⟨hz, hx, hy⟩ := h
    rw [dbl, if_neg hz]
    by_cases hy0 : y = 0
    · rw [Point.add_self_of_Y_eq (by rw [negY_eq, hy0, neg_zero]), represents_zero]
      simp only [hy, hy0]
      ring
    · have hne : y ≠ (curve b).negY x y := by
        rw [negY_eq]
        intro hc
        exact mul_ne_zero h2 hy0 (by linear_combination hc)
      rw [Point.add_self_of_Y_ne hne, represents_some, slope_self h2 hy0]
      simp only [addX_eq, addY_eq, hx, hy]
      refine ⟨?_, ?_, ?_⟩
      · rw [← two_mul]
        exact mul_ne_zero h2 (mul_ne_zero (mul_ne_zero hy0 (pow_ne_zero 3 hz)) hz)
      · field_simp
        ring
      · field_simp
        ring

/-- The chord through two points with distinct abscissas. -/
theorem add_of_x_ne {x₁ y₁ x₂ y₂ : F} {h₁ : (curve b).Nonsingular x₁ y₁}
    {h₂ : (curve b).Nonsingular x₂ y₂} (hx : x₁ ≠ x₂) (hp : p.z ≠ 0)
    (hpx : p.x = ((y₁ - y₂) ^ 2 - (x₁ + x₂) * (x₁ - x₂) ^ 2) * (p.z / (x₁ - x₂)) ^ 2)
    (hpy : p.y = (-(y₁ - y₂) ^ 3 + (y₁ - y₂) * (2 * x₁ + x₂) * (x₁ - x₂) ^ 2 -
      y₁ * (x₁ - x₂) ^ 3) * (p.z / (x₁ - x₂)) ^ 3) :
    p.Represents (Point.some x₁ y₁ h₁ + Point.some x₂ y₂ h₂) := by
  have hsub : x₁ - x₂ ≠ 0 := sub_ne_zero.mpr hx
  rw [Point.add_of_X_ne hx, represents_some, slope_of_X_ne hx]
  rw [addX_eq, addY_eq]
  refine ⟨hp, ?_, ?_⟩
  · rw [hpx]
    field_simp
    ring
  · rw [hpy]
    field_simp
    ring

theorem represents_add (h2 : (2 : F) ≠ 0) (hp : p.Represents P) (hq : q.Represents Q) :
    (p.add q).Represents (P + Q) := by
  rcases P with _ | ⟨x₁, y₁, hP⟩
  · have hz : p.z = 0 := hp
    rw [add, if_pos hz]
    exact hq
  rcases Q with _ | ⟨x₂, y₂, hQ⟩
  · have hz : q.z = 0 := hq
    rw [add, if_neg hp.1, if_pos hz]
    exact hp
  obtain ⟨hpz, hpx, hpy⟩ := hp
  obtain ⟨hqz, hqx, hqy⟩ := hq
  -- Scaled coordinates are equal exactly when the affine ones are.
  have hu : p.x * (q.z * q.z) = q.x * (p.z * p.z) ↔ x₁ = x₂ := by
    have hzz : p.z ^ 2 * q.z ^ 2 ≠ 0 := mul_ne_zero (pow_ne_zero 2 hpz) (pow_ne_zero 2 hqz)
    rw [hpx, hqx, ← mul_left_inj' hzz (a := x₁)]
    constructor <;> intro h <;> linear_combination h
  have hs : p.y * (q.z * (q.z * q.z)) = q.y * (p.z * (p.z * p.z)) ↔ y₁ = y₂ := by
    have hzz : p.z ^ 3 * q.z ^ 3 ≠ 0 := mul_ne_zero (pow_ne_zero 3 hpz) (pow_ne_zero 3 hqz)
    rw [hpy, hqy, ← mul_left_inj' hzz (a := y₁)]
    constructor <;> intro h <;> linear_combination h
  rw [add, if_neg hpz, if_neg hqz]
  simp only [hu, hs]
  split_ifs with hx hy
  · subst hx hy
    exact represents_dbl h2 (P := .some x₁ y₁ hP) ⟨hpz, hpx, hpy⟩
  · have hneg : y₁ = (curve b).negY x₂ y₂ :=
      (Y_eq_of_X_eq hP.1 hQ.1 hx).resolve_left hy
    rw [Point.add_of_Y_eq hx hneg]
    exact represents_infinity
  · have hsub : x₁ - x₂ ≠ 0 := sub_ne_zero.mpr hx
    refine add_of_x_ne hx ?_ ?_ ?_
    · have hprod : -(2 * (p.z ^ 3 * q.z ^ 3) * (x₁ - x₂)) ≠ 0 :=
        neg_ne_zero.mpr (mul_ne_zero (mul_ne_zero h2
          (mul_ne_zero (pow_ne_zero 3 hpz) (pow_ne_zero 3 hqz))) hsub)
      simp only [hpx, hqx]
      convert hprod using 1
      ring
    · simp only [hpx, hqx, hpy, hqy]
      field_simp
      ring
    · simp only [hpx, hqx, hpy, hqy]
      field_simp
      ring

theorem represents_addAffine (h2 : (2 : F) ≠ 0) (hb : b ≠ 0) (hp : p.Represents P) {q : F × F}
    (hq : AffineRepresents q Q) : (p.addAffine q).Represents (P + Q) := by
  rcases Q with _ | ⟨x₂, y₂, hQ⟩
  · obtain rfl : q = (0, 0) := hq
    rw [addAffine, if_pos ⟨rfl, rfl⟩]
    exact (add_zero P).symm ▸ hp
  obtain rfl : q = (x₂, y₂) := hq
  -- The origin is not on the curve, so that it can stand for infinity.
  have hq0 : ¬(x₂ = 0 ∧ y₂ = 0) := by
    rintro ⟨rfl, rfl⟩
    have heq := equation_iff.mp hQ.1
    exact hb (by linear_combination -heq)
  rw [addAffine, if_neg hq0]
  rcases P with _ | ⟨x₁, y₁, hP⟩
  · have hz : p.z = 0 := hp
    rw [if_pos hz]
    exact ⟨one_ne_zero, by simp, by simp⟩
  obtain ⟨hpz, hpx, hpy⟩ := hp
  have hu : p.x = x₂ * (p.z * p.z) ↔ x₁ = x₂ := by
    rw [hpx, ← mul_left_inj' (pow_ne_zero 2 hpz) (a := x₁)]
    constructor <;> intro h <;> linear_combination h
  have hs : p.y = y₂ * (p.z * (p.z * p.z)) ↔ y₁ = y₂ := by
    rw [hpy, ← mul_left_inj' (pow_ne_zero 3 hpz) (a := y₁)]
    constructor <;> intro h <;> linear_combination h
  rw [if_neg hpz]
  simp only [hu, hs]
  split_ifs with hx hy
  · subst hx hy
    exact represents_dbl h2 (P := .some x₁ y₁ hP) ⟨hpz, hpx, hpy⟩
  · have hneg : y₁ = (curve b).negY x₂ y₂ :=
      (Y_eq_of_X_eq hP.1 hQ.1 hx).resolve_left hy
    rw [Point.add_of_Y_eq hx hneg]
    exact represents_infinity
  · have hsub : x₁ - x₂ ≠ 0 := sub_ne_zero.mpr hx
    refine add_of_x_ne hx ?_ ?_ ?_
    · have hprod : -(2 * p.z ^ 3 * (x₁ - x₂)) ≠ 0 :=
        neg_ne_zero.mpr (mul_ne_zero (mul_ne_zero h2 (pow_ne_zero 3 hpz)) hsub)
      simp only [hpx]
      convert hprod using 1
      ring
    · simp only [hpx, hpy]
      field_simp
      ring
    · simp only [hpx, hpy]
      field_simp
      ring

/-- Double-and-add over the bits of `e`, from the top down; `fuel` bounds their number. -/
def multiple (p : Triple F) : ℕ → ℕ → Triple F
  | 0, _ => infinity
  | fuel + 1, e =>
    let acc := (p.multiple fuel (e / 2)).dbl
    if e % 2 = 0 then acc else acc.add p

theorem represents_multiple (h2 : (2 : F) ≠ 0) (h : p.Represents P) (fuel : ℕ) {e : ℕ}
    (he : e < 2 ^ fuel) : (p.multiple fuel e).Represents (e • P) := by
  induction fuel generalizing e with
  | zero =>
    rw [show e = 0 by simpa using he, zero_nsmul]
    exact represents_infinity
  | succ fuel ih =>
    have hacc : (p.multiple fuel (e / 2)).dbl.Represents ((2 * (e / 2)) • P) := by
      rw [mul_nsmul', two_nsmul]
      exact represents_dbl h2 (ih (by rw [pow_succ] at he; omega))
    rw [multiple]
    split_ifs with hpar
    · rwa [show 2 * (e / 2) = e by omega] at hacc
    · have hadd := represents_add h2 hacc h
      rwa [← succ_nsmul, show 2 * (e / 2) + 1 = e by omega] at hadd

end Triple
end ShortWeierstrass
