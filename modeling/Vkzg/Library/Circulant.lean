import Mathlib.Algebra.BigOperators.Intervals
import Mathlib.Data.ZMod.Basic
import Mathlib.Tactic.LinearCombination
import Mathlib.Tactic.Module

/-! Circulant products over modules, and their split along `X ^ (2 h) - 1 = (X ^ h - 1) (X ^ h + 1)`
into a cyclic and a negacyclic product of half the size. -/

namespace Circulant
open Finset

variable {R M : Type*} [CommRing R] [AddCommGroup M] [Module R M]

def product (n : ℕ) (K : ZMod n → R) (u : ℕ → M) (a : ℕ) : M :=
  ∑ j ∈ range n, K (a - j) • u j

/-- The entry a tap at distance `e` reaches back to from output `a`. -/
def source (h a e : ℕ) : ℕ := (a + h - e) % h

/-- The cyclic half: taps against sums of opposite entries. -/
def cyclic (h : ℕ) (tap : ℕ → R) (u : ℕ → M) (a : ℕ) : M :=
  ∑ e ∈ range h, tap e • (u (source h a e) + u (source h a e + h))

/-- The negacyclic half: taps against differences, negated where they wrap. -/
def negacyclic (h : ℕ) (tap : ℕ → R) (u : ℕ → M) (a : ℕ) : M :=
  ∑ e ∈ range h, tap e • (if e > a then -(u (source h a e) - u (source h a e + h))
    else u (source h a e) - u (source h a e + h))

variable {h a e : ℕ}

theorem source_lt (ha : a < h) : source h a e < h := Nat.mod_lt _ (by omega)

theorem source_eq (ha : a < h) (he : e < h) :
    source h a e = if e > a then a + h - e else a - e := by
  rw [source]
  split_ifs with hwrap
  · exact Nat.mod_eq_of_lt (by omega)
  · rw [show a + h - e = a - e + h by omega, Nat.add_mod_right, Nat.mod_eq_of_lt (by omega)]

theorem source_source (ha : a < h) (he : e < h) : source h a (source h a e) = e := by
  rw [source_eq ha (source_lt ha), source_eq ha he]
  split_ifs <;> omega

theorem sum_range_two_mul (h : ℕ) (f : ℕ → M) :
    ∑ j ∈ range (2 * h), f j = ∑ s ∈ range h, (f s + f (h + s)) := by
  rw [Nat.two_mul, sum_range_add, sum_add_distrib]

theorem sum_source (ha : a < h) (f : ℕ → M) :
    ∑ s ∈ range h, f s = ∑ e ∈ range h, f (source h a e) := by
  refine sum_nbij' (source h a) (source h a) ?_ ?_ ?_ ?_ ?_
  · exact fun s _ => mem_range.mpr (source_lt ha)
  · exact fun e _ => mem_range.mpr (source_lt ha)
  · exact fun s hs => source_source ha (mem_range.mp hs)
  · exact fun e he => source_source ha (mem_range.mp he)
  · exact fun s hs => by rw [source_source ha (mem_range.mp hs)]

section Split
variable {K : ZMod (2 * h) → R} {u : ℕ → M} {half : R}

theorem cast_half_add_half (h : ℕ) : (h : ZMod (2 * h)) + h = 0 := by
  have hzero := ZMod.natCast_self (2 * h)
  push_cast at hzero
  linear_combination hzero

theorem product_low (ha : a < h) : product (2 * h) K u a = ∑ e ∈ range h,
    if e > a then K (e + h) • u (source h a e) + K e • u (source h a e + h)
    else K e • u (source h a e) + K (e + h) • u (source h a e + h) := by
  rw [product, sum_range_two_mul, sum_source ha]
  refine sum_congr rfl fun e he => ?_
  have hhalf := cast_half_add_half h
  rw [mem_range] at he
  rw [source_eq ha he]
  split_ifs with hwrap
  · rw [Nat.cast_add h, Nat.cast_sub (by omega), Nat.cast_add,
      show (a : ZMod (2 * h)) - (a + h - e) = e + h by linear_combination -hhalf,
      show (a : ZMod (2 * h)) - (h + (a + h - e)) = e by linear_combination -hhalf, Nat.add_comm h]
  · rw [Nat.cast_add h, Nat.cast_sub (by omega),
      show (a : ZMod (2 * h)) - (a - e) = e by ring,
      show (a : ZMod (2 * h)) - (h + (a - e)) = e + h by linear_combination -hhalf, Nat.add_comm h]

theorem product_high (ha : a < h) : product (2 * h) K u (a + h) = ∑ e ∈ range h,
    if e > a then K e • u (source h a e) + K (e + h) • u (source h a e + h)
    else K (e + h) • u (source h a e) + K e • u (source h a e + h) := by
  have hhalf := cast_half_add_half h
  have hshift : product (2 * h) K u (a + h) = product (2 * h) (fun x => K (x + h)) u a := by
    refine sum_congr rfl fun j _ => ?_
    rw [Nat.cast_add, show (a : ZMod (2 * h)) + h - j = a - j + h by ring]
  rw [hshift, product_low ha]
  refine sum_congr rfl fun e _ => ?_
  rw [show (e : ZMod (2 * h)) + h + h = e by linear_combination hhalf]

theorem taps_eq (hhalf : half + half = 1) {plus minus x y : R} (hplus : plus = half * (x + y))
    (hminus : minus = half * (x - y)) : x = plus + minus ∧ y = plus - minus :=
  ⟨by linear_combination -x * hhalf - hplus - hminus,
    by linear_combination -y * hhalf - hplus + hminus⟩

/-- The two halves add up to the lower outputs and subtract to the upper ones. -/
theorem product_split {n : ℕ} (hn : n = 2 * h) {K : ZMod n → R} (ha : a < h)
    (hhalf : half + half = 1) {plus minus : ℕ → R}
    (hplus : ∀ e < h, plus e = half * (K e + K (e + h)))
    (hminus : ∀ e < h, minus e = half * (K e - K (e + h))) :
    product n K u a = cyclic h plus u a + negacyclic h minus u a ∧
      product n K u (a + h) = cyclic h plus u a - negacyclic h minus u a := by
  subst hn
  rw [product_low ha, product_high ha, cyclic, negacyclic, ← sum_add_distrib, ← sum_sub_distrib]
  refine ⟨sum_congr rfl fun e he => ?_, sum_congr rfl fun e he => ?_⟩
  all_goals
    obtain ⟨hx, hy⟩ := taps_eq hhalf (hplus e (mem_range.mp he)) (hminus e (mem_range.mp he))
    rw [hx, hy]
    split_ifs <;> module

end Split

/-! ### Integer taps -/

section Integer
variable {N : Type*} [AddCommGroup N] {h : ℕ}

/-- Integer taps act alike before and after an additive map, whatever ring they are read in. -/
theorem map_cyclic (f : M →+ N) (tap : ℕ → ℤ) (u : ℕ → M) (a : ℕ) :
    f (cyclic h (fun e => (tap e : R)) u a) = cyclic h tap (fun j => f (u j)) a := by
  simp only [cyclic, Int.cast_smul_eq_zsmul, map_sum, map_zsmul, map_add]

theorem map_negacyclic (f : M →+ N) (tap : ℕ → ℤ) (u : ℕ → M) (a : ℕ) :
    f (negacyclic h (fun e => (tap e : R)) u a) = negacyclic h tap (fun j => f (u j)) a := by
  simp only [negacyclic, Int.cast_smul_eq_zsmul, map_sum, map_zsmul, apply_ite f, map_neg, map_sub]

/-- The split of a product over a subgroup, with integer taps acting on the whole group. -/
theorem coe_product_split (H : AddSubgroup N) [Module R H] {n : ℕ} (hn : n = 2 * h) {K : ZMod n → R}
    {u : ℕ → H} {a : ℕ} (ha : a < h) {half : R} (hhalf : half + half = 1) (plus minus : ℕ → ℤ)
    (hplus : ∀ e < h, (plus e : R) = half * (K e + K (e + h)))
    (hminus : ∀ e < h, (minus e : R) = half * (K e - K (e + h))) :
    ((product n K u a : H) : N) =
        cyclic h plus (fun j => (u j : N)) a + negacyclic h minus (fun j => (u j : N)) a ∧
      ((product n K u (a + h) : H) : N) =
        cyclic h plus (fun j => (u j : N)) a - negacyclic h minus (fun j => (u j : N)) a := by
  have hsplit := product_split (u := u) hn ha hhalf hplus hminus
  have hcyc := map_cyclic (R := R) (h := h) H.subtype plus u a
  have hneg := map_negacyclic (R := R) (h := h) H.subtype minus u a
  simp only [AddSubgroup.subtype_apply] at hcyc hneg
  rw [hsplit.1, hsplit.2, AddSubgroup.coe_add, AddSubgroup.coe_sub, hcyc, hneg]
  exact ⟨rfl, rfl⟩

end Integer

end Circulant
