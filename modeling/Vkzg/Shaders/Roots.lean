import Vkzg.Shaders.Buffers
import Mathlib.RingTheory.RootsOfUnity.PrimitiveRoots

/-! The 8192-nd roots of unity of the scalar field, the coset shift 7, and a memory that holds given
scalars. -/

namespace Vkzg
open Radix Gpu Lucas

/-- The power of a small base to a bounded exponent, by evaluation. -/
theorem pow_eq_powMod {b e : ℕ} (he : e < 2 ^ fuel) :
    (b : ScalarField) ^ e = (powMod frModulus fuel b e : ℕ) := (cast_powMod he).symm

theorem seven_pow_facts : powMod frModulus fuel 7 ((frModulus - 1) / 2) + 1 = frModulus ∧
    powMod frModulus fuel 7 8192 ≠ 1 ∧ (frModulus - 1) / 2 < 2 ^ fuel ∧ 8192 < 2 ^ fuel ∧
    (frModulus - 1) / 8192 * 4096 = (frModulus - 1) / 2 := by decide +kernel

/-- A generator of the 8192-nd roots of unity. -/
def rootOfUnity : ScalarField := 7 ^ ((frModulus - 1) / 8192)

theorem isPrimitiveRoot_rootOfUnity : IsPrimitiveRoot rootOfUnity 8192 := by
  obtain ⟨hhalf, -, hlt, -, hdiv⟩ := seven_pow_facts
  have hneg : rootOfUnity ^ 4096 = -1 := by
    have hcast := pow_eq_powMod (b := 7) hlt
    have hmod : ((powMod frModulus fuel 7 ((frModulus - 1) / 2) : ℕ) : ScalarField) + 1 = 0 := by
      have hsum := congrArg (Nat.cast (R := ScalarField)) hhalf
      rwa [Nat.cast_add, Nat.cast_one, ZMod.natCast_self] at hsum
    rw [rootOfUnity, ← pow_mul, hdiv]
    push_cast at hcast
    rw [hcast]
    exact eq_neg_of_add_eq_zero_left hmod
  have hone : rootOfUnity ^ 2 ^ (12 + 1) = 1 := by
    rw [pow_succ, pow_mul, show 2 ^ 12 = 4096 by decide, hneg]
    ring
  have hne : rootOfUnity ^ 2 ^ 12 ≠ 1 := by
    rw [show 2 ^ 12 = 4096 by decide, hneg]
    intro h
    have h2 : (2 : ℕ) = (0 : ScalarField) := by
      push_cast
      linear_combination -h
    exact natCast_ne_zero_of_lt (by decide) two_lt_frModulus h2
  have horder := orderOf_eq_prime_pow (p := 2) hne hone
  rw [show 8192 = 2 ^ (12 + 1) by decide, ← horder]
  exact IsPrimitiveRoot.orderOf _

theorem seven_ne_zero : (7 : ScalarField) ≠ 0 := by
  exact_mod_cast natCast_ne_zero_of_lt (n := 7) (by decide) (by decide)

theorem seven_pow_ne_one : (7 : ScalarField) ^ 8192 ≠ 1 := by
  obtain ⟨-, hne, -, hlt, -⟩ := seven_pow_facts
  have hcast := pow_eq_powMod (b := 7) hlt
  push_cast at hcast
  rw [hcast]
  intro h
  have hp := prime_frModulus
  have hmod := (ZMod.natCast_eq_natCast_iff' _ 1 frModulus).mp (by rw [h, Nat.cast_one])
  rw [powMod_eq _ hlt, Nat.mod_mod, Nat.mod_eq_of_lt hp.one_lt] at hmod
  exact hne (by rw [powMod_eq _ hlt, hmod])

/-! ### A memory of scalars -/

/-- The memory whose buffers hold the Montgomery forms of `f`. -/
def scalarMem (f : Buf → ℕ → ScalarField) : Mem := fun b i =>
  byteOf (limbWords (frMont.encode (f b (i / 32))) (i % 32 / 4)) (i % 4)

theorem frRep_scalarMem (f : Buf → ℕ → ScalarField) (b : Buf) (i : ℕ) :
    FrRep (frAt (scalarMem f) b i) (f b i) := by
  have hlimbs : frAt (scalarMem f) b i = frMont.encode (f b i) := by
    refine limbsOf_eq fun k hk => ?_
    rw [← Nat.mod_eq_of_lt (limbWords_lt (frMont.encode (f b i)) k), ← bytesValue_byteOf]
    refine bytesValue_congr fun j hj => ?_
    have h1 : (4 * (i * 8 + k) + j) / 32 = i := by omega
    have h2 : (4 * (i * 8 + k) + j) % 32 / 4 = k := by omega
    have h3 : (4 * (i * 8 + k) + j) % 4 = j := by omega
    rw [scalarMem, h1, h2, h3]
  rw [hlimbs]
  exact Montgomery.rep_encode frMont _

end Vkzg
