import Mathlib.NumberTheory.LucasPrimality

/-! Lucas primality certificates: a base and the prime factors of `p - 1`, checked by modular
exponentiation on naturals. -/

namespace Lucas

/-- `b ^ e % m` by repeated squaring; `fuel` bounds the number of bits of `e`. -/
def powMod (m : ℕ) : ℕ → ℕ → ℕ → ℕ
  | 0, _, _ => 1 % m
  | fuel + 1, b, e =>
    let h := powMod m fuel (b * b % m) (e / 2)
    if e % 2 = 0 then h else b * h % m

theorem powMod_eq (m : ℕ) {fuel b e : ℕ} (he : e < 2 ^ fuel) :
    powMod m fuel b e = b ^ e % m := by
  induction fuel generalizing b e with
  | zero => simp [powMod, show e = 0 by simpa using he]
  | succ fuel ih =>
    have hsq : (b * b % m) ^ (e / 2) % m = b ^ (2 * (e / 2)) % m := by
      rw [← Nat.pow_mod, ← pow_two, ← pow_mul]
    rw [powMod, ih (by rw [pow_succ] at he; omega), hsq]
    split_ifs with hpar
    · rw [show 2 * (e / 2) = e by omega]
    · rw [Nat.mul_mod_mod, ← pow_succ', show 2 * (e / 2) + 1 = e by omega]

/-- The exponent bound every certificate here stays under. -/
def fuel : ℕ := 400

theorem cast_powMod {p b e : ℕ} (he : e < 2 ^ fuel) :
    ((powMod p fuel b e : ℕ) : ZMod p) = (b : ZMod p) ^ e := by
  rw [powMod_eq p he, ZMod.natCast_mod, Nat.cast_pow]

/-- A base claimed to have order `p - 1` modulo `p`, and the factors of `p - 1`. -/
structure Certificate where
  p : ℕ
  a : ℕ
  factors : List ℕ

def Certificate.check (c : Certificate) : Bool :=
  decide (1 < c.p) && decide (c.p < 2 ^ fuel) && c.factors.prod == c.p - 1 &&
    powMod c.p fuel c.a (c.p - 1) == 1 &&
    c.factors.all fun q => powMod c.p fuel c.a ((c.p - 1) / q) != 1

theorem Certificate.prime {c : Certificate} (hf : ∀ q ∈ c.factors, q.Prime)
    (h : c.check = true) : c.p.Prime := by
  simp only [check, Bool.and_eq_true, beq_iff_eq, List.all_eq_true, bne_iff_ne,
    decide_eq_true_eq] at h
  obtain ⟨⟨⟨⟨hp, hlt⟩, hprod⟩, hone⟩, hne⟩ := h
  refine lucas_primality c.p c.a ?_ fun q hq hdvd => ?_
  · rw [← cast_powMod (by omega), hone, Nat.cast_one]
  · have hmem : q ∈ c.factors := by
      rw [← hprod] at hdvd
      obtain ⟨f, hfm, hqf⟩ := (Prime.dvd_prod_iff hq.prime).mp hdvd
      rwa [(Nat.prime_dvd_prime_iff_eq hq (hf f hfm)).mp hqf]
    have he : (c.p - 1) / q < 2 ^ fuel := lt_of_le_of_lt (Nat.div_le_self _ _) (by omega)
    intro hpow
    apply hne q hmem
    have hcast : ((powMod c.p fuel c.a ((c.p - 1) / q) : ℕ) : ZMod c.p) = (1 : ℕ) := by
      rw [cast_powMod he, hpow, Nat.cast_one]
    rw [ZMod.natCast_eq_natCast_iff', Nat.mod_eq_of_lt hp, powMod_eq c.p he, Nat.mod_mod] at hcast
    rw [powMod_eq c.p he, hcast]

/-- A chain of certificates: each uses known primes and those certified before it. -/
def checkChain (known : List ℕ) : List Certificate → Bool
  | [] => true
  | c :: cs => c.check && c.factors.all known.contains && checkChain (c.p :: known) cs

theorem prime_of_checkChain {known : List ℕ} {cs : List Certificate}
    (hk : ∀ q ∈ known, q.Prime) (h : checkChain known cs = true) : ∀ c ∈ cs, c.p.Prime := by
  induction cs generalizing known with
  | nil => simp
  | cons c cs ih =>
    simp only [checkChain, Bool.and_eq_true, List.all_eq_true, List.contains_iff_mem] at h
    obtain ⟨⟨hc, hmem⟩, hrest⟩ := h
    have hp : c.p.Prime := c.prime (fun q hq => hk q (hmem q hq)) hc
    exact List.forall_mem_cons.mpr
      ⟨hp, ih (List.forall_mem_cons.mpr ⟨hp, hk⟩) hrest⟩

end Lucas
