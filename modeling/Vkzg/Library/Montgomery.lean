import Vkzg.Library.Radix
import Mathlib.FieldTheory.Finite.Basic

/-! Residues in Montgomery form over fixed-size limbs. `Rep M a x` says that the limbs `a` are the
reduced representative of the residue `x`; every operation carries representatives to
representatives, and a representative is unique. -/

namespace Radix

/-- `n` limbs, least significant first. -/
structure Limbs (n : ℕ) where
  v : List UInt32
  size : v.length = n
deriving DecidableEq

namespace Limbs
variable {n : ℕ}

def toNat (a : Limbs n) : ℕ := value a.v

def get (a : Limbs n) (i : ℕ) : UInt32 := a.v.getD i 0

def ofFn (n : ℕ) (f : ℕ → UInt32) : Limbs n := ⟨(List.range n).map f, by simp⟩

theorem toNat_lt (a : Limbs n) : a.toNat < base ^ n := by
  have h := value_lt a.v
  rwa [a.size] at h

theorem toNat_inj {a b : Limbs n} (h : a.toNat = b.toNat) : a = b := by
  obtain ⟨v, hv⟩ := a
  obtain ⟨w, hw⟩ := b
  obtain rfl : v = w := value_inj (hv.trans hw.symm) h
  rfl

theorem ofFn_congr {f g : ℕ → UInt32} (h : ∀ i < n, f i = g i) : ofFn n f = ofFn n g := by
  simp only [ofFn, mk.injEq, List.map_inj_left, List.mem_range]
  exact h

theorem ofFn_get (a : Limbs n) : ofFn n a.get = a := by
  obtain ⟨v, hv⟩ := a
  subst hv
  simp only [ofFn, mk.injEq]
  refine List.ext_getElem (by simp) fun i h₁ h₂ => ?_
  simp [get, List.getD_eq_getElem?_getD, h₂]

/-- The limbs of a number, the low `n` of them. -/
def ofNat (n v : ℕ) : Limbs n := ofFn n fun i => UInt32.ofNat (v / base ^ i)

theorem value_map_range (n v : ℕ) :
    value ((List.range n).map fun i => UInt32.ofNat (v / base ^ i)) = v % base ^ n := by
  induction n generalizing v with
  | zero => simp [value, Nat.mod_one]
  | succ n ih =>
    rw [List.range_succ_eq_map, List.map_cons, List.map_map, value, pow_succ', Nat.mod_mul, ← ih]
    congr 3
    · simp [base]
    · refine List.map_congr_left fun i _ => ?_
      simp only [Function.comp_apply, pow_succ', Nat.div_div_eq_div_mul]

theorem toNat_ofNat (n v : ℕ) : (ofNat n v).toNat = v % base ^ n := value_map_range n v

end Limbs

/-- A modulus of `n` limbs with the word its reductions use. -/
structure Montgomery (n N : ℕ) where
  p : Limbs n
  n0 : UInt32
  modulus : Modulus p.v n0
  toNat_p : p.toNat = N
  room : 2 * N ≤ base ^ n
  odd : Nat.Coprime N 2

namespace Montgomery
variable {n N : ℕ} (M : Montgomery n N)

def add (a b : Limbs n) : Limbs n :=
  ⟨addMod M.p.v a.v b.v, by rw [length_addMod] <;> simp only [a.size, b.size, M.p.size]⟩

def sub (a b : Limbs n) : Limbs n :=
  ⟨subMod M.p.v a.v b.v, by rw [length_subMod] <;> simp only [a.size, b.size, M.p.size]⟩

def mul (a b : Limbs n) : Limbs n :=
  ⟨montMul M.p.v M.n0 a.v b.v, by rw [length_montMul M.modulus] <;> simp only [a.size, M.p.size]⟩

theorem modulus_pos (M : Montgomery n N) : 0 < N := by
  rcases Nat.eq_zero_or_pos N with h | h
  · have := M.odd
    simp [h] at this
  · exact h

/-- `a` is the reduced Montgomery form of `x`. -/
structure Rep (_M : Montgomery n N) (a : Limbs n) (x : ZMod N) : Prop where
  reduced : a.toNat < N
  cast : (a.toNat : ZMod N) = x * (base : ZMod N) ^ n

def encode (_M : Montgomery n N) (x : ZMod N) : Limbs n := Limbs.ofNat n (x * (base : ZMod N) ^ n).val

variable {M}

theorem isUnit_base (M : Montgomery n N) : IsUnit ((base : ZMod N) ^ n) := by
  have h : Nat.Coprime (base ^ n) N := by
    unfold base
    rw [← pow_mul]
    exact (Nat.Coprime.pow_right _ M.odd).symm
  have := (ZMod.isUnit_iff_coprime (base ^ n) N).mpr h
  simpa using this

theorem rep_encode (M : Montgomery n N) (x : ZMod N) : M.Rep (M.encode x) x := by
  have hpos := M.modulus_pos
  have : NeZero N := ⟨hpos.ne'⟩
  have hlt := ZMod.val_lt (x * (base : ZMod N) ^ n)
  have hroom := M.room
  have hnat : (M.encode x).toNat = (x * (base : ZMod N) ^ n).val := by
    rw [encode, Limbs.toNat_ofNat, Nat.mod_eq_of_lt (by omega)]
  exact ⟨by rw [hnat]; exact hlt, by rw [hnat, ZMod.natCast_val, ZMod.cast_id]⟩

theorem Rep.val_eq {a : Limbs n} {x : ZMod N} (h : M.Rep a x) :
    a.toNat = (x * (base : ZMod N) ^ n).val := by
  rw [← h.cast, ZMod.val_natCast, Nat.mod_eq_of_lt h.reduced]

theorem Rep.eq {a b : Limbs n} {x : ZMod N} (ha : M.Rep a x) (hb : M.Rep b x) : a = b :=
  Limbs.toNat_inj (ha.val_eq.trans hb.val_eq.symm)

theorem Rep.unique {a : Limbs n} {x y : ZMod N} (hx : M.Rep a x) (hy : M.Rep a y) : x = y :=
  (isUnit_base M).mul_right_cancel (hx.cast.symm.trans hy.cast)

theorem Rep.eq_iff {a b : Limbs n} {x y : ZMod N} (ha : M.Rep a x) (hb : M.Rep b y) :
    a = b ↔ x = y := by
  constructor
  · rintro rfl
    exact ha.unique hb
  · rintro rfl
    exact ha.eq hb

theorem exists_rep (M : Montgomery n N) {a : Limbs n} (ha : a.toNat < N) : ∃ x, M.Rep a x := by
  obtain ⟨u, hu⟩ := isUnit_base M
  refine ⟨a.toNat * (↑u⁻¹ : ZMod N), ha, ?_⟩
  rw [← hu, mul_assoc, Units.inv_mul, mul_one]

theorem Rep.toNat_eq_zero {a : Limbs n} {x : ZMod N} (h : M.Rep a x) : a.toNat = 0 ↔ x = 0 := by
  have hz : (a.toNat : ZMod N) = 0 ↔ a.toNat = 0 := by
    rw [ZMod.natCast_eq_zero_iff]
    exact ⟨fun hd => Nat.eq_zero_of_dvd_of_lt hd h.reduced, fun h0 => h0 ▸ dvd_zero N⟩
  rw [← hz, h.cast]
  exact (isUnit_base M).mul_left_eq_zero

theorem Rep.zero {a : Limbs n} (M : Montgomery n N) (h : a.toNat = 0) : M.Rep a 0 :=
  ⟨h ▸ M.modulus_pos, by rw [h, Nat.cast_zero, zero_mul]⟩

section Operations
variable {a b : Limbs n} {x y : ZMod N}

theorem lengths (M : Montgomery n N) (a : Limbs n) : a.v.length = M.p.v.length :=
  a.size.trans M.p.size.symm

theorem toNat_add (M : Montgomery n N) (ha : a.toNat < N) (hb : b.toNat < N) :
    (M.add a b).toNat = (a.toNat + b.toNat) % N := by
  have hp : value M.p.v = N := M.toNat_p
  have hval := addMod_value (p := M.p.v) (lengths M a) (lengths M b)
    (by rw [hp, M.p.size]; exact M.room) (hp.symm ▸ ha) (hp.symm ▸ hb)
  rwa [hp] at hval

theorem toNat_sub (M : Montgomery n N) (ha : a.toNat < N) (hb : b.toNat < N) :
    (M.sub a b).toNat = (a.toNat + (N - b.toNat)) % N := by
  have hp : value M.p.v = N := M.toNat_p
  have hval := subMod_value (p := M.p.v) (lengths M a) (lengths M b)
    (hp.symm ▸ ha) (hp.symm ▸ hb)
  rwa [hp] at hval

theorem Rep.add (ha : M.Rep a x) (hb : M.Rep b y) : M.Rep (M.add a b) (x + y) := by
  have hval := toNat_add M ha.reduced hb.reduced
  refine ⟨hval ▸ Nat.mod_lt _ M.modulus_pos, ?_⟩
  rw [hval, ZMod.natCast_mod, Nat.cast_add, ha.cast, hb.cast, add_mul]

theorem Rep.sub (ha : M.Rep a x) (hb : M.Rep b y) : M.Rep (M.sub a b) (x - y) := by
  have hval := toNat_sub M ha.reduced hb.reduced
  refine ⟨hval ▸ Nat.mod_lt _ M.modulus_pos, ?_⟩
  rw [hval, ZMod.natCast_mod, Nat.cast_add, Nat.cast_sub hb.reduced.le, ZMod.natCast_self,
    zero_sub, ha.cast, hb.cast, sub_mul, sub_eq_add_neg]

/-- The Montgomery product of any limbs with a reduced second operand. -/
theorem mul_spec (M : Montgomery n N) (a : Limbs n) (hb : b.toNat < N) :
    (M.mul a b).toNat < N ∧
      ((M.mul a b).toNat : ZMod N) * (base : ZMod N) ^ n = a.toNat * b.toNat := by
  have hp : value M.p.v = N := M.toNat_p
  have hlt : value a.v * value b.v < base ^ M.p.v.length * value M.p.v := by
    rw [hp, M.p.size]
    have ha := a.toNat_lt
    exact Nat.mul_lt_mul'' ha hb
  obtain ⟨hred, hmod⟩ := montMul_value M.modulus (lengths M a) (lengths M b) hlt
  rw [hp] at hred hmod
  refine ⟨hred, ?_⟩
  have := (ZMod.natCast_eq_natCast_iff _ _ _).mpr hmod
  rw [M.p.size] at this
  push_cast at this
  exact this

theorem mul_cast [Fact N.Prime] (M : Montgomery n N) (a : Limbs n) (hb : b.toNat < N) :
    ((M.mul a b).toNat : ZMod N) = a.toNat * b.toNat * ((base : ZMod N) ^ n)⁻¹ := by
  rw [← (mul_spec M a hb).2, mul_inv_cancel_right₀ (isUnit_base M).ne_zero]

theorem Rep.mul (ha : M.Rep a x) (hb : M.Rep b y) : M.Rep (M.mul a b) (x * y) := by
  obtain ⟨hred, hmul⟩ := mul_spec M a hb.reduced
  refine ⟨hred, (isUnit_base M).mul_right_cancel ?_⟩
  rw [hmul, ha.cast, hb.cast]
  ring

theorem Rep.mul_one_toNat (ha : M.Rep a x) (hb : b.toNat = 1) (hN : 1 < N) :
    (M.mul a b).toNat = x.val := by
  obtain ⟨hred, hmul⟩ := mul_spec M a (b := b) (by omega)
  rw [hb, Nat.cast_one, mul_one, ha.cast] at hmul
  have hx := (isUnit_base M).mul_right_cancel hmul
  rw [← hx, ZMod.val_natCast, Nat.mod_eq_of_lt hred]

theorem rep_mul_square (M : Montgomery n N) (a : Limbs n) (hb : b.toNat < N)
    (hsq : (b.toNat : ZMod N) = (base : ZMod N) ^ n * (base : ZMod N) ^ n) :
    M.Rep (M.mul a b) (a.toNat : ZMod N) := by
  obtain ⟨hred, hmul⟩ := mul_spec M a hb
  refine ⟨hred, (isUnit_base M).mul_right_cancel ?_⟩
  rw [hmul, hsq, mul_assoc]

end Operations

/-! ### Carries -/

section Carries
variable (M : Montgomery n N)

def running (a b : Limbs n) (i : ℕ) : List UInt32 × UInt32 :=
  (b.v.take i).foldl (ciosStep M.p.v M.n0 a.v) (List.replicate M.p.v.length 0, 0)

/-- Every sum a multiplication forms is the number it should be, and so is every top word. -/
structure NoOverflow (a b : Limbs n) : Prop where
  sums : ∀ i < n, ∀ q ∈ ciosSums M.p.v M.n0 a.v (M.running a b i) (b.get i), q.1.toNat = q.2
  top : ∀ i < n, let c := ciosCarries M.p.v M.n0 a.v (M.running a b i) (b.get i)
    (M.running a b (i + 1)).2.toNat = c.1.toNat + c.2.toNat
  bound : ∀ i ≤ n, total n (M.running a b i) < a.toNat + N
  result : b.toNat < N → total n (M.running a b n) < 2 * N

theorem running_succ (a b : Limbs n) {i : ℕ} (hi : i < n) :
    M.running a b (i + 1) = ciosStep M.p.v M.n0 a.v (M.running a b i) (b.get i) := by
  have hlen : i < b.v.length := b.size.symm ▸ hi
  rw [running, List.take_succ_eq_append_getElem hlen, List.foldl_append, List.foldl_cons,
    List.foldl_nil, Limbs.get, List.getD_eq_getElem?_getD, List.getElem?_eq_getElem hlen,
    Option.getD_some]
  rfl

/-- What the last conditional subtraction starts from. -/
theorem running_self (a b : Limbs n) : M.running a b n = cios M.p.v M.n0 a.v b.v := by
  rw [running, List.take_of_length_le b.size.le, cios]

theorem noOverflow (a b : Limbs n) : M.NoOverflow a b where
  sums _ _ := ciosSums_exact
  top i hi := by
    rw [M.running_succ a b hi, ciosStep_snd]
    exact ciosCarries_exact
  bound i _ := by
    have h := total_foldl_lt M.modulus (lengths M a) (b.v.take i)
    have hp : value M.p.v = N := M.toNat_p
    rw [hp, M.p.size] at h
    rw [running, M.p.size]
    exact h
  result hb := by
    have hp : value M.p.v = N := M.toNat_p
    have h := total_cios_lt M.modulus (lengths M a) (lengths M b)
      (by rw [hp, M.p.size]; exact Nat.mul_lt_mul'' a.toNat_lt hb)
    rw [hp, M.p.size] at h
    rwa [running_self]

end Carries

/-! ### Exponentiation -/

/-- One bit of square-and-multiply; the flag says whether a set bit was met. -/
def powStep (mul : Limbs n → Limbs n → Limbs n) (a : Limbs n) (st : Limbs n × Bool) (bit : Bool) :
    Limbs n × Bool :=
  let acc := if st.2 then mul st.1 st.1 else st.1
  if bit then (if st.2 then mul acc a else a, true) else (acc, st.2)

/-- The bits of a word, most significant first. -/
def limbBits (w : UInt32) : List Bool :=
  (List.range 32).reverse.map fun b => decide (w >>> UInt32.ofNat b &&& 1 ≠ 0)

/-- The bits of limbs, most significant first. -/
def bitsOf (e : Limbs n) : List Bool :=
  (List.range n).reverse.flatMap fun i => limbBits (e.get i)

def powLoop (mul : Limbs n → Limbs n → Limbs n) (e a : Limbs n) : Limbs n :=
  ((bitsOf e).foldl (powStep mul a) (a, false)).1

/-- The number a bit list spells, most significant first. -/
def bitsValue (bits : List Bool) : ℕ := bits.foldl (fun v b => 2 * v + b.toNat) 0

theorem bitsValue_append (xs ys : List Bool) :
    bitsValue (xs ++ ys) = bitsValue xs * 2 ^ ys.length + bitsValue ys := by
  have key : ∀ (ys : List Bool) (v : ℕ),
      ys.foldl (fun v b => 2 * v + b.toNat) v = v * 2 ^ ys.length + bitsValue ys := by
    intro ys
    induction ys with
    | nil => simp [bitsValue]
    | cons y ys ih =>
      intro v
      rw [bitsValue, List.foldl_cons, List.foldl_cons, ih, ih (2 * 0 + y.toNat), List.length_cons]
      ring
  rw [bitsValue, List.foldl_append, key]
  rfl

theorem bitsValue_testBit (m k : ℕ) :
    bitsValue ((List.range k).reverse.map m.testBit) = m % 2 ^ k := by
  induction k with
  | zero => simp [bitsValue, Nat.mod_one]
  | succ k ih =>
    rw [List.range_succ, List.reverse_append, List.map_append, bitsValue_append, ih, pow_succ,
      Nat.mod_mul, ← Nat.toNat_testBit]
    simp [bitsValue, mul_comm, add_comm]

theorem bitsValue_limbBits (w : UInt32) : bitsValue (limbBits w) = w.toNat := by
  have hbits : limbBits w = (List.range 32).reverse.map w.toNat.testBit := by
    refine List.map_congr_left fun b hb => ?_
    have hb' : (UInt32.ofNat b).toNat % 32 = b := by
      rw [UInt32.toNat_ofNat', Nat.mod_mod_of_dvd _ (by decide), Nat.mod_eq_of_lt (by simpa using hb)]
    rw [Nat.testBit, Nat.and_comm, Bool.eq_iff_iff, decide_eq_true_iff, bne_iff_ne, Ne, Ne,
      ← UInt32.toNat_inj, UInt32.toNat_and, UInt32.toNat_shiftRight, hb']
    rfl
  rw [hbits, bitsValue_testBit, Nat.mod_eq_of_lt w.toNat_lt]

theorem bitsValue_bitsOf (e : Limbs n) : bitsValue (bitsOf e) = e.toNat := by
  have key : ∀ k, bitsValue ((List.range k).reverse.flatMap fun i => limbBits (e.get i)) =
      value ((List.range k).map e.get) := by
    intro k
    induction k with
    | zero => rfl
    | succ k ih =>
      have hlen : ((List.range k).reverse.flatMap fun i => limbBits (e.get i)).length = 32 * k := by
        simp [List.length_flatMap, limbBits, mul_comm]
      rw [List.range_succ, List.reverse_append, List.reverse_singleton, List.flatMap_append,
        List.flatMap_singleton, bitsValue_append, ih, bitsValue_limbBits, hlen, List.map_append,
        value_append, List.length_map, List.length_range, pow_mul]
      simp [value, base, mul_comm, add_comm]
  have h := key n
  rwa [show value ((List.range n).map e.get) = (Limbs.ofFn n e.get).toNat from rfl,
    Limbs.ofFn_get] at h

theorem bitsValue_eq_zero {bits : List Bool} : bitsValue bits = 0 ↔ true ∉ bits := by
  induction bits with
  | nil => simp [bitsValue]
  | cons b bits ih =>
    have hsplit := bitsValue_append [b] bits
    rw [List.singleton_append] at hsplit
    have hpow : 2 ^ bits.length ≠ 0 := pow_ne_zero _ two_ne_zero
    cases b with
    | false =>
      rw [hsplit, show bitsValue [false] = 0 from rfl, Nat.zero_mul, Nat.zero_add, ih]
      simp
    | true =>
      rw [hsplit, show bitsValue [true] = 1 from rfl]
      simp

theorem toNat_ne_zero_of_bit {e : Limbs n} {i b : ℕ} (hi : i < n) (hb : b < 32)
    (h : e.get i >>> UInt32.ofNat b &&& 1 ≠ 0) : e.toNat ≠ 0 := by
  rw [← bitsValue_bitsOf, Ne, bitsValue_eq_zero, not_not]
  refine List.mem_flatMap.mpr ⟨i, List.mem_reverse.mpr (List.mem_range.mpr hi), ?_⟩
  exact List.mem_map.mpr ⟨b, List.mem_reverse.mpr (List.mem_range.mpr hb), decide_eq_true h⟩

/-- What the loop carries after bits that spell `v`: nothing yet while they are all clear, and then
the power. -/
def PowHolds (M : Montgomery n N) (a : Limbs n) (x : ZMod N) (v : ℕ) (st : Limbs n × Bool) : Prop :=
  (v = 0 ∧ st = (a, false)) ∨ (0 < v ∧ st.2 = true ∧ M.Rep st.1 (x ^ v))

theorem powStep_spec {a : Limbs n} {x : ZMod N} (ha : M.Rep a x) {st : Limbs n × Bool} {v : ℕ}
    (hst : PowHolds M a x v st) (bit : Bool) :
    PowHolds M a x (2 * v + bit.toNat) (powStep M.mul a st bit) := by
  rcases hst with ⟨rfl, rfl⟩ | ⟨hv, hs, hrep⟩
  · cases bit with
    | false => exact .inl ⟨rfl, rfl⟩
    | true => exact .inr ⟨by simp, rfl, by simpa [powStep] using ha⟩
  · have hsq := hrep.mul hrep
    rw [← pow_add, ← two_mul] at hsq
    cases bit with
    | false => exact .inr ⟨by simpa using hv, by simp [powStep, hs], by simpa [powStep, hs] using hsq⟩
    | true =>
      have hmul := hsq.mul ha
      rw [← pow_succ] at hmul
      exact .inr ⟨by simp, by simp [powStep], by simpa [powStep, hs] using hmul⟩

/-- The loop at every position, across words: the bits read so far are the exponent reached. -/
theorem powSteps_spec {a : Limbs n} {x : ZMod N} (ha : M.Rep a x) (bits : List Bool) :
    PowHolds M a x (bitsValue bits) (bits.foldl (powStep M.mul a) (a, false)) := by
  have key : ∀ (bits : List Bool) (st : Limbs n × Bool) (v : ℕ), PowHolds M a x v st →
      PowHolds M a x (bits.foldl (fun v b => 2 * v + b.toNat) v)
        (bits.foldl (powStep M.mul a) st) := by
    intro bits
    induction bits with
    | nil => exact fun st v h => h
    | cons b bits ih => exact fun st v h => ih _ _ (powStep_spec ha h b)
  exact key bits (a, false) 0 (.inl ⟨rfl, rfl⟩)

theorem powLoop_rep {e a : Limbs n} {x : ZMod N} (ha : M.Rep a x) (he : e.toNat ≠ 0) :
    M.Rep (powLoop M.mul e a) (x ^ e.toNat) := by
  rcases powSteps_spec ha (bitsOf e) with ⟨h, -⟩ | ⟨-, -, h⟩
  · exact absurd (h.symm.trans (bitsValue_bitsOf e)) he.symm
  · rwa [bitsValue_bitsOf] at h

theorem powLoop_inv [Fact N.Prime] {e a : Limbs n} {x : ZMod N} (ha : M.Rep a x)
    (he : e.toNat + 2 = N) (hN : 2 < N) : M.Rep (powLoop M.mul e a) x⁻¹ := by
  have hne : e.toNat ≠ 0 := by omega
  have h := powLoop_rep ha hne
  suffices x ^ e.toNat = x⁻¹ by rwa [this] at h
  rcases eq_or_ne x 0 with rfl | hx
  · rw [zero_pow hne, inv_zero]
  · refine eq_inv_of_mul_eq_one_left ?_
    rw [← pow_succ, show e.toNat + 1 = N - 1 by omega]
    exact ZMod.pow_card_sub_one_eq_one hx

end Montgomery

end Radix
