import Mathlib.Data.Nat.ModEq
import Mathlib.Tactic.Ring
import Mathlib.Tactic.Linarith
import Mathlib.Tactic.LinearCombination
import Mathlib.Tactic.IntervalCases

/-! Little-endian limbs in base `2 ^ 32` with 64-bit accumulators: carry and borrow chains,
conditional subtraction, and the interleaved (CIOS) Montgomery product, for any limb count
and any modulus. -/

namespace Radix

def base : ℕ := 2 ^ 32

def value : List UInt32 → ℕ
  | [] => 0
  | x :: xs => x.toNat + base * value xs

theorem value_lt (xs : List UInt32) : value xs < base ^ xs.length := by
  induction xs with
  | nil => simp [value]
  | cons x xs ih =>
    have hx : x.toNat < base := x.toNat_lt
    calc value (x :: xs) < base + base * value xs := by simp only [value]; omega
      _ = base * (value xs + 1) := by ring
      _ ≤ base * base ^ xs.length := Nat.mul_le_mul_left _ ih
      _ = base ^ (x :: xs).length := by rw [List.length_cons, pow_succ']

theorem value_append (xs ys : List UInt32) :
    value (xs ++ ys) = value xs + base ^ xs.length * value ys := by
  induction xs with
  | nil => simp [value]
  | cons x xs ih => simp only [List.cons_append, value, ih, List.length_cons, pow_succ']; ring

theorem value_inj {xs ys : List UInt32} (hlen : xs.length = ys.length)
    (h : value xs = value ys) : xs = ys := by
  induction xs generalizing ys with
  | nil => exact (List.length_eq_zero_iff.mp hlen.symm).symm
  | cons x xs ih =>
    cases ys with
    | nil => simp at hlen
    | cons y ys =>
      have hx : x.toNat < base := x.toNat_lt
      have hy : y.toNat < base := y.toNat_lt
      simp only [value, base] at h hx hy
      have hxy : x.toNat = y.toNat := by omega
      have hv : value xs = value ys := by omega
      rw [UInt32.toNat_inj.mp hxy, ih (by simpa using hlen) hv]

/-! ### 64-bit accumulators -/

/-- The word an accumulator stores. -/
def lo (s : UInt64) : UInt32 := s.toUInt32

/-- The word an accumulator carries. -/
def hi (s : UInt64) : UInt32 := (s >>> 32).toUInt32

theorem toNat_hi (s : UInt64) : (hi s).toNat = s.toNat / base := by
  have h := s.toNat_lt
  simp only [hi, base, UInt64.toNat_toUInt32, UInt64.toNat_shiftRight, Nat.shiftRight_eq_div_pow,
    UInt64.toNat_ofNat]
  norm_num
  omega

theorem lo_add_hi (s : UInt64) : (lo s).toNat + base * (hi s).toNat = s.toNat := by
  rw [toNat_hi, lo, UInt64.toNat_toUInt32]
  exact Nat.mod_add_div _ _

/-- `a * b + t + c` fits the accumulator for any four words. -/
theorem toNat_mulAdd (a b t c : UInt32) :
    (a.toUInt64 * b.toUInt64 + t.toUInt64 + c.toUInt64).toNat =
      a.toNat * b.toNat + t.toNat + c.toNat := by
  have ha := a.toNat_lt
  have hb := b.toNat_lt
  have ht := t.toNat_lt
  have hc := c.toNat_lt
  have hab : a.toNat * b.toNat ≤ (2 ^ 32 - 1) * (2 ^ 32 - 1) :=
    Nat.mul_le_mul (by omega) (by omega)
  simp only [UInt64.toNat_add, UInt64.toNat_mul, UInt32.toNat_toUInt64]
  omega

theorem toNat_mulAdd' (a b t : UInt32) :
    (a.toUInt64 * b.toUInt64 + t.toUInt64).toNat = a.toNat * b.toNat + t.toNat := by
  simpa using toNat_mulAdd a b t 0

theorem toNat_add3 (a b c : UInt32) :
    (a.toUInt64 + b.toUInt64 + c.toUInt64).toNat = a.toNat + b.toNat + c.toNat := by
  simpa using toNat_mulAdd a 1 b c

theorem toNat_add2 (a b : UInt32) :
    (a.toUInt64 + b.toUInt64).toNat = a.toNat + b.toNat := by
  simpa using toNat_add3 a b 0

/-! ### Carry and borrow chains -/

/-- Limbwise addition, carrying upward; returns the last carry. -/
def addLoop : List UInt32 → List UInt32 → UInt32 → List UInt32 × UInt32
  | a :: as, b :: bs, carry =>
    let s := a.toUInt64 + b.toUInt64 + carry.toUInt64
    let rest := addLoop as bs (hi s)
    (lo s :: rest.1, rest.2)
  | _, _, carry => ([], carry)

/-- Limbwise subtraction, borrowing upward; returns the last borrow. -/
def subLoop : List UInt32 → List UInt32 → UInt32 → List UInt32 × UInt32
  | a :: as, b :: bs, borrow =>
    let d := a.toUInt64 - b.toUInt64 - borrow.toUInt64
    let rest := subLoop as bs (((d >>> 32) &&& 1).toUInt32)
    (lo d :: rest.1, rest.2)
  | _, _, borrow => ([], borrow)

theorem length_addLoop {as bs : List UInt32} (h : as.length = bs.length) (c : UInt32) :
    (addLoop as bs c).1.length = as.length := by
  induction as generalizing bs c with
  | nil => simp [addLoop]
  | cons a as ih =>
    cases bs with
    | nil => simp at h
    | cons b bs => simp only [addLoop, List.length_cons, ih (by simpa using h)]

theorem length_subLoop {as bs : List UInt32} (h : as.length = bs.length) (c : UInt32) :
    (subLoop as bs c).1.length = as.length := by
  induction as generalizing bs c with
  | nil => simp [subLoop]
  | cons a as ih =>
    cases bs with
    | nil => simp at h
    | cons b bs => simp only [subLoop, List.length_cons, ih (by simpa using h)]

theorem addLoop_value {as bs : List UInt32} (h : as.length = bs.length) (c : UInt32) :
    value (addLoop as bs c).1 + base ^ as.length * (addLoop as bs c).2.toNat =
      value as + value bs + c.toNat := by
  induction as generalizing bs c with
  | nil =>
    cases bs with
    | nil => simp [addLoop, value]
    | cons b bs => simp at h
  | cons a as ih =>
    cases bs with
    | nil => simp at h
    | cons b bs =>
      have hs := lo_add_hi (a.toUInt64 + b.toUInt64 + c.toUInt64)
      have hrec := ih (show as.length = bs.length by simpa using h)
        (hi (a.toUInt64 + b.toUInt64 + c.toUInt64))
      rw [toNat_add3] at hs
      simp only [addLoop, value, List.length_cons, pow_succ'] at hrec ⊢
      linear_combination hs + base * hrec

/-- One borrow step: the stored word and the new borrow account for the difference. -/
theorem borrow_step (a b c : UInt32) (hc : c.toNat ≤ 1) :
    let d := a.toUInt64 - b.toUInt64 - c.toUInt64
    (lo d).toNat + b.toNat + c.toNat =
        a.toNat + base * (((d >>> 32) &&& 1).toUInt32).toNat ∧
      (((d >>> 32) &&& 1).toUInt32).toNat ≤ 1 := by
  have ha := a.toNat_lt
  have hb := b.toNat_lt
  have hd : (a.toUInt64 - b.toUInt64 - c.toUInt64).toNat =
      if b.toNat + c.toNat ≤ a.toNat then a.toNat - b.toNat - c.toNat
      else 2 ^ 64 + a.toNat - b.toNat - c.toNat := by
    simp only [UInt64.toNat_sub, UInt32.toNat_toUInt64]
    split <;> omega
  have hbit : ((((a.toUInt64 - b.toUInt64 - c.toUInt64) >>> 32) &&& 1).toUInt32).toNat =
      (a.toUInt64 - b.toUInt64 - c.toUInt64).toNat / 2 ^ 32 % 2 := by
    simp only [UInt64.toNat_toUInt32, UInt64.toNat_and, UInt64.toNat_shiftRight,
      Nat.shiftRight_eq_div_pow, UInt64.toNat_ofNat, Nat.reducePow, Nat.reduceMod]
    rw [Nat.and_one_is_mod]
    omega
  have hlo : (lo (a.toUInt64 - b.toUInt64 - c.toUInt64)).toNat =
      (a.toUInt64 - b.toUInt64 - c.toUInt64).toNat % 2 ^ 32 := by
    simp only [lo, UInt64.toNat_toUInt32]
  intro d
  rw [hbit, hlo, hd]
  simp only [base]
  split <;> omega

theorem subLoop_value {as bs : List UInt32} (h : as.length = bs.length) (c : UInt32)
    (hc : c.toNat ≤ 1) :
    value (subLoop as bs c).1 + value bs + c.toNat =
        value as + base ^ as.length * (subLoop as bs c).2.toNat ∧
      (subLoop as bs c).2.toNat ≤ 1 := by
  induction as generalizing bs c with
  | nil =>
    cases bs with
    | nil => simpa [subLoop, value] using hc
    | cons b bs => simp at h
  | cons a as ih =>
    cases bs with
    | nil => simp at h
    | cons b bs =>
      obtain ⟨hstep, hbit⟩ := borrow_step a b c hc
      obtain ⟨hval, hle⟩ := ih (show as.length = bs.length by simpa using h) _ hbit
      refine ⟨?_, hle⟩
      simp only [subLoop, value, List.length_cons, pow_succ'] at hval ⊢
      linear_combination hstep + base * hval

/-- Without an incoming borrow, the outgoing one compares the operands. -/
theorem subLoop_borrow_iff {as bs : List UInt32} (h : as.length = bs.length) :
    (subLoop as bs 0).2 ≠ 0 ↔ value as < value bs := by
  obtain ⟨hval, hle⟩ := subLoop_value h 0 (by simp)
  have hlt := value_lt (subLoop as bs 0).1
  have has := value_lt as
  have hbs := value_lt bs
  rw [length_subLoop h] at hlt
  rw [← h] at hbs
  have hz : (subLoop as bs 0).2 ≠ 0 ↔ (subLoop as bs 0).2.toNat = 1 := by
    rw [ne_eq, ← UInt32.toNat_inj, UInt32.toNat_zero]
    omega
  rw [hz]
  generalize (subLoop as bs 0).2.toNat = k at *
  simp only [UInt32.toNat_zero, add_zero] at hval
  interval_cases k <;> simp only [mul_zero, mul_one, add_zero] at hval <;> omega

/-! ### Comparisons -/

/-- Or of all limbs, the accumulated zero test. -/
def orAll (xs : List UInt32) : UInt32 := xs.foldl (· ||| ·) 0

/-- Or of the limbwise differences, the accumulated equality test. -/
def xorAll (xs ys : List UInt32) : UInt32 := orAll (List.zipWith (· ^^^ ·) xs ys)

/-- Scans from the top limb down: at the first limb that differs, whether the left is less. -/
def scanTop : List UInt32 → List UInt32 → Option Bool
  | a :: as, b :: bs =>
    match scanTop as bs with
    | some r => some r
    | none => if a ≠ b then some (decide (a < b)) else none
  | _, _ => none

theorem foldl_or_eq_zero (xs : List UInt32) (acc : UInt32) :
    xs.foldl (· ||| ·) acc = 0 ↔ acc = 0 ∧ ∀ x ∈ xs, x = 0 := by
  induction xs generalizing acc with
  | nil => simp
  | cons x xs ih =>
    simp only [List.foldl_cons, ih, UInt32.or_eq_zero_iff, List.mem_cons, forall_eq_or_imp,
      and_assoc]

theorem value_eq_zero (xs : List UInt32) : value xs = 0 ↔ ∀ x ∈ xs, x = 0 := by
  induction xs with
  | nil => simp [value]
  | cons x xs ih =>
    rw [List.forall_mem_cons, ← ih, value, ← UInt32.toNat_inj, UInt32.toNat_zero]
    simp only [base]
    omega

theorem orAll_eq_zero (xs : List UInt32) : orAll xs = 0 ↔ value xs = 0 := by
  rw [orAll, foldl_or_eq_zero, value_eq_zero]
  simp only [true_and]

theorem xorAll_eq_zero {xs ys : List UInt32} (h : xs.length = ys.length) :
    xorAll xs ys = 0 ↔ xs = ys := by
  rw [xorAll, orAll, foldl_or_eq_zero]
  simp only [true_and]
  induction xs generalizing ys with
  | nil => simpa using (List.length_eq_zero_iff.mp h.symm)
  | cons x xs ih =>
    cases ys with
    | nil => simp at h
    | cons y ys =>
      simp only [List.zipWith_cons_cons, List.mem_cons, forall_eq_or_imp,
        ih (by simpa using h), List.cons.injEq, UInt32.xor_eq_zero_iff]

theorem scanTop_eq {as bs : List UInt32} (h : as.length = bs.length) :
    scanTop as bs = if value as = value bs then none else some (decide (value as < value bs)) := by
  induction as generalizing bs with
  | nil =>
    cases bs with
    | nil => simp [scanTop]
    | cons b bs => simp at h
  | cons a as ih =>
    cases bs with
    | nil => simp at h
    | cons b bs =>
      have ha : a.toNat < base := a.toNat_lt
      have hb : b.toNat < base := b.toNat_lt
      have hva : value (a :: as) = a.toNat + 2 ^ 32 * value as := rfl
      have hvb : value (b :: bs) = b.toNat + 2 ^ 32 * value bs := rfl
      rw [scanTop, ih (by simpa using h)]
      simp only [base] at ha hb
      by_cases hv : value as = value bs
      · by_cases hab : a = b
        · subst hab
          have heq : value (a :: as) = value (a :: bs) := by rw [hva, hvb, hv]
          simp [hv, heq]
        · have hne : value (a :: as) ≠ value (b :: bs) := by
            have := mt UInt32.toNat_inj.mp hab
            omega
          have hlt : value (a :: as) < value (b :: bs) ↔ a < b := by
            rw [UInt32.lt_iff_toNat_lt]
            omega
          simp [hv, hab, hne, hlt]
      · have hne : value (a :: as) ≠ value (b :: bs) := by omega
        have hlt : value (a :: as) < value (b :: bs) ↔ value as < value bs := by omega
        simp [hv, hne, hlt]

theorem scanTop_getD {as bs : List UInt32} (h : as.length = bs.length) :
    (scanTop as bs).getD false = decide (value as < value bs) := by
  rw [scanTop_eq h]
  split_ifs with heq
  · simp [heq]
  · rfl

/-! ### Modular sums and differences -/

/-- Keeps `t` when subtracting the modulus borrowed, else the difference. -/
def select (borrow : UInt32) (t s : List UInt32) : List UInt32 := if borrow ≠ 0 then t else s

def addMod (p as bs : List UInt32) : List UInt32 :=
  let t := (addLoop as bs 0).1
  let s := subLoop t p 0
  select s.2 t s.1

def subMod (p as bs : List UInt32) : List UInt32 :=
  let t := subLoop as bs 0
  let mask : UInt32 := if t.2 ≠ 0 then 0xffffffff else 0
  (addLoop t.1 (p.map (· &&& mask)) 0).1

theorem length_addMod {p as bs : List UInt32} (ha : as.length = p.length)
    (hb : bs.length = p.length) : (addMod p as bs).length = p.length := by
  have ht : (addLoop as bs 0).1.length = p.length := (length_addLoop (ha.trans hb.symm) 0).trans ha
  unfold addMod select
  dsimp only
  split_ifs
  · exact ht
  · exact (length_subLoop ht 0).trans ht

theorem length_subMod {p as bs : List UInt32} (ha : as.length = p.length)
    (hb : bs.length = p.length) : (subMod p as bs).length = p.length := by
  have ht : (subLoop as bs 0).1.length = p.length := (length_subLoop (ha.trans hb.symm) 0).trans ha
  unfold subMod
  dsimp only
  rw [length_addLoop (by rw [ht, List.length_map]), ht]

theorem select_value {p t : List UInt32} (h : t.length = p.length)
    (ht : value t < 2 * value p) :
    value (select (subLoop t p 0).2 t (subLoop t p 0).1) = value t % value p := by
  have hiff := subLoop_borrow_iff h
  obtain ⟨hval, hle⟩ := subLoop_value h 0 (by simp)
  unfold select
  split_ifs with hb
  · exact (Nat.mod_eq_of_lt (hiff.mp hb)).symm
  · have hge : value p ≤ value t := not_lt.mp (mt hiff.mpr hb)
    rw [not_not] at hb
    rw [hb] at hval
    simp only [UInt32.toNat_zero, mul_zero, add_zero] at hval
    rw [Nat.mod_eq_sub_mod hge, Nat.mod_eq_of_lt (by omega)]
    omega

theorem addMod_value {p as bs : List UInt32} (ha : as.length = p.length)
    (hb : bs.length = p.length) (hp : 2 * value p ≤ base ^ p.length)
    (has : value as < value p) (hbs : value bs < value p) :
    value (addMod p as bs) = (value as + value bs) % value p := by
  have hlen := length_addLoop (ha.trans hb.symm) 0
  have hval := addLoop_value (ha.trans hb.symm) 0
  simp only [UInt32.toNat_zero, add_zero, ha] at hval
  have hc : (addLoop as bs 0).2.toNat = 0 := by
    by_contra hne
    have := Nat.le_mul_of_pos_right (base ^ p.length) (Nat.pos_of_ne_zero hne)
    omega
  rw [hc, mul_zero, add_zero] at hval
  rw [addMod, select_value (hlen.trans ha) (by omega), hval]

theorem map_and_mask (p : List UInt32) : p.map (· &&& 0xffffffff) = p := by
  have hmask : ∀ x : UInt32, x &&& 0xffffffff = x := fun x => UInt32.and_neg_one (a := x)
  simp [hmask]

theorem value_map_and_zero (p : List UInt32) : value (p.map (· &&& 0)) = 0 := by
  rw [value_eq_zero]
  simp

theorem subMod_value {p as bs : List UInt32} (ha : as.length = p.length)
    (hb : bs.length = p.length) (has : value as < value p) (hbs : value bs < value p) :
    value (subMod p as bs) = (value as + (value p - value bs)) % value p := by
  have hab := ha.trans hb.symm
  have hiff := subLoop_borrow_iff hab
  obtain ⟨hval, hle⟩ := subLoop_value hab 0 (by simp)
  have hlen : (subLoop as bs 0).1.length = p.length := (length_subLoop hab 0).trans ha
  have hlt := value_lt (subMod p as bs)
  rw [length_subMod ha hb] at hlt
  simp only [UInt32.toNat_zero, add_zero, ha] at hval
  unfold subMod at hlt ⊢
  -- A borrow means that the difference wrapped, and adding the modulus wraps it back.
  by_cases hlt' : value as < value bs
  · have hne := hiff.mpr hlt'
    simp only [if_pos hne, map_and_mask] at hlt ⊢
    have hadd := addLoop_value hlen 0
    have hone : (subLoop as bs 0).2.toNat = 1 := by
      rw [ne_eq, ← UInt32.toNat_inj, UInt32.toNat_zero] at hne
      omega
    rw [hone, mul_one] at hval
    simp only [UInt32.toNat_zero, add_zero, hlen] at hadd
    have hcarry : (addLoop (subLoop as bs 0).1 p 0).2.toNat = 1 := by
      generalize (addLoop (subLoop as bs 0).1 p 0).2.toNat = k at *
      rcases Nat.lt_or_ge k 1 with hk | hk
      · have hk0 : k = 0 := by omega
        rw [hk0] at hadd
        omega
      · rcases Nat.lt_or_ge 1 k with hk' | hk'
        · have := Nat.mul_le_mul_left (base ^ p.length) hk'
          have hplt := value_lt p
          omega
        · omega
    rw [hcarry, mul_one] at hadd
    rw [Nat.mod_eq_of_lt (by omega)]
    omega
  · have heq : (subLoop as bs 0).2 = 0 := not_not.mp (mt hiff.mp hlt')
    rw [heq] at hval
    simp only [UInt32.toNat_zero, mul_zero, add_zero] at hval
    simp only [heq, ne_eq, not_true_eq_false, if_false] at hlt ⊢
    have hadd := addLoop_value
      (show (subLoop as bs 0).1.length = (p.map (· &&& 0)).length by rw [hlen, List.length_map]) 0
    have hsub := value_lt (subLoop as bs 0).1
    rw [hlen] at hsub
    simp only [value_map_and_zero, UInt32.toNat_zero, add_zero, hlen] at hadd
    have hcarry : (addLoop (subLoop as bs 0).1 (p.map (· &&& 0)) 0).2.toNat = 0 := by
      by_contra hne
      have := Nat.le_mul_of_pos_right (base ^ p.length) (Nat.pos_of_ne_zero hne)
      omega
    rw [hcarry, mul_zero, add_zero] at hadd
    rw [show value as + (value p - value bs) = (value as - value bs) + value p by omega,
      Nat.add_mod_right, Nat.mod_eq_of_lt (by omega)]
    omega

/-! ### Montgomery multiplication -/

/-- `ts + as * b`, word by word; returns the last carry. -/
def mulRow (b : UInt32) : List UInt32 → List UInt32 → UInt32 → List UInt32 × UInt32
  | a :: as, t :: ts, c =>
    let s := a.toUInt64 * b.toUInt64 + t.toUInt64 + c.toUInt64
    let rest := mulRow b as ts (hi s)
    (lo s :: rest.1, rest.2)
  | _, _, c => ([], c)

/-- One outer step of the interleaved product: add `as * b`, then add the multiple of the
modulus that clears the low word and shift down by it. The pair holds the low words and the
word above them. -/
def ciosStep (p : List UInt32) (n0 : UInt32) (as : List UInt32) (t : List UInt32 × UInt32)
    (b : UInt32) : List UInt32 × UInt32 :=
  let row := mulRow b as t.1 0
  let s := t.2.toUInt64 + row.2.toUInt64
  let m := row.1.headD 0 * n0
  let s0 := m.toUInt64 * (p.headD 0).toUInt64 + (row.1.headD 0).toUInt64
  let red := mulRow m p.tail row.1.tail (hi s0)
  let sn := (lo s).toUInt64 + red.2.toUInt64
  (red.1 ++ [lo sn], hi s + hi sn)

def cios (p : List UInt32) (n0 : UInt32) (as bs : List UInt32) : List UInt32 × UInt32 :=
  bs.foldl (ciosStep p n0 as) (List.replicate p.length 0, 0)

def montMul (p : List UInt32) (n0 : UInt32) (as bs : List UInt32) : List UInt32 :=
  let t := cios p n0 as bs
  let s := subLoop t.1 p 0
  let borrow : UInt32 := if t.2 < s.2 then 1 else 0
  select borrow t.1 s.1

theorem length_mulRow (b : UInt32) {as ts : List UInt32} (h : as.length = ts.length)
    (c : UInt32) : (mulRow b as ts c).1.length = as.length := by
  induction as generalizing ts c with
  | nil => simp [mulRow]
  | cons a as ih =>
    cases ts with
    | nil => simp at h
    | cons t ts => simp only [mulRow, List.length_cons, ih (by simpa using h)]

theorem mulRow_value (b : UInt32) {as ts : List UInt32} (h : as.length = ts.length)
    (c : UInt32) :
    value (mulRow b as ts c).1 + base ^ as.length * (mulRow b as ts c).2.toNat =
      value ts + value as * b.toNat + c.toNat := by
  induction as generalizing ts c with
  | nil =>
    cases ts with
    | nil => simp [mulRow, value]
    | cons t ts => simp at h
  | cons a as ih =>
    cases ts with
    | nil => simp at h
    | cons t ts =>
      have hs := lo_add_hi (a.toUInt64 * b.toUInt64 + t.toUInt64 + c.toUInt64)
      have hrec := ih (show as.length = ts.length by simpa using h)
        (hi (a.toUInt64 * b.toUInt64 + t.toUInt64 + c.toUInt64))
      rw [toNat_mulAdd] at hs
      simp only [mulRow, value, List.length_cons, pow_succ'] at hrec ⊢
      linear_combination hs + base * hrec

/-- A modulus with the word that clears its lowest one. -/
structure Modulus (p : List UInt32) (n0 : UInt32) : Prop where
  ne_nil : p ≠ []
  clears : (n0.toNat * value p + 1) % base = 0

/-- The multiplier of a reduction step clears the low word of the sum. -/
theorem Modulus.low_eq_zero {p : List UInt32} {n0 : UInt32} (hp : Modulus p n0) (t0 : UInt32) :
    lo ((t0 * n0).toUInt64 * (p.headD 0).toUInt64 + t0.toUInt64) = 0 := by
  obtain ⟨p0, ps, rfl⟩ := List.exists_cons_of_ne_nil hp.ne_nil
  have hc := hp.clears
  have hs := lo_add_hi ((t0 * n0).toUInt64 * p0.toUInt64 + t0.toUInt64)
  rw [toNat_mulAdd', UInt32.toNat_mul] at hs
  have hlt := (lo ((t0 * n0).toUInt64 * p0.toUInt64 + t0.toUInt64)).toNat_lt
  rw [List.headD_cons, ← UInt32.toNat_inj, UInt32.toNat_zero]
  generalize (lo ((t0 * n0).toUInt64 * p0.toUInt64 + t0.toUInt64)).toNat = l at *
  have hl : l ≡ 0 [MOD 2 ^ 32] := by
    have h1 : l ≡ t0.toNat * n0.toNat * p0.toNat + t0.toNat [MOD 2 ^ 32] := by
      calc l ≡ l + base * _ [MOD 2 ^ 32] := by
            simp [Nat.ModEq, base]
        _ = _ := hs
        _ ≡ t0.toNat * n0.toNat * p0.toNat + t0.toNat [MOD 2 ^ 32] :=
            Nat.ModEq.add_right _ (Nat.ModEq.mul_right _ (Nat.mod_modEq _ _))
    have h2 : n0.toNat * p0.toNat + 1 ≡ 0 [MOD 2 ^ 32] := by
      have : n0.toNat * value (p0 :: ps) + 1 =
          n0.toNat * p0.toNat + 1 + 2 ^ 32 * (n0.toNat * value ps) := by
        simp only [value, base]; ring
      rw [this] at hc
      simpa [Nat.ModEq, base] using hc
    calc l ≡ t0.toNat * (n0.toNat * p0.toNat + 1) [MOD 2 ^ 32] := by
          convert h1 using 1; ring
      _ ≡ t0.toNat * 0 [MOD 2 ^ 32] := Nat.ModEq.mul_left _ h2
      _ = 0 := by rw [mul_zero]
  exact Nat.ModEq.eq_of_lt_of_lt hl hlt (by norm_num)

/-- The number a running product stands for. -/
def total (n : ℕ) (t : List UInt32 × UInt32) : ℕ := value t.1 + base ^ n * t.2.toNat

theorem value_headD_tail (xs : List UInt32) :
    value xs = (xs.headD 0).toNat + base * value xs.tail := by
  cases xs <;> simp [value]

theorem length_ciosStep {p as : List UInt32} {n0 : UInt32} {t : List UInt32 × UInt32}
    (hp : Modulus p n0) (ha : as.length = p.length) (ht : t.1.length = p.length) (b : UInt32) :
    (ciosStep p n0 as t b).1.length = p.length := by
  have hpos : 0 < p.length := List.length_pos_iff.mpr hp.ne_nil
  have hrow := length_mulRow b (ha.trans ht.symm) 0
  simp only [ciosStep, List.length_append, List.length_singleton]
  rw [length_mulRow _ (by rw [List.length_tail, List.length_tail, hrow, ha]), List.length_tail]
  omega

/-- The step divides exactly: no carry is lost and no top word overflows. -/
theorem total_ciosStep {p as : List UInt32} {n0 : UInt32} {t : List UInt32 × UInt32}
    (hp : Modulus p n0) (ha : as.length = p.length) (ht : t.1.length = p.length) (b : UInt32) :
    ∃ m < base, total p.length (ciosStep p n0 as t b) * base =
      total p.length t + value as * b.toNat + value p * m := by
  obtain ⟨k, hk⟩ : ∃ k, p.length = k + 1 :=
    ⟨p.length - 1, by have := List.length_pos_iff.mpr hp.ne_nil; omega⟩
  have hlow := hp.low_eq_zero ((mulRow b as t.1 0).1.headD 0)
  have hrowlen := length_mulRow b (ha.trans ht.symm) 0
  have hrow := mulRow_value b (ha.trans ht.symm) 0
  simp only [total, ciosStep]
  generalize mulRow b as t.1 0 = row at *
  have htails : p.tail.length = row.1.tail.length := by
    rw [List.length_tail, List.length_tail, hrowlen, ha]
  set m := row.1.headD 0 * n0 with hm
  -- The low word of the reduced row is zero and falls away.
  have hs0 := lo_add_hi (m.toUInt64 * (p.headD 0).toUInt64 + (row.1.headD 0).toUInt64)
  rw [hlow, toNat_mulAdd', UInt32.toNat_zero, zero_add] at hs0
  generalize hi (m.toUInt64 * (p.headD 0).toUInt64 + (row.1.headD 0).toUInt64) = c0 at *
  have hred := mulRow_value m htails c0
  have hredlen := length_mulRow m htails c0
  generalize mulRow m p.tail row.1.tail c0 = red at *
  have hs := lo_add_hi (t.2.toUInt64 + row.2.toUInt64)
  have hsHi := toNat_hi (t.2.toUInt64 + row.2.toUInt64)
  rw [toNat_add2] at hs hsHi
  generalize hi (t.2.toUInt64 + row.2.toUInt64) = sh at *
  generalize lo (t.2.toUInt64 + row.2.toUInt64) = sl at *
  have hsn := lo_add_hi (sl.toUInt64 + red.2.toUInt64)
  have hsnHi := toNat_hi (sl.toUInt64 + red.2.toUInt64)
  rw [toNat_add2] at hsn hsnHi
  generalize hi (sl.toUInt64 + red.2.toUInt64) = nh at *
  generalize lo (sl.toUInt64 + red.2.toUInt64) = nl at *
  -- the top word adds two carries, each at most one
  have htop : (sh + nh).toNat = sh.toNat + nh.toNat := by
    have h1 := t.2.toNat_lt
    have h2 := row.2.toNat_lt
    have h3 := sl.toNat_lt
    have h4 := red.2.toNat_lt
    simp only [base] at hsHi hsnHi
    rw [UInt32.toNat_add]
    omega
  have hlens : red.1.length = k := by rw [hredlen, List.length_tail, hk]; rfl
  have hp' := value_headD_tail p
  have hr' := value_headD_tail row.1
  have hlast : value [nl] = nl.toNat := by simp [value]
  have htl : p.tail.length = k := by rw [List.length_tail, hk]; rfl
  rw [htl] at hred
  rw [ha, hk, pow_succ'] at hrow
  simp only [UInt32.toNat_zero, add_zero] at hrow
  refine ⟨m.toNat, m.toNat_lt, ?_⟩
  rw [value_append, hlens, hlast, htop, hk, pow_succ']
  linear_combination base * hred + hs0 + base * base ^ k * hsn + base * base ^ k * hs
    + hrow - m.toNat * hp' - hr'

theorem length_foldl_ciosStep {p as : List UInt32} {n0 : UInt32} (hp : Modulus p n0)
    (ha : as.length = p.length) (bs : List UInt32) {t : List UInt32 × UInt32}
    (ht : t.1.length = p.length) : (bs.foldl (ciosStep p n0 as) t).1.length = p.length := by
  induction bs generalizing t with
  | nil => exact ht
  | cons b bs ih => exact ih (length_ciosStep hp ha ht b)

theorem total_foldl_ciosStep {p as : List UInt32} {n0 : UInt32} (hp : Modulus p n0)
    (ha : as.length = p.length) (bs : List UInt32) {t : List UInt32 × UInt32}
    (ht : t.1.length = p.length) :
    ∃ m < base ^ bs.length, total p.length (bs.foldl (ciosStep p n0 as) t) * base ^ bs.length =
      total p.length t + value as * value bs + value p * m := by
  induction bs generalizing t with
  | nil => exact ⟨0, by simp, by simp [value]⟩
  | cons b bs ih =>
    obtain ⟨m, hm, hstep⟩ := total_ciosStep hp ha ht b
    obtain ⟨q, hq, hrest⟩ := ih (length_ciosStep hp ha ht b)
    refine ⟨m + base * q, ?_, ?_⟩
    · rw [List.length_cons, pow_succ']
      calc m + base * q < base + base * q := Nat.add_lt_add_right hm _
        _ = base * (q + 1) := by ring
        _ ≤ base * base ^ bs.length := Nat.mul_le_mul_left _ hq
    · rw [List.foldl_cons, List.length_cons, pow_succ', value]
      linear_combination base * hrest + hstep

/-- The interleaved product is exact up to a multiple of the modulus, for any two operands. -/
theorem total_cios {p as bs : List UInt32} {n0 : UInt32} (hp : Modulus p n0)
    (ha : as.length = p.length) (hb : bs.length = p.length) :
    ∃ m < base ^ p.length, total p.length (cios p n0 as bs) * base ^ p.length =
      value as * value bs + value p * m := by
  have hzero : value (List.replicate p.length 0) = 0 := by
    rw [value_eq_zero]
    intro x hx
    exact List.eq_of_mem_replicate hx
  obtain ⟨m, hm, h⟩ := total_foldl_ciosStep hp ha bs
    (t := (List.replicate p.length 0, 0)) (List.length_replicate)
  rw [hb] at hm h
  refine ⟨m, hm, h.trans ?_⟩
  simp [total, hzero]

theorem length_cios {p as bs : List UInt32} {n0 : UInt32} (hp : Modulus p n0)
    (ha : as.length = p.length) : (cios p n0 as bs).1.length = p.length :=
  length_foldl_ciosStep hp ha bs List.length_replicate

theorem length_montMul {p as bs : List UInt32} {n0 : UInt32} (hp : Modulus p n0)
    (ha : as.length = p.length) : (montMul p n0 as bs).length = p.length := by
  have hlen : (cios p n0 as bs).1.length = p.length := length_cios hp ha
  unfold montMul select
  dsimp only
  split_ifs
  all_goals first | exact hlen | exact (length_subLoop hlen 0).trans hlen

/-- The final borrow test keeps the running product exactly when it is below the modulus. -/
theorem total_select {p : List UInt32} {t : List UInt32 × UInt32} (ht : t.1.length = p.length)
    (hlt : total p.length t < 2 * value p) :
    value (select (if t.2 < (subLoop t.1 p 0).2 then 1 else 0) t.1 (subLoop t.1 p 0).1) =
      total p.length t % value p := by
  have hiff := subLoop_borrow_iff ht
  obtain ⟨hval, hle⟩ := subLoop_value ht 0 (by simp)
  have hp := value_lt p
  have hslt := value_lt (subLoop t.1 p 0).1
  rw [length_subLoop ht, ht] at hslt
  rw [ht] at hval
  simp only [total, UInt32.toNat_zero, add_zero] at *
  -- With a top word the value is not below the modulus, and the difference borrows.
  rcases Nat.eq_zero_or_pos t.2.toNat with h0 | h0
  · have h0' : t.2 = 0 := UInt32.toNat_inj.mp h0
    rw [h0, mul_zero, add_zero, ← select_value ht (by omega), h0']
    have hb : ((0 : UInt32) < (subLoop t.1 p 0).2) ↔ (subLoop t.1 p 0).2 ≠ 0 := by
      rw [UInt32.lt_iff_toNat_lt, ne_eq, ← UInt32.toNat_inj, UInt32.toNat_zero]
      omega
    simp only [select, hb]
    split_ifs <;> simp_all
  · have hge := Nat.le_mul_of_pos_right (base ^ p.length) h0
    have hnot : ¬ t.2 < (subLoop t.1 p 0).2 := by
      rw [UInt32.lt_iff_toNat_lt]
      omega
    have hone : t.2.toNat = 1 := by
      by_contra hne
      have := Nat.mul_le_mul_left (base ^ p.length) (show 2 ≤ t.2.toNat by omega)
      omega
    have hb : (subLoop t.1 p 0).2.toNat = 1 := by
      by_contra hne
      have hz : (subLoop t.1 p 0).2.toNat = 0 := by omega
      rw [hz] at hval
      rw [hone] at hlt
      omega
    rw [hb] at hval
    rw [hone] at hlt ⊢
    rw [if_neg hnot, select, if_neg (by simp), Nat.mod_eq_sub_mod (by omega),
      Nat.mod_eq_of_lt (by omega)]
    omega

/-- The running product ends below twice the modulus. -/
theorem total_cios_lt {p as bs : List UInt32} {n0 : UInt32} (hp : Modulus p n0)
    (ha : as.length = p.length) (hb : bs.length = p.length)
    (hlt : value as * value bs < base ^ p.length * value p) :
    total p.length (cios p n0 as bs) < 2 * value p := by
  obtain ⟨m, hm, htot⟩ := total_cios hp ha hb
  have hppos : 0 < value p := Nat.pos_of_mul_pos_left (Nat.zero_lt_of_lt hlt)
  have hmp : value p * m < value p * base ^ p.length := Nat.mul_lt_mul_of_pos_left hm hppos
  refine Nat.lt_of_mul_lt_mul_right (a := base ^ p.length) ?_
  linarith [mul_comm (value p) (base ^ p.length)]

/-- The product stays reduced as soon as `as * bs` is below the radix times the modulus, which
one reduced operand guarantees. -/
theorem montMul_value {p as bs : List UInt32} {n0 : UInt32} (hp : Modulus p n0)
    (ha : as.length = p.length) (hb : bs.length = p.length)
    (hlt : value as * value bs < base ^ p.length * value p) :
    value (montMul p n0 as bs) < value p ∧
      value (montMul p n0 as bs) * base ^ p.length ≡ value as * value bs [MOD value p] := by
  obtain ⟨m, -, htot⟩ := total_cios hp ha hb
  have hppos : 0 < value p := Nat.pos_of_mul_pos_left (Nat.zero_lt_of_lt hlt)
  have hval : value (montMul p n0 as bs) = total p.length (cios p n0 as bs) % value p :=
    total_select (length_cios hp ha) (total_cios_lt hp ha hb hlt)
  rw [hval]
  refine ⟨Nat.mod_lt _ hppos, ?_⟩
  calc total p.length (cios p n0 as bs) % value p * base ^ p.length
      ≡ total p.length (cios p n0 as bs) * base ^ p.length [MOD value p] :=
        (Nat.mod_modEq _ _).mul_right _
    _ = value as * value bs + value p * m := htot
    _ ≡ value as * value bs [MOD value p] := by simp [Nat.ModEq]

/-! ### The accumulators of a product -/

/-- The sums a row forms, each next to the number it should be. -/
def mulRowSums (b : UInt32) : List UInt32 → List UInt32 → UInt32 → List (UInt64 × ℕ)
  | a :: as, t :: ts, c =>
    let s := a.toUInt64 * b.toUInt64 + t.toUInt64 + c.toUInt64
    (s, a.toNat * b.toNat + t.toNat + c.toNat) :: mulRowSums b as ts (hi s)
  | _, _, _ => []

/-- The sums of one outer step, in the order they are formed. -/
def ciosSums (p : List UInt32) (n0 : UInt32) (as : List UInt32) (t : List UInt32 × UInt32)
    (b : UInt32) : List (UInt64 × ℕ) :=
  let row := mulRow b as t.1 0
  let s := t.2.toUInt64 + row.2.toUInt64
  let m := row.1.headD 0 * n0
  let s0 := m.toUInt64 * (p.headD 0).toUInt64 + (row.1.headD 0).toUInt64
  let red := mulRow m p.tail row.1.tail (hi s0)
  let sn := (lo s).toUInt64 + red.2.toUInt64
  mulRowSums b as t.1 0 ++
    (s, t.2.toNat + row.2.toNat) :: (s0, m.toNat * (p.headD 0).toNat + (row.1.headD 0).toNat) ::
      (mulRowSums m p.tail row.1.tail (hi s0) ++ [(sn, (lo s).toNat + red.2.toNat)])

/-- The two carries whose sum is the top word after the step. -/
def ciosCarries (p : List UInt32) (n0 : UInt32) (as : List UInt32) (t : List UInt32 × UInt32)
    (b : UInt32) : UInt32 × UInt32 :=
  let row := mulRow b as t.1 0
  let s := t.2.toUInt64 + row.2.toUInt64
  let m := row.1.headD 0 * n0
  let s0 := m.toUInt64 * (p.headD 0).toUInt64 + (row.1.headD 0).toUInt64
  let red := mulRow m p.tail row.1.tail (hi s0)
  let sn := (lo s).toUInt64 + red.2.toUInt64
  (hi s, hi sn)

theorem mulRow_eq_sums (b : UInt32) (as ts : List UInt32) (c : UInt32) :
    (mulRow b as ts c).1 = (mulRowSums b as ts c).map fun q => lo q.1 := by
  induction as generalizing ts c with
  | nil => rfl
  | cons a as ih =>
    cases ts with
    | nil => rfl
    | cons t ts => simp only [mulRow, mulRowSums, List.map_cons, ih]

theorem mulRowSums_exact (b : UInt32) (as ts : List UInt32) (c : UInt32) :
    ∀ q ∈ mulRowSums b as ts c, q.1.toNat = q.2 := by
  induction as generalizing ts c with
  | nil => exact fun _ h => absurd h List.not_mem_nil
  | cons a as ih =>
    cases ts with
    | nil => exact fun _ h => absurd h List.not_mem_nil
    | cons t ts =>
      intro q hq
      rcases List.mem_cons.mp hq with rfl | hq
      · exact toNat_mulAdd a b t c
      · exact ih ts _ q hq

section Step
variable {p as : List UInt32} {n0 : UInt32} {t : List UInt32 × UInt32} {b : UInt32}

/-- No accumulator of a step overflows. -/
theorem ciosSums_exact : ∀ q ∈ ciosSums p n0 as t b, q.1.toNat = q.2 := by
  intro q hq
  unfold ciosSums at hq
  rcases List.mem_append.mp hq with hq | hq
  · exact mulRowSums_exact _ _ _ _ q hq
  rcases List.mem_cons.mp hq with rfl | hq
  · exact toNat_add2 _ _
  rcases List.mem_cons.mp hq with rfl | hq
  · exact toNat_mulAdd' _ _ _
  rcases List.mem_append.mp hq with hq | hq
  · exact mulRowSums_exact _ _ _ _ q hq
  · obtain rfl := List.mem_singleton.mp hq
    exact toNat_add2 _ _

theorem ciosStep_snd :
    (ciosStep p n0 as t b).2 = (ciosCarries p n0 as t b).1 + (ciosCarries p n0 as t b).2 := rfl

theorem toNat_hi_add2 (x y : UInt32) : (hi (x.toUInt64 + y.toUInt64)).toNat ≤ 1 := by
  rw [toNat_hi, toNat_add2]
  have hx := x.toNat_lt
  have hy := y.toNat_lt
  simp only [base]
  omega

theorem ciosCarries_exact : ((ciosCarries p n0 as t b).1 + (ciosCarries p n0 as t b).2).toNat =
    (ciosCarries p n0 as t b).1.toNat + (ciosCarries p n0 as t b).2.toNat := by
  have h₁ : (ciosCarries p n0 as t b).1.toNat ≤ 1 := toNat_hi_add2 _ _
  have h₂ : (ciosCarries p n0 as t b).2.toNat ≤ 1 := toNat_hi_add2 _ _
  rw [UInt32.toNat_add, Nat.mod_eq_of_lt (by omega)]

/-- The running product stays below the first operand plus the modulus. -/
theorem total_foldl_lt (hp : Modulus p n0) (ha : as.length = p.length) (bs : List UInt32) :
    total p.length (bs.foldl (ciosStep p n0 as) (List.replicate p.length 0, 0)) <
      value as + value p := by
  obtain ⟨m, hm, h⟩ := total_foldl_ciosStep hp ha bs
    (t := (List.replicate p.length 0, 0)) List.length_replicate
  have hzero : total p.length (List.replicate p.length 0, 0) = 0 := by
    have hvalue : value (List.replicate p.length 0) = 0 :=
      (value_eq_zero _).mpr fun x hx => List.eq_of_mem_replicate hx
    simp [total, hvalue]
  have hppos : 0 < value p := by
    rcases Nat.eq_zero_or_pos (value p) with h0 | hpos
    · have hc := hp.clears
      rw [h0, Nat.mul_zero] at hc
      exact absurd hc (by decide)
    · exact hpos
  refine Nat.lt_of_mul_lt_mul_right (a := base ^ bs.length) ?_
  rw [h, hzero, zero_add, Nat.add_mul]
  exact Nat.add_lt_add_of_le_of_lt (Nat.mul_le_mul_left _ (value_lt bs).le)
    (Nat.mul_lt_mul_of_pos_left hm hppos)

end Step

end Radix
