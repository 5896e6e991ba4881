import Vkzg.Library.Memory
import Vkzg.Library.Montgomery

/-! Limbs and the bytes they are made of, in either byte order. -/

namespace Radix

/-- The number written by `n` bytes, most significant first. -/
def bigEndian (n : ℕ) (f : ℕ → UInt8) : ℕ := Gpu.bytesValue n fun k => f (n - 1 - k)

/-- Byte `k` of a number written in `n` bytes, most significant first. -/
def bigEndianByte (n v k : ℕ) : UInt8 := Gpu.byteOf v (n - 1 - k)

theorem bigEndian_congr {n : ℕ} {f g : ℕ → UInt8} (h : ∀ k < n, f k = g k) :
    bigEndian n f = bigEndian n g :=
  Gpu.bytesValue_congr fun k hk => h _ (by omega)

theorem bigEndianByte_bigEndian {n k : ℕ} (f : ℕ → UInt8) (hk : k < n) :
    bigEndianByte n (bigEndian n f) k = f k := by
  rw [bigEndianByte, bigEndian, Gpu.byteOf_bytesValue _ (by omega), Nat.sub_sub_self (by omega)]

theorem bigEndian_bigEndianByte (n v : ℕ) : bigEndian n (bigEndianByte n v) = v % 256 ^ n := by
  rw [← Gpu.bytesValue_byteOf]
  exact Gpu.bytesValue_congr fun k hk => by rw [bigEndianByte, Nat.sub_sub_self (by omega)]

namespace Limbs
open Gpu

variable {n : ℕ}

theorem value_div_base {x : UInt32} {xs : List UInt32} : value (x :: xs) / base = value xs := by
  have hx : x.toNat < base := x.toNat_lt
  rw [value, Nat.add_mul_div_left _ _ (by decide), Nat.div_eq_of_lt hx, Nat.zero_add]

theorem getD_value (xs : List UInt32) (i : ℕ) :
    (xs.getD i 0).toNat = value xs / base ^ i % base := by
  induction xs generalizing i with
  | nil => simp [value]
  | cons x xs ih =>
    cases i with
    | zero =>
      have hx : x.toNat < base := x.toNat_lt
      rw [List.getD_cons_zero, pow_zero, Nat.div_one, value, Nat.add_mul_mod_self_left,
        Nat.mod_eq_of_lt hx]
    | succ i => rw [List.getD_cons_succ, ih, pow_succ', ← Nat.div_div_eq_div_mul, value_div_base]

theorem get_toNat (a : Limbs n) (i : ℕ) : (a.get i).toNat = a.toNat / base ^ i % base :=
  getD_value a.v i

theorem get_byte (a : Limbs n) (k : ℕ) :
    (a.get (k / 4)).toNat >>> (k % 4 * 8) % 256 = a.toNat / 256 ^ k % 256 := by
  have hbase : base = 256 ^ 4 := by decide
  have hk : 256 ^ k = base ^ (k / 4) * 256 ^ (k % 4) := by
    rw [hbase, ← pow_mul, ← pow_add, Nat.div_add_mod]
  have hdvd : 256 ^ (k % 4) * 256 ∣ base := by
    rw [hbase, ← pow_succ]
    exact pow_dvd_pow 256 (Nat.mod_lt k (by decide))
  rw [get_toNat, Nat.shiftRight_eq_div_pow, Nat.mul_comm (k % 4), pow_mul,
    show 2 ^ 8 = 256 by decide, hk, ← Nat.div_div_eq_div_mul, ← Nat.mod_mul_right_div_self,
    ← Nat.mod_mul_right_div_self (_ / base ^ (k / 4)), Nat.mod_mod_of_dvd _ hdvd]

theorem value_map_bytes (n : ℕ) (f : ℕ → UInt8) :
    value ((List.range n).map fun i => UInt32.ofNat (bytesValue 4 fun k => f (4 * i + k))) =
      bytesValue (4 * n) f := by
  induction n generalizing f with
  | zero => rfl
  | succ n ih =>
    have hhead : (UInt32.ofNat (bytesValue 4 f)).toNat = bytesValue 4 f :=
      Nat.mod_eq_of_lt (bytesValue_lt 4 f)
    have htail : ∀ i, (bytesValue 4 fun k => f (4 * (i + 1) + k)) =
        bytesValue 4 fun k => f (4 * i + k + 4) := fun i => by
      congr 1
      funext k
      congr 1
      omega
    rw [List.range_succ_eq_map, List.map_cons, List.map_map, value]
    simp only [Function.comp_def, Nat.succ_eq_add_one, htail, Nat.mul_zero, Nat.zero_add]
    rw [ih fun k => f (k + 4), hhead, Nat.mul_succ, show base = 256 ^ 4 by decide]
    simp only [bytesValue]
    ring

theorem toNat_ofFn_bytes (n : ℕ) (f : ℕ → UInt8) :
    (ofFn n fun i => UInt32.ofNat (bytesValue 4 fun k => f (4 * i + k))).toNat =
      bytesValue (4 * n) f := value_map_bytes n f

theorem toNat_ofFn_bigEndian (n : ℕ) (f : ℕ → UInt8) :
    (ofFn n fun i => UInt32.ofNat (bigEndian 4 fun k => f ((n - 1 - i) * 4 + k))).toNat =
      bigEndian (4 * n) f := by
  rw [bigEndian, ← toNat_ofFn_bytes]
  refine congrArg Limbs.toNat (ofFn_congr fun i hi => congrArg UInt32.ofNat ?_)
  refine bytesValue_congr fun k hk => congrArg f ?_
  omega

/-- A shifted limb shows a byte of the number, counted from the most significant one. -/
theorem get_bigEndianByte (a : Limbs n) {k : ℕ} (hk : k < 4 * n) :
    UInt8.ofNat ((a.get (n - 1 - k / 4)).toNat >>> (24 - 8 * (k % 4))) =
      bigEndianByte (4 * n) a.toNat k := by
  have hlimb : n - 1 - k / 4 = (4 * n - 1 - k) / 4 := by omega
  have hbyte : 24 - 8 * (k % 4) = (4 * n - 1 - k) % 4 * 8 := by omega
  rw [← UInt8.toNat_inj, bigEndianByte, byteOf, UInt8.toNat_ofNat', UInt8.toNat_ofNat', hlimb, hbyte]
  exact get_byte a (4 * n - 1 - k)

end Limbs

end Radix
