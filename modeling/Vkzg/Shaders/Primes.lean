import Vkzg.Shaders.Field
import Mathlib.Tactic.NormNum.Prime

/-! Both moduli are prime. -/

namespace Vkzg
open Lucas

def smallPrimes : List ℕ :=
  [2, 3, 5, 7, 11, 13, 17, 19, 23, 31, 43, 47, 53, 89, 113, 151, 409, 467, 941, 3373, 7577, 8101,
   10177, 16447, 43591, 125527, 421987, 582767, 609743, 755057, 859267, 906349, 1686913, 2508409,
   2529403, 2653753]

theorem smallPrimes_prime : ∀ q ∈ smallPrimes, q.Prime := by
  unfold smallPrimes
  norm_num

/-- Lucas certificates up to the two moduli, each on factors certified before it. -/
def certificates : List Certificate :=
  [⟨63690073, 7, [2, 2, 2, 3, 2653753]⟩,
   ⟨254760293, 2, [2, 2, 63690073]⟩,
   ⟨52437899, 2, [2, 43, 609743]⟩,
   ⟨9272813673901, 2, [2, 2, 3, 5, 5, 7, 7577, 582767]⟩,
   ⟨1928745244171409, 3, [2, 2, 2, 2, 13, 9272813673901]⟩,
   ⟨7259797099061183477, 2, [2, 2, 941, 1928745244171409]⟩,
   ⟨2584487767265781317813, 2, [2, 2, 89, 7259797099061183477]⟩,
   ⟨927093389, 3, [2, 2, 13, 409, 43591]⟩,
   ⟨64881703735777, 5, [2, 2, 2, 2, 2, 3, 3, 3, 3, 3, 3, 3, 927093389]⟩,
   ⟨92691255082156974996979, 3, [2, 3, 31, 467, 16447, 64881703735777]⟩,
   ⟨13090036741, 10, [2, 2, 3, 5, 11, 47, 421987]⟩,
   ⟨3819663927398918131021, 6, [2, 2, 3, 3, 5, 19, 113, 755057, 13090036741]⟩,
   ⟨51376543, 3, [2, 3, 7, 151, 8101]⟩,
   ⟨43670061551, 7, [2, 5, 5, 17, 51376543]⟩,
   ⟨1125266252156850182658904441386709967, 5, [2, 3373, 43670061551, 3819663927398918131021]⟩,
   ⟨475709467, 2, [2, 3, 47, 1686913]⟩,
   ⟨15778400344354997994418419698270088123916926905054652752758194827714659, 2, [2, 3, 53,
     475709467, 92691255082156974996979, 1125266252156850182658904441386709967]⟩,
   ⟨fpModulus, 2, [2, 3, 3, 11, 23, 47, 10177, 859267, 52437899, 2584487767265781317813,
     15778400344354997994418419698270088123916926905054652752758194827714659]⟩,
   ⟨frModulus, 7, List.replicate 32 2 ++ [3, 11, 19, 10177, 125527, 859267, 906349, 906349,
     2508409, 2529403, 52437899, 254760293, 254760293]⟩]

theorem certificates_check : checkChain smallPrimes certificates = true := by decide +kernel

theorem prime_certificate (i : Fin certificates.length) : (certificates.get i).p.Prime :=
  prime_of_checkChain smallPrimes_prime certificates_check _ (List.get_mem certificates i)

theorem prime_fpModulus : Nat.Prime fpModulus := prime_certificate ⟨17, by decide⟩

theorem prime_frModulus : Nat.Prime frModulus := prime_certificate ⟨18, by decide⟩

instance : Fact (Nat.Prime fpModulus) := ⟨prime_fpModulus⟩

instance : Fact (Nat.Prime frModulus) := ⟨prime_frModulus⟩

end Vkzg
