import Vkzg.Host.Compute
import Vkzg.Shaders.Generator

/-! The two phases of a computation on exact indices: the multi-scalar sums of phase A and the
circulant product of phase B, over whatever the device leaves open. -/

namespace Vkzg
open Radix Gpu Gpu.Kernel

section Phases
variable {m : Mem} {batch gpuTotalCores : ℕ} {u : ℕ → ℕ} {sg : ℕ → ℕ → Subgroup}

/-- Phase A computes the multi-scalar sum of every output, whatever the order of the atomic
additions in both passes of the sort; so does the affine point not depend on that order. -/
theorem phaseA_correct {s : ℕ → ℕ → ℕ → ScalarField} (hs : ScalarsHold m batch s)
    {P : ℕ → ℕ → Point} (hT : TableHolds m fun j i d => 2 ^ (8 * d) • P j i)
    (hteams : WholeTeams gpuTotalCores circulantSize batch sg) (hu : ExactIndices u batch)
    (hist scat hist' scat' : ℕ → ℕ → AtomicOrder) (out : Buf) {b j : ℕ} (hb : b < batch)
    (hj : j < circulantSize) :
    G1Rep (g1At (runAll (phaseA hist scat gpuTotalCores sg out batch) u m) out
        (b * circulantSize + j))
      (∑ i ∈ Finset.range phaseATerms, (s b j i).val • P j i) ∧
    g1Affine (g1At (runAll (phaseA hist' scat' gpuTotalCores sg out batch) u m) out
        (b * circulantSize + j)) =
      g1Affine (g1At (runAll (phaseA hist scat gpuTotalCores sg out batch) u m) out
        (b * circulantSize + j)) := by
  have hout : ∀ b < batch, BlobWords (fun _ => True) u out (b * 4608) 4608 b := fun b hb k hk =>
    ⟨hu.below (by decide) _ (block_lt hb hk), trivial⟩
  have hexact : ∀ hist scat : ℕ → ℕ → AtomicOrder,
      runAll (phaseA hist scat gpuTotalCores sg out batch) u m =
        runAll (phaseA hist scat gpuTotalCores sg out batch) id m := fun hist scat =>
    (withinAll_phaseA (computeWords_true hu) hout m).runAll
  have hrep := phaseA_rep hist scat out hs hT hteams hb hj
  have hrep' := phaseA_rep hist' scat' out hs hT hteams hb hj
  rw [hexact, hexact]
  refine ⟨?_, g1Affine_eq hrep' hrep⟩
  simpa only [sum_digit_smul] using hrep

/-- Unit scalars and a table of one point, in the largest batch with 32-bit indices. -/
theorem phaseA_correct_phaseASample :
    G1Rep (g1At (runAll (phaseA (fun _ _ => inTurn) (fun _ _ => inReverse) 10
        (fun _ _ => ⟨32, fun _ _ => g1Identity⟩) .points 7281) uint32 phaseASample) .points
        (7280 * circulantSize + 5))
      (∑ _i ∈ Finset.range phaseATerms, (1 : ScalarField).val • zeroTwo) :=
  (phaseA_correct (scalarsHold_phaseASample 7281) (P := fun _ _ => zeroTwo) tableHolds_phaseASample
    (wholeTeams_of_dvd (fun _ _ => by decide) fun _ _ => by decide) (exactIndices_uint32 le_rfl)
    (fun _ _ => inTurn) (fun _ _ => inReverse) (fun _ _ => inReverse) (fun _ _ => inTurn) .points
    (b := 7280) (j := 5) (by decide) (by decide)).1

/-- Phase B computes the circulant product of `K` with any points of scalar order. -/
theorem phaseB_correct {K : ZMod circulantSize → ScalarField} (hK : Encodes m K)
    (hteams : WholeTeams gpuTotalCores circulantSize batch sg) (hu : ExactIndices u batch)
    {U : ℕ → ℕ → Point} (horder : ∀ b < batch, ∀ j < circulantSize, frModulus • U b j = 0)
    (hU : ∀ b < batch, ∀ j < circulantSize,
      G1Rep (g1At m .points (b * circulantSize + j)) (U b j))
    {b a : ℕ} (hb : b < batch) (ha : a < circulantSize) :
    G1Rep (g1At (runAll (phaseB gpuTotalCores sg batch) u m) .proofs (b * circulantSize + a))
      (∑ j ∈ Finset.range circulantSize, (K (a - j)).val • U b j) := by
  have hexact : runAll (phaseB gpuTotalCores sg batch) u m =
      runAll (phaseB gpuTotalCores sg batch) id m :=
    (withinAll_phaseB (computeWords_true hu) (scratchWords_true hu (by decide))
      (listsHold_true hu hK.plusWf hK.minusWf)).runAll
  let U' : ℕ → ℕ → ScalarPoint := fun b j =>
    if h : frModulus • U b j = 0 then ⟨U b j, mem_scalarPoint h⟩ else 0
  have hU' : ∀ b < batch, ∀ j < circulantSize, (U' b j : Point) = U b j := fun b hb j hj => by
    simp only [U', dif_pos (horder b hb j hj)]
  have hrep := phaseB_product hK hteams (u := U') (fun b hb j hj => by
    rw [hU' b hb j hj]
    exact hU b hb j hj) hb ha
  have hsum : ((Circulant.product circulantSize K (U' b) a : ScalarPoint) : Point) =
      ∑ j ∈ Finset.range circulantSize, (K (a - j)).val • U b j := by
    rw [Circulant.product, AddSubgroup.val_finsetSum]
    refine Finset.sum_congr rfl fun j hj => ?_
    rw [coe_smul_scalarPoint, hU' b hb j (Finset.mem_range.mp hj)]
  rw [hexact]
  rwa [hsum] at hrep

end Phases

/-- The generator with `z = 1`. -/
def generatorG1 : G1 := ⟨fpMont.encode generatorX, fpMont.encode generatorY, fpOne⟩

theorem g1Rep_generatorG1 : G1Rep generatorG1 generatorPoint := by
  refine g1Rep_some one_ne_zero ?_ ?_ fpRep_one
  · rw [one_pow, mul_one]
    exact Montgomery.rep_encode fpMont _
  · rw [one_pow, mul_one]
    exact Montgomery.rep_encode fpMont _

/-- Lists with the single item of tap 0 and position 0 in the first bucket of either half, and the
generator at every place of the points. -/
def phaseBSample : Mem := wordMem fun b i =>
  if b = .points then g1Words generatorG1 (i % 36)
  else if b = .kernelPermPlus ∨ b = .kernelPermMinus then i
  else if (b = .kernelOffsetsPlus ∨ b = .kernelOffsetsMinus) ∧ i ≠ 0 then 1 else 0

theorem bucketItems_phaseBSample {lists : KernelLists}
    (hlists : lists = plusLists ∨ lists = minusLists) (k : ℕ) :
    bucketItems phaseBSample lists k = if k = 0 then [0] else [] := by
  rcases hlists with rfl | rfl <;> rcases k with _ | k <;>
    simp [bucketItems, phaseBSample, elem_wordMem, plusLists, minusLists]

theorem tapOf_phaseBSample {lists : KernelLists} (hlists : lists = plusLists ∨ lists = minusLists)
    (e : ℕ) : tapOf phaseBSample lists e = if e = 0 then 1 else 0 := by
  have hsum : ∀ k, ((bucketItems phaseBSample lists k).map fun packed =>
      if itemTap packed = e then itemWeight k packed else 0).sum =
        if 0 = k then (if e = 0 then 1 else 0) else 0 := by
    intro k
    rw [bucketItems_phaseBSample hlists]
    rcases k with _ | k
    · simp [itemTap, itemWeight, itemSign, itemPosition, eq_comm]
    · simp
  simp only [tapOf, hsum, Finset.sum_ite_eq]
  rw [if_pos (Finset.mem_range.mpr (by decide))]

theorem listsWf_phaseBSample {lists : KernelLists}
    (hlists : lists = plusLists ∨ lists = minusLists) : ListsWf phaseBSample lists := by
  have hperm : ∀ t < numBuckets, phaseBSample.elem 4 lists.perm t = t := by
    intro t ht
    have hlt : t < 4294967296 := Nat.lt_trans ht (by decide)
    rcases hlists with rfl | rfl <;> simp [phaseBSample, elem_wordMem, plusLists, minusLists, hlt]
  refine ⟨fun t ht => ?_, fun k hk => ⟨k, hk, hperm k hk⟩, fun k _ packed hp => ?_⟩
  · rwa [hperm t ht]
  · rw [bucketItems_phaseBSample hlists] at hp
    split_ifs at hp
    · rw [List.mem_singleton.mp hp]
      decide
    · exact absurd hp List.not_mem_nil

theorem encodes_phaseBSample : Encodes phaseBSample fun x => if x = 0 then 2 else 0 := by
  have h2 : (2 : ScalarField) ≠ 0 := by
    exact_mod_cast natCast_ne_zero_of_lt (n := 2) (by decide) two_lt_frModulus
  have htaps : ∀ e : ℕ, e < 64 → ((e : ZMod 128) = 0 ↔ e = 0) ∧ (e : ZMod 128) + 64 ≠ 0 := by decide
  refine ⟨listsWf_phaseBSample (.inl rfl), listsWf_phaseBSample (.inr rfl), fun e he => ?_,
    fun e he => ?_⟩
  all_goals
    rw [tapOf_phaseBSample (by simp), if_neg (htaps e he).2]
    simp only [(htaps e he).1]
    split_ifs <;> simp [h2]

theorem g1At_phaseBSample (i : ℕ) : g1At phaseBSample .points i = generatorG1 :=
  g1At_wordMem (a := fun _ => generatorG1) (fun _ => if_pos rfl) i

/-- Twice the generator at every output, in the largest batch with 32-bit indices. -/
theorem phaseB_correct_phaseBSample :
    G1Rep (g1At (runAll (phaseB 10 (fun _ _ => ⟨32, fun _ _ => g1Identity⟩) 7281) uint32
        phaseBSample) .proofs (7280 * circulantSize + 100))
      (∑ j ∈ Finset.range circulantSize,
        (if ((100 : ℕ) : ZMod circulantSize) - j = 0 then (2 : ScalarField) else 0).val •
          generatorPoint) :=
  phaseB_correct encodes_phaseBSample
    (wholeTeams_of_dvd (fun _ _ => by decide) fun _ _ => by decide) (exactIndices_uint32 le_rfl)
    (U := fun _ _ => generatorPoint) (fun _ _ _ _ => frModulus_nsmul_generator)
    (fun b _ j _ => by
      rw [g1At_phaseBSample]
      exact g1Rep_generatorG1)
    (b := 7280) (a := 100) (by decide) (by decide)

end Vkzg
