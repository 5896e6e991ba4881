import Vkzg.Shaders.Buffers
import Vkzg.Library.BucketSum

/-! `reduce_buckets` of `field.glsl.inc` and `k_bucket_reduce.comp`: teams of lanes collapse the 128
buckets of one output to their weighted sum, exchanging points with subgroup shuffles. -/

namespace Vkzg
open Gpu Gpu.Kernel

/-! ### The kernel -/

/-- How a workgroup is cut into subgroups, and what a shuffle from outside one returns. -/
structure Subgroup where
  size : ℕ
  stale : ℕ → ℕ → G1

/-- The partial sums a lane carries. -/
structure Lane where
  s : G1
  rs : G1
  w : G1

def reduceGroupSize : ℕ := 32

/-- `g1_shuffle_down`: the point of the thread `delta` further on in the subgroup. -/
def g1ShuffleDown (sg : Subgroup) (call : ℕ) (p : ℕ → G1) (delta tid : ℕ) : G1 :=
  if tid % sg.size + delta < sg.size ∧ tid + delta < reduceGroupSize then p (tid + delta)
  else sg.stale call tid

/-- The serial running sum over a lane's slice, from the top down. -/
def reduceSlice (bucketsBuf : Buf) (base pos perLane : ℕ) : Shader Lane := do
  let acc ← (List.range perLane).reverse.foldlM (fun (acc : G1 × G1) i => do
    let bk ← g1Load bucketsBuf (base + (pos * perLane + i) * jacobianWords)
    let s := g1Add acc.1 bk
    pure (s, g1Add acc.2 s)) (g1Identity, g1Identity)
  pure ⟨acc.1, acc.2, g1Identity⟩

def g1DblN (n : ℕ) (p : G1) : G1 := (List.range n).foldl (fun p _ => g1Dbl p) p

/-- One level of the shuffle tree: every lane computes, the lanes at even positions commit. -/
def reduceLevel (sg : Subgroup) (lanes : ℕ) (st : ℕ → Lane) (level tid : ℕ) : Lane :=
  let h := 1 <<< level
  let sb := g1ShuffleDown sg (3 * level) (fun t => (st t).s) h tid
  let wb := g1ShuffleDown sg (3 * level + 1) (fun t => (st t).w) h tid
  let rb := g1ShuffleDown sg (3 * level + 2) (fun t => (st t).rs) h tid
  let hs := g1DblN level sb
  let nw := g1Add (st tid).w (g1Add wb hs)
  let ns := g1Add (st tid).s sb
  let nr := g1Add (st tid).rs rb
  if tid % lanes &&& (1 <<< (level + 1) - 1) = 0 then ⟨ns, nr, nw⟩ else st tid

/-- The levels of the tree: those with `1 << level < lanes`. -/
def reduceLevels (lanes : ℕ) : List ℕ := (List.range 32).filter fun level => 1 <<< level < lanes

def findLSB (x : ℕ) : ℕ := ((List.range 32).find? x.testBit).getD 32

/-- What each thread of the workgroup gets for the buckets at its base. -/
def reduceBuckets (sg : Subgroup) (bucketsBuf : Buf) (base : ℕ → ℕ) (lanes : ℕ) :
    Shader (ℕ → G1) := do
  let perLane := numBuckets / lanes
  let slices ← gather (List.range reduceGroupSize) fun tid =>
    reduceSlice bucketsBuf (base tid) (tid % lanes) perLane
  let st := (reduceLevels lanes).foldl (reduceLevel sg lanes) fun tid =>
    slices.getD tid ⟨g1Identity, g1Identity, g1Identity⟩
  pure fun tid => g1Add (st tid).rs (g1DblN (findLSB perLane) (st tid).w)

structure ReducePC where
  out : Buf
  buckets : Buf
  count : ℕ

def kBucketReduce (lanes : ℕ) (sg : Subgroup) (pc : ReducePC) (wg b : ℕ) : Shader Unit := do
  let outputsPerTg := 32 / lanes
  let raw := fun tid => wg * outputsPerTg + tid / lanes
  let j := fun tid => min (raw tid) (pc.count - 1)
  let base := fun tid =>
    (b * circulantSize * numBuckets + j tid * numBuckets) * jacobianWords
  let total ← reduceBuckets sg pc.buckets base lanes
  each ((List.range reduceGroupSize).filter fun tid => tid % lanes = 0 ∧ raw tid < pc.count)
    fun tid => g1Store pc.out ((b * circulantSize + j tid) * jacobianWords) (total tid)

/-! ### Recording a reduction -/

/-- Whether the batch leaves the device underfilled at the default lane count. -/
def useLatencyReduce (count batch gpuTotalCores : ℕ) : Bool :=
  if gpuTotalCores = 0 then false
  else reduceLanes * count / 32 * batch < 6 * gpuTotalCores

/-- The dispatch for a given number of lanes per output. -/
def reduceDispatch (lanes : ℕ) (sg : ℕ → ℕ → Subgroup) (out : Buf) (count batch : ℕ) :
    Shader Unit :=
  let outputsPerTg := 32 / lanes
  let groups := (count + outputsPerTg - 1) / outputsPerTg
  dispatch (fun wg b => kBucketReduce lanes (sg wg b) ⟨out, .buckets, count⟩ wg b) groups batch

def recordReduce (gpuTotalCores : ℕ) (sg : ℕ → ℕ → Subgroup) (out : Buf) (count batch : ℕ) :
    Shader Unit :=
  reduceDispatch (if useLatencyReduce count batch gpuTotalCores then reduceLanes * 2 else reduceLanes)
    sg out count batch

/-! ### The points behind the reduction -/

theorem g1Rep_dblN {p : G1} {P : Point} (h : G1Rep p P) (n : ℕ) :
    G1Rep (g1DblN n p) (2 ^ n • P) := by
  induction n with
  | zero => simpa [g1DblN] using h
  | succ n ih =>
    rw [g1DblN, List.range_succ, List.foldl_append, pow_succ, mul_nsmul', two_nsmul, nsmul_add]
    exact g1Rep_dbl ih

section Slices
variable {m : Mem} {buf : Buf} {B : ℕ → Point} {start : ℕ}

theorem reduceSlice_rep {pos perLane : ℕ}
    (hB : ∀ i < perLane, G1Rep (g1At m buf (start + (pos * perLane + i))) (B (pos * perLane + i))) :
    let lane := (reduceSlice buf (start * jacobianWords) pos perLane).val id m
    G1Rep lane.s (∑ i ∈ Finset.range perLane, B (pos * perLane + i)) ∧
      G1Rep lane.rs (∑ i ∈ Finset.range perLane, (i + 1) • B (pos * perLane + i)) ∧
      G1Rep lane.w 0 := by
  have hrel := List.foldl_rel (l := (List.range perLane).reverse)
    (f := fun (acc : G1 × G1) i => (g1Add acc.1 (g1At m buf (start + (pos * perLane + i))),
      g1Add acc.2 (g1Add acc.1 (g1At m buf (start + (pos * perLane + i))))))
    (g := fun (acc : Point × Point) i => BucketSum.step acc (B (pos * perLane + i)))
    (a := (g1Identity, g1Identity)) (b := (0, 0))
    (r := fun a c => G1Rep a.1 c.1 ∧ G1Rep a.2 c.2) ⟨g1Rep_identity, g1Rep_identity⟩
    fun i hi a c hac => by
      have hs := g1Rep_add hac.1 (hB i (by simpa using hi))
      exact ⟨hs, g1Rep_add hac.2 hs⟩
  rw [BucketSum.foldl_step fun i => B (pos * perLane + i)] at hrel
  simp only [reduceSlice, val_bind, val_pure, val_foldlM, ← Nat.add_mul, val_g1Load]
  exact ⟨hrel.1, hrel.2, g1Rep_identity⟩

end Slices

section Tree
variable {sg : Subgroup} {q : ℕ} {st : ℕ → Lane} {GS RS : ℕ → Point}

/-- After `level` levels, a lane at a multiple of `2 ^ level` in its team holds the sums of the
slices from its own on. -/
def TreeInv (q level : ℕ) (GS RS : ℕ → Point) (st : ℕ → Lane) : Prop :=
  ∀ tid < reduceGroupSize, tid % 2 ^ q % 2 ^ level = 0 →
    G1Rep (st tid).s (∑ p ∈ Finset.range (2 ^ level), GS (tid + p)) ∧
    G1Rep (st tid).rs (∑ p ∈ Finset.range (2 ^ level), RS (tid + p)) ∧
    G1Rep (st tid).w (∑ p ∈ Finset.range (2 ^ level), p • GS (tid + p))

/-- A lane that commits at a level finds its partner in its own team. -/
theorem partner_in_team {level tid : ℕ} (hlevel : level < q)
    (hpos : tid % 2 ^ q % 2 ^ (level + 1) = 0) : tid % 2 ^ q + 2 ^ level < 2 ^ q := by
  obtain ⟨d, rfl⟩ : ∃ d, q = level + 1 + d := ⟨q - (level + 1), by omega⟩
  obtain ⟨c, hc⟩ := Nat.dvd_of_mod_eq_zero hpos
  have hlt : tid % 2 ^ (level + 1 + d) < 2 ^ (level + 1 + d) := Nat.mod_lt _ (Nat.two_pow_pos _)
  rw [hc, pow_add 2 (level + 1) d] at hlt
  have hcd : c < 2 ^ d := lt_of_mul_lt_mul_left hlt (Nat.zero_le _)
  have hhalf : 2 ^ level < 2 ^ (level + 1) := Nat.pow_lt_pow_right (by decide) (by omega)
  rw [hc, pow_add 2 (level + 1) d]
  calc 2 ^ (level + 1) * c + 2 ^ level < 2 ^ (level + 1) * (c + 1) := by rw [Nat.mul_succ]; omega
    _ ≤ 2 ^ (level + 1) * 2 ^ d := Nat.mul_le_mul_left _ hcd

theorem add_lt_of_dvd {n k tid d : ℕ} (hk : k ∣ n) (htid : tid < n) (hd : tid % k + d < k) :
    tid + d < n := by
  obtain ⟨c, rfl⟩ := hk
  have hk0 : 0 < k := by omega
  have hq : tid / k < c := Nat.div_lt_of_lt_mul htid
  have hdecomp := Nat.div_add_mod' tid k
  have := Gpu.block_lt hq hd
  rw [Nat.mul_comm k c]
  omega

theorem reduceLevel_inv (hq : q ≤ 5) (hsize : 2 ^ q ∣ sg.size) (hpos : 0 < sg.size) {level : ℕ}
    (hlevel : level < q) (h : TreeInv q level GS RS st) :
    TreeInv q (level + 1) GS RS (reduceLevel sg (2 ^ q) st level) := by
  intro tid htid hmod
  have hteam := partner_in_team hlevel hmod
  have hpow : 2 ^ (level + 1) = 2 * 2 ^ level := pow_succ' 2 level
  have hself := h tid htid (by
    rw [← Nat.mod_mul_left_mod _ 2 (2 ^ level), ← hpow, hmod, Nat.zero_mod])
  have hsub : tid % sg.size + 1 <<< level < sg.size := by
    rw [Nat.shiftLeft_eq, one_mul]
    refine add_lt_of_dvd hsize (Nat.mod_lt _ hpos) ?_
    rwa [Nat.mod_mod_of_dvd _ hsize]
  have hgroup : tid + 1 <<< level < reduceGroupSize := by
    rw [Nat.shiftLeft_eq, one_mul]
    exact add_lt_of_dvd (Nat.pow_dvd_pow 2 hq) htid hteam
  have hnext := h (tid + 1 <<< level) hgroup (by
    rw [Nat.shiftLeft_eq, one_mul, Nat.add_mod, Nat.mod_eq_of_lt (a := 2 ^ level) (by omega),
      Nat.mod_eq_of_lt hteam, Nat.add_mod_right, ← Nat.mod_mul_left_mod _ 2 (2 ^ level), ← hpow,
      hmod, Nat.zero_mod])
  have hand : tid % 2 ^ q &&& (1 <<< (level + 1) - 1) = 0 := by
    rw [Nat.shiftLeft_eq, one_mul, Nat.and_two_pow_sub_one_eq_mod, hmod]
  simp only [Nat.shiftLeft_eq, one_mul, add_assoc] at hnext
  rw [hpow, BucketSum.sum_double, BucketSum.sum_double, BucketSum.weighted_double]
  simp only [reduceLevel, if_pos hand, g1ShuffleDown, if_pos (And.intro hsub hgroup)]
  simp only [Nat.shiftLeft_eq, one_mul]
  exact ⟨g1Rep_add hself.1 hnext.1, g1Rep_add hself.2.1 hnext.2.1,
    g1Rep_add hself.2.2 (g1Rep_add hnext.2.2 (g1Rep_dblN hnext.1 level))⟩

theorem reduceLevels_eq (hq : q ≤ 5) : reduceLevels (2 ^ q) = List.range q := by
  interval_cases q <;> decide

theorem findLSB_div (hq : q ≤ 5) : findLSB (numBuckets / 2 ^ q) = 7 - q := by
  interval_cases q <;> decide

theorem reduceTree_inv (sg : Subgroup) (hq : q ≤ 5) (hsize : 2 ^ q ∣ sg.size) (hpos : 0 < sg.size)
    (h : TreeInv q 0 GS RS st) :
    TreeInv q q GS RS ((reduceLevels (2 ^ q)).foldl (reduceLevel sg (2 ^ q)) st) := by
  rw [reduceLevels_eq hq]
  have key : ∀ level ≤ q,
      TreeInv q level GS RS ((List.range level).foldl (reduceLevel sg (2 ^ q)) st) := by
    intro level
    induction level with
    | zero => exact fun _ => h
    | succ level ih =>
      intro hlevel
      rw [List.range_succ, List.foldl_append]
      exact reduceLevel_inv hq hsize hpos (by omega) (ih (by omega))
  exact key q le_rfl

end Tree

/-! ### The dispatch -/

section Reduce
variable {m : Mem} {buf out : Buf} {sg : Subgroup} {q : ℕ}

theorem teamSlice_eq {tid p : ℕ} (h0 : tid % 2 ^ q = 0) (hp : p < 2 ^ q) :
    (tid + p) % 2 ^ q = p := by
  rw [Nat.add_mod, h0, zero_add, Nat.mod_mod, Nat.mod_eq_of_lt hp]

/-- The first lane of a team gets the weighted sum of the team's buckets. -/
theorem reduceBuckets_rep (hq : q ≤ 5) (hsize : 2 ^ q ∣ sg.size) (hpos : 0 < sg.size)
    {start : ℕ → ℕ} {B : ℕ → ℕ → Point}
    (hB : ∀ tid < reduceGroupSize, ∀ k < numBuckets, G1Rep (g1At m buf (start tid + k)) (B tid k))
    {tid : ℕ} (htid : tid < reduceGroupSize) (h0 : tid % 2 ^ q = 0)
    (hteam : ∀ p < 2 ^ q, B (tid + p) = B tid) :
    G1Rep ((reduceBuckets sg buf (fun t => start t * jacobianWords) (2 ^ q)).val id m tid)
      (∑ k ∈ Finset.range numBuckets, (k + 1) • B tid k) := by
  have hdiv : 2 ^ q * (numBuckets / 2 ^ q) = numBuckets := by interval_cases q <;> decide
  have hperLane : 2 ^ (7 - q) = numBuckets / 2 ^ q := by interval_cases q <;> decide
  set perLane := numBuckets / 2 ^ q
  have hslice : ∀ t < reduceGroupSize, ∀ i < perLane, t % 2 ^ q * perLane + i < numBuckets := by
    intro t _ i hi
    rw [← hdiv]
    exact Gpu.block_lt (Nat.mod_lt _ (Nat.two_pow_pos q)) hi
  have hslices : TreeInv q 0 (fun t => ∑ i ∈ Finset.range perLane, B t (t % 2 ^ q * perLane + i))
      (fun t => ∑ i ∈ Finset.range perLane, (i + 1) • B t (t % 2 ^ q * perLane + i))
      (fun t => ((List.range reduceGroupSize).map fun t =>
        (reduceSlice buf (start t * jacobianWords) (t % 2 ^ q) perLane).val id m).getD t
          ⟨g1Identity, g1Identity, g1Identity⟩) := fun t ht _ => by
    have hrep := reduceSlice_rep fun i hi => hB t ht _ (hslice t ht i hi)
    simpa [List.getD_eq_getElem?_getD, ht] using hrep
  -- The tree adds up the slices of a team in its first lane.
  have hinv := reduceTree_inv sg hq hsize hpos hslices tid htid (by rw [h0, Nat.zero_mod])
  have hlanes : ∀ p < 2 ^ q, B (tid + p) = B tid ∧ (tid + p) % 2 ^ q = p :=
    fun p hp => ⟨hteam p hp, teamSlice_eq h0 hp⟩
  have hGS : ∀ p ∈ Finset.range (2 ^ q),
      ∑ i ∈ Finset.range perLane, B (tid + p) ((tid + p) % 2 ^ q * perLane + i) =
        ∑ i ∈ Finset.range perLane, B tid (p * perLane + i) := by
    intro p hp
    rw [(hlanes p (Finset.mem_range.mp hp)).1, (hlanes p (Finset.mem_range.mp hp)).2]
  have hRS : ∀ p ∈ Finset.range (2 ^ q),
      ∑ i ∈ Finset.range perLane, (i + 1) • B (tid + p) ((tid + p) % 2 ^ q * perLane + i) =
        ∑ i ∈ Finset.range perLane, (i + 1) • B tid (p * perLane + i) := by
    intro p hp
    rw [(hlanes p (Finset.mem_range.mp hp)).1, (hlanes p (Finset.mem_range.mp hp)).2]
  have htotal := g1Rep_add hinv.2.1 (g1Rep_dblN hinv.2.2 (7 - q))
  rw [Finset.sum_congr rfl hRS, Finset.sum_congr rfl fun p hp => congrArg (p • ·) (hGS p hp),
    hperLane, ← BucketSum.sum_slices, hdiv] at htotal
  simp only [reduceBuckets, val_bind, val_pure, val_gather, findLSB_div hq]
  exact htotal

/-- What the team of output `j` of blob `b` stores. -/
def reduceTotal (m : Mem) (lanes : ℕ) (sg : ℕ → ℕ → Subgroup) (count b j : ℕ) : G1 :=
  let outputsPerTg := 32 / lanes
  let wg := j / outputsPerTg
  (reduceBuckets (sg wg b) .buckets (fun tid =>
    (b * circulantSize * numBuckets + min (wg * outputsPerTg + tid / lanes) (count - 1) * numBuckets)
      * jacobianWords) lanes).val id m (j % outputsPerTg * lanes)

theorem stores_reduceBuckets (u : ℕ → ℕ) (base : ℕ → ℕ) (lanes : ℕ) :
    (reduceBuckets sg buf base lanes).stores u m = [] := by
  simp only [reduceBuckets, stores_bind, stores_gather, stores_pure, List.append_nil]
  refine List.flatMap_eq_nil_iff.mpr fun tid _ => ?_
  simp only [reduceSlice, stores_bind, stores_pure, List.append_nil]
  exact stores_foldlM (fun _ _ _ => rfl) _

/-- The threads that may store are the first lanes of the teams. -/
theorem firstLanes_eq (hq : q ≤ 5) :
    (List.range reduceGroupSize).filter (fun tid => tid % 2 ^ q = 0) =
      (List.range (32 / 2 ^ q)).map (· * 2 ^ q) := by
  interval_cases q <;> decide

theorem storingLanes_eq (hq : q ≤ 5) (wg count : ℕ) :
    (List.range reduceGroupSize).filter (fun tid =>
      tid % 2 ^ q = 0 ∧ wg * (32 / 2 ^ q) + tid / 2 ^ q < count) =
      ((List.range (32 / 2 ^ q)).filter fun t => wg * (32 / 2 ^ q) + t < count).map (· * 2 ^ q) := by
  have hand : (fun tid => decide (tid % 2 ^ q = 0 ∧ wg * (32 / 2 ^ q) + tid / 2 ^ q < count)) =
      fun tid => decide (wg * (32 / 2 ^ q) + tid / 2 ^ q < count) && decide (tid % 2 ^ q = 0) := by
    funext tid
    rw [Bool.decide_and, Bool.and_comm]
  rw [hand, ← List.filter_filter, firstLanes_eq hq, List.filter_map]
  simp only [Function.comp_def, Nat.mul_div_cancel _ (Nat.two_pow_pos q)]

theorem landing_kBucketReduce (hq : q ≤ 5) (sg : ℕ → ℕ → Subgroup) (count wg b : ℕ) :
    landing out ((kBucketReduce (2 ^ q) (sg wg b) ⟨out, .buckets, count⟩ wg b).stores id m) =
      ((List.range (32 / 2 ^ q)).filter fun t => wg * (32 / 2 ^ q) + t < count).flatMap fun t =>
        (List.range 36).map fun k => (4, (b * circulantSize + (wg * (32 / 2 ^ q) + t)) * 36 + k,
          g1Words (reduceTotal m (2 ^ q) sg count b (wg * (32 / 2 ^ q) + t)) k) := by
  simp only [kBucketReduce, stores_bind, stores_reduceBuckets, List.nil_append,
    storingLanes_eq hq, stores_each, landing_flatMap, List.flatMap_map, stores_g1Store]
  refine List.flatMap_congr fun t ht => ?_
  obtain ⟨ht, hcount⟩ := List.mem_filter.mp ht
  rw [List.mem_range] at ht
  rw [decide_eq_true_eq] at hcount
  have hdiv : (wg * (32 / 2 ^ q) + t) / (32 / 2 ^ q) = wg := block_div ht
  have hmod : (wg * (32 / 2 ^ q) + t) % (32 / 2 ^ q) = t := Nat.mul_add_mod_of_lt ht
  have hmin : min (wg * (32 / 2 ^ q) + t * 2 ^ q / 2 ^ q) (count - 1) =
      wg * (32 / 2 ^ q) + t := by
    rw [Nat.mul_div_cancel _ (Nat.two_pow_pos q)]
    omega
  rw [landing_block, hmin]
  simp only [reduceTotal, hdiv, hmod, id]

theorem blocks_reduceDispatch (hq : q ≤ 5) (sg : ℕ → ℕ → Subgroup) (count batch : ℕ) :
    Blocks ((reduceDispatch (2 ^ q) sg out count batch).stores id m) out 4 36
      (List.range batch ×ˢ List.range count) (fun p => p.1 * circulantSize + p.2)
      (fun p => g1Words (reduceTotal m (2 ^ q) sg count p.1 p.2)) := by
  have hopt : 0 < 32 / 2 ^ q := by interval_cases q <;> decide
  have hcover : count ≤ (count + 32 / 2 ^ q - 1) / (32 / 2 ^ q) * (32 / 2 ^ q) := by
    have := Nat.div_add_mod' (count + 32 / 2 ^ q - 1) (32 / 2 ^ q)
    have := Nat.mod_lt (count + 32 / 2 ^ q - 1) hopt
    omega
  rw [Blocks, reduceDispatch, landing_dispatch, flatMap_product]
  refine List.flatMap_congr fun b _ => ?_
  have hteams := flatMap_teams hcover fun wg t => (List.range 36).map fun k =>
    (4, (b * circulantSize + (wg * (32 / 2 ^ q) + t)) * 36 + k,
      g1Words (reduceTotal m (2 ^ q) sg count b (wg * (32 / 2 ^ q) + t)) k)
  simp only [Nat.div_add_mod'] at hteams
  rw [← hteams]
  exact List.flatMap_congr fun wg _ => landing_kBucketReduce hq sg count wg b

theorem reduceTotal_rep (hq : q ≤ 5) {sg : ℕ → ℕ → Subgroup} (hsize : ∀ wg b, 2 ^ q ∣ (sg wg b).size)
    (hpos : ∀ wg b, 0 < (sg wg b).size) {count b : ℕ} {B : ℕ → ℕ → Point}
    (hB : ∀ j < count, ∀ k < numBuckets,
      G1Rep (g1At m .buckets ((b * circulantSize + j) * numBuckets + k)) (B j k))
    {j : ℕ} (hj : j < count) :
    G1Rep (reduceTotal m (2 ^ q) sg count b j)
      (∑ k ∈ Finset.range numBuckets, (k + 1) • B j k) := by
  have hopt : 0 < 32 / 2 ^ q := by interval_cases q <;> decide
  have hprod : 32 / 2 ^ q * 2 ^ q = reduceGroupSize := by interval_cases q <;> decide
  have hmod : j % (32 / 2 ^ q) < 32 / 2 ^ q := Nat.mod_lt _ hopt
  have hout : ∀ p < 2 ^ q, min (j / (32 / 2 ^ q) * (32 / 2 ^ q) +
      (j % (32 / 2 ^ q) * 2 ^ q + p) / 2 ^ q) (count - 1) = j := by
    intro p hp
    rw [block_div hp, Nat.div_add_mod']
    omega
  -- Lanes past the last output work on that one again, and do not store.
  have hbuckets : ∀ tid < reduceGroupSize, ∀ k < numBuckets,
      G1Rep (g1At m .buckets (b * circulantSize * numBuckets +
        min (j / (32 / 2 ^ q) * (32 / 2 ^ q) + tid / 2 ^ q) (count - 1) * numBuckets + k))
        (B (min (j / (32 / 2 ^ q) * (32 / 2 ^ q) + tid / 2 ^ q) (count - 1)) k) := by
    intro tid _ k hk
    rw [← Nat.add_mul]
    exact hB _ (by omega) k hk
  have hlane : j % (32 / 2 ^ q) * 2 ^ q < reduceGroupSize := by
    rw [← hprod]
    exact Nat.mul_lt_mul_of_pos_right hmod (Nat.two_pow_pos q)
  have hrep := reduceBuckets_rep hq (hsize (j / (32 / 2 ^ q)) b) (hpos _ _) hbuckets hlane
    (Nat.mul_mod_left _ _)
    (fun p hp => by
      simp only [hout p hp, show min (j / (32 / 2 ^ q) * (32 / 2 ^ q) +
        j % (32 / 2 ^ q) * 2 ^ q / 2 ^ q) (count - 1) = j from by
          simpa using hout 0 (Nat.two_pow_pos q)])
  have hzero := hout 0 (Nat.two_pow_pos q)
  rw [Nat.add_zero] at hzero
  simp only [hzero] at hrep
  exact hrep

/-- The dispatch stores one point for each output `j < count` of each blob, in place and nothing
else, and that point is the weighted sum of the output's buckets. -/
def ReducesTo (u : ℕ → ℕ) (k : Shader Unit) (m : Mem) (out : Buf) (count batch : ℕ)
    (B : ℕ → ℕ → ℕ → Point) : Prop :=
  ∃ total : ℕ → ℕ → G1,
    Blocks (k.stores u m) out 4 36 (List.range batch ×ˢ List.range count)
      (fun p => p.1 * circulantSize + p.2) (fun p => g1Words (total p.1 p.2)) ∧
    ∀ b < batch, ∀ j < count,
      G1Rep (total b j) (∑ k ∈ Finset.range numBuckets, (k + 1) • B b j k)

theorem ReducesTo.rep {k : Shader Unit} {count batch : ℕ} {B : ℕ → ℕ → ℕ → Point}
    (h : ReducesTo id k m out count batch B) (hcount : count ≤ circulantSize) {b j : ℕ}
    (hb : b < batch) (hj : j < count) :
    G1Rep (g1At (k.exec id m) out (b * circulantSize + j))
      (∑ k ∈ Finset.range numBuckets, (k + 1) • B b j k) := by
  obtain ⟨total, hblocks, htotal⟩ := h
  have hhit := g1At_hit hblocks (x := (b, j)) ?_
    (by simp only [List.mem_product, List.mem_range]; exact ⟨hb, hj⟩) m
  · rw [exec, hhit]
    exact htotal b hb j hj
  · rintro ⟨b₁, j₁⟩ h₁ ⟨b₂, j₂⟩ h₂ heq
    simp only [List.mem_product, List.mem_range] at h₁ h₂
    obtain ⟨rfl, rfl⟩ := block_inj (Nat.lt_of_lt_of_le h₁.2 hcount)
      (Nat.lt_of_lt_of_le h₂.2 hcount) heq
    rfl

theorem ReducesTo.within {P : Access Buf → Prop} {u : ℕ → ℕ} {k : Shader Unit} {count batch : ℕ}
    {B : ℕ → ℕ → ℕ → Point} (h : ReducesTo id k m out count batch B) (hu : Within P u m k) :
    ReducesTo u k m out count batch B := by
  obtain ⟨total, hblocks, htotal⟩ := h
  exact ⟨total, by rwa [hu.stores], htotal⟩

theorem frame_recordReduce {sg : ℕ → ℕ → Subgroup} {b : Buf} (hb : b ≠ out)
    (gpuTotalCores count batch : ℕ) :
    (recordReduce gpuTotalCores sg out count batch).exec id m b = m b := by
  refine exec_dispatch_frame fun x y => ?_
  simp only [kBucketReduce, stores_bind, stores_reduceBuckets, List.nil_append, stores_each,
    stores_g1Store, landing_flatMap, landing_block_other hb.symm]
  exact List.flatMap_eq_nil_iff.mpr fun _ _ => rfl

/-- The bucket points a reduction reads. -/
def BucketsHold (m : Mem) (count batch : ℕ) (B : ℕ → ℕ → ℕ → Point) : Prop :=
  ∀ b < batch, ∀ j < count, ∀ k < numBuckets,
    G1Rep (g1At m .buckets ((b * circulantSize + j) * numBuckets + k)) (B b j k)

theorem reduceDispatch_reducesTo (hq : q ≤ 5) {sg : ℕ → ℕ → Subgroup}
    (hsize : ∀ wg b, 2 ^ q ∣ (sg wg b).size) (hpos : ∀ wg b, 0 < (sg wg b).size)
    {count batch : ℕ} {B : ℕ → ℕ → ℕ → Point} (hB : BucketsHold m count batch B) (out : Buf) :
    ReducesTo id (reduceDispatch (2 ^ q) sg out count batch) m out count batch B :=
  ⟨_, blocks_reduceDispatch hq sg count batch, fun b hb _ hj =>
    reduceTotal_rep hq hsize hpos (hB b hb) hj⟩

/-- Every subgroup holds whole teams of as many lanes as the reduction picks. -/
def WholeTeams (gpuTotalCores count batch : ℕ) (sg : ℕ → ℕ → Subgroup) : Prop :=
  ∀ wg b, 0 < (sg wg b).size ∧
    (if useLatencyReduce count batch gpuTotalCores then reduceLanes * 2 else reduceLanes) ∣
      (sg wg b).size

theorem wholeTeams_of_dvd {gpuTotalCores count batch : ℕ} {sg : ℕ → ℕ → Subgroup}
    (hsize : ∀ wg b, 8 ∣ (sg wg b).size) (hpos : ∀ wg b, 0 < (sg wg b).size) :
    WholeTeams gpuTotalCores count batch sg := by
  refine fun wg b => ⟨hpos wg b, ?_⟩
  split_ifs
  · exact hsize wg b
  · exact dvd_trans (by decide) (hsize wg b)

theorem recordReduce_reducesTo {gpuTotalCores count batch : ℕ} {sg : ℕ → ℕ → Subgroup}
    (hteams : WholeTeams gpuTotalCores count batch sg) {B : ℕ → ℕ → ℕ → Point}
    (hB : BucketsHold m count batch B) (out : Buf) :
    ReducesTo id (recordReduce gpuTotalCores sg out count batch) m out count batch B := by
  have hpos : ∀ wg b, 0 < (sg wg b).size := fun wg b => (hteams wg b).1
  have hsize := fun wg b => (hteams wg b).2
  rw [recordReduce]
  split_ifs at hsize ⊢
  · exact reduceDispatch_reducesTo (q := 3) (by decide) hsize hpos hB out
  · exact reduceDispatch_reducesTo (q := 2) (by decide) hsize hpos hB out

/-! ### Footprints -/

section Footprint
variable {P : Access Buf → Prop} {u : ℕ → ℕ} {count batch : ℕ}

theorem within_reduceDispatch (hq : q ≤ 5) {sg : ℕ → ℕ → Subgroup}
    (hbuckets : ∀ b < batch,
      BlobWords P u .buckets (b * (circulantSize * numBuckets * 36)) (count * numBuckets * 36) b)
    (hout : ∀ b < batch, BlobWords P u out (b * (circulantSize * 36)) (count * 36) b) :
    Within P u m (reduceDispatch (2 ^ q) sg out count batch) := by
  refine within_dispatch fun b hb wg hwg => ?_
  have hlane : 0 < 2 ^ q := Nat.two_pow_pos q
  have hper : 2 ^ q * (numBuckets / 2 ^ q) = numBuckets := by
    interval_cases q <;> rfl
  -- A workgroup has some output to work on.
  have hcount : 0 < count := by
    rcases Nat.eq_zero_or_pos count with rfl | h
    · have hopt : 0 < 32 / 2 ^ q := by interval_cases q <;> decide
      rw [Nat.zero_add, Nat.div_eq_of_lt (by omega)] at hwg
      exact absurd hwg (Nat.not_lt_zero wg)
    · exact h
  have hj : ∀ tid, min (wg * (32 / 2 ^ q) + tid / 2 ^ q) (count - 1) < count := fun tid => by omega
  refine within_bind (within_bind (within_gather fun tid _ => ?_) (within_pure _))
    (within_each fun tid _ => ?_)
  · refine within_bind (within_foldlM (fun acc i hi => ?_) _) (within_pure _)
    have hi := List.mem_range.mp (List.mem_reverse.mp hi)
    have hslot : tid % 2 ^ q * (numBuckets / 2 ^ q) + i < numBuckets :=
      (block_lt (Nat.mod_lt tid hlane) hi).trans_eq hper
    have hblock := (hbuckets b hb).element (block_lt (hj tid) hslot)
    -- the kernel adds the strides up in another order
    have hindex : ∀ j s, (b * (circulantSize * numBuckets) + (j * numBuckets + s)) * 36 =
        (b * circulantSize * numBuckets + j * numBuckets) * jacobianWords + s * jacobianWords :=
      fun j s => by
        simp only [circulantSize, numBuckets, jacobianWords]
        ring
    rw [hindex] at hblock
    exact within_bind (within_g1Load hblock.1 hblock.2) (within_pure _)
  · have hblock := (hout b hb).element (hj tid)
    exact within_g1Store hblock.1 hblock.2

theorem within_recordReduce {gpuTotalCores : ℕ} {sg : ℕ → ℕ → Subgroup}
    (hbuckets : ∀ b < batch,
      BlobWords P u .buckets (b * (circulantSize * numBuckets * 36)) (count * numBuckets * 36) b)
    (hout : ∀ b < batch, BlobWords P u out (b * (circulantSize * 36)) (count * 36) b) :
    Within P u m (recordReduce gpuTotalCores sg out count batch) := by
  unfold recordReduce
  split_ifs
  · exact within_reduceDispatch (q := 3) (by decide) hbuckets hout
  · exact within_reduceDispatch (q := 2) (by decide) hbuckets hout

end Footprint

/-- Bucket reduction is right for every power-of-two lane count, so both pipelines agree. The indices
of the buckets and of the outputs are exact. -/
theorem bucketReduce_correct (hq : q ≤ 5) {sg : ℕ → ℕ → Subgroup}
    (hsize : ∀ wg b, 2 ^ q ∣ (sg wg b).size) (hpos : ∀ wg b, 0 < (sg wg b).size)
    {count batch : ℕ} {u : ℕ → ℕ}
    (hbuckets : ExactSlices u (circulantSize * numBuckets * 36) (count * numBuckets * 36) batch)
    (hout : ExactSlices u (circulantSize * 36) (count * 36) batch) {B : ℕ → ℕ → ℕ → Point}
    (hB : BucketsHold m count batch B) (out : Buf) :
    ReducesTo u (reduceDispatch (2 ^ q) sg out count batch) m out count batch B ∧
      ∀ gpuTotalCores sg', WholeTeams gpuTotalCores count batch sg' →
        ReducesTo u (recordReduce gpuTotalCores sg' out count batch) m out count batch B :=
  ⟨(reduceDispatch_reducesTo hq hsize hpos hB out).within
      (within_reduceDispatch hq hbuckets.words hout.words),
    fun _ _ hteams => (recordReduce_reducesTo hteams hB out).within
      (within_recordReduce hbuckets.words hout.words)⟩

/-- A memory with the point of order three in every bucket. -/
def bucketSample : Mem := wordMem fun _ i => g1Words (zeroTwoScaled fpOne) (i % 36)

theorem bucketsHold_bucketSample (count batch : ℕ) :
    BucketsHold bucketSample count batch fun _ _ _ => zeroTwo := by
  intro b _ j _ k _
  rw [bucketSample, g1At_wordMem (a := fun _ => zeroTwoScaled fpOne) fun _ => rfl]
  exact g1Rep_zeroTwoScaled one_ne_zero fpRep_one

/-- The buckets of five outputs of each of 7281 blobs. -/
theorem bucketReduce_correct_bucketSample :
    ReducesTo uint32 (reduceDispatch (2 ^ 3) (fun _ _ => ⟨32, fun _ _ => g1Identity⟩) .points 5 7281)
      bucketSample .points 5 7281 (fun _ _ _ => zeroTwo) :=
  (bucketReduce_correct (q := 3) (by decide) (fun _ _ => by decide) (fun _ _ => by decide)
    (exactSlices_uint32 (by decide) (by decide)) (exactSlices_uint32 (by decide) (by decide))
    (bucketsHold_bucketSample 5 7281) .points).1

end Reduce

end Vkzg
