import Vkzg.Shaders.PhaseA

/-! What `k_phase_a_sort.comp` leaves in memory: the digits of every scalar, each once, in the
interval of its bucket, and the buckets ordered by load. -/

namespace Vkzg
open Radix Gpu Gpu.Kernel CountingSort

/-! ### Footprint -/

section Footprint
variable {P : Access Buf → Prop} {u : ℕ → ℕ} {m : Mem} {hist scat : ℕ → ℕ → AtomicOrder} {batch : ℕ}

theorem outputWord_eq (n b j i : ℕ) :
    (b * circulantSize + j) * n + i = b * (128 * n) + (j * n + i) := by
  rw [circulantSize]
  ring

theorem within_phaseASort (hu : ∀ n < batch * 262144, u n = n)
    (hcoeffs : ∀ b < batch, ∀ k < 65536, P ⟨.coeffs, 4, b * 65536 + k, some b⟩)
    (hperm : ∀ b < batch, ∀ k < 16384, P ⟨.perm, 4, b * 16384 + k, some b⟩)
    (hstarts : ∀ b < batch, ∀ k < 16512, P ⟨.starts, 4, b * 16512 + k, some b⟩)
    (hitems : ∀ b < batch, ∀ k < 262144, P ⟨.items, 2, b * 262144 + k, some b⟩) :
    Within P u m (phaseASortDispatch hist scat batch) := by
  refine within_dispatch fun b hb j hj => ?_
  have hj : j < 128 := hj
  have hright := sortedAt_right m hist scat b j
  refine within_bind (within_gather fun tid htid => ?_) (within_bind (within_each fun p hp => ?_)
    (within_bind (within_storeWords (fun k hk => hu _ ?_) fun k hk => ?_)
      (within_each fun p hp => ?_)))
  · have htid : tid < 64 := List.mem_range.mp htid
    have hidx : ∀ k, (b * circulantSize * phaseATerms + j * phaseATerms + tid) * frWords + k =
        b * 65536 + ((j * 64 + tid) * 8 + k) := fun k => by
      simp only [circulantSize, phaseATerms, frWords]
      ring
    refine within_map _ (within_limbsLoad (fun k hk => hu _ ?_) fun k hk => ?_)
    · rw [hidx]
      omega
    · rw [hidx]
      exact hcoeffs b hb _ (by omega)
  · have hslot : p.1 < 128 :=
      List.mem_range.mp (hright.slots.mem_iff.mp (List.mem_map_of_mem hp))
    have hidx : (b * circulantSize + j) * numBuckets + p.1 = b * 16384 + (j * 128 + p.1) :=
      outputWord_eq numBuckets b j p.1
    rw [hidx]
    exact within_store (hu _ (by omega)) (hperm b hb _ (by omega))
  · simp only [circulantSize, numBuckets] at hk ⊢
    omega
  · have hidx : (b * circulantSize + j) * (numBuckets + 1) + k = b * 16512 + (j * 129 + k) :=
      outputWord_eq (numBuckets + 1) b j k
    simp only [numBuckets] at hk
    rw [hidx]
    exact hstarts b hb _ (by omega)
  · have hslot : p.1 < 2048 := (hright.bound p hp).1
    have hidx : (b * circulantSize + j) * phaseAItems + p.1 = b * 262144 + (j * 2048 + p.1) :=
      outputWord_eq phaseAItems b j p.1
    rw [hidx]
    exact within_store (hu _ (by omega)) (hitems b hb _ (by omega))

end Footprint

/-! ### The order of the buckets -/

/-- The class a bucket is ordered by. -/
def loadClass (start : ℕ → ℕ) (k : ℕ) : ℕ := min (start (k + 1) - start k) (loadClasses - 1)

theorem sortItems_perm (digit : ℕ × ℕ → ℤ) (hist scat : List (ℕ × ℕ)) :
    let cls := fun k => some (loadClass (sortItems digit hist scat).start k)
    (sortItems digit hist scat).perm = scatter cls (starts (List.range loadClasses).reverse
      (histogram cls (List.range numBuckets))).1 (List.range numBuckets) := by
  simp only [sortItems, loadClass]

/-- The buckets come with the heaviest first. -/
theorem sortItems_perm_order {digit : ℕ × ℕ → ℤ} {hist scat : List (ℕ × ℕ)} {p q : ℕ × ℕ}
    (hp : p ∈ (sortItems digit hist scat).perm) (hq : q ∈ (sortItems digit hist scat).perm)
    (hlt : p.1 < q.1) : loadClass (sortItems digit hist scat).start q.2 ≤
      loadClass (sortItems digit hist scat).start p.2 := by
  rw [sortItems_perm] at hp hq
  have hkeys : ∀ a ∈ List.range numBuckets, ∀ c,
      some (loadClass (sortItems digit hist scat).start a) = some c →
        c ∈ (List.range loadClasses).reverse := fun a _ c hc => by
    rw [List.mem_reverse, List.mem_range, ← Option.some.inj hc, loadClass]
    exact (Nat.min_le_right _ _).trans_lt (by decide)
  have hkeep : (List.range loadClasses).reverse.Pairwise (· > ·) :=
    List.pairwise_reverse.mpr List.pairwise_lt_range
  generalize (sortItems digit hist scat).start = start at *
  exact scatter_decreasing hkeep hkeys hp hq hlt rfl rfl

/-! ### The items of a scalar -/

/-- The scalar of a term, out of Montgomery form. -/
def scalarAt (m : Mem) (b j term : ℕ) : Fr :=
  frToCanonical (frAt m .coeffs ((b * circulantSize + j) * phaseATerms + term))

/-- What an item of bucket `k` contributes to the scalar of its term. -/
def digitWeight (k packed : ℕ) : ℤ :=
  (if packed &&& 1 ≠ 0 then -1 else 1) * (k + 1) * 256 ^ (packed >>> 1 &&& 31)

section Items
variable {m : Mem} {b j : ℕ}

theorem digitsAt_eq_recoded {it : ℕ × ℕ} (hit : it.1 < phaseATerms) :
    digitsAt m b j it = recoded (scalarAt m b j it.1) it.2 := by
  have hget : ((List.range phaseATerms).map fun tid => frToCanonical (frAt m .coeffs
      (b * circulantSize * phaseATerms + j * phaseATerms + tid))).getD it.1 frZero = frToCanonical
        (frAt m .coeffs (b * circulantSize * phaseATerms + j * phaseATerms + it.1)) := by
    simp [List.getD_eq_getElem?_getD, hit]
  rw [digitsAt, hget, ← Nat.add_mul, scalarAt]

theorem scalarAt_lt (term : ℕ) : (scalarAt m b j term).toNat < numBuckets * (2 * numBuckets) ^ 31 :=
  (frToCanonical_lt _).trans (by decide)

theorem digitWeight_packItem {tid dd : ℕ} (hdd : dd < 32) {v : ℤ} {k : ℕ} (hv : v.natAbs = k + 1) :
    digitWeight k (packItem tid dd v) = v * 256 ^ dd := by
  rw [digitWeight, packItem_digit v hdd, packItem_sign v hdd]
  congr 1
  by_cases hneg : v < 0
  · rw [if_pos hneg, if_pos one_ne_zero]
    omega
  · rw [if_neg hneg, if_neg (not_not.mpr rfl)]
    omega

/-- Summed over the buckets, the items of a term give back its scalar. -/
theorem sum_digitWeight {term : ℕ} (hterm : term < phaseATerms) :
    ∑ k ∈ Finset.range numBuckets, ((withKey (fun it => bucketOf (digitsAt m b j it)) k
      phaseAIds).map fun it => if it.1 = term then digitsAt m b j it * 256 ^ it.2 else 0).sum =
        (scalarAt m b j term).toNat := by
  have hsum := sum_withKey (K := Finset.range numBuckets) (l := phaseAIds)
    (fun it _ k (hk : bucketOf (digitsAt m b j it) = some k) =>
      Finset.mem_range.mpr (bucketOf_lt (digitsAt_bounds b j it) hk))
    fun _ it => if it.1 = term then digitsAt m b j it * 256 ^ it.2 else 0
  have helim : ∀ it, ((bucketOf (digitsAt m b j it)).elim 0 fun _ =>
      if it.1 = term then digitsAt m b j it * 256 ^ it.2 else 0) =
        if it.1 = term then digitsAt m b j it * 256 ^ it.2 else 0 := fun it => by
    rcases hk : bucketOf (digitsAt m b j it) with - | k
    · have hzero : digitsAt m b j it = 0 := by
        by_contra hne
        rw [bucketOf, if_pos hne] at hk
        exact absurd hk (Option.some_ne_none _)
      rw [Option.elim_none, hzero, zero_mul, ite_self]
    · rfl
  simp only [helim, sum_phaseAIds] at hsum
  have hdigits : ∑ d ∈ Finset.range numDigits, digitsAt m b j (term, d) * 256 ^ d =
      (scalarAt m b j term).toNat := by
    rw [← SignedDigits.sum_digits_eq (scalarAt_lt (m := m) (b := b) (j := j) term)]
    refine Finset.sum_congr rfl fun d _ => ?_
    rw [digitsAt_eq_recoded hterm, recoded_eq]
    rfl
  rw [hsum, Finset.sum_eq_single_of_mem term (Finset.mem_range.mpr hterm) fun i _ hne =>
    Finset.sum_eq_zero fun d _ => if_neg hne, ← hdigits]
  exact Finset.sum_congr rfl fun d _ => if_pos rfl

end Items

/-! ### What the sort leaves -/

section Faithful
variable {m : Mem} {hist scat : ℕ → ℕ → AtomicOrder} {batch b j : ℕ}

theorem sort_starts (hb : b < batch) (hj : j < circulantSize) :
    let start := fun k => ((phaseASortDispatch hist scat batch).exec id m).elem 4 .starts
      ((b * circulantSize + j) * (numBuckets + 1) + k)
    start 0 = 0 ∧ (∀ k < numBuckets, start k ≤ start (k + 1)) ∧ start numBuckets ≤ phaseAItems := by
  have hright := sortedAt_right m hist scat b j
  refine ⟨?_, fun k hk => ?_, ?_⟩
  · simp only
    rw [sort_start_elem hb hj (by decide), sortedAt, sortItems_start
      ((hist j b).perm.trans (scat j b).perm.symm) (Nat.zero_le _), Finset.sum_range_zero]
  · simp only
    rw [sort_start_elem hb hj (Nat.lt_succ_of_lt hk), sort_start_elem hb hj (Nat.succ_lt_succ hk),
      hright.start_succ k hk]
    exact Nat.le_add_right _ _
  · simp only
    rw [sort_start_elem hb hj (Nat.lt_succ_self _)]
    exact hright.start_le _ (Nat.le_refl _)

theorem sort_bucket (hb : b < batch) (hj : j < circulantSize) {k : ℕ} (hk : k < numBuckets) :
    let m' := (phaseASortDispatch hist scat batch).exec id m
    let start := fun k => m'.elem 4 .starts ((b * circulantSize + j) * (numBuckets + 1) + k)
    ∃ l : List (ℕ × ℕ), l.Perm (withKey (fun it => bucketOf (digitsAt m b j it)) k phaseAIds) ∧
      start (k + 1) = start k + l.length ∧ ∀ i, ∀ h : i < l.length,
        m'.elem 2 .items ((b * circulantSize + j) * phaseAItems + (start k + i)) =
          packItem l[i].1 l[i].2 (digitsAt m b j l[i]) := by
  intro m' start
  have hsorted : SortedAt m' (b * circulantSize + j) (digitsAt m b j) := phaseASort_sorted hb hj
  obtain ⟨l, hl, hlen, hitem⟩ := hsorted.bucket k hk
  exact ⟨l, hl, hlen, hitem⟩

theorem mem_withKey_phaseAIds {k : ℕ} {it : ℕ × ℕ} :
    it ∈ withKey (fun it => bucketOf (digitsAt m b j it)) k phaseAIds ↔
      it.1 < phaseATerms ∧ it.2 < numDigits ∧
        (recoded (scalarAt m b j it.1) it.2).natAbs = k + 1 := by
  rw [withKey, List.mem_filter, decide_eq_true_iff, bucketOf_eq_some, phaseAIds,
    List.mem_product, List.mem_range, List.mem_range, and_assoc]
  exact and_congr_right fun hit => by rw [digitsAt_eq_recoded hit]

/-- The bucket order is a permutation, by decreasing load class. -/
theorem sort_perm (hb : b < batch) (hj : j < circulantSize) :
    let m' := (phaseASortDispatch hist scat batch).exec id m
    let start := fun k => m'.elem 4 .starts ((b * circulantSize + j) * (numBuckets + 1) + k)
    let bucket := fun t => m'.elem 4 .perm ((b * circulantSize + j) * numBuckets + t)
    ((List.range numBuckets).map bucket).Perm (List.range numBuckets) ∧
      ∀ t, t + 1 < numBuckets → loadClass start (bucket (t + 1)) ≤ loadClass start (bucket t) := by
  intro m' start bucket
  have hright := sortedAt_right m hist scat b j
  have hsorted : SortedAt m' (b * circulantSize + j) (digitsAt m b j) := phaseASort_sorted hb hj
  refine ⟨((List.subperm_of_subset List.nodup_range fun k hk => ?_).perm_of_length_le ?_).symm,
    fun t ht => ?_⟩
  · obtain ⟨t, ht, heq⟩ := hsorted.perm_surj k (List.mem_range.mp hk)
    exact List.mem_map.mpr ⟨t, List.mem_range.mpr ht, heq⟩
  · rw [List.length_map]
  · have hslot : ∀ t < numBuckets, ∃ p ∈ (sortedAt m hist scat b j).perm, p.1 = t ∧
        bucket t = p.2 := fun t ht => by
      obtain ⟨p, hp, rfl⟩ := List.mem_map.mp (hright.slots.mem_iff.mpr (List.mem_range.mpr ht))
      exact ⟨p, hp, rfl, sort_perm_elem hb hj hp⟩
    have hclass : ∀ k < numBuckets, loadClass start k =
        loadClass (sortedAt m hist scat b j).start k := fun k hk => by
      simp only [loadClass, start]
      rw [sort_start_elem hb hj (Nat.succ_lt_succ hk), sort_start_elem hb hj (Nat.lt_succ_of_lt hk)]
    have hlt : ∀ t < numBuckets, bucket t < numBuckets := hsorted.perm_lt
    obtain ⟨p, hp, hp₁, hp₂⟩ := hslot t (Nat.lt_of_succ_lt ht)
    obtain ⟨q, hq, hq₁, hq₂⟩ := hslot (t + 1) ht
    rw [hclass _ (hlt _ ht), hclass _ (hlt _ (Nat.lt_of_succ_lt ht)), hp₂, hq₂]
    exact sortItems_perm_order hp hq (by omega)

/-- Whatever the order of the atomic additions, the sort neither loses nor duplicates a digit: the
items of bucket `k` are the digits of absolute value `k + 1`, each once, and the items of a term
spell its scalar. The buckets are ordered by load. -/
theorem phaseASort_faithful {u : ℕ → ℕ} (hu : ∀ n < batch * 262144, u n = n) (m : Mem)
    (hist scat : ℕ → ℕ → AtomicOrder) (hb : b < batch) (hj : j < circulantSize) :
    let m' := (phaseASortDispatch hist scat batch).exec u m
    let o := b * circulantSize + j
    let start := fun k => m'.elem 4 .starts (o * (numBuckets + 1) + k)
    let item := fun i => m'.elem 2 .items (o * phaseAItems + i)
    let bucket := fun t => m'.elem 4 .perm (o * numBuckets + t)
    let digit := fun it : ℕ × ℕ => recoded (scalarAt m b j it.1) it.2
    (start 0 = 0 ∧ (∀ k < numBuckets, start k ≤ start (k + 1)) ∧ start numBuckets ≤ phaseAItems) ∧
    (∀ k < numBuckets, ∃ l : List (ℕ × ℕ), l.Nodup ∧
      (∀ it, it ∈ l ↔ it.1 < phaseATerms ∧ it.2 < numDigits ∧ (digit it).natAbs = k + 1) ∧
      start (k + 1) = start k + l.length ∧
      ∀ i, ∀ h : i < l.length,
        let packed := item (start k + i)
        packed = packItem l[i].1 l[i].2 (digit l[i]) ∧ packed < 2 ^ 16 ∧ packed >>> 6 = l[i].1 ∧
        packed >>> 1 &&& 31 = l[i].2 ∧ packed &&& 1 = if digit l[i] < 0 then 1 else 0) ∧
    (∀ term < phaseATerms,
      let scalar := scalarAt m b j term
      scalar.toNat < frModulus ∧
      (∀ s, FrRep (frAt m .coeffs (o * phaseATerms + term)) s → scalar.toNat = s.val) ∧
      (∑ k ∈ Finset.range numBuckets, ((List.range' (start k) (start (k + 1) - start k)).map fun i =>
        if item i >>> 6 = term then digitWeight k (item i) else 0).sum) = (scalar.toNat : ℤ) ∧
      (∀ d < numDigits, -127 ≤ digit (term, d) ∧ digit (term, d) ≤ 128) ∧
      carryInto scalar numDigits = 0) ∧
    ((List.range numBuckets).map bucket).Perm (List.range numBuckets) ∧
    ∀ t, t + 1 < numBuckets → loadClass start (bucket (t + 1)) ≤ loadClass start (bucket t) := by
  -- With exact indices the sort can be read off the memory it leaves.
  have hexact : Within (fun _ => True) u m (phaseASortDispatch hist scat batch) :=
    within_phaseASort hu (fun _ _ _ _ => trivial) (fun _ _ _ _ => trivial)
      (fun _ _ _ _ => trivial) fun _ _ _ _ => trivial
  rw [hexact.exec]
  intro m' o start item bucket digit
  have hbucket : ∀ k < numBuckets, ∃ l : List (ℕ × ℕ),
      l.Perm (withKey (fun it => bucketOf (digitsAt m b j it)) k phaseAIds) ∧
      start (k + 1) = start k + l.length ∧ ∀ i, ∀ h : i < l.length,
        item (start k + i) = packItem l[i].1 l[i].2 (digitsAt m b j l[i]) :=
    fun k hk => sort_bucket hb hj hk
  refine ⟨sort_starts hb hj, fun k hk => ?_, fun term hterm => ⟨frToCanonical_lt _,
    fun s hs => frToCanonical_toNat hs, ?_, fun d _ => ?_, ?_⟩, sort_perm hb hj⟩
  -- A bucket holds the digits of one absolute value, in the order the atomics took effect.
  · obtain ⟨l, hl, hlen, hitem⟩ := hbucket k hk
    have hmem : ∀ it, it ∈ l ↔ it.1 < phaseATerms ∧ it.2 < numDigits ∧
        (digit it).natAbs = k + 1 := fun it => hl.mem_iff.trans mem_withKey_phaseAIds
    refine ⟨l, hl.nodup_iff.mpr ((List.nodup_range.product List.nodup_range).filter _), hmem, hlen,
      fun i hi => ?_⟩
    obtain ⟨hterm, hdd, -⟩ := (hmem _).mp (List.getElem_mem hi)
    have hi' := hitem i hi
    rw [digitsAt_eq_recoded hterm] at hi'
    simp only [hi']
    exact ⟨rfl, packItem_lt _ hterm hdd, packItem_thread _ hdd, packItem_digit _ hdd,
      packItem_sign _ hdd⟩
  -- Over all buckets the items of a term are its digits, with their weights.
  · rw [← sum_digitWeight hterm]
    refine Finset.sum_congr rfl fun k hk => ?_
    obtain ⟨l, hl, hlen, hitem⟩ := hbucket k (Finset.mem_range.mp hk)
    rw [← (hl.map _).sum_eq, hlen, Nat.add_sub_cancel_left]
    refine congrArg List.sum (List.ext_getElem (by simp) fun i hi _ => ?_)
    rw [List.length_map, List.length_range'] at hi
    obtain ⟨hthread, hdd, habs⟩ := mem_withKey_phaseAIds.mp (hl.mem_iff.mp (List.getElem_mem hi))
    rw [List.getElem_map, List.getElem_range', Nat.one_mul, List.getElem_map, hitem i hi,
      packItem_thread _ hdd, digitsAt_eq_recoded hthread, digitWeight_packItem hdd habs]
  · have hbounds := SignedDigits.digit_bounds (h := numBuckets) (by decide)
      (s := (scalarAt m b j term).toNat) d
    simp only [digit, recoded_eq]
    simp only [numBuckets] at hbounds ⊢
    omega
  · rw [carryInto_eq, SignedDigits.carry_eq_zero (scalarAt_lt term)]
    rfl

/-- The bucket order of a sort on the device, of a memory whose scalars are all one. -/
theorem phaseASort_faithful_phaseASample :
    let m' := (phaseASortDispatch (fun _ _ => inTurn) (fun _ _ => inReverse) 1).exec uint32
      phaseASample
    ((List.range numBuckets).map fun t =>
      m'.elem 4 .perm ((0 * circulantSize + 5) * numBuckets + t)).Perm (List.range numBuckets) :=
  (phaseASort_faithful (b := 0) (j := 5) (fun n hn => uint32_of_lt (by omega)) phaseASample
    (fun _ _ => inTurn) (fun _ _ => inReverse) (by decide) (by decide)).2.2.2.1

end Faithful

end Vkzg
