import Vkzg.Library.CountingSort
import Vkzg.Library.LimbBytes
import Vkzg.Library.SignedDigits
import Vkzg.Shaders.BucketReduce
import Vkzg.Shaders.Ntt

/-! `k_phase_a_sort.comp` and `k_phase_a.comp`: the scalars of one output are recoded to signed
digits and sorted into buckets, then each bucket sums its table points. The atomic additions of the
sort may happen in any order; the sum of a bucket does not depend on it. -/

namespace Vkzg
open Radix Gpu Gpu.Kernel CountingSort

/-! ### The kernels -/

/-- The thread and digit of an atomic addition, each performed once, in some order. -/
structure AtomicOrder where
  order : List (ℕ × ℕ)
  perm : order.Perm (List.range phaseATerms ×ˢ List.range numDigits)

/-- The digit at position `dd` and the carry into the next. -/
def recodeDigit (scalar : Fr) (dd : ℕ) (carry : ℤ) : ℤ × ℤ :=
  let byte := (scalar.get (dd >>> 2)).toNat >>> ((dd &&& 3) * 8) &&& 0xff
  let v := (byte : ℤ) + carry
  if v > numBuckets then (v - 2 * numBuckets, 1) else (v, 0)

/-- The carry threaded through the digits below `dd`. -/
def carryInto (scalar : Fr) : ℕ → ℤ
  | 0 => 0
  | dd + 1 => (recodeDigit scalar dd (carryInto scalar dd)).2

def recoded (scalar : Fr) (dd : ℕ) : ℤ := (recodeDigit scalar dd (carryInto scalar dd)).1

/-- The bucket a digit is counted in. -/
def bucketOf (v : ℤ) : Option ℕ := if v ≠ 0 then some (v.natAbs - 1) else none

/-- An item as stored: thread, digit position and sign. -/
def packItem (tid dd : ℕ) (v : ℤ) : ℕ := tid <<< 6 ||| dd <<< 1 ||| if v < 0 then 1 else 0

/-- What the sort of one output produces: bucket starts, then slot and bucket, slot and item. -/
structure Sorted where
  start : ℕ → ℕ
  perm : List (ℕ × ℕ)
  items : List (ℕ × ℕ × ℕ)

def sortItems (digit : ℕ × ℕ → ℤ) (hist scat : List (ℕ × ℕ)) : Sorted :=
  let key := fun it => bucketOf (digit it)
  let cursors := starts (List.range numBuckets) (histogram key hist)
  let tgStart := Function.update cursors.1 numBuckets cursors.2
  let cls := fun k => some (min (tgStart (k + 1) - tgStart k) (loadClasses - 1))
  -- The classes are numbered from the heaviest down.
  let pos := starts (List.range loadClasses).reverse (histogram cls (List.range numBuckets))
  ⟨tgStart, scatter cls pos.1 (List.range numBuckets), scatter key cursors.1 scat⟩

def kPhaseASort (hist scat : AtomicOrder) (j b : ℕ) : Shader Unit := do
  let outIndex := b * circulantSize + j
  let itemsBase := outIndex * phaseAItems
  let startsBase := outIndex * (numBuckets + 1)
  let permBase := outIndex * numBuckets
  let scalars ← gather (List.range phaseATerms) fun tid => frToCanonical <$>
    frLoad .coeffs ((b * circulantSize * phaseATerms + j * phaseATerms + tid) * frWords)
  let digit := fun it : ℕ × ℕ => recoded (scalars.getD it.1 frZero) it.2
  let sorted := sortItems digit hist.order scat.order
  each sorted.perm fun p => store 4 .perm (permBase + p.1) p.2
  storeWords 4 (numBuckets + 1) .starts startsBase sorted.start
  each sorted.items fun p =>
    store 2 .items (itemsBase + p.1) (packItem p.2.1 p.2.2 (digit p.2))

def phaseAStep (tbase itemsBase : ℕ) (acc : G1) (it : ℕ) : Shader G1 := do
  let packed ← load 2 .items (itemsBase + it)
  let pt ← g1aLoad .table
    (tbase + ((packed >>> 6) * numDigits + (packed >>> 1 &&& 31)) * affineWords)
  let pt := if packed &&& 1 ≠ 0 then { pt with y := fpNeg pt.y } else pt
  pure (g1Madd acc pt)

def kPhaseA (j b : ℕ) : Shader Unit := do
  let outIndex := b * circulantSize + j
  let startsBase := outIndex * (numBuckets + 1)
  let itemsBase := outIndex * phaseAItems
  let tbase := j * phaseATerms * numDigits * affineWords
  each (List.range numBuckets) fun tid => do
    let bucket ← load 4 .perm (outIndex * numBuckets + tid)
    let lo ← load 4 .starts (startsBase + bucket)
    let hi ← load 4 .starts (startsBase + bucket + 1)
    let acc ← (List.range' lo (hi - lo)).foldlM (phaseAStep tbase itemsBase) g1Identity
    g1Store .buckets
      ((b * circulantSize * numBuckets + j * numBuckets + bucket) * jacobianWords) acc

/-! ### Digits -/

section Digits
variable {a : Fr} {s : ℕ}

theorem digitByte_eq (a : Fr) (dd : ℕ) :
    (a.get (dd >>> 2)).toNat >>> ((dd &&& 3) * 8) &&& 0xff =
      SignedDigits.plain numBuckets a.toNat dd := by
  rw [Nat.shiftRight_eq_div_pow dd 2, Nat.and_two_pow_sub_one_eq_mod dd 2,
    Nat.and_two_pow_sub_one_eq_mod _ 8]
  exact a.get_byte dd

theorem carryInto_eq (a : Fr) (dd : ℕ) :
    carryInto a dd = SignedDigits.carry numBuckets a.toNat dd := by
  induction dd with
  | zero => rfl
  | succ dd ih =>
    simp only [carryInto, recodeDigit, digitByte_eq, ih, SignedDigits.carry]
    split_ifs <;> first | rfl | omega

theorem recoded_eq (a : Fr) (dd : ℕ) :
    recoded a dd = SignedDigits.digit numBuckets a.toNat dd := by
  rw [SignedDigits.digit_eq]
  simp only [recoded, recodeDigit, digitByte_eq, carryInto_eq]
  split_ifs <;> first | rfl | omega

theorem bucketOf_eq_some {v : ℤ} {k : ℕ} : bucketOf v = some k ↔ v.natAbs = k + 1 := by
  rw [bucketOf]
  split_ifs with h
  · rw [Option.some_inj]
    omega
  · simp only [false_iff]
    omega

theorem bucketOf_lt {v : ℤ} {k : ℕ} (hv : -(numBuckets : ℤ) ≤ v ∧ v ≤ numBuckets)
    (h : bucketOf v = some k) : k < numBuckets := by
  rw [bucketOf_eq_some] at h
  omega

end Digits

/-! ### Packed items -/

section Items
variable {tid dd : ℕ} (v : ℤ)

theorem packItem_eq (hdd : dd < 32) :
    packItem tid dd v = tid * 64 + (dd * 2 + if v < 0 then 1 else 0) := by
  have hsign : (if v < 0 then 1 else 0) < 2 ^ 1 := by split_ifs <;> decide
  have hlow : dd <<< 1 ||| (if v < 0 then 1 else 0) = dd * 2 + if v < 0 then 1 else 0 := by
    rw [← Nat.shiftLeft_add_eq_or_of_lt hsign, Nat.shiftLeft_eq, pow_one]
  have hbound : dd * 2 + (if v < 0 then 1 else 0) < 2 ^ 6 := by
    split_ifs <;> omega
  rw [packItem, Nat.or_assoc, hlow, ← Nat.shiftLeft_add_eq_or_of_lt hbound, Nat.shiftLeft_eq]

theorem packItem_lt (htid : tid < 64) (hdd : dd < 32) :
    packItem tid dd v < 256 ^ 2 := by
  rw [packItem_eq v hdd]
  split_ifs <;> omega

theorem packItem_thread (hdd : dd < 32) : packItem tid dd v >>> 6 = tid := by
  rw [packItem_eq v hdd, Nat.shiftRight_eq_div_pow]
  split_ifs <;> omega

theorem packItem_digit (hdd : dd < 32) : packItem tid dd v >>> 1 &&& 31 = dd := by
  rw [packItem_eq v hdd, Nat.shiftRight_eq_div_pow, Nat.and_two_pow_sub_one_eq_mod _ 5]
  split_ifs <;> omega

theorem packItem_sign (hdd : dd < 32) :
    packItem tid dd v &&& 1 = if v < 0 then 1 else 0 := by
  rw [packItem_eq v hdd, Nat.and_two_pow_sub_one_eq_mod _ 1]
  split_ifs <;> omega

end Items

/-! ### The sort -/

/-- What the curve pass relies on: the bucket order is a permutation, the slots of the items are
distinct, and the items of bucket `k` fill the slots from its start to the next. -/
structure Sorted.Right (sorted : Sorted) (digit : ℕ × ℕ → ℤ) (l : List (ℕ × ℕ)) : Prop where
  slots : (sorted.perm.map Prod.fst).Perm (List.range numBuckets)
  buckets : sorted.perm.map Prod.snd = List.range numBuckets
  distinct : (sorted.items.map Prod.fst).Nodup
  bound : ∀ p ∈ sorted.items, p.1 < phaseAItems ∧ p.2 ∈ l
  start_le : ∀ k ≤ numBuckets, sorted.start k ≤ phaseAItems
  start_succ : ∀ k < numBuckets, sorted.start (k + 1) =
    sorted.start k + (withKey (fun it => bucketOf (digit it)) k l).length
  item : ∀ k < numBuckets, ∀ i, ∀ h : i < (withKey (fun it => bucketOf (digit it)) k l).length,
    (sorted.start k + i, (withKey (fun it => bucketOf (digit it)) k l)[i]) ∈ sorted.items

section Sorting
variable {digit : ℕ × ℕ → ℤ} {hist scat : List (ℕ × ℕ)}

theorem sortItems_start (hperm : hist.Perm scat) {k : ℕ} (hk : k ≤ numBuckets) :
    (sortItems digit hist scat).start k =
      ∑ i ∈ Finset.range k, histogram (fun it => bucketOf (digit it)) scat i := by
  rw [← histogram_perm hperm]
  rcases Nat.lt_or_eq_of_le hk with hlt | rfl
  · simp only [sortItems]
    rw [Function.update_of_ne (Nat.ne_of_lt hlt), starts_range hlt]
  · simp only [sortItems]
    rw [Function.update_self, starts_total List.nodup_range, List.toFinset_range]

theorem sortItems_right (hperm : hist.Perm scat) (hlength : scat.length = phaseAItems)
    (hdigit : ∀ it, -(numBuckets : ℤ) ≤ digit it ∧ digit it ≤ numBuckets) :
    (sortItems digit hist scat).Right digit scat := by
  have hkeys : ∀ it ∈ scat, ∀ k, bucketOf (digit it) = some k → k ∈ List.range numBuckets :=
    fun it _ k hk => List.mem_range.mpr (bucketOf_lt (hdigit it) hk)
  have htotal : ∑ i ∈ Finset.range numBuckets, histogram (fun it => bucketOf (digit it)) scat i ≤
      phaseAItems := by
    rw [← hlength]
    exact sum_histogram_le fun it hit k hk => by simpa using hkeys it hit k hk
  have hitems : (sortItems digit hist scat).items = scatter (fun it => bucketOf (digit it))
      (starts (List.range numBuckets) (histogram (fun it => bucketOf (digit it)) scat)).1 scat := by
    rw [← histogram_perm hperm]
    rfl
  refine ⟨?_, ?_, ?_, fun p hp => ?_, fun k hk => ?_, fun k hk => ?_, fun k hk i hi => ?_⟩
  · exact slots_scatter (List.nodup_reverse.mpr List.nodup_range) fun k _ =>
      ⟨_, List.mem_reverse.mpr (List.mem_range.mpr (by simp only [loadClasses]; omega)), rfl⟩
  · rw [sortItems, map_snd_scatter]
    exact List.filter_eq_self.mpr fun _ _ => rfl
  · rw [hitems]
    exact nodup_scatter (separated_starts List.nodup_range hkeys)
  · rw [hitems] at hp
    obtain ⟨_, -, -, -, hmem⟩ := mem_scatter hp
    have hslot := slot_lt_total List.nodup_range hkeys hp
    rw [starts_total List.nodup_range, List.toFinset_range] at hslot
    exact ⟨Nat.lt_of_lt_of_le hslot htotal, hmem⟩
  · rw [sortItems_start hperm hk]
    exact Nat.le_trans (Finset.sum_le_sum_of_subset (Finset.range_mono hk)) htotal
  · rw [sortItems_start hperm hk, sortItems_start hperm (Nat.le_of_lt hk), Finset.sum_range_succ,
      histogram_eq]
  · rw [hitems, sortItems_start hperm (Nat.le_of_lt hk), ← starts_range hk]
    exact getElem_withKey_mem_scatter hi

end Sorting

/-! ### The sort in memory -/

/-- The threads and digit positions of one output. -/
def phaseAIds : List (ℕ × ℕ) := List.range phaseATerms ×ˢ List.range numDigits

/-- The sorted digits of output `o` lie in memory. -/
structure SortedAt (m : Mem) (o : ℕ) (digit : ℕ × ℕ → ℤ) : Prop where
  perm_lt : ∀ t < numBuckets, m.elem 4 .perm (o * numBuckets + t) < numBuckets
  perm_surj : ∀ k < numBuckets, ∃ t < numBuckets, m.elem 4 .perm (o * numBuckets + t) = k
  bucket : ∀ k < numBuckets, ∃ l : List (ℕ × ℕ),
    l.Perm (withKey (fun it => bucketOf (digit it)) k phaseAIds) ∧
    m.elem 4 .starts (o * (numBuckets + 1) + k + 1) =
      m.elem 4 .starts (o * (numBuckets + 1) + k) + l.length ∧
    ∀ i, ∀ h : i < l.length,
      m.elem 2 .items (o * phaseAItems + (m.elem 4 .starts (o * (numBuckets + 1) + k) + i)) =
        packItem l[i].1 l[i].2 (digit l[i])

def phaseASortDispatch (hist scat : ℕ → ℕ → AtomicOrder) (batch : ℕ) : Shader Unit :=
  dispatch (fun j b => kPhaseASort (hist j b) (scat j b) j b) circulantSize batch

/-- The digits of the scalars of output `j` of blob `b`, by thread and position. -/
def digitsAt (m : Mem) (b j : ℕ) (it : ℕ × ℕ) : ℤ :=
  recoded (((List.range phaseATerms).map fun tid => frToCanonical
    (frAt m .coeffs (b * circulantSize * phaseATerms + j * phaseATerms + tid))).getD it.1 frZero) it.2

section Memory
variable {m : Mem} {hist scat : ℕ → ℕ → AtomicOrder} {batch : ℕ}

theorem digitsAt_bounds (b j : ℕ) (it : ℕ × ℕ) :
    -(numBuckets : ℤ) ≤ digitsAt m b j it ∧ digitsAt m b j it ≤ numBuckets := by
  rw [digitsAt, recoded_eq]
  have h := SignedDigits.digit_bounds (h := numBuckets) (by decide) (s := (((List.range
    phaseATerms).map fun tid => frToCanonical (frAt m .coeffs (b * circulantSize * phaseATerms +
      j * phaseATerms + tid))).getD it.1 frZero).toNat) it.2
  exact ⟨Int.le_of_lt h.1, h.2⟩

def sortedAt (m : Mem) (hist scat : ℕ → ℕ → AtomicOrder) (b j : ℕ) : Sorted :=
  sortItems (digitsAt m b j) (hist j b).order (scat j b).order

theorem sortedAt_right (m : Mem) (hist scat : ℕ → ℕ → AtomicOrder) (b j : ℕ) :
    (sortedAt m hist scat b j).Right (digitsAt m b j) (scat j b).order :=
  sortItems_right ((hist j b).perm.trans (scat j b).perm.symm)
    (by rw [(scat j b).perm.length_eq, List.length_product, List.length_range, List.length_range]; rfl)
    (digitsAt_bounds b j)

theorem stores_kPhaseASort (j b : ℕ) :
    (kPhaseASort (hist j b) (scat j b) j b).stores id m =
      (each (sortedAt m hist scat b j).perm fun p =>
        store 4 .perm ((b * circulantSize + j) * numBuckets + p.1) p.2).stores id m ++
      ((storeWords 4 (numBuckets + 1) .starts ((b * circulantSize + j) * (numBuckets + 1))
        (sortedAt m hist scat b j).start).stores id m ++
      (each (sortedAt m hist scat b j).items fun p =>
        store 2 .items ((b * circulantSize + j) * phaseAItems + p.1)
          (packItem p.2.1 p.2.2 (digitsAt m b j p.2))).stores id m) := by
  simp only [kPhaseASort, stores_bind, stores_gather, stores_map, stores_frLoad, val_gather,
    val_map, val_frLoad]
  rw [List.flatMap_eq_nil_iff.mpr fun _ _ => rfl, List.nil_append]
  rfl

theorem blocks_sort_perm : Blocks ((phaseASortDispatch hist scat batch).stores id m) .perm 4 1
    (gridItems circulantSize batch fun b j => (sortedAt m hist scat b j).perm)
    (fun q => (q.1 * circulantSize + q.2.1) * numBuckets + q.2.2.1) (fun q _ => q.2.2.2) := by
  refine blocks_grid (fun b j (p : ℕ × ℕ) => (b * circulantSize + j) * numBuckets + p.1)
    (fun _ _ (p : ℕ × ℕ) _ => p.2) fun b _ j _ => (blocks_each_store (m := m) _ _ _).of_landing ?_
  rw [stores_kPhaseASort, landing_append, landing_append, stores_storeWords,
    landing_block_other (by decide), landing_each_store_other (show Buf.items ≠ .perm by decide),
    List.append_nil, List.append_nil]

theorem blocks_sort_starts : Blocks ((phaseASortDispatch hist scat batch).stores id m) .starts 4
    (numBuckets + 1) (gridItems circulantSize batch fun _ _ => [()])
    (fun q => q.1 * circulantSize + q.2.1) (fun q => (sortedAt m hist scat q.1 q.2.1).start) := by
  refine blocks_grid (fun b j _ => b * circulantSize + j)
    (fun b j _ => (sortedAt m hist scat b j).start) fun b _ j _ =>
      (blocks_storeWords (m := m) rfl _).of_landing ?_
  rw [stores_kPhaseASort, landing_append, landing_append, landing_each_store_other (by decide),
    landing_each_store_other (by decide), List.append_nil, List.nil_append]

theorem blocks_sort_items : Blocks ((phaseASortDispatch hist scat batch).stores id m) .items 2 1
    (gridItems circulantSize batch fun b j => (sortedAt m hist scat b j).items)
    (fun q => (q.1 * circulantSize + q.2.1) * phaseAItems + q.2.2.1)
    (fun q _ => packItem q.2.2.2.1 q.2.2.2.2 (digitsAt m q.1 q.2.1 q.2.2.2)) := by
  refine blocks_grid (fun b j (p : ℕ × ℕ × ℕ) => (b * circulantSize + j) * phaseAItems + p.1)
    (fun b j (p : ℕ × ℕ × ℕ) _ => packItem p.2.1 p.2.2 (digitsAt m b j p.2)) fun b _ j _ =>
      (blocks_each_store (m := m) _ _ _).of_landing ?_
  rw [stores_kPhaseASort, landing_append, landing_append, stores_storeWords,
    landing_block_other (by decide), landing_each_store_other (by decide), List.nil_append,
    List.nil_append]

theorem sort_perm_elem {b j : ℕ} (hb : b < batch) (hj : j < circulantSize) {p : ℕ × ℕ}
    (hp : p ∈ (sortedAt m hist scat b j).perm) :
    ((phaseASortDispatch hist scat batch).exec id m).elem 4 .perm
      ((b * circulantSize + j) * numBuckets + p.1) = p.2 := by
  have hslot : ∀ b j, ∀ p ∈ (sortedAt m hist scat b j).perm, p.1 < numBuckets := fun b j p hp =>
    List.mem_range.mp ((sortedAt_right m hist scat b j).slots.mem_iff.mp (List.mem_map_of_mem hp))
  have hnodup := (sortedAt_right m hist scat b j).slots.nodup_iff.mpr
    List.nodup_range
  have hbound : p.2 < numBuckets := by
    have hmem := List.mem_map_of_mem (f := Prod.snd) hp
    rw [(sortedAt_right m hist scat b j).buckets] at hmem
    exact List.mem_range.mp hmem
  rw [exec, blocks_sort_perm.hit_one (x := (b, j, p)) ?_ (mem_gridItems.mpr ⟨hb, hj, hp⟩),
    Nat.mod_eq_of_lt (Nat.lt_trans hbound (by decide))]
  rintro ⟨b₁, j₁, p₁⟩ h₁ ⟨b₂, j₂, p₂⟩ h₂ heq
  obtain ⟨-, hj₁, hp₁⟩ := mem_gridItems.mp h₁
  obtain ⟨-, hj₂, hp₂⟩ := mem_gridItems.mp h₂
  obtain ⟨ho, hslots⟩ := block_inj (hslot _ _ _ hp₁) (hslot _ _ _ hp₂) heq
  obtain ⟨rfl, rfl⟩ := block_inj hj₁ hj₂ ho
  have hinj := List.inj_on_of_nodup_map ((sortedAt_right m hist scat b₁ j₁).slots.nodup_iff.mpr
    List.nodup_range) hp₁ hp₂ hslots
  rw [hinj]

theorem sort_start_elem {b j : ℕ} (hb : b < batch) (hj : j < circulantSize) {k : ℕ}
    (hk : k < numBuckets + 1) :
    ((phaseASortDispatch hist scat batch).exec id m).elem 4 .starts
      ((b * circulantSize + j) * (numBuckets + 1) + k) = (sortedAt m hist scat b j).start k := by
  have hbound := (sortedAt_right m hist scat b j).start_le k
    (Nat.le_of_lt_succ hk)
  rw [exec, blocks_sort_starts.hit (x := (b, j, ())) ?_
    (mem_gridItems.mpr ⟨hb, hj, List.mem_singleton.mpr rfl⟩) hk,
    Nat.mod_eq_of_lt (Nat.lt_of_le_of_lt hbound (by decide))]
  rintro ⟨b₁, j₁, ⟨⟩⟩ h₁ ⟨b₂, j₂, ⟨⟩⟩ h₂ heq
  obtain ⟨rfl, rfl⟩ := block_inj (mem_gridItems.mp h₁).2.1 (mem_gridItems.mp h₂).2.1 heq
  rfl

theorem sort_item_elem {b j : ℕ} (hb : b < batch) (hj : j < circulantSize) {p : ℕ × ℕ × ℕ}
    (hp : p ∈ (sortedAt m hist scat b j).items) :
    ((phaseASortDispatch hist scat batch).exec id m).elem 2 .items
      ((b * circulantSize + j) * phaseAItems + p.1) =
        packItem p.2.1 p.2.2 (digitsAt m b j p.2) := by
  have hid : p.2.1 < 64 ∧ p.2.2 < 32 := by
    have hmem := List.mem_product.mp
      ((scat j b).perm.mem_iff.mp ((sortedAt_right m hist scat b j).bound p hp).2)
    exact ⟨List.mem_range.mp hmem.1, List.mem_range.mp hmem.2⟩
  rw [exec, blocks_sort_items.hit_one (x := (b, j, p)) ?_ (mem_gridItems.mpr ⟨hb, hj, hp⟩),
    Nat.mod_eq_of_lt (packItem_lt _ hid.1 hid.2)]
  rintro ⟨b₁, j₁, p₁⟩ h₁ ⟨b₂, j₂, p₂⟩ h₂ heq
  obtain ⟨-, hj₁, hp₁⟩ := mem_gridItems.mp h₁
  obtain ⟨-, hj₂, hp₂⟩ := mem_gridItems.mp h₂
  obtain ⟨ho, hslots⟩ := block_inj ((sortedAt_right m hist scat b₁ j₁).bound p₁ hp₁).1
    ((sortedAt_right m hist scat b₂ j₂).bound p₂ hp₂).1 heq
  obtain ⟨rfl, rfl⟩ := block_inj hj₁ hj₂ ho
  have hinj := List.inj_on_of_nodup_map (sortedAt_right m hist scat b₁ j₁).distinct hp₁ hp₂ hslots
  rw [hinj]

/-- Whatever the order of the atomic additions, the digits end up sorted. -/
theorem phaseASort_sorted {b j : ℕ} (hb : b < batch) (hj : j < circulantSize) :
    SortedAt ((phaseASortDispatch hist scat batch).exec id m) (b * circulantSize + j)
      (digitsAt m b j) := by
  have hright := sortedAt_right m hist scat b j
  have hslots : ∀ t < numBuckets, ∃ p ∈ (sortedAt m hist scat b j).perm, p.1 = t := fun t ht =>
    List.mem_map.mp (hright.slots.mem_iff.mpr (List.mem_range.mpr ht))
  have hbuckets : ∀ p ∈ (sortedAt m hist scat b j).perm, p.2 < numBuckets := fun p hp => by
    have hmem := List.mem_map_of_mem (f := Prod.snd) hp
    rw [hright.buckets] at hmem
    exact List.mem_range.mp hmem
  refine ⟨fun t ht => ?_, fun k hk => ?_, fun k hk => ⟨_, (scat j b).perm.filter _, ?_,
    fun i hi => ?_⟩⟩
  · obtain ⟨p, hp, rfl⟩ := hslots t ht
    rw [sort_perm_elem hb hj hp]
    exact hbuckets p hp
  · have hmem : k ∈ (sortedAt m hist scat b j).perm.map Prod.snd := by
      rw [hright.buckets]
      exact List.mem_range.mpr hk
    obtain ⟨p, hp, rfl⟩ := List.mem_map.mp hmem
    refine ⟨p.1, List.mem_range.mp (hright.slots.mem_iff.mp (List.mem_map_of_mem hp)), ?_⟩
    exact sort_perm_elem hb hj hp
  · rw [Nat.add_assoc, sort_start_elem hb hj (Nat.succ_lt_succ hk),
      sort_start_elem hb hj (Nat.lt_succ_of_lt hk)]
    exact hright.start_succ k hk
  · rw [sort_start_elem hb hj (Nat.lt_succ_of_lt hk)]
    exact sort_item_elem hb hj (hright.item k hk i hi)

end Memory

/-! ### The curve pass -/

theorem foldl_range'_rep {step : G1 → ℕ → G1} {l : List Point} {lo : ℕ}
    (h : ∀ i, ∀ hi : i < l.length, ∀ g P, G1Rep g P → G1Rep (step g (lo + i)) (P + l[i]))
    {g : G1} {P : Point} (hg : G1Rep g P) :
    G1Rep ((List.range' lo l.length).foldl step g) (P + l.sum) := by
  induction l generalizing lo g P with
  | nil => simpa using hg
  | cons Q l ih =>
    rw [List.length_cons, List.range'_succ, List.foldl_cons, List.sum_cons, ← add_assoc]
    refine ih (fun i hi g P hg => ?_) (h 0 (Nat.succ_pos _) g P hg)
    have hstep := h (i + 1) (Nat.succ_lt_succ hi) g P hg
    rwa [show lo + (i + 1) = lo + 1 + i by omega] at hstep

/-- The table holds the affine point of each output, scalar and digit position. -/
def TableHolds (m : Mem) (T : ℕ → ℕ → ℕ → Point) : Prop :=
  ∀ j < circulantSize, ∀ i < phaseATerms, ∀ d < numDigits,
    G1ARep (g1aAt m .table ((j * phaseATerms + i) * numDigits + d)) (T j i d)

def phaseADispatch (batch : ℕ) : Shader Unit := dispatch kPhaseA circulantSize batch

/-- What the thread of bucket `k` stores. -/
def bucketPoint (m : Mem) (b j k : ℕ) : G1 :=
  let lo := m.elem 4 .starts ((b * circulantSize + j) * (numBuckets + 1) + k)
  let hi := m.elem 4 .starts ((b * circulantSize + j) * (numBuckets + 1) + k + 1)
  (List.range' lo (hi - lo)).foldl (fun acc it =>
    (phaseAStep (j * phaseATerms * numDigits * affineWords) ((b * circulantSize + j) * phaseAItems)
      acc it).val id m) g1Identity

/-- The point an item stands for. -/
def itemPoint {G : Type} [AddCommGroup G] (digit : ℕ × ℕ → ℤ) (T : ℕ → ℕ → G) (it : ℕ × ℕ) : G :=
  if digit it < 0 then -T it.1 it.2 else T it.1 it.2

section Curve
variable {m : Mem} {batch : ℕ} {T : ℕ → ℕ → ℕ → Point}

theorem stores_phaseAStep (u : ℕ → ℕ) (tbase itemsBase : ℕ) (g : G1) (it : ℕ) :
    (phaseAStep tbase itemsBase g it).stores u m = [] := rfl

theorem blocks_phaseA : Blocks ((phaseADispatch batch).stores id m) .buckets 4 36
    (List.range batch ×ˢ (List.range circulantSize ×ˢ List.range numBuckets))
    (fun q => (q.1 * circulantSize + q.2.1) * numBuckets +
      m.elem 4 .perm ((q.1 * circulantSize + q.2.1) * numBuckets + q.2.2))
    (fun q => g1Words (bucketPoint m q.1 q.2.1
      (m.elem 4 .perm ((q.1 * circulantSize + q.2.1) * numBuckets + q.2.2)))) := by
  refine blocks_dispatch (fun b j t => (b * circulantSize + j) * numBuckets +
    m.elem 4 .perm ((b * circulantSize + j) * numBuckets + t))
    (fun b j t => g1Words (bucketPoint m b j
      (m.elem 4 .perm ((b * circulantSize + j) * numBuckets + t)))) fun b _ j _ => ?_
  refine blocks_each fun t _ => ?_
  simp only [stores_bind, stores_load, val_load, List.nil_append, id, stores_g1Store, val_foldlM]
  rw [stores_foldlM (fun g it _ => stores_phaseAStep id _ _ g it), List.nil_append, landing_block]
  simp only [bucketPoint, Nat.add_mul]

theorem phaseAStep_rep {j tid dd itemsBase it : ℕ} {v : ℤ} {g : G1} {P Q : Point} (hdd : dd < 32)
    (hitem : m.elem 2 .items (itemsBase + it) = packItem tid dd v)
    (hP : G1ARep (g1aAt m .table ((j * phaseATerms + tid) * numDigits + dd)) P)
    (hQ : G1Rep g Q) :
    G1Rep ((phaseAStep (j * phaseATerms * numDigits * affineWords) itemsBase g it).val id m)
      (Q + if v < 0 then -P else P) := by
  have hidx : j * phaseATerms * numDigits * affineWords + (tid * numDigits + dd) * affineWords =
      ((j * phaseATerms + tid) * numDigits + dd) * 24 := by ring
  simp only [phaseAStep, val_bind, val_load, val_pure, id, hitem, packItem_thread v hdd,
    packItem_digit v hdd, packItem_sign v hdd, hidx, val_g1aLoad]
  refine g1Rep_madd hQ ?_
  by_cases hv : v < 0
  · rw [if_pos hv, if_pos hv, if_pos one_ne_zero]
    exact g1aRep_neg hP
  · rw [if_neg hv, if_neg hv, if_neg (not_not.mpr rfl)]
    exact hP

theorem bucketPoint_rep {b j : ℕ} (hj : j < circulantSize) {digit : ℕ × ℕ → ℤ}
    (hT : TableHolds m T) (hsorted : SortedAt m (b * circulantSize + j) digit) {k : ℕ}
    (hk : k < numBuckets) : G1Rep (bucketPoint m b j k)
      ((withKey (fun it => bucketOf (digit it)) k phaseAIds).map (itemPoint digit (T j))).sum := by
  obtain ⟨l, hl, hhi, hitems⟩ := hsorted.bucket k hk
  have hids : ∀ it ∈ l, it.1 < phaseATerms ∧ it.2 < numDigits := fun it hit => by
    have hmem := List.mem_product.mp (List.mem_filter.mp (hl.mem_iff.mp hit)).1
    exact ⟨List.mem_range.mp hmem.1, List.mem_range.mp hmem.2⟩
  rw [← (hl.map _).sum_eq, bucketPoint, hhi, Nat.add_sub_cancel_left,
    ← List.length_map (f := itemPoint digit (T j)), ← zero_add (List.sum _)]
  refine foldl_range'_rep (fun i hi g P hg => ?_) g1Rep_identity
  rw [List.length_map] at hi
  have hid := hids l[i] (List.getElem_mem hi)
  rw [List.getElem_map]
  exact phaseAStep_rep hid.2 (hitems i hi) (hT j hj _ hid.1 _ hid.2) hg

theorem phaseA_buckets {digit : ℕ → ℕ → ℕ × ℕ → ℤ} (hT : TableHolds m T)
    (hsorted : ∀ b < batch, ∀ j < circulantSize,
      SortedAt m (b * circulantSize + j) (digit b j)) :
    BucketsHold ((phaseADispatch batch).exec id m) circulantSize batch fun b j k =>
      ((withKey (fun it => bucketOf (digit b j it)) k phaseAIds).map
        (itemPoint (digit b j) (T j))).sum := by
  intro b hb j hj k hk
  obtain ⟨t, ht, hperm⟩ := (hsorted b hb j hj).perm_surj k hk
  have hhit := g1At_hit (blocks_phaseA (m := m)) (x := (b, j, t)) ?_
    (by simp only [List.mem_product, List.mem_range]; exact ⟨hb, hj, ht⟩) m
  · simp only [hperm] at hhit
    rw [exec, hhit]
    exact bucketPoint_rep hj hT (hsorted b hb j hj) hk
  · rintro ⟨b₁, j₁, t₁⟩ h₁ ⟨b₂, j₂, t₂⟩ h₂ heq
    simp only [List.mem_product, List.mem_range] at h₁ h₂
    obtain ⟨ho, hbucket⟩ := block_inj ((hsorted b₁ h₁.1 j₁ h₁.2.1).perm_lt t₁ h₁.2.2)
      ((hsorted b₂ h₂.1 j₂ h₂.2.1).perm_lt t₂ h₂.2.2) heq
    obtain ⟨rfl, rfl⟩ := block_inj h₁.2.1 h₂.2.1 ho
    simp only [hbucket]

end Curve

/-! ### The multi-scalar sum -/

section Msm
variable {G : Type} [AddCommGroup G] {digit : ℕ × ℕ → ℤ}

theorem bucket_smul_itemPoint (T : ℕ → ℕ → G) (it : ℕ × ℕ) :
    ((bucketOf (digit it)).elim 0 fun k => (k + 1) • itemPoint digit T it) =
      digit it • T it.1 it.2 := by
  rcases hk : bucketOf (digit it) with _ | k
  · have hzero : digit it = 0 := by
      by_contra hne
      rw [bucketOf, if_pos hne] at hk
      exact absurd hk (by simp)
    rw [Option.elim_none, hzero, zero_smul]
  · rw [bucketOf_eq_some] at hk
    rw [Option.elim_some, itemPoint, ← natCast_zsmul]
    split_ifs with hneg
    · rw [smul_neg, ← neg_smul, show digit it = -((k + 1 : ℕ) : ℤ) by omega]
    · rw [show digit it = ((k + 1 : ℕ) : ℤ) by omega]

theorem sum_phaseAIds (f : ℕ × ℕ → G) : (phaseAIds.map f).sum =
    ∑ i ∈ Finset.range phaseATerms, ∑ d ∈ Finset.range numDigits, f (i, d) := by
  have hnodup : phaseAIds.Nodup := List.nodup_range.product List.nodup_range
  have hset : phaseAIds.toFinset = Finset.range phaseATerms ×ˢ Finset.range numDigits := by
    ext ⟨i, d⟩
    simp [phaseAIds]
  rw [← List.sum_toFinset f hnodup, hset, Finset.sum_product]

/-- The weighted sum of the buckets is the sum of digits times table points. -/
theorem weighted_buckets (hdigit : ∀ it, -(numBuckets : ℤ) ≤ digit it ∧ digit it ≤ numBuckets)
    (T : ℕ → ℕ → G) :
    ∑ k ∈ Finset.range numBuckets, (k + 1) •
        ((withKey (fun it => bucketOf (digit it)) k phaseAIds).map (itemPoint digit T)).sum =
      ∑ i ∈ Finset.range phaseATerms, ∑ d ∈ Finset.range numDigits, digit (i, d) • T i d := by
  have hsum := sum_withKey (K := Finset.range numBuckets)
    (l := phaseAIds)
    (fun it _ k (hk : bucketOf (digit it) = some k) =>
      Finset.mem_range.mpr (bucketOf_lt (hdigit it) hk))
    fun k it => (k + 1) • itemPoint digit T it
  simp only [bucket_smul_itemPoint, sum_phaseAIds] at hsum
  rw [← hsum]
  refine Finset.sum_congr rfl fun k _ => ?_
  rw [List.smul_sum, List.map_map]
  rfl

/-- Digits against the multiples of a point by powers of the radix give the scalar multiple. -/
theorem sum_digit_smul (s : ScalarField) (P : G) :
    ∑ d ∈ Finset.range numDigits, SignedDigits.digit numBuckets s.val d • 2 ^ (8 * d) • P =
      s.val • P := by
  have hlt : s.val < numBuckets * (2 * numBuckets) ^ 31 :=
    Nat.lt_trans (ZMod.val_lt s) (by decide)
  have hsum := SignedDigits.sum_digits_eq hlt
  rw [← natCast_zsmul P s.val, ← hsum, Finset.sum_smul]
  refine Finset.sum_congr rfl fun d _ => ?_
  rw [← natCast_zsmul P, ← mul_smul, pow_mul]
  push_cast
  norm_num

end Msm

section PhaseA
variable {m : Mem} {batch : ℕ} {s : ℕ → ℕ → ℕ → ScalarField} {T : ℕ → ℕ → ℕ → Point}
  {hist scat : ℕ → ℕ → AtomicOrder} {sg : ℕ → ℕ → Subgroup} {out : Buf}

/-- The scalars of every output lie in memory, in Montgomery form. -/
def ScalarsHold (m : Mem) (batch : ℕ) (s : ℕ → ℕ → ℕ → ScalarField) : Prop :=
  ∀ b < batch, ∀ j < circulantSize, ∀ i < phaseATerms,
    FrRep (frAt m .coeffs ((b * circulantSize + j) * phaseATerms + i)) (s b j i)

/-- Both passes of phase A and the reduction of their buckets. -/
def phaseA (hist scat : ℕ → ℕ → AtomicOrder) (gpuTotalCores : ℕ) (sg : ℕ → ℕ → Subgroup) (out : Buf)
    (batch : ℕ) : List (Shader Unit) :=
  [phaseASortDispatch hist scat batch, phaseADispatch batch,
    recordReduce gpuTotalCores sg out circulantSize batch]

theorem digitsAt_eq (hs : ScalarsHold m batch s) {b j i : ℕ} (hb : b < batch)
    (hj : j < circulantSize) (hi : i < phaseATerms) (d : ℕ) :
    digitsAt m b j (i, d) = SignedDigits.digit numBuckets (s b j i).val d := by
  have hrep := hs b hb j hj i hi
  rw [Nat.add_mul] at hrep
  have hget : ((List.range phaseATerms).map fun tid => frToCanonical (frAt m .coeffs
      (b * circulantSize * phaseATerms + j * phaseATerms + tid))).getD i frZero = frToCanonical
        (frAt m .coeffs (b * circulantSize * phaseATerms + j * phaseATerms + i)) := by
    simp [List.getD_eq_getElem?_getD, hi]
  rw [digitsAt, recoded_eq, hget, frToCanonical_toNat hrep]

theorem frame_phaseASort {b : Buf} (hperm : b ≠ .perm) (hstarts : b ≠ .starts)
    (hitems : b ≠ .items) : (phaseASortDispatch hist scat batch).exec id m b = m b := by
  refine exec_dispatch_frame fun j b' => ?_
  rw [stores_kPhaseASort, landing_append, landing_append, stores_storeWords,
    landing_block_other hstarts.symm, landing_each_store_other hperm.symm,
    landing_each_store_other hitems.symm]
  rfl

theorem frame_phaseA {b : Buf} (hbuckets : b ≠ .buckets) :
    (phaseADispatch batch).exec id m b = m b := by
  refine exec_dispatch_frame fun j b' => ?_
  simp only [kPhaseA, stores_each, landing_flatMap, stores_bind, stores_load, List.nil_append,
    stores_g1Store, landing_append, landing_block_other hbuckets.symm, List.append_nil]
  refine List.flatMap_eq_nil_iff.mpr fun t _ => ?_
  rw [stores_foldlM (fun g it _ => stores_phaseAStep id _ _ g it), landing_nil]

/-- Phase A leaves the sums of digits times table points, over any table. -/
theorem phaseA_rep (hist scat : ℕ → ℕ → AtomicOrder) (out : Buf) (hs : ScalarsHold m batch s)
    (hT : TableHolds m T) {gpuTotalCores : ℕ} (hteams : WholeTeams gpuTotalCores circulantSize batch sg)
    {b j : ℕ} (hb : b < batch) (hj : j < circulantSize) :
    G1Rep (g1At (runAll (phaseA hist scat gpuTotalCores sg out batch) id m) out
        (b * circulantSize + j))
      (∑ i ∈ Finset.range phaseATerms, ∑ d ∈ Finset.range numDigits,
        SignedDigits.digit numBuckets (s b j i).val d • T j i d) := by
  have hT' : TableHolds ((phaseASortDispatch hist scat batch).exec id m) T := by
    intro j hj i hi d hd
    rw [g1aAt_congr (frame_phaseASort (by decide) (by decide) (by decide))]
    exact hT j hj i hi d hd
  have hB := phaseA_buckets hT' fun b hb j hj =>
    @phaseASort_sorted m hist scat batch b j hb hj
  have hrep := (recordReduce_reducesTo hteams hB out).rep (Nat.le_refl _) hb hj
  rw [weighted_buckets (digitsAt_bounds b j)] at hrep
  simp only [phaseA, runAll_cons, runAll_nil]
  have hdigits : ∀ i ∈ Finset.range phaseATerms, ∑ d ∈ Finset.range numDigits,
      digitsAt m b j (i, d) • T j i d = ∑ d ∈ Finset.range numDigits,
        SignedDigits.digit numBuckets (s b j i).val d • T j i d := fun i hi =>
    Finset.sum_congr rfl fun d _ => by rw [digitsAt_eq hs hb hj (Finset.mem_range.mp hi)]
  rwa [Finset.sum_congr rfl hdigits] at hrep

end PhaseA

def inTurn : AtomicOrder := ⟨_, List.Perm.refl _⟩

/-- The digit positions from the top down, in each thread. -/
def inReverse : AtomicOrder := ⟨_, List.reverse_perm _⟩

/-- A memory with unit scalars and a table of one point. -/
def phaseASample : Mem := wordMem fun b i =>
  if b = .table then g1aWords zeroTwoA (i % 24) else limbWords (frFromCanonical frRawOne) (i % 8)

theorem scalarsHold_phaseASample (batch : ℕ) : ScalarsHold phaseASample batch fun _ _ _ => 1 := by
  intro b _ j _ i _
  rw [phaseASample, frAt_wordMem (fun _ => if_neg (by decide))]
  exact frRep_one

theorem tableHolds_phaseASample :
    TableHolds phaseASample fun _ _ d => 2 ^ (8 * d) • zeroTwo := by
  intro j _ i _ d _
  rw [phaseASample, g1aAt_wordMem (fun _ => if_pos rfl)]
  simp only [pow_nsmul_zeroTwo]
  exact g1aRep_zeroTwoA

end Vkzg
