import Mathlib.Data.List.Nodup
import Mathlib.Algebra.BigOperators.Intervals
import Mathlib.Algebra.Order.BigOperators.Group.List
import Mathlib.Data.Nat.Cast.Basic
import Mathlib.Logic.Function.Basic

/-! Counting sort with cursors: items are scattered to the next free slot of their key, in whatever
order they arrive. Slots are distinct, and the slots of a key hold its items. -/

namespace CountingSort

variable {α : Type} (key : α → Option ℕ)

/-- The counters after every keyed item has been counted. -/
def histogram (l : List α) : ℕ → ℕ :=
  l.foldl (fun cnt a => match key a with
    | none => cnt
    | some k => Function.update cnt k (cnt k + 1)) fun _ => 0

/-- Replaces the counter of each listed key by the total of those before it; also the total. -/
def starts (keys : List ℕ) (cnt : ℕ → ℕ) : (ℕ → ℕ) × ℕ :=
  keys.foldl (fun acc k => (Function.update acc.1 k acc.2, acc.2 + acc.1 k)) (cnt, 0)

/-- The slot each keyed item takes from its key's cursor. -/
def scatter : (ℕ → ℕ) → List α → List (ℕ × α)
  | _, [] => []
  | cur, a :: l => match key a with
    | none => scatter cur l
    | some k => (cur k, a) :: scatter (Function.update cur k (cur k + 1)) l

/-- The items of one key. -/
def withKey (k : ℕ) (l : List α) : List α := l.filter fun a => key a = some k

variable {key}

theorem withKey_cons_self {a : α} {k : ℕ} (h : key a = some k) (l : List α) :
    withKey key k (a :: l) = a :: withKey key k l := by
  rw [withKey, List.filter_cons_of_pos (by simpa using h), withKey]

theorem withKey_cons_other {a : α} {k : ℕ} (h : key a ≠ some k) (l : List α) :
    withKey key k (a :: l) = withKey key k l := by
  rw [withKey, List.filter_cons_of_neg (by simpa using h), withKey]

theorem histogram_eq (l : List α) (k : ℕ) : histogram key l k = (withKey key k l).length := by
  have key' : ∀ (l : List α) (cnt : ℕ → ℕ), (l.foldl (fun cnt a => match key a with
      | none => cnt
      | some k => Function.update cnt k (cnt k + 1)) cnt) k = cnt k + (withKey key k l).length := by
    intro l
    induction l with
    | nil => intro cnt; rfl
    | cons a l ih =>
      intro cnt
      rw [List.foldl_cons, ih]
      rcases hk : key a with _ | k'
      · rw [withKey_cons_other (by simp [hk])]
      · by_cases hkk : k' = k
        · subst hkk
          rw [withKey_cons_self hk, List.length_cons]
          simp only [Function.update_self]
          omega
        · rw [withKey_cons_other (by simpa [hk] using hkk)]
          simp only [Function.update_of_ne (Ne.symm hkk)]
  rw [histogram, key' l, Nat.zero_add]

/-- The order in which items are counted does not matter. -/
theorem histogram_perm {l l' : List α} (h : l.Perm l') : histogram key l = histogram key l' := by
  funext k
  rw [histogram_eq, histogram_eq]
  exact (h.filter _).length_eq

/-- Item `i` of a key takes the key's start plus `i`. -/
theorem getElem_withKey_mem_scatter {k i : ℕ} {cur : ℕ → ℕ} {l : List α}
    (hi : i < (withKey key k l).length) : (cur k + i, (withKey key k l)[i]) ∈ scatter key cur l := by
  induction l generalizing cur i with
  | nil => simp [withKey] at hi
  | cons a l ih =>
    rw [scatter]
    rcases hk : key a with _ | k'
    · simp only [withKey_cons_other (show key a ≠ some k by simp [hk])] at hi ⊢
      exact ih hi
    · by_cases hkk : k' = k
      · subst hkk
        simp only [withKey_cons_self hk] at hi ⊢
        cases i with
        | zero => exact List.mem_cons_self
        | succ i =>
          refine List.mem_cons_of_mem _ ?_
          have hmem := @ih i (Function.update cur k' (cur k' + 1)) (by simpa using hi)
          rwa [Function.update_self, Nat.add_assoc, Nat.add_comm 1 i] at hmem
      · simp only [withKey_cons_other (show key a ≠ some k by simpa [hk] using hkk)] at hi ⊢
        refine List.mem_cons_of_mem _ ?_
        have hmem := @ih i (Function.update cur k' (cur k' + 1)) hi
        rwa [Function.update_of_ne (Ne.symm hkk)] at hmem

theorem mem_scatter {cur : ℕ → ℕ} {l : List α} {p : ℕ × α} (hp : p ∈ scatter key cur l) :
    ∃ k, key p.2 = some k ∧ cur k ≤ p.1 ∧ p.1 < cur k + (withKey key k l).length ∧ p.2 ∈ l := by
  induction l generalizing cur with
  | nil => simp [scatter] at hp
  | cons a l ih =>
    rw [scatter] at hp
    rcases hk : key a with _ | k'
    · simp only [hk] at hp
      obtain ⟨k, hkey, hlo, hhi, hmem⟩ := ih hp
      refine ⟨k, hkey, hlo, ?_, List.mem_cons_of_mem a hmem⟩
      rwa [withKey_cons_other (by simp [hk])]
    · simp only [hk] at hp
      rcases List.mem_cons.mp hp with rfl | hp
      · refine ⟨k', hk, Nat.le_refl _, ?_, List.mem_cons_self⟩
        rw [withKey_cons_self hk, List.length_cons]
        omega
      · obtain ⟨k, hkey, hlo, hhi, hmem⟩ := ih hp
        refine ⟨k, hkey, ?_, ?_, List.mem_cons_of_mem a hmem⟩
        · by_cases hkk : k = k'
          · subst hkk
            rw [Function.update_self] at hlo
            omega
          · rwa [Function.update_of_ne hkk] at hlo
        · by_cases hkk : k = k'
          · subst hkk
            rw [Function.update_self] at hhi
            rw [withKey_cons_self hk, List.length_cons]
            omega
          · rw [Function.update_of_ne hkk] at hhi
            rwa [withKey_cons_other (by simpa [hk] using Ne.symm hkk)]

/-- Cursors whose keys' intervals do not meet. -/
def Separated (key : α → Option ℕ) (cur : ℕ → ℕ) (l : List α) : Prop :=
  ∀ k k' s, k ≠ k' → cur k ≤ s → s < cur k + (withKey key k l).length →
    cur k' ≤ s → s < cur k' + (withKey key k' l).length → False

theorem nodup_scatter {cur : ℕ → ℕ} {l : List α} (h : Separated key cur l) :
    ((scatter key cur l).map Prod.fst).Nodup := by
  induction l generalizing cur with
  | nil => exact List.nodup_nil
  | cons a l ih =>
    rw [scatter]
    rcases hk : key a with _ | k'
    · refine ih fun k₁ k₂ s hne => ?_
      have := h k₁ k₂ s hne
      rwa [withKey_cons_other (by simp [hk]), withKey_cons_other (by simp [hk])] at this
    -- Past the slot the cursor moves on, but the end of the range stays where it was.
    · have hlen : ∀ k, Function.update cur k' (cur k' + 1) k + (withKey key k l).length =
          cur k + (withKey key k (a :: l)).length := by
        intro k
        by_cases hkk : k = k'
        · subst hkk
          rw [Function.update_self, withKey_cons_self hk, List.length_cons]
          omega
        · rw [Function.update_of_ne hkk, withKey_cons_other (by simpa [hk] using Ne.symm hkk)]
      have hle : ∀ k, cur k ≤ Function.update cur k' (cur k' + 1) k := by
        intro k
        by_cases hkk : k = k'
        · subst hkk
          rw [Function.update_self]
          exact Nat.le_succ _
        · rw [Function.update_of_ne hkk]
      simp only [List.map_cons, List.nodup_cons]
      refine ⟨fun hmem => ?_, ih fun k₁ k₂ s hne h1 h2 h3 h4 => ?_⟩
      · obtain ⟨p, hp, hfst⟩ := List.mem_map.mp hmem
        obtain ⟨k, -, hlo, hhi, -⟩ := mem_scatter hp
        rw [hfst] at hlo hhi
        by_cases hkk : k = k'
        · subst hkk
          rw [Function.update_self] at hlo
          omega
        · rw [hlen] at hhi
          refine h k k' (cur k') hkk (Nat.le_trans (hle k) hlo) hhi (Nat.le_refl _) ?_
          rw [withKey_cons_self hk, List.length_cons]
          omega
      · rw [hlen] at h2 h4
        exact h k₁ k₂ s hne (Nat.le_trans (hle k₁) h1) h2 (Nat.le_trans (hle k₂) h3) h4

theorem map_snd_scatter {cur : ℕ → ℕ} {l : List α} :
    (scatter key cur l).map Prod.snd = l.filter fun a => (key a).isSome := by
  induction l generalizing cur with
  | nil => rfl
  | cons a l ih =>
    rw [scatter]
    rcases hk : key a with _ | k
    · rw [List.filter_cons_of_neg (by simp [hk])]
      exact ih
    · rw [List.filter_cons_of_pos (by simp [hk])]
      exact congrArg (a :: ·) ih

/-! ### Starts -/

section Starts
variable {keys : List ℕ} {cnt : ℕ → ℕ}

theorem starts_append (keys : List ℕ) (k : ℕ) (cnt : ℕ → ℕ) :
    (starts (keys ++ [k]) cnt).1 = Function.update (starts keys cnt).1 k (starts keys cnt).2 ∧
      (starts (keys ++ [k]) cnt).2 = (starts keys cnt).2 + (starts keys cnt).1 k := by
  rw [starts, List.foldl_append]
  exact ⟨rfl, rfl⟩

theorem starts_of_not_mem {k : ℕ} (hk : k ∉ keys) : (starts keys cnt).1 k = cnt k := by
  induction keys using List.reverseRecOn with
  | nil => rfl
  | append_singleton keys a ih =>
    rw [List.mem_append, not_or, List.mem_singleton] at hk
    rw [(starts_append _ _ _).1, Function.update_of_ne hk.2, ih hk.1]

theorem starts_total (h : keys.Nodup) : (starts keys cnt).2 = ∑ k ∈ keys.toFinset, cnt k := by
  rw [List.sum_toFinset _ h]
  induction keys using List.reverseRecOn with
  | nil => rfl
  | append_singleton keys a ih =>
    have hnodup := List.nodup_append.mp h
    have ha : a ∉ keys := fun hmem => hnodup.2.2 a hmem a List.mem_cons_self rfl
    rw [(starts_append _ _ _).2, ih hnodup.1, starts_of_not_mem ha, List.map_append, List.sum_append,
      List.map_singleton, List.sum_singleton]

/-- The intervals of two listed keys do not meet, and none passes the total. -/
theorem starts_separated (cnt : ℕ → ℕ) (h : keys.Nodup) :
    (∀ k ∈ keys, (starts keys cnt).1 k + cnt k ≤ (starts keys cnt).2) ∧
      ∀ k ∈ keys, ∀ k' ∈ keys, k ≠ k' →
        (starts keys cnt).1 k + cnt k ≤ (starts keys cnt).1 k' ∨
          (starts keys cnt).1 k' + cnt k' ≤ (starts keys cnt).1 k := by
  induction keys using List.reverseRecOn with
  | nil => simp
  | append_singleton keys a ih =>
    have hnodup := List.nodup_append.mp h
    have ha : a ∉ keys := fun hmem => hnodup.2.2 a hmem a List.mem_cons_self rfl
    obtain ⟨hbound, hsep⟩ := ih hnodup.1
    have hold : ∀ k ∈ keys, Function.update (starts keys cnt).1 a (starts keys cnt).2 k =
        (starts keys cnt).1 k := fun k hk =>
      Function.update_of_ne (fun heq : k = a => ha (heq ▸ hk)) _ _
    rw [(starts_append keys a cnt).1, (starts_append keys a cnt).2]
    simp only [List.mem_append, List.mem_singleton, starts_of_not_mem ha]
    refine ⟨?_, ?_⟩
    · rintro k (hk | rfl)
      · rw [hold k hk]
        exact Nat.le_add_right_of_le (hbound k hk)
      · rw [Function.update_self]
    · rintro k (hk | rfl) k' (hk' | rfl) hne
      · rw [hold k hk, hold k' hk']
        exact hsep k hk k' hk' hne
      · rw [hold k hk, Function.update_self]
        exact .inl (hbound k hk)
      · rw [hold k' hk', Function.update_self]
        exact .inr (hbound k' hk')
      · exact absurd rfl hne

/-- Over keys listed from the largest down, the interval of a larger key ends before that of a
smaller one begins. -/
theorem starts_decreasing (cnt : ℕ → ℕ) (h : keys.Pairwise (· > ·)) {k k' : ℕ} (hk : k ∈ keys)
    (hk' : k' ∈ keys) (hlt : k < k') : (starts keys cnt).1 k' + cnt k' ≤ (starts keys cnt).1 k := by
  induction keys using List.reverseRecOn with
  | nil => exact absurd hk List.not_mem_nil
  | append_singleton keys a ih =>
    obtain ⟨hpairs, -, hlast⟩ := List.pairwise_append.mp h
    have hgt : ∀ k ∈ keys, a < k := fun k hk => hlast k hk a (List.mem_singleton_self a)
    have hnodup : keys.Nodup := hpairs.imp fun hgt => Nat.ne_of_gt hgt
    rw [(starts_append keys a cnt).1]
    rcases List.mem_append.mp hk' with hk' | hk'
    · rw [Function.update_of_ne (Nat.ne_of_gt (hgt k' hk'))]
      rcases List.mem_append.mp hk with hk | hk
      · rw [Function.update_of_ne (Nat.ne_of_gt (hgt k hk))]
        exact ih hpairs hk hk'
      · rw [List.mem_singleton.mp hk, Function.update_self]
        exact (starts_separated cnt hnodup).1 k' hk'
    · rw [List.mem_singleton.mp hk'] at hlt
      rcases List.mem_append.mp hk with hk | hk
      · exact absurd hlt (Nat.lt_asymm (hgt k hk))
      · exact absurd hlt (List.mem_singleton.mp hk ▸ Nat.lt_irrefl k)

/-- Scattered by keys listed from the largest down, a smaller key never comes before a larger. -/
theorem scatter_decreasing {l : List α} (h : keys.Pairwise (· > ·))
    (hkeys : ∀ a ∈ l, ∀ k, key a = some k → k ∈ keys) {p q : ℕ × α}
    (hp : p ∈ scatter key (starts keys (histogram key l)).1 l)
    (hq : q ∈ scatter key (starts keys (histogram key l)).1 l) (hlt : p.1 < q.1) {k k' : ℕ}
    (hk : key p.2 = some k) (hk' : key q.2 = some k') : k' ≤ k := by
  obtain ⟨k₁, hk₁, hlo, -, hmem⟩ := mem_scatter hp
  obtain ⟨k₂, hk₂, -, hhi, hmem'⟩ := mem_scatter hq
  obtain rfl : k₁ = k := Option.some.inj (hk₁.symm.trans hk)
  obtain rfl : k₂ = k' := Option.some.inj (hk₂.symm.trans hk')
  by_contra hgt
  have hends := starts_decreasing (histogram key l) h (hkeys _ hmem _ hk) (hkeys _ hmem' _ hk')
    (Nat.lt_of_not_le hgt)
  rw [histogram_eq] at hends
  omega

theorem starts_range {n k : ℕ} (hk : k < n) :
    (starts (List.range n) cnt).1 k = ∑ i ∈ Finset.range k, cnt i := by
  induction n with
  | zero => exact absurd hk (Nat.not_lt_zero k)
  | succ n ih =>
    rw [List.range_succ, (starts_append _ _ _).1]
    rcases Nat.lt_succ_iff_lt_or_eq.mp hk with hlt | rfl
    · rw [Function.update_of_ne (Nat.ne_of_lt hlt), ih hlt]
    · rw [Function.update_self, starts_total List.nodup_range, List.toFinset_range]

theorem separated_starts {l : List α} (h : keys.Nodup)
    (hkeys : ∀ a ∈ l, ∀ k, key a = some k → k ∈ keys) :
    Separated key (starts keys (histogram key l)).1 l := by
  have hmem : ∀ k, 0 < (withKey key k l).length → k ∈ keys := fun k hpos => by
    obtain ⟨a, ha⟩ := List.exists_mem_of_length_pos hpos
    obtain ⟨hal, hka⟩ := List.mem_filter.mp ha
    exact hkeys a hal k (by simpa using hka)
  intro k k' s hne hlo hhi hlo' hhi'
  have hsep := (starts_separated (histogram key l) h).2 k (hmem k (by omega)) k'
    (hmem k' (by omega)) hne
  rw [histogram_eq, histogram_eq] at hsep
  omega

end Starts

/-! ### Sums over the items of a key -/

section Sums
variable {M : Type} [AddCommMonoid M]

/-- Summing key by key is summing over the items with a key. -/
theorem sum_withKey {K : Finset ℕ} {l : List α} (hkeys : ∀ a ∈ l, ∀ k, key a = some k → k ∈ K)
    (f : ℕ → α → M) :
    ∑ k ∈ K, ((withKey key k l).map (f k)).sum =
      (l.map fun a => (key a).elim 0 fun k => f k a).sum := by
  induction l with
  | nil => simp [withKey]
  | cons a l ih =>
    have hrest := ih fun b hb => hkeys b (List.mem_cons_of_mem a hb)
    rw [List.map_cons, List.sum_cons, ← hrest]
    rcases hk : key a with _ | k'
    · simp only [withKey_cons_other (show key a ≠ some _ by simp [hk]), Option.elim_none, zero_add]
    · have hsplit : ∀ k, ((withKey key k (a :: l)).map (f k)).sum =
          (if k = k' then f k' a else 0) + ((withKey key k l).map (f k)).sum := by
        intro k
        by_cases hkk : k = k'
        · subst hkk
          rw [withKey_cons_self hk, List.map_cons, List.sum_cons, if_pos rfl]
        · rw [withKey_cons_other (by simpa [hk] using Ne.symm hkk), if_neg hkk, zero_add]
      simp only [hsplit, Finset.sum_add_distrib, Finset.sum_ite_eq', Option.elim_some]
      rw [if_pos (hkeys a List.mem_cons_self k' hk)]

end Sums

section Slots
variable {keys : List ℕ} {l : List α}

theorem sum_histogram_le {K : Finset ℕ} (hkeys : ∀ a ∈ l, ∀ k, key a = some k → k ∈ K) :
    ∑ k ∈ K, histogram key l k ≤ l.length := by
  have hlength : ∀ l : List α, (l.map fun _ => 1).sum = l.length := by simp
  have hsum := sum_withKey hkeys fun _ _ => 1
  simp only [hlength] at hsum
  simp only [histogram_eq, hsum]
  calc (l.map fun a => (key a).elim 0 fun _ => 1).sum ≤ (l.map fun _ => 1).sum :=
        List.sum_le_sum fun a _ => by cases key a <;> simp
    _ = l.length := hlength l

theorem slot_lt_total (h : keys.Nodup) (hkeys : ∀ a ∈ l, ∀ k, key a = some k → k ∈ keys)
    {p : ℕ × α} (hp : p ∈ scatter key (starts keys (histogram key l)).1 l) :
    p.1 < (starts keys (histogram key l)).2 := by
  obtain ⟨k, hk, -, hhi, hmem⟩ := mem_scatter hp
  have hbound := (starts_separated (histogram key l) h).1 k (hkeys p.2 hmem k hk)
  rw [histogram_eq] at hbound
  omega

/-- When every item has a listed key, the slots taken are exactly the first ones. -/
theorem slots_scatter (h : keys.Nodup) (hkeys : ∀ a ∈ l, ∃ k ∈ keys, key a = some k) :
    ((scatter key (starts keys (histogram key l)).1 l).map Prod.fst).Perm
      (List.range l.length) := by
  have hkeys' : ∀ a ∈ l, ∀ k, key a = some k → k ∈ keys := fun a ha k hk => by
    obtain ⟨k', hk', heq⟩ := hkeys a ha
    rwa [Option.some.inj (hk.symm.trans heq)]
  have hlength : (scatter key (starts keys (histogram key l)).1 l).length = l.length := by
    rw [← List.length_map (f := Prod.snd), map_snd_scatter, List.filter_eq_self.mpr]
    intro a ha
    obtain ⟨k, -, hk⟩ := hkeys a ha
    rw [hk, Option.isSome_some]
  refine (List.subperm_of_subset (nodup_scatter (separated_starts h hkeys'))
    fun s hs => ?_).perm_of_length_le (by rw [List.length_map, hlength, List.length_range])
  obtain ⟨p, hp, rfl⟩ := List.mem_map.mp hs
  refine List.mem_range.mpr (Nat.lt_of_lt_of_le (slot_lt_total h hkeys' hp) ?_)
  rw [starts_total h]
  exact sum_histogram_le fun a ha k hk => List.mem_toFinset.mpr (hkeys' a ha k hk)

end Slots

end CountingSort
