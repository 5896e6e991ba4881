import Mathlib.Data.List.Induction
import Mathlib.Data.List.Nodup
import Mathlib.Tactic.Ring

/-! Byte-addressed memory of named buffers. An element of a typed view is a little-endian run of
bytes; a store overwrites one element, and a list of stores is applied in order. -/

namespace Gpu

variable {β : Type}

abbrev Memory (β : Type) := β → ℕ → UInt8

/-- The value of `w` little-endian bytes. -/
def bytesValue : ℕ → (ℕ → UInt8) → ℕ
  | 0, _ => 0
  | w + 1, f => (f 0).toNat + 256 * bytesValue w (fun k => f (k + 1))

def byteOf (v k : ℕ) : UInt8 := UInt8.ofNat (v / 256 ^ k)

theorem bytesValue_congr {w : ℕ} {f g : ℕ → UInt8} (h : ∀ k < w, f k = g k) :
    bytesValue w f = bytesValue w g := by
  induction w generalizing f g with
  | zero => rfl
  | succ w ih =>
    rw [bytesValue, bytesValue, h 0 (Nat.succ_pos w),
      ih fun k hk => h (k + 1) (Nat.succ_lt_succ hk)]

theorem bytesValue_lt (w : ℕ) (f : ℕ → UInt8) : bytesValue w f < 256 ^ w := by
  induction w generalizing f with
  | zero => simp [bytesValue]
  | succ w ih =>
    have h0 := (f 0).toNat_lt
    have := ih fun k => f (k + 1)
    rw [bytesValue, pow_succ]
    omega

theorem bytesValue_byteOf (w v : ℕ) : bytesValue w (byteOf v) = v % 256 ^ w := by
  induction w generalizing v with
  | zero => simp [bytesValue, Nat.mod_one]
  | succ w ih =>
    have hshift : (fun k => byteOf v (k + 1)) = byteOf (v / 256) := by
      funext k
      rw [byteOf, byteOf, pow_succ', Nat.div_div_eq_div_mul]
    rw [bytesValue, hshift, ih, pow_succ', Nat.mod_mul]
    simp [byteOf]

theorem byteOf_bytesValue {w k : ℕ} (f : ℕ → UInt8) (hk : k < w) :
    byteOf (bytesValue w f) k = f k := by
  induction w generalizing f k with
  | zero => exact absurd hk (Nat.not_lt_zero k)
  | succ w ih =>
    have h0 := (f 0).toNat_lt
    cases k with
    | zero =>
      rw [← UInt8.toNat_inj]
      simp only [byteOf, bytesValue, pow_zero, Nat.div_one, UInt8.toNat_ofNat']
      omega
    | succ k =>
      have hdiv : bytesValue (w + 1) f / 256 = bytesValue w fun j => f (j + 1) := by
        rw [bytesValue]
        omega
      rw [← ih (fun j => f (j + 1)) (Nat.lt_of_succ_lt_succ hk), byteOf, byteOf, pow_succ',
        ← Nat.div_div_eq_div_mul, hdiv]

/-- Element `i` of a buffer viewed as an array of `w`-byte elements. -/
def Memory.elem (m : Memory β) (w : ℕ) (b : β) (i : ℕ) : ℕ :=
  bytesValue w fun k => m b (w * i + k)

theorem Memory.elem_lt (m : Memory β) (w : ℕ) (b : β) (i : ℕ) : m.elem w b i < 256 ^ w :=
  bytesValue_lt w _

theorem Memory.elem_congr {m m' : Memory β} {b : β} (h : m b = m' b) (w i : ℕ) :
    m.elem w b i = m'.elem w b i := by
  rw [Memory.elem, Memory.elem, h]

/-- Where an access lands, and the item it is made for when one is named. -/
structure Access (β : Type) where
  buf : β
  width : ℕ
  idx : ℕ
  owner : Option ℕ

structure Store (β : Type) extends Access β where
  val : ℕ

/-- Names the owner of an access that has none yet. -/
def Access.own (o : ℕ) (a : Access β) : Access β := { a with owner := some (a.owner.getD o) }

def Store.own (o : ℕ) (s : Store β) : Store β := { s with toAccess := s.toAccess.own o }

variable [DecidableEq β]

def Store.apply (s : Store β) (m : Memory β) : Memory β := fun b i =>
  if b = s.buf ∧ s.width * s.idx ≤ i ∧ i < s.width * s.idx + s.width then
    byteOf s.val (i - s.width * s.idx)
  else m b i

def applyAll (ws : List (Store β)) (m : Memory β) : Memory β := ws.foldl (fun m s => s.apply m) m

@[simp] theorem applyAll_nil (m : Memory β) : applyAll [] m = m := rfl

theorem applyAll_append (ws vs : List (Store β)) (m : Memory β) :
    applyAll (ws ++ vs) m = applyAll vs (applyAll ws m) := List.foldl_append

@[simp] theorem Store.apply_own (o : ℕ) (s : Store β) (m : Memory β) :
    (s.own o).apply m = s.apply m := rfl

theorem applyAll_map_own (o : ℕ) (ws : List (Store β)) (m : Memory β) :
    applyAll (ws.map (Store.own o)) m = applyAll ws m := by
  rw [applyAll, List.foldl_map]
  rfl

theorem Store.apply_frame {s : Store β} {b : β} (h : s.buf ≠ b) (m : Memory β) :
    s.apply m b = m b := by
  funext i
  rw [Store.apply, if_neg fun hc => h hc.1.symm]

theorem applyAll_frame {ws : List (Store β)} {b : β} (h : ∀ s ∈ ws, s.buf ≠ b) (m : Memory β) :
    applyAll ws m b = m b := by
  induction ws generalizing m with
  | nil => rfl
  | cons s ws ih =>
    rw [applyAll, List.foldl_cons, ← applyAll, ih fun t ht => h t (List.mem_cons_of_mem s ht)]
    exact Store.apply_frame (h s List.mem_cons_self) m

theorem Store.elem_apply_same (s : Store β) (m : Memory β) :
    (s.apply m).elem s.width s.buf s.idx = s.val % 256 ^ s.width := by
  rw [← bytesValue_byteOf, Memory.elem]
  refine bytesValue_congr fun k hk => ?_
  rw [Store.apply, if_pos ⟨rfl, by omega, by omega⟩, Nat.add_sub_cancel_left]

theorem Store.elem_apply_other {s : Store β} {i : ℕ} (h : s.idx ≠ i) (b : β) (m : Memory β) :
    (s.apply m).elem s.width b i = m.elem s.width b i := by
  refine bytesValue_congr fun k hk => ?_
  rw [Store.apply, if_neg]
  rintro ⟨-, hlo, hhi⟩
  rcases Nat.lt_or_gt_of_ne h with hlt | hgt
  · have := Nat.mul_le_mul_left s.width (Nat.succ_le_of_lt hlt)
    rw [Nat.mul_succ] at this
    omega
  · have := Nat.mul_le_mul_left s.width (Nat.succ_le_of_lt hgt)
    rw [Nat.mul_succ] at this
    omega

section Views
variable {ws : List (Store β)} {b : β} {w : ℕ}

theorem elem_applyAll_other {i : ℕ} (h : ∀ s ∈ ws, s.buf = b → s.width = w ∧ s.idx ≠ i)
    (m : Memory β) : (applyAll ws m).elem w b i = m.elem w b i := by
  induction ws generalizing m with
  | nil => rfl
  | cons s ws ih =>
    rw [applyAll, List.foldl_cons, ← applyAll, ih fun t ht => h t (List.mem_cons_of_mem s ht)]
    by_cases hb : s.buf = b
    · obtain ⟨rfl, hne⟩ := h s List.mem_cons_self hb
      exact Store.elem_apply_other hne b m
    · exact Memory.elem_congr (Store.apply_frame hb m) w i

theorem elem_applyAll_hit {i v : ℕ} (hw : ∀ s ∈ ws, s.buf = b → s.width = w)
    (hv : ∀ s ∈ ws, s.buf = b → s.idx = i → s.val = v)
    (hex : ∃ s ∈ ws, s.buf = b ∧ s.idx = i) (m : Memory β) :
    (applyAll ws m).elem w b i = v % 256 ^ w := by
  induction ws generalizing m with
  | nil => simp at hex
  | cons s ws ih =>
    have hw' : ∀ t ∈ ws, t.buf = b → t.width = w := fun t ht => hw t (List.mem_cons_of_mem s ht)
    have hv' : ∀ t ∈ ws, t.buf = b → t.idx = i → t.val = v :=
      fun t ht => hv t (List.mem_cons_of_mem s ht)
    rw [applyAll, List.foldl_cons, ← applyAll]
    by_cases hrest : ∃ t ∈ ws, t.buf = b ∧ t.idx = i
    · exact ih hw' hv' hrest _
    · have hs : s.buf = b ∧ s.idx = i := by
        obtain ⟨t, ht, hb, hi⟩ := hex
        rcases List.mem_cons.mp ht with rfl | ht
        · exact ⟨hb, hi⟩
        · exact absurd ⟨t, ht, hb, hi⟩ hrest
      obtain ⟨rfl, rfl⟩ := hs
      have hwid := hw s List.mem_cons_self rfl
      rw [elem_applyAll_other fun t ht hb => ⟨hw' t ht hb, fun hi => hrest ⟨t, ht, hb, hi⟩⟩,
        ← hwid, Store.elem_apply_same, hv s List.mem_cons_self rfl rfl]

end Views

/-! ### Families of block stores -/

/-- The stores that land in a buffer, in order: width, index and value. -/
def landing (b : β) (ws : List (Store β)) : List (ℕ × ℕ × ℕ) :=
  (ws.filter fun s => s.buf = b).map fun s => (s.width, s.idx, s.val)

section Landing
variable {ι : Type} {b b' : β} {w n : ℕ}

@[simp] theorem landing_nil : landing b ([] : List (Store β)) = [] := rfl

@[simp] theorem landing_append (ws vs : List (Store β)) :
    landing b (ws ++ vs) = landing b ws ++ landing b vs := by
  rw [landing, List.filter_append, List.map_append, landing, landing]

@[simp] theorem landing_flatMap (l : List ι) (f : ι → List (Store β)) :
    landing b (l.flatMap f) = l.flatMap fun i => landing b (f i) := by
  induction l with
  | nil => rfl
  | cons i l ih => rw [List.flatMap_cons, List.flatMap_cons, landing_append, ih]

@[simp] theorem landing_map_own (o : ℕ) (ws : List (Store β)) :
    landing b (ws.map (Store.own o)) = landing b ws := by
  rw [landing, List.filter_map, List.map_map]
  rfl

theorem landing_block (o : Option ℕ) (l : List ι) (p v : ι → ℕ) :
    landing b (l.map fun k => (⟨⟨b, w, p k, o⟩, v k⟩ : Store β)) =
      l.map fun k => (w, p k, v k) := by
  simp [landing, List.filter_map, Function.comp_def]

theorem landing_block_other (h : b' ≠ b) (o : Option ℕ) (l : List ι) (p v : ι → ℕ) :
    landing b (l.map fun k => (⟨⟨b', w, p k, o⟩, v k⟩ : Store β)) = [] := by
  simp [landing, List.filter_map, Function.comp_def, h]

theorem mem_landing {ws : List (Store β)} {t : ℕ × ℕ × ℕ} :
    t ∈ landing b ws ↔ ∃ s ∈ ws, s.buf = b ∧ t = (s.width, s.idx, s.val) := by
  simp only [landing, List.mem_map, List.mem_filter, decide_eq_true_eq, and_assoc]
  exact exists_congr fun s => and_congr_right fun _ => and_congr_right fun _ => eq_comm

theorem applyAll_of_landing_nil {ws : List (Store β)} (h : landing b ws = []) (m : Memory β) :
    applyAll ws m b = m b := by
  refine applyAll_frame (fun s hs hb => ?_) m
  have : (s.width, s.idx, s.val) ∈ landing b ws := mem_landing.mpr ⟨s, hs, hb, rfl⟩
  rw [h] at this
  exact List.not_mem_nil this

end Landing

/-- The stores landing in `b` are the `n`-element blocks `f x` at block positions `pos x`, for the
`x` of a list, in order. -/
def Blocks {ι : Type} (ws : List (Store β)) (b : β) (w n : ℕ) (X : List ι) (pos : ι → ℕ)
    (f : ι → ℕ → ℕ) : Prop :=
  landing b ws = X.flatMap fun x => (List.range n).map fun k => (w, pos x * n + k, f x k)

theorem block_lt {n p q i : ℕ} (hp : p < q) (hi : i < n) : p * n + i < q * n :=
  calc p * n + i < (p + 1) * n := by rw [Nat.succ_mul]; omega
    _ ≤ q * n := Nat.mul_le_mul_right n hp

theorem block_div {n p i : ℕ} (hi : i < n) : (p * n + i) / n = p := by
  rw [Nat.mul_comm, Nat.mul_add_div (Nat.zero_lt_of_lt hi), Nat.div_eq_of_lt hi, Nat.add_zero]

theorem block_inj {n p q i j : ℕ} (hi : i < n) (hj : j < n) (h : p * n + i = q * n + j) :
    p = q ∧ i = j := by
  have hpq : p = q := by rw [← block_div (p := p) hi, h, block_div hj]
  subst hpq
  exact ⟨rfl, by omega⟩

section Blocks
variable {ι : Type} {ws : List (Store β)} {b : β} {w n : ℕ} {X : List ι} {pos : ι → ℕ}
  {f : ι → ℕ → ℕ}

theorem Blocks.mem_iff (h : Blocks ws b w n X pos f) {t : ℕ × ℕ × ℕ} :
    t ∈ landing b ws ↔ ∃ x ∈ X, ∃ i < n, t = (w, pos x * n + i, f x i) := by
  rw [Blocks] at h
  simp only [h, List.mem_flatMap, List.mem_map, List.mem_range]
  exact exists_congr fun x => and_congr_right fun _ => exists_congr fun i =>
    and_congr_right fun _ => eq_comm

theorem Blocks.hit (h : Blocks ws b w n X pos f)
    (hagree : ∀ x ∈ X, ∀ y ∈ X, pos x = pos y → f x = f y) {x : ι} (hx : x ∈ X) {i : ℕ}
    (hi : i < n) (m : Memory β) :
    (applyAll ws m).elem w b (pos x * n + i) = f x i % 256 ^ w := by
  have hmem : ∀ s ∈ ws, s.buf = b → ∃ y ∈ X, ∃ j < n,
      s.width = w ∧ s.idx = pos y * n + j ∧ s.val = f y j := by
    intro s hs hb
    obtain ⟨y, hy, j, hj, heq⟩ := h.mem_iff.mp (mem_landing.mpr ⟨s, hs, hb, rfl⟩)
    simp only [Prod.mk.injEq] at heq
    exact ⟨y, hy, j, hj, heq⟩
  refine elem_applyAll_hit (fun s hs hb => ?_) (fun s hs hb hidx => ?_) ?_ m
  · obtain ⟨_, _, _, _, hw, _⟩ := hmem s hs hb
    exact hw
  · obtain ⟨y, hy, j, hj, -, hsi, hval⟩ := hmem s hs hb
    obtain ⟨hpos, rfl⟩ := block_inj hi hj (hidx.symm.trans hsi)
    rw [hval, hagree x hx y hy hpos]
  · obtain ⟨s, hs, hb, heq⟩ := mem_landing.mp (h.mem_iff.mpr ⟨x, hx, i, hi, rfl⟩)
    exact ⟨s, hs, hb, (congrArg (fun t => t.2.1) heq).symm⟩

theorem Blocks.hit_one (h : Blocks ws b w 1 X pos f)
    (hagree : ∀ x ∈ X, ∀ y ∈ X, pos x = pos y → f x = f y) {x : ι} (hx : x ∈ X) (m : Memory β) :
    (applyAll ws m).elem w b (pos x) = f x 0 % 256 ^ w := by
  have := h.hit hagree hx Nat.zero_lt_one m
  rwa [Nat.mul_one, Nat.add_zero] at this

theorem Blocks.of_landing {ws' : List (Store β)} (h : Blocks ws' b w n X pos f)
    (heq : landing b ws = landing b ws') : Blocks ws b w n X pos f := heq.trans h

theorem Blocks.other (h : Blocks ws b w n X pos f) {q : ℕ} (hq : ∀ x ∈ X, pos x ≠ q) {i : ℕ}
    (hi : i < n) (m : Memory β) :
    (applyAll ws m).elem w b (q * n + i) = m.elem w b (q * n + i) := by
  refine elem_applyAll_other (fun s hs hb => ?_) m
  obtain ⟨y, hy, j, hj, heq⟩ := h.mem_iff.mp (mem_landing.mpr ⟨s, hs, hb, rfl⟩)
  simp only [Prod.mk.injEq] at heq
  exact ⟨heq.1, fun hidx => hq y hy (block_inj hj hi (heq.2.1.symm.trans hidx)).1⟩

omit [DecidableEq β] in
/-- Where no two stores share an index, each index is stored to once. -/
theorem once_of_nodup {l : List (ℕ × ℕ × ℕ)} (h : (l.map fun t => t.2.1).Nodup) {t : ℕ × ℕ × ℕ}
    (ht : t ∈ l) : (l.filter fun s => s.2.1 = t.2.1).length = 1 := by
  have hcount := List.count_eq_one_of_mem h (List.mem_map.mpr ⟨t, ht, rfl⟩)
  rwa [List.count, List.countP_map, List.countP_eq_length_filter] at hcount

/-- Blocks at distinct positions: each of their elements is stored exactly once. -/
theorem Blocks.once (h : Blocks ws b w n X pos f) (hX : X.Nodup)
    (hinj : ∀ x ∈ X, ∀ y ∈ X, pos x = pos y → x = y) {x : ι} (hx : x ∈ X) {i : ℕ} (hi : i < n) :
    ((landing b ws).filter fun t => t.2.1 = pos x * n + i).length = 1 := by
  have hnodup : ((landing b ws).map fun t => t.2.1).Nodup := by
    rw [h, List.map_flatMap, List.nodup_flatMap]
    refine ⟨fun y _ => ?_, ?_⟩
    · rw [List.map_map]
      exact List.nodup_range.map fun j k hjk => by simpa using hjk
    · refine hX.imp_of_mem fun {y z} hy hz hyz => ?_
      simp only [Function.onFun, List.disjoint_left, List.mem_map, List.mem_range]
      rintro _ ⟨_, ⟨j, hj, rfl⟩, rfl⟩ ⟨_, ⟨k, hk, rfl⟩, heq⟩
      exact hyz (hinj y hy z hz (block_inj hj hk heq.symm).1)
  exact once_of_nodup hnodup (h.mem_iff.mpr ⟨x, hx, i, hi, rfl⟩)

end Blocks

/-! ### The last store to an element -/

/-- The value last stored at an index, if any. -/
def lastAt (l : List (ℕ × ℕ × ℕ)) (i : ℕ) : Option ℕ :=
  l.foldl (fun v t => if t.2.1 = i then some t.2.2 else v) none

section LastAt
variable {ι : Type} {i : ℕ}

theorem foldl_lastAt (l : List (ℕ × ℕ × ℕ)) (i : ℕ) (v : Option ℕ) :
    l.foldl (fun v t => if t.2.1 = i then some t.2.2 else v) v = (lastAt l i).or v := by
  induction l using List.reverseRecOn with
  | nil => rfl
  | append_singleton l t ih =>
    rw [lastAt, List.foldl_append, List.foldl_append, ih, ← lastAt]
    simp only [List.foldl_cons, List.foldl_nil]
    split_ifs <;> rfl

theorem lastAt_append (l l' : List (ℕ × ℕ × ℕ)) (i : ℕ) :
    lastAt (l ++ l') i = (lastAt l' i).or (lastAt l i) := by
  rw [lastAt, List.foldl_append, foldl_lastAt, ← lastAt]

theorem lastAt_eq_none {l : List (ℕ × ℕ × ℕ)} (h : ∀ t ∈ l, t.2.1 ≠ i) : lastAt l i = none := by
  induction l using List.reverseRecOn with
  | nil => rfl
  | append_singleton l t ih =>
    rw [lastAt_append, ih fun t' ht => h t' (List.mem_append_left _ ht)]
    simp [lastAt, h t (List.mem_append_right l List.mem_cons_self)]

theorem lastAt_eq_some {l : List (ℕ × ℕ × ℕ)} {v : ℕ} (hex : ∃ t ∈ l, t.2.1 = i)
    (hv : ∀ t ∈ l, t.2.1 = i → t.2.2 = v) : lastAt l i = some v := by
  induction l using List.reverseRecOn with
  | nil => simp at hex
  | append_singleton l t ih =>
    rw [lastAt_append]
    by_cases ht : t.2.1 = i
    · have hval := hv t (List.mem_append_right l List.mem_cons_self) ht
      simp [lastAt, ht, hval]
    · have hnone : lastAt [t] i = none := by simp [lastAt, ht]
      rw [hnone, Option.none_or]
      refine ih ?_ fun t' ht' => hv t' (List.mem_append_left _ ht')
      obtain ⟨t', ht', hi⟩ := hex
      refine ⟨t', (List.mem_append.mp ht').resolve_right fun h => ?_, hi⟩
      rw [List.mem_singleton.mp h] at hi
      exact ht hi

theorem lastAt_blocks {X : List ι} {p : ι → ℕ} {f : ι → ℕ → ℕ} {w n : ℕ}
    (hagree : ∀ x ∈ X, ∀ y ∈ X, p x = p y → f x = f y) {x : ι} (hx : x ∈ X) {k : ℕ}
    (hk : k < n) : lastAt (X.flatMap fun x => (List.range n).map fun k => (w, p x * n + k, f x k))
      (p x * n + k) = some (f x k) := by
  refine lastAt_eq_some ⟨(w, p x * n + k, f x k), ?_, rfl⟩ fun t ht heq => ?_
  · exact List.mem_flatMap.mpr ⟨x, hx, List.mem_map.mpr ⟨k, List.mem_range.mpr hk, rfl⟩⟩
  · obtain ⟨y, hy, hty⟩ := List.mem_flatMap.mp ht
    obtain ⟨j, hj, rfl⟩ := List.mem_map.mp hty
    obtain ⟨hpos, rfl⟩ := block_inj (List.mem_range.mp hj) hk heq
    rw [hagree x hx y hy hpos.symm]

theorem lastAt_blocks_none {X : List ι} {pos : ι → ℕ} {f : ι → ℕ → ℕ} {w n q : ℕ}
    (hq : ∀ x ∈ X, pos x ≠ q) {k : ℕ} (hk : k < n) :
    lastAt (X.flatMap fun x => (List.range n).map fun k => (w, pos x * n + k, f x k))
      (q * n + k) = none := by
  refine lastAt_eq_none fun t ht heq => ?_
  obtain ⟨y, hy, hty⟩ := List.mem_flatMap.mp ht
  obtain ⟨j, hj, rfl⟩ := List.mem_map.mp hty
  exact hq y hy (block_inj (List.mem_range.mp hj) hk heq).1

/-- Only the group of `x` counts when no other group stores at the index. -/
theorem lastAt_flatMap {X : List ι} {g : ι → List (ℕ × ℕ × ℕ)} {x : ι} (hx : x ∈ X)
    (hother : ∀ y ∈ X, y ≠ x → ∀ t ∈ g y, t.2.1 ≠ i) :
    lastAt (X.flatMap g) i = lastAt (g x) i := by
  induction X with
  | nil => simp at hx
  | cons y X ih =>
    rw [List.flatMap_cons, lastAt_append]
    have hother' : ∀ z ∈ X, z ≠ x → ∀ t ∈ g z, t.2.1 ≠ i :=
      fun z hz => hother z (List.mem_cons_of_mem y hz)
    by_cases hX : x ∈ X
    · rw [ih hX hother']
      by_cases hy : y = x
      · rw [hy, Option.or_self]
      · rw [lastAt_eq_none (hother y List.mem_cons_self hy), Option.or_none]
    · obtain rfl : x = y := (List.mem_cons.mp hx).resolve_right hX
      have hnone : lastAt (X.flatMap g) i = none := lastAt_eq_none fun t ht => by
        obtain ⟨z, hz, htz⟩ := List.mem_flatMap.mp ht
        exact hother' z hz (fun h => hX (h ▸ hz)) t htz
      rw [hnone, Option.none_or]

/-- Groups that keep to blocks of their own: the last store to a block's element is its group's. -/
theorem lastAt_group {X : List ι} {g : ι → List (ℕ × ℕ × ℕ)} {p : ι → ℕ} {n : ℕ}
    (hg : ∀ x ∈ X, ∀ t ∈ g x, ∃ k < n, t.2.1 = p x * n + k)
    (hinj : ∀ x ∈ X, ∀ y ∈ X, p x = p y → x = y) {x : ι} (hx : x ∈ X) {k : ℕ} (hk : k < n) :
    lastAt (X.flatMap g) (p x * n + k) = lastAt (g x) (p x * n + k) := by
  refine lastAt_flatMap hx fun y hy hne t ht heq => hne ?_
  obtain ⟨k', hk', hidx⟩ := hg y hy t ht
  exact hinj y hy x hx (block_inj hk' hk (hidx.symm.trans heq)).1

theorem elem_applyAll_lastAt {ws : List (Store β)} {b : β} {w : ℕ}
    (hw : ∀ t ∈ landing b ws, t.1 = w) (i : ℕ) (m : Memory β) :
    (applyAll ws m).elem w b i =
      ((lastAt (landing b ws) i).map (· % 256 ^ w)).getD (m.elem w b i) := by
  induction ws using List.reverseRecOn with
  | nil => rfl
  | append_singleton ws s ih =>
    rw [landing_append] at hw
    have ih := ih fun t ht => hw t (List.mem_append_left _ ht)
    rw [applyAll_append, landing_append, lastAt_append]
    by_cases hb : s.buf = b
    · subst hb
      obtain rfl : s.width = w :=
        hw (s.width, s.idx, s.val) (List.mem_append_right _ (by simp [landing]))
      by_cases hi : s.idx = i
      · subst hi
        simp [applyAll, Store.elem_apply_same, landing, lastAt]
      · have hother : lastAt (landing s.buf [s]) i = none := lastAt_eq_none (by simp [landing, hi])
        rw [hother, Option.none_or, ← ih]
        exact Store.elem_apply_other hi s.buf (applyAll ws m)
    · have hnil : landing b [s] = [] := by simp [landing, hb]
      rw [hnil, lastAt, List.foldl_nil, Option.none_or, ← ih]
      exact Memory.elem_congr (Store.apply_frame hb (applyAll ws m)) w i

end LastAt

end Gpu
