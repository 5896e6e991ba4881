import Vkzg.Library.Footprint
import Mathlib.Logic.Relation

/-! Units of a grid that run in any order. The units load, every byte at a time of its own, and store
one element after the other, between the loads and stores of the rest. Where no unit stores what
another one loads or stores, every run ends in the same memory. -/

namespace Gpu

variable {β ι α : Type} {m : Memory β}

/-! ### Stores that commute -/

/-- Two stores have no byte in common, or are the same. -/
def Store.Commutes (s t : Store β) : Prop :=
  Kernel.Apart s.toAccess t.toAccess ∨
    s.buf = t.buf ∧ s.width = t.width ∧ s.idx = t.idx ∧ s.val = t.val

/-- The store writes the byte. -/
def Store.Covers (s : Store β) (b : β) (k : ℕ) : Prop :=
  b = s.buf ∧ s.width * s.idx ≤ k ∧ k < s.width * s.idx + s.width

variable [DecidableEq β]

theorem Store.Commutes.apply_comm {s t : Store β} (h : s.Commutes t) :
    s.apply (t.apply m) = t.apply (s.apply m) := by
  funext b i
  simp only [Store.apply]
  rcases h with hapart | ⟨hbuf, hwidth, hidx, hval⟩
  · -- A byte of both would be a byte of both accesses.
    have hnot : ¬((b = s.buf ∧ s.width * s.idx ≤ i ∧ i < s.width * s.idx + s.width) ∧
        b = t.buf ∧ t.width * t.idx ≤ i ∧ i < t.width * t.idx + t.width) := by
      rintro ⟨⟨rfl, hlo, hhi⟩, hb, hlo', hhi'⟩
      have h := hapart hb
      simp only [Nat.mul_succ] at h
      omega
    by_cases hs : b = s.buf ∧ s.width * s.idx ≤ i ∧ i < s.width * s.idx + s.width
    · rw [if_pos hs, if_neg fun ht => hnot ⟨hs, ht⟩, if_pos hs]
    · rw [if_neg hs, if_neg hs]
  · rw [hbuf, hwidth, hidx, hval]

theorem applyAll_cons (s : Store β) (ws : List (Store β)) (m : Memory β) :
    applyAll (s :: ws) m = applyAll ws (s.apply m) := rfl

theorem applyAll_swap {s : Store β} {ws : List (Store β)} (h : ∀ t ∈ ws, s.Commutes t)
    (m : Memory β) : applyAll ws (s.apply m) = s.apply (applyAll ws m) := by
  induction ws generalizing m with
  | nil => rfl
  | cons t ws ih =>
    rw [applyAll_cons, applyAll_cons, ← (h t List.mem_cons_self).apply_comm,
      ih fun t' ht => h t' (List.mem_cons_of_mem t ht)]

theorem byte_applyAll_congr {m m' : Memory β} {b : β} {k : ℕ} (h : m b k = m' b k)
    (ws : List (Store β)) : applyAll ws m b k = applyAll ws m' b k := by
  induction ws generalizing m m' with
  | nil => exact h
  | cons s ws ih => exact ih (by simp only [Store.apply, h])

/-! ### Merged stores -/

/-- The stores of one unit among the stores of all. -/
def ofUnit [DecidableEq ι] (log : List (ι × Store β)) (i : ι) : List (Store β) :=
  (log.filter fun e => e.1 = i).map Prod.snd

section Merge
variable [DecidableEq ι] {log : List (ι × Store β)}

omit [DecidableEq ι] in
/-- Stores that do not write a byte can be left out where it is read. -/
theorem byte_applyAll_filter {p : ι × Store β → Bool} {b : β} {k : ℕ}
    (h : ∀ e ∈ log, p e = false → ¬e.2.Covers b k) (m : Memory β) :
    applyAll (log.map Prod.snd) m b k = applyAll ((log.filter p).map Prod.snd) m b k := by
  induction log generalizing m with
  | nil => rfl
  | cons e log ih =>
    have hrest := ih fun e' he => h e' (List.mem_cons_of_mem e he)
    rw [List.map_cons, applyAll_cons, List.filter_cons]
    split_ifs with hp
    · rw [List.map_cons, applyAll_cons]
      exact hrest _
    · rw [← hrest m]
      exact byte_applyAll_congr (if_neg (h e List.mem_cons_self (by simpa using hp))) _

/-- The stores of one unit may come first. -/
theorem applyAll_ofUnit (h : ∀ e ∈ log, ∀ e' ∈ log, e.1 ≠ e'.1 → e.2.Commutes e'.2) (i : ι)
    (m : Memory β) : applyAll (log.map Prod.snd) m =
      applyAll ((log.filter fun e => e.1 ≠ i).map Prod.snd) (applyAll (ofUnit log i) m) := by
  induction log generalizing m with
  | nil => rfl
  | cons e log ih =>
    have hrest := ih fun e' he e'' he' => h e' (List.mem_cons_of_mem e he) e''
      (List.mem_cons_of_mem e he')
    unfold ofUnit at hrest ⊢
    by_cases hi : e.1 = i
    · simp only [List.map_cons, applyAll_cons, List.filter_cons, hi, decide_true, if_true, ne_eq,
        not_true_eq_false, decide_false, Bool.false_eq_true, if_false]
      exact hrest _
    · simp only [List.map_cons, applyAll_cons, List.filter_cons, hi, decide_false, if_false, ne_eq,
        not_false_eq_true, decide_true, if_true, Bool.false_eq_true]
      rw [hrest, applyAll_swap]
      intro t ht
      obtain ⟨e', he', rfl⟩ := List.mem_map.mp ht
      obtain ⟨hmem, htag⟩ := List.mem_filter.mp he'
      exact h e List.mem_cons_self e' (List.mem_cons_of_mem e hmem)
        fun heq => hi (heq.trans (of_decide_eq_true htag))

/-- A merge of the stores of several units does what they do one after the other. -/
theorem applyAll_merge {l : List ι} (hl : l.Nodup) (htags : ∀ e ∈ log, e.1 ∈ l)
    (h : ∀ e ∈ log, ∀ e' ∈ log, e.1 ≠ e'.1 → e.2.Commutes e'.2) (m : Memory β) :
    applyAll (log.map Prod.snd) m = applyAll (l.flatMap (ofUnit log)) m := by
  induction l generalizing log m with
  | nil =>
    have hnil : log = [] := List.eq_nil_iff_forall_not_mem.mpr fun e he =>
      absurd (htags e he) List.not_mem_nil
    subst hnil
    rfl
  | cons i l ih =>
    obtain ⟨hi, hl⟩ := List.nodup_cons.mp hl
    have hmem : ∀ e ∈ log.filter fun e => e.1 ≠ i, e ∈ log ∧ e.1 ≠ i := fun e he =>
      ⟨(List.mem_filter.mp he).1, of_decide_eq_true (List.mem_filter.mp he).2⟩
    have hrest : ∀ j ∈ l, ofUnit (log.filter fun e => e.1 ≠ i) j = ofUnit log j := fun j hj => by
      unfold ofUnit
      rw [List.filter_filter]
      congr 1
      refine List.filter_congr fun e _ => ?_
      have hne : j ≠ i := fun heq => hi (heq ▸ hj)
      by_cases hej : e.1 = j <;> simp [hej, hne]
    rw [applyAll_ofUnit h i, ih hl
      (fun e he => (List.mem_cons.mp (htags e (hmem e he).1)).resolve_left (hmem e he).2)
      fun e he e' he' => h e (hmem e he).1 e' (hmem e' he').1]
    rw [List.flatMap_cons, applyAll_append, List.flatMap_congr hrest]

end Merge

namespace Kernel

/-! ### Runs of a grid -/

/-- A memory that unit `i` can see after the stores of the log: each byte as it was at some time, and
before the unit stored to it, if it has. -/
def Visible (m : Memory β) (log : List (ι × Store β)) (i : ι) (view : Memory β) : Prop :=
  ∀ b k, ∃ past, past <+: log ∧ (∀ e ∈ past, e.1 = i → ¬e.2.Covers b k) ∧
    view b k = applyAll (past.map Prod.snd) m b k

section Runs
variable [DecidableEq ι] {u : ℕ → ℕ} {l : List ι} {f : ι → Kernel β Unit} {k : Kernel β Unit}
  {log log' : List (ι × Store β)} {i : ι}

/-- The next store of a unit, as what it has loaded by then has it. What it loads later can be anything
that it can see now. -/
def Next (u : ℕ → ℕ) (k : Kernel β Unit) (m : Memory β) (log : List (ι × Store β)) (i : ι)
    (s : Store β) : Prop :=
  ∃ view ws, Visible m log i view ∧ k.stores u view = ofUnit log i ++ s :: ws

/-- The unit has made its last store. -/
def Ended (u : ℕ → ℕ) (k : Kernel β Unit) (m : Memory β) (log : List (ι × Store β)) (i : ι) : Prop :=
  ∃ view, Visible m log i view ∧ k.stores u view = ofUnit log i

/-- A unit makes its next store: the loads and stores of the units interleave one by one. -/
inductive UnitStep (u : ℕ → ℕ) (l : List ι) (f : ι → Kernel β Unit) (m : Memory β) :
    List (ι × Store β) → List (ι × Store β) → Prop
  | store {log i s} (hi : i ∈ l) (h : Next u (f i) m log i s) :
    UnitStep u l f m log (log ++ [(i, s)])

/-- A run in which every unit has made all its stores leaves `m'`. -/
def Interleaved (u : ℕ → ℕ) (l : List ι) (f : ι → Kernel β Unit) (m m' : Memory β) : Prop :=
  ∃ log, Relation.ReflTransGen (UnitStep u l f m) [] log ∧ (∀ i ∈ l, Ended u (f i) m log i) ∧
    m' = applyAll (log.map Prod.snd) m

/-- Each byte of the view is one that stores of units other than `i` have left. -/
def ViewOf (u : ℕ → ℕ) (l : List ι) (f : ι → Kernel β Unit) (m : Memory β) (i : ι)
    (view : Memory β) : Prop :=
  ∀ b k, ∃ ws, (∀ s ∈ ws, ∃ j ∈ l, j ≠ i ∧ s ∈ (f j).stores u m) ∧ view b k = applyAll ws m b k

/-- No unit stores what another one stores, other than the same value, and what a unit stores does
not depend on the stores of the others. -/
structure RaceFree (u : ℕ → ℕ) (l : List ι) (f : ι → Kernel β Unit) (m : Memory β) : Prop where
  nodup : l.Nodup
  commute : ∀ i ∈ l, ∀ j ∈ l, i ≠ j → ∀ s ∈ (f i).stores u m, ∀ t ∈ (f j).stores u m, s.Commutes t
  steady : ∀ i ∈ l, ∀ view, ViewOf u l f m i view → (f i).stores u view = (f i).stores u m

/-- The stores made so far are the first ones that their units make on the memory before the run. -/
structure Progress (u : ℕ → ℕ) (l : List ι) (f : ι → Kernel β Unit) (m : Memory β)
    (log : List (ι × Store β)) : Prop where
  units : ∀ e ∈ log, e.1 ∈ l
  made : ∀ i, ofUnit log i <+: (f i).stores u m

omit [DecidableEq β] in
theorem ofUnit_append_self (log : List (ι × Store β)) (i : ι) (s : Store β) :
    ofUnit (log ++ [(i, s)]) i = ofUnit log i ++ [s] := by
  simp [ofUnit]

omit [DecidableEq β] in
theorem ofUnit_append_other (log : List (ι × Store β)) {i j : ι} (h : j ≠ i) (s : Store β) :
    ofUnit (log ++ [(i, s)]) j = ofUnit log j := by
  simp [ofUnit, h.symm]

omit [DecidableEq β] in
theorem mem_ofUnit {log : List (ι × Store β)} {e : ι × Store β} (he : e ∈ log) :
    e.2 ∈ ofUnit log e.1 :=
  List.mem_map_of_mem (List.mem_filter.mpr ⟨he, decide_eq_true rfl⟩)

omit [DecidableEq ι] in
/-- Before its own stores a unit can see the memory as it was before the run. -/
theorem visible_start (m : Memory β) (log : List (ι × Store β)) (i : ι) : Visible m log i m :=
  fun _ _ => ⟨[], List.nil_prefix, nofun, rfl⟩

omit [DecidableEq β] in
theorem Progress.mem_stores (h : Progress u l f m log) {e : ι × Store β} (he : e ∈ log) :
    e.2 ∈ (f e.1).stores u m := (h.made e.1).subset (mem_ofUnit he)

/-- What a unit sees in a byte was there or stored by other units. -/
theorem Progress.viewOf (h : Progress u l f m log) {view : Memory β} (hview : Visible m log i view) :
    ViewOf u l f m i view := by
  intro b k
  obtain ⟨past, hpast, hown, heq⟩ := hview b k
  refine ⟨(past.filter fun e => e.1 ≠ i).map Prod.snd, fun s hs => ?_, ?_⟩
  · obtain ⟨e, he, rfl⟩ := List.mem_map.mp hs
    obtain ⟨hmem, hne⟩ := List.mem_filter.mp he
    have hlog := hpast.subset hmem
    exact ⟨e.1, h.units e hlog, of_decide_eq_true hne, h.mem_stores hlog⟩
  · rw [heq]
    exact byte_applyAll_filter (fun e he hself => hown e he (by simpa using hself)) m

theorem RaceFree.stores_eq (hfree : RaceFree u l f m) (h : Progress u l f m log) (hi : i ∈ l)
    {view : Memory β} (hview : Visible m log i view) : (f i).stores u view = (f i).stores u m :=
  hfree.steady i hi view (h.viewOf hview)

omit [DecidableEq β] in
/-- A unit's next store on the memory before the run can be the next of all. -/
theorem Progress.store (h : Progress u l f m log) (hi : i ∈ l) {s : Store β} {ws : List (Store β)}
    (heq : (f i).stores u m = ofUnit log i ++ s :: ws) : Progress u l f m (log ++ [(i, s)]) := by
  refine ⟨fun e he => ?_, fun j => ?_⟩
  · rcases List.mem_append.mp he with he | he
    · exact h.units e he
    · rwa [List.mem_singleton.mp he]
  · by_cases hne : j = i
    · subst hne
      rw [ofUnit_append_self, heq]
      exact ⟨ws, List.append_assoc ..⟩
    · rw [ofUnit_append_other log hne]
      exact h.made j

theorem Progress.step (hfree : RaceFree u l f m) (h : Progress u l f m log)
    (hstep : UnitStep u l f m log log') : Progress u l f m log' := by
  cases hstep with
  | store hi hnext =>
    obtain ⟨view, ws, hview, heq⟩ := hnext
    exact h.store hi ((hfree.stores_eq h hi hview).symm.trans heq)

theorem RaceFree.progress (hfree : RaceFree u l f m)
    (hrun : Relation.ReflTransGen (UnitStep u l f m) [] log) : Progress u l f m log := by
  induction hrun with
  | refl => exact ⟨nofun, fun _ => List.nil_prefix⟩
  | tail _ hstep ih => exact ih.step hfree hstep

/-- Once all units have made all their stores, these leave what the units leave one after the other. -/
theorem RaceFree.merged (hfree : RaceFree u l f m) (h : Progress u l f m log)
    (hdone : ∀ i ∈ l, ofUnit log i = (f i).stores u m) :
    applyAll (log.map Prod.snd) m = (each l f).exec u m := by
  have hcomm : ∀ e ∈ log, ∀ e' ∈ log, e.1 ≠ e'.1 → e.2.Commutes e'.2 := fun e he e' he' hne =>
    hfree.commute e.1 (h.units e he) e'.1 (h.units e' he') hne _ (h.mem_stores he) _
      (h.mem_stores he')
  rw [applyAll_merge hfree.nodup h.units hcomm, exec, stores_each, List.flatMap_congr hdone]

theorem RaceFree.interleaved (hfree : RaceFree u l f m) {m' : Memory β}
    (h : Interleaved u l f m m') : m' = (each l f).exec u m := by
  obtain ⟨log, hrun, hdone, rfl⟩ := h
  have hlog := hfree.progress hrun
  refine hfree.merged hlog fun i hi => ?_
  obtain ⟨view, hview, heq⟩ := hdone i hi
  rw [← heq, hfree.stores_eq hlog hi hview]

section Steps
variable {S : Type} {R : S → S → Prop} {P : S → Prop} {record : S → List (ι × Store β)}
  {x : ι → List (Store β)}

omit [DecidableEq β] in
/-- A unit that can always make its next store can make all it has left. -/
theorem drain (hi : i ∈ l) (hstep : ∀ σ, P σ → ∀ i ∈ l, ∀ s ws, x i = ofUnit (record σ) i ++ s :: ws →
    ∃ σ', R σ σ' ∧ P σ' ∧ record σ' = record σ ++ [(i, s)]) {ws : List (Store β)} {σ : S} (hσ : P σ)
    (h : x i = ofUnit (record σ) i ++ ws) : ∃ σ', Relation.ReflTransGen R σ σ' ∧ P σ' ∧
      ofUnit (record σ') i = x i ∧ ∀ j ≠ i, ofUnit (record σ') j = ofUnit (record σ) j := by
  induction ws generalizing σ with
  | nil => exact ⟨σ, .refl, hσ, by rw [h, List.append_nil], fun _ _ => rfl⟩
  | cons s ws ih =>
    obtain ⟨σ₁, hfirst, hσ₁, hrecord⟩ := hstep σ hσ i hi s ws h
    obtain ⟨σ', hrun, hσ', hself, hother⟩ := ih hσ₁ (by
      rw [h, hrecord, ofUnit_append_self, List.append_assoc, List.singleton_append])
    refine ⟨σ', hrun.head hfirst, hσ', hself, fun j hne => ?_⟩
    rw [hother j hne, hrecord, ofUnit_append_other _ hne]

omit [DecidableEq β] in
/-- Where each unit can always make its next store, the units can run one after the other. -/
theorem exists_steps (hl : l.Nodup) (hstep : ∀ σ, P σ → ∀ i ∈ l, ∀ s ws,
    x i = ofUnit (record σ) i ++ s :: ws → ∃ σ', R σ σ' ∧ P σ' ∧ record σ' = record σ ++ [(i, s)])
    {σ : S} (hσ : P σ) (hnone : ∀ i ∈ l, ofUnit (record σ) i = []) :
    ∃ σ', Relation.ReflTransGen R σ σ' ∧ P σ' ∧ ∀ i ∈ l, ofUnit (record σ') i = x i := by
  suffices h : ∃ σ', Relation.ReflTransGen R σ σ' ∧ P σ' ∧ (∀ i ∈ l, ofUnit (record σ') i = x i) ∧
      ∀ j ∉ l, ofUnit (record σ') j = ofUnit (record σ) j by
    obtain ⟨σ', hrun, hσ', hdone, -⟩ := h
    exact ⟨σ', hrun, hσ', hdone⟩
  induction l generalizing σ with
  | nil => exact ⟨σ, .refl, hσ, nofun, fun _ _ => rfl⟩
  | cons i l ih =>
    obtain ⟨hi, hl⟩ := List.nodup_cons.mp hl
    obtain ⟨σ₁, hrun, hσ₁, hself, hother⟩ := drain List.mem_cons_self hstep hσ (by
      rw [hnone i List.mem_cons_self, List.nil_append])
    obtain ⟨σ', hrun', hσ', hdone, hkept⟩ := ih hl
      (fun σ hσ j hj => hstep σ hσ j (List.mem_cons_of_mem i hj)) hσ₁ fun j hj => by
        rw [hother j fun heq => hi (heq ▸ hj)]
        exact hnone j (List.mem_cons_of_mem i hj)
    refine ⟨σ', hrun.trans hrun', hσ', fun j hj => ?_, fun j hj => ?_⟩
    · rcases List.mem_cons.mp hj with rfl | hj
      · rw [hkept j hi, hself]
      · exact hdone j hj
    · rw [hkept j fun h => hj (List.mem_cons_of_mem i h),
        hother j fun heq => hj (heq ▸ List.mem_cons_self)]

end Steps

/-- Units that do not race can run, and every run ends in what they leave one after the other. -/
theorem RaceFree.interleaved_iff (hfree : RaceFree u l f m) {m' : Memory β} :
    Interleaved u l f m m' ↔ m' = (each l f).exec u m := by
  refine ⟨hfree.interleaved, fun heq => ?_⟩
  have hstep : ∀ log : List (ι × Store β), True → ∀ i ∈ l, ∀ s ws,
      (f i).stores u m = ofUnit log i ++ s :: ws →
      ∃ log', UnitStep u l f m log log' ∧ True ∧ log' = log ++ [(i, s)] := fun log _ i hi s ws h =>
    ⟨_, .store hi ⟨m, ws, visible_start m log i, h⟩, trivial, rfl⟩
  obtain ⟨log, hrun, -, hdone⟩ : ∃ log, Relation.ReflTransGen (UnitStep u l f m) [] log ∧ True ∧
      ∀ i ∈ l, ofUnit log i = (f i).stores u m :=
    exists_steps hfree.nodup hstep trivial fun _ _ => rfl
  have hrun : Interleaved u l f m _ :=
    ⟨log, hrun, fun i hi => ⟨m, visible_start m log i, (hdone i hi).symm⟩, rfl⟩
  rwa [heq, ← hfree.interleaved hrun]

end Runs

/-! ### Units that keep to elements of their own -/

omit [DecidableEq β] in
/-- A flag keeps its value, once it is set, whichever of its bytes are from before. -/
theorem elem_flag {m view : Memory β} {b : β} (h : ∀ k < 4, view b k = m b k ∨
    view b k = byteOf (m.elem 4 b 0 ||| 1) k) : view.elem 4 b 0 ||| 1 = m.elem 4 b 0 ||| 1 := by
  have hbyte : ∀ k < 4, m b k = byteOf (m.elem 4 b 0) k := fun k hk => by
    rw [Memory.elem, byteOf_bytesValue _ hk, Nat.mul_zero, Nat.zero_add]
  have hlt : m.elem 4 b 0 ||| 1 < 256 ^ 4 := Nat.or_lt_two_pow (n := 32) (m.elem_lt 4 b 0) (by decide)
  -- Setting the flag changes the first byte only.
  have hhigh : ∀ k, byteOf (m.elem 4 b 0 ||| 1) (k + 1) = byteOf (m.elem 4 b 0) (k + 1) := fun k => by
    have hdiv : (m.elem 4 b 0 ||| 1) / 2 = m.elem 4 b 0 / 2 := by
      simpa [Nat.shiftRight_eq_div_pow] using @Nat.shiftRight_or_distrib 1 (m.elem 4 b 0) 1
    rw [byteOf, byteOf, pow_succ', ← Nat.div_div_eq_div_mul, ← Nat.div_div_eq_div_mul,
      show 256 = 2 * 128 from rfl, ← Nat.div_div_eq_div_mul, ← Nat.div_div_eq_div_mul, hdiv]
  have hfirst : ∀ v, view b 0 = byteOf v 0 → (∀ k, byteOf v (k + 1) = byteOf (m.elem 4 b 0) (k + 1)) →
      view.elem 4 b 0 = v % 256 ^ 4 := fun v h0 hv => by
    rw [← bytesValue_byteOf]
    refine bytesValue_congr fun k hk => ?_
    rw [Nat.mul_zero, Nat.zero_add]
    cases k with
    | zero => exact h0
    | succ k =>
      rw [hv]
      rcases h (k + 1) hk with heq | heq
      · rw [heq, hbyte _ hk]
      · rw [heq, hhigh]
  rcases h 0 (by decide) with h0 | h0
  · rw [hfirst _ (h0.trans (hbyte 0 (by decide))) fun _ => rfl, Nat.mod_eq_of_lt (m.elem_lt 4 b 0)]
  · rw [hfirst _ h0 hhigh, Nat.mod_eq_of_lt hlt, Nat.or_assoc, Nat.or_self]

theorem byte_applyAll_other {ws : List (Store β)} {b : β} {i : ℕ}
    (h : ∀ s ∈ ws, s.buf = b → i < s.width * s.idx ∨ s.width * s.idx + s.width ≤ i) (m : Memory β) :
    applyAll ws m b i = m b i := by
  induction ws generalizing m with
  | nil => rfl
  | cons s ws ih =>
    rw [applyAll_cons, ih fun t ht => h t (List.mem_cons_of_mem s ht), Store.apply, if_neg]
    rintro ⟨rfl, hlo, hhi⟩
    have := h s List.mem_cons_self rfl
    omega

/-- Stores of one value leave each byte as it was, or as that value has it. -/
theorem byte_applyAll_flag {ws : List (Store β)} {b : β} {v k : ℕ}
    (h : ∀ s ∈ ws, s.buf = b → s.width = 4 ∧ s.idx = 0 ∧ s.val = v) (m : Memory β) :
    applyAll ws m b k = m b k ∨ applyAll ws m b k = byteOf v k := by
  induction ws generalizing m with
  | nil => exact .inl rfl
  | cons s ws ih =>
    rw [applyAll_cons]
    rcases ih (fun t ht => h t (List.mem_cons_of_mem s ht)) (s.apply m) with heq | heq
    · rw [heq, Store.apply]
      split_ifs with hs
      · obtain ⟨-, hidx, hval⟩ := h s List.mem_cons_self hs.1.symm
        rw [hidx, hval]
        exact .inr rfl
      · exact .inl rfl
    · exact .inr heq

/-- Both memories show the element read; of a flag, what it is once it is set. -/
def Sees (flag : β → Bool) (m m' : Memory β) (a : Access β) : Prop :=
  if flag a.buf then m'.elem a.width a.buf a.idx ||| 1 = m.elem a.width a.buf a.idx ||| 1
  else m'.elem a.width a.buf a.idx = m.elem a.width a.buf a.idx

/-- The kernel depends on the elements it reads. In the buffers that are stored to, it keeps to its
own elements, by width and index, but for flags, which it may set. -/
structure Keeps (flag out : β → Bool) (own : β → ℕ → ℕ → Prop) (u : ℕ → ℕ) (m : Memory β)
    (k : Kernel β α) : Prop where
  same : ∀ m', (∀ a ∈ k.reads u m, Sees flag m m' a) →
    k.val u m' = k.val u m ∧ k.reads u m' = k.reads u m ∧ k.stores u m' = k.stores u m
  read : ∀ a ∈ k.reads u m, if flag a.buf then a.width = 4 ∧ a.idx = 0
    else out a.buf = true → own a.buf a.width a.idx
  stored : ∀ s ∈ k.stores u m, if flag s.buf then s.width = 4 ∧ s.idx = 0 ∧
      s.val = m.elem 4 s.buf 0 ||| 1
    else out s.buf = true ∧ own s.buf s.width s.idx

section Keeps
variable {flag out : β → Bool} {u : ℕ → ℕ} {l : List ι} {f : ι → Kernel β Unit}
  {own : ι → β → ℕ → ℕ → Prop}

omit [DecidableEq β] in
/-- Elements of one width with different indices have no byte in common. -/
theorem elements_clear (w : ℕ) {n n' : ℕ} (hne : n ≠ n') :
    w * (n + 1) ≤ w * n' ∨ w * (n' + 1) ≤ w * n :=
  (Nat.lt_or_gt_of_ne hne).imp (Nat.mul_le_mul_left w) (Nat.mul_le_mul_left w)

/-- Units that keep to different elements do not race. -/
theorem raceFree_of_keeps (hl : l.Nodup) (hkeeps : ∀ i ∈ l, Keeps flag out (own i) u m (f i))
    (hown : ∀ i ∈ l, ∀ j ∈ l, i ≠ j → ∀ b w n w' n', out b = true → own i b w n → own j b w' n' →
      w = w' ∧ n ≠ n') : RaceFree u l f m := by
  refine ⟨hl, fun i hi j hj hne s hs t ht => ?_, fun i hi view hview => ?_⟩
  · have hs := (hkeeps i hi).stored s hs
    have ht := (hkeeps j hj).stored t ht
    by_cases hbuf : s.buf = t.buf
    · rw [← hbuf] at ht
      split_ifs at hs ht with hflag
      · obtain ⟨hw, hn, hv⟩ := hs
        obtain ⟨hw', hn', hv'⟩ := ht
        exact .inr ⟨hbuf, hw.trans hw'.symm, hn.trans hn'.symm, hv.trans hv'.symm⟩
      · obtain ⟨hw, hn⟩ := hown i hi j hj hne _ _ _ _ _ hs.1 hs.2 ht.2
        refine .inl fun _ => ?_
        rw [hw]
        exact elements_clear _ hn
    · exact .inl fun heq => absurd heq hbuf
  · refine ((hkeeps i hi).same view fun a ha => ?_).2.2
    have hread := (hkeeps i hi).read a ha
    unfold Sees
    split_ifs at hread ⊢ with hflag
    · -- Each byte of a flag is from before or from after it was set.
      rw [hread.1, hread.2]
      refine elem_flag fun k hk => ?_
      obtain ⟨ws, hws, heq⟩ := hview a.buf k
      rw [heq]
      refine byte_applyAll_flag (fun s hs hb => ?_) m
      obtain ⟨j, hj, -, hmem⟩ := hws s hs
      have hstored := (hkeeps j hj).stored s hmem
      rw [hb, if_pos hflag] at hstored
      exact hstored
    · refine bytesValue_congr fun k hk => ?_
      obtain ⟨ws, hws, heq⟩ := hview a.buf (a.width * a.idx + k)
      rw [heq]
      refine byte_applyAll_other (fun s hs hb => ?_) m
      obtain ⟨j, hj, hne, hmem⟩ := hws s hs
      have hstored := (hkeeps j hj).stored s hmem
      rw [hb, if_neg hflag] at hstored
      obtain ⟨hw, hn⟩ := hown i hi j hj hne.symm _ _ _ _ _ hstored.1 (hread hstored.1) hstored.2
      rw [← hw]
      have := elements_clear a.width hn
      simp only [Nat.mul_succ] at this
      omega

/-! ### Rules -/

section Rules
variable {γ σ : Type} {own : β → ℕ → ℕ → Prop} {w n off : ℕ} {b : β}

omit [DecidableEq β]

theorem keeps_mono {own' : β → ℕ → ℕ → Prop} {x : Kernel β α} (h : Keeps flag out own u m x)
    (hown : ∀ b w n, out b = true → own b w n → own' b w n) : Keeps flag out own' u m x where
  same := h.same
  read a ha := by
    have hread := h.read a ha
    split_ifs at hread ⊢
    · exact hread
    · exact fun hout => hown _ _ _ hout (hread hout)
  stored s hs := by
    have hstored := h.stored s hs
    split_ifs at hstored ⊢
    · exact hstored
    · exact ⟨hstored.1, hown _ _ _ hstored.1 hstored.2⟩

theorem keeps_pure (a : α) : Keeps flag out own u m (pure a) :=
  ⟨fun _ _ => ⟨rfl, rfl, rfl⟩, fun _ h => absurd h List.not_mem_nil,
    fun _ h => absurd h List.not_mem_nil⟩

theorem keeps_bind {x : Kernel β α} {f : α → Kernel β γ} (hx : Keeps flag out own u m x)
    (hf : Keeps flag out own u m (f (x.val u m))) : Keeps flag out own u m (x >>= f) where
  same m' h := by
    obtain ⟨hval, hreads, hstores⟩ := hx.same m' fun a ha => h a (List.mem_append_left _ ha)
    obtain ⟨hval', hreads', hstores'⟩ := hf.same m' fun a ha => h a (List.mem_append_right _ ha)
    simp only [val_bind, reads_bind, stores_bind, hval, hreads, hstores, hval', hreads', hstores',
      and_self]
  read a ha := (List.mem_append.mp ha).elim (hx.read a) (hf.read a)
  stored s hs := (List.mem_append.mp hs).elim (hx.stored s) (hf.stored s)

theorem keeps_map {x : Kernel β α} (f : α → γ) (hx : Keeps flag out own u m x) :
    Keeps flag out own u m (f <$> x) := keeps_bind hx (keeps_pure _)

theorem keeps_uint (n : ℕ) : Keeps flag out own u m (uint n) :=
  ⟨fun _ _ => ⟨rfl, rfl, rfl⟩, fun _ h => absurd h List.not_mem_nil,
    fun _ h => absurd h List.not_mem_nil⟩

/-- A run of elements of which only the ones read matter. -/
theorem keeps_loadWords {g : (ℕ → ℕ) → α} (hg : ∀ f f', (∀ k < n, f k = f' k) → g f = g f')
    (hflag : flag b = false) (h : out b = true → ∀ k < n, own b w (u (off + k))) :
    Keeps flag out own u m (g <$> loadWords w n b off) where
  same m' hsees := by
    refine ⟨hg _ _ fun k hk => ?_, rfl, rfl⟩
    have hword := hsees ⟨b, w, u (off + k), none⟩
      (List.mem_append_left _ (List.mem_map.mpr ⟨k, List.mem_range.mpr hk, rfl⟩))
    rwa [Sees, hflag] at hword
  read a ha := by
    obtain ⟨k, hk, rfl⟩ := List.mem_map.mp ((List.mem_append.mp ha).resolve_right List.not_mem_nil)
    simp only [hflag, Bool.false_eq_true, if_false]
    exact fun hout => h hout k (List.mem_range.mp hk)
  stored _ h := absurd h List.not_mem_nil

theorem keeps_load {i : ℕ} (hflag : flag b = false) (h : out b = true → own b w (u i)) :
    Keeps flag out own u m (load w b i) where
  same m' hsees := by
    have hword := hsees ⟨b, w, u i, none⟩ List.mem_cons_self
    rw [Sees, hflag] at hword
    exact ⟨hword, rfl, rfl⟩
  read a ha := by
    rw [List.mem_singleton.mp ha]
    simpa [hflag] using h
  stored _ h := absurd h List.not_mem_nil

theorem keeps_storeWords {v : ℕ → ℕ} (hflag : flag b = false) (hout : out b = true)
    (h : ∀ k < n, own b w (u (off + k))) : Keeps flag out own u m (storeWords w n b off v) where
  same _ _ := ⟨rfl, rfl, rfl⟩
  read _ h := absurd h List.not_mem_nil
  stored s hs := by
    obtain ⟨k, hk, rfl⟩ := List.mem_map.mp hs
    simpa [hflag, hout] using h k (List.mem_range.mp hk)

theorem keeps_store {i v : ℕ} (hflag : flag b = false) (hout : out b = true)
    (h : own b w (u i)) : Keeps flag out own u m (store w b i v) where
  same _ _ := ⟨rfl, rfl, rfl⟩
  read _ h := absurd h List.not_mem_nil
  stored s hs := by
    rw [List.mem_singleton.mp hs]
    simpa [hflag, hout] using h

/-- A flag is set by an atomic or. -/
theorem keeps_atomicOr (hflag : flag b = true) (hu : u 0 = 0) :
    Keeps flag out own u m (atomicOr 4 b 0 1) where
  same m' hsees := by
    have hword := hsees ⟨b, 4, u 0, none⟩ List.mem_cons_self
    rw [Sees, hflag, if_pos rfl] at hword
    refine ⟨rfl, rfl, ?_⟩
    rw [stores_atomicOr, stores_atomicOr, hword]
  read a ha := by
    rw [List.mem_singleton.mp ha]
    simp [hflag, hu]
  stored s hs := by
    rw [List.mem_singleton.mp hs]
    simp [hflag, hu]

theorem keeps_reload {v : α} (hflag : flag b = false) (h : ∀ k < n, own b w (u (off + k))) :
    Keeps flag out own u m (reload w n b off v) where
  same _ _ := ⟨rfl, rfl, rfl⟩
  read a ha := by
    obtain ⟨k, hk, rfl⟩ := List.mem_map.mp ha
    simp only [hflag, Bool.false_eq_true, if_false]
    exact fun _ => h k (List.mem_range.mp hk)
  stored _ h := absurd h List.not_mem_nil

theorem keeps_gather {l : List ι} {f : ι → Kernel β α} (h : ∀ i ∈ l, Keeps flag out own u m (f i)) :
    Keeps flag out own u m (gather l f) where
  same m' hsees := by
    have hi := fun i hi => (h i hi).same m' fun a ha => hsees a (List.mem_flatMap.mpr ⟨i, hi, ha⟩)
    exact ⟨List.map_congr_left fun i him => (hi i him).1,
      List.flatMap_congr fun i him => (hi i him).2.1, List.flatMap_congr fun i him => (hi i him).2.2⟩
  read a ha := by
    obtain ⟨i, hi, ha⟩ := List.mem_flatMap.mp ha
    exact (h i hi).read a ha
  stored s hs := by
    obtain ⟨i, hi, hs⟩ := List.mem_flatMap.mp hs
    exact (h i hi).stored s hs

theorem keeps_each {l : List ι} {f : ι → Kernel β Unit}
    (h : ∀ i ∈ l, Keeps flag out own u m (f i)) : Keeps flag out own u m (each l f) :=
  have hall := keeps_gather h
  ⟨fun m' hsees => ⟨rfl, (hall.same m' hsees).2⟩, hall.read, hall.stored⟩

theorem keeps_owned {o : ℕ} {k : Kernel β α} (h : Keeps flag out own u m k) :
    Keeps flag out own u m (owned o k) where
  same m' hsees := by
    obtain ⟨hval, hreads, hstores⟩ := h.same m' fun a ha =>
      hsees (a.own o) (List.mem_map_of_mem ha)
    exact ⟨hval, congrArg (List.map _) hreads, congrArg (List.map _) hstores⟩
  read a ha := by
    obtain ⟨a, hin, rfl⟩ := List.mem_map.mp ha
    exact h.read a hin
  stored s hs := by
    obtain ⟨s, hin, rfl⟩ := List.mem_map.mp hs
    exact h.stored s hin

theorem keeps_foldlM {f : σ → ι → Kernel β σ} {l : List ι}
    (h : ∀ s, ∀ i ∈ l, Keeps flag out own u m (f s i)) (s : σ) :
    Keeps flag out own u m (l.foldlM f s) := by
  induction l generalizing s with
  | nil => exact keeps_pure s
  | cons i l ih =>
    rw [List.foldlM_cons]
    exact keeps_bind (h s i List.mem_cons_self)
      (ih (fun s j hj => h s j (List.mem_cons_of_mem i hj)) _)

end Rules

end Keeps

/-! ### Grids -/

/-- A dispatch cut into the units that run by themselves: one for each row and column. -/
structure Grid (β : Type) where
  rows : ℕ
  cols : ℕ
  unit : ℕ → ℕ → Kernel β Unit

def Grid.units (g : Grid β) : List (ℕ × ℕ) := List.range g.rows ×ˢ List.range g.cols

def Grid.main (g : Grid β) (i : ℕ × ℕ) : Kernel β Unit := g.unit i.1 i.2

/-- Grids in order, each after all units of the one before have ended. -/
inductive InAnyOrder (u : ℕ → ℕ) : List (Grid β) → Memory β → Memory β → Prop
  | nil (m : Memory β) : InAnyOrder u [] m m
  | cons {g gs m m' m''} (hg : Interleaved u g.units g.main m m') (hgs : InAnyOrder u gs m' m'') :
    InAnyOrder u (g :: gs) m m''

/-- No grid of a sequence races, in the memory it finds. -/
def RaceFreeAll (u : ℕ → ℕ) : List (Grid β) → Memory β → Prop
  | [], _ => True
  | g :: gs, m => RaceFree u g.units g.main m ∧
    RaceFreeAll u gs ((each g.units g.main).exec u m)

def runGrids (u : ℕ → ℕ) (gs : List (Grid β)) (m : Memory β) : Memory β :=
  gs.foldl (fun m g => (each g.units g.main).exec u m) m

/-- What runs of the grids can leave is what the grids leave unit by unit. -/
theorem RaceFreeAll.run_iff {u : ℕ → ℕ} {gs : List (Grid β)} {m m' : Memory β}
    (hfree : RaceFreeAll u gs m) : InAnyOrder u gs m m' ↔ m' = runGrids u gs m := by
  constructor
  · intro h
    induction h with
    | nil m => rfl
    | cons hg _ ih =>
      obtain rfl := hfree.1.interleaved hg
      exact ih hfree.2
  · rintro rfl
    induction gs generalizing m with
    | nil => exact .nil m
    | cons g gs ih => exact .cons (hfree.1.interleaved_iff.mpr rfl) (ih hfree.2)

theorem raceFreeAll_append {u : ℕ → ℕ} {gs gs' : List (Grid β)} {m : Memory β}
    (h : RaceFreeAll u gs m) (h' : RaceFreeAll u gs' (runGrids u gs m)) :
    RaceFreeAll u (gs ++ gs') m := by
  induction gs generalizing m with
  | nil => exact h'
  | cons g gs ih => exact ⟨h.1, ih h.2 h'⟩

theorem raceFreeAll_of_forall {u : ℕ → ℕ} {gs : List (Grid β)}
    (h : ∀ g ∈ gs, ∀ m, RaceFree u g.units g.main m) (m : Memory β) : RaceFreeAll u gs m := by
  induction gs generalizing m with
  | nil => trivial
  | cons g gs ih =>
    exact ⟨h g List.mem_cons_self m, ih (fun g' hg => h g' (List.mem_cons_of_mem g hg)) _⟩

/-- The units of the grid do, one after the other, what the kernel does. -/
def Cuts (u : ℕ → ℕ) (g : Grid β) (k : Kernel β Unit) : Prop :=
  ∀ m, (each g.units g.main).exec u m = k.exec u m

theorem runGrids_eq {u : ℕ → ℕ} {gs : List (Grid β)} {ks : List (Kernel β Unit)}
    (h : List.Forall₂ (Cuts u) gs ks) (m : Memory β) : runGrids u gs m = runAll ks u m := by
  induction h generalizing m with
  | nil => rfl
  | cons hcut _ ih =>
    rw [runAll_cons, ← hcut m, ← ih]
    rfl

theorem RaceFreeAll.runAll_iff {u : ℕ → ℕ} {gs : List (Grid β)} {ks : List (Kernel β Unit)}
    {m m' : Memory β} (hfree : RaceFreeAll u gs m) (hcuts : List.Forall₂ (Cuts u) gs ks) :
    InAnyOrder u gs m m' ↔ m' = runAll ks u m := by
  rw [hfree.run_iff, runGrids_eq hcuts]

theorem cuts_uint {u : ℕ → ℕ} {g : Grid β} {n : ℕ} {f : ℕ → Kernel β Unit}
    (h : Cuts u g (f (u n))) : Cuts u g (uint n >>= f) := h

/-- One unit for each workgroup. -/
def groups (main : ℕ → ℕ → Kernel β Unit) (gx gy : ℕ) : Grid β := ⟨gy, gx, fun y x => main x y⟩

/-- One unit for each thread of the workgroups, `size` to a group. -/
def lanes (size : ℕ) (thread : ℕ → ℕ → ℕ → Kernel β Unit) (gx gy : ℕ) : Grid β :=
  ⟨gy, gx * size, fun y i => thread (i / size) y (i % size)⟩

section Grids
variable {u : ℕ → ℕ} {gx gy : ℕ}

omit [DecidableEq β] in
theorem Grid.nodup (g : Grid β) : g.units.Nodup := List.nodup_range.product List.nodup_range

omit [DecidableEq β] in
theorem Grid.mem_units {g : Grid β} {i : ℕ × ℕ} : i ∈ g.units ↔ i.1 < g.rows ∧ i.2 < g.cols := by
  rw [Grid.units, List.mem_product, List.mem_range, List.mem_range]

theorem applyAll_flatMap_own {l : List ℕ} (g : ℕ → List (Store β)) (m : Memory β) :
    applyAll (l.flatMap fun o => (g o).map (Store.own o)) m = applyAll (l.flatMap g) m := by
  induction l generalizing m with
  | nil => rfl
  | cons o l ih =>
    rw [List.flatMap_cons, List.flatMap_cons, applyAll_append, applyAll_append, applyAll_map_own, ih]

theorem cuts_groups (main : ℕ → ℕ → Kernel β Unit) :
    Cuts u (groups main gx gy) (dispatch main gx gy) := by
  intro m
  rw [exec, exec, dispatch, stores_each, stores_each, Grid.units, flatMap_product]
  exact (applyAll_flatMap_own _ m).symm

theorem cuts_lanes {size : ℕ} (thread : ℕ → ℕ → ℕ → Kernel β Unit) :
    Cuts u (lanes size thread gx gy)
      (dispatch (fun x y => each (List.range size) (thread x y)) gx gy) := by
  intro m
  rw [← cuts_groups, exec, exec, stores_each, stores_each, Grid.units, Grid.units, flatMap_product,
    flatMap_product]
  congr 1
  refine List.flatMap_congr fun y _ => ?_
  simp only [lanes, groups, Grid.main, stores_each]
  rw [range_mul_eq_flatMap, List.flatMap_assoc]
  refine List.flatMap_congr fun x _ => ?_
  rw [List.flatMap_map]
  refine List.flatMap_congr fun t ht => ?_
  have ht := List.mem_range.mp ht
  rw [block_div ht, Nat.mul_add_mod_of_lt ht]

/-- Units that keep to elements with a key of their own. -/
theorem Grid.raceFree {κ : Type} {g : Grid β} (flag out : β → Bool) (width : β → ℕ)
    (key : β → ℕ → κ) (name : ℕ × ℕ → κ)
    (hname : ∀ i ∈ g.units, ∀ j ∈ g.units, name i = name j → i = j)
    (h : ∀ y < g.rows, ∀ i < g.cols, Keeps flag out
      (fun b w n => w = width b ∧ key b n = name (y, i)) u m (g.unit y i)) :
    RaceFree u g.units g.main m := by
  have hkeeps : ∀ i ∈ g.units, Keeps flag out (fun b w n => w = width b ∧ key b n = name i) u m
      (g.main i) := fun i hi => h i.1 (Grid.mem_units.mp hi).1 i.2 (Grid.mem_units.mp hi).2
  refine raceFree_of_keeps g.nodup hkeeps fun i hi j hj hne b w n w' n' _ hn hn' =>
    ⟨hn.1.trans hn'.1.symm, fun heq => hne (hname i hi j hj ?_)⟩
  rw [← hn.2, ← hn'.2, heq]

end Grids

end Kernel

end Gpu
