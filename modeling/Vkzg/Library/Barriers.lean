import Vkzg.Library.Races

/-! Workgroups whose threads meet at barriers. Between two barriers the threads of a group run in any
order, and each group goes on by itself. Where the threads of a group do not race between barriers and
the groups keep to elements of their own, every run leaves what the groups leave phase by phase. -/

namespace Gpu.Kernel

variable {β γ ι : Type}

/-! ### Kernels in a larger memory -/

section Onto
variable {β' α : Type} {e : β → β'} {u : ℕ → ℕ}

/-- The kernel on those buffers of a larger memory that stand for its own. -/
def onto (e : β → β') (x : Kernel β α) : Kernel β' α where
  val u m := x.val u fun b => m (e b)
  reads u m := (x.reads u fun b => m (e b)).map fun a => ⟨e a.buf, a.width, a.idx, a.owner⟩
  stores u m := (x.stores u fun b => m (e b)).map fun s =>
    ⟨⟨e s.buf, s.width, s.idx, s.owner⟩, s.val⟩

@[simp] theorem val_onto (x : Kernel β α) (m : Memory β') :
    (onto e x).val u m = x.val u fun b => m (e b) := rfl

theorem stores_onto_nil {x : Kernel β α} {m : Memory β'}
    (h : x.stores u (fun b => m (e b)) = []) : (onto e x).stores u m = [] :=
  congrArg (List.map _) h

theorem keeps_onto {out : β' → Bool} {own : β' → ℕ → ℕ → Prop} {x : Kernel β α} {m : Memory β'}
    (h : Keeps (fun _ => false) (fun b => out (e b)) (fun b => own (e b)) u (fun b => m (e b)) x) :
    Keeps (fun _ => false) out own u m (onto e x) where
  same m' hsees := by
    obtain ⟨hval, hreads, hstores⟩ := h.same (fun b => m' (e b)) fun a ha =>
      hsees _ (List.mem_map_of_mem ha)
    exact ⟨hval, congrArg (List.map _) hreads, congrArg (List.map _) hstores⟩
  read a ha := by
    obtain ⟨a, hin, rfl⟩ := List.mem_map.mp ha
    exact h.read a hin
  stored s hs := by
    obtain ⟨s, hin, rfl⟩ := List.mem_map.mp hs
    exact h.stored s hin

variable [DecidableEq β] [DecidableEq β']

/-- Stores to the buffers of the kernel do there what they do in its own memory. -/
theorem applyAll_onto (he : e.Injective) (ws : List (Store β)) (m : Memory β') :
    (fun b => applyAll (ws.map fun s => ⟨⟨e s.buf, s.width, s.idx, s.owner⟩, s.val⟩) m (e b)) =
      applyAll ws fun b => m (e b) := by
  induction ws generalizing m with
  | nil => rfl
  | cons s ws ih =>
    rw [List.map_cons, applyAll_cons, applyAll_cons, ih]
    congr 1
    funext b k
    simp only [Store.apply, he.eq_iff]

end Onto

/-! ### Runs with barriers -/

/-- What the threads do from one barrier to the next. -/
abbrev Phase (β ι : Type) := ι → Kernel β Unit

/-- Where the groups stand: the memory, that at the last barrier of each group with the stores made
since, and the phases the group has left. -/
structure Standing (β γ ι : Type) where
  mem : Memory β
  base : γ → Memory β
  since : γ → List ((γ × ι) × Store β)
  rest : γ → List (Phase β ι)

variable [DecidableEq β] [DecidableEq γ] [DecidableEq ι]

/-- A thread makes its next store, or a group passes a barrier that all its threads have reached. What
a thread loads was there at some time since the last barrier. -/
inductive GroupStep (u : ℕ → ℕ) (l : List ι) : Standing β γ ι → Standing β γ ι → Prop
  | store {σ g f fs i s} (hrest : σ.rest g = f :: fs) (hi : i ∈ l)
      (h : Next u (f i) (σ.base g) (σ.since g) (g, i) s) : GroupStep u l σ
      ⟨s.apply σ.mem, σ.base, fun g' => σ.since g' ++ [((g, i), s)], σ.rest⟩
  | barrier {σ g f fs} (hrest : σ.rest g = f :: fs)
      (hdone : ∀ i ∈ l, Ended u (f i) (σ.base g) (σ.since g) (g, i)) : GroupStep u l σ
      ⟨σ.mem, Function.update σ.base g σ.mem, Function.update σ.since g [],
        Function.update σ.rest g fs⟩

def Standing.start (gs : List γ) (phases : γ → List (Phase β ι)) (m : Memory β) : Standing β γ ι :=
  ⟨m, fun _ => m, fun _ => [], fun g => if g ∈ gs then phases g else []⟩

def Standing.Finished (σ : Standing β γ ι) : Prop := ∀ g, σ.rest g = []

/-- A run in which every group has come to its end leaves `m'`. -/
def Barriered (u : ℕ → ℕ) (l : List ι) (gs : List γ) (phases : γ → List (Phase β ι))
    (m m' : Memory β) : Prop :=
  ∃ σ, Relation.ReflTransGen (GroupStep u l) (.start gs phases m) σ ∧ σ.Finished ∧ σ.mem = m'

/-- The phases of one group one after the other, and in each of them its threads. -/
def runPhases (u : ℕ → ℕ) (l : List ι) (fs : List (Phase β ι)) (m : Memory β) : Memory β :=
  fs.foldl (fun m f => (each l f).exec u m) m

/-- A byte of an element of the group. -/
def OwnByte (out : β → Bool) (own : β → ℕ → ℕ → Prop) (b : β) (k : ℕ) : Prop :=
  out b = true ∧ ∃ w n, own b w n ∧ w * n ≤ k ∧ k < w * n + w

/-- The memories have the same contents in the buffers that are only read. -/
def Agrees (out : β → Bool) (m m' : Memory β) : Prop := ∀ b, out b = false → m' b = m b

/-- The groups keep to different elements, and their threads do not race from one barrier to the
next, whatever is in the buffers that are stored to. -/
structure Separate (u : ℕ → ℕ) (l : List ι) (gs : List γ) (phases : γ → List (Phase β ι))
    (out : β → Bool) (own : γ → β → ℕ → ℕ → Prop) (m : Memory β) : Prop where
  nodup : l.Nodup
  apart : ∀ g ∈ gs, ∀ g' ∈ gs, g ≠ g' → ∀ b w n w' n', out b = true → own g b w n →
    own g' b w' n' → w = w' ∧ n ≠ n'
  keeps : ∀ g ∈ gs, ∀ f ∈ phases g, ∀ i ∈ l, ∀ view, Agrees out m view →
    Keeps (fun _ => false) out (own g) u view (f i)
  free : ∀ g ∈ gs, ∀ f ∈ phases g, ∀ view, Agrees out m view → RaceFree u l f view

/-! ### What a group can see -/

section Visible
variable {u : ℕ → ℕ} {out : β → Bool} {own : β → ℕ → ℕ → Prop} {m view : Memory β}
  {x : Kernel β Unit}

omit [DecidableEq β] in
theorem Keeps.ownByte (h : Keeps (fun _ => false) out own u m x) {s : Store β}
    (hs : s ∈ x.stores u m) {k : ℕ} (hlo : s.width * s.idx ≤ k)
    (hhi : k < s.width * s.idx + s.width) : OwnByte out own s.buf k := by
  obtain ⟨hout, hown⟩ : out s.buf = true ∧ own s.buf s.width s.idx := by
    simpa using h.stored s hs
  exact ⟨hout, _, _, hown, hlo, hhi⟩

omit [DecidableEq β] in
theorem OwnByte.apart {own' : β → ℕ → ℕ → Prop} (hapart : ∀ b w n w' n', out b = true →
    own b w n → own' b w' n' → w = w' ∧ n ≠ n') {b : β} {k : ℕ} (h : OwnByte out own b k) :
    ¬OwnByte out own' b k := by
  rintro ⟨-, w', n', hown', hlo', hhi'⟩
  obtain ⟨hout, w, n, hown, hlo, hhi⟩ := h
  obtain ⟨rfl, hn⟩ := hapart b w n w' n' hout hown hown'
  have hclear := elements_clear w hn
  simp only [Nat.mul_succ] at hclear
  omega

section Each
variable {l : List ι} {f : ι → Kernel β Unit} {own : ι → β → ℕ → ℕ → Prop} {b : β} {k : ℕ}

omit [DecidableEq ι] in
/-- Kernels leave the bytes that are none of theirs. -/
theorem byte_others (h : ∀ i ∈ l, Keeps (fun _ => false) out (own i) u m (f i) ∧
    ¬OwnByte out (own i) b k) (m' : Memory β) :
    applyAll (l.flatMap fun i => (f i).stores u m) m' b k = m' b k := by
  refine byte_applyAll_other (fun s hs hb => ?_) m'
  obtain ⟨i, hi, hs⟩ := List.mem_flatMap.mp hs
  obtain ⟨hkeeps, hother⟩ := h i hi
  by_contra hin
  exact hother (hb ▸ hkeeps.ownByte hs (by omega) (by omega))

omit [DecidableEq ι] in
/-- Of kernels that keep to different elements, only one has a say in a byte of its own. -/
theorem exec_each_own (hl : l.Nodup)
    (hkeeps : ∀ i ∈ l, Keeps (fun _ => false) out (own i) u m (f i))
    (hapart : ∀ i ∈ l, ∀ j ∈ l, i ≠ j → ∀ b w n w' n', out b = true → own i b w n →
      own j b w' n' → w = w' ∧ n ≠ n') {i : ι} (hi : i ∈ l) (hk : OwnByte out (own i) b k) :
    (each l f).exec u m b k = (f i).exec u m b k := by
  obtain ⟨before, after, rfl⟩ := List.append_of_mem hi
  obtain ⟨hnot, -⟩ := List.nodup_cons.mp (List.nodup_middle.mp hl)
  have hother : ∀ j ∈ before ++ after, Keeps (fun _ => false) out (own j) u m (f j) ∧
      ¬OwnByte out (own j) b k := fun j hj => by
    have hmem : j ∈ before ++ i :: after := by
      rw [List.mem_append, List.mem_cons]
      exact (List.mem_append.mp hj).imp_right .inr
    exact ⟨hkeeps j hmem, hk.apart (hapart i hi j hmem fun heq => hnot (heq ▸ hj))⟩
  rw [exec, stores_each, List.flatMap_append, List.flatMap_cons, applyAll_append, applyAll_append,
    byte_others fun j hj => hother j (List.mem_append_right before hj)]
  exact byte_applyAll_congr (byte_others (fun j hj => hother j (List.mem_append_left after hj)) m) _

end Each

omit [DecidableEq β] in
/-- What a kernel stores depends on its own bytes and the buffers that are only read. -/
theorem Keeps.stores_eq (h : Keeps (fun _ => false) out own u m x) (hagree : Agrees out m view)
    (hown : ∀ b k, OwnByte out own b k → view b k = m b k) :
    x.stores u view = x.stores u m := by
  refine (h.same view fun a ha => ?_).2.2
  have hread : out a.buf = true → own a.buf a.width a.idx := by simpa using h.read a ha
  simp only [Sees, Bool.false_eq_true, if_false]
  refine bytesValue_congr fun k hk => ?_
  by_cases hout : out a.buf = true
  · exact hown _ _ ⟨hout, _, _, hread hout, Nat.le_add_right _ _, Nat.add_lt_add_left hk _⟩
  · exact congrFun (hagree _ (Bool.eq_false_iff.mpr hout)) _

omit [DecidableEq ι] in
theorem agrees_runPhases {l : List ι} {fs : List (Phase β ι)} (hm : Agrees out m view)
    (h : ∀ f ∈ fs, ∀ i ∈ l, ∀ view, Agrees out m view →
      Keeps (fun _ => false) out own u view (f i)) : Agrees out m (runPhases u l fs view) := by
  induction fs generalizing view with
  | nil => exact hm
  | cons f fs ih =>
    refine ih (fun b hb => ?_) fun f' hf' => h f' (List.mem_cons_of_mem f hf')
    have hframe : (each l f).exec u view b = view b := applyAll_frame (fun s hs hbuf => ?_) view
    · exact hframe.trans (hm b hb)
    · obtain ⟨i, hi, hs⟩ := List.mem_flatMap.mp hs
      obtain ⟨hout, -⟩ : out s.buf = true ∧ own s.buf s.width s.idx := by
        simpa using (h f List.mem_cons_self i hi view hm).stored s hs
      rw [hbuf, hb] at hout
      exact absurd hout (by decide)

end Visible

/-! ### Each group as if by itself -/

section Groups
variable {u : ℕ → ℕ} {l : List ι} {gs : List γ} {phases : γ → List (Phase β ι)}
  {out : β → Bool} {own : γ → β → ℕ → ℕ → Prop} {m : Memory β} {σ σ' : Standing β γ ι}

/-- The phase a group is in. -/
def current : List (Phase β ι) → Phase β ι
  | [] => fun _ => pure ()
  | f :: _ => f

/-- The stores of the threads of one group among the stores of all. -/
def ofGroup (log : List ((γ × ι) × Store β)) (g : γ) : List (ι × Store β) :=
  (log.filter fun e => e.1.1 = g).map fun e => (e.1.2, e.2)

section OfGroup
variable {log : List ((γ × ι) × Store β)} {g g' : γ} {i : ι}

omit [DecidableEq β] in
theorem ofUnit_ofGroup : ofUnit (ofGroup log g) i = ofUnit log (g, i) := by
  simp [ofUnit, ofGroup, List.filter_map, Function.comp_def, Prod.ext_iff, Bool.and_comm]

omit [DecidableEq β] [DecidableEq ι] in
theorem ofGroup_append_self (s : Store β) :
    ofGroup (log ++ [((g, i), s)]) g = ofGroup log g ++ [(i, s)] := by
  simp [ofGroup]

omit [DecidableEq β] [DecidableEq ι] in
theorem ofGroup_append_other (hne : g' ≠ g) (s : Store β) :
    ofGroup (log ++ [((g, i), s)]) g' = ofGroup log g' := by
  simp [ofGroup, hne.symm]

omit [DecidableEq β] [DecidableEq ι] in
theorem map_snd_ofGroup :
    (ofGroup log g).map Prod.snd = (log.filter fun e => e.1.1 = g).map Prod.snd := by
  simp [ofGroup]

end OfGroup

/-- How far a group is by itself: what it reads of its own bytes is what the phases before have left,
and its threads are under way in the phase it is in. -/
structure Shadow (u : ℕ → ℕ) (l : List ι) (phases : List (Phase β ι)) (own : β → ℕ → Prop)
    (m base : Memory β) (log : List (ι × Store β)) (rest done : List (Phase β ι)) : Prop where
  split : phases = done ++ rest
  base : ∀ b k, own b k → base b k = runPhases u l done m b k
  progress : Progress u l (current rest) (runPhases u l done m) log

theorem Shadow.mem_phases {all fs rest done : List (Phase β ι)} {f : Phase β ι} {own : β → ℕ → Prop}
    {base : Memory β} {log : List (ι × Store β)} (h : Shadow u l all own m base log rest done)
    (hrest : rest = f :: fs) : f ∈ all := by
  rw [h.split, hrest]
  exact List.mem_append_right done List.mem_cons_self

structure GroupInv (u : ℕ → ℕ) (l : List ι) (gs : List γ) (phases : γ → List (Phase β ι))
    (out : β → Bool) (own : γ → β → ℕ → ℕ → Prop) (m : Memory β) (σ : Standing β γ ι) : Prop where
  shadow : ∀ g ∈ gs, ∃ done, Shadow u l (phases g) (OwnByte out (own g)) m (σ.base g)
    (ofGroup (σ.since g) g) (σ.rest g) done
  idle : ∀ g ∉ gs, σ.rest g = []
  other : ∀ b k, (∀ g ∈ gs, ¬OwnByte out (own g) b k) →
    σ.mem b k = m b k ∧ ∀ g, σ.base g b k = m b k
  stored : ∀ g, ∀ e ∈ σ.since g, e.1.1 ∈ gs ∧ ∀ b k, e.2.Covers b k → OwnByte out (own e.1.1) b k
  mem : ∀ g, σ.mem = applyAll ((σ.since g).map Prod.snd) (σ.base g)

theorem groupInv_start : GroupInv u l gs phases out own m (.start gs phases m) where
  shadow g hg := ⟨[], by simp [Standing.start, hg], fun _ _ _ => rfl, nofun,
    fun _ => List.nil_prefix⟩
  idle g hg := if_neg hg
  other b k _ := ⟨rfl, fun _ => rfl⟩
  stored g := nofun
  mem g := rfl

omit [DecidableEq γ] [DecidableEq ι] in
theorem Separate.ownByte_apart (hsep : Separate u l gs phases out own m) {g g' : γ} (hg : g ∈ gs)
    (hg' : g' ∈ gs) (hne : g ≠ g') {b : β} {k : ℕ} (h : OwnByte out (own g) b k) :
    ¬OwnByte out (own g') b k :=
  h.apart (hsep.apart g hg g' hg' hne)

omit [DecidableEq γ] [DecidableEq ι] in
theorem Separate.agrees (hsep : Separate u l gs phases out own m) {g : γ} (hg : g ∈ gs)
    {done rest : List (Phase β ι)} (hsplit : phases g = done ++ rest) :
    Agrees out m (runPhases u l done m) :=
  agrees_runPhases (fun _ _ => rfl) fun f hf i hi view hview =>
    hsep.keeps g hg f (hsplit ▸ List.mem_append_left rest hf) i hi view hview

section Step
variable {g : γ} {f : Phase β ι} {fs done : List (Phase β ι)} {i : ι} {view : Memory β}

theorem GroupInv.mem_groups (h : GroupInv u l gs phases out own m σ) (hrest : σ.rest g = f :: fs) :
    g ∈ gs :=
  by_contra fun hg => List.cons_ne_nil f fs (hrest.symm.trans (h.idle g hg))

/-- Threads see the buffers that are only read as they were at the start. -/
theorem GroupInv.agrees (h : GroupInv u l gs phases out own m σ)
    (hview : Visible (σ.base g) (σ.since g) (g, i) view) : Agrees out m view := by
  intro b hb
  funext k
  have hnone : ∀ g', ¬OwnByte out (own g') b k := fun g' hown =>
    absurd hown.1 (by rw [hb]; decide)
  obtain ⟨past, hpast, -, heq⟩ := hview b k
  have hkept := byte_applyAll_filter (p := fun _ => false) (fun e he _ hcovers =>
    hnone _ ((h.stored g e (hpast.subset he)).2 b k hcovers)) (σ.base g)
  rw [heq, hkept, List.filter_false, ← (h.other b k fun g' _ => hnone g').2 g]
  rfl

/-- A byte of a group is as the group by itself has it after its share of the stores. -/
theorem GroupInv.byte (hsep : Separate u l gs phases out own m)
    (h : GroupInv u l gs phases out own m σ) (hg : g ∈ gs)
    (hτ : Shadow u l (phases g) (OwnByte out (own g)) m (σ.base g) (ofGroup (σ.since g) g) (σ.rest g)
      done) {past : List ((γ × ι) × Store β)} (hpast : past <+: σ.since g) {b : β} {k : ℕ}
    (hown : OwnByte out (own g) b k) : applyAll (past.map Prod.snd) (σ.base g) b k =
      applyAll ((ofGroup past g).map Prod.snd) (runPhases u l done m) b k := by
  have hothers : ∀ e ∈ past, decide (e.1.1 = g) = false → ¬e.2.Covers b k := fun e he hne hcovers => by
    obtain ⟨hmem, hcovered⟩ := h.stored g e (hpast.subset he)
    exact hsep.ownByte_apart hg hmem (fun heq => of_decide_eq_false hne heq.symm) hown
      (hcovered b k hcovers)
  rw [byte_applyAll_filter hothers, map_snd_ofGroup]
  exact byte_applyAll_congr (hτ.base b k hown) _

/-- The group by itself can see what a thread sees in the whole run. -/
theorem GroupInv.visible (hsep : Separate u l gs phases out own m)
    (h : GroupInv u l gs phases out own m σ) (hg : g ∈ gs)
    (hτ : Shadow u l (phases g) (OwnByte out (own g)) m (σ.base g) (ofGroup (σ.since g) g) (σ.rest g)
      done) (hview : Visible (σ.base g) (σ.since g) (g, i) view) :
    ∃ view', Visible (runPhases u l done m) (ofGroup (σ.since g) g) i view' ∧
      (∀ b, out b = false → view' b = runPhases u l done m b) ∧
      ∀ b k, OwnByte out (own g) b k → view' b k = view b k := by
  classical
  -- The bytes of the group as they are read, and the rest as it was before the phase.
  refine ⟨fun b k => if OwnByte out (own g) b k then view b k else runPhases u l done m b k,
    fun b k => ?_, fun b hb => funext fun k => if_neg fun hown => absurd hown.1 (by rw [hb]; decide),
    fun b k hown => if_pos hown⟩
  by_cases hown : OwnByte out (own g) b k
  · obtain ⟨past, hpast, hself, heq⟩ := hview b k
    refine ⟨ofGroup past g, (hpast.filter _).map _, fun e he hi => ?_,
      (if_pos hown).trans (heq.trans (h.byte hsep hg hτ hpast hown))⟩
    obtain ⟨e, hin, rfl⟩ := List.mem_map.mp he
    obtain ⟨hmem, htag⟩ := List.mem_filter.mp hin
    exact hself e hmem (Prod.ext (of_decide_eq_true htag) hi)
  · exact ⟨[], List.nil_prefix, nofun, if_neg hown⟩

/-- Whatever a thread sees, it stores what it stores on the memory that its phase began with. -/
theorem GroupInv.stores_eq (hsep : Separate u l gs phases out own m)
    (h : GroupInv u l gs phases out own m σ)
    (hτ : Shadow u l (phases g) (OwnByte out (own g)) m (σ.base g) (ofGroup (σ.since g) g) (σ.rest g)
      done) (hrest : σ.rest g = f :: fs) (hi : i ∈ l)
    (hview : Visible (σ.base g) (σ.since g) (g, i) view) :
    (f i).stores u view = (f i).stores u (runPhases u l done m) := by
  have hg := h.mem_groups hrest
  have hf := hτ.mem_phases hrest
  have hprogress := hτ.progress
  rw [hrest] at hprogress
  have hbefore := hsep.agrees hg hτ.split
  have hagree := h.agrees hview
  obtain ⟨view', hvisible, hkept, hown⟩ := h.visible hsep hg hτ hview
  calc (f i).stores u view = (f i).stores u view' :=
        ((hsep.keeps g hg f hf i hi view hagree).stores_eq
          (fun b hb => by rw [hkept b hb, hbefore b hb, hagree b hb]) hown).symm
    _ = (f i).stores u (runPhases u l done m) :=
        (hsep.free g hg f hf _ hbefore).stores_eq hprogress hi hvisible

theorem GroupInv.store (hsep : Separate u l gs phases out own m)
    (h : GroupInv u l gs phases out own m σ) {s : Store β} (hrest : σ.rest g = f :: fs) (hi : i ∈ l)
    (hnext : Next u (f i) (σ.base g) (σ.since g) (g, i) s) : GroupInv u l gs phases out own m
      ⟨s.apply σ.mem, σ.base, fun g' => σ.since g' ++ [((g, i), s)], σ.rest⟩ := by
  obtain ⟨view, ws, hview, heq⟩ := hnext
  have hg := h.mem_groups hrest
  have howned : ∀ b k, s.Covers b k → OwnByte out (own g) b k := by
    obtain ⟨done, hτ⟩ := h.shadow g hg
    rintro b k ⟨rfl, hlo, hhi⟩
    exact (hsep.keeps g hg f (hτ.mem_phases hrest) i hi view (h.agrees hview)).ownByte
      (heq ▸ List.mem_append_right _ List.mem_cons_self) hlo hhi
  refine ⟨fun g' hg' => ?_, h.idle, fun b k hb => ⟨?_, (h.other b k hb).2⟩, fun g' e he => ?_,
    fun g' => ?_⟩
  · obtain ⟨done, hτ⟩ := h.shadow g' hg'
    by_cases hne : g' = g
    · -- The group by itself makes the same store.
      subst hne
      refine ⟨done, hτ.split, hτ.base, ?_⟩
      have hstores := h.stores_eq hsep hτ hrest hi hview
      rw [heq, ← ofUnit_ofGroup] at hstores
      have hprogress := hτ.progress
      simp only [ofGroup_append_self, hrest, current] at hprogress ⊢
      exact hprogress.store hi hstores.symm
    · refine ⟨done, ?_⟩
      simp only [ofGroup_append_other hne]
      exact hτ
  · exact (if_neg fun hcovers => hb g hg (howned b k hcovers)).trans (h.other b k hb).1
  · rcases List.mem_append.mp he with he | he
    · exact h.stored g' e he
    · rw [List.mem_singleton.mp he]
      exact ⟨hg, howned⟩
  · rw [List.map_append, applyAll_append, ← h.mem g']
    rfl

theorem GroupInv.barrier (hsep : Separate u l gs phases out own m)
    (h : GroupInv u l gs phases out own m σ) (hrest : σ.rest g = f :: fs)
    (hdone : ∀ i ∈ l, Ended u (f i) (σ.base g) (σ.since g) (g, i)) :
    GroupInv u l gs phases out own m ⟨σ.mem, Function.update σ.base g σ.mem,
      Function.update σ.since g [], Function.update σ.rest g fs⟩ := by
  have hg := h.mem_groups hrest
  refine ⟨fun g' hg' => ?_, fun g' hg' => ?_, fun b k hb => ⟨(h.other b k hb).1, fun g' => ?_⟩,
    fun g' => ?_, fun g' => ?_⟩
  · obtain ⟨done, hτ⟩ := h.shadow g' hg'
    by_cases hne : g' = g
    · -- The threads of the group have come to the end of the phase without a race.
      subst hne
      have hsplit := hτ.split
      have hprogress := hτ.progress
      rw [hrest] at hsplit hprogress
      have hfree := hsep.free g' hg f (hτ.mem_phases hrest) _ (hsep.agrees hg hτ.split)
      have hmade : ∀ i ∈ l, ofUnit (ofGroup (σ.since g') g') i =
          (f i).stores u (runPhases u l done m) := fun i hi => by
        obtain ⟨view, hview, heq⟩ := hdone i hi
        rw [ofUnit_ofGroup, ← heq, h.stores_eq hsep hτ hrest hi hview]
      have hend : (each l f).exec u (runPhases u l done m) = runPhases u l (done ++ [f]) m := by
        rw [runPhases, runPhases, List.foldl_append]
        rfl
      refine ⟨done ++ [f], ?_, fun b k hown => ?_, ?_⟩
      · simp only [hsplit, Function.update_self, List.append_assoc, List.singleton_append]
      · simp only [Function.update_self]
        rw [h.mem g', h.byte hsep hg hτ List.prefix_rfl hown, hfree.merged hprogress hmade, hend]
      · simp only [Function.update_self]
        exact ⟨nofun, fun _ => List.nil_prefix⟩
    · refine ⟨done, ?_⟩
      simp only [Function.update_of_ne hne]
      exact hτ
  · have hne : g' ≠ g := fun heq => hg' (heq ▸ hg)
    simp only [Function.update_of_ne hne]
    exact h.idle g' hg'
  · by_cases hne : g' = g
    · simp only [hne, Function.update_self]
      exact (h.other b k hb).1
    · simp only [Function.update_of_ne hne]
      exact (h.other b k hb).2 g'
  · by_cases hne : g' = g
    · simp only [hne, Function.update_self]
      exact nofun
    · simp only [Function.update_of_ne hne]
      exact h.stored g'
  · by_cases hne : g' = g
    · simp only [hne, Function.update_self]
      rfl
    · simp only [Function.update_of_ne hne]
      exact h.mem g'

theorem groupInv_reachable (hsep : Separate u l gs phases out own m)
    (hrun : Relation.ReflTransGen (GroupStep u l) (.start gs phases m) σ) :
    GroupInv u l gs phases out own m σ := by
  induction hrun with
  | refl => exact groupInv_start
  | tail _ hstep ih =>
    cases hstep with
    | store hrest hi hnext => exact ih.store hsep hrest hi hnext
    | barrier hrest hdone => exact ih.barrier hsep hrest hdone

/-- A group that has come to its end has left what it leaves by itself. -/
theorem GroupInv.ended (hsep : Separate u l gs phases out own m)
    (h : GroupInv u l gs phases out own m σ) (hg : g ∈ gs) (hrest : σ.rest g = []) {b : β} {k : ℕ}
    (hown : OwnByte out (own g) b k) : σ.mem b k = runPhases u l (phases g) m b k := by
  obtain ⟨done, hτ⟩ := h.shadow g hg
  have hsplit := hτ.split
  have hprogress := hτ.progress
  rw [hrest] at hsplit hprogress
  have hnil : ofGroup (σ.since g) g = [] := List.eq_nil_iff_forall_not_mem.mpr fun e he =>
    absurd (hprogress.mem_stores he) List.not_mem_nil
  rw [h.mem g, h.byte hsep hg hτ List.prefix_rfl hown, hnil, hsplit, List.append_nil]
  rfl

/-- A group that is not at its end can pass its barrier, or one of its threads can go on. -/
theorem GroupInv.goes_on (hsep : Separate u l gs phases out own m)
    (h : GroupInv u l gs phases out own m σ) (hopen : ¬σ.Finished) :
    ∃ σ', GroupStep u l σ σ' := by
  obtain ⟨g, hg⟩ := not_forall.mp hopen
  obtain ⟨f, fs, hrest⟩ := List.exists_cons_of_ne_nil hg
  by_cases hdone : ∀ i ∈ l, Ended u (f i) (σ.base g) (σ.since g) (g, i)
  · exact ⟨_, .barrier hrest hdone⟩
  · push Not at hdone
    obtain ⟨i, hi, hleft⟩ := hdone
    obtain ⟨done, hτ⟩ := h.shadow g (h.mem_groups hrest)
    have hview := visible_start (σ.base g) (σ.since g) (g, i)
    -- What the thread has stored is the beginning of what it stores.
    have hmade := hτ.progress.made i
    rw [hrest, current, ← h.stores_eq hsep hτ hrest hi hview, ofUnit_ofGroup] at hmade
    obtain ⟨ws, heq⟩ := hmade
    cases ws with
    | nil => exact absurd ⟨_, hview, by rw [← heq, List.append_nil]⟩ hleft
    | cons s ws => exact ⟨_, .store hrest hi ⟨_, ws, hview, heq.symm⟩⟩

end Step

/-! ### Runs that end -/

/-- Every group is at a barrier. -/
def Standing.Ready (σ : Standing β γ ι) : Prop := ∀ g, ofGroup (σ.since g) g = []

/-- A group can go through the phases it has left. -/
theorem exists_group_run (hl : l.Nodup) (hσ : σ.Ready) {g : γ} {fs : List (Phase β ι)}
    (hrest : σ.rest g = fs) : ∃ σ', Relation.ReflTransGen (GroupStep u l) σ σ' ∧
      σ'.rest = Function.update σ.rest g [] ∧ σ'.Ready := by
  induction fs generalizing σ with
  | nil => exact ⟨σ, .refl, by rw [← hrest, Function.update_eq_self], hσ⟩
  | cons f fs ih =>
    -- While its threads store, the group stays in its phase and the other groups at their barriers.
    have hstep : ∀ τ : Standing β γ ι, (τ.rest = σ.rest ∧ τ.base = σ.base ∧
          ∀ g' ≠ g, ofGroup (τ.since g') g' = []) →
        ∀ i ∈ l, ∀ s ws, (f i).stores u (σ.base g) = ofUnit (ofGroup (τ.since g) g) i ++ s :: ws →
        ∃ τ', GroupStep u l τ τ' ∧ (τ'.rest = σ.rest ∧ τ'.base = σ.base ∧
          ∀ g' ≠ g, ofGroup (τ'.since g') g' = []) ∧
          ofGroup (τ'.since g) g = ofGroup (τ.since g) g ++ [(i, s)] := by
      rintro τ ⟨hrest', hbase, hothers⟩ i hi s ws heq
      have hnext : Next u (f i) (τ.base g) (τ.since g) (g, i) s :=
        ⟨σ.base g, ws, hbase ▸ visible_start _ _ _, by rw [heq, ofUnit_ofGroup]⟩
      exact ⟨_, .store ((congrFun hrest' g).trans hrest) hi hnext, ⟨hrest', hbase, fun g' hne =>
        (ofGroup_append_other hne s).trans (hothers g' hne)⟩, ofGroup_append_self s⟩
    obtain ⟨σ₁, hrun, ⟨hrest₁, hbase₁, hothers₁⟩, hdone⟩ := exists_steps hl hstep
      ⟨rfl, rfl, fun g' _ => hσ g'⟩ fun i _ => by rw [hσ g]; rfl
    have hbarrier : GroupStep u l σ₁ _ := .barrier ((congrFun hrest₁ g).trans hrest) fun i hi =>
      ⟨σ.base g, hbase₁ ▸ visible_start _ _ _, by rw [← hdone i hi, ofUnit_ofGroup]⟩
    obtain ⟨σ', hrun', hrest', hready⟩ := @ih ⟨σ₁.mem, Function.update σ₁.base g σ₁.mem,
        Function.update σ₁.since g [], Function.update σ₁.rest g fs⟩
      (fun g' => by
        by_cases hne : g' = g
        · simp only [hne, Function.update_self]
          rfl
        · simp only [Function.update_of_ne hne]
          exact hothers₁ g' hne) (Function.update_self ..)
    refine ⟨σ', (hrun.tail hbarrier).trans hrun', hrest'.trans ?_, hready⟩
    simp only [hrest₁, Function.update_idem]

theorem exists_finished (hl : l.Nodup) (todo : List γ) (hσ : σ.Ready)
    (hrest : ∀ g ∉ todo, σ.rest g = []) :
    ∃ σ', Relation.ReflTransGen (GroupStep u l) σ σ' ∧ σ'.Finished := by
  induction todo generalizing σ with
  | nil => exact ⟨σ, .refl, fun g => hrest g List.not_mem_nil⟩
  | cons g todo ih =>
    obtain ⟨σ₁, hrun, hrest₁, hready⟩ := exists_group_run (u := u) hl hσ (g := g) rfl
    obtain ⟨σ', hrun', hdone⟩ := ih hready fun g' hg' => by
      by_cases hne : g' = g
      · rw [hrest₁, hne, Function.update_self]
      · rw [hrest₁, Function.update_of_ne hne]
        exact hrest g' fun hmem => (List.mem_cons.mp hmem).elim hne hg'
    exact ⟨σ', hrun.trans hrun', hdone⟩

/-- The groups can run to their ends. In each run some step can be made until they have, and then
each byte is what its group leaves by itself, or what it was. -/
theorem Separate.runs (hsep : Separate u l gs phases out own m) :
    (∃ m', Barriered u l gs phases m m') ∧
    (∀ σ, Relation.ReflTransGen (GroupStep u l) (.start gs phases m) σ → ¬σ.Finished →
      ∃ σ', GroupStep u l σ σ') ∧
    ∀ m', Barriered u l gs phases m m' →
      (∀ g ∈ gs, ∀ b k, OwnByte out (own g) b k → m' b k = runPhases u l (phases g) m b k) ∧
      ∀ b k, (∀ g ∈ gs, ¬OwnByte out (own g) b k) → m' b k = m b k := by
  refine ⟨?_, fun σ hrun hopen => (groupInv_reachable hsep hrun).goes_on hsep hopen, ?_⟩
  · obtain ⟨σ, hrun, hdone⟩ := exists_finished (u := u) hsep.nodup gs
      (show Standing.Ready (.start gs phases m) from fun _ => rfl) fun g hg => if_neg hg
    exact ⟨σ.mem, σ, hrun, hdone, rfl⟩
  · rintro m' ⟨σ, hrun, hdone, rfl⟩
    have hinv := groupInv_reachable hsep hrun
    exact ⟨fun g hg b k hown => hinv.ended hsep hg (hdone g) hown,
      fun b k hb => (hinv.other b k hb).1⟩

end Groups

end Gpu.Kernel
