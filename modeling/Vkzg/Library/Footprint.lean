import Vkzg.Library.Kernel

/-! Footprints of kernels. `Within P u m k` says that the kernel does under the evaluation `u` of
unsigned expressions what it does with exact ones, and that `P` holds of every access it makes.
`Confined P u m k` says only the latter, of the accesses under `u`. There is one rule for each way
a kernel is put together. -/

namespace Gpu.Kernel

variable {β α γ σ ι : Type} {P Q : Access β → Prop} {u : ℕ → ℕ} {m : Memory β}

structure Within (P : Access β → Prop) (u : ℕ → ℕ) (m : Memory β) (k : Kernel β α) : Prop where
  val : k.val u m = k.val id m
  reads : k.reads u m = k.reads id m
  stores : k.stores u m = k.stores id m
  read : ∀ a ∈ k.reads id m, P a
  stored : ∀ s ∈ k.stores id m, P s.toAccess

theorem Within.exec [DecidableEq β] {k : Kernel β Unit} (h : Within P u m k) :
    k.exec u m = k.exec id m := by
  rw [Kernel.exec, h.stores, Kernel.exec]

theorem Within.mono {k : Kernel β α} (h : Within P u m k) (hPQ : ∀ a, P a → Q a) :
    Within Q u m k :=
  ⟨h.val, h.reads, h.stores, fun a ha => hPQ a (h.read a ha), fun s hs => hPQ _ (h.stored s hs)⟩

theorem within_pure (a : α) : Within P u m (pure a) :=
  ⟨rfl, rfl, rfl, fun _ h => absurd h List.not_mem_nil, fun _ h => absurd h List.not_mem_nil⟩

theorem within_bind {x : Kernel β α} {f : α → Kernel β γ} (hx : Within P u m x)
    (hf : Within P u m (f (x.val id m))) : Within P u m (x >>= f) where
  val := by rw [val_bind, val_bind, hx.val, hf.val]
  reads := by rw [reads_bind, reads_bind, hx.val, hx.reads, hf.reads]
  stores := by rw [stores_bind, stores_bind, hx.val, hx.stores, hf.stores]
  read a ha := (List.mem_append.mp ha).elim (hx.read a) (hf.read a)
  stored s hs := (List.mem_append.mp hs).elim (hx.stored s) (hf.stored s)

theorem within_map {x : Kernel β α} (f : α → γ) (hx : Within P u m x) : Within P u m (f <$> x) :=
  within_bind hx (within_pure _)

theorem within_uint {n : ℕ} (hu : u n = n) : Within P u m (uint n) :=
  ⟨hu, rfl, rfl, fun _ h => absurd h List.not_mem_nil, fun _ h => absurd h List.not_mem_nil⟩

section Accesses
variable {w n : ℕ} {b : β} {off : ℕ}

theorem within_load {i : ℕ} (hu : u i = i) (hP : P ⟨b, w, i, none⟩) :
    Within P u m (load w b i) where
  val := congrArg (m.elem w b) hu
  reads := congrArg (fun j => [(⟨b, w, j, none⟩ : Access β)]) hu
  stores := rfl
  read _ ha := List.mem_singleton.mp ha ▸ hP
  stored _ h := absurd h List.not_mem_nil

theorem within_store {i v : ℕ} (hu : u i = i) (hP : P ⟨b, w, i, none⟩) :
    Within P u m (store w b i v) where
  val := rfl
  reads := rfl
  stores := by rw [stores_store, stores_store, hu, id]
  read _ h := absurd h List.not_mem_nil
  stored _ hs := List.mem_singleton.mp hs ▸ hP

theorem run_congr {α : Type} (hu : ∀ k < n, u (off + k) = off + k) (f : ℕ → ℕ → α) :
    (List.range n).map (fun k => f (u (off + k)) k) =
      (List.range n).map fun k => f (id (off + k)) k :=
  List.map_congr_left fun k hk => by rw [hu k (List.mem_range.mp hk), id]

theorem forall_mem_run {α : Type} {R : α → Prop} {f : ℕ → α} (h : ∀ k < n, R (f k)) :
    ∀ a ∈ (List.range n).map f, R a := by
  intro a ha
  obtain ⟨k, hk, rfl⟩ := List.mem_map.mp ha
  exact h k (List.mem_range.mp hk)

/-- A run of words, of which only the words read matter. -/
theorem within_loadWords {g : (ℕ → ℕ) → α} (hg : ∀ f f', (∀ k < n, f k = f' k) → g f = g f')
    (hu : ∀ k < n, u (off + k) = off + k) (hP : ∀ k < n, P ⟨b, w, off + k, none⟩) :
    Within P u m (g <$> loadWords w n b off) where
  val := hg _ _ fun k hk => congrArg (m.elem w b) (hu k hk)
  reads := congrArg (· ++ []) (run_congr hu fun i _ => (⟨b, w, i, none⟩ : Access β))
  stores := rfl
  read a ha := forall_mem_run hP a ((List.mem_append.mp ha).resolve_right List.not_mem_nil)
  stored _ h := absurd h List.not_mem_nil

theorem within_storeWords {f : ℕ → ℕ} (hu : ∀ k < n, u (off + k) = off + k)
    (hP : ∀ k < n, P ⟨b, w, off + k, none⟩) : Within P u m (storeWords w n b off f) where
  val := rfl
  reads := rfl
  stores := run_congr hu fun i k => (⟨⟨b, w, i, none⟩, f k⟩ : Store β)
  read _ h := absurd h List.not_mem_nil
  stored := forall_mem_run hP

theorem within_reload {v : α} (hu : ∀ k < n, u (off + k) = off + k)
    (hP : ∀ k < n, P ⟨b, w, off + k, none⟩) : Within P u m (reload w n b off v) where
  val := rfl
  reads := run_congr hu fun i _ => (⟨b, w, i, none⟩ : Access β)
  stores := rfl
  read := forall_mem_run hP
  stored _ h := absurd h List.not_mem_nil

end Accesses

theorem within_each {l : List ι} {f : ι → Kernel β Unit} (h : ∀ i ∈ l, Within P u m (f i)) :
    Within P u m (each l f) where
  val := rfl
  reads := List.flatMap_congr fun i hi => (h i hi).reads
  stores := List.flatMap_congr fun i hi => (h i hi).stores
  read a ha := by
    obtain ⟨i, hi, ha⟩ := List.mem_flatMap.mp ha
    exact (h i hi).read a ha
  stored s hs := by
    obtain ⟨i, hi, hs⟩ := List.mem_flatMap.mp hs
    exact (h i hi).stored s hs

theorem within_gather {l : List ι} {f : ι → Kernel β α} (h : ∀ i ∈ l, Within P u m (f i)) :
    Within P u m (gather l f) where
  val := List.map_congr_left fun i hi => (h i hi).val
  reads := List.flatMap_congr fun i hi => (h i hi).reads
  stores := List.flatMap_congr fun i hi => (h i hi).stores
  read a ha := by
    obtain ⟨i, hi, ha⟩ := List.mem_flatMap.mp ha
    exact (h i hi).read a ha
  stored s hs := by
    obtain ⟨i, hi, hs⟩ := List.mem_flatMap.mp hs
    exact (h i hi).stored s hs

theorem within_owned {o : ℕ} {k : Kernel β α} (h : Within (fun a => P (a.own o)) u m k) :
    Within P u m (owned o k) where
  val := h.val
  reads := congrArg (List.map _) h.reads
  stores := congrArg (List.map _) h.stores
  read a ha := by
    obtain ⟨a, hin, rfl⟩ := List.mem_map.mp ha
    exact h.read a hin
  stored s hs := by
    obtain ⟨s, hin, rfl⟩ := List.mem_map.mp hs
    exact h.stored s hin

theorem within_foldlM {f : σ → ι → Kernel β σ} {l : List ι}
    (h : ∀ s, ∀ i ∈ l, Within P u m (f s i)) (s : σ) : Within P u m (l.foldlM f s) := by
  induction l generalizing s with
  | nil => exact within_pure s
  | cons i l ih =>
    rw [List.foldlM_cons]
    exact within_bind (h s i List.mem_cons_self)
      (ih (fun s j hj => h s j (List.mem_cons_of_mem i hj)) _)

theorem within_dispatch {main : ℕ → ℕ → Kernel β Unit} {gx gy : ℕ}
    (h : ∀ y < gy, ∀ x < gx, Within (fun a => P (a.own y)) u m (main x y)) :
    Within P u m (dispatch main gx gy) :=
  within_each fun y hy => within_owned <| within_each fun x hx =>
    h y (List.mem_range.mp hy) x (List.mem_range.mp hx)

/-- Every kernel of a sequence is within `P`, in the memory it finds. -/
def WithinAll [DecidableEq β] (P : Access β → Prop) (u : ℕ → ℕ) :
    List (Kernel β Unit) → Memory β → Prop
  | [], _ => True
  | k :: ks, m => Within P u m k ∧ WithinAll P u ks (k.exec id m)

section Sequence
variable [DecidableEq β] {ks ks' : List (Kernel β Unit)}

theorem WithinAll.runAll (h : WithinAll P u ks m) : runAll ks u m = Kernel.runAll ks id m := by
  induction ks generalizing m with
  | nil => rfl
  | cons k ks ih =>
    rw [runAll_cons, runAll_cons, h.1.exec]
    exact ih h.2

theorem withinAll_append (h : WithinAll P u ks m) (h' : WithinAll P u ks' (Kernel.runAll ks id m)) :
    WithinAll P u (ks ++ ks') m := by
  induction ks generalizing m with
  | nil => exact h'
  | cons k ks ih => exact ⟨h.1, ih h.2 h'⟩

theorem withinAll_of_forall (h : ∀ k ∈ ks, ∀ m, Within P u m k) (m : Memory β) :
    WithinAll P u ks m := by
  induction ks generalizing m with
  | nil => trivial
  | cons k ks ih =>
    exact ⟨h k List.mem_cons_self m, ih (fun k' hk => h k' (List.mem_cons_of_mem k hk)) _⟩

end Sequence

/-! ### Soundness of a dispatch

Every kernel works for one of several items at a time. Its accesses are sound when their indices are
exact, they keep to the buffers, and what is done for one item stays clear of the others. -/

/-- What a kernel reads and what it stores to. -/
def accesses (k : Kernel β α) (u : ℕ → ℕ) (m : Memory β) : List (Access β) :=
  k.reads u m ++ (k.stores u m).map Store.toAccess

theorem mem_reads_foldlM {f : σ → ι → Kernel β σ} {l : List ι} {i : ι} {a : Access β} (hi : i ∈ l)
    (ha : ∀ s, a ∈ (f s i).reads u m) (s : σ) : a ∈ (l.foldlM f s).reads u m := by
  induction l generalizing s with
  | nil => exact absurd hi List.not_mem_nil
  | cons j l ih =>
    rw [List.foldlM_cons, reads_bind]
    rcases List.mem_cons.mp hi with rfl | hi
    · exact List.mem_append_left _ (ha s)
    · exact List.mem_append_right _ (ih hi _)

theorem mem_reads_each {l : List ι} {f : ι → Kernel β Unit} {i : ι} {a : Access β} (hi : i ∈ l)
    (ha : a ∈ (f i).reads u m) : a ∈ (each l f).reads u m := List.mem_flatMap.mpr ⟨i, hi, ha⟩

theorem mem_accesses_dispatch {main : ℕ → ℕ → Kernel β Unit} {gx gy x y : ℕ} (hx : x < gx)
    (hy : y < gy) {a : Access β} (ha : a ∈ (main x y).reads u m) :
    a.own y ∈ accesses (dispatch main gx gy) u m :=
  List.mem_append_left _ (mem_reads_each (List.mem_range.mpr hy)
    (List.mem_map_of_mem (mem_reads_each (List.mem_range.mpr hx) ha)))

/-- No byte belongs to both accesses. -/
def Apart (a a' : Access β) : Prop :=
  a.buf = a'.buf → a.width * (a.idx + 1) ≤ a'.width * a'.idx ∨
    a'.width * (a'.idx + 1) ≤ a.width * a.idx

/-- `size` is in bytes, and `divided` says which buffers are divided among the items. -/
structure Sound (size : β → ℕ) (divided : β → Bool) (items : ℕ) (u : ℕ → ℕ) (m : Memory β)
    (k : Kernel β Unit) : Prop where
  reads : k.reads u m = k.reads id m
  stores : k.stores u m = k.stores id m
  inside : ∀ a ∈ accesses k u m, a.width * (a.idx + 1) ≤ size a.buf
  owned : ∀ a ∈ accesses k u m, ∃ b < items, a.owner = some b
  apart : ∀ a ∈ accesses k u m, ∀ a' ∈ accesses k u m, divided a.buf = true →
    a.owner ≠ a'.owner → Apart a a'

/-- Every kernel of a sequence is sound, in the memory it finds. -/
def SoundAll [DecidableEq β] (size : β → ℕ) (divided : β → Bool) (items : ℕ) (u : ℕ → ℕ) :
    List (Kernel β Unit) → Memory β → Prop
  | [], _ => True
  | k :: ks, m => Sound size divided items u m k ∧ SoundAll size divided items u ks (k.exec u m)

/-- Every access of a sequence of kernels. -/
def accessesAll [DecidableEq β] (u : ℕ → ℕ) : List (Kernel β Unit) → Memory β → List (Access β)
  | [], _ => []
  | k :: ks, m => accesses k u m ++ accessesAll u ks (k.exec u m)

/-- A sound sequence that stays apart over all of its kernels in the buffers whose division is
`fixed`. The others are divided anew by each kernel. -/
structure SoundRun [DecidableEq β] (size : β → ℕ) (divided fixed : β → Bool) (items : ℕ) (u : ℕ → ℕ)
    (ks : List (Kernel β Unit)) (m : Memory β) : Prop where
  each : SoundAll size divided items u ks m
  apart : ∀ a ∈ accessesAll u ks m, ∀ a' ∈ accessesAll u ks m, fixed a.buf = true →
    a.owner ≠ a'.owner → Apart a a'

/-- An access to the slice of its item, where the buffer is divided into slices of `stride` bytes. -/
def InSlices (size stride : β → ℕ) (divided : β → Bool) (items : ℕ) (a : Access β) : Prop :=
  ∃ b < items, a.owner = some b ∧ a.width * (a.idx + 1) ≤ size a.buf ∧
    (divided a.buf = true → b * stride a.buf ≤ a.width * a.idx ∧
      a.width * (a.idx + 1) ≤ (b + 1) * stride a.buf)

section Soundness
variable {size stride : β → ℕ} {divided : β → Bool} {items : ℕ}

theorem InSlices.apart {a a' : Access β} (h : InSlices size stride divided items a)
    (h' : InSlices size stride divided items a') (hdivided : divided a.buf = true)
    (howner : a.owner ≠ a'.owner) : Apart a a' := by
  intro hbuf
  obtain ⟨b, -, hb, -, hslice⟩ := h
  obtain ⟨b', -, hb', -, hslice'⟩ := h'
  obtain ⟨hlo, hhi⟩ := hslice hdivided
  obtain ⟨hlo', hhi'⟩ := hslice' (hbuf ▸ hdivided)
  rw [← hbuf] at hlo' hhi'
  have hne : b ≠ b' := fun heq => howner (by rw [hb, hb', heq])
  rcases Nat.lt_or_gt_of_ne hne with hlt | hlt
  · exact .inl (hhi.trans ((Nat.mul_le_mul_right _ hlt).trans hlo'))
  · exact .inr (hhi'.trans ((Nat.mul_le_mul_right _ hlt).trans hlo))

theorem InSlices.fixed {stride' : β → ℕ} {fixed : β → Bool} {a : Access β}
    (h : InSlices size stride divided items a)
    (hfixed : ∀ b, fixed b = true → divided b = true ∧ stride b = stride' b) :
    InSlices size stride' fixed items a := by
  obtain ⟨b, hb, howner, hsize, hslice⟩ := h
  refine ⟨b, hb, howner, hsize, fun hbuf => ?_⟩
  obtain ⟨hdivided, hstride⟩ := hfixed _ hbuf
  rw [← hstride]
  exact hslice hdivided

theorem Within.access {k : Kernel β α} (h : Within P u m k) : ∀ a ∈ accesses k u m, P a := by
  intro a ha
  unfold accesses at ha
  rw [h.reads, h.stores] at ha
  rcases List.mem_append.mp ha with ha | ha
  · exact h.read a ha
  · obtain ⟨s, hs, rfl⟩ := List.mem_map.mp ha
    exact h.stored s hs

theorem Within.sound {k : Kernel β Unit} (h : Within (InSlices size stride divided items) u m k) :
    Sound size divided items u m k where
  reads := h.reads
  stores := h.stores
  inside a ha := by
    obtain ⟨b, -, -, hle, -⟩ := h.access a ha
    exact hle
  owned a ha := by
    obtain ⟨b, hb, howner, -⟩ := h.access a ha
    exact ⟨b, hb, howner⟩
  apart a ha a' ha' := (h.access a ha).apart (h.access a' ha')

variable [DecidableEq β] {ks ks' : List (Kernel β Unit)}

theorem WithinAll.sound (h : WithinAll (InSlices size stride divided items) u ks m) :
    SoundAll size divided items u ks m := by
  induction ks generalizing m with
  | nil => trivial
  | cons k ks ih =>
    refine ⟨h.1.sound, ?_⟩
    rw [h.1.exec]
    exact ih h.2

theorem WithinAll.mono (h : WithinAll P u ks m) (hPQ : ∀ a, P a → Q a) : WithinAll Q u ks m := by
  induction ks generalizing m with
  | nil => trivial
  | cons k ks ih => exact ⟨h.1.mono hPQ, ih h.2⟩

theorem WithinAll.access (h : WithinAll P u ks m) : ∀ a ∈ accessesAll u ks m, P a := by
  induction ks generalizing m with
  | nil => exact fun a ha => absurd ha List.not_mem_nil
  | cons k ks ih =>
    intro a ha
    rcases List.mem_append.mp ha with ha | ha
    · exact h.1.access a ha
    · rw [h.1.exec] at ha
      exact ih h.2 a ha

theorem WithinAll.apart (h : WithinAll (InSlices size stride divided items) u ks m) :
    ∀ a ∈ accessesAll u ks m, ∀ a' ∈ accessesAll u ks m, divided a.buf = true →
      a.owner ≠ a'.owner → Apart a a' :=
  fun a ha a' ha' => (h.access a ha).apart (h.access a' ha')

/-- Sound kernels do what they do with exact indices. -/
theorem SoundAll.runAll (h : SoundAll size divided items u ks m) :
    Kernel.runAll ks u m = Kernel.runAll ks id m := by
  induction ks generalizing m with
  | nil => rfl
  | cons k ks ih =>
    have hexec : k.exec u m = k.exec id m := by rw [Kernel.exec, h.1.stores, Kernel.exec]
    rw [runAll_cons, runAll_cons, ih h.2, hexec]

theorem soundAll_append : SoundAll size divided items u (ks ++ ks') m ↔
    SoundAll size divided items u ks m ∧
      SoundAll size divided items u ks' (Kernel.runAll ks u m) := by
  induction ks generalizing m with
  | nil => exact ⟨fun h => ⟨trivial, h⟩, fun h => h.2⟩
  | cons k ks ih =>
    rw [List.cons_append, SoundAll, SoundAll, ih, runAll_cons, and_assoc]

end Soundness

/-! ### Confinement

What a kernel accesses under an evaluation of unsigned expressions that need not be exact. -/

structure Confined (P : Access β → Prop) (u : ℕ → ℕ) (m : Memory β) (k : Kernel β α) : Prop where
  read : ∀ a ∈ k.reads u m, P a
  stored : ∀ s ∈ k.stores u m, P s.toAccess

theorem confined_pure (a : α) : Confined P u m (pure a) :=
  ⟨fun _ h => absurd h List.not_mem_nil, fun _ h => absurd h List.not_mem_nil⟩

theorem confined_bind {x : Kernel β α} {f : α → Kernel β γ} (hx : Confined P u m x)
    (hf : Confined P u m (f (x.val u m))) : Confined P u m (x >>= f) :=
  ⟨fun a ha => (List.mem_append.mp ha).elim (hx.read a) (hf.read a),
    fun s hs => (List.mem_append.mp hs).elim (hx.stored s) (hf.stored s)⟩

theorem confined_load {w i : ℕ} {b : β} (h : P ⟨b, w, u i, none⟩) : Confined P u m (load w b i) :=
  ⟨fun _ ha => List.mem_singleton.mp ha ▸ h, fun _ h => absurd h List.not_mem_nil⟩

theorem confined_loadWords {w n off : ℕ} {b : β} {g : (ℕ → ℕ) → α}
    (h : ∀ k < n, P ⟨b, w, u (off + k), none⟩) : Confined P u m (g <$> loadWords w n b off) :=
  ⟨fun a ha => forall_mem_run h a ((List.mem_append.mp ha).resolve_right List.not_mem_nil),
    fun _ h => absurd h List.not_mem_nil⟩

theorem confined_storeWords {w n off : ℕ} {b : β} {f : ℕ → ℕ}
    (h : ∀ k < n, P ⟨b, w, u (off + k), none⟩) : Confined P u m (storeWords w n b off f) :=
  ⟨fun _ h => absurd h List.not_mem_nil, forall_mem_run h⟩

theorem confined_foldlM {f : σ → ι → Kernel β σ} {l : List ι}
    (h : ∀ s, ∀ i ∈ l, Confined P u m (f s i)) (s : σ) : Confined P u m (l.foldlM f s) := by
  induction l generalizing s with
  | nil => exact confined_pure s
  | cons i l ih =>
    rw [List.foldlM_cons]
    exact confined_bind (h s i List.mem_cons_self)
      (ih (fun s j hj => h s j (List.mem_cons_of_mem i hj)) _)

theorem confined_each {l : List ι} {f : ι → Kernel β Unit} (h : ∀ i ∈ l, Confined P u m (f i)) :
    Confined P u m (each l f) where
  read a ha := by
    obtain ⟨i, hi, ha⟩ := List.mem_flatMap.mp ha
    exact (h i hi).read a ha
  stored s hs := by
    obtain ⟨i, hi, hs⟩ := List.mem_flatMap.mp hs
    exact (h i hi).stored s hs

theorem confined_dispatch {main : ℕ → ℕ → Kernel β Unit} {gx gy : ℕ}
    (h : ∀ y < gy, ∀ x < gx, Confined (fun a => P (a.own y)) u m (main x y)) :
    Confined P u m (dispatch main gx gy) := by
  refine confined_each fun y hy => ⟨fun a ha => ?_, fun s hs => ?_⟩
  · obtain ⟨a, hin, rfl⟩ := List.mem_map.mp ha
    exact (confined_each fun x hx => h y (List.mem_range.mp hy) x (List.mem_range.mp hx)).read a hin
  · obtain ⟨s, hin, rfl⟩ := List.mem_map.mp hs
    exact (confined_each fun x hx => h y (List.mem_range.mp hy) x (List.mem_range.mp hx)).stored s
      hin

end Gpu.Kernel
