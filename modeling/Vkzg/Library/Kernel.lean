import Vkzg.Library.Memory
import Mathlib.Data.List.ProdSigma

/-! Compute kernels as readers of the memory a dispatch starts from. A kernel has a value and two
traces: the accesses it reads and the stores it issues. Index arithmetic goes through `uint`, the
evaluation of unsigned integers, so the same kernel runs with exact or with wrapping indices. -/

namespace Gpu

variable {β α γ σ ι : Type}

theorem flatMap_product {δ : Type} (l : List ι) (l' : List γ) (f : ι × γ → List δ) :
    (l ×ˢ l').flatMap f = l.flatMap fun a => l'.flatMap fun b => f (a, b) := by
  simp only [List.product, SProd.sprod, List.flatMap_assoc, List.flatMap_map]

theorem range_mul_eq_flatMap (a b : ℕ) :
    List.range (a * b) = (List.range a).flatMap fun x => (List.range b).map (x * b + ·) := by
  induction a with
  | zero => simp
  | succ a ih => rw [Nat.succ_mul, List.range_add, ih, List.range_succ, List.flatMap_append,
      List.flatMap_singleton]

structure Kernel (β α : Type) where
  val : (ℕ → ℕ) → Memory β → α
  reads : (ℕ → ℕ) → Memory β → List (Access β)
  stores : (ℕ → ℕ) → Memory β → List (Store β)

namespace Kernel

protected def pure (a : α) : Kernel β α := ⟨fun _ _ => a, fun _ _ => [], fun _ _ => []⟩

protected def bind (x : Kernel β α) (f : α → Kernel β γ) : Kernel β γ where
  val u m := (f (x.val u m)).val u m
  reads u m := x.reads u m ++ (f (x.val u m)).reads u m
  stores u m := x.stores u m ++ (f (x.val u m)).stores u m

instance : Monad (Kernel β) where
  pure := Kernel.pure
  bind := Kernel.bind

/-- Reads element `i` of the `w`-byte view of a buffer. -/
def load (w : ℕ) (b : β) (i : ℕ) : Kernel β ℕ :=
  ⟨fun u m => m.elem w b (u i), fun u _ => [⟨b, w, u i, none⟩], fun _ _ => []⟩

def store (w : ℕ) (b : β) (i v : ℕ) : Kernel β Unit :=
  ⟨fun _ _ => (), fun _ _ => [], fun u _ => [⟨⟨b, w, u i, none⟩, v⟩]⟩

/-- Sets bits of an element atomically, where all threads of a dispatch set the same bits: each
leaves the element from before the dispatch with these bits set. -/
def atomicOr (w : ℕ) (b : β) (i v : ℕ) : Kernel β Unit where
  val _ _ := ()
  reads u _ := [⟨b, w, u i, none⟩]
  stores u m := [⟨⟨b, w, u i, none⟩, m.elem w b (u i) ||| v⟩]

/-- The value an unsigned expression evaluates to on the device. -/
def uint (n : ℕ) : Kernel β ℕ := ⟨fun u _ => u n, fun _ _ => [], fun _ _ => []⟩

/-- Reads `n` consecutive elements. -/
def loadWords (w n : ℕ) (b : β) (off : ℕ) : Kernel β (ℕ → ℕ) where
  val u m := fun k => m.elem w b (u (off + k))
  reads u _ := (List.range n).map fun k => ⟨b, w, u (off + k), none⟩
  stores _ _ := []

/-- Stores `n` consecutive elements. -/
def storeWords (w n : ℕ) (b : β) (off : ℕ) (f : ℕ → ℕ) : Kernel β Unit where
  val _ _ := ()
  reads _ _ := []
  stores u _ := (List.range n).map fun k => ⟨⟨b, w, u (off + k), none⟩, f k⟩

/-- Threads that run on the same memory, none seeing another's stores. -/
def each (l : List ι) (f : ι → Kernel β Unit) : Kernel β Unit where
  val _ _ := ()
  reads u m := l.flatMap fun i => (f i).reads u m
  stores u m := l.flatMap fun i => (f i).stores u m

/-- Threads that run on the same memory, with what each of them computes. -/
def gather (l : List ι) (f : ι → Kernel β α) : Kernel β (List α) where
  val u m := l.map fun i => (f i).val u m
  reads u m := l.flatMap fun i => (f i).reads u m
  stores u m := l.flatMap fun i => (f i).stores u m

/-- Reads `n` elements the same thread stored before, as the value `v`. -/
def reload (w n : ℕ) (b : β) (off : ℕ) (v : α) : Kernel β α where
  val _ _ := v
  reads u _ := (List.range n).map fun k => ⟨b, w, u (off + k), none⟩
  stores _ _ := []

/-- Attributes every access to item `o`, unless an inner call already attributed it. -/
def owned (o : ℕ) (k : Kernel β α) : Kernel β α where
  val := k.val
  reads u m := (k.reads u m).map (Access.own o)
  stores u m := (k.stores u m).map (Store.own o)

/-- A grid of workgroups; the second grid coordinate is the item worked on. -/
def dispatch (main : ℕ → ℕ → Kernel β Unit) (groupsX groupsY : ℕ) : Kernel β Unit :=
  each (List.range groupsY) fun y => owned y (each (List.range groupsX) fun x => main x y)

section Projections
variable (u : ℕ → ℕ) (m : Memory β)

@[simp] theorem val_pure (a : α) : (pure a : Kernel β α).val u m = a := rfl
@[simp] theorem reads_pure (a : α) : (pure a : Kernel β α).reads u m = [] := rfl
@[simp] theorem stores_pure (a : α) : (pure a : Kernel β α).stores u m = [] := rfl

@[simp] theorem val_bind (x : Kernel β α) (f : α → Kernel β γ) :
    (x >>= f).val u m = (f (x.val u m)).val u m := rfl
@[simp] theorem reads_bind (x : Kernel β α) (f : α → Kernel β γ) :
    (x >>= f).reads u m = x.reads u m ++ (f (x.val u m)).reads u m := rfl
@[simp] theorem stores_bind (x : Kernel β α) (f : α → Kernel β γ) :
    (x >>= f).stores u m = x.stores u m ++ (f (x.val u m)).stores u m := rfl

@[simp] theorem val_map (x : Kernel β α) (f : α → γ) : (f <$> x).val u m = f (x.val u m) := rfl
@[simp] theorem stores_map (x : Kernel β α) (f : α → γ) :
    (f <$> x).stores u m = x.stores u m := List.append_nil _

@[simp] theorem val_load (w : ℕ) (b : β) (i : ℕ) : (load w b i).val u m = m.elem w b (u i) := rfl
@[simp] theorem stores_load (w : ℕ) (b : β) (i : ℕ) : (load w b i).stores u m = [] := rfl
@[simp] theorem stores_store (w : ℕ) (b : β) (i v : ℕ) :
    (store w b i v).stores u m = [⟨⟨b, w, u i, none⟩, v⟩] := rfl
@[simp] theorem stores_atomicOr (w : ℕ) (b : β) (i v : ℕ) :
    (atomicOr w b i v).stores u m = [⟨⟨b, w, u i, none⟩, m.elem w b (u i) ||| v⟩] := rfl
@[simp] theorem val_uint (n : ℕ) : (uint n : Kernel β ℕ).val u m = u n := rfl
@[simp] theorem stores_uint (n : ℕ) : (uint n : Kernel β ℕ).stores u m = [] := rfl

@[simp] theorem val_loadWords (w n : ℕ) (b : β) (off : ℕ) :
    (loadWords w n b off).val u m = fun k => m.elem w b (u (off + k)) := rfl
@[simp] theorem stores_loadWords (w n : ℕ) (b : β) (off : ℕ) :
    (loadWords w n b off).stores u m = [] := rfl
@[simp] theorem stores_storeWords (w n : ℕ) (b : β) (off : ℕ) (f : ℕ → ℕ) :
    (storeWords w n b off f).stores u m =
      (List.range n).map fun k => ⟨⟨b, w, u (off + k), none⟩, f k⟩ := rfl

@[simp] theorem stores_each (l : List ι) (f : ι → Kernel β Unit) :
    (each l f).stores u m = l.flatMap fun i => (f i).stores u m := rfl

@[simp] theorem val_gather (l : List ι) (f : ι → Kernel β α) :
    (gather l f).val u m = l.map fun i => (f i).val u m := rfl
@[simp] theorem stores_gather (l : List ι) (f : ι → Kernel β α) :
    (gather l f).stores u m = l.flatMap fun i => (f i).stores u m := rfl

@[simp] theorem val_reload (w n : ℕ) (b : β) (off : ℕ) (v : α) :
    (reload w n b off v).val u m = v := rfl
@[simp] theorem stores_reload (w n : ℕ) (b : β) (off : ℕ) (v : α) :
    (reload w n b off v).stores u m = [] := rfl

@[simp] theorem stores_owned (o : ℕ) (k : Kernel β α) :
    (owned o k).stores u m = (k.stores u m).map (Store.own o) := rfl

@[simp] theorem val_owned (o : ℕ) (k : Kernel β α) : (owned o k).val u m = k.val u m := rfl

theorem stores_gather_nil {l : List ι} {f : ι → Kernel β α} {u : ℕ → ℕ} {m : Memory β}
    (h : ∀ i ∈ l, (f i).stores u m = []) : (gather l f).stores u m = [] :=
  List.flatMap_eq_nil_iff.mpr h

theorem val_foldlM (f : σ → ι → Kernel β σ) (l : List ι) (s : σ) :
    (l.foldlM f s).val u m = l.foldl (fun s i => (f s i).val u m) s := by
  induction l generalizing s with
  | nil => rfl
  | cons i l ih => rw [List.foldlM_cons, val_bind, ih, List.foldl_cons]

theorem stores_foldlM {f : σ → ι → Kernel β σ} {u : ℕ → ℕ} {m : Memory β} {l : List ι}
    (h : ∀ s, ∀ i ∈ l, (f s i).stores u m = []) (s : σ) : (l.foldlM f s).stores u m = [] := by
  induction l generalizing s with
  | nil => rfl
  | cons i l ih =>
    rw [List.foldlM_cons, stores_bind, h s i List.mem_cons_self,
      ih fun s j hj => h s j (List.mem_cons_of_mem i hj), List.append_nil]

end Projections

variable [DecidableEq β]

def exec (k : Kernel β Unit) (u : ℕ → ℕ) (m : Memory β) : Memory β := applyAll (k.stores u m) m

/-- With exact indices, naming an unsigned value changes nothing. -/
theorem exec_uint_bind (n : ℕ) (f : ℕ → Kernel β Unit) (m : Memory β) :
    (uint n >>= f).exec id m = (f n).exec id m := rfl

theorem exec_frame {k : Kernel β Unit} {u : ℕ → ℕ} {m : Memory β} {b : β}
    (h : landing b (k.stores u m) = []) : k.exec u m b = m b := applyAll_of_landing_nil h m

/-- Runs kernels one after the other, each seeing what the earlier ones stored. -/
def runAll (ks : List (Kernel β Unit)) (u : ℕ → ℕ) (m : Memory β) : Memory β :=
  ks.foldl (fun m k => k.exec u m) m

@[simp] theorem runAll_nil (u : ℕ → ℕ) (m : Memory β) : runAll [] u m = m := rfl

@[simp] theorem runAll_cons (k : Kernel β Unit) (ks : List (Kernel β Unit)) (u : ℕ → ℕ)
    (m : Memory β) : runAll (k :: ks) u m = runAll ks u (k.exec u m) := rfl

theorem runAll_append (ks ks' : List (Kernel β Unit)) (u : ℕ → ℕ) (m : Memory β) :
    runAll (ks ++ ks') u m = runAll ks' u (runAll ks u m) := List.foldl_append

theorem landing_dispatch (main : ℕ → ℕ → Kernel β Unit) (gx gy : ℕ) (u : ℕ → ℕ) (m : Memory β)
    (b : β) : landing b ((dispatch main gx gy).stores u m) =
      (List.range gy).flatMap fun y => (List.range gx).flatMap fun x =>
        landing b ((main x y).stores u m) := by
  simp [dispatch]

/-- The items of every workgroup of a grid. -/
def gridItems (gx gy : ℕ) (X : ℕ → ℕ → List ι) : List (ℕ × ℕ × ι) :=
  (List.range gy).flatMap fun y => (List.range gx).flatMap fun x => (X y x).map fun i => (y, x, i)

theorem mem_gridItems {gx gy : ℕ} {X : ℕ → ℕ → List ι} {q : ℕ × ℕ × ι} :
    q ∈ gridItems gx gy X ↔ q.1 < gy ∧ q.2.1 < gx ∧ q.2.2 ∈ X q.1 q.2.1 := by
  obtain ⟨y, x, i⟩ := q
  simp [gridItems]

theorem nodup_flatMap_pair {l : List γ} {f : γ → List ι} (hl : l.Nodup) (hf : ∀ a ∈ l, (f a).Nodup) :
    (l.flatMap fun a => (f a).map fun i => (a, i)).Nodup := by
  refine List.nodup_flatMap.mpr ⟨fun a ha => (hf a ha).map fun i j h => (Prod.mk.inj h).2, ?_⟩
  refine hl.imp_of_mem fun {a b} _ _ hab => List.disjoint_left.mpr fun p hp hq => hab ?_
  obtain ⟨i, -, rfl⟩ := List.mem_map.mp hp
  obtain ⟨j, -, h⟩ := List.mem_map.mp hq
  exact (Prod.mk.inj h).1.symm

theorem nodup_gridItems {gx gy : ℕ} {X : ℕ → ℕ → List ι} (hX : ∀ y x, (X y x).Nodup) :
    (gridItems gx gy X).Nodup := by
  have h := nodup_flatMap_pair (List.nodup_range (n := gy)) fun y _ =>
    nodup_flatMap_pair (List.nodup_range (n := gx)) fun x _ => hX y x
  simpa only [gridItems, List.map_flatMap, List.map_map, Function.comp_def] using h

theorem exec_dispatch_frame {main : ℕ → ℕ → Kernel β Unit} {gx gy : ℕ} {u : ℕ → ℕ} {m : Memory β}
    {b : β} (h : ∀ x y, landing b ((main x y).stores u m) = []) :
    (dispatch main gx gy).exec u m b = m b := by
  refine exec_frame ?_
  rw [landing_dispatch]
  exact List.flatMap_eq_nil_iff.mpr fun y _ => List.flatMap_eq_nil_iff.mpr fun x _ => h x y

section Blocks
variable {u : ℕ → ℕ} {m : Memory β} {b b' : β} {w n : ℕ}

theorem blocks_each_store (l : List ι) (pos v : ι → ℕ) :
    Blocks ((each l fun i => store w b (pos i) (v i)).stores id m) b w 1 l pos
      (fun i _ => v i) := by
  rw [Blocks, stores_each, landing_flatMap]
  refine List.flatMap_congr fun i _ => ?_
  simp [landing]

theorem landing_each_nil {l : List ι} {f : ι → Kernel β Unit}
    (h : ∀ i ∈ l, landing b ((f i).stores u m) = []) : landing b ((each l f).stores u m) = [] := by
  rw [stores_each, landing_flatMap]
  exact List.flatMap_eq_nil_iff.mpr h

theorem landing_each_store_other (h : b' ≠ b) (l : List ι) (pos v : ι → ℕ) :
    landing b ((each l fun i => store w b' (pos i) (v i)).stores u m) = [] := by
  rw [stores_each, landing_flatMap]
  refine List.flatMap_eq_nil_iff.mpr fun i _ => ?_
  simp [landing, h]

theorem blocks_storeWords {p off : ℕ} (hoff : off = p * n) (f : ℕ → ℕ) :
    Blocks ((storeWords w n b off f).stores id m) b w n [()] (fun _ => p) (fun _ => f) := by
  subst hoff
  rw [Blocks, stores_storeWords, landing_block, List.flatMap_singleton]
  rfl

theorem blocks_each {l : List ι} {f : ι → Kernel β Unit} {pos : ι → ℕ} {v : ι → ℕ → ℕ}
    (h : ∀ i ∈ l, landing b ((f i).stores u m) =
      (List.range n).map fun k => (w, pos i * n + k, v i k)) :
    Blocks ((each l f).stores u m) b w n l pos v := by
  rw [Blocks, stores_each, landing_flatMap]
  exact List.flatMap_congr h

theorem blocks_grid {main : ℕ → ℕ → Kernel β Unit} {gx gy : ℕ} {X : ℕ → ℕ → List ι}
    (pos : ℕ → ℕ → ι → ℕ) (v : ℕ → ℕ → ι → ℕ → ℕ)
    (h : ∀ y < gy, ∀ x < gx, Blocks ((main x y).stores u m) b w n (X y x) (pos y x) (v y x)) :
    Blocks ((dispatch main gx gy).stores u m) b w n (gridItems gx gy X)
      (fun q => pos q.1 q.2.1 q.2.2) (fun q => v q.1 q.2.1 q.2.2) := by
  rw [Blocks, landing_dispatch]
  simp only [gridItems, List.flatMap_assoc, List.flatMap_map]
  refine List.flatMap_congr fun y hy => List.flatMap_congr fun x hx => ?_
  rw [h y (List.mem_range.mp hy) x (List.mem_range.mp hx)]

theorem blocks_dispatch {main : ℕ → ℕ → Kernel β Unit} {gx gy : ℕ} {X : List ι}
    (pos : ℕ → ℕ → ι → ℕ) (v : ℕ → ℕ → ι → ℕ → ℕ)
    (h : ∀ y < gy, ∀ x < gx, Blocks ((main x y).stores u m) b w n X (pos y x) (v y x)) :
    Blocks ((dispatch main gx gy).stores u m) b w n
      (List.range gy ×ˢ (List.range gx ×ˢ X)) (fun q => pos q.1 q.2.1 q.2.2)
      (fun q => v q.1 q.2.1 q.2.2) := by
  rw [Blocks, landing_dispatch, flatMap_product]
  refine List.flatMap_congr fun y hy => ?_
  rw [flatMap_product]
  refine List.flatMap_congr fun x hx => ?_
  rw [h y (List.mem_range.mp hy) x (List.mem_range.mp hx)]

theorem landing_lanes (thread : ℕ → ℕ → Kernel β Unit) (size gx gy : ℕ) :
    landing b ((dispatch (fun x y => each (List.range size) fun t => thread y (x * size + t))
        gx gy).stores u m) =
      (List.range gy ×ˢ List.range (gx * size)).flatMap fun q =>
        landing b ((thread q.1 q.2).stores u m) := by
  rw [landing_dispatch, flatMap_product]
  refine List.flatMap_congr fun y _ => ?_
  rw [range_mul_eq_flatMap, List.flatMap_assoc]
  refine List.flatMap_congr fun x _ => ?_
  rw [stores_each, landing_flatMap, List.flatMap_map]

theorem blocks_lanes (thread : ℕ → ℕ → Kernel β Unit) {size gx gy : ℕ} (pos : ℕ → ℕ → ℕ)
    (v : ℕ → ℕ → ℕ → ℕ) (h : ∀ y < gy, ∀ i < gx * size, landing b ((thread y i).stores u m) =
      (List.range n).map fun k => (w, pos y i * n + k, v y i k)) :
    Blocks ((dispatch (fun x y => each (List.range size) fun t => thread y (x * size + t))
        gx gy).stores u m) b w n (List.range gy ×ˢ List.range (gx * size))
      (fun q => pos q.1 q.2) (fun q => v q.1 q.2) := by
  rw [Blocks, landing_lanes]
  refine List.flatMap_congr fun q hq => ?_
  obtain ⟨hy, hi⟩ := List.mem_product.mp hq
  exact h q.1 (List.mem_range.mp hy) q.2 (List.mem_range.mp hi)

end Blocks

end Kernel

/-- Workgroup memory after a phase in which threads stored index and value pairs. -/
def Shared.write (tile : ℕ → γ) (l : List (ℕ × γ)) : ℕ → γ :=
  l.foldl (fun t p => Function.update t p.1 p.2) tile

theorem Shared.write_of_not_mem {l : List (ℕ × γ)} {i : ℕ} (h : ∀ p ∈ l, p.1 ≠ i)
    (tile : ℕ → γ) : Shared.write tile l i = tile i := by
  induction l generalizing tile with
  | nil => rfl
  | cons p l ih =>
    rw [Shared.write, List.foldl_cons, ← Shared.write,
      ih fun q hq => h q (List.mem_cons_of_mem p hq),
      Function.update_of_ne (h p List.mem_cons_self).symm]

theorem Shared.write_mem {l : List (ℕ × γ)} {i : ℕ} (h : ∃ p ∈ l, p.1 = i) (tile : ℕ → γ) :
    ∃ p ∈ l, p.1 = i ∧ Shared.write tile l i = p.2 := by
  induction l generalizing tile with
  | nil => simp at h
  | cons q l ih =>
    rw [Shared.write, List.foldl_cons, ← Shared.write]
    by_cases hrest : ∃ p ∈ l, p.1 = i
    · obtain ⟨p, hp, hi, hv⟩ := ih hrest (Function.update tile q.1 q.2)
      exact ⟨p, List.mem_cons_of_mem q hp, hi, hv⟩
    · obtain ⟨p, hp, rfl⟩ := h
      rcases List.mem_cons.mp hp with rfl | hp
      · refine ⟨p, List.mem_cons_self, rfl, ?_⟩
        rw [Shared.write_of_not_mem fun r hr hri => hrest ⟨r, hr, hri⟩, Function.update_self]
      · exact absurd ⟨p, hp, rfl⟩ hrest

/-- If everything the threads store has a property of its position, so has every position that
some thread stores to. -/
theorem Shared.write_gather {l : List ι} {f : ι → List (ℕ × γ)} {P : ℕ → γ → Prop}
    (hP : ∀ t ∈ l, ∀ p ∈ f t, P p.1 p.2) {i : ℕ} (hi : ∃ t ∈ l, ∃ p ∈ f t, p.1 = i)
    (tile : ℕ → γ) : P i (Shared.write tile (l.map f).flatten i) := by
  obtain ⟨t, ht, p, hp, hpi⟩ := hi
  obtain ⟨q, hq, rfl, hv⟩ := Shared.write_mem (l := (l.map f).flatten)
    ⟨p, List.mem_flatten_of_mem (List.mem_map_of_mem ht) hp, hpi⟩ tile
  obtain ⟨_, hl, hq⟩ := List.mem_flatten.mp hq
  obtain ⟨t', ht', rfl⟩ := List.mem_map.mp hl
  rw [hv]
  exact hP t' ht' q hq

theorem filter_lt_range {n k : ℕ} (h : k ≤ n) :
    (List.range n).filter (fun t => t < k) = List.range k := by
  obtain ⟨d, rfl⟩ := Nat.exists_eq_add_of_le h
  rw [List.range_add, List.filter_append, List.filter_eq_self.mpr (by simp),
    List.filter_eq_nil_iff.mpr (by simp), List.append_nil]

/-- Teams of `size` slots that skip the slots past `count` visit the items below `count` in order. -/
theorem flatMap_teams {groups size count : ℕ} (hcover : count ≤ groups * size)
    (g : ℕ → ℕ → List γ) :
    ((List.range groups).flatMap fun x =>
      ((List.range size).filter fun t => x * size + t < count).flatMap (g x)) =
      (List.range count).flatMap fun j => g (j / size) (j % size) := by
  conv_rhs => rw [← filter_lt_range hcover, range_mul_eq_flatMap, List.filter_flatMap,
    List.flatMap_assoc]
  refine List.flatMap_congr fun x _ => ?_
  rw [List.filter_map, List.flatMap_map]
  refine List.flatMap_congr fun t ht => ?_
  have hlt : t < size := List.mem_range.mp (List.mem_filter.mp ht).1
  rw [block_div hlt, Nat.mul_add_mod_of_lt hlt]

end Gpu
