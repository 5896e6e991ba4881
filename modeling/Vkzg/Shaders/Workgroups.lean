import Vkzg.Library.Barriers
import Vkzg.Shaders.Grids

/-! The kernels whose threads share a tile of workgroup memory, thread by thread: what each thread
does between two barriers, and that their runs in any order come to what the kernel computes with all
threads of a group in step. -/

namespace Vkzg
open Radix Gpu Gpu.Kernel BitReversal

/-- The buffers of the prover, and the workgroup memory of each group. -/
abbrev GroupBuf := Buf ⊕ ℕ × ℕ

abbrev GroupMem := Memory GroupBuf
abbrev GroupShader := Kernel GroupBuf

def GroupMem.buffers (m : GroupMem) : Mem := fun b => m (.inl b)

/-! ### The tile -/

def tileLoad (g : ℕ × ℕ) (j : ℕ) : GroupShader Fr :=
  limbsOf 8 <$> loadWords 4 8 (.inr g) (j * frWords)

def tileStore (g : ℕ × ℕ) (j : ℕ) (v : Fr) : GroupShader Unit :=
  storeWords 4 8 (.inr g) (j * frWords) (limbWords v)

def tileAt (m : GroupMem) (g : ℕ × ℕ) (j : ℕ) : Fr :=
  limbsOf 8 fun k => m.elem 4 (.inr g) (j * frWords + k)

/-- What one thread does at the start: its entry goes to the tile. -/
def loadLane (n : ℕ) (place : ℕ → ℕ) (entry : ℕ → Shader Fr) (g : ℕ × ℕ) (tid : ℕ) :
    GroupShader Unit := do
  if tid < n then
    let v ← onto .inl (entry tid)
    tileStore g (place tid) v

/-- What one thread does in a stage of the butterflies. -/
def butterflyLane (roots : Buf) (n rootStride len : ℕ) (g : ℕ × ℕ) (tid : ℕ) : GroupShader Unit := do
  if tid < n >>> 1 then
    let hlen := len >>> 1
    let step := n / len
    let blk := tid / hlen
    let j := tid - blk * hlen
    let base := blk * len
    let w ← onto .inl (frLoad roots (j * step * rootStride * frWords))
    let a ← tileLoad g (base + j)
    let c ← tileLoad g (base + j + hlen)
    let c := frMul c w
    tileStore g (base + j) (frAdd a c)
    tileStore g (base + j + hlen) (frSub a c)

/-- What one thread does at the end: the result for its tile entry goes to a buffer. -/
def storeLane (n : ℕ) (out : Buf) (off : ℕ → ℕ) (result : ℕ → Fr → Shader Fr) (g : ℕ × ℕ)
    (tid : ℕ) : GroupShader Unit := do
  if tid < n then
    let v ← tileLoad g tid
    let v ← onto .inl (result tid v)
    onto .inl (frStore out (off tid) v)

section Tile
variable {u : ℕ → ℕ} {m m' : GroupMem} {g : ℕ × ℕ} {j : ℕ}

theorem val_tileLoad (hu : ∀ n < 1024, u n = n) (hj : j < 128) :
    (tileLoad g j).val u m = tileAt m g j :=
  Limbs.ofFn_congr fun k hk => by
    show UInt32.ofNat (m.elem 4 (.inr g) (u (j * 8 + k))) = _
    rw [hu _ (by omega)]

/-- The stores of a list of tile entries. -/
def tileWrites (u : ℕ → ℕ) (g : ℕ × ℕ) (pairs : List (ℕ × Fr)) : List (Store GroupBuf) :=
  pairs.flatMap fun p => (List.range 8).map fun k =>
    ⟨⟨.inr g, 4, u (p.1 * frWords + k), none⟩, limbWords p.2 k⟩

theorem stores_tileStore (v : Fr) : (tileStore g j v).stores u m = tileWrites u g [(j, v)] :=
  (List.append_nil _).symm

theorem tileAt_write (hu : ∀ n < 1024, u n = n) (hj : j < 128) (v : Fr) :
    tileAt (applyAll (tileWrites u g [(j, v)]) m) g = Function.update (tileAt m g) j v := by
  have hmem : ∀ s, s ∈ tileWrites u g [(j, v)] ↔ ∃ k < 8, s =
      ⟨⟨.inr g, 4, j * 8 + k, none⟩, limbWords v k⟩ := fun s => by
    rw [tileWrites, List.flatMap_singleton, List.mem_map]
    refine exists_congr fun k => and_congr_right_iff.mpr ?_ |>.trans (and_congr_left' List.mem_range)
    intro hk
    have hk := List.mem_range.mp hk
    rw [frWords, hu _ (by omega), eq_comm]
  funext i
  by_cases hi : i = j
  · subst hi
    rw [Function.update_self]
    refine limbsOf_eq fun k hk => ?_
    have hhit : (applyAll (tileWrites u g [(i, v)]) m).elem 4 (.inr g) (i * 8 + k) =
        limbWords v k % 256 ^ 4 := elem_applyAll_hit (fun s hs _ => ?_) (fun s hs _ hidx => ?_)
      ⟨_, (hmem _).mpr ⟨k, hk, rfl⟩, rfl, rfl⟩ m
    · exact hhit.trans (Nat.mod_eq_of_lt (limbWords_lt v k))
    · obtain ⟨k', -, rfl⟩ := (hmem s).mp hs
      rfl
    · obtain ⟨k', -, rfl⟩ := (hmem s).mp hs
      exact congrArg (limbWords v) (Nat.add_left_cancel hidx)
  · rw [Function.update_of_ne hi]
    refine Limbs.ofFn_congr fun k hk =>
      congrArg UInt32.ofNat (elem_applyAll_other (fun s hs _ => ?_) m)
    obtain ⟨k', hk', rfl⟩ := (hmem s).mp hs
    exact ⟨rfl, by simp only [frWords]; omega⟩

/-- A list of entries written to the tile word by word. -/
theorem tileAt_writes (hu : ∀ n < 1024, u n = n) {pairs : List (ℕ × Fr)}
    (hpairs : ∀ p ∈ pairs, p.1 < 128) :
    tileAt (applyAll (tileWrites u g pairs) m) g = Shared.write (tileAt m g) pairs := by
  induction pairs generalizing m with
  | nil => rfl
  | cons p pairs ih =>
    have hsplit : tileWrites u g (p :: pairs) = tileWrites u g [p] ++ tileWrites u g pairs := by
      simp only [tileWrites, List.flatMap_cons, List.flatMap_nil, List.append_nil]
    rw [hsplit, applyAll_append, ih fun q hq => hpairs q (List.mem_cons_of_mem p hq),
      tileAt_write hu (hpairs p List.mem_cons_self)]
    rfl

theorem buffers_writes (pairs : List (ℕ × Fr)) :
    GroupMem.buffers (applyAll (tileWrites u g pairs) m) = m.buffers := by
  funext b
  refine applyAll_frame (fun s hs => ?_) m
  obtain ⟨p, -, hs⟩ := List.mem_flatMap.mp hs
  obtain ⟨k, -, rfl⟩ := List.mem_map.mp hs
  exact nofun

end Tile

/-! ### One phase -/

section Phases
variable {u : ℕ → ℕ} {m : GroupMem} {g : ℕ × ℕ} {n tid : ℕ}

theorem stores_loadLane {place : ℕ → ℕ} {entry : ℕ → Shader Fr}
    (h : (entry tid).stores u m.buffers = []) : (loadLane n place entry g tid).stores u m =
      if tid < n then tileWrites u g [(place tid, (entry tid).val u m.buffers)] else [] := by
  have hnone : (onto Sum.inl (entry tid) : GroupShader Fr).stores u m = [] := stores_onto_nil h
  unfold loadLane
  split_ifs
  · rw [stores_bind, hnone, List.nil_append, stores_tileStore]
    rfl
  · rfl

/-- The lower of the tile entries a thread rewrites in stage `s`. -/
def lowEnd (s tid : ℕ) : ℕ := tid / 2 ^ s * (2 * 2 ^ s) + tid % 2 ^ s

theorem half_len (s : ℕ) : (2 <<< s) >>> 1 = 2 ^ s := by
  rw [Nat.shiftLeft_eq, Nat.shiftRight_eq_div_pow, pow_one, Nat.mul_div_cancel_left _ (by decide)]

theorem lowEnd_eq (s tid : ℕ) :
    tid / 2 ^ s * 2 <<< s + (tid - tid / 2 ^ s * 2 ^ s) = lowEnd s tid := by
  rw [lowEnd, Nat.shiftLeft_eq, ← Nat.mod_eq_sub_div_mul]

theorem lowEnd_lt {L s : ℕ} (hL : L ≤ 7) (hs : s < L) (htid : tid < 2 ^ L >>> 1) :
    lowEnd s tid + 2 ^ s < 128 := by
  obtain ⟨d, rfl⟩ : ∃ d, L = d + 1 + s := ⟨L - 1 - s, by omega⟩
  have hpow : 2 ^ (d + 1 + s) = 2 ^ d * (2 * 2 ^ s) := by rw [pow_add, pow_succ]; ring
  have hhalf : 2 ^ (d + 1 + s) >>> 1 = 2 ^ s * 2 ^ d := by
    rw [Nat.shiftRight_eq_div_pow, hpow, Nat.mul_left_comm, pow_one,
      Nat.mul_div_cancel_left _ (by decide), Nat.mul_comm]
  have hlt := pair_lt (Nat.div_lt_of_lt_mul (htid.trans_eq hhalf))
    (Nat.mod_lt tid (Nat.two_pow_pos s))
  rw [← hpow] at hlt
  exact hlt.trans_le (Nat.pow_le_pow_right (by decide) hL)

theorem mem_stageLens {L len : ℕ} (h : len ∈ stageLens (2 ^ L)) : ∃ s < L, len = 2 <<< s := by
  obtain ⟨s, hs, rfl⟩ := List.mem_map.mp h
  exact ⟨s, by rwa [Nat.log2_two_pow, List.mem_range] at hs, rfl⟩

theorem stores_butterflyLane (hu : ∀ n < 1024, u n = n) {roots : Buf} {L s rootStride : ℕ}
    (hL : L ≤ 7) (hs : s < L) :
    (butterflyLane roots (2 ^ L) rootStride (2 <<< s) g tid).stores u m =
      if tid < 2 ^ L >>> 1 then tileWrites u g ((butterflyThread roots (2 ^ L) rootStride (2 <<< s)
        (tileAt m g) tid).val u m.buffers) else [] := by
  unfold butterflyLane
  split_ifs with htid
  · have hlt := lowEnd_lt hL hs htid
    have hload : ∀ j, (tileLoad g j).stores u m = [] := fun _ => rfl
    have hroot : ∀ off, (onto Sum.inl (frLoad roots off) : GroupShader Fr).stores u m = [] :=
      fun _ => rfl
    simp only [butterflyThread, stores_bind, hload, hroot, List.nil_append, val_bind, val_pure,
      half_len, lowEnd_eq, stores_tileStore, val_tileLoad hu (Nat.lt_of_add_right_lt hlt),
      val_tileLoad hu hlt]
    rfl
  · rfl

theorem flatMap_if {α β : Type} (l : List α) (p : α → Prop) [DecidablePred p] (f : α → List β) :
    l.flatMap (fun i => if p i then f i else []) = (l.filter (p ·)).flatMap f := by
  induction l with
  | nil => rfl
  | cons i l ih =>
    rw [List.flatMap_cons, ih, List.filter_cons]
    by_cases hi : p i
    · rw [if_pos hi, if_pos (decide_eq_true hi), List.flatMap_cons]
    · rw [if_neg hi, if_neg (by simpa using hi), List.nil_append]

/-- Threads that write to the tile, the first `n` of the group. -/
theorem exec_lanes {f : Phase GroupBuf ℕ} {pairs : ℕ → List (ℕ × Fr)}
    (h : ∀ tid, (f tid).stores u m = if tid < n then tileWrites u g (pairs tid) else []) :
    (each (List.range circulantSize) f).exec u m = applyAll (tileWrites u g
      (((List.range circulantSize).filter (· < n)).flatMap pairs)) m := by
  rw [exec, stores_each, List.flatMap_congr fun tid _ => h tid, flatMap_if, tileWrites,
    List.flatMap_assoc]
  rfl

end Phases

/-! ### Kernels that transform a tile -/

/-- Loads into a tile, the stages of the butterflies, and stores out of it: the parameters in which
such kernels differ. A group is named by its blob and its column. -/
structure Transform where
  n : ℕ
  place : ℕ → ℕ
  entry : ℕ × ℕ → ℕ → Shader Fr
  roots : Buf
  rootStride : ℕ
  out : Buf
  off : ℕ × ℕ → ℕ → ℕ
  result : ℕ × ℕ → ℕ → Fr → Shader Fr

namespace Transform

/-- What the threads of a group do between the barriers. -/
def phases (T : Transform) (g : ℕ × ℕ) : List (Phase GroupBuf ℕ) :=
  [loadLane T.n T.place (T.entry g) g] ++
    (stageLens T.n).map (fun len => butterflyLane T.roots T.n T.rootStride len g) ++
    [storeLane T.n T.out (T.off g) (T.result g) g]

def lanes (T : Transform) : List ℕ := (List.range circulantSize).filter (· < T.n)

/-- The tile of a group whose threads go through the phases in step. -/
def tile (T : Transform) (shared : ℕ → Fr) (g : ℕ × ℕ) : Shader (ℕ → Fr) := do
  let loaded ← gather T.lanes fun tid => do
    let v ← T.entry g tid
    pure (T.place tid, v)
  (stageLens T.n).foldlM (butterflyStage T.roots T.n T.rootStride) (Shared.write shared loaded)

def store (T : Transform) (tile : ℕ → Fr) (g : ℕ × ℕ) : Shader Unit :=
  each T.lanes fun tid => do
    let v ← T.result g tid (tile tid)
    frStore T.out (T.off g tid) v

def kernel (T : Transform) (shared : ℕ → Fr) (g : ℕ × ℕ) : Shader Unit := do
  let tile ← T.tile shared g
  T.store tile g

/-- The lanes keep to places of their own, in the tile and in the output, and read nothing that is
stored to but the tile. Element `pos g tid` of the output is the one of thread `tid`. -/
structure Fits (T : Transform) (u : ℕ → ℕ) (gs : List (ℕ × ℕ)) (pos : ℕ × ℕ → ℕ → ℕ) : Prop where
  size : ∃ L ≤ 7, T.n = 2 ^ L
  place_lt : ∀ tid < T.n, T.place tid < T.n
  place_inj : ∀ tid < T.n, ∀ tid' < T.n, T.place tid = T.place tid' → tid = tid'
  entry : ∀ own m g tid, Keeps noFlag (only T.out) own u m (T.entry g tid)
  result : ∀ own m g tid v, Keeps noFlag (only T.out) own u m (T.result g tid v)
  roots : T.roots ≠ T.out
  tileIndex : ∀ n < 1024, u n = n
  index : ∀ g ∈ gs, ∀ tid < T.n, ∀ k < 8, u (T.off g tid + k) = pos g tid * 8 + k
  inj : ∀ g ∈ gs, ∀ g' ∈ gs, ∀ tid < T.n, ∀ tid' < T.n, pos g tid = pos g' tid' →
    g = g' ∧ tid = tid'

/-! ### What a group leaves -/

section Run
variable {T : Transform} {u : ℕ → ℕ} {gs : List (ℕ × ℕ)} {pos : ℕ × ℕ → ℕ → ℕ} {m : GroupMem}
  {g : ℕ × ℕ} {shared : ℕ → Fr}

theorem stores_nil {α : Type} {out : Buf → Bool} {mem : Mem} {x : Shader α}
    (h : ∀ own, Keeps noFlag out own u mem x) : x.stores u mem = [] :=
  List.eq_nil_iff_forall_not_mem.mpr fun s hs => ((h fun _ _ _ => False).stored s hs).2

theorem Fits.stores_tile (h : T.Fits u gs pos) (mem : Mem) : (T.tile shared g).stores u mem = [] := by
  rw [tile, stores_bind, stores_gather_nil fun tid _ => ?_, List.nil_append]
  · exact stores_foldlM (fun tile len _ => stores_butterflyStage u _ _ _ tile len) _
  · rw [stores_bind, stores_nil fun own => h.entry own mem g tid]
    rfl

theorem Fits.place_lt_tile (h : T.Fits u gs pos) {tid : ℕ} (htid : tid < T.n) :
    T.place tid < 128 := by
  obtain ⟨L, hL, hn⟩ := h.size
  calc T.place tid < T.n := h.place_lt tid htid
    _ = 2 ^ L := hn
    _ ≤ 2 ^ 7 := Nat.pow_le_pow_right (by decide) hL

/-- The tile after the first barrier. -/
theorem Fits.load_run (h : T.Fits u gs pos) :
    let m' : GroupMem :=
      (each (List.range circulantSize) (loadLane T.n T.place (T.entry g) g)).exec u m
    tileAt m' g = Shared.write (tileAt m g)
        (T.lanes.map fun tid => (T.place tid, (T.entry g tid).val u m.buffers)) ∧
      m'.buffers = m.buffers := by
  have hexec := @exec_lanes u m g T.n (loadLane T.n T.place (T.entry g) g)
    (fun tid => [(T.place tid, (T.entry g tid).val u m.buffers)])
    fun tid => stores_loadLane (stores_nil fun own => h.entry own m.buffers g tid)
  rw [← List.map_eq_flatMap] at hexec
  simp only [hexec]
  refine ⟨tileAt_writes h.tileIndex fun p hp => ?_, buffers_writes _⟩
  obtain ⟨tid, htid, rfl⟩ := List.mem_map.mp hp
  exact h.place_lt_tile (of_decide_eq_true (List.mem_filter.mp htid).2)

/-- One stage, from barrier to barrier. -/
theorem Fits.stage_run (h : T.Fits u gs pos) {len : ℕ} (hlen : len ∈ stageLens T.n) (m : GroupMem) :
    let m' : GroupMem := (each (List.range circulantSize)
      (butterflyLane T.roots T.n T.rootStride len g)).exec u m
    tileAt m' g = (butterflyStage T.roots T.n T.rootStride (tileAt m g) len).val u m.buffers ∧
      m'.buffers = m.buffers := by
  obtain ⟨L, hL, hn⟩ := h.size
  rw [hn] at hlen ⊢
  obtain ⟨s, hs, rfl⟩ := mem_stageLens hlen
  have hexec := @exec_lanes u m g (2 ^ L >>> 1)
    (butterflyLane T.roots (2 ^ L) T.rootStride (2 <<< s) g) _
    fun tid => stores_butterflyLane h.tileIndex hL hs
  simp only [hexec]
  refine ⟨(tileAt_writes h.tileIndex fun p hp => ?_).trans ?_, buffers_writes _⟩
  · obtain ⟨tid, htid, hp⟩ := List.mem_flatMap.mp hp
    have hlt := lowEnd_lt hL hs (of_decide_eq_true (List.mem_filter.mp htid).2)
    simp only [butterflyThread, val_bind, val_pure, half_len, lowEnd_eq, List.mem_cons,
      List.not_mem_nil, or_false] at hp
    rcases hp with rfl | rfl
    · exact Nat.lt_of_add_right_lt hlt
    · exact hlt
  · rw [butterflyStage, val_bind, val_pure, val_gather, ← List.flatMap_def]

theorem Fits.stages_run (h : T.Fits u gs pos) {lens : List ℕ}
    (hlens : ∀ len ∈ lens, len ∈ stageLens T.n) (m : GroupMem) :
    let m' : GroupMem := runPhases u (List.range circulantSize)
      (lens.map fun len => butterflyLane T.roots T.n T.rootStride len g) m
    tileAt m' g = (lens.foldlM (butterflyStage T.roots T.n T.rootStride) (tileAt m g)).val u
      m.buffers ∧ m'.buffers = m.buffers := by
  induction lens generalizing m with
  | nil => exact ⟨rfl, rfl⟩
  | cons len lens ih =>
    obtain ⟨htile, hbuffers⟩ := h.stage_run (g := g) (hlens len List.mem_cons_self) m
    obtain ⟨htiles, hkept⟩ := ih (fun len' hlen => hlens len' (List.mem_cons_of_mem len hlen))
      ((each (List.range circulantSize) (butterflyLane T.roots T.n T.rootStride len g)).exec u m)
    rw [htile, hbuffers] at htiles
    exact ⟨htiles, hkept.trans hbuffers⟩

/-- What the threads store after the last barrier. -/
theorem Fits.store_run (h : T.Fits u gs pos) (m : GroupMem) :
    GroupMem.buffers ((each (List.range circulantSize)
        (storeLane T.n T.out (T.off g) (T.result g) g)).exec u m) =
      (T.store (tileAt m g) g).exec u m.buffers := by
  have hstores : ∀ tid ∈ List.range circulantSize,
      (storeLane T.n T.out (T.off g) (T.result g) g tid).stores u m = if tid < T.n then
        (((do
          let v ← T.result g tid (tileAt m g tid)
          frStore T.out (T.off g tid) v) : Shader Unit).stores u m.buffers).map fun s =>
            ⟨⟨.inl s.buf, s.width, s.idx, s.owner⟩, s.val⟩
      else [] := fun tid htid => by
    unfold storeLane
    split_ifs
    · rw [stores_bind, val_tileLoad h.tileIndex (List.mem_range.mp htid)]
      exact List.map_append.symm
    · rfl
  rw [exec, exec, store, stores_each, stores_each, List.flatMap_congr hstores, flatMap_if,
    ← List.map_flatMap]
  exact applyAll_onto Sum.inl_injective _ m

/-- The phases of one group come to the kernel with its threads in step. -/
theorem Fits.kernel_run (h : T.Fits u gs pos) :
    GroupMem.buffers (runPhases u (List.range circulantSize) (T.phases g) m) =
      (T.kernel (tileAt m g) g).exec u m.buffers := by
  obtain ⟨htile, hbuffers⟩ := h.load_run (g := g) (m := m)
  obtain ⟨htiles, hkept⟩ := h.stages_run (g := g) (fun _ hlen => hlen)
    ((each (List.range circulantSize) (loadLane T.n T.place (T.entry g) g)).exec u m)
  rw [htile, hbuffers] at htiles
  rw [hbuffers] at hkept
  have hstore := h.store_run (g := g) (runPhases u (List.range circulantSize)
    ((stageLens T.n).map fun len => butterflyLane T.roots T.n T.rootStride len g)
    ((each (List.range circulantSize) (loadLane T.n T.place (T.entry g) g)).exec u m))
  rw [htiles, hkept] at hstore
  rw [exec, kernel, stores_bind, h.stores_tile, List.nil_append, phases, runPhases,
    List.foldl_append, List.foldl_append]
  exact hstore

end Run

/-! ### No races between barriers -/

/-- The elements of a thread: those of its slots of the tile and of its element of the output. -/
def laneOwn (n : ℕ) (pos : ℕ × ℕ → ℕ → ℕ) (mine : ℕ → ℕ → Prop) (g : ℕ × ℕ) (tid : ℕ) :
    GroupBuf → ℕ → ℕ → Prop
  | .inl _, w, i => w = 4 ∧ tid < n ∧ i / 8 = pos g tid
  | .inr g', w, i => g' = g ∧ w = 4 ∧ mine tid (i / 8)

/-- The elements of a group. -/
def groupOwn (n : ℕ) (pos : ℕ × ℕ → ℕ → ℕ) (g : ℕ × ℕ) : GroupBuf → ℕ → ℕ → Prop
  | .inl _, w, i => w = 4 ∧ ∃ tid < n, i / 8 = pos g tid
  | .inr g', w, _ => g' = g ∧ w = 4

/-- The buffers that are stored to: the output and the tiles. -/
def stored (out : Buf) : GroupBuf → Bool
  | .inl b => only out b
  | .inr _ => true

section Races
variable {T : Transform} {u : ℕ → ℕ} {gs : List (ℕ × ℕ)} {pos : ℕ × ℕ → ℕ → ℕ} {m : GroupMem}
  {g : ℕ × ℕ} {n tid : ℕ} {mine : ℕ → ℕ → Prop}

theorem keeps_tileLoad {out : Buf} (hu : ∀ n < 1024, u n = n) {j : ℕ} (hj : j < 128)
    (hmine : mine tid j) :
    Keeps (fun _ => false) (stored out) (laneOwn n pos mine g tid) u m (tileLoad g j) := by
  refine keeps_loadWords (fun _ _ h => Limbs.ofFn_congr fun k hk => by rw [h k hk]) rfl
    fun _ k hk => ⟨rfl, rfl, ?_⟩
  rw [frWords, hu _ (by omega), block_div hk]
  exact hmine

theorem keeps_tileStore {out : Buf} (hu : ∀ n < 1024, u n = n) {j : ℕ} (hj : j < 128)
    (hmine : mine tid j) (v : Fr) :
    Keeps (fun _ => false) (stored out) (laneOwn n pos mine g tid) u m (tileStore g j v) := by
  refine keeps_storeWords rfl rfl fun k hk => ⟨rfl, rfl, ?_⟩
  rw [frWords, hu _ (by omega), block_div hk]
  exact hmine

theorem Fits.keeps_loadLane (h : T.Fits u gs pos) : Keeps (fun _ => false) (stored T.out)
    (laneOwn T.n pos (fun tid j => tid < T.n ∧ j = T.place tid) g tid) u m
    (loadLane T.n T.place (T.entry g) g tid) := by
  unfold loadLane
  split_ifs with htid
  · exact keeps_bind (keeps_onto (h.entry _ _ g tid))
      (keeps_tileStore h.tileIndex (h.place_lt_tile htid) ⟨htid, rfl⟩ _)
  · exact keeps_pure ()

theorem Fits.keeps_butterflyLane (h : T.Fits u gs pos) {L s : ℕ} (hL : L ≤ 7) (hs : s < L) :
    Keeps (fun _ => false) (stored T.out) (laneOwn T.n pos (fun tid j => tid < 2 ^ L >>> 1 ∧
      (j = lowEnd s tid ∨ j = lowEnd s tid + 2 ^ s)) g tid) u m
      (butterflyLane T.roots (2 ^ L) T.rootStride (2 <<< s) g tid) := by
  unfold butterflyLane
  split_ifs with htid
  · have hlt := lowEnd_lt hL hs htid
    have hlow := Nat.lt_of_add_right_lt hlt
    simp only [half_len, lowEnd_eq]
    refine keeps_bind (keeps_onto (keeps_limbsLoad rfl fun hout => ?_)) ?_
    · exact absurd (eq_of_beq hout) h.roots
    · exact keeps_bind (keeps_tileLoad h.tileIndex hlow ⟨htid, .inl rfl⟩)
        (keeps_bind (keeps_tileLoad h.tileIndex hlt ⟨htid, .inr rfl⟩)
          (keeps_bind (keeps_tileStore h.tileIndex hlow ⟨htid, .inl rfl⟩ _)
            (keeps_tileStore h.tileIndex hlt ⟨htid, .inr rfl⟩ _)))
  · exact keeps_pure ()

theorem Fits.keeps_storeLane (h : T.Fits u gs pos) (hg : g ∈ gs) (htid : tid < 128) :
    Keeps (fun _ => false) (stored T.out) (laneOwn T.n pos (fun tid j => j = tid) g tid) u m
      (storeLane T.n T.out (T.off g) (T.result g) g tid) := by
  unfold storeLane
  split_ifs with hlt
  · refine keeps_bind (keeps_tileLoad h.tileIndex htid rfl) (keeps_bind
      (keeps_onto (h.result _ _ g tid _)) (keeps_onto (keeps_limbsStore rfl (beq_self_eq_true T.out) fun k hk => ⟨rfl, hlt, ?_⟩)))
    rw [h.index g hg tid hlt k hk, block_div hk]
  · exact keeps_pure ()

theorem lowEnd_slot {s j : ℕ} (h : j = lowEnd s tid ∨ j = lowEnd s tid + 2 ^ s) :
    j / (2 * 2 ^ s) * 2 ^ s + j % 2 ^ s = tid := by
  have hmod : tid % 2 ^ s < 2 ^ s := Nat.mod_lt tid (Nat.two_pow_pos s)
  have hlow : j / (2 * 2 ^ s) = tid / 2 ^ s ∧ j % 2 ^ s = tid % 2 ^ s := by
    rcases h with rfl | rfl
    · refine ⟨block_div (by omega), ?_⟩
      rw [lowEnd, ← Nat.mul_assoc, Nat.mul_add_mod_of_lt hmod]
    · refine ⟨?_, ?_⟩
      · rw [lowEnd, Nat.add_assoc]
        exact block_div (by omega)
      · rw [Nat.add_mod_right, lowEnd, ← Nat.mul_assoc, Nat.mul_add_mod_of_lt hmod]
  rw [hlow.1, hlow.2, Nat.div_add_mod']

/-- In each phase every slot of the tile is at most one thread's. -/
theorem Fits.lane (h : T.Fits u gs pos) (hg : g ∈ gs) {f : Phase GroupBuf ℕ} (hf : f ∈ T.phases g) :
    ∃ mine : ℕ → ℕ → Prop, (∀ tid tid' j, mine tid j → mine tid' j → tid = tid') ∧
      ∀ m, ∀ tid < 128, Keeps (fun _ => false) (stored T.out) (laneOwn T.n pos mine g tid) u m
        (f tid) := by
  simp only [phases, List.mem_append, List.mem_singleton, List.mem_map] at hf
  rcases hf with (rfl | ⟨len, hlen, rfl⟩) | rfl
  · refine ⟨_, fun tid tid' j hj hj' => ?_, fun m tid _ => h.keeps_loadLane⟩
    exact h.place_inj tid hj.1 tid' hj'.1 (hj.2.symm.trans hj'.2)
  · obtain ⟨L, hL, hn⟩ := h.size
    rw [hn] at hlen ⊢
    obtain ⟨s, hs, rfl⟩ := mem_stageLens hlen
    refine ⟨_, fun tid tid' j hj hj' => ?_, fun m tid _ => hn ▸ h.keeps_butterflyLane hL hs⟩
    exact (lowEnd_slot hj.2).symm.trans (lowEnd_slot hj'.2)
  · exact ⟨_, fun tid tid' j hj hj' => hj.symm.trans hj', fun m tid htid => h.keeps_storeLane hg htid⟩

/-- The groups keep apart, and so do the threads of a group from one barrier to the next. -/
theorem Fits.separate (h : T.Fits u gs pos) (m : GroupMem) :
    Separate u (List.range circulantSize) gs T.phases (stored T.out) (groupOwn T.n pos) m where
  nodup := List.nodup_range
  apart g hg g' hg' hne b w n w' n' _ hown hown' := by
    cases b with
    | inl b =>
      obtain ⟨hw, tid, htid, hn⟩ := hown
      obtain ⟨hw', tid', htid', hn'⟩ := hown'
      refine ⟨hw.trans hw'.symm, fun heq => hne (h.inj g hg g' hg' tid htid tid' htid' ?_).1⟩
      rw [← hn, ← hn', heq]
    | inr t => exact absurd (hown.1.symm.trans hown'.1) hne
  keeps g hg f hf tid htid view _ := by
    obtain ⟨mine, -, hkeeps⟩ := h.lane hg hf
    refine keeps_mono (hkeeps view tid (List.mem_range.mp htid)) fun b w n _ hown => ?_
    cases b with
    | inl b => exact ⟨hown.1, tid, hown.2⟩
    | inr t => exact ⟨hown.1, hown.2.1⟩
  free g hg f hf view _ := by
    obtain ⟨mine, hmine, hkeeps⟩ := h.lane hg hf
    refine raceFree_of_keeps List.nodup_range
      (fun tid htid => hkeeps view tid (List.mem_range.mp htid))
      fun tid htid tid' htid' hne b w n w' n' _ hown hown' => ?_
    cases b with
    | inl b =>
      obtain ⟨hw, hlt, hn⟩ := hown
      obtain ⟨hw', hlt', hn'⟩ := hown'
      refine ⟨hw.trans hw'.symm, fun heq => hne (h.inj g hg g hg tid hlt tid' hlt' ?_).2⟩
      rw [← hn, ← hn', heq]
    | inr t =>
      exact ⟨hown.2.1.trans hown'.2.1.symm, fun heq => hne (hmine _ _ _ hown.2.2 (heq ▸ hown'.2.2))⟩

theorem Fits.keeps_kernel (h : T.Fits u gs pos) (hg : g ∈ gs) (shared : ℕ → Fr) (mem : Mem) :
    Keeps noFlag (only T.out) (fun b => groupOwn T.n pos g (.inl b)) u mem (T.kernel shared g) := by
  have hroots : only T.out T.roots = false := beq_false_of_ne h.roots
  have htile : Keeps noFlag (only T.out) (fun b => groupOwn T.n pos g (.inl b)) u mem
      (T.tile shared g) := by
    refine keeps_bind (keeps_gather fun tid _ => keeps_bind (h.entry _ mem g tid) (keeps_pure _)) ?_
    exact keeps_foldlM (fun tile len _ => keeps_butterflyStage hroots _ _ len tile) _
  refine keeps_bind htile (keeps_each fun tid htid => keeps_bind (h.result _ mem g tid _)
    (keeps_limbsStore rfl (beq_self_eq_true T.out) fun k hk => ⟨rfl, tid, ?_⟩))
  have htid : tid < T.n := of_decide_eq_true (List.mem_filter.mp htid).2
  rw [h.index g hg tid htid k hk, block_div hk]
  exact ⟨htid, rfl⟩

/-- The threads can always go on to the end of the kernel, and however they run between barriers, the
buffers end as the kernel leaves them with the threads of each group in step. -/
theorem Fits.runs (h : T.Fits u gs pos) (hgs : gs.Nodup) (m : GroupMem) :
    (∃ m', Barriered u (List.range circulantSize) gs T.phases m m') ∧
    (∀ σ, Relation.ReflTransGen (GroupStep u (List.range circulantSize)) (.start gs T.phases m) σ →
      ¬σ.Finished → ∃ σ', GroupStep u (List.range circulantSize) σ σ') ∧
    ∀ m', Barriered u (List.range circulantSize) gs T.phases m m' →
      GroupMem.buffers m' = (each gs fun g => T.kernel (tileAt m g) g).exec u m.buffers := by
  obtain ⟨hend, hgo, hleft⟩ := (h.separate m).runs
  refine ⟨hend, hgo, fun m' hm' => ?_⟩
  obtain ⟨howned, hother⟩ := hleft m' hm'
  have hkeeps : ∀ g ∈ gs, Keeps (fun _ => false) (only T.out) (fun b => groupOwn T.n pos g (.inl b)) u
      m.buffers (T.kernel (tileAt m g) g) := fun g hg => h.keeps_kernel hg _ _
  funext b k
  by_cases hown : ∃ g ∈ gs, OwnByte (only T.out) (fun b => groupOwn T.n pos g (.inl b)) b k
  · obtain ⟨g, hg, hown⟩ := hown
    calc m' (.inl b) k = GroupMem.buffers (runPhases u _ (T.phases g) m) b k := howned g hg _ k hown
      _ = (T.kernel (tileAt m g) g).exec u m.buffers b k := by rw [h.kernel_run]
      _ = (each gs fun g => T.kernel (tileAt m g) g).exec u m.buffers b k :=
        (exec_each_own hgs hkeeps (fun g hg g' hg' hne b =>
          (h.separate m).apart g hg g' hg' hne (.inl b)) hg hown).symm
  · have hnone : ∀ g ∈ gs, ¬OwnByte (only T.out) (fun b => groupOwn T.n pos g (.inl b)) b k :=
      fun g hg hin => hown ⟨g, hg, hin⟩
    exact (hother (.inl b) k hnone).trans
      (byte_others (fun g hg => ⟨hkeeps g hg, hnone g hg⟩) m.buffers).symm

end Races

/-- The memory a dispatch leaves after a run of its groups with barriers, where `shared` is what
workgroup memory holds before. -/
def Leaves (T : Transform) (u : ℕ → ℕ) (gs : List (ℕ × ℕ)) (shared : ℕ × ℕ → ℕ → Fr) (m m' : Mem) :
    Prop :=
  ∃ M M' : GroupMem, M.buffers = m ∧ (∀ g ∈ gs, tileAt M g = shared g) ∧
    Barriered u (List.range circulantSize) gs T.phases M M' ∧ M'.buffers = m'

theorem exists_tiles (m : Mem) (shared : ℕ × ℕ → ℕ → Fr) :
    ∃ M : GroupMem, M.buffers = m ∧ ∀ g, tileAt M g = shared g := by
  refine ⟨Sum.elim m fun g i => byteOf (limbWords (shared g (i / 32)) (i % 32 / 4)) (i % 4), rfl,
    fun g => funext fun j => limbsOf_eq fun k hk => ?_⟩
  rw [← Nat.mod_eq_of_lt (limbWords_lt (shared g j) k), ← bytesValue_byteOf]
  refine bytesValue_congr fun i hi => ?_
  have h1 : (4 * (j * frWords + k) + i) / 32 = j := by simp only [frWords]; omega
  have h2 : (4 * (j * frWords + k) + i) % 32 / 4 = k := by simp only [frWords]; omega
  have h3 : (4 * (j * frWords + k) + i) % 4 = i := by simp only [frWords]; omega
  rw [Sum.elim_inr, h1, h2, h3]

theorem Fits.leaves_iff {T : Transform} {u : ℕ → ℕ} {gs : List (ℕ × ℕ)} {pos : ℕ × ℕ → ℕ → ℕ}
    (h : T.Fits u gs pos) (hgs : gs.Nodup) {shared : ℕ × ℕ → ℕ → Fr} {m m' : Mem} :
    T.Leaves u gs shared m m' ↔ m' = (each gs fun g => T.kernel (shared g) g).exec u m := by
  have hleft : ∀ M M' : GroupMem, M.buffers = m → (∀ g ∈ gs, tileAt M g = shared g) →
      Barriered u (List.range circulantSize) gs T.phases M M' →
      M'.buffers = (each gs fun g => T.kernel (shared g) g).exec u m := fun M M' hm htile hrun => by
    rw [(h.runs hgs M).2.2 M' hrun, hm, exec, exec, stores_each, stores_each]
    congr 1
    exact List.flatMap_congr fun g hg => by rw [htile g hg]
  constructor
  · rintro ⟨M, M', hm, htile, hrun, rfl⟩
    exact hleft M M' hm htile hrun
  · rintro rfl
    obtain ⟨M, hm, htile⟩ := exists_tiles m shared
    obtain ⟨M', hrun⟩ := (h.runs hgs M).1
    exact ⟨M, M', hm, fun g _ => htile g, hrun, hleft M M' hm (fun g _ => htile g) hrun⟩

end Transform

def nttTransform (pc : NttPC) : Transform where
  n := pc.n
  place tid := brev tid pc.logN
  entry g tid := frLoad pc.inp
    (g.1 * pc.inBatch * frWords + (g.2 * pc.inStrideT + tid * pc.inStrideI) * frWords)
  roots := pc.roots
  rootStride := pc.rootStride
  out := pc.out
  off g tid := g.1 * pc.outBatch * frWords + (g.2 * pc.outStrideT + tid * pc.outStrideI) * frWords
  result g tid v := nttResult pc (fun _ => v) g.2 tid

def circulantTransform (coeffsBuf polyBuf rootsBuf : Buf) : Transform where
  n := circulantSize
  place tid := brev tid logCirculant
  entry g tid := circulantEntry polyBuf g.2 g.1 tid
  roots := rootsBuf
  rootStride := fieldElementsPerExtBlob / circulantSize
  out := coeffsBuf
  off g tid := (g.1 * circulantSize * phaseATerms + tid * phaseATerms + g.2) * frWords
  result _ _ v := pure v

/-- The kernels with the threads of a group in step are those of the passes. -/
theorem kernel_nttTransform (pc : NttPC) (shared : ℕ → Fr) (g : ℕ × ℕ) :
    (nttTransform pc).kernel shared g = kNttPass pc shared g.2 g.1 := rfl

theorem kernel_circulantTransform (coeffsBuf polyBuf rootsBuf : Buf) (shared : ℕ → Fr)
    (g : ℕ × ℕ) : (circulantTransform coeffsBuf polyBuf rootsBuf).kernel shared g =
      kBuildCirculant coeffsBuf polyBuf rootsBuf shared g.2 g.1 := by
  have hlanes : (circulantTransform coeffsBuf polyBuf rootsBuf).lanes = List.range circulantSize :=
    filter_lt_range le_rfl
  simp only [Transform.kernel, Transform.store, Transform.tile, hlanes]
  rfl

/-! ### The passes -/

section Passes
variable {u : ℕ → ℕ} {batch : ℕ}

/-- Where thread `tid` of a group stores, with `count` groups for each `N` elements. -/
def groupPos (N count : ℕ) (g : ℕ × ℕ) (tid : ℕ) : ℕ := g.1 * N + (tid * count + g.2)

section Position
variable {n count N : ℕ} {g g' : ℕ × ℕ} {tid tid' : ℕ}

theorem groupSlot_lt (hsize : n * count ≤ N) (hg : g ∈ List.range batch ×ˢ List.range count)
    (htid : tid < n) : tid * count + g.2 < N :=
  (block_lt htid (List.mem_range.mp (List.mem_product.mp hg).2)).trans_le hsize

theorem groupPos_inj (hsize : n * count ≤ N) (hg : g ∈ List.range batch ×ˢ List.range count)
    (hg' : g' ∈ List.range batch ×ˢ List.range count) (htid : tid < n) (htid' : tid' < n)
    (heq : groupPos N count g tid = groupPos N count g' tid') : g = g' ∧ tid = tid' := by
  obtain ⟨hrow, hslot⟩ := block_inj (groupSlot_lt hsize hg htid) (groupSlot_lt hsize hg' htid') heq
  obtain ⟨htids, hcol⟩ := block_inj (List.mem_range.mp (List.mem_product.mp hg).2)
    (List.mem_range.mp (List.mem_product.mp hg').2) hslot
  exact ⟨Prod.ext hrow hcol, htids⟩

theorem groupPos_exact (hu : ∀ n < batch * (N * 8), u n = n) (hsize : n * count ≤ N)
    (hg : g ∈ List.range batch ×ˢ List.range count) (htid : tid < n) {k : ℕ} (hk : k < 8) :
    u (groupPos N count g tid * 8 + k) = groupPos N count g tid * 8 + k := by
  have hrow : g.1 < batch := List.mem_range.mp (List.mem_product.mp hg).1
  exact hu _ ((Nat.mul_assoc batch _ 8) ▸ block_lt (block_lt hrow (groupSlot_lt hsize hg htid)) hk)

end Position

/-- Both passes store output `t + tid * count` in group `t`. -/
theorem fits_ntt {out inp roots : Buf} {params : NttParams} {L count : ℕ} (hL : L ≤ 7)
    (hn : params.n = 2 ^ L) (hlog : params.logN = L) (hinp : inp ≠ out) (hroots : roots ≠ out)
    (hT : params.outStrideT = 1) (hI : params.outStrideI = count)
    (hsize : params.n * count ≤ params.outBatch) (htile : ∀ n < 1024, u n = n)
    (hu : ∀ n < batch * (params.outBatch * 8), u n = n) :
    (nttTransform ⟨params, out, inp, roots⟩).Fits u (List.range batch ×ˢ List.range count)
      (groupPos params.outBatch count) := by
  have hrev : ∀ i < params.n, brev (brev i params.logN) params.logN = i := fun i hi =>
    brev_brev (by omega) (by rwa [hlog, ← hn])
  refine ⟨⟨L, hL, hn⟩, ?_, ?_, ?_, ?_, hroots, htile, ?_, fun g hg g' hg' tid htid tid' htid' =>
    groupPos_inj hsize hg hg' htid htid'⟩
  · intro tid _
    show brev tid params.logN < params.n
    rw [hlog, hn]
    exact brev_lt (by omega)
  · intro tid htid tid' htid' heq
    rw [← hrev tid htid, ← hrev tid' htid']
    exact congrArg (brev · params.logN) heq
  · intro own m g tid
    show Keeps noFlag (only out) own u m (frLoad inp _)
    exact keeps_limbsLoad rfl fun hout => absurd (eq_of_beq hout) hinp
  · intro own m g tid v
    show Keeps noFlag (only out) own u m (nttResult ⟨params, out, inp, roots⟩ (fun _ => v) g.2 tid)
    exact keeps_nttResult (beq_false_of_ne hroots)
  · intro g hg tid htid k hk
    have hindex : g.1 * params.outBatch * frWords +
        (g.2 * params.outStrideT + tid * params.outStrideI) * frWords + k =
          groupPos params.outBatch count g tid * 8 + k := by
      rw [hT, hI, frWords, groupPos]
      ring
    exact (congrArg u hindex).trans (groupPos_exact hu hsize hg htid hk)

theorem fits_circulant {coeffsBuf polyBuf rootsBuf : Buf} (hpoly : polyBuf ≠ coeffsBuf)
    (hroots : rootsBuf ≠ coeffsBuf) (htile : ∀ n < 1024, u n = n)
    (hu : ∀ n < batch * (8192 * 8), u n = n) :
    (circulantTransform coeffsBuf polyBuf rootsBuf).Fits u
      (List.range batch ×ˢ List.range phaseATerms) (groupPos 8192 phaseATerms) := by
  refine ⟨⟨7, le_rfl, rfl⟩, ?_, ?_, ?_, ?_, hroots, htile, ?_, fun g hg g' hg' tid htid tid' htid' =>
    groupPos_inj (n := 128) (by decide) hg hg' htid htid'⟩
  · intro tid _
    exact brev_lt (L := 7) (by decide)
  · intro tid htid tid' htid' heq
    rw [← brev_brev (L := 7) (by decide) htid, ← brev_brev (L := 7) (by decide) htid']
    exact congrArg (brev · 7) heq
  · intro own m g tid
    exact keeps_circulantEntry (beq_false_of_ne hpoly)
  · intro own m g tid v
    exact keeps_pure v
  · intro g hg tid htid k hk
    have hindex : (g.1 * circulantSize * phaseATerms + tid * phaseATerms + g.2) * frWords + k =
        groupPos 8192 phaseATerms g tid * 8 + k := by
      simp only [circulantSize, phaseATerms, frWords, groupPos]
      ring
    exact (congrArg u hindex).trans (groupPos_exact hu (n := 128) (by decide) hg htid hk)

/-- A pass of a transform thread by thread: it can come to its end, until then some step can be made,
and the buffers end as the pass leaves them with the threads of each group in step. -/
theorem nttPass_threads {out inp roots : Buf} {params : NttParams} {L count : ℕ} (hL : L ≤ 7)
    (hn : params.n = 2 ^ L) (hlog : params.logN = L) (hinp : inp ≠ out) (hroots : roots ≠ out)
    (hT : params.outStrideT = 1) (hI : params.outStrideI = count)
    (hsize : params.n * count ≤ params.outBatch) (htile : ∀ n < 1024, u n = n)
    (hu : ∀ n < batch * (params.outBatch * 8), u n = n) (m : GroupMem) :
    let gs := List.range batch ×ˢ List.range count
    let phases := (nttTransform ⟨params, out, inp, roots⟩).phases
    let threads := List.range circulantSize
    (∃ m', Barriered u threads gs phases m m') ∧
    (∀ σ, Relation.ReflTransGen (GroupStep u threads) (.start gs phases m) σ → ¬σ.Finished →
      ∃ σ', GroupStep u threads σ σ') ∧
    ∀ m', Barriered u threads gs phases m m' → GroupMem.buffers m' =
      (recordNtt out inp roots params count batch fun t b => tileAt m (b, t)).exec u m.buffers := by
  intro gs phases threads
  obtain ⟨hend, hgo, hleft⟩ := (fits_ntt hL hn hlog hinp hroots hT hI hsize htile hu).runs
    (List.nodup_range.product List.nodup_range) m
  have hcuts : Cuts u (nttGrid out inp roots params count batch fun t b => tileAt m (b, t))
      (recordNtt out inp roots params count batch fun t b => tileAt m (b, t)) := cuts_groups _
  exact ⟨hend, hgo, fun m' hm' => (hleft m' hm').trans (hcuts m.buffers)⟩

/-- The first pass of the transform of a blob. -/
theorem nttPass_threads_blob : ∃ m', Barriered uint32 (List.range circulantSize)
    (List.range 1 ×ˢ List.range 64)
    (nttTransform ⟨nttPass1 4096 64 64 4096 8192, .workA, .lagrange, .rootsInv⟩).phases
    (fun _ _ => 0) m' ∧ GroupMem.buffers m' = (recordNtt .workA .lagrange .rootsInv
      (nttPass1 4096 64 64 4096 8192) 64 1 fun t b => tileAt (fun _ _ => 0) (b, t)).exec uint32
        fun _ _ => 0 := by
  have h := @nttPass_threads uint32 1 .workA .lagrange .rootsInv (nttPass1 4096 64 64 4096 8192) 6 64
    (by decide) rfl rfl (by decide) (by decide) rfl rfl (by decide)
    (fun n hn => uint32_of_lt (by omega)) (fun n hn => uint32_of_lt (hn.trans (by decide)))
    fun _ _ => 0
  obtain ⟨m', hrun⟩ := h.1
  exact ⟨m', hrun, h.2.2 m' hrun⟩

end Passes

end Vkzg
