import Vkzg.Shaders.G1
import Vkzg.Library.Footprint

/-! The buffers of a prover and the typed loads and stores of `field.glsl.inc`, with the view of
memory each of them has: field elements, Jacobian points and affine points by element index. -/

namespace Vkzg
open Radix Gpu Gpu.Kernel

inductive Buf
  | table | rootsFwd | rootsInv
  | kernelItemsPlus | kernelOffsetsPlus | kernelPermPlus
  | kernelItemsMinus | kernelOffsetsMinus | kernelPermMinus
  | cosetShiftFwd | cosetShiftInv | invExtBlob
  | blob | lagrange | workA | polyExt | coeffs | buckets | items | starts | perm | points | proofs
  | ladderJac | ladderJacFolded | ladderAff | proofsAff | proofBytes | normScratch | err
  | recMissing | recScratch | recBrp | recZCoeff | recZEval | recEZEval | recEZCoeff
  | recShiftedA | recCosetA | recCosetB | recPCoset | recPCoeffU | recPCoeff | recPFull | recOut
deriving DecidableEq, Repr

abbrev Mem := Memory Buf
abbrev Shader := Kernel Buf

/-- What a 32-bit unsigned expression evaluates to. -/
def uint32 (n : ℕ) : ℕ := n % 2 ^ 32

theorem uint32_of_lt {n : ℕ} (h : n < 2 ^ 32) : uint32 n = n := Nat.mod_eq_of_lt h

/-! ### Loads and stores -/

def limbsOf (n : ℕ) (words : ℕ → ℕ) : Limbs n := Limbs.ofFn n fun k => UInt32.ofNat (words k)

def limbWords {n : ℕ} (a : Limbs n) (k : ℕ) : ℕ := (a.get k).toNat

def limbsLoad (n : ℕ) (buf : Buf) (off : ℕ) : Shader (Limbs n) :=
  limbsOf n <$> loadWords 4 n buf off

def limbsStore {n : ℕ} (buf : Buf) (off : ℕ) (a : Limbs n) : Shader Unit :=
  storeWords 4 n buf off (limbWords a)

def fpLoad (buf : Buf) (off : ℕ) : Shader Fp := limbsLoad 12 buf off

def fpStore (buf : Buf) (off : ℕ) (a : Fp) : Shader Unit := limbsStore buf off a

def frLoad (buf : Buf) (off : ℕ) : Shader Fr := limbsLoad 8 buf off

def frStore (buf : Buf) (off : ℕ) (a : Fr) : Shader Unit := limbsStore buf off a

def g1aLoad (buf : Buf) (off : ℕ) : Shader G1A := do
  let x ← fpLoad buf off
  let y ← fpLoad buf (off + 12)
  pure ⟨x, y⟩

def g1Load (buf : Buf) (off : ℕ) : Shader G1 := do
  let x ← fpLoad buf off
  let y ← fpLoad buf (off + 12)
  let z ← fpLoad buf (off + 2 * 12)
  pure ⟨x, y, z⟩

def g1Store (buf : Buf) (off : ℕ) (a : G1) : Shader Unit := do
  fpStore buf off a.x
  fpStore buf (off + 12) a.y
  fpStore buf (off + 2 * 12) a.z

def g1aStore (buf : Buf) (off : ℕ) (a : G1A) : Shader Unit := do
  fpStore buf off a.x
  fpStore buf (off + 12) a.y

/-! ### Views of memory -/

/-- The limbs at a word offset. -/
def limbsAt (n : ℕ) (m : Mem) (buf : Buf) (off : ℕ) : Limbs n :=
  limbsOf n fun k => m.elem 4 buf (off + k)

def frAt (m : Mem) (buf : Buf) (i : ℕ) : Fr := limbsAt 8 m buf (i * 8)

def g1At (m : Mem) (buf : Buf) (i : ℕ) : G1 :=
  ⟨limbsAt 12 m buf (i * 36), limbsAt 12 m buf (i * 36 + 12), limbsAt 12 m buf (i * 36 + 24)⟩

def g1aAt (m : Mem) (buf : Buf) (i : ℕ) : G1A :=
  ⟨limbsAt 12 m buf (i * 24), limbsAt 12 m buf (i * 24 + 12)⟩

def g1Words (a : G1) (k : ℕ) : ℕ :=
  if k < 12 then limbWords a.x k else if k < 24 then limbWords a.y (k - 12)
  else limbWords a.z (k - 24)

def g1aWords (a : G1A) (k : ℕ) : ℕ := if k < 12 then limbWords a.x k else limbWords a.y (k - 12)

theorem limbWords_lt {n : ℕ} (a : Limbs n) (k : ℕ) : limbWords a k < 256 ^ 4 :=
  UInt32.toNat_lt _

theorem limbsOf_limbWords {n : ℕ} (a : Limbs n) : limbsOf n (limbWords a) = a := by
  simp only [limbsOf, limbWords, UInt32.ofNat_toNat]
  exact Limbs.ofFn_get a

theorem limbsOf_eq {n : ℕ} {words : ℕ → ℕ} {a : Limbs n} (h : ∀ k < n, words k = limbWords a k) :
    limbsOf n words = a := by
  rw [← limbsOf_limbWords a]
  exact Limbs.ofFn_congr fun k hk => by rw [h k hk]

theorem limbsAt_congr {n : ℕ} {m m' : Mem} {buf : Buf} (h : m' buf = m buf) (off : ℕ) :
    limbsAt n m' buf off = limbsAt n m buf off := by
  simp only [limbsAt, Memory.elem_congr h]

theorem frAt_congr {m m' : Mem} {buf : Buf} (h : m' buf = m buf) (i : ℕ) :
    frAt m' buf i = frAt m buf i := limbsAt_congr h _

theorem g1aAt_congr {m m' : Mem} {buf : Buf} (h : m' buf = m buf) (i : ℕ) :
    g1aAt m' buf i = g1aAt m buf i := by
  simp only [g1aAt, limbsAt_congr h]

section Values
variable (u : ℕ → ℕ) (m : Mem) (buf : Buf)

@[simp] theorem val_limbsLoad (n off : ℕ) :
    (limbsLoad n buf off).val id m = limbsAt n m buf off := rfl

@[simp] theorem val_fpLoad (off : ℕ) : (fpLoad buf off).val id m = limbsAt 12 m buf off := rfl

@[simp] theorem val_frLoad (i : ℕ) : (frLoad buf (i * 8)).val id m = frAt m buf i := rfl

@[simp] theorem val_g1Load (i : ℕ) : (g1Load buf (i * 36)).val id m = g1At m buf i := rfl

@[simp] theorem val_g1aLoad (i : ℕ) : (g1aLoad buf (i * 24)).val id m = g1aAt m buf i := rfl

@[simp] theorem stores_frLoad (off : ℕ) : (frLoad buf off).stores u m = [] := rfl
@[simp] theorem stores_fpLoad (off : ℕ) : (fpLoad buf off).stores u m = [] := rfl
@[simp] theorem stores_g1Load (off : ℕ) : (g1Load buf off).stores u m = [] := rfl
@[simp] theorem stores_g1aLoad (off : ℕ) : (g1aLoad buf off).stores u m = [] := rfl

@[simp] theorem stores_frStore (off : ℕ) (a : Fr) :
    (frStore buf off a).stores u m =
      (List.range 8).map fun k => ⟨⟨buf, 4, u (off + k), none⟩, limbWords a k⟩ := rfl

@[simp] theorem stores_fpStore (off : ℕ) (a : Fp) :
    (fpStore buf off a).stores u m =
      (List.range 12).map fun k => ⟨⟨buf, 4, u (off + k), none⟩, limbWords a k⟩ := rfl

@[simp] theorem stores_g1Store (off : ℕ) (a : G1) :
    (g1Store buf off a).stores u m =
      (List.range 36).map fun k => ⟨⟨buf, 4, u (off + k), none⟩, g1Words a k⟩ := by
  have hsplit : List.range 36 = List.range 12 ++ ((List.range 12).map (12 + ·) ++
      (List.range 12).map (24 + ·)) := rfl
  rw [hsplit, List.map_append, List.map_append, List.map_map, List.map_map]
  simp only [g1Store, stores_bind, stores_fpStore]
  refine congrArg₂ (· ++ ·) ?_ (congrArg₂ (· ++ ·) ?_ ?_)
  · exact List.map_congr_left fun k hk => by rw [g1Words, if_pos (List.mem_range.mp hk)]
  · refine List.map_congr_left fun k hk => ?_
    have := List.mem_range.mp hk
    simp [g1Words, show 12 + k < 24 by omega, add_assoc]
  · refine List.map_congr_left fun k _ => ?_
    simp [g1Words, show ¬24 + k < 12 by omega, add_assoc]

@[simp] theorem stores_g1aStore (off : ℕ) (a : G1A) :
    (g1aStore buf off a).stores u m =
      (List.range 24).map fun k => ⟨⟨buf, 4, u (off + k), none⟩, g1aWords a k⟩ := by
  have hsplit : List.range 24 = List.range 12 ++ (List.range 12).map (12 + ·) := rfl
  rw [hsplit, List.map_append, List.map_map]
  simp only [g1aStore, stores_bind, stores_fpStore]
  refine congrArg₂ (· ++ ·) ?_ ?_
  · exact List.map_congr_left fun k hk => by rw [g1aWords, if_pos (List.mem_range.mp hk)]
  · refine List.map_congr_left fun k _ => ?_
    simp [g1aWords, add_assoc]

end Values

/-! ### Footprints of loads and stores -/

section Footprints
variable {P : Access Buf → Prop} {u : ℕ → ℕ} {m : Mem} {buf : Buf} {off n : ℕ}

theorem within_limbsLoad (hu : ∀ k < n, u (off + k) = off + k)
    (hP : ∀ k < n, P ⟨buf, 4, off + k, none⟩) : Within P u m (limbsLoad n buf off) :=
  within_loadWords (fun _ _ h => Limbs.ofFn_congr fun k hk => by rw [h k hk]) hu hP

theorem within_limbsStore {a : Limbs n} (hu : ∀ k < n, u (off + k) = off + k)
    (hP : ∀ k < n, P ⟨buf, 4, off + k, none⟩) : Within P u m (limbsStore buf off a) :=
  within_storeWords hu hP

theorem within_g1aLoad (hu : ∀ k < 24, u (off + k) = off + k)
    (hP : ∀ k < 24, P ⟨buf, 4, off + k, none⟩) : Within P u m (g1aLoad buf off) := by
  refine within_bind (within_limbsLoad (fun k hk => hu k (by omega)) fun k hk => hP k (by omega))
    (within_bind (within_limbsLoad (fun k hk => ?_) fun k hk => ?_) (within_pure _))
  · rw [add_assoc, hu (12 + k) (by omega)]
  · rw [add_assoc]
    exact hP (12 + k) (by omega)

theorem within_g1aStore {a : G1A} (hu : ∀ k < 24, u (off + k) = off + k)
    (hP : ∀ k < 24, P ⟨buf, 4, off + k, none⟩) : Within P u m (g1aStore buf off a) := by
  refine within_bind (within_limbsStore (fun k hk => hu k (by omega)) fun k hk => hP k (by omega))
    (within_limbsStore (fun k hk => ?_) fun k hk => ?_)
  · rw [add_assoc, hu (12 + k) (by omega)]
  · rw [add_assoc]
    exact hP (12 + k) (by omega)

theorem within_g1Load (hu : ∀ k < 36, u (off + k) = off + k)
    (hP : ∀ k < 36, P ⟨buf, 4, off + k, none⟩) : Within P u m (g1Load buf off) := by
  refine within_bind (within_limbsLoad (fun k hk => hu k (by omega)) fun k hk => hP k (by omega))
    (within_bind (within_limbsLoad (fun k hk => ?_) fun k hk => ?_)
      (within_bind (within_limbsLoad (fun k hk => ?_) fun k hk => ?_) (within_pure _)))
  · rw [add_assoc, hu (12 + k) (by omega)]
  · rw [add_assoc]
    exact hP (12 + k) (by omega)
  · rw [add_assoc, hu (2 * 12 + k) (by omega)]
  · rw [add_assoc]
    exact hP (2 * 12 + k) (by omega)

theorem within_g1Store {a : G1} (hu : ∀ k < 36, u (off + k) = off + k)
    (hP : ∀ k < 36, P ⟨buf, 4, off + k, none⟩) : Within P u m (g1Store buf off a) := by
  refine within_bind (within_limbsStore (fun k hk => hu k (by omega)) fun k hk => hP k (by omega))
    (within_bind (within_limbsStore (fun k hk => ?_) fun k hk => ?_)
      (within_limbsStore (fun k hk => ?_) fun k hk => ?_))
  · rw [add_assoc, hu (12 + k) (by omega)]
  · rw [add_assoc]
    exact hP (12 + k) (by omega)
  · rw [add_assoc, hu (2 * 12 + k) (by omega)]
  · rw [add_assoc]
    exact hP (2 * 12 + k) (by omega)

theorem confined_g1aLoad (hP : ∀ k < 24, P ⟨buf, 4, u (off + k), none⟩) :
    Confined P u m (g1aLoad buf off) := by
  refine confined_bind (confined_loadWords fun k hk => hP k (by omega))
    (confined_bind (confined_loadWords fun k hk => ?_) (confined_pure _))
  rw [add_assoc]
  exact hP (12 + k) (by omega)

theorem confined_g1Store {a : G1} (hP : ∀ k < 36, P ⟨buf, 4, u (off + k), none⟩) :
    Confined P u m (g1Store buf off a) := by
  refine confined_bind (confined_storeWords fun k hk => hP k (by omega))
    (confined_bind (confined_storeWords fun k hk => ?_) (confined_storeWords fun k hk => ?_))
  · rw [add_assoc]
    exact hP (12 + k) (by omega)
  · rw [add_assoc]
    exact hP (2 * 12 + k) (by omega)

end Footprints

/-! ### Slices -/

/-- The words of a part of a buffer, for blob `b`: their indices are exact and `P` holds of them. -/
def BlobWords (P : Access Buf → Prop) (u : ℕ → ℕ) (buf : Buf) (off n b : ℕ) : Prop :=
  ∀ k < n, u (off + k) = off + k ∧ P ⟨buf, 4, off + k, some b⟩

/-- The evaluation of unsigned expressions is exact on the first `n` words of the slice of each blob,
where slices have `size` words. -/
def ExactSlices (u : ℕ → ℕ) (size n batch : ℕ) : Prop :=
  ∀ b < batch, ∀ k < n, u (b * size + k) = b * size + k

section Slices
variable {P : Access Buf → Prop} {u : ℕ → ℕ} {buf : Buf}

theorem BlobWords.first {n b i : ℕ} (h : BlobWords P u buf 0 n b) (hi : i < n) :
    u i = i ∧ P ⟨buf, 4, i, some b⟩ := by
  have hword := h i hi
  rwa [Nat.zero_add] at hword

theorem BlobWords.limbsLoad {off n b : ℕ} {m : Mem} (h : BlobWords P u buf off n b) :
    Within (fun a => P (a.own b)) u m (limbsLoad n buf off) :=
  within_limbsLoad (fun k hk => (h k hk).1) fun k hk => (h k hk).2

theorem BlobWords.limbsStore {off n b : ℕ} {m : Mem} {a : Limbs n}
    (h : BlobWords P u buf off n b) : Within (fun a => P (a.own b)) u m (limbsStore buf off a) :=
  within_limbsStore (fun k hk => (h k hk).1) fun k hk => (h k hk).2

theorem BlobWords.element {b size n i w : ℕ} (h : BlobWords P u buf (b * (size * w)) (n * w) b)
    (hi : i < n) : (∀ k < w, u ((b * size + i) * w + k) = (b * size + i) * w + k) ∧
      ∀ k < w, P ⟨buf, 4, (b * size + i) * w + k, some b⟩ := by
  have hidx : ∀ k, (b * size + i) * w + k = b * (size * w) + (i * w + k) := fun k => by ring
  have hlt : ∀ k < w, i * w + k < n * w := fun k hk => block_lt hi hk
  refine ⟨fun k hk => ?_, fun k hk => ?_⟩
  · rw [hidx]
    exact (h _ (hlt k hk)).1
  · rw [hidx]
    exact (h _ (hlt k hk)).2

theorem ExactSlices.words {size n batch : ℕ} (h : ExactSlices u size n batch) :
    ∀ b < batch, BlobWords (fun _ => True) u buf (b * size) n b :=
  fun b hb k hk => ⟨h b hb k hk, trivial⟩

theorem exactSlices_uint32 {size n batch : ℕ} (hn : n ≤ size) (h : batch * size ≤ 2 ^ 32) :
    ExactSlices uint32 size n batch := fun _ hb _ hk =>
  uint32_of_lt ((block_lt hb (hk.trans_le hn)).trans_le h)

end Slices

/-! ### Reading back what a dispatch stored -/

section Blocks
variable {ι : Type} {ws : List (Store Buf)} {b : Buf} {X : List ι} {pos : ι → ℕ}

theorem frAt_hit {v : ι → Fr} (h : Blocks ws b 4 8 X pos fun x => limbWords (v x))
    (hagree : ∀ x ∈ X, ∀ y ∈ X, pos x = pos y → v x = v y) {x : ι} (hx : x ∈ X) (m : Mem) :
    frAt (applyAll ws m) b (pos x) = v x := by
  refine limbsOf_eq fun k hk => ?_
  rw [h.hit (fun x hx y hy hxy => by rw [hagree x hx y hy hxy]) hx hk,
    Nat.mod_eq_of_lt (limbWords_lt _ _)]

theorem g1At_hit {v : ι → G1} (h : Blocks ws b 4 36 X pos fun x => g1Words (v x))
    (hagree : ∀ x ∈ X, ∀ y ∈ X, pos x = pos y → v x = v y) {x : ι} (hx : x ∈ X) (m : Mem) :
    g1At (applyAll ws m) b (pos x) = v x := by
  have hword : ∀ k < 36, (applyAll ws m).elem 4 b (pos x * 36 + k) = g1Words (v x) k := by
    intro k hk
    rw [h.hit (fun x hx y hy hxy => by rw [hagree x hx y hy hxy]) hx hk, Nat.mod_eq_of_lt]
    unfold g1Words
    split_ifs <;> exact limbWords_lt _ _
  have hx' : limbsAt 12 (applyAll ws m) b (pos x * 36) = (v x).x :=
    limbsOf_eq fun k hk => by rw [hword k (by omega), g1Words, if_pos hk]
  have hy' : limbsAt 12 (applyAll ws m) b (pos x * 36 + 12) = (v x).y :=
    limbsOf_eq fun k hk => by
      rw [add_assoc, hword (12 + k) (by omega), g1Words, if_neg (by omega), if_pos (by omega),
        Nat.add_sub_cancel_left]
  have hz' : limbsAt 12 (applyAll ws m) b (pos x * 36 + 24) = (v x).z :=
    limbsOf_eq fun k hk => by
      rw [add_assoc, hword (24 + k) (by omega), g1Words, if_neg (by omega), if_neg (by omega),
        Nat.add_sub_cancel_left]
  rw [g1At, hx', hy', hz']

theorem g1aAt_hit {v : ι → G1A} (h : Blocks ws b 4 24 X pos fun x => g1aWords (v x))
    (hagree : ∀ x ∈ X, ∀ y ∈ X, pos x = pos y → v x = v y) {x : ι} (hx : x ∈ X) (m : Mem) :
    g1aAt (applyAll ws m) b (pos x) = v x := by
  have hword : ∀ k < 24, (applyAll ws m).elem 4 b (pos x * 24 + k) = g1aWords (v x) k := by
    intro k hk
    rw [h.hit (fun x hx y hy hxy => by rw [hagree x hx y hy hxy]) hx hk, Nat.mod_eq_of_lt]
    unfold g1aWords
    split_ifs <;> exact limbWords_lt _ _
  have hx' : limbsAt 12 (applyAll ws m) b (pos x * 24) = (v x).x :=
    limbsOf_eq fun k hk => by rw [hword k (by omega), g1aWords, if_pos hk]
  have hy' : limbsAt 12 (applyAll ws m) b (pos x * 24 + 12) = (v x).y :=
    limbsOf_eq fun k hk => by
      rw [add_assoc, hword (12 + k) (by omega), g1aWords, if_neg (by omega),
        Nat.add_sub_cancel_left]
  rw [g1aAt, hx', hy']

end Blocks

theorem frAt_lastAt {ws : List (Store Buf)} {b : Buf} (hw : ∀ t ∈ landing b ws, t.1 = 4) {i : ℕ}
    {v : Fr} (h : ∀ k < 8, lastAt (landing b ws) (i * 8 + k) = some (limbWords v k)) (m : Mem) :
    frAt (applyAll ws m) b i = v :=
  limbsOf_eq fun k hk => by
    rw [elem_applyAll_lastAt hw, h k hk, Option.map_some, Option.getD_some,
      Nat.mod_eq_of_lt (limbWords_lt v k)]

/-! ### Memories with given words -/

def wordMem (f : Buf → ℕ → ℕ) : Mem := fun b i => byteOf (f b (i / 4)) (i % 4)

theorem elem_wordMem (f : Buf → ℕ → ℕ) (b : Buf) (i : ℕ) :
    (wordMem f).elem 4 b i = f b i % 256 ^ 4 := by
  rw [← bytesValue_byteOf]
  refine bytesValue_congr fun k hk => ?_
  rw [wordMem, Nat.mul_comm, block_div hk, Nat.mul_add_mod_of_lt hk]

theorem limbsAt_wordMem {f : Buf → ℕ → ℕ} {b : Buf} {n off : ℕ} {a : Limbs n}
    (h : ∀ k < n, f b (off + k) = limbWords a k) : limbsAt n (wordMem f) b off = a :=
  limbsOf_eq fun k hk => by rw [elem_wordMem, h k hk, Nat.mod_eq_of_lt (limbWords_lt a k)]

theorem g1At_wordMem {f : Buf → ℕ → ℕ} {b : Buf} {a : ℕ → G1}
    (h : ∀ i, f b i = g1Words (a (i / 36)) (i % 36)) (i : ℕ) : g1At (wordMem f) b i = a i := by
  have hx : limbsAt 12 (wordMem f) b (i * 36) = (a i).x := limbsAt_wordMem fun k hk => by
    rw [h, show (i * 36 + k) / 36 = i by omega, show (i * 36 + k) % 36 = k by omega, g1Words,
      if_pos hk]
  have hy : limbsAt 12 (wordMem f) b (i * 36 + 12) = (a i).y := limbsAt_wordMem fun k hk => by
    rw [h, show (i * 36 + 12 + k) / 36 = i by omega, show (i * 36 + 12 + k) % 36 = k + 12 by omega,
      g1Words, if_neg (by omega), if_pos (by omega), Nat.add_sub_cancel]
  have hz : limbsAt 12 (wordMem f) b (i * 36 + 24) = (a i).z := limbsAt_wordMem fun k hk => by
    rw [h, show (i * 36 + 24 + k) / 36 = i by omega, show (i * 36 + 24 + k) % 36 = k + 24 by omega,
      g1Words, if_neg (by omega), if_neg (by omega), Nat.add_sub_cancel]
  rw [g1At, hx, hy, hz]

theorem g1aAt_wordMem {f : Buf → ℕ → ℕ} {b : Buf} {a : G1A} (h : ∀ i, f b i = g1aWords a (i % 24))
    (i : ℕ) : g1aAt (wordMem f) b i = a := by
  have hx : limbsAt 12 (wordMem f) b (i * 24) = a.x := limbsAt_wordMem fun k hk => by
    rw [h, show (i * 24 + k) % 24 = k by omega, g1aWords, if_pos hk]
  have hy : limbsAt 12 (wordMem f) b (i * 24 + 12) = a.y := limbsAt_wordMem fun k hk => by
    rw [h, show (i * 24 + 12 + k) % 24 = k + 12 by omega, g1aWords, if_neg (by omega),
      Nat.add_sub_cancel]
  rw [g1aAt, hx, hy]

theorem frAt_wordMem {f : Buf → ℕ → ℕ} {b : Buf} {a : Fr} (h : ∀ i, f b i = limbWords a (i % 8))
    (i : ℕ) : frAt (wordMem f) b i = a := limbsAt_wordMem fun k hk => by
  rw [h, show (i * 8 + k) % 8 = k by omega]

end Vkzg
