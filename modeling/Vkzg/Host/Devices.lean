import Mathlib.Data.List.MinMax
import Mathlib.Data.Nat.Bitwise

/-! The device and the memory a prover is made on, chosen from what the driver reports. -/

namespace Vkzg

inductive DeviceType
  | other | integratedGpu | discreteGpu | virtualGpu | cpu

/-- The features of a device that the kernels depend on. -/
structure Features where
  shaderInt64 : Bool
  shaderInt16 : Bool
  storageBuffer16BitAccess : Bool
  bufferDeviceAddress : Bool
  storageBuffer8BitAccess : Bool
  shaderInt8 : Bool
deriving DecidableEq

/-- What `createProver` asks the device for. -/
def requestedFeatures : Features := ⟨true, true, true, true, true, true⟩

/-- A device as the driver describes it: bit masks, and the flags of each queue family and of each
memory type. -/
structure PhysicalDevice where
  apiVersion : ℕ
  deviceType : DeviceType
  features : Features
  supportedOperations : ℕ
  supportedStages : ℕ
  queueFamilies : List ℕ
  memoryTypes : List ℕ

abbrev apiVersion12 : ℕ := 2 ^ 22 + 2 * 2 ^ 12
abbrev subgroupShuffle : ℕ := 0x10
abbrev subgroupShuffleRelative : ℕ := 0x20
abbrev stageCompute : ℕ := 0x20
abbrev queueCompute : ℕ := 0x2
abbrev memoryHostVisible : ℕ := 0x2
abbrev memoryHostCoherent : ℕ := 0x4
abbrev uint32Max : ℕ := 2 ^ 32 - 1

/-- The queue family to use, if the device can run the kernels. -/
def physicalDeviceSuitable (dev : PhysicalDevice) : Option ℕ :=
  let need := subgroupShuffle ||| subgroupShuffleRelative
  if dev.apiVersion < apiVersion12 then none
  else if !dev.features.shaderInt64 || !dev.features.shaderInt16 then none
  else if !dev.features.storageBuffer16BitAccess then none
  else if !dev.features.bufferDeviceAddress || !dev.features.storageBuffer8BitAccess
      || !dev.features.shaderInt8 then none
  else if dev.supportedOperations &&& need ≠ need then none
  else if dev.supportedStages &&& stageCompute = 0 then none
  else dev.queueFamilies.findIdx? fun flags => flags &&& queueCompute ≠ 0

def deviceTypeScore : DeviceType → ℤ
  | .discreteGpu => 3
  | .integratedGpu => 2
  | .virtualGpu => 1
  | _ => 0

structure Best where
  score : ℤ
  device : Option PhysicalDevice
  queueFamily : ℕ

def pickStep (best : Best) (dev : PhysicalDevice) : Best :=
  match physicalDeviceSuitable dev with
  | none => best
  | some qf =>
    let score := deviceTypeScore dev.deviceType
    if score > best.score then ⟨score, some dev, qf⟩ else best

/-- The device, if any, and the queue family, which is `0` before the call. -/
def pickPhysicalDevice (devices : List PhysicalDevice) : Option PhysicalDevice × ℕ :=
  if devices.length = 0 then (none, 0)
  else
    let best := devices.foldl pickStep ⟨-1, none, 0⟩
    (best.device, best.queueFamily)

def findMemoryType (memoryTypes : List ℕ) (typeBits want : ℕ) : ℕ :=
  ((List.range memoryTypes.length).find? fun i =>
    typeBits &&& 1 <<< i ≠ 0 ∧ memoryTypes.getD i 0 &&& want = want).getD uint32Max

/-! ### The first best device -/

section Pick
variable {devices : List PhysicalDevice} {dev : PhysicalDevice} {qf : ℕ}

theorem suitable_supports (h : physicalDeviceSuitable dev = some qf) :
    dev.features = requestedFeatures ∧ ∃ flags, dev.queueFamilies[qf]? = some flags ∧
      flags &&& queueCompute ≠ 0 := by
  unfold physicalDeviceSuitable at h
  simp only at h
  split_ifs at h with h1 h2 h3 h4 h5 h6
  obtain ⟨hlt, hflags, -⟩ := List.findIdx?_eq_some_iff_getElem.mp h
  refine ⟨?_, _, List.getElem?_eq_getElem hlt, of_decide_eq_true hflags⟩
  simp only [Bool.or_eq_true, Bool.not_eq_true', not_or, Bool.not_eq_false] at h2 h3 h4
  calc dev.features
      = ⟨dev.features.shaderInt64, dev.features.shaderInt16, dev.features.storageBuffer16BitAccess,
          dev.features.bufferDeviceAddress, dev.features.storageBuffer8BitAccess,
          dev.features.shaderInt8⟩ := rfl
    _ = requestedFeatures := by
      rw [h2.1, h2.2, h3, h4.1.1, h4.1.2, h4.2]
      rfl

theorem deviceTypeScore_nonneg (t : DeviceType) : 0 ≤ deviceTypeScore t := by
  cases t <;> decide

/-- What the loop has found after some devices: the first of the best ones. -/
def FirstBest (devices : List PhysicalDevice) (best : Best) : Prop :=
  (best = ⟨-1, none, 0⟩ ∧ ∀ d ∈ devices, physicalDeviceSuitable d = none) ∨
  ∃ before dev after, devices = before ++ dev :: after ∧
    physicalDeviceSuitable dev = some best.queueFamily ∧ best.device = some dev ∧
    best.score = deviceTypeScore dev.deviceType ∧
    (∀ d ∈ before, physicalDeviceSuitable d = none ∨ deviceTypeScore d.deviceType < best.score) ∧
    ∀ d ∈ after, physicalDeviceSuitable d = none ∨ deviceTypeScore d.deviceType ≤ best.score

theorem FirstBest.step {best : Best} (h : FirstBest devices best) (dev : PhysicalDevice) :
    FirstBest (devices ++ [dev]) (pickStep best dev) := by
  unfold pickStep
  cases hdev : physicalDeviceSuitable dev with
  | none =>
    rcases h with ⟨rfl, hnone⟩ | ⟨before, d, after, rfl, hd, hbest, hscore, hbefore, hafter⟩
    · exact .inl ⟨rfl, List.forall_mem_append.mpr ⟨hnone, List.forall_mem_singleton.mpr hdev⟩⟩
    · exact .inr ⟨before, d, after ++ [dev], by simp, hd, hbest, hscore, hbefore,
        List.forall_mem_append.mpr ⟨hafter, List.forall_mem_singleton.mpr (.inl hdev)⟩⟩
  | some qf =>
    simp only
    split_ifs with hlt
    · refine .inr ⟨devices, dev, [], rfl, hdev, rfl, rfl, fun d hd => ?_, nofun⟩
      rcases h with ⟨-, hnone⟩ | ⟨before, d', after, rfl, -, -, hscore, hbefore, hafter⟩
      · exact .inl (hnone d hd)
      · rcases List.mem_append.mp hd with hd | hd
        · exact (hbefore d hd).imp_right hlt.trans'
        · rcases List.mem_cons.mp hd with rfl | hd
          · exact .inr (hscore ▸ hlt)
          · exact (hafter d hd).imp_right hlt.trans_le'
    · rcases h with ⟨rfl, -⟩ | ⟨before, d, after, rfl, hd, hbest, hscore, hbefore, hafter⟩
      · have hnonneg := deviceTypeScore_nonneg dev.deviceType
        exact absurd (show deviceTypeScore dev.deviceType > -1 by omega) hlt
      · exact .inr ⟨before, d, after ++ [dev], by simp, hd, hbest, hscore, hbefore,
          List.forall_mem_append.mpr ⟨hafter, List.forall_mem_singleton.mpr (.inr (not_lt.mp hlt))⟩⟩

theorem firstBest_foldl (devices : List PhysicalDevice) :
    FirstBest devices (devices.foldl pickStep ⟨-1, none, 0⟩) := by
  induction devices using List.reverseRecOn with
  | nil => exact .inl ⟨rfl, nofun⟩
  | append_singleton devices dev ih =>
    rw [List.foldl_append, List.foldl_cons, List.foldl_nil]
    exact ih.step dev

/-- The device is the first of those with the best type that can run the kernels, and there is one
whenever any can. It has the features it is asked for, and a queue for them. -/
theorem pickPhysicalDevice_best (devices : List PhysicalDevice) :
    let r := pickPhysicalDevice devices
    (r.1 = none ↔ ∀ dev ∈ devices, physicalDeviceSuitable dev = none) ∧
    ∀ dev, r.1 = some dev →
      dev.features = requestedFeatures ∧
      (∃ flags, dev.queueFamilies[r.2]? = some flags ∧ flags &&& queueCompute ≠ 0) ∧
      ∃ before after, devices = before ++ dev :: after ∧
        (∀ d ∈ before, (physicalDeviceSuitable d).isSome →
          deviceTypeScore d.deviceType < deviceTypeScore dev.deviceType) ∧
        ∀ d ∈ after, (physicalDeviceSuitable d).isSome →
          deviceTypeScore d.deviceType ≤ deviceTypeScore dev.deviceType := by
  have hpick : pickPhysicalDevice devices = ((devices.foldl pickStep ⟨-1, none, 0⟩).device,
      (devices.foldl pickStep ⟨-1, none, 0⟩).queueFamily) := by
    unfold pickPhysicalDevice
    split_ifs with hnil
    · rw [List.length_eq_zero_iff.mp hnil]
      rfl
    · rfl
  rw [hpick]
  have hsuitable : ∀ (d : PhysicalDevice) {p : Prop}, (physicalDeviceSuitable d = none ∨ p) →
      (physicalDeviceSuitable d).isSome → p := fun d p h hd =>
    h.resolve_left fun hnone => by simp [hnone] at hd
  rcases firstBest_foldl devices with ⟨hbest, hnone⟩ |
    ⟨before, d, after, hsplit, hd, hbest, hscore, hbefore, hafter⟩
  · rw [hbest]
    exact ⟨⟨fun _ => hnone, fun _ => rfl⟩, nofun⟩
  · simp only [hbest]
    refine ⟨⟨nofun, fun hall => ?_⟩, fun dev hdev => ?_⟩
    · have hmem : d ∈ devices := hsplit ▸ List.mem_append_right _ List.mem_cons_self
      exact absurd (hd.symm.trans (hall d hmem)) nofun
    · obtain rfl := Option.some.inj hdev
      obtain ⟨hfeatures, hqueue⟩ := suitable_supports hd
      rw [hscore] at hbefore hafter
      exact ⟨hfeatures, hqueue, before, after, hsplit, fun d' hd' => hsuitable d' (hbefore d' hd'),
        fun d' hd' => hsuitable d' (hafter d' hd')⟩

end Pick

/-- The first memory type that a buffer may use and that has the properties asked for. -/
theorem findMemoryType_spec {memoryTypes : List ℕ} {typeBits want : ℕ}
    (h : findMemoryType memoryTypes typeBits want ≠ uint32Max) :
    ∃ flags, memoryTypes[findMemoryType memoryTypes typeBits want]? = some flags ∧
      flags &&& want = want ∧
      typeBits &&& 1 <<< findMemoryType memoryTypes typeBits want ≠ 0 := by
  unfold findMemoryType at h ⊢
  cases hfind : (List.range memoryTypes.length).find? fun i =>
      typeBits &&& 1 <<< i ≠ 0 ∧ memoryTypes.getD i 0 &&& want = want with
  | none =>
    rw [hfind] at h
    exact absurd rfl h
  | some i =>
    have hfound := List.find?_some hfind
    obtain ⟨hbits, hflags⟩ := of_decide_eq_true hfound
    have hlt : i < memoryTypes.length := List.mem_range.mp (List.mem_of_find?_eq_some hfind)
    rw [List.getD_eq_getElem _ _ hlt] at hflags
    exact ⟨memoryTypes[i], List.getElem?_eq_getElem hlt, hflags, hbits⟩

end Vkzg
