import Vkzg.Host.Devices
import Vkzg.Host.Prover
import Vkzg.Library.Objects

/-! The Vulkan objects of a prover, from its creation to its destruction, on a driver that may deny
any request. A request that is denied leaves the handle null. -/

namespace Vkzg
open Objects

/-! ### Objects -/

inductive Pso
  | blobToFr | ntt | buildCirculant | phaseASort | phaseA | ladder | foldLadder | phaseBSplit
  | combineSplit | normalize | compress | reduceThroughput | reduceLatency | ewMul | ewDiv | powSeq
  | vanishingPoly | cellsToFr | frToCells
deriving DecidableEq

inductive Obj
  | vkInstance | device | cmdPool | fence | pipelineLayout | shaderModule
  | pipeline (pso : Pso) | buffer (b : Buf) | memory (b : Buf) | mapping (b : Buf)
deriving DecidableEq

/-- What has to be there first, and may go only afterwards. -/
def Obj.parent : Obj → Option Obj
  | .vkInstance => none
  | .device => some .vkInstance
  | .mapping b => some (.memory b)
  | _ => some .device

/-- What the driver makes of each request. -/
structure Driver where
  devices : List PhysicalDevice
  grants : Obj → Bool
  grantsModule : Pso → Bool
  commandBuffers : Bool
  typeBits : Buf → ℕ
  binds : Buf → Bool
  populate : Submission

/-! ### Buffers -/

def workingBuffers : List Buf :=
  [.blob, .lagrange, .workA, .polyExt, .coeffs, .buckets, .items, .starts, .perm, .points, .proofs,
    .ladderJac, .ladderJacFolded, .ladderAff, .proofsAff, .proofBytes, .normScratch, .err,
    .recMissing, .recScratch, .recBrp, .recZCoeff, .recZEval, .recEZEval, .recEZCoeff, .recShiftedA,
    .recCosetA, .recCosetB, .recPCoset, .recPCoeffU, .recPCoeff, .recPFull, .recOut]

def setupBuffers : List Buf :=
  [.table, .rootsFwd, .rootsInv, .kernelItemsPlus, .kernelOffsetsPlus, .kernelPermPlus,
    .kernelItemsMinus, .kernelOffsetsMinus, .kernelPermMinus, .cosetShiftFwd, .cosetShiftInv,
    .invExtBlob]

/-- The memory type of a buffer on the device that is used. -/
def Driver.memoryType (d : Driver) (b : Buf) : ℕ :=
  match (pickPhysicalDevice d.devices).1 with
  | none => uint32Max
  | some dev => findMemoryType dev.memoryTypes (d.typeBits b) (memoryHostVisible ||| memoryHostCoherent)

def bufferObjects (b : Buf) : List Obj := [.buffer b, .memory b, .mapping b]

def createBuffer (d : Driver) (b : Buf) : Program Obj Bool :=
  andThen (create Obj.parent (d.grants (.buffer b)) (.buffer b)) <|
  andThen (pure (d.memoryType b != uint32Max)) <|
  andThen (create Obj.parent (d.grants (.memory b)) (.memory b)) <|
  andThen (do use (.buffer b); use (.memory b); pure (d.binds b)) <|
  andThen (create Obj.parent (d.grants (.mapping b)) (.mapping b)) <| do
    use (.buffer b)
    pure true

/-- Every buffer is asked for, whatever becomes of the ones before it. -/
def createBuffers (d : Driver) (bufs : List Buf) : Program Obj Bool := allOf (createBuffer d) bufs

/-- The handles of a buffer in the order in which `destroyBuffer` looks at them. -/
def destroyedWith (b : Buf) : List Obj := [.mapping b, .buffer b, .memory b]

/-! ### Pipelines -/

def kernels : List Pso :=
  [.blobToFr, .ntt, .buildCirculant, .phaseASort, .phaseA, .ladder, .foldLadder, .phaseBSplit,
    .combineSplit, .normalize, .compress, .ewMul, .ewDiv, .powSeq, .vanishingPoly, .cellsToFr,
    .frToCells]

/-- The pipeline is built from a module that goes right afterwards. -/
def createPipeline (d : Driver) (k : Pso) : Program Obj Bool :=
  during Obj.parent (d.grantsModule k) .shaderModule do
    use .pipelineLayout
    create Obj.parent (d.grants (.pipeline k)) (.pipeline k)

/-- The two pipelines of the bucket reduction are asked for at once, into local handles. -/
def createReducePipelines (d : Driver) : Program Obj Bool :=
  orForget [.pipeline .reduceThroughput, .pipeline .reduceLatency] <|
  during Obj.parent (d.grantsModule .reduceThroughput) .shaderModule do
    use .pipelineLayout
    both (create Obj.parent (d.grants (.pipeline .reduceThroughput)) (.pipeline .reduceThroughput))
      (create Obj.parent (d.grants (.pipeline .reduceLatency)) (.pipeline .reduceLatency))

def buildPipelines (d : Driver) : Program Obj Bool :=
  andThen (create Obj.parent (d.grants .pipelineLayout) .pipelineLayout) <|
  andThen (untilDenied (createPipeline d) kernels) <|
  createReducePipelines d

/-! ### Creation and destruction -/

def psos : List Pso :=
  [.blobToFr, .ntt, .buildCirculant, .phaseASort, .phaseA, .ladder, .foldLadder, .phaseBSplit,
    .combineSplit, .normalize, .compress, .reduceThroughput, .reduceLatency, .ewMul, .ewDiv,
    .powSeq, .vanishingPoly, .cellsToFr, .frToCells]

/-- What the destructor looks at, in its order. -/
def destroyed : List Obj :=
  (workingBuffers ++ setupBuffers).flatMap destroyedWith ++ psos.map .pipeline ++
    [.pipelineLayout, .fence, .cmdPool, .device, .vkInstance]

/-- `delete p`: the destructor, and the handles go with the prover. -/
def deleteProver : Program Obj Unit := do
  if Obj.device ∈ (← get).held then
    use .device
    releaseAll Obj.parent destroyed
  forgetAll

/-- Goes on if the request is granted, and returns `rc` without a prover otherwise. -/
def orDelete (request : Program Obj Bool) (rc : Result) (rest : Program Obj Result) :
    Program Obj Result := do
  if ← request then rest
  else
    deleteProver
    pure rc

/-- The objects of `populateCosetShiftTables`. -/
def populateObjects : List Obj :=
  [.cmdPool, .pipeline .powSeq, .pipelineLayout, .buffer .cosetShiftFwd, .buffer .cosetShiftInv,
    .buffer .invExtBlob, .fence, .device]

def useAll : List Obj → Program Obj Unit
  | [] => pure ()
  | o :: os => do
    use o
    useAll os

def Submission.completes : Submission → Bool
  | .completed => true
  | _ => false

/-- `createProver`, down to the handles. -/
def createObjects (d : Driver) : Program Obj Result :=
  orDelete (create Obj.parent (d.grants .vkInstance) .vkInstance) .errGpu <|
  orDelete (andThen (pure (pickPhysicalDevice d.devices).1.isSome)
    (create Obj.parent (d.grants .device) .device)) .errGpu <|
  orDelete (create Obj.parent (d.grants .cmdPool) .cmdPool) .errGpu <|
  orDelete (do use .cmdPool; pure d.commandBuffers) .errGpu <|
  orDelete (create Obj.parent (d.grants .fence) .fence) .errGpu <|
  orDelete (buildPipelines d) .errGpu <|
  orDelete (createBuffers d setupBuffers) .errMalloc <|
  orDelete (createBuffers d workingBuffers) .errMalloc <|
  orDelete (do useAll populateObjects; pure d.populate.completes) .errGpu <|
  pure .ok

/-! ### What the driver makes of a prover -/

inductive Batch
  | compute | recover

/-- What the host maps, and what the commands of a batch are recorded and submitted with. -/
def Batch.objects : Batch → List Obj
  | .compute => [.mapping .blob, .mapping .err, .cmdPool, .pipelineLayout] ++
      [Pso.blobToFr, .ntt, .buildCirculant, .phaseASort, .phaseA, .reduceLatency, .reduceThroughput,
        .ladder, .foldLadder, .normalize, .phaseBSplit, .combineSplit, .compress].map .pipeline ++
      [Buf.lagrange, .blob, .err, .workA, .rootsInv, .polyExt, .coeffs, .rootsFwd, .items, .starts,
        .perm, .buckets, .table, .points, .ladderJac, .ladderJacFolded, .ladderAff, .normScratch,
        .kernelItemsPlus, .kernelOffsetsPlus, .kernelPermPlus, .kernelItemsMinus,
        .kernelOffsetsMinus, .kernelPermMinus, .proofs, .proofsAff, .proofBytes].map .buffer ++
      [.device, .fence, .mapping .proofBytes]
  | .recover => [.mapping .recScratch, .mapping .recMissing, .mapping .err, .cmdPool,
        .pipelineLayout] ++
      [Pso.cellsToFr, .vanishingPoly, .ntt, .ewMul, .ewDiv, .frToCells].map .pipeline ++
      [Buf.recBrp, .recScratch, .recZCoeff, .rootsFwd, .recMissing, .recZEval, .recEZEval,
        .recEZCoeff, .rootsInv, .invExtBlob, .recShiftedA, .cosetShiftFwd, .recCosetA, .recCosetB,
        .recPCoset, .recPCoeffU, .cosetShiftInv, .recPCoeff, .recPFull, .recOut].map .buffer ++
      [.device, .fence, .mapping .recOut]

/-- A prover is created, works through some batches and is freed. -/
def lifetime (d : Driver) (batches : List Batch) : Program Obj Result := do
  let rc ← createObjects d
  if rc = .ok then
    useAll (batches.flatMap Batch.objects)
    deleteProver
  pure rc

namespace Driver
variable (d : Driver)

def picks : Bool := (pickPhysicalDevice d.devices).1.isSome

def allocated (b : Buf) : Bool :=
  d.grants (.buffer b) && (d.memoryType b != uint32Max && (d.grants (.memory b) &&
    (d.binds b && d.grants (.mapping b))))

def allocates : Bool := (setupBuffers ++ workingBuffers).all d.allocated

/-- Everything is there for the pipelines of the bucket reduction. -/
def reaches : Bool :=
  d.grants .vkInstance && d.picks && d.grants .device && d.grants .cmdPool && d.commandBuffers &&
    d.grants .fence && d.grants .pipelineLayout &&
    kernels.all (fun k => d.grantsModule k && d.grants (.pipeline k)) &&
    d.grantsModule .reduceThroughput

def opens : Bool :=
  d.reaches && d.grants (.pipeline .reduceThroughput) && d.grants (.pipeline .reduceLatency)

/-- Of the two pipelines that are asked for at once, the driver makes only one. -/
def splits : Bool :=
  d.reaches && (d.grants (.pipeline .reduceThroughput) != d.grants (.pipeline .reduceLatency))

def result : Result :=
  if d.opens then if d.allocates then if d.populate.completes then .ok else .errGpu else .errMalloc
  else .errGpu

/-- The destructor returns early if there is no device. -/
def leaked : Finset Obj :=
  if d.grants .vkInstance && !(d.picks && d.grants .device) then {.vkInstance} else ∅

end Driver

/-! ### Requests -/

section Requests
variable {d : Driver} {need : List Obj}

theorem grows_createBuffer {b : Buf} (hneed : .device ∈ need) :
    Grows [.shaderModule] need (bufferObjects b) (d.allocated b) (createBuffer d b) := by
  have hmapping : Grows [.shaderModule] (need ++ [.buffer b] ++ [] ++ [.memory b] ++ [])
      ([.mapping b] ++ []) (d.grants (.mapping b) && true)
      (andThen (create Obj.parent (d.grants (.mapping b)) (.mapping b)) do
        use (.buffer b)
        pure true) :=
    (grows_create (by simp [Obj.parent]) (by simp)).andThen (grows_pure.use (by simp)) (by simp)
  rw [Bool.and_true] at hmapping
  exact (grows_create (by simpa [Obj.parent] using hneed) (by simp)).andThen
    (grows_pure.andThen
      ((grows_create (by simpa [Obj.parent] using hneed) (by simp)).andThen
        (((grows_pure.use (by simp)).use (by simp)).andThen hmapping (by simp)) (by simp))
      (by simp)) (by simp)

theorem grows_createBuffers {bufs : List Buf} (hneed : .device ∈ need)
    (hnodup : (bufs.flatMap bufferObjects).Nodup) :
    Grows [.shaderModule] need (bufs.flatMap bufferObjects) (bufs.all d.allocated)
      (createBuffers d bufs) :=
  grows_allOf (fun _ _ => grows_createBuffer hneed) hnodup

theorem grows_createPipeline {k : Pso} (hdevice : .device ∈ need) (hlayout : .pipelineLayout ∈ need) :
    Grows [.shaderModule] need [.pipeline k] (d.grantsModule k && d.grants (.pipeline k))
      (createPipeline d k) := by
  refine Grows.during ((grows_create ?_ List.not_mem_nil).use (List.mem_cons_of_mem _ hlayout)) ?_ ?_
    List.not_mem_nil (by simp)
  · simpa [Obj.parent] using hdevice
  · simpa [Obj.parent] using hdevice
  · intro c
    cases c <;> simp [Obj.parent]

theorem grows_createReducePipelines (hdevice : .device ∈ need) (hlayout : .pipelineLayout ∈ need)
    (hboth : d.grantsModule .reduceThroughput = true → d.grants (.pipeline .reduceThroughput) =
      d.grants (.pipeline .reduceLatency)) :
    Grows [.shaderModule] need [.pipeline .reduceThroughput, .pipeline .reduceLatency]
      (d.grantsModule .reduceThroughput && (d.grants (.pipeline .reduceThroughput) &&
        d.grants (.pipeline .reduceLatency))) (createReducePipelines d) := by
  have hparent : ∀ {o : Obj}, o.parent = some .device → ∀ p ∈ o.parent, p ∈ need := fun h p hp =>
    Option.some.inj (h.symm.trans hp) ▸ hdevice
  have hchild : ∀ c : Obj, c.parent ≠ some .shaderModule := fun c => by
    cases c <;> simp [Obj.parent]
  unfold createReducePipelines
  cases hmodule : d.grantsModule .reduceThroughput with
  | false => exact (grows_during_denied (hparent rfl) (by simp)).orForget_denied
  | true =>
    rw [← hboth hmodule]
    cases d.grants (.pipeline .reduceThroughput) with
    | false =>
      exact Grows.orForget_denied (Grows.during (Grows.use ((grows_denied (fun p hp =>
        List.mem_cons_of_mem _ (hparent rfl p hp)) (by simp)).both (grows_denied (fun p hp =>
        List.mem_cons_of_mem _ (hparent rfl p hp)) (by simp)) nofun) (by simp [hlayout]))
        (hparent rfl) hchild (by simp) nofun)
    | true =>
      refine Grows.orForget (Grows.during (Grows.use ((grows_create ?_ List.not_mem_nil).both
        (grows_create ?_ List.not_mem_nil) (by simp)) (by simp [hlayout])) (hparent rfl) hchild
        List.not_mem_nil (by simp))
      · simpa [Obj.parent] using hdevice
      · simpa [Obj.parent] using hdevice

/-- The handle of the one pipeline that is made is lost. -/
theorem createReducePipelines_splits {s : State Obj} (hs : s.alive = s.held)
    (hdevice : .device ∈ s.held) (hlayout : .pipelineLayout ∈ s.held)
    (hmodule : .shaderModule ∉ s.held) (hnew : ∀ k ∉ kernels, .pipeline k ∉ s.held)
    (hgranted : d.grantsModule .reduceThroughput = true)
    (hne : d.grants (.pipeline .reduceThroughput) ≠ d.grants (.pipeline .reduceLatency)) :
    Runs (createReducePipelines d) s fun ok s' => ok = false ∧
      ∃ k, .pipeline k ∈ s'.alive ∧ .pipeline k ∉ s'.held ∧ .device ∈ s'.held := by
  have hchild : ∀ c : Obj, c.parent ≠ some .shaderModule := fun c => by
    cases c <;> simp [Obj.parent]
  have hthroughput : .pipeline .reduceThroughput ∉ s.held := hnew _ (by decide)
  have hlatency : .pipeline .reduceLatency ∉ s.held := hnew _ (by decide)
  unfold createReducePipelines orForget during
  rw [hgranted]
  refine runs_bind (runs_bind (runs_create hs (by simp [Obj.parent, hdevice]) hmodule ?_))
  simp only [if_true]
  refine runs_bind (runs_bind (runs_use (by simp [hs]) (by simp [hlayout]) (runs_bind ?_)))
  refine runs_create (by simp [hs]) (by simp [Obj.parent, hdevice]) (by simp [hthroughput]) ?_
  cases hthr : d.grants (.pipeline .reduceThroughput) <;>
    cases hlat : d.grants (.pipeline .reduceLatency)
  · exact absurd (hthr.trans hlat.symm) hne
  · refine runs_bind (runs_create (by simp [hs]) (by simp [Obj.parent, hdevice])
      (by simp [hlatency]) ?_)
    refine runs_pure (runs_bind (runs_destroy (by simp [hs]) hchild (by simp) (runs_pure ?_)))
    refine runs_bind (runs_forget (runs_pure ⟨rfl, .reduceLatency, ?_, ?_, ?_⟩)) <;>
      simp [hdevice]
  · refine runs_bind (runs_create (by simp [hs]) (by simp [Obj.parent, hdevice])
      (by simp [hlatency]) ?_)
    refine runs_pure (runs_bind (runs_destroy (by simp [hs]) hchild (by simp) (runs_pure ?_)))
    refine runs_bind (runs_forget (runs_pure ⟨rfl, .reduceThroughput, ?_, ?_, ?_⟩)) <;>
      simp [hdevice]
  · exact absurd (hthr.trans hlat.symm) hne

/-! ### The end of a prover -/

theorem mem_destroyed {o : Obj} (ho : o ≠ .shaderModule) : o ∈ destroyed := by
  have hbuf : ∀ b : Buf, b ∈ workingBuffers ++ setupBuffers := fun b => by
    cases b <;> decide
  have hpso : ∀ k : Pso, k ∈ psos := fun k => by
    cases k <;> decide
  have hof : ∀ b o, o ∈ destroyedWith b → o ∈ destroyed := fun b o h =>
    List.mem_append_left _ (List.mem_append_left _ (List.mem_flatMap.mpr ⟨b, hbuf b, h⟩))
  cases o with
  | shaderModule => exact absurd rfl ho
  | pipeline k => exact List.mem_append_left _ (List.mem_append_right _ (List.mem_map_of_mem (hpso k)))
  | buffer b => exact hof b _ (by simp [destroyedWith])
  | memory b => exact hof b _ (by simp [destroyedWith])
  | mapping b => exact hof b _ (by simp [destroyedWith])
  | _ => exact List.mem_append_right _ (by simp)

theorem destroyed_sorted : destroyed.Pairwise fun a b => b.parent ≠ some a := by
  decide +kernel

theorem runs_deleteProver {s : State Obj} {Q : Unit → State Obj → Prop} (hs : s.alive = s.held)
    (hmodule : .shaderModule ∉ s.held)
    (h : Q () ⟨if .device ∈ s.held then ∅ else s.alive, ∅⟩) : Runs deleteProver s Q := by
  have hself : ∀ o : Obj, o.parent ≠ some o := fun o => by
    cases o <;> simp [Obj.parent]
  have hlisted : ∀ c ∈ s.alive, c ∈ destroyed ∧ c ∈ s.held := fun c hc =>
    have hheld := hs ▸ hc
    ⟨mem_destroyed (by rintro rfl; exact hmodule hheld), hheld⟩
  unfold deleteProver
  refine runs_bind ⟨s, s, rfl, ?_⟩
  by_cases hdevice : Obj.device ∈ s.held
  · rw [if_pos hdevice] at h ⊢
    have hall : s.alive \ (s.held ∩ destroyed.toFinset) = ∅ := by
      ext c
      simp only [Finset.mem_sdiff, Finset.mem_inter, List.mem_toFinset, Finset.notMem_empty, iff_false]
      exact fun ⟨hc, hmem⟩ => hmem ⟨(hlisted c hc).2, (hlisted c hc).1⟩
    refine runs_bind (runs_use hs hdevice (runs_bind (runs_releaseAll hs.ge hself destroyed_sorted
      (fun _ _ c hc _ => hlisted c hc) (runs_forgetAll ?_))))
    rw [hall]
    exact h
  · rw [if_neg hdevice] at h ⊢
    exact runs_forgetAll h

/-- A prover that has lost a pipeline cannot destroy its device. -/
theorem deleteProver_eq_none {s : State Obj} {k : Pso} (halive : .pipeline k ∈ s.alive)
    (hlost : .pipeline k ∉ s.held) (hdevice : .device ∈ s.held) : deleteProver s = none := by
  have hnone : releaseAll Obj.parent destroyed s = none :=
    releaseAll_eq_none rfl halive hlost hdevice (mem_destroyed nofun)
  refine bind_eq_none fun _ s' hget => ?_
  cases hget
  rw [if_pos hdevice]
  refine bind_eq_none fun _ s' huse => ?_
  obtain rfl : s = s' := by
    unfold use at huse
    split_ifs at huse
    cases huse
    rfl
  exact bind_eq_none fun _ _ hrelease => absurd (hnone.symm.trans hrelease) nofun

end Requests

/-! ### Whole runs -/

/-- The objects that are there, all of them with a handle. -/
structure Holding (os : List Obj) (s : State Obj) : Prop where
  known : s.alive = s.held
  mem : ∀ o, o ∈ s.held ↔ o ∈ os

section Ends
variable {need os : List Obj} {s : State Obj} {granted : Bool} {request : Program Obj Bool}
  {rc : Result} {rest : Program Obj Result} {R : Option (Result × State Obj) → Prop}

theorem ends_delete (hs : s.alive = s.held) (hmodule : .shaderModule ∉ s.held)
    (h : R (some (rc, ⟨if .device ∈ s.held then ∅ else s.alive, ∅⟩))) :
    R ((do deleteProver; pure rc : Program Obj Result) s) := by
  obtain ⟨_, s', hdelete, rfl⟩ := @runs_deleteProver s (fun _ s' => s' = _) hs hmodule rfl
  show R ((deleteProver s).bind _)
  rw [hdelete]
  exact h

theorem ends_orDelete (hrequest : Grows [.shaderModule] need os granted request)
    (hs : Holding need s) (hmodule : .shaderModule ∉ need ++ os) (hnew : ∀ o ∈ os, o ∉ need)
    (hdenied : .device ∉ need → granted = false →
      Grows ([.shaderModule] ++ os) need [] false request)
    (hfail : granted = false →
      R (some (rc, ⟨if .device ∈ need then ∅ else need.toFinset, ∅⟩)))
    (hrest : granted = true → ∀ s', Holding (need ++ os) s' → R (rest s')) :
    R (orDelete request rc rest s) := by
  have hold : ∀ o ∈ need, o ∈ s.held := fun o ho => (hs.mem o).mpr ho
  have htemp : ∀ o ∈ [Obj.shaderModule], o ∉ s.held := List.forall_mem_singleton.mpr fun h =>
    hmodule (List.mem_append_left _ ((hs.mem _).mp h))
  have hfresh : ∀ o ∈ os, o ∉ s.held := fun o ho h => hnew o ho ((hs.mem o).mp h)
  have hmem : ∀ {s' : State Obj}, (∀ o ∈ s'.held, o ∈ s.held ∨ o ∈ os) → ∀ o ∈ s'.held,
      o ∈ need ++ os := fun honly o ho =>
    List.mem_append.mpr ((honly o ho).imp_left (hs.mem o).mp)
  cases granted with
  | true =>
    obtain ⟨ok, s', hrun, rfl, hs', hkeep, honly, -, hall⟩ := hrequest s hs.known hold htemp hfresh
    show R ((request s).bind _)
    rw [hrun]
    refine hrest rfl s' ⟨hs', fun o => ⟨hmem honly o, fun ho => ?_⟩⟩
    exact (List.mem_append.mp ho).elim (fun ho => hkeep o (hold o ho)) (hall rfl o)
  | false =>
    by_cases hdevice : Obj.device ∈ need
    · obtain ⟨ok, s', hrun, rfl, hs', hkeep, honly, -, -⟩ :=
        hrequest s hs.known hold htemp hfresh
      show R ((request s).bind _)
      rw [hrun]
      have hthere : Obj.device ∈ s'.held := hkeep _ (hold _ hdevice)
      rw [if_pos hdevice] at hfail
      exact ends_delete hs' (fun h => hmodule (hmem honly _ h)) (by
        rw [if_pos hthere]
        exact hfail rfl)
    · obtain ⟨ok, s', hrun, rfl, hs', hkeep, honly, -, -⟩ := hdenied hdevice rfl s hs.known hold
        (List.forall_mem_append.mpr ⟨htemp, hfresh⟩) nofun
      show R ((request s).bind _)
      rw [hrun]
      have hsame : ∀ o, o ∈ s'.held ↔ o ∈ need := fun o =>
        ⟨fun ho => (hs.mem o).mp ((honly o ho).resolve_right nofun), fun ho => hkeep o (hold o ho)⟩
      have hneed : s'.alive = need.toFinset := by
        ext o
        rw [hs', hsame, List.mem_toFinset]
      rw [if_neg hdevice] at hfail
      exact ends_delete hs' (fun h => hmodule (List.mem_append_left _ ((hsame _).mp h))) (by
        rw [if_neg fun h => hdevice ((hsame _).mp h), hneed]
        exact hfail rfl)

end Ends

theorem orDelete_andThen (m m' : Program Obj Bool) (rc : Result) (rest : Program Obj Result) :
    orDelete (andThen m m') rc rest = orDelete m rc (orDelete m' rc rest) := by
  funext s
  show ((m s).bind _).bind _ = (m s).bind _
  cases m s with
  | none => rfl
  | some r =>
    rcases r with ⟨ok, s'⟩
    cases ok <;> rfl

theorem grows_useAll {temp need os : List Obj} {granted : Bool} (h : ∀ o ∈ os, o ∈ need) :
    Grows temp need [] granted (do useAll os; pure granted) := by
  induction os with
  | nil => exact grows_pure
  | cons o os ih =>
    rw [useAll, bind_assoc]
    exact (ih fun o ho => h o (List.mem_cons_of_mem _ ho)).use (h o List.mem_cons_self)

/-- Every object but the modules, in the order in which they are made. -/
def created : List Obj :=
  [.vkInstance, .device, .cmdPool, .fence, .pipelineLayout] ++ kernels.map .pipeline ++
    [.pipeline .reduceThroughput, .pipeline .reduceLatency] ++
    setupBuffers.flatMap bufferObjects ++ workingBuffers.flatMap bufferObjects

theorem mem_created (o : Obj) : o ∈ created ↔ o ≠ .shaderModule := by
  have hbuf : ∀ b o, o ∈ bufferObjects b → o ∈ created := fun b o h => by
    have hb : b ∈ setupBuffers ∨ b ∈ workingBuffers := by
      cases b <;> decide
    simp only [created, List.mem_append, List.mem_flatMap]
    exact hb.elim (fun hb => .inl (.inr ⟨b, hb, h⟩)) fun hb => .inr ⟨b, hb, h⟩
  refine ⟨?_, fun ho => ?_⟩
  · rintro h rfl
    exact absurd h (by decide +kernel)
  · cases o with
    | shaderModule => exact absurd rfl ho
    | pipeline k => cases k <;> decide +kernel
    | buffer b => exact hbuf b _ (by simp [bufferObjects])
    | memory b => exact hbuf b _ (by simp [bufferObjects])
    | mapping b => exact hbuf b _ (by simp [bufferObjects])
    | _ => decide +kernel

section Create
variable (d : Driver) {R : Option (Result × State Obj) → Prop}

theorem createObjects_ends (hsplits : d.splits = true → R none)
    (hfail : d.splits = false → d.result ≠ .ok → R (some (d.result, ⟨d.leaked, ∅⟩)))
    (hok : d.splits = false → d.result = .ok → ∀ s, Holding created s → R (some (.ok, s))) :
    R (createObjects d ⟨∅, ∅⟩) := by
  have hearly : d.reaches = false → R (some (.errGpu, ⟨d.leaked, ∅⟩)) := fun h => by
    simpa [Driver.splits, Driver.result, Driver.opens, h] using hfail
  unfold createObjects buildPipelines
  simp only [orDelete_andThen]
  refine @ends_orDelete [] [.vkInstance] _ (d.grants .vkInstance) _ _ _ R
    (grows_create (by simp [Obj.parent]) (by simp)) ⟨rfl, by simp⟩ (by simp) (by simp)
    (fun _ h => by rw [h]; exact grows_denied (by simp [Obj.parent]) (by simp)) (fun h => ?_)
    fun hinst s hs => ?_
  · simpa [Driver.leaked, h] using hearly (by simp [Driver.reaches, h])
  refine @ends_orDelete _ [] _ d.picks _ _ _ R grows_pure hs (by simp) (by simp)
    (fun _ h => by rw [← h]; exact grows_pure) (fun h => ?_) fun hpicks s hs => ?_
  · simpa [Driver.leaked, hinst, h] using hearly (by simp [Driver.reaches, h])
  refine @ends_orDelete _ [.device] _ (d.grants .device) _ _ _ R
    (grows_create (by simp [Obj.parent]) (by simp)) hs (by simp) (by simp)
    (fun _ h => by rw [h]; exact grows_denied (by simp [Obj.parent]) (by simp)) (fun h => ?_)
    fun hdevice s hs => ?_
  · simpa [Driver.leaked, hinst, h] using hearly (by simp [Driver.reaches, h])
  -- From here on there is a device, and with it the destructor gets everything.
  rw [show d.leaked = ∅ by simp [Driver.leaked, hpicks, hdevice]] at hfail hearly
  refine @ends_orDelete _ [.cmdPool] _ (d.grants .cmdPool) _ _ _ R
    (grows_create (by simp [Obj.parent]) (by simp)) hs (by simp) (by simp)
    (fun h => absurd (by simp) h) (fun h => hearly (by simp [Driver.reaches, h])) fun hpool s hs => ?_
  refine @ends_orDelete _ [] _ d.commandBuffers _ _ _ R (grows_pure.use (by simp)) hs (by simp)
    (by simp) (fun h => absurd (by simp) h) (fun h => hearly (by simp [Driver.reaches, h]))
    fun hcmd s hs => ?_
  refine @ends_orDelete _ [.fence] _ (d.grants .fence) _ _ _ R
    (grows_create (by simp [Obj.parent]) (by simp)) hs (by simp) (by simp)
    (fun h => absurd (by simp) h) (fun h => hearly (by simp [Driver.reaches, h])) fun hfence s hs => ?_
  refine @ends_orDelete _ [.pipelineLayout] _ (d.grants .pipelineLayout) _ _ _ R
    (grows_create (by simp [Obj.parent]) (by simp)) hs (by simp) (by simp)
    (fun h => absurd (by simp) h) (fun h => hearly (by simp [Driver.reaches, h]))
    fun hlayout s hs => ?_
  refine @ends_orDelete _ (kernels.flatMap fun k => [.pipeline k]) _
    (kernels.all fun k => d.grantsModule k && d.grants (.pipeline k)) _ _ _ R
    (grows_untilDenied (fun k _ => grows_createPipeline (by simp) (by simp)) (by decide)) hs
    (by decide) (by decide) (fun h => absurd (by simp) h)
    (fun h => hearly (by simp [Driver.reaches, h])) fun hkernels s hs => ?_
  have hreaches : d.reaches = d.grantsModule .reduceThroughput := by
    simp [Driver.reaches, hinst, hpicks, hdevice, hpool, hcmd, hfence, hlayout, hkernels]
  by_cases hsplit : d.splits = true
  · obtain ⟨hgranted, hne⟩ := Bool.and_eq_true_iff.mp hsplit
    have hnew : ∀ k ∉ kernels, .pipeline k ∉ s.held := fun k hk h => hk (by
      simpa using (hs.mem _).mp h)
    obtain ⟨ok, s', hrun, rfl, k, halive, hlost, hthere⟩ :=
      createReducePipelines_splits hs.known ((hs.mem _).mpr (by simp)) ((hs.mem _).mpr (by simp))
        (fun h => absurd ((hs.mem _).mp h) (by decide)) hnew (hreaches ▸ hgranted) (bne_iff_ne.mp hne)
    rw [show orDelete _ _ _ s = none from ?_]
    · exact hsplits hsplit
    · show ((createReducePipelines d s).bind _) = none
      rw [hrun]
      exact bind_eq_none fun _ _ hdelete =>
        absurd ((deleteProver_eq_none halive hlost hthere).symm.trans hdelete) nofun
  have hsplit : d.splits = false := eq_false_of_ne_true hsplit
  have hboth : d.grantsModule .reduceThroughput = true →
      d.grants (.pipeline .reduceThroughput) = d.grants (.pipeline .reduceLatency) := fun h => by
    rw [Driver.splits, hreaches, h, Bool.true_and] at hsplit
    exact bne_eq_false_iff_eq.mp hsplit
  have hlate : ∀ {rc : Result} {need : List Obj}, .device ∈ need → d.result = rc → rc ≠ .ok →
      R (some (rc, ⟨if .device ∈ need then ∅ else need.toFinset, ∅⟩)) := fun hneed hrc hne => by
    rw [if_pos hneed, ← hrc]
    exact hfail hsplit (hrc ▸ hne)
  refine @ends_orDelete _ [.pipeline .reduceThroughput, .pipeline .reduceLatency] _ _ _ _ _ R
    (grows_createReducePipelines (by simp) (by simp) hboth) hs (by decide) (by decide)
    (fun h => absurd (by simp) h) (fun h => hlate (by simp) ?_ nofun) fun hreduce s hs => ?_
  · rw [Driver.result, if_neg (by simpa [Driver.opens, hreaches, Bool.and_assoc] using h)]
  have hopens : d.opens = true := by
    simpa [Driver.opens, hreaches, Bool.and_assoc] using hreduce
  have hallocates : d.allocates = (setupBuffers.all d.allocated && workingBuffers.all d.allocated) :=
    List.all_append
  refine @ends_orDelete _ (setupBuffers.flatMap bufferObjects) _ _ _ _ _ R
    (grows_createBuffers (by simp) (by decide +kernel)) hs (by decide +kernel) (by decide +kernel)
    (fun h => absurd (by simp) h) (fun h => hlate (by simp) ?_ nofun) fun hsetup s hs => ?_
  · rw [Driver.result, if_pos hopens, hallocates, h]
    rfl
  refine @ends_orDelete _ (workingBuffers.flatMap bufferObjects) _ _ _ _ _ R
    (grows_createBuffers (by simp) (by decide +kernel)) hs (by decide +kernel) (by decide +kernel)
    (fun h => absurd (by simp) h) (fun h => hlate (by simp) ?_ nofun) fun hworking s hs => ?_
  · rw [Driver.result, if_pos hopens, hallocates, h, Bool.and_false]
    rfl
  have hresult : d.result = if d.populate.completes then .ok else .errGpu := by
    rw [Driver.result, if_pos hopens, hallocates, hsetup, hworking]
    rfl
  refine @ends_orDelete _ [] _ _ _ _ _ R (grows_useAll (by decide +kernel)) hs (by decide +kernel)
    (by simp) (fun h => absurd (by simp) h) (fun h => hlate (by simp) ?_ nofun) fun hpopulate s hs => ?_
  · rw [hresult, h]
    rfl
  exact hok hsplit (by rw [hresult, hpopulate]; rfl) s hs

theorem runs_useAll {os : List Obj} {s : State Obj} {Q : Unit → State Obj → Prop}
    (hs : s.alive = s.held) (h : ∀ o ∈ os, o ∈ s.held) (hQ : Q () s) : Runs (useAll os) s Q := by
  induction os with
  | nil => exact runs_pure hQ
  | cons o os ih =>
    obtain ⟨ho, hos⟩ := List.forall_mem_cons.mp h
    exact runs_bind (runs_use hs ho (ih hos))

theorem not_shaderModule_mem (b : Batch) : .shaderModule ∉ b.objects := by
  cases b <;> decide

theorem Driver.granted_of_ok (h : d.result = .ok) :
    d.opens = true ∧ d.allocates = true ∧ d.leaked = ∅ := by
  unfold Driver.result at h
  split_ifs at h with hopens hall
  have hdevice := hopens
  simp only [Driver.opens, Driver.reaches, Bool.and_eq_true] at hdevice
  exact ⟨hopens, hall, by simp [Driver.leaked, hdevice]⟩

theorem lifetime_eq (batches : List Batch) : lifetime d batches ⟨∅, ∅⟩ =
    if d.splits then none else some (d.result, ⟨d.leaked, ∅⟩) := by
  show (createObjects d ⟨∅, ∅⟩).bind _ = _
  refine @createObjects_ends d (fun r => r.bind _ = _) (fun h => ?_) (fun h hne => ?_)
    fun h hok s hs => ?_
  · rw [if_pos h]
    rfl
  · rw [h, if_neg nofun]
    show (if d.result = .ok then _ else _ : Program Obj Result) _ = _
    rw [if_neg hne]
    rfl
  · have hmodule : .shaderModule ∉ s.held := fun hmem =>
      (mem_created _).mp ((hs.mem _).mp hmem) rfl
    have hdevice : .device ∈ s.held := (hs.mem _).mpr ((mem_created _).mpr nofun)
    have huse : ∀ o ∈ batches.flatMap Batch.objects, o ∈ s.held := fun o ho => by
      obtain ⟨b, -, hb⟩ := List.mem_flatMap.mp ho
      exact (hs.mem o).mpr ((mem_created o).mpr fun h => not_shaderModule_mem b (h ▸ hb))
    obtain ⟨-, -, hleaked⟩ := d.granted_of_ok hok
    obtain ⟨rc, s', hrun, rfl, rfl⟩ : Runs (do
        useAll (batches.flatMap Batch.objects)
        deleteProver
        pure Result.ok : Program Obj Result) s fun rc s' => rc = .ok ∧ s' = ⟨∅, ∅⟩ :=
      runs_bind (runs_useAll hs.known huse (runs_bind (runs_deleteProver hs.known hmodule
        (runs_pure ⟨rfl, by rw [if_pos hdevice]⟩))))
    rw [h, if_neg nofun, hok, hleaked]
    exact hrun

end Create

def statusOf {α : Type} : Except Result α → Result
  | .ok _ => .ok
  | .error rc => rc

/-- A prover that is created, used and freed on any driver breaks no rule of use, unless the driver
makes only one of the two pipelines of the bucket reduction. It returns what creation returns, and
leaves nothing behind, unless there is an instance and no device. -/
theorem prover_lifetime (d : Driver) (batches : List Batch) :
    lifetime d batches ⟨∅, ∅⟩ = (if d.splits then none else some (d.result, ⟨d.leaked, ∅⟩)) ∧
    (d.opens = true → ∀ tables opts cores m, d.result =
      statusOf (createProver tables opts cores d.allocates d.populate m)) ∧
    (d.result = .ok → d.leaked = ∅ ∧ ∃ dev, (pickPhysicalDevice d.devices).1 = some dev ∧
      ∀ b, ∃ flags, dev.memoryTypes[d.memoryType b]? = some flags ∧
        flags &&& (memoryHostVisible ||| memoryHostCoherent) =
          memoryHostVisible ||| memoryHostCoherent ∧ d.typeBits b &&& 1 <<< d.memoryType b ≠ 0) := by
  refine ⟨lifetime_eq d batches, fun hopens tables opts cores m => ?_, fun hok => ?_⟩
  · unfold Driver.result createProver
    rw [if_pos hopens]
    split_ifs with hall hdone <;> cases hsub : d.populate <;>
      simp_all [Submission.run, Submission.completes, statusOf]
  · obtain ⟨hopens, hall, hleaked⟩ := d.granted_of_ok hok
    have hpicks : d.picks = true := by
      simp only [Driver.opens, Driver.reaches, Bool.and_eq_true] at hopens
      tauto
    obtain ⟨dev, hdev⟩ := Option.isSome_iff_exists.mp hpicks
    refine ⟨hleaked, dev, hdev, fun b => ?_⟩
    have hbuf : b ∈ setupBuffers ++ workingBuffers := by
      cases b <;> decide
    have hallocated := List.all_eq_true.mp hall b hbuf
    have htype : d.memoryType b =
        findMemoryType dev.memoryTypes (d.typeBits b) (memoryHostVisible ||| memoryHostCoherent) := by
      rw [Driver.memoryType, hdev]
    simp only [Driver.allocated, Bool.and_eq_true, bne_iff_ne] at hallocated
    rw [htype] at hallocated ⊢
    exact findMemoryType_spec hallocated.2.1

/-- A driver with one device that grants everything but the second pipeline of the reduction. -/
def splittingDriver : Driver where
  devices := [⟨apiVersion12, .discreteGpu, requestedFeatures, 0x30, 0x20, [0x2], [0x6]⟩]
  grants o := o != .pipeline .reduceLatency
  grantsModule _ := true
  commandBuffers := true
  typeBits _ := 1
  binds _ := true
  populate := .completed

example : splittingDriver.splits = true := by decide

example : { splittingDriver with grants := fun _ => true }.result = .ok := by decide +kernel

end Vkzg
