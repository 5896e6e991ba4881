import Vkzg.Host.Calls
import Vkzg.Library.Mutex

/-! Calls of several threads on one prover. Each call checks its arguments, takes the mutex of the
prover and then works through its batches. -/

namespace Vkzg
open Radix Gpu Chunks

def Call.batch (u : ℕ → ℕ) (s : ℕ → Schedule) (p : Prover) :
    Call → ℕ → ℕ → Bytes × Mem → Result × Bytes × Mem
  | .computeProofsBatch _ _ blobs _ => computeStep u s p blobs
  | .recoverCellsBatch _ _ cells cellPresent _ => recoverStep u s cells cellPresent

/-- A call under the lock: how many blobs are done, and what its array holds. -/
structure Job where
  schedule : ℕ → Schedule
  call : Call
  blobs : ℕ
  array : Bytes

/-- A call as a thread executes it: the checks before the lock, and under it one turn of the loop. -/
def callCode (u : ℕ → ℕ) (p : Prover) :
    Mutex.Code ((ℕ → Schedule) × Call) Job Mem (Result × Bytes) where
  enter c :=
    if !c.2.given then .inl (.errBadArgs, c.2.array)
    else if c.2.numBlobs = 0 then .inl (.ok, c.2.array)
    else .inr ⟨c.1, c.2, 0, c.2.array⟩
  step j m :=
    if j.blobs < j.call.numBlobs then
      let batch := min p.maxBatch (j.call.numBlobs - j.blobs)
      let r := j.call.batch u j.schedule p j.blobs batch (j.array, m)
      if r.1 = .ok then (.inr ⟨j.schedule, j.call, j.blobs + batch, r.2.1⟩, r.2.2)
      else (.inl (r.1, r.2.1), r.2.2)
    else (.inl (.ok, j.array), m)

section Serial
variable {u : ℕ → ℕ} {p : Prover} {m m' : Mem} {T : Type}

/-- What is left of a call. -/
def Job.rest (u : ℕ → ℕ) (p : Prover) (j : Job) (m : Mem) : Result × Bytes × Mem :=
  loop .ok (j.call.batch u j.schedule p) p.maxBatch p.maxBatch_pos j.call.numBlobs j.blobs (j.array, m)

theorem callCode_step_inr {j j' : Job} (h : (callCode u p).step j m = (.inr j', m')) :
    j.blobs < j.call.numBlobs ∧ j'.call = j.call ∧
      j'.blobs = j.blobs + min p.maxBatch (j.call.numBlobs - j.blobs) ∧
      j.rest u p m = j'.rest u p m' := by
  simp only [callCode] at h
  split_ifs at h with hlt hok
  · cases h
    refine ⟨hlt, rfl, rfl, ?_⟩
    rw [Job.rest, loop, dif_pos hlt, if_pos hok]
    rfl
  · cases h
  · cases h

theorem callCode_step_inl {j : Job} {r : Result × Bytes}
    (h : (callCode u p).step j m = (.inl r, m')) : j.rest u p m = (r.1, r.2, m') := by
  simp only [callCode] at h
  rw [Job.rest, loop]
  split_ifs at h with hlt hok
  · cases h
  · cases h
    rw [dif_pos hlt, if_neg hok]
  · cases h
    rw [dif_neg hlt]

theorem Call.run_not_given {c : Call} (h : c.given = false) (s : ℕ → Schedule) :
    c.run u s p m = (.errBadArgs, c.array, m) := by
  cases c with
  | computeProofsBatch given proofs blobs n =>
    obtain rfl : given = false := h
    rfl
  | recoverCellsBatch given cellsOut cells cellPresent n =>
    obtain rfl : given = false := h
    rfl

theorem Call.run_loop {c : Call} (h : c.given = true) (s : ℕ → Schedule) :
    c.run u s p m = loop .ok (c.batch u s p) p.maxBatch p.maxBatch_pos c.numBlobs 0 (c.array, m) := by
  cases c with
  | computeProofsBatch given proofs blobs n =>
    obtain rfl : given = true := h
    exact computeProofsBatch_eq_loop
  | recoverCellsBatch given cellsOut cells cellPresent n =>
    obtain rfl : given = true := h
    exact recoverCellsBatch_eq_loop

/-- A call that no other one interrupts. -/
theorem run_of_runs {c : (ℕ → Schedule) × Call} {r : Result × Bytes}
    (h : Mutex.Runs (callCode u p) c m r m') : c.2.run u c.1 p m = (r.1, r.2, m') := by
  cases h with
  | leave he =>
    simp only [callCode] at he
    split_ifs at he with hgiven hzero
    · cases he
      exact Call.run_not_given (by simpa using hgiven) c.1
    · cases he
      rw [Call.run_loop (by simpa using hgiven), hzero, loop_zero]
  | release he hgo hs =>
    simp only [callCode] at he
    split_ifs at he with hgiven hzero
    cases he
    rw [Call.run_loop (by simpa using hgiven), ← callCode_step_inl hs,
      ← hgo.invariant (F := Job.rest u p) fun _ _ _ _ h => (callCode_step_inr h).2.2.2]
    rfl

theorem runCalls_append (cs : List ((ℕ → Schedule) × Call)) (c : (ℕ → Schedule) × Call) (m : Mem) :
    runCalls u p (cs ++ [c]) m =
      let before := runCalls u p cs m
      let r := c.2.run u c.1 p before.2
      (before.1 ++ [returned r], r.2.2) := by
  induction cs generalizing m with
  | nil => rfl
  | cons c' cs ih =>
    rw [List.cons_append, runCalls, ih]
    rfl

/-- The log of the machine is a sequence of calls. -/
theorem runCalls_of_serial {log : List (T × ((ℕ → Schedule) × Call) × Result × Bytes)}
    (h : Mutex.Serial (callCode u p) m log m') :
    runCalls u p (log.map fun e => e.2.1) m = (log.map fun e => e.2.2, m') := by
  induction h with
  | nil => rfl
  | snoc _ hrun ih =>
    have hcall := run_of_runs hrun
    rw [List.map_append, List.map_append, List.map_singleton, runCalls_append, ih]
    simp only [hcall]
    rfl

end Serial

/-! ### Any number of threads -/

section Threads
variable {u : ℕ → ℕ} {p : Prover} {m : Mem} {T : Type} [DecidableEq T]
  {program : T → List ((ℕ → Schedule) × Call)}
  {σ : Mutex.State T ((ℕ → Schedule) × Call) Job Mem (Result × Bytes)}

/-- The turns of the loop that a call has left. -/
def Job.left (j : Job) : ℕ := j.call.numBlobs - j.blobs

theorem Job.left_lt (j : Job) (m : Mem) (j' : Job) (m' : Mem)
    (h : (callCode u p).step j m = (.inr j', m')) : j'.left < j.left := by
  obtain ⟨hlt, hcall, hblobs, -⟩ := callCode_step_inr h
  have hpos := p.maxBatch_pos
  rw [Job.left, Job.left, hcall, hblobs]
  omega

theorem callCode_cost_le (c : (ℕ → Schedule) × Call) :
    (callCode u p).cost Job.left c ≤ c.2.numBlobs + 3 := by
  unfold Mutex.Code.cost callCode
  simp only
  split_ifs <;> simp [Job.left]

end Threads

/-- However the threads of a program interleave, their calls return what they return one after the
other, in the order of the log. A call that has returned stands in it before any that starts later. At
most one thread is under the lock. As long as a call is left some thread can go on, and no run is longer
than the blobs of all calls and three steps for each of them. -/
theorem threads_serialised {u : ℕ → ℕ} {p : Prover} {m : Mem} {T : Type} [DecidableEq T] [Fintype T]
    {program : T → List ((ℕ → Schedule) × Call)}
    {σ : Mutex.State T ((ℕ → Schedule) × Call) Job Mem (Result × Bytes)}
    (h : Mutex.Reachable (callCode u p) program m σ) :
    let serial := runCalls u p (σ.log.map fun e => e.2.1) m
    serial.1 = σ.log.map (fun e => e.2.2) ∧ (σ.holder = none → σ.mem = serial.2) ∧
    (∀ t, Mutex.ofThread σ.log t = (σ.threads t).returned ∧
      (σ.threads t).returned.map Prod.fst <+: program t ∧
      ((σ.threads t).Finished → (σ.threads t).returned.map Prod.fst = program t)) ∧
    (∀ σ', Relation.ReflTransGen (Mutex.Step (callCode u p)) σ σ' → σ.log <+: σ'.log) ∧
    (∀ t t' c c' j j', (σ.threads t).phase = .holding c j → (σ.threads t').phase = .holding c' j' →
      t = t') ∧
    ((∃ t, ¬(σ.threads t).Finished) → ∃ σ', Mutex.Step (callCode u p) σ σ') ∧
    ∀ run : ℕ → Mutex.State T ((ℕ → Schedule) × Call) Job Mem (Result × Bytes), ∀ n,
      run 0 = Mutex.start program m → (∀ i < n, Mutex.Step (callCode u p) (run i) (run (i + 1))) →
        n ≤ ∑ t, ((program t).map fun c => c.2.numBlobs + 3).sum := by
  have hinv := h.inv
  obtain ⟨m', hserial, hfree, -⟩ := hinv.serial
  have hruns := runCalls_of_serial hserial
  intro serial
  refine ⟨by simp only [serial, hruns], fun hnone => ?_, fun t => ⟨(hinv.own t).logged, ?_,
    hinv.finished⟩, fun σ' hlater => Mutex.log_prefix hlater, fun t t' c c' j j' => hinv.exclusive,
    fun ⟨t, ht⟩ => hinv.progress ht, fun run n hstart hrun => ?_⟩
  · simp only [serial, hruns]
    exact hfree hnone
  · rw [(hinv.own t).order]
    exact List.prefix_append _ _
  · have hle := Mutex.length_run_le Job.left_lt hrun
    rw [hstart] at hle
    refine (Nat.le_add_right n _).trans (hle.trans (Finset.sum_le_sum fun t _ => ?_))
    simp only [Mutex.start, Mutex.Thread.cost, Nat.add_zero]
    exact List.sum_le_sum fun c _ => callCode_cost_le c

/-- A call for the proofs of one blob, and before it, on the last thread, one with a null pointer. -/
def threeThreads (t : Fin 3) : List ((ℕ → Schedule) × Call) :=
  (if t = 2 then [false, true] else [true]).map fun given =>
    (fun _ => undisturbed, .computeProofsBatch given (fun _ => 0) (fun _ => 0) 1)

/-- One thread is under the lock, and the other two wait for it, one of them in its second call. -/
theorem exists_contention (p : Prover) (m : Mem) : ∃ σ,
    Mutex.Reachable (callCode uint32 p) threeThreads m σ ∧ σ.holder = some 0 ∧
      (∀ t ≠ 0, ∃ c j, (σ.threads t).phase = .waiting c j) ∧
      (σ.threads 2).returned.map Prod.snd = [(.errBadArgs, fun _ => 0)] := by
  refine ⟨_, ((((Relation.ReflTransGen.refl.tail (.arrive (t := 0) rfl rfl)).tail
    (.acquire (t := 0) rfl rfl)).tail (.arrive (t := 1) rfl rfl)).tail
    (.leave (t := 2) rfl rfl)).tail (.arrive (t := 2) rfl rfl), rfl, fun t ht => ?_, rfl⟩
  fin_cases t
  · exact absurd rfl ht
  · exact ⟨_, _, rfl⟩
  · exact ⟨_, _, rfl⟩

theorem threads_serialised_contention : ∃ p m,
    Loaded rootOfUnity (fun _ _ => 0) (fun _ => 0) p m ∧
    ∃ σ, Mutex.Reachable (callCode uint32 p) threeThreads m σ ∧ σ.holder = some 0 ∧
      (∀ t ≠ 0, ∃ c j, (σ.threads t).phase = .waiting c j) ∧
      ∃ σ', Mutex.Step (callCode uint32 p) σ σ' := by
  obtain ⟨p, m, hloaded, -⟩ := exists_loaded rootOfUnity (fun _ _ => 0) (fun _ => 0) none
  obtain ⟨σ, h, hholder, hwaiting, -⟩ := exists_contention p m
  obtain ⟨-, -, -, -, -, hprogress, -⟩ := threads_serialised h
  obtain ⟨c, j, hphase⟩ := hwaiting 1 (by decide)
  exact ⟨p, m, hloaded, σ, h, hholder, hwaiting,
    hprogress ⟨1, fun hdone => absurd (hdone.1.symm.trans hphase) nofun⟩⟩

/-- Each call of each thread returns what it returns by itself on a fresh prover, whatever the other
threads do, and a thread that is done has the results of its whole program. -/
theorem threads_result {w : ScalarField} (hw : IsPrimitiveRoot w 8192) {P : ℕ → ℕ → ScalarPoint}
    {K : ZMod circulantSize → ScalarField} {tables : PrecomputedTables}
    (htables : Generated w P K tables) {opts : Option UInt32} {cores : ℕ} {granted : Bool}
    {sub : Submission} {m₀ m : Mem} {p : Prover}
    (hcreate : createProver tables opts cores granted sub m₀ = .ok (p, m)) {u : ℕ → ℕ} {T : Type}
    [DecidableEq T] {program : T → List ((ℕ → Schedule) × Call)}
    (hu : ∀ t, ∀ c ∈ program t, ExactIndices u (min p.maxBatch c.2.numBlobs))
    (hs : ∀ t, ∀ c ∈ program t, ∀ n, (c.1 n).submission = .completed)
    {σ : Mutex.State T ((ℕ → Schedule) × Call) Job Mem (Result × Bytes)}
    (h : Mutex.Reachable (callCode u p) program m σ) :
    (∀ t, ∀ e ∈ (σ.threads t).returned, e.2 = e.1.2.result w P K p.maxBatch) ∧
    (∀ t, (σ.threads t).Finished →
      (σ.threads t).returned = (program t).map fun c => (c, c.2.result w P K p.maxBatch)) ∧
    (σ.holder = none → SetupKept m σ.mem) := by
  have hinv := h.inv
  obtain ⟨m', hserial, hfree, -⟩ := hinv.serial
  have hruns := runCalls_of_serial hserial
  -- A call in the log is one of the program of its thread.
  have hprogram : ∀ e ∈ σ.log, e.2.1 ∈ program e.1 := fun e he => by
    have hmem : e.2 ∈ (σ.threads e.1).returned := by
      rw [← (hinv.own e.1).logged]
      exact List.mem_map_of_mem (List.mem_filter.mpr ⟨he, decide_eq_true rfl⟩)
    rw [(hinv.own e.1).order]
    exact List.mem_append_left _ (List.mem_map_of_mem hmem)
  obtain ⟨hresults, hkeep⟩ := runCalls_result hw (htables.loaded hcreate)
    (σ.log.map fun e => e.2.1)
    (fun c hc => by
      obtain ⟨e, he, rfl⟩ := List.mem_map.mp hc
      exact hu e.1 _ (hprogram e he))
    (fun c hc => by
      obtain ⟨e, he, rfl⟩ := List.mem_map.mp hc
      exact hs e.1 _ (hprogram e he))
  rw [hruns] at hresults hkeep
  have hlog : ∀ e ∈ σ.log, e.2.2 = e.2.1.2.result w P K p.maxBatch := by
    rw [List.map_map] at hresults
    exact List.map_inj_left.mp hresults
  have hreturned : ∀ t, ∀ e ∈ (σ.threads t).returned, e.2 = e.1.2.result w P K p.maxBatch :=
    fun t e he => by
      rw [← (hinv.own t).logged] at he
      obtain ⟨e', he', rfl⟩ := List.mem_map.mp he
      exact hlog e' (List.mem_filter.mp he').1
  refine ⟨hreturned, fun t ht => ?_, fun hnone => ?_⟩
  · rw [← hinv.finished ht, List.map_map]
    exact (List.map_id _).symm.trans
      (List.map_congr_left fun e he => Prod.ext rfl (hreturned t e he))
  · rw [hfree hnone]
    exact hkeep

theorem threads_result_contention : ∃ tables p m,
    createProver tables none 0 true .completed (fun _ _ => 0) = .ok (p, m) ∧
    ∃ σ, Mutex.Reachable (callCode uint32 p) threeThreads m σ ∧ σ.holder = some 0 ∧
      (σ.threads 2).returned ≠ [] ∧ ∀ e ∈ (σ.threads 2).returned,
        e.2 = e.1.2.result rootOfUnity (fun _ _ => 0) (fun _ => 0) p.maxBatch := by
  obtain ⟨tables, h⟩ := exists_generated rootOfUnity (fun _ _ => 0) fun _ => 0
  obtain ⟨p, m, hcreate⟩ : ∃ p m,
      createProver tables none 0 true .completed (fun _ _ => 0) = .ok (p, m) := ⟨_, _, rfl⟩
  have hbatch : p.maxBatch ≤ 7281 := by
    rw [maxBatch_createProver hcreate]
    decide
  obtain ⟨σ, hσ, hholder, -, hreturned⟩ := exists_contention p m
  refine ⟨tables, p, m, hcreate, σ, hσ, hholder, fun hnil => ?_, ?_⟩
  · rw [hnil] at hreturned
    exact absurd hreturned nofun
  · refine (threads_result isPrimitiveRoot_rootOfUnity h hcreate
      (fun _ _ _ => exactIndices_uint32 ((Nat.min_le_left _ _).trans hbatch)) (fun t c hc n => ?_)
        hσ).1 2
    obtain ⟨given, -, rfl⟩ := List.mem_map.mp hc
    rfl

end Vkzg
