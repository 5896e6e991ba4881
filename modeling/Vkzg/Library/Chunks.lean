import Mathlib.Data.List.Range
import Mathlib.Data.List.Find
import Mathlib.Tactic.Ring

/-! Loops that work through a range in chunks of bounded length and stop at the first chunk that
fails, with the rule for proving what such a loop does. -/

namespace Chunks

variable {σ ρ : Type} [DecidableEq ρ]

/-- Starts and lengths of the chunks of `[0, total)`. -/
def chunks (limit total : ℕ) : List (ℕ × ℕ) :=
  (List.range ((total + limit - 1) / limit)).map fun k => (k * limit, min limit (total - k * limit))

/-- One chunk after the other, until one does not return `ok`. -/
def runUntil (ok : ρ) (step : ℕ → ℕ → σ → ρ × σ) : List (ℕ × ℕ) → σ → ρ × σ
  | [], st => (ok, st)
  | c :: cs, st =>
    if (step c.1 c.2 st).1 = ok then runUntil ok step cs (step c.1 c.2 st).2 else step c.1 c.2 st

/-- The loop: while `done` is short of `total`, take the next chunk. -/
def loop (ok : ρ) (step : ℕ → ℕ → σ → ρ × σ) (limit : ℕ) (hlimit : 0 < limit) (total done : ℕ)
    (st : σ) : ρ × σ :=
  if _h : done < total then
    let batch := min limit (total - done)
    if (step done batch st).1 = ok then
      loop ok step limit hlimit total (done + batch) (step done batch st).2
    else step done batch st
  else (ok, st)
termination_by total - done
decreasing_by omega

section Partition
variable {limit total : ℕ}

theorem chunk_lt (hlimit : 0 < limit) {k : ℕ} :
    k < (total + limit - 1) / limit ↔ k * limit < total := by
  rw [Nat.lt_iff_add_one_le, Nat.le_div_iff_mul_le hlimit, Nat.succ_mul]
  omega

theorem chunk_length (hlimit : 0 < limit) {c : ℕ × ℕ} (hc : c ∈ chunks limit total) :
    0 < c.2 ∧ c.2 ≤ limit ∧ c.1 + c.2 ≤ total := by
  obtain ⟨k, hk, rfl⟩ := List.mem_map.mp hc
  have hlt := (chunk_lt hlimit).mp (List.mem_range.mp hk)
  simp only
  omega

theorem chunk_start {start b : ℕ} (hdvd : limit ∣ start) (hlo : start ≤ b) (hhi : b < start + limit) :
    b / limit * limit = start := by
  obtain ⟨k, rfl⟩ := hdvd
  rw [Nat.mul_comm]
  congr 1
  exact Nat.div_eq_of_lt_le (by rwa [Nat.mul_comm]) (by rw [Nat.succ_mul, Nat.mul_comm k]; omega)

/-- The chunks cover the range, in order and without overlap. -/
theorem flatMap_chunks (hlimit : 0 < limit) :
    (chunks limit total).flatMap (fun c => List.range' c.1 c.2) = List.range total := by
  have key : ∀ q ≤ (total + limit - 1) / limit, (List.range q).flatMap (fun k =>
      List.range' (k * limit) (min limit (total - k * limit))) =
        List.range (min total (q * limit)) := by
    intro q
    induction q with
    | zero => simp
    | succ q ih =>
      intro hq
      have hlt := (chunk_lt (k := q) hlimit).mp hq
      have hsplit : min total ((q + 1) * limit) = q * limit + min limit (total - q * limit) := by
        rw [Nat.succ_mul]
        omega
      have happend := @List.range'_append_1 0 (q * limit) (min limit (total - q * limit))
      rw [Nat.zero_add] at happend
      rw [List.range_succ, List.flatMap_append, List.flatMap_singleton, ih (by omega), hsplit,
        show min total (q * limit) = q * limit by omega, List.range_eq_range', List.range_eq_range',
        happend]
  have hcover : total ≤ (total + limit - 1) / limit * limit := by
    by_contra hlt
    exact Nat.lt_irrefl _ ((chunk_lt hlimit).mpr (Nat.lt_of_not_le hlt))
  rw [chunks, List.flatMap_map, key _ le_rfl, Nat.min_eq_left hcover]

end Partition

section Loop
variable {ok : ρ} {step : ℕ → ℕ → σ → ρ × σ} {limit total : ℕ}

theorem loop_zero (hlimit : 0 < limit) (st : σ) : loop ok step limit hlimit 0 0 st = (ok, st) := by
  rw [loop, dif_neg (Nat.lt_irrefl 0)]

theorem loop_eq_runUntil (hlimit : 0 < limit) (st : σ) :
    loop ok step limit hlimit total 0 st = runUntil ok step (chunks limit total) st := by
  have key : ∀ n k st, k + n = (total + limit - 1) / limit →
      loop ok step limit hlimit total (min total (k * limit)) st = runUntil ok step
        ((List.range' k n).map fun k => (k * limit, min limit (total - k * limit))) st := by
    intro n
    induction n with
    | zero =>
      intro k st hk
      have hge : ¬k * limit < total := fun h => by
        have := (chunk_lt hlimit).mpr h
        omega
      rw [loop, dif_neg (by omega)]
      rfl
    | succ n ih =>
      intro k st hk
      have hlt := (chunk_lt hlimit).mp (show k < (total + limit - 1) / limit by omega)
      have hnext : k * limit + min limit (total - k * limit) = min total ((k + 1) * limit) := by
        rw [Nat.succ_mul]
        omega
      rw [show min total (k * limit) = k * limit by omega, loop, dif_pos hlt, List.range'_succ,
        List.map_cons, runUntil]
      simp only [hnext, ih (k + 1) _ (by omega)]
  have h := key ((total + limit - 1) / limit) 0 st (by omega)
  rwa [Nat.zero_mul, Nat.min_zero, ← List.range_eq_range'] at h

/-- The chunks one after the other, where a step may have several outcomes. -/
inductive RunsUntil (ok : ρ) (step : ℕ → ℕ → σ → ρ × σ → Prop) : List (ℕ × ℕ) → σ → ρ × σ → Prop
  | nil (st) : RunsUntil ok step [] st (ok, st)
  | next {c cs st st' r} (h : step c.1 c.2 st (ok, st')) (hrest : RunsUntil ok step cs st' r) :
    RunsUntil ok step (c :: cs) st r
  | stop {c cs st r} (h : step c.1 c.2 st r) (hne : r.1 ≠ ok) : RunsUntil ok step (c :: cs) st r

/-- Where an invariant leaves every step one outcome, so has the run. -/
theorem runsUntil_iff {f : ℕ → ℕ → σ → ρ × σ} {rel : ℕ → ℕ → σ → ρ × σ → Prop} {I : σ → Prop}
    {cs : List (ℕ × ℕ)} (hstep : ∀ c ∈ cs, ∀ st, I st → ∀ r, rel c.1 c.2 st r ↔ r = f c.1 c.2 st)
    (hkeep : ∀ c ∈ cs, ∀ st, I st → I (f c.1 c.2 st).2) {st : σ} (h0 : I st) {r : ρ × σ} :
    RunsUntil ok rel cs st r ↔ r = runUntil ok f cs st := by
  induction cs generalizing st with
  | nil => exact ⟨fun h => by cases h; rfl, fun h => h ▸ .nil st⟩
  | cons c cs ih =>
    have hc := hstep c List.mem_cons_self st h0
    have hrest := @ih (fun c' hc' => hstep c' (List.mem_cons_of_mem c hc'))
      (fun c' hc' => hkeep c' (List.mem_cons_of_mem c hc')) _ (hkeep c List.mem_cons_self st h0)
    rw [runUntil]
    split_ifs with hok
    · have hpair : (ok, (f c.1 c.2 st).2) = f c.1 c.2 st := Prod.ext hok.symm rfl
      refine ⟨fun h => ?_, fun h => .next ((hc _).mpr hpair) (hrest.mpr h)⟩
      cases h with
      | next h hrun =>
        obtain rfl : _ = (f c.1 c.2 st).2 := congrArg Prod.snd ((hc _).mp h)
        exact hrest.mp hrun
      | stop h hne => exact absurd ((congrArg Prod.fst ((hc _).mp h)).trans hok) hne
    · refine ⟨fun h => ?_, fun h => .stop ((hc _).mpr h) (h ▸ hok)⟩
      cases h with
      | next h hrun => exact absurd (congrArg Prod.fst ((hc _).mp h)).symm hok
      | stop h hne => exact (hc _).mp h

/-- To show what the loop returns, give an invariant of the items done so far: kept by a chunk that
succeeds, enough at the end, and enough where a chunk fails. -/
theorem loop_rule (hlimit : 0 < limit) {I : ℕ → σ → Prop} {Q : ρ × σ → Prop}
    (hstep : ∀ k st, k * limit < total → I (k * limit) st →
      (step (k * limit) (min limit (total - k * limit)) st).1 = ok →
      I (k * limit + min limit (total - k * limit))
        (step (k * limit) (min limit (total - k * limit)) st).2)
    (hfail : ∀ k st, k * limit < total → I (k * limit) st →
      (step (k * limit) (min limit (total - k * limit)) st).1 ≠ ok →
      Q (step (k * limit) (min limit (total - k * limit)) st))
    (hend : ∀ st, I total st → Q (ok, st)) {st : σ} (h0 : I 0 st) :
    Q (loop ok step limit hlimit total 0 st) := by
  -- By induction on the chunks left: the invariant holds of the items before them.
  have key : ∀ n k st, k + n = (total + limit - 1) / limit → I (min total (k * limit)) st →
      Q (runUntil ok step ((List.range' k n).map fun k =>
        (k * limit, min limit (total - k * limit))) st) := by
    intro n
    induction n with
    | zero =>
      intro k st hk hinv
      have hge : ¬k * limit < total := fun h => by
        have := (chunk_lt hlimit).mpr h
        omega
      rw [show min total (k * limit) = total by omega] at hinv
      exact hend st hinv
    | succ n ih =>
      intro k st hk hinv
      have hlt := (chunk_lt hlimit).mp (show k < (total + limit - 1) / limit by omega)
      have hnext : k * limit + min limit (total - k * limit) = min total ((k + 1) * limit) := by
        rw [Nat.succ_mul]
        omega
      rw [show min total (k * limit) = k * limit by omega] at hinv
      rw [List.range'_succ, List.map_cons, runUntil]
      split_ifs with hok
      · exact ih (k + 1) _ (by omega) (hnext ▸ hstep k st hlt hinv hok)
      · exact hfail k st hlt hinv hok
  rw [loop_eq_runUntil]
  have h := key ((total + limit - 1) / limit) 0 st (by omega)
  rw [Nat.zero_mul, Nat.min_zero, ← List.range_eq_range'] at h
  exact h h0

end Loop

/-! ### Loops over items -/

section Items
variable {α M : Type} {size limit total : ℕ} {ok : ρ} {good : ℕ → Prop} [DecidablePred good]
  {val : ℕ → ℕ → α} {fail : ρ → M → Prop} {keep : M → Prop}
  {step : ℕ → ℕ → (ℕ → α) × M → ρ × (ℕ → α) × M}

/-- An array of items of `size` entries in which the items from `lo` up to `hi` are set. -/
def written (size : ℕ) (val : ℕ → ℕ → α) (lo hi : ℕ) (out : ℕ → α) (i : ℕ) : α :=
  if lo * size ≤ i ∧ i < hi * size then val (i / size) (i % size) else out i

/-- The items done when the loop stops: all of them, or those before the chunk of the first one
that is not good. -/
def doneBefore (limit total : ℕ) (good : ℕ → Prop) [DecidablePred good] : ℕ :=
  match (List.range total).find? fun b => ¬good b with
  | none => total
  | some b => b / limit * limit

theorem written_zero (val : ℕ → ℕ → α) (out : ℕ → α) : written size val 0 0 out = out := by
  funext i
  rw [written, if_neg (by omega)]

theorem written_written (val : ℕ → ℕ → α) {lo hi : ℕ} (h : lo ≤ hi) (out : ℕ → α) :
    written size val lo hi (written size val 0 lo out) = written size val 0 hi out := by
  funext i
  have hle : lo * size ≤ hi * size := Nat.mul_le_mul_right size h
  unfold written
  by_cases hlo : i < lo * size
  · rw [if_neg (by omega), if_pos (by omega), if_pos (by omega)]
  · by_cases hhi : i < hi * size
    · rw [if_pos (by omega), if_pos (by omega)]
    · rw [if_neg (by omega), if_neg (by omega), if_neg (by omega)]

theorem doneBefore_of_forall (h : ∀ b < total, good b) : doneBefore limit total good = total := by
  have hnone : ((List.range total).find? fun b => ¬good b) = none := by
    refine List.find?_eq_none.mpr fun b hb => ?_
    simpa using h b (List.mem_range.mp hb)
  rw [doneBefore, hnone]

theorem doneBefore_congr {good' : ℕ → Prop} [DecidablePred good']
    (h : ∀ b < total, good b ↔ good' b) :
    doneBefore limit total good = doneBefore limit total good' := by
  have hfind : ((List.range total).find? fun b => ¬good b) =
      (List.range total).find? fun b => ¬good' b := by
    refine List.find?_congr fun b hb => ?_
    simp only [h b (List.mem_range.mp hb)]
  rw [doneBefore, hfind, doneBefore]

/-- The chunk of the first bad item is the first one with a bad item. -/
theorem doneBefore_eq {k : ℕ} (hlimit : 0 < limit) (hprev : ∀ b < k * limit, good b)
    (hbad : ∃ b, k * limit ≤ b ∧ b < k * limit + min limit (total - k * limit) ∧ ¬good b) :
    doneBefore limit total good = k * limit := by
  obtain ⟨b, hlo, hhi, hb⟩ := hbad
  unfold doneBefore
  cases hfind : (List.range total).find? fun b => ¬good b with
  | none =>
    have := List.find?_eq_none.mp hfind b (List.mem_range.mpr (by omega))
    simp [hb] at this
  | some first =>
    obtain ⟨hbad, as, bs, hsplit, has⟩ := List.find?_eq_some_iff_append.mp hfind
    have hlen : first = as.length := by
      -- The first bad item is neither before the chunk nor after the one in it.
      have hget : (List.range total)[as.length]? = some first := by
        rw [hsplit, List.getElem?_append_right le_rfl, Nat.sub_self, List.getElem?_cons_zero]
      rw [List.getElem?_range (by
        have hlength := congrArg List.length hsplit
        simp only [List.length_range, List.length_append, List.length_cons] at hlength
        omega)] at hget
      exact (Option.some.inj hget).symm
    have hge : k * limit ≤ first := by
      by_contra hlt
      exact absurd (hprev first (Nat.lt_of_not_le hlt)) (of_decide_eq_true hbad)
    have hle : first ≤ b := by
      by_contra hlt
      have hmem : b ∈ as := by
        have hb' : (List.range total)[b]? = some b := List.getElem?_range (by omega)
        rw [hsplit, List.getElem?_append_left (by omega)] at hb'
        exact List.mem_of_getElem? hb'
      have := has b hmem
      simp [hb] at this
    have hdiv : first / limit = k := by
      refine Nat.div_eq_of_lt_le hge ?_
      rw [Nat.succ_mul]
      omega
    change first / limit * limit = k * limit
    rw [hdiv]

/-- A step sets the items of its chunk if they are all good, and else fails and sets none. -/
structure Steps (ok : ρ) (limit total size : ℕ) (good : ℕ → Prop) (val : ℕ → ℕ → α)
    (keep : M → Prop) (fail : ρ → M → Prop) (step : ℕ → ℕ → (ℕ → α) × M → ρ × (ℕ → α) × M) :
    Prop where
  pass : ∀ done batch out m, limit ∣ done → 0 < batch → done + batch ≤ total → batch ≤ limit →
    keep m → (∀ b, done ≤ b → b < done + batch → good b) →
    (step done batch (out, m)).1 = ok ∧
      (step done batch (out, m)).2.1 = written size val done (done + batch) out ∧
      keep (step done batch (out, m)).2.2
  stop : ∀ done batch out m, limit ∣ done → 0 < batch → done + batch ≤ total → batch ≤ limit →
    keep m → (∃ b, done ≤ b ∧ b < done + batch ∧ ¬good b) →
    (step done batch (out, m)).1 ≠ ok ∧ (step done batch (out, m)).2.1 = out ∧
      fail (step done batch (out, m)).1 (step done batch (out, m)).2.2

/-- The same where a failure depends on the start of its chunk. -/
structure StepsAt (ok : ρ) (limit total size : ℕ) (good : ℕ → Prop) (val : ℕ → ℕ → α)
    (keep : M → Prop) (fail : ℕ → ρ → M → Prop) (step : ℕ → ℕ → (ℕ → α) × M → ρ × (ℕ → α) × M) :
    Prop where
  pass : ∀ done batch out m, limit ∣ done → 0 < batch → done + batch ≤ total → batch ≤ limit →
    keep m → (∀ b, done ≤ b → b < done + batch → good b) →
    (step done batch (out, m)).1 = ok ∧
      (step done batch (out, m)).2.1 = written size val done (done + batch) out ∧
      keep (step done batch (out, m)).2.2
  stop : ∀ done out m, limit ∣ done → done < total → keep m →
    (∃ b, done ≤ b ∧ b < done + min limit (total - done) ∧ ¬good b) →
    let r := step done (min limit (total - done)) (out, m)
    r.1 ≠ ok ∧ r.2.1 = out ∧ fail done r.1 r.2.2

/-- The loop sets the items before the first chunk that is not all good, and fails at that chunk. -/
theorem loop_items_at {fail : ℕ → ρ → M → Prop} (hlimit : 0 < limit)
    (h : StepsAt ok limit total size good val keep fail step) (out : ℕ → α) {m : M} (hm : keep m) :
    let r := loop ok step limit hlimit total 0 (out, m)
    r.2.1 = written size val 0 (doneBefore limit total good) out ∧
      ((∀ b < total, good b) → r.1 = ok ∧ keep r.2.2) ∧
      ((∃ b < total, ¬good b) → r.1 ≠ ok ∧ fail (doneBefore limit total good) r.1 r.2.2) := by
  let Inv : ℕ → (ℕ → α) × M → Prop := fun done st =>
    st.1 = written size val 0 done out ∧ keep st.2 ∧ ∀ b < done, good b
  have h0 : Inv 0 (out, m) :=
    ⟨(written_zero val out).symm, hm, fun b hb => absurd hb (Nat.not_lt_zero b)⟩
  have hrule := @loop_rule _ ρ _ ok step limit total hlimit Inv fun r =>
    r.2.1 = written size val 0 (doneBefore limit total good) out ∧
      ((∀ b < total, good b) → r.1 = ok ∧ keep r.2.2) ∧
      ((∃ b < total, ¬good b) → r.1 ≠ ok ∧ fail (doneBefore limit total good) r.1 r.2.2)
  refine hrule (fun k st hk hinv hok => ?_) (fun k st hk hinv hfail => ?_) (fun st hinv => ?_) h0
  · obtain ⟨hout, hkeep, hprev⟩ := hinv
    by_cases hall : ∀ b, k * limit ≤ b → b < k * limit + min limit (total - k * limit) → good b
    · obtain ⟨-, hset, hkeep'⟩ := h.pass (k * limit) _ st.1 st.2 (Nat.dvd_mul_left limit k)
        (by omega) (by omega) (by omega) hkeep hall
      refine ⟨?_, hkeep', fun b hb => ?_⟩
      · rw [hset, hout]
        exact written_written val (by omega) out
      · by_cases hlt : b < k * limit
        · exact hprev b hlt
        · exact hall b (by omega) hb
    · push Not at hall
      exact absurd hok (h.stop (k * limit) st.1 st.2 (Nat.dvd_mul_left limit k) hk hkeep hall).1
  · obtain ⟨hout, hkeep, hprev⟩ := hinv
    by_cases hall : ∀ b, k * limit ≤ b → b < k * limit + min limit (total - k * limit) → good b
    · exact absurd (h.pass (k * limit) _ st.1 st.2 (Nat.dvd_mul_left limit k)
        (by omega) (by omega) (by omega) hkeep hall).1 hfail
    · push Not at hall
      obtain ⟨hne, hset, hf⟩ := h.stop (k * limit) st.1 st.2 (Nat.dvd_mul_left limit k) hk hkeep hall
      rw [doneBefore_eq hlimit hprev hall]
      refine ⟨hset.trans hout, fun hgood => ?_, fun _ => ⟨hne, hf⟩⟩
      obtain ⟨b, -, hhi, hb⟩ := hall
      exact absurd (hgood b (by omega)) hb
  · obtain ⟨hout, hkeep, hprev⟩ := hinv
    refine ⟨?_, fun _ => ⟨rfl, hkeep⟩, fun hbad => ?_⟩
    · rw [hout, doneBefore_of_forall hprev]
    · obtain ⟨b, hb, hnot⟩ := hbad
      exact absurd (hprev b hb) hnot

/-- The loop sets the items before the first chunk that is not all good, and fails there. -/
theorem loop_items (hlimit : 0 < limit) (h : Steps ok limit total size good val keep fail step)
    (out : ℕ → α) {m : M} (hm : keep m) :
    let r := loop ok step limit hlimit total 0 (out, m)
    r.2.1 = written size val 0 (doneBefore limit total good) out ∧
      ((∀ b < total, good b) → r.1 = ok ∧ keep r.2.2) ∧
      ((∃ b < total, ¬good b) → r.1 ≠ ok ∧ fail r.1 r.2.2) := by
  have hat : StepsAt ok limit total size good val keep (fun _ => fail) step :=
    ⟨h.pass, fun done out m hdvd hlt =>
      h.stop done _ out m hdvd (by omega) (by omega) (by omega)⟩
  exact loop_items_at hlimit hat out hm

/-- What a call returns: a status, and the array with the items that were done. -/
def outcome (ok err : ρ) (size limit total : ℕ) (good : ℕ → Prop) [DecidablePred good]
    (val : ℕ → ℕ → α) (out : ℕ → α) : ρ × (ℕ → α) :=
  (if ∀ b < total, good b then ok else err,
    written size val 0 (doneBefore limit total good) out)

theorem loop_outcome {err : ρ} (hlimit : 0 < limit)
    (h : Steps ok limit total size good val keep (fun r m => r = err ∧ keep m) step)
    (out : ℕ → α) {m : M} (hm : keep m) :
    let r := loop ok step limit hlimit total 0 (out, m)
    (r.1, r.2.1) = outcome ok err size limit total good val out ∧ keep r.2.2 := by
  intro r
  obtain ⟨hout, hall, hbad⟩ := loop_items hlimit h out hm
  by_cases hgood : ∀ b < total, good b
  · obtain ⟨hok, hkeep⟩ := hall hgood
    exact ⟨Prod.ext (hok.trans (if_pos hgood).symm) hout, hkeep⟩
  · obtain ⟨-, herr, hkeep⟩ := hbad (by push Not at hgood; exact hgood)
    exact ⟨Prod.ext (herr.trans (if_neg hgood).symm) hout, hkeep⟩

theorem written_hit (val : ℕ → ℕ → α) (out : ℕ → α) {hi b i : ℕ} (hb : b < hi) (hi' : i < size) :
    written size val 0 hi out (b * size + i) = val b i := by
  have hle : (b + 1) * size ≤ hi * size := Nat.mul_le_mul_right size hb
  rw [Nat.succ_mul] at hle
  have hdiv : (b * size + i) / size = b := by
    rw [Nat.mul_comm, Nat.mul_add_div (Nat.zero_lt_of_lt hi'), Nat.div_eq_of_lt hi', Nat.add_zero]
  rw [written, if_pos (by omega), hdiv, Nat.mul_add_mod_of_lt hi']

theorem written_other (val : ℕ → ℕ → α) (out : ℕ → α) {hi i : ℕ} (h : hi * size ≤ i) :
    written size val 0 hi out i = out i := by
  rw [written, if_neg (by omega)]

theorem doneBefore_spec (hlimit : 0 < limit) (h : ¬∀ b < total, good b) :
    ∃ k, doneBefore limit total good = k * limit ∧ k * limit < total ∧
      (∀ b < k * limit, good b) ∧ ∃ b, k * limit ≤ b ∧ b < min total ((k + 1) * limit) ∧ ¬good b := by
  have hex : ∃ b, b < total ∧ ¬good b := by
    push Not at h
    exact h
  obtain ⟨hlt, hbad⟩ := Nat.find_spec hex
  have hprev : ∀ b < Nat.find hex, good b := fun b hb => by
    by_contra hnot
    exact Nat.find_min hex hb ⟨hb.trans hlt, hnot⟩
  have hle : Nat.find hex / limit * limit ≤ Nat.find hex := Nat.div_mul_le_self _ _
  have hnext : Nat.find hex < (Nat.find hex / limit + 1) * limit := by
    rw [Nat.mul_comm]
    exact Nat.lt_mul_div_succ _ hlimit
  refine ⟨Nat.find hex / limit, doneBefore_eq hlimit (fun b hb => hprev b (hb.trans_le hle))
    ⟨_, hle, ?_, hbad⟩, hle.trans_lt hlt, fun b hb => hprev b (hb.trans_le hle), _, hle,
    Nat.lt_min.mpr ⟨hlt, hnext⟩, hbad⟩
  rw [Nat.succ_mul] at hnext
  omega

theorem doneBefore_le (hlimit : 0 < limit) : doneBefore limit total good ≤ total := by
  by_cases h : ∀ b < total, good b
  · exact (doneBefore_of_forall h).le
  · obtain ⟨k, hk, hlt, -⟩ := doneBefore_spec hlimit h
    exact hk.trans_le hlt.le

omit [DecidableEq ρ] in
theorem outcome_congr {err : ρ} {good' : ℕ → Prop} [DecidablePred good'] {val' : ℕ → ℕ → α}
    (hlimit : 0 < limit) (h : ∀ b < total, good b ↔ good' b)
    (hval : ∀ b < total, ∀ i < size, val b i = val' b i) (out : ℕ → α) :
    outcome ok err size limit total good val out =
      outcome ok err size limit total good' val' out := by
  refine Prod.ext (if_congr (forall₂_congr h) rfl rfl) (funext fun i => ?_)
  simp only [outcome, written, doneBefore_congr h]
  split_ifs with hi
  · have hsize : 0 < size := by
      by_contra h0
      rw [Nat.eq_zero_of_not_pos h0] at hi
      omega
    have hlt : i < total * size := hi.2.trans_le (Nat.mul_le_mul_right size (doneBefore_le hlimit))
    exact hval _ ((Nat.div_lt_iff_lt_mul hsize).mpr hlt) _ (Nat.mod_lt i hsize)
  · rfl

theorem doneBefore_mono {good' : ℕ → Prop} [DecidablePred good'] (hlimit : 0 < limit)
    (h : ∀ b < total, good b → good' b) :
    doneBefore limit total good ≤ doneBefore limit total good' := by
  by_cases hall : ∀ b < total, good' b
  · rw [doneBefore_of_forall hall]
    exact doneBefore_le hlimit
  · obtain ⟨k, hk, -, -, b, hlo, hhi, hbad⟩ := doneBefore_spec hlimit hall
    have hb : b < total := hhi.trans_le (Nat.min_le_left _ _)
    obtain ⟨j, hj, -, hprev, -⟩ :=
      @doneBefore_spec limit total good _ hlimit fun hgood => hbad (h b hb (hgood b hb))
    rw [hj, hk]
    refine Nat.mul_le_mul_right limit (Nat.lt_succ_iff.mp ?_)
    by_contra hlt
    -- The chunk of the bad item is done in the second call.
    have hle : (k + 1) * limit ≤ j * limit := Nat.mul_le_mul_right limit (Nat.le_of_not_lt hlt)
    exact hbad (h b hb (hprev b ((hhi.trans_le (Nat.min_le_right _ _)).trans_le hle)))

/-- The same where the status of a failure depends on the start of its chunk. -/
def outcomeAt (ok : ρ) (err : ℕ → ρ) (size limit total : ℕ) (good : ℕ → Prop) [DecidablePred good]
    (val : ℕ → ℕ → α) (out : ℕ → α) : ρ × (ℕ → α) :=
  (if ∀ b < total, good b then ok else err (doneBefore limit total good),
    written size val 0 (doneBefore limit total good) out)

theorem loop_outcomeAt {err : ℕ → ρ} {keep' : M → Prop} (hlimit : 0 < limit)
    (h : StepsAt ok limit total size good val keep (fun b r m => r = err b ∧ keep' m) step)
    (hkeep : ∀ m, keep m → keep' m) (out : ℕ → α) {m : M} (hm : keep m) :
    let r := loop ok step limit hlimit total 0 (out, m)
    (r.1, r.2.1) = outcomeAt ok err size limit total good val out ∧ keep' r.2.2 := by
  intro r
  obtain ⟨hout, hall, hbad⟩ := loop_items_at hlimit h out hm
  by_cases hgood : ∀ b < total, good b
  · obtain ⟨hok, hkept⟩ := hall hgood
    exact ⟨Prod.ext (hok.trans (if_pos hgood).symm) hout, hkeep _ hkept⟩
  · obtain ⟨-, herr, hkept⟩ := hbad (by push Not at hgood; exact hgood)
    exact ⟨Prod.ext (herr.trans (if_neg hgood).symm) hout, hkept⟩

omit [DecidableEq ρ] in
/-- A further condition on the items makes fewer calls succeed, and sets no item otherwise. -/
theorem outcomeAt_and {err : ℕ → ρ} {err' : ρ} {further : ℕ → Prop} [DecidablePred further]
    (hne : ∀ b, err b ≠ ok) (hne' : err' ≠ ok) (hlimit : 0 < limit) (out : ℕ → α) :
    let r := outcomeAt ok err size limit total (fun b => good b ∧ further b) val out
    let r' := outcome ok err' size limit total good val out
    (r.1 = ok ↔ r'.1 = ok ∧ ∀ b < total, further b) ∧ (r.1 = ok → r = r') ∧
      ∀ i, r.2 i = r'.2 i ∨ r.2 i = out i := by
  intro r r'
  have hiff : r.1 = ok ↔ ∀ b < total, good b ∧ further b :=
    ⟨fun hok => by_contra fun hbad => hne _ ((if_neg hbad).symm.trans hok), fun h => if_pos h⟩
  have hiff' : r'.1 = ok ↔ ∀ b < total, good b :=
    ⟨fun hok => by_contra fun hbad => hne' ((if_neg hbad).symm.trans hok), fun h => if_pos h⟩
  refine ⟨?_, fun hok => ?_, fun i => ?_⟩
  · rw [hiff, hiff']
    exact ⟨fun h => ⟨fun b hb => (h b hb).1, fun b hb => (h b hb).2⟩,
      fun h b hb => ⟨h.1 b hb, h.2 b hb⟩⟩
  · have hall := hiff.mp hok
    have hgood : ∀ b < total, good b := fun b hb => (hall b hb).1
    refine Prod.ext (hok.trans (hiff'.mpr hgood).symm) ?_
    simp only [r, r', outcomeAt, outcome, doneBefore_of_forall hall, doneBefore_of_forall hgood]
  · have hle := Nat.mul_le_mul_right size
      (@doneBefore_mono limit total (fun b => good b ∧ further b) _ good _ hlimit fun _ _ h => h.1)
    simp only [r, r', outcomeAt, outcome, written]
    by_cases hi : i < doneBefore limit total (fun b => good b ∧ further b) * size
    · rw [if_pos (by omega), if_pos (by omega)]
      exact .inl rfl
    · rw [if_neg (by omega)]
      exact .inr rfl

/-- A call over many items against calls for one item each, where `single b` is what the call for
item `b` returns. -/
structure Transparent (ok err : ρ) (size limit total : ℕ) (good : ℕ → Prop)
    (single : ℕ → ρ × (ℕ → α)) (out : ℕ → α) (r : ρ × (ℕ → α)) : Prop where
  ok_iff : r.1 = ok ↔ ∀ b < total, good b
  err_iff : r.1 = err ↔ ¬∀ b < total, good b
  concat : r.1 = ok → ∀ b < total, (single b).1 = ok ∧
    ∀ i < size, r.2 (b * size + i) = (single b).2 i
  past : ∀ i, total * size ≤ i → r.2 i = out i
  stop : r.1 ≠ ok → ∃ k, k * limit < total ∧ (∀ b < k * limit, good b) ∧
    (∃ b, k * limit ≤ b ∧ b < min total ((k + 1) * limit) ∧ ¬good b) ∧
    (∀ b < k * limit, (single b).1 = ok ∧ ∀ i < size, r.2 (b * size + i) = (single b).2 i) ∧
    ∀ i, k * limit * size ≤ i → r.2 i = out i

omit [DecidableEq ρ] in
theorem transparent_outcome {err : ρ} (hne : ok ≠ err) (hlimit : 0 < limit) {one : ℕ → ℕ}
    {outs : ℕ → ℕ → α} {single : ℕ → ρ × (ℕ → α)}
    (hsingle : ∀ b < total, single b =
      outcome ok err size (one b) 1 (fun _ => good b) (fun _ => val b) (outs b)) (out : ℕ → α) :
    Transparent ok err size limit total good single out
      (outcome ok err size limit total good val out) := by
  -- While items are good, each is what its own call makes of it.
  have hone : ∀ hi, hi ≤ total → (∀ b < hi, good b) → ∀ b < hi, (single b).1 = ok ∧
      ∀ i < size, written size val 0 hi out (b * size + i) = (single b).2 i := by
    intro hi hle hgood b hb
    have hb' : ∀ _ < 1, good b := fun _ _ => hgood b hb
    rw [hsingle b (hb.trans_le hle)]
    refine ⟨if_pos hb', fun i hi' => ?_⟩
    have hhit := written_hit (fun _ => val b) (outs b) Nat.one_pos hi'
    rw [Nat.zero_mul, Nat.zero_add] at hhit
    rw [written_hit val out hb hi', outcome, doneBefore_of_forall hb']
    exact hhit.symm
  by_cases hgood : ∀ b < total, good b
  · have hstatus : (outcome ok err size limit total good val out).1 = ok := if_pos hgood
    have hdone := @doneBefore_of_forall limit total good _ hgood
    refine ⟨⟨fun _ => hgood, fun _ => hstatus⟩,
      ⟨fun herr => absurd (hstatus.symm.trans herr) hne, fun hbad => absurd hgood hbad⟩,
      fun _ => ?_, fun i hi => ?_, fun hfail => absurd hstatus hfail⟩
    · rw [outcome, hdone]
      exact hone total le_rfl hgood
    · rw [outcome, hdone]
      exact written_other val out hi
  · have hstatus : (outcome ok err size limit total good val out).1 = err := if_neg hgood
    obtain ⟨k, hdone, hlt, hprev, hbad⟩ := doneBefore_spec hlimit hgood
    have hpast : ∀ i, k * limit * size ≤ i →
        (outcome ok err size limit total good val out).2 i = out i := fun i hi => by
      rw [outcome, hdone]
      exact written_other val out hi
    have hfail : (outcome ok err size limit total good val out).1 ≠ ok := fun hok =>
      hne (hok.symm.trans hstatus)
    refine ⟨⟨fun hok => absurd hok hfail, fun hall => absurd hall hgood⟩,
      ⟨fun _ => hgood, fun _ => hstatus⟩, fun hok => absurd hok hfail,
      fun i hi => hpast i ((Nat.mul_le_mul_right size hlt.le).trans hi),
      fun _ => ⟨k, hlt, hprev, hbad, ?_, hpast⟩⟩
    · rw [outcome, hdone]
      exact hone _ hlt.le hprev

end Items

end Chunks
