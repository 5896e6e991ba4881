import Vkzg.Host.Prover

/-! `precomputed_tables.cpp`: the file of precomputed tables, read field by field into the caller's
tables, from the first of three places where it can be read. -/

namespace Vkzg
open Radix Gpu

/-! ### Reading -/

/-- What opening a path finds: nothing, or the bytes of a file. -/
abbrev File := Option (List UInt8)

/-- `fread` of `n` bytes over an array: whether they were all there, what the array holds then, and
what is left of the file. -/
def fread (dst : List UInt8) (n : ℕ) (f : List UInt8) : Bool × List UInt8 × List UInt8 :=
  let got := f.take n
  (got.length == n, got ++ dst.drop got.length, f.drop n)

def bytesOf (v : List UInt32) : List UInt8 := v.flatMap fun w => (List.range 4).map (byteOf w.toNat)

def wordAt (bytes : List UInt8) (i : ℕ) : UInt32 :=
  UInt32.ofNat (bytesValue 4 fun k => bytes.getD (4 * i + k) 0)

def wordsFrom (bytes : List UInt8) (off count : ℕ) : List UInt32 :=
  (List.range count).map fun i => wordAt bytes (off + i)

/-- Resizes the vector and reads over what it then holds. -/
def readVec (v : List UInt32) (count : ℕ) (f : List UInt8) : Bool × List UInt32 × List UInt8 :=
  let v := v.take count ++ List.replicate (count - v.length) 0
  let (ok, bytes, f) := fread (bytesOf v) (count * 4) f
  (ok, wordsFrom bytes 0 count, f)

def kMagic : UInt32 := 0x475A4B56
def kVersion : UInt32 := 1

structure Header where
  magic : UInt32
  version : UInt32
  itemsPlusWords : UInt32
  itemsMinusWords : UInt32
deriving DecidableEq

def headerOf (bytes : List UInt8) : Header :=
  ⟨wordAt bytes 0, wordAt bytes 1, wordAt bytes 2, wordAt bytes 3⟩

structure TableField where
  get : PrecomputedTables → List UInt32
  set : List UInt32 → PrecomputedTables → PrecomputedTables

def positionTableWords : ℕ := circulantSize * phaseATerms * numDigits * affineWords

/-- The vectors in the order of the file, with their lengths in words. `inv_blob` is an array of the
length read into it, so that resizing it does nothing. -/
def tableReads (h : Header) : List (TableField × ℕ) :=
  [(⟨(·.positionTable), fun v t => { t with positionTable := v }⟩, positionTableWords),
    (⟨(·.rootsFwd), fun v t => { t with rootsFwd := v }⟩, fieldElementsPerExtBlob * frWords),
    (⟨(·.rootsInv), fun v t => { t with rootsInv := v }⟩, fieldElementsPerExtBlob * frWords),
    (⟨(·.kernelItemsPlus), fun v t => { t with kernelItemsPlus := v }⟩, h.itemsPlusWords.toNat),
    (⟨(·.kernelItemsMinus), fun v t => { t with kernelItemsMinus := v }⟩, h.itemsMinusWords.toNat),
    (⟨(·.kernelOffsetsPlus), fun v t => { t with kernelOffsetsPlus := v }⟩, numBuckets + 1),
    (⟨(·.kernelOffsetsMinus), fun v t => { t with kernelOffsetsMinus := v }⟩, numBuckets + 1),
    (⟨(·.kernelPermPlus), fun v t => { t with kernelPermPlus := v }⟩, numBuckets),
    (⟨(·.kernelPermMinus), fun v t => { t with kernelPermMinus := v }⟩, numBuckets),
    (⟨(·.invBlob.v), fun v t => { t with invBlob := Limbs.ofFn 8 fun i => v.getD i 0 }⟩, frWords)]

/-- Reads one vector after the other until one is cut short. -/
def readAll : List (TableField × ℕ) → List UInt8 → PrecomputedTables → Bool × PrecomputedTables
  | [], _, out => (true, out)
  | (field, count) :: reads, f, out =>
    let (ok, v, f) := readVec (field.get out) count f
    let out := field.set v out
    if ok then readAll reads f out else (false, out)

def loadFrom (file : File) (out : PrecomputedTables) : Result × PrecomputedTables :=
  match file with
  | none => (.errIo, out)
  | some f =>
    let (ok, bytes, f) := fread (List.replicate 16 0) 16 f
    let h := headerOf bytes
    if ok ∧ h.magic = kMagic ∧ h.version = kVersion then
      let (ok, out) := readAll (tableReads h) f out
      (if ok then .ok else .errSetup, out)
    else (.errSetup, out)

/-- Tries one candidate, and the rest of the candidates where it fails. -/
def tryLoad (file : File) (rest : PrecomputedTables → Result × PrecomputedTables)
    (out : PrecomputedTables) : Result × PrecomputedTables :=
  let (rc, out) := loadFrom file out
  if rc = .ok then (.ok, out) else rest out

/-- `env` is what the environment variable names, if it is set. -/
def loadPrecomputedTables (env : Option File) (build install : File) (out : PrecomputedTables) :
    Result × PrecomputedTables :=
  let rest := tryLoad build (loadFrom install)
  match env with
  | some file => tryLoad file rest out
  | none => rest out

/-! ### What a file holds -/

/-- The words the header of a file calls for. -/
def tableWords (f : List UInt8) : ℕ := 4 + ((tableReads (headerOf f)).map (·.2)).sum

/-- A file with the right header and nothing missing. -/
def Accepted (f : List UInt8) : Prop :=
  (headerOf f).magic = kMagic ∧ (headerOf f).version = kVersion ∧ 4 * tableWords f ≤ f.length

instance (f : List UInt8) : Decidable (Accepted f) := instDecidableAnd

/-- The tables at their places in a file. -/
def parsed (f : List UInt8) : PrecomputedTables :=
  let h := headerOf f
  let roots := fieldElementsPerExtBlob * frWords
  let items := 4 + positionTableWords + roots + roots
  let offsets := items + h.itemsPlusWords.toNat + h.itemsMinusWords.toNat
  let perms := offsets + (numBuckets + 1) + (numBuckets + 1)
  { positionTable := wordsFrom f 4 positionTableWords
    rootsFwd := wordsFrom f (4 + positionTableWords) roots
    rootsInv := wordsFrom f (4 + positionTableWords + roots) roots
    kernelItemsPlus := wordsFrom f items h.itemsPlusWords.toNat
    kernelItemsMinus := wordsFrom f (items + h.itemsPlusWords.toNat) h.itemsMinusWords.toNat
    kernelOffsetsPlus := wordsFrom f offsets (numBuckets + 1)
    kernelOffsetsMinus := wordsFrom f (offsets + (numBuckets + 1)) (numBuckets + 1)
    kernelPermPlus := wordsFrom f perms numBuckets
    kernelPermMinus := wordsFrom f (perms + numBuckets) numBuckets
    invBlob := Limbs.ofFn 8 fun i => (wordsFrom f (perms + numBuckets + numBuckets) frWords).getD i 0 }

section Reading
variable {f : List UInt8} {k count : ℕ}

theorem length_bytesOf (v : List UInt32) : (bytesOf v).length = v.length * 4 := by
  simp [bytesOf, List.length_flatMap]

theorem length_wordsFrom (f : List UInt8) (off count : ℕ) :
    (wordsFrom f off count).length = count := by
  rw [wordsFrom, List.length_map, List.length_range]

theorem wordAt_take_drop {i : ℕ} (hi : i < count) :
    wordAt ((f.drop (4 * k)).take (count * 4)) i = wordAt f (k + i) := by
  refine congrArg UInt32.ofNat (bytesValue_congr fun j hj => ?_)
  rw [List.getD_eq_getElem?_getD, List.getD_eq_getElem?_getD, List.getElem?_take_of_lt (by omega),
    List.getElem?_drop]
  congr 2
  omega

theorem readVec_full (v : List UInt32) (h : 4 * (k + count) ≤ f.length) :
    readVec v count (f.drop (4 * k)) = (true, wordsFrom f k count, f.drop (4 * (k + count))) := by
  have hlen : ((f.drop (4 * k)).take (count * 4)).length = count * 4 := by
    rw [List.length_take, List.length_drop]
    omega
  have hdst : (bytesOf (v.take count ++ List.replicate (count - v.length) 0)).length = count * 4 := by
    rw [length_bytesOf, List.length_append, List.length_take, List.length_replicate]
    omega
  simp only [readVec, fread, hlen, beq_self_eq_true, Prod.mk.injEq, true_and]
  rw [List.drop_of_length_le hdst.le, List.append_nil, List.drop_drop]
  refine ⟨List.map_congr_left fun i hi => ?_, by congr 1; omega⟩
  rw [Nat.zero_add, wordAt_take_drop (List.mem_range.mp hi)]

theorem readVec_short (v : List UInt32) (h : f.length < 4 * (k + count)) (hk : 4 * k ≤ f.length) :
    (readVec v count (f.drop (4 * k))).1 = false := by
  simp only [readVec, fread, beq_eq_false_iff_ne, List.length_take, List.length_drop]
  omega

/-- The tables once every vector has been read from its place. -/
def fill (f : List UInt8) : List (TableField × ℕ) → ℕ → PrecomputedTables → PrecomputedTables
  | [], _, out => out
  | (field, count) :: reads, k, out =>
    fill f reads (k + count) (field.set (wordsFrom f k count) out)

theorem readAll_full {reads : List (TableField × ℕ)} {out : PrecomputedTables}
    (h : 4 * (k + (reads.map (·.2)).sum) ≤ f.length) :
    readAll reads (f.drop (4 * k)) out = (true, fill f reads k out) := by
  induction reads generalizing k out with
  | nil => rfl
  | cons r reads ih =>
    rw [List.map_cons, List.sum_cons] at h
    rw [readAll, readVec_full _ (by omega)]
    simp only [if_true]
    exact ih (by omega)

theorem readAll_short {reads : List (TableField × ℕ)} {out : PrecomputedTables}
    (hk : 4 * k ≤ f.length) (h : f.length < 4 * (k + (reads.map (·.2)).sum)) :
    (readAll reads (f.drop (4 * k)) out).1 = false := by
  induction reads generalizing k out with
  | nil =>
    simp only [List.map_nil, List.sum_nil] at h
    omega
  | cons r reads ih =>
    rw [List.map_cons, List.sum_cons] at h
    by_cases hr : 4 * (k + r.2) ≤ f.length
    · rw [readAll, readVec_full _ hr]
      simp only [if_true]
      exact ih hr (by omega)
    · have hshort := readVec_short (r.1.get out) (Nat.lt_of_not_le hr) hk
      simp only [readAll, hshort, Bool.false_eq_true, if_false]

theorem fill_tableReads (f : List UInt8) (out : PrecomputedTables) :
    fill f (tableReads (headerOf f)) 4 out = parsed f := by
  simp only [tableReads, fill, parsed]

end Reading

/-! ### Loading -/

section Loading
variable {f : List UInt8}

theorem headerOf_take (f : List UInt8) : headerOf (f.take 16) = headerOf f := by
  have hword : ∀ i < 4, wordAt (f.take 16) i = wordAt f i := fun i hi => by
    have : wordAt ((f.drop (4 * 0)).take (4 * 4)) i = wordAt f (0 + i) := wordAt_take_drop hi
    rwa [Nat.mul_zero, List.drop_zero, Nat.zero_add] at this
  simp only [headerOf, hword 0 (by decide), hword 1 (by decide), hword 2 (by decide),
    hword 3 (by decide)]

theorem loadFrom_accepted (h : Accepted f) (out : PrecomputedTables) :
    loadFrom (some f) out = (.ok, parsed f) := by
  obtain ⟨hmagic, hversion, hlen⟩ := h
  have h16 : 16 ≤ f.length := by
    rw [tableWords] at hlen
    omega
  have hgot : (f.take 16).length = 16 := by
    rw [List.length_take]
    omega
  simp only [loadFrom, fread, hgot, beq_self_eq_true, true_and]
  rw [List.drop_of_length_le (List.length_replicate.le), List.append_nil, headerOf_take,
    if_pos ⟨hmagic, hversion⟩, readAll_full (f := f) (k := 4) hlen, fill_tableReads]
  rfl

theorem loadFrom_rejected (h : ¬Accepted f) (out : PrecomputedTables) :
    (loadFrom (some f) out).1 = .errSetup := by
  by_cases h16 : 16 ≤ f.length
  · have hgot : (f.take 16).length = 16 := by
      rw [List.length_take]
      omega
    simp only [loadFrom, fread, hgot, beq_self_eq_true, true_and]
    rw [List.drop_of_length_le (List.length_replicate.le), List.append_nil, headerOf_take]
    by_cases hhead : (headerOf f).magic = kMagic ∧ (headerOf f).version = kVersion
    · have hshort : f.length < 4 * tableWords f :=
        Nat.lt_of_not_le fun hlen => h ⟨hhead.1, hhead.2, hlen⟩
      have hread : (readAll _ (f.drop (4 * 4)) out).1 = false := readAll_short h16 hshort
      rw [if_pos hhead]
      generalize readAll _ _ _ = r at hread
      obtain ⟨ok, out'⟩ := r
      obtain rfl : ok = false := hread
      rfl
    · rw [if_neg hhead]
  · have hgot : (f.take 16).length ≠ 16 := by
      rw [List.length_take]
      omega
    have hok : ((f.take 16).length == 16) = false := beq_eq_false_iff_ne.mpr hgot
    simp only [loadFrom, fread, hok, Bool.false_eq_true, false_and, if_false]

/-- The status of reading one candidate, whatever is in the tables it is read into. -/
def loadStatus : File → Result
  | none => .errIo
  | some f => if Accepted f then .ok else .errSetup

theorem loadFrom_status (file : File) (out : PrecomputedTables) :
    (loadFrom file out).1 = loadStatus file := by
  rcases file with - | f
  · rfl
  · rw [loadStatus]
    split_ifs with h
    · rw [loadFrom_accepted h]
    · exact loadFrom_rejected h out

theorem loadStatus_ok {file : File} (h : loadStatus file = .ok) :
    ∃ f, file = some f ∧ Accepted f := by
  rcases file with - | f
  · exact absurd h (by decide)
  · refine ⟨f, rfl, by_contra fun hf => ?_⟩
    rw [loadStatus, if_neg hf] at h
    exact absurd h (by decide)

theorem tryLoad_accepted (h : Accepted f) (rest : PrecomputedTables → Result × PrecomputedTables)
    (out : PrecomputedTables) : tryLoad (some f) rest out = (.ok, parsed f) := by
  rw [tryLoad, loadFrom_accepted h]
  rfl

theorem tryLoad_rejected {file : File} (h : loadStatus file ≠ .ok)
    (rest : PrecomputedTables → Result × PrecomputedTables) (out : PrecomputedTables) :
    tryLoad file rest out = rest (loadFrom file out).2 := by
  rw [← loadFrom_status file out] at h
  simp only [tryLoad, if_neg h]

theorem find?_accepted {candidates : List File} {file : File}
    (h : candidates.find? (fun file => loadStatus file = .ok) = some file) :
    ∃ f, file = some f ∧ Accepted f := by
  have hstatus := List.find?_some h
  exact loadStatus_ok (of_decide_eq_true hstatus)

/-- What trying the candidates in turn comes to. -/
structure LoadsFirst (candidates : List File) (last : File)
    (load : PrecomputedTables → Result × PrecomputedTables) : Prop where
  found : ∀ f, candidates.find? (fun file => loadStatus file = .ok) = some (some f) →
    ∀ out, load out = (.ok, parsed f)
  none : candidates.find? (fun file => loadStatus file = .ok) = none →
    ∀ out, (load out).1 = loadStatus last

theorem loadsFirst_last (file : File) : LoadsFirst [file] file (loadFrom file) where
  found f h out := by
    obtain ⟨g, hg, hacc⟩ := find?_accepted h
    obtain rfl := Option.some.inj hg
    obtain rfl : some f = file := List.mem_singleton.mp (List.mem_of_find?_eq_some h)
    exact loadFrom_accepted hacc out
  none _ := loadFrom_status file

theorem LoadsFirst.cons {candidates : List File} {last : File}
    {rest : PrecomputedTables → Result × PrecomputedTables} (h : LoadsFirst candidates last rest)
    (file : File) : LoadsFirst (file :: candidates) last (tryLoad file rest) := by
  by_cases hfile : loadStatus file = .ok
  · obtain ⟨g, rfl, hacc⟩ := loadStatus_ok hfile
    refine ⟨fun f hf out => ?_, fun hnone => ?_⟩
    · rw [List.find?_cons_of_pos (by simpa using hfile)] at hf
      obtain rfl := Option.some.inj (Option.some.inj hf)
      exact tryLoad_accepted hacc rest out
    · rw [List.find?_cons_of_pos (by simpa using hfile)] at hnone
      exact absurd hnone (by simp)
  · have hskip : (file :: candidates).find? (fun file => loadStatus file = .ok) =
        candidates.find? fun file => loadStatus file = .ok :=
      List.find?_cons_of_neg (by simpa using hfile)
    refine ⟨fun f hf out => ?_, fun hnone out => ?_⟩
    · rw [tryLoad_rejected hfile]
      exact h.found f (hskip ▸ hf) _
    · rw [tryLoad_rejected hfile]
      exact h.none (hskip ▸ hnone) _

theorem loadsFirst_load (env : Option File) (build install : File) :
    LoadsFirst (env.toList ++ [build, install]) install
      (loadPrecomputedTables env build install) := by
  have hrest := (loadsFirst_last install).cons build
  rcases env with - | file
  · exact hrest
  · exact hrest.cons file

/-- Whatever the candidates hold and whatever was in the tables before: loading succeeds exactly
when a candidate is accepted, and then the tables are those of the first accepted one alone. -/
theorem loadPrecomputedTables_first (env : Option File) (build install : File)
    (out : PrecomputedTables) :
    let candidates := env.toList ++ [build, install]
    let r := loadPrecomputedTables env build install out
    (∀ file out', (loadFrom file out').1 = loadStatus file) ∧
    (r.1 = .ok ↔ ∃ file ∈ candidates, loadStatus file = .ok) ∧
    (∀ f, candidates.find? (fun file => loadStatus file = .ok) = some (some f) →
      r = (.ok, parsed f) ∧ ∀ out', loadFrom (some f) out' = r) ∧
    ((∀ file ∈ candidates, loadStatus file ≠ .ok) → r.1 = loadStatus install) := by
  intro candidates r
  have h := loadsFirst_load env build install
  have hnone : (∀ file ∈ candidates, loadStatus file ≠ .ok) → r.1 = loadStatus install := by
    intro hall
    refine h.none (List.find?_eq_none.mpr fun file hfile => ?_) out
    simpa using hall file hfile
  refine ⟨loadFrom_status, ⟨fun hok => ?_, fun hex => ?_⟩, fun f hf => ⟨h.found f hf out, ?_⟩,
    hnone⟩
  · by_contra hno
    push Not at hno
    rw [hnone hno] at hok
    exact hno install (List.mem_append_right _ (by simp)) hok
  · obtain ⟨file, hfile, hstatus⟩ := hex
    cases hfind : candidates.find? (fun file => loadStatus file = .ok) with
    | none => exact absurd hstatus (by simpa using List.find?_eq_none.mp hfind file hfile)
    | some first =>
      obtain ⟨f, rfl, -⟩ := find?_accepted hfind
      rw [show r = _ from h.found f hfind out]
  · intro out'
    obtain ⟨g, hg, hacc⟩ := find?_accepted hf
    obtain rfl := Option.some.inj hg
    rw [loadFrom_accepted hacc, show r = _ from h.found f hf out]

end Loading

end Vkzg
