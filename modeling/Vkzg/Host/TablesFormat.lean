import Mathlib.Data.List.GetD
import Vkzg.Host.TablesSafety

/-! The format of the file of precomputed tables: a header of four words and the vectors one after
the other. What a file is read into and what a file of given tables holds are each other's inverse,
up to bytes after the tables that nobody reads. -/

namespace Vkzg
open Radix Gpu

namespace PrecomputedTables

/-- The parts of the file, in the order in which it holds them. -/
def chunks (t : PrecomputedTables) : List (List UInt32) :=
  [[kMagic, kVersion, .ofNat t.kernelItemsPlus.length, .ofNat t.kernelItemsMinus.length],
    t.positionTable, t.rootsFwd, t.rootsInv, t.kernelItemsPlus, t.kernelItemsMinus,
    t.kernelOffsetsPlus, t.kernelOffsetsMinus, t.kernelPermPlus, t.kernelPermMinus, t.invBlob.v]

def bytes (t : PrecomputedTables) : List UInt8 := bytesOf t.chunks.flatten

/-- Tables of the sizes the format can hold. -/
structure Fits (t : PrecomputedTables) : Prop where
  positionTable : t.positionTable.length = positionTableWords
  rootsFwd : t.rootsFwd.length = fieldElementsPerExtBlob * frWords
  rootsInv : t.rootsInv.length = fieldElementsPerExtBlob * frWords
  itemsPlus : t.kernelItemsPlus.length < 2 ^ 32
  itemsMinus : t.kernelItemsMinus.length < 2 ^ 32
  offsetsPlus : t.kernelOffsetsPlus.length = numBuckets + 1
  offsetsMinus : t.kernelOffsetsMinus.length = numBuckets + 1
  permPlus : t.kernelPermPlus.length = numBuckets
  permMinus : t.kernelPermMinus.length = numBuckets

theorem chunks_injective {t t' : PrecomputedTables} (h : t.chunks = t'.chunks) : t = t' := by
  obtain ⟨_, _, _, _, _, _, _, _, _, ⟨_, _⟩⟩ := t
  obtain ⟨_, _, _, _, _, _, _, _, _, ⟨_, _⟩⟩ := t'
  simp only [chunks, List.cons.injEq] at h
  obtain ⟨-, rfl, rfl, rfl, rfl, rfl, rfl, rfl, rfl, rfl, rfl, -⟩ := h
  rfl

end PrecomputedTables

/-- A file that begins with the bytes of the tables. -/
def File.Holds (file : File) (t : PrecomputedTables) : Prop :=
  ∃ f, file = some f ∧ t.Fits ∧ t.bytes <+: f

/-! ### Cutting a file into vectors -/

section Cut
variable {f : List UInt8} {off : ℕ}

/-- The vectors of the given lengths, one after the other from a place in a file. -/
def cut (f : List UInt8) : ℕ → List ℕ → List (List UInt32)
  | _, [] => []
  | off, n :: lengths => wordsFrom f off n :: cut f (off + n) lengths

theorem wordsFrom_add (off a b : ℕ) :
    wordsFrom f off (a + b) = wordsFrom f off a ++ wordsFrom f (off + a) b := by
  simp only [wordsFrom, List.range_add, List.map_append, List.map_map, Function.comp_def, add_assoc]

theorem flatten_cut (lengths : List ℕ) :
    (cut f off lengths).flatten = wordsFrom f off lengths.sum := by
  induction lengths generalizing off with
  | nil => rfl
  | cons n lengths ih => rw [cut, List.flatten_cons, ih, List.sum_cons, wordsFrom_add]

/-- Encoding what was decoded gives the bytes back. -/
theorem bytesOf_wordsFrom {count : ℕ} (h : 4 * count ≤ f.length) :
    bytesOf (wordsFrom f 0 count) = f.take (4 * count) := by
  have hlen : (bytesOf (wordsFrom f 0 count)).length = 4 * count := by
    rw [length_bytesOf, length_wordsFrom, mul_comm]
  refine List.ext_getElem (by rw [hlen, List.length_take, Nat.min_eq_left h]) fun n hn _ => ?_
  have hcount : n / 4 < count := by omega
  have hword : (wordsFrom f 0 count).getD (n / 4) 0 = wordAt f (n / 4) := by
    rw [getD_of_lt (by rwa [length_wordsFrom])]
    simp [wordsFrom]
  have hbyte := getD_bytesOf (wordsFrom f 0 count) (n / 4) (Nat.mod_lt n (by decide))
  have hlt : bytesValue 4 (fun k => f.getD (4 * (n / 4) + k) 0) < 2 ^ 32 := bytesValue_lt 4 _
  rw [hword, wordAt, UInt32.toNat_ofNat_of_lt' hlt, byteOf_bytesValue _ (Nat.mod_lt n (by decide)),
    Nat.div_add_mod] at hbyte
  rw [List.getD_eq_getElem _ _ hn, List.getD_eq_getElem _ _ (by omega)] at hbyte
  rw [hbyte, List.getElem_take]

/-- Decoding what was encoded gives the word back, whatever comes after it. -/
theorem wordAt_bytesOf {v : List UInt32} {i : ℕ} (hi : i < v.length) (rest : List UInt8) :
    wordAt (bytesOf v ++ rest) i = v.getD i 0 := by
  have hbyte : ∀ k < 4, (bytesOf v ++ rest).getD (4 * i + k) 0 = byteOf (v.getD i 0).toNat k :=
    fun k hk => by
      rw [← getD_bytesOf v i hk, List.getD_append _ _ _ _ (by rw [length_bytesOf]; omega)]
  have hlt : (v.getD i 0).toNat < 256 ^ 4 := UInt32.toNat_lt _
  rw [wordAt, bytesValue_congr hbyte, bytesValue_byteOf, Nat.mod_eq_of_lt hlt, UInt32.ofNat_toNat]

theorem wordsFrom_bytesOf (u v w : List UInt32) (rest : List UInt8) :
    wordsFrom (bytesOf (u ++ (v ++ w)) ++ rest) u.length v.length = v := by
  refine List.ext_getElem (length_wordsFrom _ _ _) fun i hi _ => ?_
  rw [length_wordsFrom] at hi
  simp only [wordsFrom, List.getElem_map, List.getElem_range]
  rw [wordAt_bytesOf (by simp only [List.length_append]; omega),
    List.getD_append_right _ _ _ _ (by omega), Nat.add_sub_cancel_left, List.getD_append _ _ _ _ hi,
    getD_of_lt hi]

theorem cut_bytesOf (u : List UInt32) (vs : List (List UInt32)) (rest : List UInt8) :
    cut (bytesOf (u ++ vs.flatten) ++ rest) u.length (vs.map List.length) = vs := by
  induction vs generalizing u with
  | nil => rfl
  | cons v vs ih =>
    have hrest := ih (u ++ v)
    rw [List.append_assoc, List.length_append] at hrest
    rw [List.map_cons, cut, List.flatten_cons, wordsFrom_bytesOf, hrest]

end Cut

/-! ### Round trips -/

section Format
variable {f : List UInt8} {t : PrecomputedTables}

/-- The lengths of the parts of a file, from its header. -/
def chunkLengths (h : Header) : List ℕ := 4 :: (tableReads h).map (·.2)

theorem tableWords_eq (f : List UInt8) : tableWords f = (chunkLengths (headerOf f)).sum := by
  rw [tableWords, chunkLengths, List.sum_cons]

theorem chunks_parsed (h : Accepted f) : (parsed f).chunks = cut f 0 (chunkLengths (headerOf f)) := by
  obtain ⟨hmagic, hversion, -⟩ := h
  have hhead : [kMagic, kVersion, (headerOf f).itemsPlusWords, (headerOf f).itemsMinusWords] =
      wordsFrom f 0 4 := by
    rw [← hmagic, ← hversion]
    rfl
  have hscale : ∀ words : List UInt32, words.length = 8 →
      (Limbs.ofFn 8 fun i => words.getD i 0).v = words := fun words hlen =>
    congrArg Limbs.v (Limbs.ofFn_get ⟨words, hlen⟩)
  simp only [PrecomputedTables.chunks, parsed, length_wordsFrom, UInt32.ofNat_toNat, hhead,
    hscale _ (length_wordsFrom _ _ _), chunkLengths, tableReads, List.map_cons, List.map_nil, cut,
    Nat.zero_add]

theorem fits_parsed (f : List UInt8) : (parsed f).Fits := by
  constructor <;> simp only [parsed, length_wordsFrom, UInt32.toNat_lt]

/-- The bytes up to the last word the header calls for are those of the tables read from them. -/
theorem bytes_parsed (h : Accepted f) : (parsed f).bytes = f.take (4 * tableWords f) := by
  have hlen : 4 * tableWords f ≤ f.length := h.2.2
  rw [PrecomputedTables.bytes, chunks_parsed h, flatten_cut, ← tableWords_eq,
    bytesOf_wordsFrom hlen]

theorem headerOf_bytes (t : PrecomputedTables) (rest : List UInt8) :
    headerOf (t.bytes ++ rest) =
      ⟨kMagic, kVersion, .ofNat t.kernelItemsPlus.length, .ofNat t.kernelItemsMinus.length⟩ := by
  have hword : ∀ i < 4, wordAt (t.bytes ++ rest) i = t.chunks.flatten.getD i 0 := fun i hi =>
    wordAt_bytesOf (hi.trans_le (by simp [PrecomputedTables.chunks])) rest
  rw [headerOf, hword 0 (by decide), hword 1 (by decide), hword 2 (by decide), hword 3 (by decide)]
  rfl

theorem chunkLengths_bytes (ht : t.Fits) (rest : List UInt8) :
    chunkLengths (headerOf (t.bytes ++ rest)) = t.chunks.map List.length := by
  rw [headerOf_bytes, chunkLengths]
  simp only [tableReads, PrecomputedTables.chunks, List.map_cons, List.map_nil,
    UInt32.toNat_ofNat_of_lt' ht.itemsPlus, UInt32.toNat_ofNat_of_lt' ht.itemsMinus,
    ht.positionTable, ht.rootsFwd, ht.rootsInv, ht.offsetsPlus, ht.offsetsMinus, ht.permPlus,
    ht.permMinus, t.invBlob.size]
  rfl

theorem accepted_bytes (ht : t.Fits) (rest : List UInt8) : Accepted (t.bytes ++ rest) := by
  refine ⟨by rw [headerOf_bytes], by rw [headerOf_bytes], ?_⟩
  rw [tableWords_eq, chunkLengths_bytes ht, ← List.length_flatten, List.length_append,
    PrecomputedTables.bytes, length_bytesOf]
  omega

theorem parsed_bytes (ht : t.Fits) (rest : List UInt8) : parsed (t.bytes ++ rest) = t := by
  refine PrecomputedTables.chunks_injective ?_
  rw [chunks_parsed (accepted_bytes ht rest), chunkLengths_bytes ht]
  exact cut_bytesOf [] t.chunks rest

/-- What is accepted is exactly a file of tables of the right sizes, and it is read as those. -/
theorem holds_some : File.Holds (some f) t ↔ Accepted f ∧ parsed f = t := by
  constructor
  · rintro ⟨g, hg, ht, rest, hrest⟩
    obtain rfl := Option.some.inj hg
    rw [← hrest]
    exact ⟨accepted_bytes ht rest, parsed_bytes ht rest⟩
  · rintro ⟨hacc, rfl⟩
    refine ⟨f, rfl, fits_parsed f, ?_⟩
    rw [bytes_parsed hacc]
    exact List.take_prefix _ f

theorem loadStatus_ok_iff {file : File} : loadStatus file = .ok ↔ ∃ t, file.Holds t := by
  constructor
  · intro h
    obtain ⟨f, rfl, hacc⟩ := loadStatus_ok h
    exact ⟨parsed f, holds_some.mpr ⟨hacc, rfl⟩⟩
  · rintro ⟨t, f, rfl, ht⟩
    rw [loadStatus, if_pos (holds_some.mp ⟨f, rfl, ht⟩).1]

theorem loadStatus_ne_iff {file : File} : loadStatus file ≠ .ok ↔ ∀ t, ¬file.Holds t := by
  rw [Ne, loadStatus_ok_iff, not_exists]

theorem find?_eq_none_iff {candidates : List File} :
    candidates.find? (fun file => loadStatus file = .ok) = none ↔
      ∀ file ∈ candidates, ∀ t, ¬file.Holds t := by
  simp only [List.find?_eq_none, decide_eq_true_eq, ← loadStatus_ne_iff, Ne]

theorem find?_eq_some_iff {candidates : List File} {file : File} :
    candidates.find? (fun file => loadStatus file = .ok) = some file ↔
      (∃ t, file.Holds t) ∧ ∃ before after, candidates = before ++ file :: after ∧
        ∀ g ∈ before, ∀ t, ¬g.Holds t := by
  simp only [List.find?_eq_some_iff_append, decide_eq_true_eq, loadStatus_ok_iff,
    Bool.not_eq_true', decide_eq_false_iff_not, not_exists]

/-- Loading gives tables exactly where the first of the candidates that is a file of any tables is
one of these, and fails exactly where none is, with the error of the installed one. -/
theorem loadPrecomputedTables_format (env : Option File) (build install : File)
    (out : PrecomputedTables) :
    let candidates := env.toList ++ [build, install]
    let r := loadPrecomputedTables env build install out
    (∀ t, r = (.ok, t) ↔ ∃ before file after, candidates = before ++ file :: after ∧
      (∀ g ∈ before, ∀ t', ¬g.Holds t') ∧ file.Holds t) ∧
    (r.1 ≠ .ok ↔ ∀ file ∈ candidates, ∀ t, ¬file.Holds t) ∧
    (r.1 ≠ .ok → r.1 = if install = none then .errIo else .errSetup) := by
  intro candidates r
  have h := loadsFirst_load env build install
  cases hfind : candidates.find? (fun file => loadStatus file = .ok) with
  | none =>
    have hall : ∀ file ∈ candidates, ∀ t, ¬file.Holds t := find?_eq_none_iff.mp hfind
    have hinstall : ∀ t, ¬install.Holds t := hall install (List.mem_append_right _ (by simp))
    have hr : r.1 = loadStatus install := h.none hfind out
    have hfail : r.1 ≠ .ok := hr ▸ loadStatus_ne_iff.mpr hinstall
    refine ⟨fun t => ⟨fun hrt => absurd (congrArg Prod.fst hrt) hfail, ?_⟩,
      ⟨fun _ => hall, fun _ => hfail⟩, fun _ => ?_⟩
    · rintro ⟨before, file, after, heq, -, hfile⟩
      exact absurd hfile (hall file (heq ▸ by simp) t)
    · rcases install with - | f
      · exact hr
      · have hrejected : ¬Accepted f := fun hacc => hinstall _ (holds_some.mpr ⟨hacc, rfl⟩)
        rw [hr, loadStatus, if_neg hrejected, if_neg (by simp)]
  | some file =>
    obtain ⟨f, rfl, hacc⟩ := find?_accepted hfind
    have hr : r = (.ok, parsed f) := h.found f hfind out
    have hok : r.1 = .ok := by rw [hr]
    have hfile : File.Holds (some f) (parsed f) := holds_some.mpr ⟨hacc, rfl⟩
    obtain ⟨-, before, after, heq, hbefore⟩ := find?_eq_some_iff.mp hfind
    refine ⟨fun t => ⟨fun hrt => ?_, ?_⟩, ⟨fun hfail => absurd hok hfail, fun hall => ?_⟩,
      fun hfail => absurd hok hfail⟩
    · obtain rfl : parsed f = t := (Prod.mk.inj (hr.symm.trans hrt)).2
      exact ⟨before, some f, after, heq, hbefore, hfile⟩
    · rintro ⟨before', file', after', heq', hbefore', hfile'⟩
      have hfind' := find?_eq_some_iff.mpr ⟨⟨t, hfile'⟩, before', after', heq', hbefore'⟩
      obtain rfl : some f = file' := Option.some.inj (hfind.symm.trans hfind')
      rw [hr, (holds_some.mp hfile').2]
    · exact absurd hfile (hall _ (heq ▸ by simp) _)

end Format

end Vkzg
