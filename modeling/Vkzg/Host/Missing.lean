import Vkzg.Host.Prover
import Vkzg.Shaders.Encoding

/-! The list of missing cells that `recoverBatch` hands to the device, and what the vanishing
polynomial built from it is zero on. -/

namespace Vkzg
open Radix Gpu Gpu.Kernel Polynomial Erasure BitReversal

/-! ### The scan -/

def brevCell (i : ℕ) : ℕ := (List.range 7).foldl (fun r b => r ||| ((i >>> b) &&& 1) <<< (6 - b)) 0

/-- The number of missing cells seen so far, and the words of the list. -/
structure Scan where
  count : ℕ
  missing : ℕ → ℕ

def scanCell (cellPresent : Bytes) (b : ℕ) (s : Scan) (i : ℕ) : Except Result Scan :=
  if cellPresent (b * circulantSize + i) = 0 then
    if s.count ≥ fieldElementsPerCell then .error .errBadArgs
    else .ok ⟨s.count + 1, Function.update s.missing (b * 65 + 1 + s.count) (brevCell i)⟩
  else .ok s

def scanBlob (cellPresent : Bytes) (missing : ℕ → ℕ) (b : ℕ) : Except Result (ℕ → ℕ) := do
  let s ← (List.range circulantSize).foldlM (scanCell cellPresent b) ⟨0, missing⟩
  pure (Function.update s.missing (b * 65) s.count)

/-- For each blob a count and up to 64 reversed indices, or an error if more cells are missing. -/
def missingList (cellPresent : Bytes) (batch : ℕ) : Except Result (ℕ → ℕ) :=
  (List.range batch).foldlM (scanBlob cellPresent) fun _ => 0

def uploadMissing (m : Mem) (missing : ℕ → ℕ) (batch : ℕ) : Mem :=
  writeBuf m .recMissing (wordBytes missing) (batch * 65 * 4)

/-! ### What the scan finds -/

/-- The missing cells of a blob, in wire order. -/
def missingCells (cellPresent : Bytes) (b : ℕ) : List ℕ :=
  (List.range circulantSize).filter fun i => cellPresent (b * circulantSize + i) = 0

section Scan
variable {cellPresent : Bytes} {b : ℕ}

theorem mem_missingCells {c : ℕ} :
    c ∈ missingCells cellPresent b ↔ c < circulantSize ∧ cellPresent (b * circulantSize + c) = 0 := by
  rw [missingCells, List.mem_filter, List.mem_range, decide_eq_true_iff]

theorem brevCell_eq : ∀ i < circulantSize, brevCell i = brev i 7 := by decide +kernel

/-- Words put one after the other from an offset on. -/
def place (f : ℕ → ℕ) (off : ℕ) (xs : List ℕ) : ℕ → ℕ := fun i =>
  if off ≤ i then xs.getD (i - off) (f i) else f i

theorem place_nil (f : ℕ → ℕ) (off : ℕ) : place f off [] = f := by
  funext i
  simp [place]

theorem place_update (f : ℕ → ℕ) (off x : ℕ) (xs : List ℕ) :
    place (Function.update f off x) (off + 1) xs = place f off (x :: xs) := by
  funext i
  unfold place
  rcases Nat.lt_trichotomy i off with hlt | rfl | hgt
  · rw [if_neg (by omega), if_neg (by omega), Function.update_of_ne hlt.ne]
  · rw [if_neg (by omega), if_pos (le_refl i), Function.update_self, Nat.sub_self,
      List.getD_cons_zero]
  · rw [if_pos (by omega), if_pos (by omega), Function.update_of_ne hgt.ne',
      show i - off = i - (off + 1) + 1 by omega, List.getD_cons_succ]

theorem place_of_not_mem {f : ℕ → ℕ} {off : ℕ} {xs : List ℕ} {i : ℕ}
    (h : i < off ∨ off + xs.length ≤ i) : place f off xs i = f i := by
  unfold place
  split_ifs with hle
  · rw [List.getD_eq_getElem?_getD, List.getElem?_eq_none (by omega), Option.getD_none]
  · rfl

/-- The scan of a list of cells fails as soon as there are more than 64 missing ones. -/
theorem foldlM_scanCell (l : List ℕ) {c : ℕ} (hc : c ≤ 64) (missing : ℕ → ℕ) :
    let cells := l.filter fun i => cellPresent (b * circulantSize + i) = 0
    l.foldlM (scanCell cellPresent b) ⟨c, missing⟩ =
      if c + cells.length ≤ 64 then
        .ok ⟨c + cells.length, place missing (b * 65 + 1 + c) (cells.map brevCell)⟩
      else .error .errBadArgs := by
  induction l generalizing c missing with
  | nil => simp [place_nil, hc]; rfl
  | cons i l ih =>
    simp only [List.foldlM_cons, scanCell, List.filter_cons, decide_eq_true_eq]
    by_cases hmiss : cellPresent (b * circulantSize + i) = 0
    · rw [if_pos hmiss, if_pos hmiss, List.length_cons, List.map_cons]
      by_cases hfull : c ≥ fieldElementsPerCell
      · have hc : c ≥ 64 := hfull
        rw [if_pos hfull, if_neg (by omega)]
        rfl
      · have hlt : c < 64 := Nat.lt_of_not_le hfull
        rw [if_neg hfull]
        refine (ih (show c + 1 ≤ 64 from hlt) _).trans ?_
        simp only [← add_assoc, place_update, Nat.add_right_comm c 1]
    · rw [if_neg hmiss, if_neg hmiss]
      exact ih hc missing

theorem scanBlob_eq (missing : ℕ → ℕ) :
    scanBlob cellPresent missing b =
      if (missingCells cellPresent b).length ≤ 64 then
        .ok (Function.update (place missing (b * 65 + 1) ((missingCells cellPresent b).map brevCell))
          (b * 65) (missingCells cellPresent b).length)
      else .error .errBadArgs := by
  rw [scanBlob, foldlM_scanCell (List.range circulantSize) (Nat.zero_le 64) missing]
  simp only [Nat.zero_add, Nat.add_zero]
  change (if (missingCells cellPresent b).length ≤ 64 then _ else _) >>= _ = _
  split_ifs <;> rfl

/-- The words of the whole list: for each blob a count, and the reversed indices padded with zeros. -/
def missingWords (cellPresent : Bytes) (batch i : ℕ) : ℕ :=
  let cells := missingCells cellPresent (i / 65)
  if i / 65 < batch then
    if i % 65 = 0 then cells.length else (cells.map brevCell).getD (i % 65 - 1) 0
  else 0

theorem missingWords_succ (batch : ℕ) (h : (missingCells cellPresent batch).length ≤ 64) :
    Function.update (place (missingWords cellPresent batch) (batch * 65 + 1)
      ((missingCells cellPresent batch).map brevCell)) (batch * 65)
        (missingCells cellPresent batch).length = missingWords cellPresent (batch + 1) := by
  funext i
  have hlen : ((missingCells cellPresent batch).map brevCell).length ≤ 64 := by
    rwa [List.length_map]
  have hdecomp := Nat.div_add_mod i 65
  have hmod := Nat.mod_lt i (show 0 < 65 by decide)
  rcases Nat.lt_trichotomy (i / 65) batch with hlt | heq | hgt
  · rw [Function.update_of_ne (by omega), place_of_not_mem (Or.inl (by omega))]
    simp only [missingWords, if_pos hlt, if_pos (Nat.lt_succ_of_lt hlt)]
  · simp only [missingWords, heq, if_pos (Nat.lt_succ_self batch)]
    by_cases h0 : i % 65 = 0
    · rw [if_pos h0, show i = batch * 65 by omega, Function.update_self]
    · have hzero : missingWords cellPresent batch i = 0 := if_neg (by omega)
      rw [if_neg h0, Function.update_of_ne (by omega), place, if_pos (by omega), hzero,
        show i - (batch * 65 + 1) = i % 65 - 1 by omega]
  · rw [Function.update_of_ne (by omega), place_of_not_mem (Or.inr (by omega))]
    simp only [missingWords, if_neg (Nat.not_lt.mpr hgt.le),
      if_neg (show ¬i / 65 < batch + 1 by omega)]

/-- The whole scan: it fails when some blob misses more than 64 cells. -/
theorem missingList_eq (cellPresent : Bytes) (batch : ℕ) :
    missingList cellPresent batch =
      if ∀ b < batch, (missingCells cellPresent b).length ≤ 64 then
        .ok (missingWords cellPresent batch)
      else .error .errBadArgs := by
  induction batch with
  | zero =>
    rw [if_pos fun b hb => absurd hb (Nat.not_lt_zero b)]
    rfl
  | succ n ih =>
    have hrun : missingList cellPresent (n + 1) =
        missingList cellPresent n >>= fun missing => scanBlob cellPresent missing n := by
      rw [missingList, List.range_succ, List.foldlM_append]
      simp only [List.foldlM_cons, List.foldlM_nil, bind_pure]
      rfl
    rw [hrun, ih]
    by_cases hprev : ∀ b < n, (missingCells cellPresent b).length ≤ 64
    · rw [if_pos hprev]
      refine (scanBlob_eq _).trans ?_
      by_cases hlast : (missingCells cellPresent n).length ≤ 64
      · have hall : ∀ b < n + 1, (missingCells cellPresent b).length ≤ 64 := fun b hb => by
          rcases Nat.lt_succ_iff_lt_or_eq.mp hb with hlt | rfl
          · exact hprev b hlt
          · exact hlast
        rw [if_pos hlast, if_pos hall, missingWords_succ n hlast]
      · rw [if_neg hlast, if_neg fun hall => hlast (hall n (Nat.lt_succ_self n))]
    · rw [if_neg hprev, if_neg fun hall => hprev fun b hb => hall b (Nat.lt_succ_of_lt hb)]
      rfl

end Scan

/-! ### The list on the device -/

section Upload
variable {cellPresent : Bytes} {batch b : ℕ} {m : Mem}

theorem missingWords_count (hb : b < batch) :
    missingWords cellPresent batch (b * 65) = (missingCells cellPresent b).length := by
  rw [missingWords, Nat.mul_div_cancel b (by decide), Nat.mul_mod_left]
  simp only [if_pos hb, if_true]

theorem missingWords_index (hb : b < batch) {t : ℕ} (ht : t < (missingCells cellPresent b).length)
    (h : (missingCells cellPresent b).length ≤ 64) :
    missingWords cellPresent batch (b * 65 + 1 + t) = brev (missingCells cellPresent b)[t] 7 := by
  have hdiv : (b * 65 + 1 + t) / 65 = b := by omega
  have hmod : (b * 65 + 1 + t) % 65 = 1 + t := by omega
  have hmem := List.getElem_mem ht
  simp only [missingWords, hdiv, hmod, if_pos hb, if_neg (show ¬1 + t = 0 by omega),
    Nat.add_sub_cancel_left]
  rw [List.getD_eq_getElem?_getD, List.getElem?_map, List.getElem?_eq_getElem ht, Option.map_some,
    Option.getD_some, brevCell_eq _ (mem_missingCells.mp hmem).1]

theorem missingWords_lt (h : ∀ b < batch, (missingCells cellPresent b).length ≤ 64) (i : ℕ) :
    missingWords cellPresent batch i < 256 ^ 4 := by
  unfold missingWords
  split_ifs with hb h0
  · exact (h _ hb).trans_lt (by decide)
  · rw [List.getD_eq_getElem?_getD]
    rcases lt_or_ge (i % 65 - 1) ((missingCells cellPresent (i / 65)).map brevCell).length with
      hlt | hge
    · rw [List.getElem?_eq_getElem hlt, Option.getD_some, List.getElem_map,
        brevCell_eq _ (mem_missingCells.mp (List.getElem_mem _)).1]
      exact (brev_lt (L := 7) (by decide)).trans (by decide)
    · rw [List.getElem?_eq_none hge]
      decide
  · decide

theorem elem_uploadMissing (h : ∀ b < batch, (missingCells cellPresent b).length ≤ 64) {i : ℕ}
    (hi : i < batch * 65) : (uploadMissing m (missingWords cellPresent batch) batch).elem 4
      .recMissing i = missingWords cellPresent batch i :=
  elem_writeBuf_wordBytes hi (missingWords_lt h i)

theorem missingWf_uploadMissing (h : ∀ b < batch, (missingCells cellPresent b).length ≤ 64)
    (hb : b < batch) :
    MissingWf (uploadMissing m (missingWords cellPresent batch) batch) b := by
  have hcount := elem_uploadMissing (m := m) h (i := b * 65) (by omega)
  rw [missingWords_count hb] at hcount
  refine ⟨hcount ▸ h b hb, fun t ht => ?_⟩
  rw [hcount] at ht
  have hle := h b hb
  rw [elem_uploadMissing h (by omega), missingWords_index hb ht hle]
  exact brev_lt (L := 7) (by decide)

theorem missingRoots_uploadMissing (h : ∀ b < batch, (missingCells cellPresent b).length ≤ 64)
    (hb : b < batch) (ρ : ℕ → ScalarField) :
    missingRoots ρ (uploadMissing m (missingWords cellPresent batch) batch) b =
      (missingCells cellPresent b).map fun c => ρ (64 * brev c 7) := by
  have hcount := elem_uploadMissing (m := m) h (i := b * 65) (by omega)
  rw [missingWords_count hb] at hcount
  have hle := h b hb
  rw [missingRoots, hcount]
  refine List.ext_getElem (by simp) fun t ht _ => ?_
  rw [List.length_map, List.length_range] at ht
  rw [List.getElem_map, List.getElem_range, List.getElem_map, elem_uploadMissing h (by omega),
    missingWords_index hb ht hle, Nat.mul_comm]

end Upload

/-! ### The zeros -/

/-- The polynomial that is zero on the points of the missing cells. -/
noncomputable def missingPoly (w : ScalarField) (cellPresent : Bytes) (b : ℕ) : ScalarField[X] :=
  ((missingCells cellPresent b).map fun c => X ^ 64 - C (w ^ (64 * brev c 7))).prod

section Zeros
variable {w : ScalarField} {cellPresent : Bytes} {b : ℕ}

theorem missingPoly_eq : missingPoly w cellPresent b =
    vanishing 64 ((missingCells cellPresent b).map fun c => w ^ (64 * brev c 7)) := by
  rw [vanishing_eq_prod, List.map_map]
  rfl

theorem degree_missingPoly (h : (missingCells cellPresent b).length ≤ 64) :
    (missingPoly w cellPresent b).degree < (8192 : ℕ) := by
  rw [missingPoly_eq, degree_vanishing (by decide), List.length_map]
  exact_mod_cast (show (missingCells cellPresent b).length * 64 < 8192 by omega)

theorem brev_cell {c e : ℕ} (he : e < 64) : brev (64 * c + e) 13 = brev e 6 * 128 + brev c 7 := by
  rw [brev_eq (by decide), brev_eq (by decide), brev_eq (by decide), rev_add 6 7,
    ← rev_mod 6, show (64 * c + e) % 2 ^ 6 = e by omega, show (64 * c + e) / 2 ^ 6 = c by omega,
    show 2 ^ 7 = 128 by decide]

/-- Every element of a cell lies over the root of its cell. -/
theorem point_pow (hw : IsPrimitiveRoot w 8192) {c e : ℕ} (he : e < 64) :
    (w ^ brev (64 * c + e) 13) ^ 64 = w ^ (64 * brev c 7) := by
  rw [brev_cell he, ← pow_mul, show (brev e 6 * 128 + brev c 7) * 64 =
    8192 * brev e 6 + 64 * brev c 7 by ring, pow_add, pow_mul, hw.pow_eq_one, one_pow, one_mul]

theorem eval_missingPoly_eq_zero (hw : IsPrimitiveRoot w 8192) {c e : ℕ} (hc : c < circulantSize)
    (he : e < 64) : (missingPoly w cellPresent b).eval (w ^ brev (64 * c + e) 13) = 0 ↔
      cellPresent (b * circulantSize + c) = 0 := by
  rw [missingPoly_eq, eval_vanishing_eq_zero, point_pow hw he, List.mem_map]
  constructor
  · rintro ⟨c', hmem, heq⟩
    obtain ⟨hc', hzero⟩ := mem_missingCells.mp hmem
    have hlt : brev c 7 < 128 := brev_lt (L := 7) (by decide)
    have hlt' : brev c' 7 < 128 := brev_lt (L := 7) (by decide)
    have hexp := hw.pow_inj (by omega) (by omega) heq
    have hrev : brev c' 7 = brev c 7 := by omega
    rw [brev_eq (by decide), brev_eq (by decide)] at hrev
    rwa [rev_inj (b := 7) hc' hc hrev] at hzero
  · exact fun hzero => ⟨c, mem_missingCells.mpr ⟨hc, hzero⟩, rfl⟩

/-- The coset of 7 holds no root of unity, and so no zero. -/
theorem eval_missingPoly_coset_ne_zero (hw : IsPrimitiveRoot w 8192) (k : ℕ) :
    (missingPoly w cellPresent b).eval (7 * w ^ k) ≠ 0 := by
  rw [missingPoly_eq, Ne, eval_vanishing_eq_zero, List.mem_map]
  rintro ⟨c, -, heq⟩
  have hone : ∀ j, (w ^ j) ^ 8192 = 1 := fun j => by
    rw [← pow_mul, Nat.mul_comm, pow_mul, hw.pow_eq_one, one_pow]
  refine seven_pow_ne_one ?_
  have hpow : _ ^ 128 = _ ^ 128 := congrArg (· ^ 128) heq
  rw [mul_pow, mul_pow, ← pow_mul 7, ← pow_mul (w ^ k), hone k, mul_one, ← pow_mul,
    show 64 * brev c 7 * 128 = 8192 * brev c 7 by ring, pow_mul, hw.pow_eq_one, one_pow] at hpow
  exact hpow.symm

end Zeros

end Vkzg
