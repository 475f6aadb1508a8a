import QuickBeam.Lib.BitGroups
import QuickBeam.Text.Utf8Steps

/-!
# Well-formed UTF-8 (`validate_utf8`, `replace_invalid_utf8`)

The three loops as they are written: each with its index, its own tests and, for the second pass,
the buffer that it fills.  They are compared with the well-formed byte sequences of the Unicode
standard, which are given by a table of byte ranges and know neither lead bytes nor code points.
-/

namespace QuickBeam.Text.Utf8Replacement

open QuickBeam.Lib.BitGroups

/-! ### Well-formed byte sequences -/

/-- The well-formed sequences of one character, by the ranges of their bytes. -/
def ranges : List (List (UInt8 × UInt8)) :=
  [[(0x00, 0x7F)],
    [(0xC2, 0xDF), (0x80, 0xBF)],
    [(0xE0, 0xE0), (0xA0, 0xBF), (0x80, 0xBF)],
    [(0xE1, 0xEC), (0x80, 0xBF), (0x80, 0xBF)],
    [(0xED, 0xED), (0x80, 0x9F), (0x80, 0xBF)],
    [(0xEE, 0xEF), (0x80, 0xBF), (0x80, 0xBF)],
    [(0xF0, 0xF0), (0x90, 0xBF), (0x80, 0xBF), (0x80, 0xBF)],
    [(0xF1, 0xF3), (0x80, 0xBF), (0x80, 0xBF), (0x80, 0xBF)],
    [(0xF4, 0xF4), (0x80, 0x8F), (0x80, 0xBF), (0x80, 0xBF)]]

def Within (b : UInt8) (range : UInt8 × UInt8) : Prop := range.1 ≤ b ∧ b ≤ range.2

def Character (bytes : List UInt8) : Prop := ∃ row ∈ ranges, List.Forall₂ Within bytes row

inductive WellFormed : List UInt8 → Prop where
  | nil : WellFormed []
  | cons {c rest : List UInt8} : Character c → WellFormed rest → WellFormed (c ++ rest)

/-! ### The loops -/

/-- `data[i]`; the loops read below the length only. -/
def byteAt (data : List UInt8) (i : ℕ) : UInt8 := data.getD i 0

def slice (data : List UInt8) (start stop : ℕ) : List UInt8 := (data.take stop).drop start

/-- The `switch` of `validate_utf8`; `none` for its `else`, which returns `false`. -/
def inlineCodepoint (data : List UInt8) (i seqLen : ℕ) : Option ℕ :=
  let bits j mask := (byteAt data (i + j)).toNat &&& mask
  match seqLen with
  | 2 => some (bits 0 0x1F <<< 6 ||| bits 1 0x3F)
  | 3 => some (bits 0 0x0F <<< 12 ||| bits 1 0x3F <<< 6 ||| bits 2 0x3F)
  | 4 => some (bits 0 0x07 <<< 18 ||| bits 1 0x3F <<< 12 ||| bits 2 0x3F <<< 6 ||| bits 3 0x3F)
  | _ => none

/-- One turn of `validate_utf8`: the next index, or `none` when it returns `false`. -/
def validateAt (data : List UInt8) (i : ℕ) : Option ℕ :=
  let b := byteAt data i
  if b < 0x80 then some (i + 1)
  else
    match sequenceLength b with
    | none => none
    | some seqLen =>
      if data.length < i + seqLen then none
      else if (List.range' 1 (seqLen - 1)).any fun j => byteAt data (i + j) &&& 0xC0 ≠ 0x80 then none
      else
        match inlineCodepoint data i seqLen with
        | none => none
        | some cp =>
          if seqLen = 2 ∧ cp < 0x80 then none
          else if seqLen = 3 ∧ cp < 0x800 then none
          else if seqLen = 4 ∧ cp < 0x10000 then none
          else if 0xD800 ≤ cp ∧ cp ≤ 0xDFFF then none
          else if 0x10FFFF < cp then none
          else some (i + seqLen)

/-- One turn of the first pass: whether it sets `needs_replace`, and the next index. -/
def detectAt (data : List UInt8) (i : ℕ) : Bool × ℕ :=
  let b := byteAt data i
  if b < 0x80 then (false, i + 1)
  else
    match sequenceLength b with
    | none => (true, i + 1)
    | some sl =>
      if data.length < i + sl ∨
          ¬ validateContinuation (slice data (i + 1) (min (i + sl) data.length)) = true then
        (true, i + 1)
      else
        let cp := decodeCodepoint (data.drop i) sl
        (isOverlong cp sl || (0xD800 ≤ cp && cp ≤ 0xDFFF) || 0x10FFFF < cp, i + sl)

/-- What a turn of the second pass writes. -/
inductive Write where
  | replacement
  | copy (count : ℕ)
deriving DecidableEq

/-- One turn of the second pass: what is written, and the next index. -/
def rewriteAt (data : List UInt8) (i : ℕ) : Write × ℕ :=
  let b := byteAt data i
  if b < 0x80 then (.copy 1, i + 1)
  else
    match sequenceLength b with
    | none => (.replacement, i + 1)
    | some sl =>
      if data.length < i + sl ∨
          ¬ validateContinuation (slice data (i + 1) (min (i + sl) data.length)) = true then
        (.replacement, i + 1)
      else
        let cp := decodeCodepoint (data.drop i) sl
        if isOverlong cp sl || (0xD800 ≤ cp && cp ≤ 0xDFFF) || 0x10FFFF < cp then
          (.replacement, i + sl)
        else (.copy sl, i + sl)

def Write.bytes (data : List UInt8) (i : ℕ) : Write → List UInt8
  | .replacement => Text.replacement
  | .copy count => slice data i (i + count)

variable {data : List UInt8}

theorem validateAt_gt {i next : ℕ} (h : validateAt data i = some next) : i < next := by
  unfold validateAt at h
  dsimp only at h
  split at h
  · cases h
    omega
  split at h
  · cases h
  · rename_i seqLen hlen
    have hpos := sequenceLength_cases hlen
    repeat' split at h
    all_goals cases h
    all_goals omega

theorem detectAt_gt (data : List UInt8) (i : ℕ) : i < (detectAt data i).2 := by
  unfold detectAt
  dsimp only
  split
  · exact Nat.lt_succ_self i
  split
  · exact Nat.lt_succ_self i
  · rename_i sl hlen
    have hpos := sequenceLength_cases hlen
    split
    · exact Nat.lt_succ_self i
    · show i < i + sl
      omega

/-- **Both passes classify a byte alike**: they go on at the same index, and the second writes
U+FFFD where the first has set the flag. -/
theorem rewriteAt_eq_detectAt (data : List UInt8) (i : ℕ) :
    (rewriteAt data i).2 = (detectAt data i).2 ∧
      ((rewriteAt data i).1 = .replacement ↔ (detectAt data i).1 = true) := by
  unfold rewriteAt detectAt
  dsimp only
  split
  · simp
  split
  · simp
  split
  · simp
  split
  · rename_i h
    simp [h]
  · rename_i h
    simp [h]

def validateFrom (data : List UInt8) (i : ℕ) : Bool :=
  if i < data.length then
    match _h : validateAt data i with
    | none => false
    | some next => validateFrom data next
  else true
termination_by data.length - i
decreasing_by
  have := validateAt_gt _h
  omega

def validateUtf8 (data : List UInt8) : Bool := validateFrom data 0

def detectFrom (data : List UInt8) (i : ℕ) (needsReplace : Bool) : Bool :=
  if i < data.length then
    detectFrom data (detectAt data i).2 (needsReplace || (detectAt data i).1)
  else needsReplace
termination_by data.length - i
decreasing_by
  have := detectAt_gt data i
  omega

/-- The second pass from `i` on, with what it has written into a buffer of `size` bytes; `none`
for a write behind the end of the buffer. -/
def rewriteFrom (data : List UInt8) (size i : ℕ) (written : List UInt8) : Option (List UInt8) :=
  if i < data.length then
    let bytes := (rewriteAt data i).1.bytes data i
    if size < written.length + bytes.length then none
    else rewriteFrom data size (rewriteAt data i).2 (written ++ bytes)
  else some written
termination_by data.length - i
decreasing_by
  have := detectAt_gt data i
  rw [(rewriteAt_eq_detectAt data i).1]
  omega

/-- What `replace_invalid_utf8` does, where the allocation succeeds. -/
inductive Replaced where
  | null
  | bytes (buf : List UInt8)
  | outOfBounds
deriving DecidableEq

def replaceInvalidUtf8 (data : List UInt8) : Replaced :=
  if detectFrom data 0 false then
    match rewriteFrom data (max (data.length * 3) 1) 0 [] with
    | some buf => .bytes buf
    | none => .outOfBounds
  else .null

/-! ### The loops and the steps -/

variable {i : ℕ}

theorem drop_eq_cons (h : i < data.length) : data.drop i = byteAt data i :: data.drop (i + 1) := by
  rw [List.drop_eq_getElem_cons h, byteAt, List.getD_eq_getElem?_getD, List.getElem?_eq_getElem h,
    Option.getD_some]

theorem getD_drop (data : List UInt8) (i j : ℕ) : (data.drop i).getD j 0 = byteAt data (i + j) := by
  rw [byteAt, List.getD_eq_getElem?_getD, List.getD_eq_getElem?_getD, List.getElem?_drop]

theorem slice_eq (data : List UInt8) (i sl : ℕ) :
    slice data (i + 1) (i + sl) = (data.drop (i + 1)).take (sl - 1) := by
  rw [slice, List.drop_take]
  congr 1
  omega

variable {sl : ℕ}

theorem broken_iff (h : i < data.length) : (data.length < i + sl ∨
        ¬ validateContinuation (slice data (i + 1) (min (i + sl) data.length)) = true) ↔
      ((data.drop (i + 1)).length + 1 < sl ||
        !validateContinuation ((data.drop (i + 1)).take (sl - 1))) = true := by
  have hlength : (data.drop (i + 1)).length + 1 < sl ↔ data.length < i + sl := by
    rw [List.length_drop]
    omega
  rw [Bool.or_eq_true, decide_eq_true_eq, hlength, Bool.not_eq_true', Bool.not_eq_true]
  by_cases hshort : data.length < i + sl
  · simp [hshort]
  · rw [Nat.min_eq_left (by omega), slice_eq]

theorem detectAt_eq (h : i < data.length) : detectAt data i =
      match branch (byteAt data i) (data.drop (i + 1)) with
      | .ascii => (false, i + 1)
      | .stray => (true, i + 1)
      | .invalid sl => (true, i + sl)
      | .scalar sl => (false, i + sl) := by
  unfold detectAt branch
  by_cases hascii : byteAt data i < 0x80
  · simp [hascii]
  · simp only [hascii, if_false]
    cases hlen : sequenceLength (byteAt data i) with
    | none => rfl
    | some sl =>
      simp only [broken_iff h, ← drop_eq_cons h]
      split
      · rfl
      · show (isInvalid (decodeCodepoint (data.drop i) sl) sl, i + sl) = _
        cases isInvalid (decodeCodepoint (data.drop i) sl) sl <;> rfl

theorem bytes_rewriteAt (h : i < data.length) : (rewriteAt data i).1.bytes data i =
      match branch (byteAt data i) (data.drop (i + 1)) with
      | .ascii => [byteAt data i]
      | .stray => replacement
      | .invalid _ => replacement
      | .scalar sl => byteAt data i :: (data.drop (i + 1)).take (sl - 1) := by
  have hcopy : ∀ count, 0 < count →
      slice data i (i + count) = byteAt data i :: (data.drop (i + 1)).take (count - 1) := by
    intro count hcount
    obtain ⟨n, rfl⟩ : ∃ n, count = n + 1 := ⟨count - 1, by omega⟩
    rw [slice, List.drop_take, Nat.add_sub_cancel_left, drop_eq_cons h, List.take_succ_cons,
      Nat.add_sub_cancel]
  unfold rewriteAt branch
  by_cases hascii : byteAt data i < 0x80
  · simp only [hascii, if_true]
    exact hcopy 1 Nat.one_pos
  · simp only [hascii, if_false]
    cases hlen : sequenceLength (byteAt data i) with
    | none => rfl
    | some sl =>
      have hpos := sequenceLength_cases hlen
      simp only [broken_iff h, ← drop_eq_cons h]
      split
      · rfl
      · show (if isInvalid (decodeCodepoint (data.drop i) sl) sl = true then (Write.replacement, i + sl)
          else (Write.copy sl, i + sl)).1.bytes data i = _
        cases isInvalid (decodeCodepoint (data.drop i) sl) sl with
        | true => rfl
        | false => exact hcopy sl (by omega)

theorem inlineCodepoint_eq (h : sl = 2 ∨ sl = 3 ∨ sl = 4) :
    inlineCodepoint data i sl = some (decodeCodepoint (data.drop i) sl) := by
  rcases h with rfl | rfl | rfl
  all_goals
    simp only [inlineCodepoint, decodeCodepoint, getD_drop]

theorem any_range'_eq (hlong : i + sl ≤ data.length) :
    ((List.range' 1 (sl - 1)).any fun j => byteAt data (i + j) &&& 0xC0 ≠ 0x80) =
      !validateContinuation ((data.drop (i + 1)).take (sl - 1)) := by
  have htake : (data.drop (i + 1)).take (sl - 1) =
      (List.range' 1 (sl - 1)).map fun j => byteAt data (i + j) := by
    apply List.ext_getElem
    · rw [List.length_take, List.length_drop, List.length_map, List.length_range']
      omega
    · intro j h₁ h₂
      rw [List.length_map, List.length_range'] at h₂
      rw [List.getElem_take, List.getElem_drop, List.getElem_map, List.getElem_range', byteAt,
        List.getD_eq_getElem?_getD, List.getElem?_eq_getElem (by omega), Option.getD_some]
      congr 1
      omega
  rw [htake, validateContinuation, List.all_map, List.not_all_eq_any_not]
  congr 1
  funext j
  simp [isContinuation, Function.comp]

theorem invalid_tests (cp sl next : ℕ) :
    (if sl = 2 ∧ cp < 0x80 then none
      else if sl = 3 ∧ cp < 0x800 then none
      else if sl = 4 ∧ cp < 0x10000 then none
      else if 0xD800 ≤ cp ∧ cp ≤ 0xDFFF then none
      else if 0x10FFFF < cp then none
      else some next) = if isInvalid cp sl then none else some next := by
  simp only [isInvalid, isOverlong, Bool.or_eq_true, Bool.and_eq_true, decide_eq_true_eq]
  split_ifs <;> first | rfl | omega

/-- **The validator takes the same steps** and leaves where the passes replace. -/
theorem validateAt_eq (h : i < data.length) : validateAt data i =
      match branch (byteAt data i) (data.drop (i + 1)) with
      | .ascii => some (i + 1)
      | .stray => none
      | .invalid _ => none
      | .scalar sl => some (i + sl) := by
  unfold validateAt branch
  by_cases hascii : byteAt data i < 0x80
  · simp [hascii]
  · simp only [hascii, if_false]
    cases hlen : sequenceLength (byteAt data i) with
    | none => rfl
    | some sl =>
      have hpos := sequenceLength_cases hlen
      have hlength : (data.drop (i + 1)).length + 1 < sl ↔ data.length < i + sl := by
        rw [List.length_drop]
        omega
      simp only [inlineCodepoint_eq hpos, ← drop_eq_cons h, invalid_tests, hlength]
      by_cases hshort : data.length < i + sl
      · simp [hshort]
      · simp only [any_range'_eq (show i + sl ≤ data.length by omega), hshort, if_false,
          decide_false, Bool.false_or]
        cases validateContinuation ((data.drop (i + 1)).take (sl - 1)) with
        | false => rfl
        | true => cases isInvalid (decodeCodepoint (data.drop i) sl) sl <;> rfl

/-! ### The loops and the lists -/

theorem drop_step (data : List UInt8) (i : ℕ) (hpos : 0 < sl) :
    (data.drop (i + 1)).drop (sl - 1) = data.drop (i + sl) := by
  rw [List.drop_drop]
  congr 1
  omega

variable {b : UInt8}

theorem branch_length {rest : List UInt8}
    (h : branch b rest = .invalid sl ∨ branch b rest = .scalar sl) : 0 < sl := by
  unfold branch at h
  split at h
  · simp at h
  split at h
  · simp at h
  · rename_i sl' hlen
    have hpos := sequenceLength_cases hlen
    split_ifs at h <;> simp at h <;> omega

theorem validateFrom_of_lt (h : i < data.length) : validateFrom data i =
      match validateAt data i with
      | none => false
      | some next => validateFrom data next := by
  rw [validateFrom, if_pos h]
  split <;> rename_i hturn <;> rw [hturn]

theorem validateFrom_eq (data : List UInt8) (i : ℕ) :
    validateFrom data i = Text.validateUtf8 (data.drop i) := by
  induction hn : data.length - i using Nat.strong_induction_on generalizing i with
  | _ n ih =>
    by_cases hi : i < data.length
    · rw [validateFrom_of_lt hi, validateAt_eq hi, drop_eq_cons hi, Text.validateUtf8]
      cases hbranch : branch (byteAt data i) (data.drop (i + 1)) with
      | ascii => exact ih _ (by omega) (i + 1) rfl
      | stray => rfl
      | invalid sl => rfl
      | scalar sl =>
        have hsl := branch_length (.inr hbranch)
        dsimp only
        rw [drop_step data i hsl]
        exact ih _ (by omega) (i + sl) rfl
    · rw [validateFrom, if_neg hi, List.drop_eq_nil_of_le (by omega), Text.validateUtf8]

theorem detectFrom_eq (data : List UInt8) (i : ℕ) (flag : Bool) :
    detectFrom data i flag = (flag || needsReplace (data.drop i)) := by
  induction hn : data.length - i using Nat.strong_induction_on generalizing i flag with
  | _ n ih =>
    by_cases hi : i < data.length
    · rw [detectFrom, if_pos hi, detectAt_eq hi, drop_eq_cons hi, needsReplace]
      cases hbranch : branch (byteAt data i) (data.drop (i + 1)) with
      | ascii =>
        rw [ih _ (by omega) (i + 1) _ rfl]
        simp
      | stray =>
        rw [ih _ (by omega) (i + 1) _ rfl]
        simp
      | invalid sl =>
        have hsl := branch_length (.inl hbranch)
        rw [ih _ (by omega) (i + sl) _ rfl]
        simp
      | scalar sl =>
        have hsl := branch_length (.inr hbranch)
        rw [ih _ (by omega) (i + sl) _ rfl]
        dsimp only
        rw [drop_step data i hsl, Bool.or_false]
    · rw [detectFrom, if_neg hi, List.drop_eq_nil_of_le (by omega), needsReplace, Bool.or_false]

/-- **The buffer is never overrun** as long as it has three bytes for each byte that is left. -/
theorem rewriteFrom_eq {size : ℕ} (i : ℕ) {written : List UInt8}
    (hsize : written.length + 3 * (data.length - i) ≤ size) :
    rewriteFrom data size i written = some (written ++ replacePass (data.drop i)) := by
  induction hn : data.length - i using Nat.strong_induction_on generalizing i written with
  | _ n ih =>
    by_cases hi : i < data.length
    · have hpasses := (rewriteAt_eq_detectAt data i).1
      have hturn : ∀ (bytes : List UInt8) (next : ℕ), i < next →
          bytes.length + 3 * (data.length - next) ≤ 3 * (data.length - i) →
          (if size < written.length + bytes.length then none
            else rewriteFrom data size next (written ++ bytes)) =
            some (written ++ (bytes ++ replacePass (data.drop next))) := by
        intro bytes next hnext hroom
        rw [if_neg (by omega), ih _ (by omega) next (by rw [List.length_append]; omega) rfl,
          List.append_assoc]
      rw [detectAt_eq hi] at hpasses
      rw [rewriteFrom, if_pos hi, bytes_rewriteAt hi, hpasses, drop_eq_cons hi, replacePass]
      have hreplacement : replacement.length = 3 := rfl
      cases hbranch : branch (byteAt data i) (data.drop (i + 1)) with
      | ascii => exact hturn [byteAt data i] (i + 1) (by omega) (by simp; omega)
      | stray => exact hturn replacement (i + 1) (by omega) (by omega)
      | invalid sl =>
        have hsl := branch_length (.inl hbranch)
        dsimp only
        rw [drop_step data i hsl]
        exact hturn replacement (i + sl) (by omega) (by omega)
      | scalar sl =>
        have hsl := branch_length (.inr hbranch)
        dsimp only
        rw [drop_step data i hsl]
        refine hturn (byteAt data i :: (data.drop (i + 1)).take (sl - 1)) (i + sl) (by omega) ?_
        rw [List.length_cons, List.length_take, List.length_drop]
        omega
    · rw [rewriteFrom, if_neg hi, List.drop_eq_nil_of_le (by omega), replacePass, List.append_nil]

theorem validateUtf8_eq (data : List UInt8) : validateUtf8 data = Text.validateUtf8 data :=
  validateFrom_eq data 0

theorem replaceInvalidUtf8_eq (data : List UInt8) :
    replaceInvalidUtf8 data =
      if needsReplace data then .bytes (replacePass data) else .null := by
  have hbuffer : rewriteFrom data (max (data.length * 3) 1) 0 [] = some (replacePass data) :=
    rewriteFrom_eq 0 (by simp; omega)
  rw [replaceInvalidUtf8, detectFrom_eq, hbuffer, Bool.false_or, List.drop_zero]

theorem needsReplace_eq (data : List UInt8) : needsReplace data = !Text.validateUtf8 data := by
  induction data using needsReplace.induct with
  | case1 => rw [needsReplace, Text.validateUtf8]; rfl
  | case2 b rest hbranch ih => simp [needsReplace, Text.validateUtf8, hbranch, ih]
  | case3 b rest hbranch => simp [needsReplace, Text.validateUtf8, hbranch]
  | case4 b rest sl hbranch => simp [needsReplace, Text.validateUtf8, hbranch]
  | case5 b rest sl hbranch ih => simp [needsReplace, Text.validateUtf8, hbranch, ih]

/-! ### Characters -/

private theorem byte_ranges : ∀ i : Fin 256,
    sequenceLength (UInt8.ofNat i) =
        (if 192 ≤ i.val ∧ i.val ≤ 223 then some 2
          else if 224 ≤ i.val ∧ i.val ≤ 239 then some 3
          else if 240 ≤ i.val ∧ i.val ≤ 247 then some 4 else none) ∧
      isContinuation (UInt8.ofNat i) = decide (128 ≤ i.val ∧ i.val ≤ 191) := by
  decide +kernel

theorem sequenceLength_eq (b : UInt8) :
    sequenceLength b =
      if 192 ≤ b.toNat ∧ b.toNat ≤ 223 then some 2
      else if 224 ≤ b.toNat ∧ b.toNat ≤ 239 then some 3
      else if 240 ≤ b.toNat ∧ b.toNat ≤ 247 then some 4 else none := by
  have hb := (byte_ranges ⟨b.toNat, b.toNat_lt⟩).1
  rwa [show UInt8.ofNat (⟨b.toNat, b.toNat_lt⟩ : Fin 256) = b from UInt8.ofNat_toNat] at hb

theorem isContinuation_iff (b : UInt8) :
    isContinuation b = true ↔ 128 ≤ b.toNat ∧ b.toNat ≤ 191 := by
  have hb := (byte_ranges ⟨b.toNat, b.toNat_lt⟩).2
  rw [show UInt8.ofNat (⟨b.toNat, b.toNat_lt⟩ : Fin 256) = b from UInt8.ofNat_toNat] at hb
  rw [hb, decide_eq_true_eq]

theorem within_iff (b lo hi : UInt8) : Within b (lo, hi) ↔ lo.toNat ≤ b.toNat ∧ b.toNat ≤ hi.toNat :=
  and_congr UInt8.le_iff_toNat_le UInt8.le_iff_toNat_le

theorem character_one (a : UInt8) : Character [a] ↔ a.toNat ≤ 127 := by
  simp [Character, ranges, within_iff]

theorem character_two (a b : UInt8) :
    Character [a, b] ↔ (194 ≤ a.toNat ∧ a.toNat ≤ 223) ∧ 128 ≤ b.toNat ∧ b.toNat ≤ 191 := by
  simp [Character, ranges, within_iff]

theorem character_three (a b c : UInt8) :
    Character [a, b, c] ↔
      (a.toNat = 224 ∧ 160 ≤ b.toNat ∧ b.toNat ≤ 191 ∨
        225 ≤ a.toNat ∧ a.toNat ≤ 239 ∧ 128 ≤ b.toNat ∧ b.toNat ≤ 191 ∧
          ¬ (a.toNat = 237 ∧ 160 ≤ b.toNat)) ∧ 128 ≤ c.toNat ∧ c.toNat ≤ 191 := by
  simp [Character, ranges, within_iff]
  omega

theorem character_four (a b c d : UInt8) :
    Character [a, b, c, d] ↔
      (a.toNat = 240 ∧ 144 ≤ b.toNat ∧ b.toNat ≤ 191 ∨
        241 ≤ a.toNat ∧ a.toNat ≤ 243 ∧ 128 ≤ b.toNat ∧ b.toNat ≤ 191 ∨
        a.toNat = 244 ∧ 128 ≤ b.toNat ∧ b.toNat ≤ 143) ∧
      (128 ≤ c.toNat ∧ c.toNat ≤ 191) ∧ 128 ≤ d.toNat ∧ d.toNat ≤ 191 := by
  simp [Character, ranges, within_iff]
  omega

theorem sequenceLength_eq_some (b : UInt8) (n : ℕ) :
    sequenceLength b = some n ↔
      n = 2 ∧ 192 ≤ b.toNat ∧ b.toNat ≤ 223 ∨ n = 3 ∧ 224 ≤ b.toNat ∧ b.toNat ≤ 239 ∨
        n = 4 ∧ 240 ≤ b.toNat ∧ b.toNat ≤ 247 := by
  rw [sequenceLength_eq]
  split_ifs <;> simp <;> omega

theorem isInvalid_eq_false (cp sl : ℕ) :
    isInvalid cp sl = false ↔
      ¬ (sl = 2 ∧ cp < 0x80) ∧ ¬ (sl = 3 ∧ cp < 0x800) ∧ ¬ (sl = 4 ∧ cp < 0x10000) ∧
        ¬ (0xD800 ≤ cp ∧ cp ≤ 0xDFFF) ∧ cp ≤ 0x10FFFF := by
  rw [← Bool.not_eq_true]
  simp only [isInvalid, isOverlong, Bool.or_eq_true, Bool.and_eq_true, decide_eq_true_eq]
  omega

variable {c : List UInt8}

/-- **The table against the decoded code point**: a whole sequence is in the table exactly if it
is not overlong, no surrogate and in range. -/
theorem character_iff_of_isSequence (h : isSequence c = true) :
    Character c ↔ isInvalid (decodeCodepoint c c.length) c.length = false := by
  match c, h with
  | a :: rest, h =>
    obtain ⟨hlen, hcont⟩ := isSequence_cons h
    rw [sequenceLength_eq_some] at hlen
    match rest, hlen, hcont with
    | [b], hlen, hcont =>
      have hb : 128 ≤ b.toNat ∧ b.toNat ≤ 191 := by
        simpa [validateContinuation, isContinuation_iff] using hcont
      have hcp : decodeCodepoint [a, b] 2 = a.toNat % 32 * 64 + b.toNat % 64 := by
        show (a.toNat &&& 0x1F) <<< 6 ||| (b.toNat &&& 0x3F) = _
        rw [and_0x1F, and_0x3F, join2 (Nat.mod_lt _ (by decide))]
      simp only [List.length_cons, List.length_nil] at hlen ⊢
      rw [character_two, hcp, isInvalid_eq_false]
      omega
    | [b, c], hlen, hcont =>
      have hbc : (128 ≤ b.toNat ∧ b.toNat ≤ 191) ∧ 128 ≤ c.toNat ∧ c.toNat ≤ 191 := by
        simpa [validateContinuation, isContinuation_iff] using hcont
      have hcp : decodeCodepoint [a, b, c] 3 =
          a.toNat % 16 * 4096 + b.toNat % 64 * 64 + c.toNat % 64 := by
        show (a.toNat &&& 0x0F) <<< 12 ||| (b.toNat &&& 0x3F) <<< 6 ||| (c.toNat &&& 0x3F) = _
        rw [and_0x0F, and_0x3F, and_0x3F, join3 (Nat.mod_lt _ (by decide)) (Nat.mod_lt _ (by decide))]
      simp only [List.length_cons, List.length_nil] at hlen ⊢
      rw [character_three, hcp, isInvalid_eq_false]
      omega
    | [b, c, d], hlen, hcont =>
      have hbcd : (128 ≤ b.toNat ∧ b.toNat ≤ 191) ∧ (128 ≤ c.toNat ∧ c.toNat ≤ 191) ∧
          128 ≤ d.toNat ∧ d.toNat ≤ 191 := by
        simpa [validateContinuation, isContinuation_iff] using hcont
      have hcp : decodeCodepoint [a, b, c, d] 4 =
          a.toNat % 8 * 262144 + b.toNat % 64 * 4096 + c.toNat % 64 * 64 + d.toNat % 64 := by
        show (a.toNat &&& 0x07) <<< 18 ||| (b.toNat &&& 0x3F) <<< 12 ||| (c.toNat &&& 0x3F) <<< 6 |||
          (d.toNat &&& 0x3F) = _
        rw [and_0x07, and_0x3F, and_0x3F, and_0x3F, join4 (Nat.mod_lt _ (by decide))
          (Nat.mod_lt _ (by decide)) (Nat.mod_lt _ (by decide))]
      simp only [List.length_cons, List.length_nil] at hlen ⊢
      rw [character_four, hcp, isInvalid_eq_false]
      omega
    | [], hlen, _ => simp at hlen
    | _ :: _ :: _ :: _ :: _, hlen, _ =>
      simp only [List.length_cons] at hlen
      omega

theorem character_cases (h : Character c) : (∃ b, c = [b] ∧ b < 0x80) ∨ isSequence c = true := by
  match c, h with
  | [], h => simp [Character, ranges] at h
  | [a], h =>
    refine .inl ⟨a, rfl, ?_⟩
    rw [character_one] at h
    exact UInt8.lt_iff_toNat_lt.2 (Nat.lt_succ_of_le h)
  | [a, b], h =>
    rw [character_two] at h
    refine .inr ?_
    simp [isSequence, validateContinuation, isContinuation_iff, sequenceLength_eq_some]
    omega
  | [a, b, c], h =>
    rw [character_three] at h
    refine .inr ?_
    simp [isSequence, validateContinuation, isContinuation_iff, sequenceLength_eq_some]
    omega
  | [a, b, c, d], h =>
    rw [character_four] at h
    refine .inr ?_
    simp [isSequence, validateContinuation, isContinuation_iff, sequenceLength_eq_some]
    omega
  | _ :: _ :: _ :: _ :: _ :: _, h => simp [Character, ranges] at h

/-! ### Well-formed strings -/

theorem character_ascii (h : b < 0x80) : Character [b] := by
  rw [character_one]
  exact Nat.le_of_lt_succ (UInt8.lt_iff_toNat_lt.1 h)

/-- **A string is well formed exactly if every step over it is valid.** -/
theorem wellFormed_iff (data : List UInt8) : WellFormed data ↔ (scan data).all Step.valid = true := by
  constructor
  · intro h
    induction h with
    | nil => simp
    | cons hc _ ih =>
      rcases character_cases hc with ⟨b, rfl, hb⟩ | hseq
      · rw [List.singleton_append, scan_ascii _ hb, List.all_cons, ih]
        rfl
      · rw [scan_sequence _ hseq, List.all_cons, ih, valid_sequenceStep,
          (character_iff_of_isSequence hseq).1 hc]
        rfl
  · intro h
    induction data using bytes_induction with
    | nil => exact .nil
    | ascii b rest hb ih =>
      rw [scan_ascii _ hb, List.all_cons, Bool.and_eq_true] at h
      exact .cons (character_ascii hb) (ih h.2)
    | sequence b s v hseq ih =>
      rw [← List.cons_append, scan_sequence _ hseq, List.all_cons, Bool.and_eq_true,
        valid_sequenceStep, Bool.not_eq_true'] at h
      exact .cons ((character_iff_of_isSequence hseq).2 h.1) (ih h.2)
    | stray b rest hascii hnone ih =>
      rw [scan_stray hascii hnone] at h
      cases h

theorem validateUtf8_iff (data : List UInt8) : validateUtf8 data = true ↔ WellFormed data := by
  rw [validateUtf8_eq, Text.validateUtf8_eq, wellFormed_iff]

/-! ### What the second pass writes -/

def output (x : Step) : List UInt8 := if x.valid then x.bytes else replacement

theorem replacePass_eq (data : List UInt8) : replacePass data = (scan data).flatMap output := by
  induction data using bytes_induction with
  | nil => simp [replacePass]
  | ascii b rest h ih => simp [replacePass, branch_ascii rest h, scan_ascii rest h, output, ih]
  | sequence b s v h ih =>
    rw [← List.cons_append, scan_sequence v h, List.flatMap_cons, output, valid_sequenceStep,
      bytes_sequenceStep, List.cons_append, replacePass, branch_sequence v h, List.length_cons]
    cases isInvalid (decodeCodepoint (b :: s) (s.length + 1)) (s.length + 1) <;> simp [ih]
  | stray b rest hascii hnone ih =>
    simp [replacePass, branch_stray hascii hnone, scan_stray hascii hnone, output, strayStep, ih]

theorem character_replacement : Character replacement := by
  rw [replacement, character_three]
  decide

theorem wellFormed_replacePass (data : List UInt8) : WellFormed (replacePass data) := by
  rw [replacePass_eq]
  induction data using bytes_induction with
  | nil => simpa using WellFormed.nil
  | ascii b rest h ih =>
    rw [scan_ascii rest h, List.flatMap_cons]
    exact .cons (character_ascii h) ih
  | sequence b s v h ih =>
    rw [← List.cons_append, scan_sequence v h, List.flatMap_cons, output, valid_sequenceStep,
      bytes_sequenceStep]
    split
    · rename_i hvalid
      rw [Bool.not_eq_true'] at hvalid
      exact .cons ((character_iff_of_isSequence h).2 hvalid) ih
    · exact .cons character_replacement ih
  | stray b rest hascii hnone ih =>
    rw [scan_stray hascii hnone, List.flatMap_cons]
    exact .cons character_replacement ih

theorem flatMap_bytes_scan (data : List UInt8) : (scan data).flatMap Step.bytes = data := by
  induction data using bytes_induction with
  | nil => simp
  | ascii b rest h ih => simp [scan_ascii rest h, ih]
  | sequence b s v h ih =>
    rw [← List.cons_append, scan_sequence v h, List.flatMap_cons, bytes_sequenceStep, ih]
  | stray b rest hascii hnone ih => simp [scan_stray hascii hnone, strayStep, ih]

theorem replacePass_of_wellFormed (h : WellFormed data) : replacePass data = data := by
  have hvalid := List.all_eq_true.1 ((wellFormed_iff data).1 h)
  have houtput : (scan data).flatMap output = (scan data).flatMap Step.bytes := by
    apply List.flatMap_congr
    intro x hx
    rw [output, if_pos (hvalid x hx)]
  rw [replacePass_eq, houtput, flatMap_bytes_scan]

/-! ### Stretches -/

theorem Character.head (h : Character (b :: c)) : isContinuation b = false := by
  rw [← Bool.not_eq_true]
  intro hcont
  obtain ⟨hascii, hlead⟩ := continuation_begins_nothing hcont
  rcases character_cases h with ⟨a, hc, ha⟩ | hseq
  · cases hc
    exact hascii ha
  · rw [(isSequence_cons hseq).1] at hlead
    cases hlead

variable {s : List UInt8}

theorem not_cuts_of_wellFormed (u v : List UInt8) (h : WellFormed s) (hne : s ≠ []) :
    ¬ Cuts u (s ++ v) := by
  rintro ⟨-, s₁, s₂, w, -, hs, hs₁, hs₂, hseq⟩
  obtain ⟨a, s₁, rfl⟩ := List.exists_cons_of_ne_nil hs₁
  obtain ⟨b, s₂, rfl⟩ := List.exists_cons_of_ne_nil hs₂
  have hcont : isContinuation b = true := by
    have hall : validateContinuation (s₁ ++ b :: s₂) = true := (isSequence_cons hseq).2
    exact List.all_eq_true.1 hall b (by simp)
  cases h with
  | nil => exact hne rfl
  | @cons c rest hc _ =>
    cases c with
    | nil => simp [Character, ranges] at hc
    | cons d c =>
      simp only [List.cons_append, List.cons.injEq] at hs
      rw [← hs.1, hc.head] at hcont
      cases hcont

theorem replacePass_stretch (u v : List UInt8) (h : WellFormed s) (hne : s ≠ []) :
    replacePass (u ++ (s ++ v)) = replacePass u ++ (s ++ replacePass v) := by
  have hcut : scan (u ++ (s ++ v)) = scan u ++ scan (s ++ v) :=
    ((scan_append u (s ++ v)).resolve_right fun hcuts =>
      not_cuts_of_wellFormed u v h hne hcuts.1).2
  have hrest := scan_append_of_valid v ((wellFormed_iff s).1 h)
  rw [replacePass_eq, hcut, hrest, List.flatMap_append, List.flatMap_append, ← replacePass_eq,
    ← replacePass_eq, ← replacePass_eq, replacePass_of_wellFormed h]

/-- A string in parts: each a gap and a stretch, and what is behind the last stretch. -/
def join (parts : List (List UInt8 × List UInt8)) (last : List UInt8) : List UInt8 :=
  parts.foldr (fun part rest => part.1 ++ (part.2 ++ rest)) last

def repaired (data : List UInt8) : List UInt8 :=
  match replaceInvalidUtf8 data with
  | .bytes buf => buf
  | _ => data

/-- However `data` is cut at well-formed stretches, `out` has these stretches in the same order,
and in place of a gap what the gap alone is replaced by. -/
def KeepsStretches (data out : List UInt8) : Prop :=
  ∀ parts last, (∀ part ∈ parts, WellFormed part.2 ∧ part.2 ≠ []) → data = join parts last →
    out = join (parts.map fun part => (repaired part.1, part.2)) (repaired last)

theorem replaceInvalidUtf8_null_iff (data : List UInt8) :
    replaceInvalidUtf8 data = .null ↔ WellFormed data := by
  rw [replaceInvalidUtf8_eq, needsReplace_eq, ← validateUtf8_eq, ← validateUtf8_iff]
  cases validateUtf8 data <;> simp

theorem replaceInvalidUtf8_of_not (h : ¬ WellFormed data) :
    replaceInvalidUtf8 data = .bytes (replacePass data) := by
  rw [← replaceInvalidUtf8_null_iff, replaceInvalidUtf8_eq] at h
  rw [replaceInvalidUtf8_eq]
  split at h
  · rename_i hneeds
    rw [if_pos hneeds]
  · exact absurd rfl h

theorem repaired_eq (data : List UInt8) : repaired data = replacePass data := by
  by_cases h : WellFormed data
  · rw [repaired, (replaceInvalidUtf8_null_iff data).2 h, replacePass_of_wellFormed h]
  · rw [repaired, replaceInvalidUtf8_of_not h]

theorem replacePass_keeps (data : List UInt8) : KeepsStretches data (replacePass data) := by
  intro parts last hparts hdata
  subst hdata
  induction parts with
  | nil => exact (repaired_eq last).symm
  | cons part parts ih =>
    have hpart := hparts part (List.mem_cons_self ..)
    show replacePass (part.1 ++ (part.2 ++ join parts last)) = repaired part.1 ++ (part.2 ++ _)
    rw [replacePass_stretch part.1 _ hpart.1 hpart.2, repaired_eq,
      ih fun other hother => hparts other (List.mem_cons_of_mem _ hother)]
    rfl

theorem length_replacePass (data : List UInt8) : (replacePass data).length ≤ 3 * data.length := by
  induction data using replacePass.induct with
  | case1 => simp [replacePass]
  | case2 b rest hbranch ih =>
    simp [replacePass, hbranch]
    omega
  | case3 b rest hbranch ih =>
    simp [replacePass, hbranch, replacement]
    omega
  | case4 b rest sl hbranch ih =>
    simp [replacePass, hbranch, replacement] at ih ⊢
    omega
  | case5 b rest sl hbranch ih =>
    simp [replacePass, hbranch] at ih ⊢
    omega

/-- **Validation and replacement.**  The validator accepts the well-formed strings; on any other
string the two passes, which classify every byte alike, stay in the buffer and give a well-formed
string with the same well-formed stretches, which is not replaced again. -/
theorem utf8_replacement (data : List UInt8) :
    (validateUtf8 data = true ↔ WellFormed data) ∧
      (replaceInvalidUtf8 data = .null ↔ WellFormed data) ∧
      (¬ WellFormed data → ∃ buf, replaceInvalidUtf8 data = .bytes buf ∧ WellFormed buf ∧
        buf.length ≤ data.length * 3 ∧ KeepsStretches data buf ∧ replaceInvalidUtf8 buf = .null) ∧
      ∀ i, (rewriteAt data i).2 = (detectAt data i).2 ∧
        ((rewriteAt data i).1 = .replacement ↔ (detectAt data i).1 = true) := by
  refine ⟨validateUtf8_iff data, replaceInvalidUtf8_null_iff data, fun h => ?_,
    rewriteAt_eq_detectAt data⟩
  have hbuf := wellFormed_replacePass data
  have hlength := length_replacePass data
  exact ⟨replacePass data, replaceInvalidUtf8_of_not h, hbuf, by omega, replacePass_keeps data,
    (replaceInvalidUtf8_null_iff _).2 hbuf⟩

end QuickBeam.Text.Utf8Replacement
