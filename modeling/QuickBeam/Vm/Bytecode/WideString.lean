import QuickBeam.Vm.Runtime.Utf16

/-!
# Wide strings of the bytecode (`bytecode/decoder.ex`)

A wide string is written as its UTF-16 code units, two bytes each, the low one first.  The decoder
turns it into a binary by way of code points, on its own and not through `runtime/string/utf16.ex`.
Both give the same binary for every string (`wideToUtf8_eq`).
-/

namespace QuickBeam.Vm.Bytecode.WideString

open QuickBeam.Lib.BitGroups QuickBeam.Vm.Program QuickBeam.Vm.Runtime QuickBeam.Vm.Runtime.Utf16

/-! ### The decoder -/

def littleUnit (low high : UInt8) : ℕ := low.toNat + high.toNat * 256

/-- `decode_utf16_le/2`; no clause takes a single byte. -/
def decodeUtf16Le : Binary → Option (List ℕ)
  | b0 :: b1 :: b2 :: b3 :: rest =>
      if isHigh (littleUnit b0 b1) && isLow (littleUnit b2 b3) then
        (decodeUtf16Le rest).map
          (((littleUnit b0 b1 - 0xD800) * 0x400 + (littleUnit b2 b3 - 0xDC00) + 0x10000) :: ·)
      else (decodeUtf16Le (b2 :: b3 :: rest)).map (littleUnit b0 b1 :: ·)
  | b0 :: b1 :: rest => (decodeUtf16Le rest).map (littleUnit b0 b1 :: ·)
  | [_] => none
  | [] => some []

def utf8 (cp : ℕ) : Binary := String.utf8EncodeChar (Char.ofNat cp)

/-- `codepoints_to_binary/1`: a lone surrogate in three bytes, which UTF-8 has no place for. -/
def codepointsToBinary (codepoints : List ℕ) : Binary :=
  codepoints.flatMap fun cp =>
    if 0xD800 ≤ cp ∧ cp ≤ 0xDFFF then
      [.ofNat (0xE0 ||| cp >>> 12), .ofNat (0x80 ||| (cp >>> 6 &&& 0x3F)),
        .ofNat (0x80 ||| (cp &&& 0x3F))]
    else utf8 cp

def wideToUtf8 (data : Binary) : Option Binary := (decodeUtf16Le data).map codepointsToBinary

/-- The 16-bit units of a byte string, the low byte of each first. -/
def littleUnits : Binary → List UInt16
  | low :: high :: rest => .ofNat (littleUnit low high) :: littleUnits rest
  | _ => []

/-! ### One code point -/

variable {n : ℕ}

theorem toNat_charOfNat (h : n.isValidChar) : (Char.ofNat n).val.toNat = n := by
  rw [Char.ofNat, dif_pos h]
  rfl

theorem continuation_eq (n : ℕ) : 0x80 ||| (n &&& 0x3F) = n % 64 + 128 := by
  have hor : 0x80 ||| n % 64 = 128 + n % 64 := or_high 6 (n % 64) (Nat.mod_lt _ (by decide)) 2
  rw [and_0x3F, hor, Nat.add_comm]

theorem lead2_eq (h : n < 0x800) : 0xC0 ||| n >>> 6 = n / 64 % 32 + 192 := by
  have hor : 0xC0 ||| n / 2 ^ 6 = 192 + n / 64 := or_high 6 (n / 64) (by omega) 3
  rw [Nat.shiftRight_eq_div_pow, hor]
  omega

theorem lead3_eq (h : n < 0x10000) : 0xE0 ||| n >>> 12 = n / 4096 % 16 + 224 := by
  have hor : 0xE0 ||| n / 2 ^ 12 = 224 + n / 4096 := or_high 5 (n / 4096) (by omega) 7
  rw [Nat.shiftRight_eq_div_pow, hor]
  omega

theorem lead4_eq (h : n < 0x110000) : 0xF0 ||| n >>> 18 = n / 262144 % 8 + 240 := by
  have hor : 0xF0 ||| n / 2 ^ 18 = 240 + n / 262144 := or_high 4 (n / 262144) (by omega) 15
  rw [Nat.shiftRight_eq_div_pow, hor]
  omega

theorem utf8_unit (hn : n < 0x10000) (hs : ¬(0xD800 ≤ n ∧ n ≤ 0xDFFF)) : utf8 n = encodeUnit n := by
  have hvalid : n.isValidChar := by
    unfold Nat.isValidChar
    omega
  unfold utf8 String.utf8EncodeChar encodeUnit
  simp only [toNat_charOfNat hvalid]
  by_cases h1 : n < 0x80
  · rw [if_pos (by omega), if_pos h1]
  · rw [if_neg (by omega), if_neg h1]
    by_cases h2 : n < 0x800
    · rw [if_pos (by omega), if_pos h2, continuation_eq, lead2_eq h2]
    · rw [if_neg (by omega), if_neg h2, if_pos (by omega), continuation_eq, continuation_eq,
        lead3_eq hn, Nat.shiftRight_eq_div_pow]

theorem utf8_scalar (hlow : 0x10000 ≤ n) (hhigh : n < 0x110000) : utf8 n = encodeScalar n := by
  have hvalid : n.isValidChar := by
    unfold Nat.isValidChar
    omega
  unfold utf8 String.utf8EncodeChar encodeScalar
  simp only [toNat_charOfNat hvalid]
  rw [if_neg (by omega), if_neg (by omega), if_neg (by omega), continuation_eq, continuation_eq,
    continuation_eq, lead4_eq hhigh, Nat.shiftRight_eq_div_pow, Nat.shiftRight_eq_div_pow]

theorem codepointsToBinary_unit {unit : ℕ} (hunit : unit < 0x10000) (rest : List ℕ) :
    codepointsToBinary (unit :: rest) = encodeUnit unit ++ codepointsToBinary rest := by
  show (if 0xD800 ≤ unit ∧ unit ≤ 0xDFFF then _ else utf8 unit) ++ codepointsToBinary rest = _
  by_cases hs : 0xD800 ≤ unit ∧ unit ≤ 0xDFFF
  · rw [if_pos hs]
    unfold encodeUnit
    rw [if_neg (by omega), if_neg (by omega)]
  · rw [if_neg hs, utf8_unit hunit hs]

theorem codepointsToBinary_pair {high low : ℕ} (hh : isHigh high = true) (hl : isLow low = true)
    (rest : List ℕ) :
    codepointsToBinary (((high - 0xD800) * 0x400 + (low - 0xDC00) + 0x10000) :: rest) =
      encodeScalar (codepoint high low) ++ codepointsToBinary rest := by
  simp only [isHigh, isLow, Bool.and_eq_true, decide_eq_true_eq] at hh hl
  have hcode : codepoint high low = (high - 0xD800) * 0x400 + (low - 0xDC00) + 0x10000 := by
    unfold codepoint
    rw [Nat.shiftLeft_eq]
    omega
  rw [← hcode]
  show (if 0xD800 ≤ codepoint high low ∧ codepoint high low ≤ 0xDFFF then _
    else utf8 (codepoint high low)) ++ codepointsToBinary rest = _
  rw [if_neg (by omega), utf8_scalar (by omega) (by omega)]

/-! ### Whole strings -/

theorem littleUnit_lt (low high : UInt8) : littleUnit low high < 0x10000 := by
  have hlow := low.toNat_lt
  have hhigh := high.toNat_lt
  unfold littleUnit
  omega

theorem toNat_littleUnit (low high : UInt8) :
    (UInt16.ofNat (littleUnit low high)).toNat = littleUnit low high := by
  rw [UInt16.toNat_ofNat']
  exact Nat.mod_eq_of_lt (littleUnit_lt low high)

/-- **The decoder writes a wide string as the runtime writes its code units.** -/
theorem wideToUtf8_eq (data : Binary) (heven : data.length % 2 = 0) :
    wideToUtf8 data = some (fromUnits ((littleUnits data).map UInt16.toNat)) := by
  unfold wideToUtf8 fromUnits
  induction data using decodeUtf16Le.induct with
  | case1 b0 b1 b2 b3 rest hpair ih =>
    obtain ⟨codepoints, hdecode, hrest⟩ := Option.map_eq_some_iff.1 (ih (by
      simp only [List.length_cons] at heven
      omega))
    obtain ⟨hh, hl⟩ := Bool.and_eq_true_iff.1 hpair
    rw [decodeUtf16Le, if_pos hpair, hdecode]
    simp only [littleUnits, List.map_cons, toNat_littleUnit, Option.map_some, encodeUnits, hpair,
      if_true, codepointsToBinary_pair hh hl, hrest]
  | case2 b0 b1 b2 b3 rest hpair ih =>
    obtain ⟨codepoints, hdecode, hrest⟩ := Option.map_eq_some_iff.1 (ih (by
      simp only [List.length_cons] at heven ⊢
      omega))
    rw [decodeUtf16Le, if_neg hpair, hdecode]
    simp only [littleUnits, List.map_cons, toNat_littleUnit, Option.map_some, encodeUnits, hpair,
      codepointsToBinary_unit (littleUnit_lt b0 b1), hrest]
    rfl
  | case3 b0 b1 rest hshort ih =>
    cases rest with
    | nil =>
      have hunit := codepointsToBinary_unit (littleUnit_lt b0 b1) []
      simp only [decodeUtf16Le, Option.map_some, littleUnits, List.map_cons, List.map_nil,
        toNat_littleUnit, encodeUnits, hunit]
      exact congrArg some (List.append_nil _)
    | cons b2 rest =>
      cases rest with
      | nil => exact absurd heven (by simp)
      | cons b3 rest => exact absurd rfl (hshort b2 b3 rest)
  | case4 b => cases heven
  | case5 => rfl

/-! ### Reading code units back -/

theorem units_fromUnits (us : List UInt16) :
    units (fromUnits (us.map UInt16.toNat)) = us.map UInt16.toNat := by
  rw [Piece.fromUnits_eq]
  show decode (Piece.allBytes (Piece.join us)) = _
  rw [Piece.decode_allBytes, Piece.allUnits_join]

/-- The operations on the string of `us` do what they do on the list. -/
structure RoundTrips (us : List UInt16) : Prop where
  reads : units (fromUnits (us.map UInt16.toNat)) = us.map UInt16.toNat
  count : length (fromUnits (us.map UInt16.toNat)) = us.length
  sublist : ∀ start length, slice (fromUnits (us.map UInt16.toNat)) start length =
    fromUnits (((us.drop start).take length).map UInt16.toNat)
  unitAt : ∀ index : ℕ, at' (fromUnits (us.map UInt16.toNat)) index =
    us[index]?.map fun u => fromUnits [u.toNat]
  codeAt : ∀ index : ℕ, charCodeAt (fromUnits (us.map UInt16.toNat)) index =
    us[index]?.map UInt16.toNat
  below : ∀ index : ℤ, index < 0 → at' (fromUnits (us.map UInt16.toNat)) index = none ∧
    charCodeAt (fromUnits (us.map UInt16.toNat)) index = none

theorem roundTrips (us : List UInt16) : RoundTrips us := by
  have hunits := units_fromUnits us
  constructor
  · exact hunits
  · show (Utf16.units (fromUnits (us.map UInt16.toNat))).length = _
    rw [hunits, List.length_map]
  · intro start length
    show encodeUnits (((Utf16.units _).drop start).take length) = _
    rw [hunits, ← List.map_drop, ← List.map_take]
    rfl
  · intro index
    show (if (index : ℤ) < 0 then none else (Utf16.units _)[index]?.map encodeUnit) = _
    rw [if_neg (by omega), hunits, List.getElem?_map, Option.map_map]
    rfl
  · intro index
    show (if (index : ℤ) < 0 then none else (Utf16.units _)[index]?) = _
    rw [if_neg (by omega), hunits, List.getElem?_map]
  · intro index hneg
    exact ⟨if_pos hneg, if_pos hneg⟩

/-- **Code units survive the way into a string, and both encoders write the same string.** -/
theorem utf16_roundTrip : (∀ us : List UInt16, RoundTrips us) ∧
    ∀ data : Binary, data.length % 2 = 0 →
      wideToUtf8 data = some (fromUnits ((littleUnits data).map UInt16.toNat)) :=
  ⟨roundTrips, wideToUtf8_eq⟩

/-- A pair, a lone high unit and a letter. -/
example : wideToUtf8 [0x3D, 0xD8, 0x00, 0xDE, 0x3D, 0xD8, 0x61, 0x00] =
    some [0xF0, 0x9F, 0x98, 0x80, 0xED, 0xA0, 0xBD, 0x61] := by decide

end QuickBeam.Vm.Bytecode.WideString
