import QuickBeam.Lib.Leb128

/-!
# Bounded integers of the bytecode (`bytecode/varint.ex`)

An integer is LEB128 in at most five bytes and below `2 ^ 32`; a signed one is folded into an
unsigned one, with the sign in the lowest bit.  The unbounded decoder is a package, which enters
as a parameter.  `readUnsigned_eq_ok` says what is read, and the reader of QuickJS reads the same
there (`getLeb128_unsigned`).
-/

namespace QuickBeam.Vm.Bytecode.Varint

open QuickBeam.Lib.Leb128

/-- The package `Varint.LEB128`: it decodes a number at the front of a binary, and raises (here
`none`) where there is no end. -/
structure Leb128 where
  decode : List UInt8 → Option (ℕ × List UInt8)
  decode_append : ∀ {bs : List UInt8} {n : ℕ} (rest : List UInt8), Unsigned bs n →
    decode (bs ++ rest) = some (n, rest)

/-- Groups of seven bits up to the first byte without the high bit. -/
def decodeGroups : List UInt8 → Option (ℕ × List UInt8)
  | [] => none
  | byte :: rest =>
      if byte.toNat < 128 then some (byte.toNat, rest)
      else (decodeGroups rest).map fun (n, rest) => (byte.toNat - 128 + 128 * n, rest)

variable {bs : List UInt8} {n : ℕ}

theorem decodeGroups_append (rest : List UInt8) (h : Unsigned bs n) :
    decodeGroups (bs ++ rest) = some (n, rest) := by
  induction h with
  | last b hb => exact if_pos hb
  | more b hb _ ih =>
    rw [List.cons_append, decodeGroups, if_neg (by omega), ih]
    rfl

def groups : Leb128 := ⟨decodeGroups, decodeGroups_append⟩

inductive VarintError where
  | badLeb128 | badSleb128 | integerOverflow
deriving DecidableEq

def maxEncodedBytes : ℕ := 5

def maxU32 : ℕ := 0xFFFFFFFF

def minI32 : ℤ := -0x80000000

def maxI32 : ℤ := 0x7FFFFFFF

def terminatedWithinLimit : List UInt8 → ℕ → Bool
  | _, 0 => false
  | [], _ => false
  | byte :: rest, remaining + 1 =>
      if byte.toNat < 0x80 then true else terminatedWithinLimit rest remaining

def readUnsigned (leb : Leb128) (bs : List UInt8) : Except VarintError (ℕ × List UInt8) :=
  if terminatedWithinLimit bs maxEncodedBytes then
    match leb.decode bs with
    | some (value, rest) => if value ≤ maxU32 then .ok (value, rest) else .error .integerOverflow
    | none => .error .badLeb128
  else .error .badLeb128

/-- `bxor(bsr(encoded, 1), -band(encoded, 1))`. -/
def unzigzag (encoded : ℕ) : ℤ :=
  if encoded % 2 = 0 then (encoded / 2 : ℕ) else -(encoded / 2 : ℕ) - 1

def readSigned (leb : Leb128) (bs : List UInt8) : Except VarintError (ℤ × List UInt8) :=
  if terminatedWithinLimit bs maxEncodedBytes then
    match leb.decode bs with
    | some (encoded, rest) =>
        if encoded ≤ maxU32 then
          if minI32 ≤ unzigzag encoded ∧ unzigzag encoded ≤ maxI32 then .ok (unzigzag encoded, rest)
          else .error .integerOverflow
        else .error .integerOverflow
    | none => .error .badSleb128
  else .error .badSleb128

/-! ### What is read -/

theorem exists_unsigned {limit : ℕ} (h : terminatedWithinLimit bs limit = true) :
    ∃ front rest n, bs = front ++ rest ∧ Unsigned front n ∧ front.length ≤ limit := by
  induction limit generalizing bs with
  | zero => simp [terminatedWithinLimit] at h
  | succ limit ih =>
    match bs with
    | [] => simp [terminatedWithinLimit] at h
    | byte :: bs =>
      by_cases hlast : byte.toNat < 0x80
      · exact ⟨[byte], bs, _, rfl, .last byte hlast, by simp⟩
      · have htail : terminatedWithinLimit bs limit = true := by
          simpa [terminatedWithinLimit, hlast] using h
        obtain ⟨front, rest, n, rfl, hn, hlen⟩ := ih htail
        exact ⟨byte :: front, rest, _, rfl, .more byte (by omega) hn, by simpa using hlen⟩

variable {leb : Leb128}

theorem readUnsigned_eq_ok {bs rest : List UInt8} {value : ℕ}
    (h : readUnsigned leb bs = .ok (value, rest)) :
    ∃ front, bs = front ++ rest ∧ U32 front value := by
  unfold readUnsigned at h
  split at h
  case isFalse => cases h
  case isTrue hend =>
    obtain ⟨front, behind, n, rfl, hn, hlen⟩ := exists_unsigned hend
    simp only [leb.decode_append behind hn] at h
    split at h
    case isFalse => cases h
    case isTrue hle =>
      cases h
      exact ⟨front, rfl, hn, hlen, Nat.lt_succ_of_le hle⟩

variable {value : ℤ}

theorem readSigned_eq_ok {bs rest : List UInt8} (h : readSigned leb bs = .ok (value, rest)) :
    ∃ front encoded, bs = front ++ rest ∧ U32 front encoded ∧ value = unzigzag encoded := by
  unfold readSigned at h
  split at h
  case isFalse => cases h
  case isTrue hend =>
    obtain ⟨front, behind, n, rfl, hn, hlen⟩ := exists_unsigned hend
    simp only [leb.decode_append behind hn] at h
    split at h
    case isFalse => cases h
    case isTrue hle =>
      split at h
      case isFalse => cases h
      case isTrue =>
        cases h
        exact ⟨front, n, rfl, ⟨hn, hlen, Nat.lt_succ_of_le hle⟩, rfl⟩

/-! ### The readers of QuickJS -/

/-- The loop of `get_leb128`: `remaining` bytes may follow, and `v` has the bits below `shift`. -/
def getLeb128From : ℕ → ℕ → ℕ → List UInt8 → Option (ℕ × List UInt8)
  | 0, _, _, _ => none
  | _, _, _, [] => none
  | remaining + 1, shift, v, a :: rest =>
      let v' := (v ||| (a.toNat % 0x80) <<< shift) % 2 ^ 32
      if a.toNat < 0x80 then some (v', rest) else getLeb128From remaining (shift + 7) v' rest

def getLeb128 (bs : List UInt8) : Option (ℕ × List UInt8) := getLeb128From 5 0 0 bs

/-- An `int` with these 32 bits. -/
def wrap32 (value : ℤ) : ℤ := value.bmod (2 ^ 32)

/-- `get_sleb128`, with `(val >> 1) ^ -(val & 1)` in 32 bits. -/
def getSleb128 (bs : List UInt8) : Option (ℤ × List UInt8) :=
  (getLeb128 bs).map fun (val, rest) =>
    (wrap32 ((val / 2) ^^^ ((2 ^ 32 - val % 2) % 2 ^ 32) : ℕ), rest)

theorem wrap32_of_range (hlo : -2 ^ 31 ≤ value) (hhi : value < 2 ^ 31) : wrap32 value = value := by
  unfold wrap32
  rw [Int.bmod_eq_of_le] <;> omega

theorem or_group {v shift x : ℕ} (hv : v < 2 ^ shift) (hx : v + 2 ^ shift * x < 2 ^ 32) :
    (v ||| x <<< shift) % 2 ^ 32 = v + 2 ^ shift * x := by
  rw [Nat.or_comm, ← Nat.shiftLeft_add_eq_or_of_lt hv, Nat.shiftLeft_eq, Nat.mul_comm, Nat.add_comm]
  exact Nat.mod_eq_of_lt hx

theorem getLeb128From_unsigned {bs : List UInt8} {n : ℕ} (h : Unsigned bs n)
    (rest : List UInt8) : ∀ {remaining shift v : ℕ}, bs.length ≤ remaining → v < 2 ^ shift →
      v + 2 ^ shift * n < 2 ^ 32 →
      getLeb128From remaining shift v (bs ++ rest) = some (v + 2 ^ shift * n, rest) := by
  induction h with
  | last b hb =>
    intro remaining shift v hlen hv hn
    obtain ⟨k, rfl⟩ : ∃ k, remaining = k + 1 := Nat.exists_eq_add_of_le' hlen
    show getLeb128From (k + 1) shift v (b :: rest) = _
    simp only [getLeb128From]
    rw [if_pos hb, Nat.mod_eq_of_lt hb, or_group hv hn]
  | @more b bs n hb htail ih =>
    intro remaining shift v hlen hv hn
    have hbyte := b.toNat_lt
    have hgroup : b.toNat % 0x80 = b.toNat - 128 := by omega
    have hsplit : v + 2 ^ shift * (b.toNat - 128 + 128 * n) =
        v + 2 ^ shift * (b.toNat - 128) + 2 ^ (shift + 7) * n := by
      rw [Nat.pow_add, Nat.mul_add, ← Nat.mul_assoc, Nat.add_assoc]
    have hlow : v + 2 ^ shift * (b.toNat - 128) < 2 ^ (shift + 7) := by
      calc v + 2 ^ shift * (b.toNat - 128)
        _ < 2 ^ shift + 2 ^ shift * (b.toNat - 128) := Nat.add_lt_add_right hv _
        _ = 2 ^ shift * (b.toNat - 128 + 1) := by rw [Nat.mul_succ, Nat.add_comm]
        _ ≤ 2 ^ shift * 2 ^ 7 := Nat.mul_le_mul_left _ (by omega)
        _ = 2 ^ (shift + 7) := (Nat.pow_add _ _ _).symm
    rw [hsplit] at hn
    obtain ⟨k, rfl⟩ : ∃ k, remaining = k + 1 := Nat.exists_eq_add_of_le' (Nat.le_of_lt_succ
      (Nat.lt_succ_of_le (Nat.le_trans (Nat.succ_le_succ (Nat.zero_le _)) hlen)))
    show getLeb128From (k + 1) shift v (b :: (bs ++ rest)) = _
    simp only [getLeb128From]
    rw [if_neg (by omega), hgroup, or_group hv (by omega), ih (by simpa using hlen) hlow hn, hsplit]

variable {front : List UInt8}

/-- **QuickJS reads the same number.** -/
theorem getLeb128_u32 (h : U32 front n) (rest : List UInt8) :
    getLeb128 (front ++ rest) = some (n, rest) := by
  have hread := @getLeb128From_unsigned front n h.unsigned rest 5 0 0 h.length (by simp)
    (by simpa using h.lt)
  simpa [getLeb128] using hread

theorem xor_ones {x : ℕ} (h : x < 2 ^ 32) : x ^^^ (2 ^ 32 - 1) = 2 ^ 32 - (x + 1) := by
  apply Nat.eq_of_testBit_eq
  intro i
  rw [Nat.testBit_xor, Nat.testBit_two_pow_sub_one, Nat.testBit_two_pow_sub_succ h]
  by_cases hi : i < 32
  · simp [hi]
  · have hlow : x < 2 ^ i := Nat.lt_of_lt_of_le h (Nat.pow_le_pow_right (by decide) (by omega))
    simp [hi, Nat.testBit_lt_two_pow hlow]

theorem getSleb128_u32 (h : U32 front n) (rest : List UInt8) :
    getSleb128 (front ++ rest) = some (unzigzag n, rest) := by
  have hn := h.lt
  unfold getSleb128
  rw [getLeb128_u32 h rest]
  simp only [Option.map_some, unzigzag]
  by_cases heven : n % 2 = 0
  · have hmask : (2 ^ 32 - n % 2) % 2 ^ 32 = 0 := by omega
    rw [if_pos heven, hmask, Nat.xor_zero, wrap32_of_range (by omega) (by omega)]
  · have hmask : (2 ^ 32 - n % 2) % 2 ^ 32 = 2 ^ 32 - 1 := by omega
    rw [if_neg heven, hmask, xor_ones (by omega), wrap32, Int.bmod_def]
    split <;> congr 2 <;> omega

/-! ### Encodings are read back, and nothing else is read -/

/-- The fold of a signed number: `2 n`, and `-2 n - 1` below zero. -/
def zigzag (value : ℤ) : ℕ := if 0 ≤ value then (2 * value).toNat else (-2 * value - 1).toNat

theorem unzigzag_zigzag (value : ℤ) : unzigzag (zigzag value) = value := by
  unfold unzigzag zigzag
  split <;> split <;> omega

theorem zigzag_lt (hlo : -2 ^ 31 ≤ value) (hhi : value < 2 ^ 31) : zigzag value < 2 ^ 32 := by
  unfold zigzag
  split <;> omega

theorem unzigzag_bounds {encoded : ℕ} (h : encoded ≤ maxU32) :
    minI32 ≤ unzigzag encoded ∧ unzigzag encoded ≤ maxI32 := by
  unfold maxU32 at h
  unfold unzigzag minI32 maxI32
  split <;> omega

theorem terminatedWithinLimit_unsigned (h : Unsigned front n) (rest : List UInt8) (limit : ℕ) :
    terminatedWithinLimit (front ++ rest) limit = decide (front.length ≤ limit) := by
  induction h generalizing limit with
  | last b hb =>
    cases limit with
    | zero => rfl
    | succ limit => simp [terminatedWithinLimit, hb]
  | more b hb _ ih =>
    cases limit with
    | zero => rfl
    | succ limit =>
      rw [List.cons_append, terminatedWithinLimit, if_neg (by omega), ih]
      simp

theorem terminatedWithinLimit_truncated (h : ∀ b ∈ bs, 128 ≤ b.toNat) (limit : ℕ) :
    terminatedWithinLimit bs limit = false := by
  induction bs generalizing limit with
  | nil => cases limit <;> rfl
  | cons b bs ih =>
    have hb := h b List.mem_cons_self
    cases limit with
    | zero => rfl
    | succ limit =>
      rw [terminatedWithinLimit, if_neg (by omega), ih fun c hc => h c (List.mem_cons_of_mem b hc)]

theorem readUnsigned_unsigned (leb : Leb128) (h : Unsigned front n) (rest : List UInt8) :
    readUnsigned leb (front ++ rest) =
      if front.length ≤ 5 then if n < 2 ^ 32 then .ok (n, rest) else .error .integerOverflow
      else .error .badLeb128 := by
  unfold readUnsigned
  rw [terminatedWithinLimit_unsigned h, leb.decode_append rest h, show maxEncodedBytes = 5 from rfl]
  have hsize : n ≤ maxU32 ↔ n < 2 ^ 32 := Nat.le_iff_lt_add_one
  by_cases hlen : front.length ≤ 5
  · rw [if_pos (decide_eq_true hlen), if_pos hlen]
    simp only [hsize]
  · rw [if_neg fun h => hlen (of_decide_eq_true h), if_neg hlen]

theorem readSigned_unsigned (leb : Leb128) (h : Unsigned front n) (rest : List UInt8) :
    readSigned leb (front ++ rest) =
      if front.length ≤ 5 then if n < 2 ^ 32 then .ok (unzigzag n, rest) else .error .integerOverflow
      else .error .badSleb128 := by
  unfold readSigned
  rw [terminatedWithinLimit_unsigned h, leb.decode_append rest h, show maxEncodedBytes = 5 from rfl]
  by_cases hlen : front.length ≤ 5
  · rw [if_pos (decide_eq_true hlen), if_pos hlen]
    by_cases hlt : n < 2 ^ 32
    · have hle : n ≤ maxU32 := Nat.le_of_lt_succ hlt
      simp only
      rw [if_pos hle, if_pos (unzigzag_bounds hle), if_pos hlt]
    · simp only
      rw [if_neg fun hle : n ≤ maxU32 => hlt (Nat.lt_succ_of_le hle), if_neg hlt]
  · rw [if_neg fun h => hlen (of_decide_eq_true h), if_neg hlen]

/-- There is no end, or the number takes more than five bytes, or it is too large. -/
def Malformed (bs : List UInt8) : Prop :=
  (∀ b ∈ bs, 128 ≤ b.toNat) ∨
    ∃ front rest n, bs = front ++ rest ∧ Unsigned front n ∧ (5 < front.length ∨ 2 ^ 32 ≤ n)

theorem rejects_malformed (leb : Leb128) (h : Malformed bs) :
    (∃ e, readUnsigned leb bs = .error e) ∧ ∃ e, readSigned leb bs = .error e := by
  rcases h with hopen | ⟨front, rest, n, rfl, hn, hbad⟩
  · unfold readUnsigned readSigned
    rw [terminatedWithinLimit_truncated hopen]
    exact ⟨⟨_, rfl⟩, _, rfl⟩
  · rw [readUnsigned_unsigned leb hn, readSigned_unsigned leb hn]
    by_cases hlen : front.length ≤ 5
    · have hlarge : ¬n < 2 ^ 32 := by omega
      rw [if_pos hlen, if_pos hlen, if_neg hlarge, if_neg hlarge]
      exact ⟨⟨_, rfl⟩, _, rfl⟩
    · rw [if_neg hlen, if_neg hlen]
      exact ⟨⟨_, rfl⟩, _, rfl⟩

/-- Encodings are read back with what follows them, and malformed binaries are refused. -/
theorem reads_encodings (leb : Leb128) :
    (∀ v < 2 ^ 32, ∀ rest, readUnsigned leb (encode v ++ rest) = .ok (v, rest)) ∧
    (∀ n : ℤ, -2 ^ 31 ≤ n → n < 2 ^ 31 → ∀ rest,
      readSigned leb (encode (zigzag n) ++ rest) = .ok (n, rest)) ∧
    ∀ bs, Malformed bs → (∃ e, readUnsigned leb bs = .error e) ∧ ∃ e, readSigned leb bs = .error e := by
  refine ⟨fun v hv rest => ?_, fun n hlo hhi rest => ?_, fun bs => rejects_malformed leb⟩
  · have hu := encode_u32 hv
    rw [readUnsigned_unsigned leb hu.unsigned, if_pos hu.length, if_pos hv]
  · have hu := encode_u32 (zigzag_lt hlo hhi)
    rw [readSigned_unsigned leb hu.unsigned, if_pos hu.length, if_pos hu.lt, unzigzag_zigzag]

theorem reads_encodings_groups :
    readUnsigned groups (encode 0xFFFFFFFF ++ [7]) = .ok (0xFFFFFFFF, [7]) ∧
      readSigned groups (encode (zigzag (-2 ^ 31)) ++ [7]) = .ok (-2 ^ 31, [7]) ∧
      ∃ e, readUnsigned groups [0x80, 0x80, 0x80, 0x80, 0x10] = .error e :=
  ⟨(reads_encodings groups).1 _ (by decide) _, (reads_encodings groups).2.1 _ (by decide) (by decide) _,
    ((reads_encodings groups).2.2 _ (.inr ⟨[0x80, 0x80, 0x80, 0x80, 0x10], [], _, rfl,
      .more _ (by decide) (.more _ (by decide) (.more _ (by decide) (.more _ (by decide)
        (.last _ (by decide))))), .inr (by decide)⟩)).1⟩

end QuickBeam.Vm.Bytecode.Varint
