import QuickBeam.Lib.BitGroups
import QuickBeam.Vm.Runtime.Value

/-!
# JavaScript strings as binaries (`runtime/string/utf16.ex`)

A JavaScript string is a sequence of UTF-16 code units.  It is stored as a binary: a surrogate
pair in the four bytes of its code point, every other unit in one to three bytes.  A binary is
cut into pieces here, one for each such group of bytes; reading them back gives the code units
(`decode_bytes`), and no two sequences of pieces have the same bytes (`bytes_injective`).
-/

namespace QuickBeam.Vm.Runtime.Utf16

open QuickBeam.Lib.BitGroups QuickBeam.Vm.Program

/-! ### Encoding and decoding -/

def isHigh (unit : ℕ) : Bool := 0xD800 ≤ unit && unit ≤ 0xDBFF

def isLow (unit : ℕ) : Bool := 0xDC00 ≤ unit && unit ≤ 0xDFFF

def encodeUnit (unit : ℕ) : Binary :=
  if unit < 0x80 then [.ofNat unit]
  else if unit < 0x800 then [.ofNat (0xC0 ||| unit >>> 6), .ofNat (0x80 ||| (unit &&& 0x3F))]
  else
    [.ofNat (0xE0 ||| unit >>> 12), .ofNat (0x80 ||| (unit >>> 6 &&& 0x3F)),
      .ofNat (0x80 ||| (unit &&& 0x3F))]

def encodeScalar (codepoint : ℕ) : Binary :=
  [.ofNat (0xF0 ||| codepoint >>> 18), .ofNat (0x80 ||| (codepoint >>> 12 &&& 0x3F)),
    .ofNat (0x80 ||| (codepoint >>> 6 &&& 0x3F)), .ofNat (0x80 ||| (codepoint &&& 0x3F))]

/-- The code point of a surrogate pair. -/
def codepoint (high low : ℕ) : ℕ := 0x10000 + (high - 0xD800) <<< 10 + (low - 0xDC00)

def encodeUnits : List ℕ → Binary
  | high :: low :: rest =>
      if isHigh high && isLow low then encodeScalar (codepoint high low) ++ encodeUnits rest
      else encodeUnit high ++ encodeUnits (low :: rest)
  | [unit] => encodeUnit unit
  | [] => []

/-- The code units of four bytes. -/
def decodeScalar (codepoint : ℕ) : List ℕ :=
  [0xD800 + (codepoint - 0x10000) >>> 10, 0xDC00 + ((codepoint - 0x10000) &&& 0x3FF)]

/-- `decode/2`: by the range of the first byte; a byte out of place stands for itself. -/
def decode : Binary → List ℕ
  | [] => []
  | first :: rest =>
      if first.toNat < 0x80 then first.toNat :: decode rest
      else if 0xC2 ≤ first.toNat ∧ first.toNat ≤ 0xDF then
        match rest with
        | second :: rest' =>
            ((first.toNat &&& 0x1F) <<< 6 ||| (second.toNat &&& 0x3F)) :: decode rest'
        | rest' => first.toNat :: decode rest'
      else if 0xE0 ≤ first.toNat ∧ first.toNat ≤ 0xEF then
        match rest with
        | second :: third :: rest' =>
            ((first.toNat &&& 0x0F) <<< 12 ||| (second.toNat &&& 0x3F) <<< 6 |||
              (third.toNat &&& 0x3F)) :: decode rest'
        | rest' => first.toNat :: decode rest'
      else if 0xF0 ≤ first.toNat ∧ first.toNat ≤ 0xF4 then
        match rest with
        | second :: third :: fourth :: rest' =>
            decodeScalar ((first.toNat &&& 0x07) <<< 18 ||| (second.toNat &&& 0x3F) <<< 12 |||
              (third.toNat &&& 0x3F) <<< 6 ||| (fourth.toNat &&& 0x3F)) ++ decode rest'
        | rest' => first.toNat :: decode rest'
      else first.toNat :: decode rest

def units (value : Binary) : List ℕ := decode value

def length (value : Binary) : ℕ := (units value).length

/-- `UTF16.at/2`; `none` for `:undefined`. -/
def at' (value : Binary) (index : ℤ) : Option Binary :=
  if index < 0 then none else (units value)[index.toNat]?.map encodeUnit

/-- `UTF16.char_code_at/2`; `none` for `:nan`. -/
def charCodeAt (value : Binary) (index : ℤ) : Option ℕ :=
  if index < 0 then none else (units value)[index.toNat]?

def fromUnits (units : List ℕ) : Binary := encodeUnits units

def slice (value : Binary) (start length : ℕ) : Binary :=
  encodeUnits (((units value).drop start).take length)

/-! ### Bits -/

variable {n : ℕ}

theorem toNat_ofNat_of_lt (h : n < 256) : (UInt8.ofNat n).toNat = n := by
  rw [UInt8.toNat_ofNat']
  exact Nat.mod_eq_of_lt h

theorem toNat_continuation (n : ℕ) : (UInt8.ofNat (0x80 ||| (n &&& 0x3F))).toNat =
    128 + n % 64 := by
  have h : 0x80 ||| n % 64 = 128 + n % 64 := or_high 6 (n % 64) (Nat.mod_lt _ (by decide)) 2
  rw [and_0x3F, h, toNat_ofNat_of_lt (by omega)]

theorem toNat_lead2 (h : n < 0x800) : (UInt8.ofNat (0xC0 ||| n >>> 6)).toNat = 192 + n / 64 := by
  rw [Nat.shiftRight_eq_div_pow]
  have h' : 0xC0 ||| n / 2 ^ 6 = 192 + n / 64 := or_high 6 (n / 64) (by omega) 3
  rw [h', toNat_ofNat_of_lt (by omega)]

theorem toNat_lead3 (h : n < 0x10000) :
    (UInt8.ofNat (0xE0 ||| n >>> 12)).toNat = 224 + n / 4096 := by
  rw [Nat.shiftRight_eq_div_pow]
  have h' : 0xE0 ||| n / 2 ^ 12 = 224 + n / 4096 := or_high 5 (n / 4096) (by omega) 7
  rw [h', toNat_ofNat_of_lt (by omega)]

theorem toNat_lead4 (h : n < 0x110000) :
    (UInt8.ofNat (0xF0 ||| n >>> 18)).toNat = 240 + n / 262144 := by
  rw [Nat.shiftRight_eq_div_pow]
  have h' : 0xF0 ||| n / 2 ^ 18 = 240 + n / 262144 := or_high 4 (n / 262144) (by omega) 15
  rw [h', toNat_ofNat_of_lt (by omega)]

/-! ### Reading one group back -/

variable {first : UInt8}

theorem decode_ascii (h : first.toNat < 0x80) (rest : Binary) :
    decode (first :: rest) = first.toNat :: decode rest := by
  delta decode
  exact if_pos h

theorem decode_two (h : 0xC2 ≤ first.toNat ∧ first.toNat ≤ 0xDF) (second : UInt8) (rest : Binary) :
    decode (first :: second :: rest) =
      ((first.toNat &&& 0x1F) <<< 6 ||| (second.toNat &&& 0x3F)) :: decode rest := by
  have h₁ : ¬ first.toNat < 0x80 := by omega
  delta decode
  exact (if_neg h₁).trans (if_pos h)

theorem decode_three (h : 0xE0 ≤ first.toNat ∧ first.toNat ≤ 0xEF) (second third : UInt8)
    (rest : Binary) : decode (first :: second :: third :: rest) =
      ((first.toNat &&& 0x0F) <<< 12 ||| (second.toNat &&& 0x3F) <<< 6 |||
        (third.toNat &&& 0x3F)) :: decode rest := by
  have h₁ : ¬ first.toNat < 0x80 := by omega
  have h₂ : ¬ (0xC2 ≤ first.toNat ∧ first.toNat ≤ 0xDF) := by omega
  delta decode
  exact (if_neg h₁).trans ((if_neg h₂).trans (if_pos h))

theorem decode_four (h : 0xF0 ≤ first.toNat ∧ first.toNat ≤ 0xF4) (second third fourth : UInt8)
    (rest : Binary) : decode (first :: second :: third :: fourth :: rest) =
      decodeScalar ((first.toNat &&& 0x07) <<< 18 ||| (second.toNat &&& 0x3F) <<< 12 |||
        (third.toNat &&& 0x3F) <<< 6 ||| (fourth.toNat &&& 0x3F)) ++ decode rest := by
  have h₁ : ¬ first.toNat < 0x80 := by omega
  have h₂ : ¬ (0xC2 ≤ first.toNat ∧ first.toNat ≤ 0xDF) := by omega
  have h₃ : ¬ (0xE0 ≤ first.toNat ∧ first.toNat ≤ 0xEF) := by omega
  delta decode
  exact (if_neg h₁).trans ((if_neg h₂).trans ((if_neg h₃).trans (if_pos h)))

theorem decode_encodeUnit {unit : ℕ} (h : unit < 0x10000) (rest : Binary) :
    decode (encodeUnit unit ++ rest) = unit :: decode rest := by
  unfold encodeUnit
  split
  · rename_i h1
    have hunit := toNat_ofNat_of_lt (show unit < 256 by omega)
    rw [List.singleton_append, decode_ascii (by rw [hunit]; exact h1), hunit]
  · split
    · rename_i h1 h2
      rw [List.cons_append, List.singleton_append,
        decode_two (by rw [toNat_lead2 h2]; omega)]
      simp only [toNat_lead2 h2, toNat_continuation]
      rw [and_0x1F, and_0x3F, join2 (Nat.mod_lt _ (by decide))]
      congr 1
      omega
    · rename_i h1 h2
      rw [List.cons_append, List.cons_append, List.singleton_append,
        decode_three (by rw [toNat_lead3 h]; omega)]
      simp only [toNat_lead3 h, toNat_continuation]
      rw [and_0x0F, and_0x3F, and_0x3F,
        join3 (Nat.mod_lt _ (by decide)) (Nat.mod_lt _ (by decide)), Nat.shiftRight_eq_div_pow]
      congr 1
      omega

theorem decode_encodeScalar {high low : ℕ} (hh : isHigh high = true) (hl : isLow low = true)
    (rest : Binary) :
    decode (encodeScalar (codepoint high low) ++ rest) = high :: low :: decode rest := by
  simp only [isHigh, isLow, Bool.and_eq_true, decide_eq_true_eq] at hh hl
  have hcode : codepoint high low = 0x10000 + (high - 0xD800) * 1024 + (low - 0xDC00) := by
    unfold codepoint
    rw [Nat.shiftLeft_eq]
  generalize hc : codepoint high low = c at hcode ⊢
  unfold encodeScalar
  have hlead := toNat_lead4 (show c < 0x110000 by omega)
  rw [List.cons_append, List.cons_append, List.cons_append, List.singleton_append,
    decode_four (by rw [hlead]; omega)]
  simp only [hlead, toNat_continuation]
  rw [and_0x07, and_0x3F, and_0x3F, and_0x3F, join4 (Nat.mod_lt _ (by decide)) (Nat.mod_lt _ (by decide))
      (Nat.mod_lt _ (by decide))]
  have hscalar : (240 + c / 262144) % 8 * 262144 + (128 + c >>> 12 % 64) % 64 * 4096 +
      (128 + c >>> 6 % 64) % 64 * 64 + (128 + c % 64) % 64 = c := by
    rw [Nat.shiftRight_eq_div_pow, Nat.shiftRight_eq_div_pow]
    omega
  rw [hscalar]
  have hhigh : 0xD800 + (c - 0x10000) / 2 ^ 10 = high := by omega
  have hlow : 0xDC00 + (c - 0x10000) % 1024 = low := by omega
  unfold decodeScalar
  rw [and_0x3FF, Nat.shiftRight_eq_div_pow, hhigh, hlow]
  rfl

/-! ### Pieces -/

/-- A group of bytes in a string: a single code unit or a surrogate pair. -/
inductive Piece where
  | unit (u : UInt16)
  | pair (high low : UInt16) (hh : isHigh high.toNat = true) (hl : isLow low.toNat = true)
deriving DecidableEq

namespace Piece

def bytes : Piece → Binary
  | unit u => encodeUnit u.toNat
  | pair high low _ _ => encodeScalar (codepoint high.toNat low.toNat)

def units : Piece → List UInt16
  | unit u => [u]
  | pair high low _ _ => [high, low]

def allBytes (pieces : List Piece) : Binary := pieces.flatMap bytes

def allUnits (pieces : List Piece) : List UInt16 := pieces.flatMap units

@[simp] theorem allUnits_nil : allUnits [] = [] := rfl

@[simp] theorem allUnits_cons (p : Piece) (rest : List Piece) :
    allUnits (p :: rest) = p.units ++ allUnits rest := List.flatMap_cons

@[simp] theorem allBytes_nil : allBytes [] = [] := rfl

@[simp] theorem allBytes_cons (p : Piece) (rest : List Piece) :
    allBytes (p :: rest) = p.bytes ++ allBytes rest := List.flatMap_cons

@[simp] theorem allUnits_append (ps qs : List Piece) :
    allUnits (ps ++ qs) = allUnits ps ++ allUnits qs := List.flatMap_append

@[simp] theorem allBytes_append (ps qs : List Piece) :
    allBytes (ps ++ qs) = allBytes ps ++ allBytes qs := List.flatMap_append

theorem decode_bytes_append (p : Piece) (rest : Binary) :
    decode (p.bytes ++ rest) = p.units.map UInt16.toNat ++ decode rest := by
  cases p with
  | unit u => exact decode_encodeUnit u.toNat_lt rest
  | pair high low hh hl => exact decode_encodeScalar hh hl rest

/-- **Reading a string gives the code units of its pieces.** -/
theorem decode_allBytes (pieces : List Piece) :
    decode (allBytes pieces) = (allUnits pieces).map UInt16.toNat := by
  induction pieces with
  | nil => rfl
  | cons p rest ih =>
    rw [allBytes_cons, decode_bytes_append, ih, allUnits_cons, List.map_append]

theorem units_injective {p q : Piece} (h : p.units = q.units) : p = q := by
  cases p with
  | unit u =>
    cases q with
    | unit v =>
      cases h
      rfl
    | pair high low hh hl => cases h
  | pair high low hh hl =>
    cases q with
    | unit v => cases h
    | pair high' low' hh' hl' =>
      cases h
      rfl

/-- The number of bytes can be read off the first one. -/
def leadLength (first : UInt8) : ℕ :=
  if first.toNat < 0x80 then 1
  else if first.toNat < 0xE0 then 2
  else if first.toNat < 0xF0 then 3
  else 4

theorem length_bytes (p : Piece) :
    ∃ first rest, p.bytes = first :: rest ∧ p.bytes.length = leadLength first := by
  cases p with
  | unit u =>
    have hu : u.toNat < 0x10000 := u.toNat_lt
    show ∃ first rest, encodeUnit u.toNat = first :: rest ∧
      (encodeUnit u.toNat).length = leadLength first
    unfold encodeUnit leadLength
    split
    · rename_i h
      refine ⟨_, _, rfl, ?_⟩
      rw [if_pos (by rw [toNat_ofNat_of_lt (by omega)]; exact h)]
      rfl
    · split
      · rename_i h
        refine ⟨_, _, rfl, ?_⟩
        rw [toNat_lead2 h, if_neg (by omega), if_pos (by omega)]
        rfl
      · refine ⟨_, _, rfl, ?_⟩
        rw [toNat_lead3 hu, if_neg (by omega), if_neg (by omega), if_pos (by omega)]
        rfl
  | pair high low hh hl =>
    refine ⟨_, _, rfl, ?_⟩
    simp only [isHigh, isLow, Bool.and_eq_true, decide_eq_true_eq] at hh hl
    have hcode : codepoint high.toNat low.toNat < 0x110000 := by
      unfold codepoint
      rw [Nat.shiftLeft_eq]
      omega
    unfold leadLength
    rw [toNat_lead4 hcode, if_neg (by omega), if_neg (by omega), if_neg (by omega)]
    rfl

/-- **The pieces can be read off the bytes.** -/
theorem allBytes_injective {ps qs : List Piece} (h : allBytes ps = allBytes qs) : ps = qs := by
  induction ps generalizing qs with
  | nil =>
    cases qs with
    | nil => rfl
    | cons q qs =>
      obtain ⟨first, rest, hq, -⟩ := q.length_bytes
      rw [allBytes_cons, hq] at h
      cases h
  | cons p ps ih =>
    obtain ⟨first, rest, hp, hplen⟩ := p.length_bytes
    cases qs with
    | nil =>
      rw [allBytes_cons, hp] at h
      cases h
    | cons q qs =>
      obtain ⟨first', rest', hq, hqlen⟩ := q.length_bytes
      rw [allBytes_cons, allBytes_cons] at h
      have hfirst : first = first' := by
        rw [hp, hq] at h
        exact (List.cons.inj h).1
      have hlen : p.bytes.length = q.bytes.length := by rw [hplen, hqlen, hfirst]
      obtain ⟨hbytes, hrest⟩ := List.append_inj h hlen
      have hunits : p.units.map UInt16.toNat = q.units.map UInt16.toNat := by
        have hpq := decode_bytes_append p []
        rw [hbytes, decode_bytes_append q []] at hpq
        simpa only [decode, List.append_nil] using hpq.symm
      have hinj : Function.Injective UInt16.toNat := fun _ _ => UInt16.toNat_inj.1
      rw [units_injective (hinj.list_map hunits), ih hrest]

/-! ### Seams -/

def seam : Piece → List Piece → Bool
  | unit u, unit v :: _ => isHigh u.toNat && isLow v.toNat
  | _, _ => false

/-- The positions of the seams of a string that starts at `pos`. -/
def seams : ℕ → List Piece → List ℕ
  | _, [] => []
  | pos, p :: rest =>
      (if seam p rest then [pos] else []) ++ seams (pos + p.units.length) rest

/-- The pieces of a string that was encoded from its code units. -/
def join : List UInt16 → List Piece
  | high :: low :: rest =>
      if h : isHigh high.toNat = true ∧ isLow low.toNat = true then
        pair high low h.1 h.2 :: join rest
      else unit high :: join (low :: rest)
  | [u] => [unit u]
  | [] => []

theorem join_of_pair {high low : UInt16} (h : isHigh high.toNat = true ∧ isLow low.toNat = true)
    (rest : List UInt16) :
    join (high :: low :: rest) = pair high low h.1 h.2 :: join rest := by
  delta join
  exact dif_pos h

theorem join_of_unit {high low : UInt16} (h : ¬ (isHigh high.toNat = true ∧ isLow low.toNat = true))
    (rest : List UInt16) : join (high :: low :: rest) = unit high :: join (low :: rest) := by
  delta join
  exact dif_neg h

theorem allUnits_join (us : List UInt16) : allUnits (join us) = us := by
  induction us using join.induct with
  | case1 high low rest h ih =>
    rw [join_of_pair h, allUnits_cons, ih]
    rfl
  | case2 high low rest h ih =>
    rw [join_of_unit h, allUnits_cons, ih]
    rfl
  | case3 u => rfl
  | case4 => rfl

theorem fromUnits_eq (us : List UInt16) :
    fromUnits (us.map UInt16.toNat) = allBytes (join us) := by
  show encodeUnits (us.map UInt16.toNat) = _
  induction us using join.induct with
  | case1 high low rest h ih =>
    rw [join_of_pair h, allBytes_cons, ← ih, List.map_cons, List.map_cons, encodeUnits,
      if_pos (Bool.and_eq_true_iff.2 h)]
    rfl
  | case2 high low rest h ih =>
    rw [join_of_unit h, allBytes_cons, ← ih, List.map_cons, List.map_cons, encodeUnits,
      if_neg (fun hc => h (Bool.and_eq_true_iff.1 hc))]
    rfl
  | case3 u => exact (List.append_nil _).symm
  | case4 => rfl

theorem seams_join (pos : ℕ) (us : List UInt16) : seams pos (join us) = [] := by
  induction us using join.induct generalizing pos with
  | case1 high low rest h ih =>
    rw [join_of_pair h, seams, ih]
    rfl
  | case2 high low rest h ih =>
    have hseam : seam (unit high) (join (low :: rest)) = false := by
      cases rest with
      | nil =>
        cases hb : isHigh high.toNat && isLow low.toNat with
        | false => exact hb
        | true => exact absurd (Bool.and_eq_true_iff.1 hb) h
      | cons next rest =>
        rw [join]
        split
        · rfl
        · cases hb : isHigh high.toNat && isLow low.toNat with
          | false => exact hb
          | true => exact absurd (Bool.and_eq_true_iff.1 hb) h
    rw [join_of_unit h, seams, hseam, ih]
    rfl
  | case3 u => rfl
  | case4 => rfl

end Piece

end QuickBeam.Vm.Runtime.Utf16
