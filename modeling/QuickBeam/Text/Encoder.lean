import QuickBeam.Text.Utf8Replacement
import QuickBeam.Vm.Runtime.Utf16

/-!
# Encoding strings (`text_encoder_encode`, `text_encoder_encode_into`)

Both functions receive a string in the bytes of `JS_ToCStringLen`: a surrogate pair in the four
bytes of its code point, any other code unit, a lone surrogate too, in one to three.  `encode`
hands these bytes out as they are.  `encodeInto` copies them one character at a time, puts U+FFFD
in the place of a lone surrogate and stops before the first character that does not fit.
-/

namespace QuickBeam.Text.Encoder

open QuickBeam.Lib.BitGroups QuickBeam.Vm.Runtime QuickBeam.Vm.Runtime.Utf16
  QuickBeam.Vm.Runtime.Utf16.Piece
open QuickBeam.Text.Utf8Replacement hiding join

/-! ### The two functions -/

def toCStringLen (s : List UInt16) : List UInt8 := encodeUnits (s.map UInt16.toNat)

def encode (s : List UInt16) : List UInt8 := toCStringLen s

def utf8SeqLen (firstByte : UInt8) : ℕ :=
  if firstByte < 0x80 then 1
  else if firstByte &&& 0xE0 = 0xC0 then 2
  else if firstByte &&& 0xF0 = 0xE0 then 3
  else if firstByte &&& 0xF8 = 0xF0 then 4
  else 0

structure Progress where
  read : ℕ
  written : List UInt8

/-- The `while` loop of `text_encoder_encode_into`, with the source from `src_idx` on. -/
def encodeIntoLoop (dstSize : ℕ) (src : List UInt8) (p : Progress) : Progress :=
  match src with
  | [] => p
  | byte :: rest =>
      if p.written.length < dstSize then
        if utf8SeqLen byte = 0 then encodeIntoLoop dstSize rest p
        else if rest.length + 1 < utf8SeqLen byte then p
        else if utf8SeqLen byte = 3 ∧ byte = 0xED ∧ rest.head?.any (0xA0 ≤ ·) then
          if dstSize < p.written.length + 3 then p
          else
            encodeIntoLoop dstSize (rest.drop (utf8SeqLen byte - 1))
              ⟨p.read + 1, p.written ++ replacement⟩
        else if dstSize < p.written.length + utf8SeqLen byte then p
        else
          encodeIntoLoop dstSize (rest.drop (utf8SeqLen byte - 1))
            ⟨p.read + if utf8SeqLen byte = 4 then 2 else 1,
              p.written ++ byte :: rest.take (utf8SeqLen byte - 1)⟩
      else p
termination_by src.length
decreasing_by all_goals simp only [List.length_cons, List.length_drop]; omega

/-- What `encodeInto` reports, with the destination as it leaves it. -/
structure IntoResult where
  read : ℕ
  written : ℕ
  dst : List UInt8

def encodeInto (s : List UInt16) (dst : List UInt8) : IntoResult :=
  let p := encodeIntoLoop dst.length (toCStringLen s) ⟨0, []⟩
  ⟨p.read, p.written.length, p.written ++ dst.drop p.written.length⟩

/-! ### Lone surrogates -/

def isSurrogate (u : UInt16) : Bool := isHigh u.toNat || isLow u.toNat

/-- Every surrogate of the string stands in a pair. -/
def isWellFormed : List UInt16 → Bool
  | high :: low :: rest =>
      if isHigh high.toNat && isLow low.toNat then isWellFormed rest
      else !isSurrogate high && isWellFormed (low :: rest)
  | [u] => !isSurrogate u
  | [] => true

def lone : Piece → Bool
  | .unit u => isSurrogate u
  | .pair .. => false

/-- What `encodeInto` writes for a piece. -/
def copied (p : Piece) : List UInt8 := if lone p then replacement else p.bytes

theorem isWellFormed_iff (s : List UInt16) :
    isWellFormed s = true ↔ ∀ p ∈ join s, lone p = false := by
  induction s using join.induct with
  | case1 high low rest h ih =>
    rw [join_of_pair h, isWellFormed, if_pos (Bool.and_eq_true_iff.2 h), ih]
    simp [lone]
  | case2 high low rest h ih =>
    rw [join_of_unit h, isWellFormed, if_neg (fun hc => h (Bool.and_eq_true_iff.1 hc))]
    simp [lone, ih]
  | case3 u => simp [isWellFormed, join, lone]
  | case4 => simp [isWellFormed, join]

theorem toCStringLen_eq (s : List UInt16) : toCStringLen s = allBytes (join s) := fromUnits_eq s

/-! ### Strings with ASCII in them -/

theorem encodeUnits_append_cons (us : List ℕ) {c : ℕ} (hc : c < 128) (rest : List ℕ) :
    encodeUnits (us ++ c :: rest) = encodeUnits us ++ encodeUnits (c :: rest) := by
  induction us using encodeUnits.induct with
  | case1 high low us h ih =>
    rw [List.cons_append, List.cons_append, encodeUnits, if_pos h, encodeUnits, if_pos h, ih,
      List.append_assoc]
  | case2 high low us h ih =>
    rw [List.cons_append, List.cons_append, encodeUnits, if_neg h, encodeUnits, if_neg h,
      List.append_assoc, ← ih, List.cons_append]
  | case3 u =>
    have hlow : (isHigh u && isLow c) = false := by
      rw [isLow, Bool.and_eq_false_iff, Bool.and_eq_false_iff]
      exact .inr (.inl (decide_eq_false (by omega)))
    rw [List.singleton_append, encodeUnits, hlow, if_neg Bool.false_ne_true]
    rfl
  | case4 => rfl

theorem encodeUnits_cons {c : ℕ} (hc : c < 128) (rest : List ℕ) :
    encodeUnits (c :: rest) = .ofNat c :: encodeUnits rest := by
  have hunit : encodeUnit c = [.ofNat c] := if_pos (by omega)
  cases rest with
  | nil => exact hunit
  | cons d rest =>
    have hhigh : isHigh c = false := by
      rw [isHigh, Bool.and_eq_false_iff]
      exact .inl (decide_eq_false (by omega))
    rw [encodeUnits, hhigh, Bool.false_and, if_neg Bool.false_ne_true, hunit]
    rfl

/-- Bytes of ASCII characters as a string. -/
def wide (bytes : List UInt8) : List UInt16 := bytes.map fun b => UInt16.ofNat b.toNat

theorem toCStringLen_wide {bytes : List UInt8} (h : ∀ b ∈ bytes, b.toNat < 128)
    (rest : List UInt16) : toCStringLen (wide bytes ++ rest) = bytes ++ toCStringLen rest := by
  induction bytes with
  | nil => rfl
  | cons b bytes ih =>
    rw [List.forall_mem_cons] at h
    have hb : (UInt16.ofNat b.toNat).toNat = b.toNat := by
      rw [UInt16.toNat_ofNat']
      exact Nat.mod_eq_of_lt (by omega)
    have hcons : toCStringLen (UInt16.ofNat b.toNat :: (wide bytes ++ rest)) =
        b :: toCStringLen (wide bytes ++ rest) := by
      rw [toCStringLen, List.map_cons, hb, encodeUnits_cons h.1, UInt8.ofNat_toNat]
      rfl
    show toCStringLen (UInt16.ofNat b.toNat :: (wide bytes ++ rest)) = _
    rw [hcons, ih h.2]
    rfl

theorem toCStringLen_append_wide (s : List UInt16) {bytes : List UInt8}
    (h : ∀ b ∈ bytes, b.toNat < 128) (hne : bytes ≠ []) (rest : List UInt16) :
    toCStringLen (s ++ (wide bytes ++ rest)) = toCStringLen s ++ (bytes ++ toCStringLen rest) := by
  obtain ⟨b, bytes, rfl⟩ := List.exists_cons_of_ne_nil hne
  rw [← toCStringLen_wide h]
  have hb : (UInt16.ofNat b.toNat).toNat < 128 := by
    rw [UInt16.toNat_ofNat']
    exact (Nat.mod_le _ _).trans_lt (h b List.mem_cons_self)
  show encodeUnits ((s ++ UInt16.ofNat b.toNat :: (wide bytes ++ rest)).map UInt16.toNat) = _
  rw [List.map_append, List.map_cons, encodeUnits_append_cons _ hb]
  rfl

theorem join_allUnits {ps : List Piece} (h : ∀ p ∈ ps, lone p = false) :
    join (allUnits ps) = ps := by
  induction ps with
  | nil => rfl
  | cons p ps ih =>
    have hrest := ih fun q hq => h q (List.mem_cons_of_mem _ hq)
    cases p with
    | pair high low hh hl =>
      show join (high :: low :: allUnits ps) = _
      rw [join_of_pair ⟨hh, hl⟩, hrest]
    | unit u =>
      have hlone : isSurrogate u = false := h _ List.mem_cons_self
      rw [isSurrogate, Bool.or_eq_false_iff] at hlone
      show join (u :: allUnits ps) = _
      cases hus : allUnits ps with
      | nil =>
        rw [hus] at hrest
        rw [← hrest]
        rfl
      | cons v us =>
        have hpair : ¬ (isHigh u.toNat = true ∧ isLow v.toNat = true) := by
          rw [hlone.1]
          simp
        rw [join_of_unit hpair, ← hus, hrest]

/-! ### The bytes of a piece -/

theorem utf8SeqLen_ranges : ∀ i : Fin 256, utf8SeqLen (UInt8.ofNat i) =
    if i.val < 128 then 1 else if i.val < 192 then 0 else if i.val < 224 then 2
      else if i.val < 240 then 3 else if i.val < 248 then 4 else 0 := by
  decide +kernel

theorem utf8SeqLen_eq (b : UInt8) :
    utf8SeqLen b =
      if b.toNat < 128 then 1 else if b.toNat < 192 then 0 else if b.toNat < 224 then 2
        else if b.toNat < 240 then 3 else if b.toNat < 248 then 4 else 0 := by
  have hb := utf8SeqLen_ranges ⟨b.toNat, b.toNat_lt⟩
  rwa [show UInt8.ofNat (⟨b.toNat, b.toNat_lt⟩ : Fin 256) = b from UInt8.ofNat_toNat] at hb

inductive Encoded : Piece → List UInt8 → Prop where
  | one {u : UInt16} {a : UInt8} : u.toNat < 0x80 → a.toNat = u.toNat → Encoded (.unit u) [a]
  | two {u : UInt16} {a b : UInt8} : 0x80 ≤ u.toNat → u.toNat < 0x800 →
      a.toNat = 192 + u.toNat / 64 → b.toNat = 128 + u.toNat % 64 → Encoded (.unit u) [a, b]
  | three {u : UInt16} {a b c : UInt8} : 0x800 ≤ u.toNat → a.toNat = 224 + u.toNat / 4096 →
      b.toNat = 128 + u.toNat / 64 % 64 → c.toNat = 128 + u.toNat % 64 →
      Encoded (.unit u) [a, b, c]
  | four {high low : UInt16} {hh : isHigh high.toNat = true} {hl : isLow low.toNat = true}
      {a b c d : UInt8} (cp : ℕ) : 0x10000 ≤ cp → cp < 0x110000 → a.toNat = 240 + cp / 262144 →
      b.toNat = 128 + cp / 4096 % 64 → c.toNat = 128 + cp / 64 % 64 → d.toNat = 128 + cp % 64 →
      Encoded (.pair high low hh hl) [a, b, c, d]

theorem encoded_bytes (p : Piece) : Encoded p p.bytes := by
  cases p with
  | unit u =>
    have hu : u.toNat < 0x10000 := u.toNat_lt
    show Encoded (.unit u) (encodeUnit u.toNat)
    unfold encodeUnit
    split
    · rename_i h
      exact .one h (toNat_ofNat_of_lt (by omega))
    · split
      · rename_i h₁ h₂
        exact .two (by omega) h₂ (toNat_lead2 h₂) (toNat_continuation _)
      · rename_i h₁ h₂
        refine .three (by omega) (toNat_lead3 hu) ?_ (toNat_continuation _)
        rw [toNat_continuation, Nat.shiftRight_eq_div_pow]
  | pair high low hh hl =>
    have hh' := hh
    have hl' := hl
    simp only [isHigh, isLow, Bool.and_eq_true, decide_eq_true_eq] at hh' hl'
    have hcode : codepoint high.toNat low.toNat =
        0x10000 + (high.toNat - 0xD800) * 1024 + (low.toNat - 0xDC00) := by
      unfold codepoint
      rw [Nat.shiftLeft_eq]
    show Encoded _ (encodeScalar (codepoint high.toNat low.toNat))
    generalize codepoint high.toNat low.toNat = cp at hcode
    unfold encodeScalar
    have hlo : 0x10000 ≤ cp := by omega
    have hhi : cp < 0x110000 := by omega
    refine .four cp hlo hhi (toNat_lead4 hhi) ?_ ?_ (toNat_continuation cp)
    · rw [toNat_continuation, Nat.shiftRight_eq_div_pow]
    · rw [toNat_continuation, Nat.shiftRight_eq_div_pow]

theorem length_bytes (p : Piece) :
    ∃ first rest, p.bytes = first :: rest ∧ utf8SeqLen first = rest.length + 1 := by
  have h := encoded_bytes p
  generalize p.bytes = bytes at h ⊢
  cases h with
  | one hu ha =>
    refine ⟨_, _, rfl, ?_⟩
    rw [utf8SeqLen_eq, if_pos (by omega)]
    rfl
  | two hlo hhi ha hb =>
    refine ⟨_, _, rfl, ?_⟩
    rw [utf8SeqLen_eq, if_neg (by omega), if_neg (by omega), if_pos (by omega)]
    rfl
  | @three u _ _ _ hlo ha hb hc =>
    have hu : u.toNat < 0x10000 := u.toNat_lt
    refine ⟨_, _, rfl, ?_⟩
    rw [utf8SeqLen_eq, if_neg (by omega), if_neg (by omega), if_neg (by omega), if_pos (by omega)]
    rfl
  | four cp hlo hhi ha hb hc hd =>
    refine ⟨_, _, rfl, ?_⟩
    rw [utf8SeqLen_eq, if_neg (by omega), if_neg (by omega), if_neg (by omega),
      if_neg (by omega), if_pos (by omega)]
    rfl

theorem isSurrogate_iff (u : UInt16) :
    isSurrogate u = true ↔ 0xD800 ≤ u.toNat ∧ u.toNat ≤ 0xDFFF := by
  simp only [isSurrogate, isHigh, isLow, Bool.or_eq_true, Bool.and_eq_true, decide_eq_true_eq]
  omega

theorem surrogate_test {p : Piece} {first : UInt8} {rest : List UInt8}
    (h : p.bytes = first :: rest) (more : List UInt8) :
    (utf8SeqLen first = 3 ∧ first = 0xED ∧ ((rest ++ more).head?.any (0xA0 ≤ ·)) = true) ↔
      lone p = true := by
  have hED : first = 0xED ↔ first.toNat = 237 := UInt8.toNat_inj.symm
  have hlen : utf8SeqLen first = 3 ↔ 224 ≤ first.toNat ∧ first.toNat < 240 := by
    rw [utf8SeqLen_eq]
    split_ifs <;> simp <;> omega
  have hp := encoded_bytes p
  rw [h] at hp
  rw [hED, hlen]
  cases hp with
  | @one u _ hu ha =>
    have hlone : ¬ isSurrogate u = true := by
      rw [isSurrogate_iff]
      omega
    refine iff_of_false (fun ht => ?_) hlone
    omega
  | @two u _ _ hlo hhi ha hb =>
    have hlone : ¬ isSurrogate u = true := by
      rw [isSurrogate_iff]
      omega
    refine iff_of_false (fun ht => ?_) hlone
    omega
  | @three u _ b c hlo ha hb hc =>
    have hu : u.toNat < 0x10000 := u.toNat_lt
    have hA0 : (([b, c] ++ more).head?.any (0xA0 ≤ ·)) = true ↔ 160 ≤ b.toNat := by
      simp [UInt8.le_iff_toNat_le]
    rw [hA0]
    show _ ↔ isSurrogate u = true
    rw [isSurrogate_iff]
    omega
  | four cp hlo hhi ha hb hc hd =>
    refine iff_of_false (fun ht => ?_) (by simp [lone])
    omega

theorem character_bytes (p : Piece) : Character p.bytes ↔ lone p = false := by
  have h := encoded_bytes p
  generalize p.bytes = bytes at h ⊢
  rw [← Bool.not_eq_true]
  cases h with
  | @one u _ hu ha =>
    show _ ↔ ¬ isSurrogate u = true
    rw [character_one, isSurrogate_iff]
    omega
  | @two u _ _ hlo hhi ha hb =>
    show _ ↔ ¬ isSurrogate u = true
    rw [character_two, isSurrogate_iff]
    omega
  | @three u _ _ _ hlo ha hb hc =>
    have hu : u.toNat < 0x10000 := u.toNat_lt
    show _ ↔ ¬ isSurrogate u = true
    rw [character_three, isSurrogate_iff]
    omega
  | four cp hlo hhi ha hb hc hd =>
    refine iff_of_true ?_ (by simp [lone])
    rw [character_four]
    omega

theorem length_character {first : UInt8} {rest : List UInt8} (h : Character (first :: rest)) :
    utf8SeqLen first = rest.length + 1 := by
  match rest, h with
  | [], h =>
    rw [character_one] at h
    rw [utf8SeqLen_eq, if_pos (by omega)]
    rfl
  | [b], h =>
    rw [character_two] at h
    rw [utf8SeqLen_eq, if_neg (by omega), if_neg (by omega), if_pos (by omega)]
    rfl
  | [b, c], h =>
    rw [character_three] at h
    rw [utf8SeqLen_eq, if_neg (by omega), if_neg (by omega), if_neg (by omega), if_pos (by omega)]
    rfl
  | [b, c, d], h =>
    rw [character_four] at h
    rw [utf8SeqLen_eq, if_neg (by omega), if_neg (by omega), if_neg (by omega),
      if_neg (by omega), if_pos (by omega)]
    rfl
  | _ :: _ :: _ :: _ :: _, h => simp [Character, ranges] at h

/-! ### The loop over pieces -/

theorem length_units (p : Piece) :
    p.units.length = if p.bytes.length = 4 then 2 else 1 := by
  have h := encoded_bytes p
  generalize p.bytes = bytes at h ⊢
  cases h <;> rfl

theorem length_copied (p : Piece) : (copied p).length = p.bytes.length := by
  unfold copied
  split
  · rename_i hlone
    obtain ⟨first, rest, hp, hlen⟩ := length_bytes p
    have htest := ((surrogate_test hp []).2 hlone).1
    rw [hp, List.length_cons, ← hlen, htest]
    rfl
  · rfl

/-- **One turn of the loop**: a piece that fits is copied, before any other it stops. -/
theorem encodeIntoLoop_piece (dstSize : ℕ) (p : Piece) (more : List UInt8) (read : ℕ)
    (written : List UInt8) :
    encodeIntoLoop dstSize (p.bytes ++ more) ⟨read, written⟩ =
      if written.length + p.bytes.length ≤ dstSize then
        encodeIntoLoop dstSize more ⟨read + p.units.length, written ++ copied p⟩
      else ⟨read, written⟩ := by
  obtain ⟨first, rest, hp, hlen⟩ := length_bytes p
  have htest := surrogate_test hp more
  have hdrop : (rest ++ more).drop (utf8SeqLen first - 1) = more := by
    rw [hlen, Nat.add_sub_cancel, List.drop_left]
  have htake : (rest ++ more).take (utf8SeqLen first - 1) = rest := by
    rw [hlen, Nat.add_sub_cancel, List.take_left]
  have hlong : ¬ (rest ++ more).length + 1 < utf8SeqLen first := by
    rw [hlen, List.length_append]
    omega
  have hbytes : p.bytes.length = utf8SeqLen first := by rw [hp, List.length_cons, hlen]
  rw [length_units, hbytes, hp, List.cons_append, encodeIntoLoop, if_neg hlong, hdrop, htake]
  dsimp only
  by_cases hfits : written.length + utf8SeqLen first ≤ dstSize
  · rw [if_pos (by omega), if_neg (by omega), if_pos hfits, copied]
    cases hlone : lone p with
    | true =>
      have hthree := htest.2 hlone
      rw [if_pos hthree, if_neg (by omega), if_pos rfl, if_neg (by omega)]
    | false =>
      rw [if_neg (fun h => Bool.false_ne_true (hlone.symm.trans (htest.1 h))), if_neg (by omega),
        if_neg Bool.false_ne_true, hp]
  · rw [if_neg hfits]
    have hzero : ¬ utf8SeqLen first = 0 := by omega
    by_cases hroom : written.length < dstSize
    · rw [if_pos hroom, if_neg hzero]
      split
      · rename_i hthree
        rw [if_pos (by omega)]
      · rw [if_pos (by omega)]
    · rw [if_neg hroom]

/-- The leading pieces that fit into `space` bytes. -/
def fit (space : ℕ) : List Piece → List Piece
  | [] => []
  | p :: ps => if p.bytes.length ≤ space then p :: fit (space - p.bytes.length) ps else []

theorem fit_begins (space : ℕ) (ps : List Piece) : fit space ps <+: ps := by
  induction ps generalizing space with
  | nil => exact List.nil_prefix
  | cons p ps ih =>
    unfold fit
    split
    · exact (List.prefix_cons_inj p).2 (ih _)
    · exact List.nil_prefix

theorem length_fit (space : ℕ) (ps : List Piece) : (allBytes (fit space ps)).length ≤ space := by
  induction ps generalizing space with
  | nil => exact Nat.zero_le _
  | cons p ps ih =>
    unfold fit
    split
    · rename_i h
      have htail := ih (space - p.bytes.length)
      rw [allBytes_cons, List.length_append]
      omega
    · exact Nat.zero_le _

theorem fit_eq_self {space : ℕ} {ps : List Piece} (h : (allBytes ps).length ≤ space) :
    fit space ps = ps := by
  induction ps generalizing space with
  | nil => rfl
  | cons p ps ih =>
    rw [allBytes_cons, List.length_append] at h
    rw [fit, if_pos (by omega), ih (by omega)]

/-- **The whole loop**: it copies the pieces that fit, and counts their code units. -/
theorem encodeIntoLoop_eq (dstSize : ℕ) (ps : List Piece) (read : ℕ) (written : List UInt8) :
    encodeIntoLoop dstSize (allBytes ps) ⟨read, written⟩ =
      ⟨read + (allUnits (fit (dstSize - written.length) ps)).length,
        written ++ (fit (dstSize - written.length) ps).flatMap copied⟩ := by
  induction ps generalizing read written with
  | nil => simp [encodeIntoLoop, fit]
  | cons p ps ih =>
    obtain ⟨first, rest, hp, -⟩ := length_bytes p
    have hpos : 0 < p.bytes.length := by simp [hp]
    rw [allBytes_cons, encodeIntoLoop_piece, fit]
    by_cases hfits : written.length + p.bytes.length ≤ dstSize
    · rw [if_pos hfits, if_pos (by omega), ih, List.length_append, length_copied,
        Nat.sub_add_eq, List.flatMap_cons, allUnits_cons, List.length_append]
      simp [Nat.add_assoc]
    · rw [if_neg hfits, if_neg (by omega)]
      simp

theorem flatMap_copied {ps : List Piece} (h : ∀ p ∈ ps, lone p = false) :
    ps.flatMap copied = allBytes ps := by
  apply List.flatMap_congr
  intro p hp
  rw [copied, h p hp, if_neg Bool.false_ne_true]

/-! ### Well-formed output -/

theorem wellFormed_allBytes (ps : List Piece) :
    WellFormed (allBytes ps) ↔ ∀ p ∈ ps, lone p = false := by
  induction ps with
  | nil => simpa using WellFormed.nil
  | cons p ps ih =>
    rw [allBytes_cons, List.forall_mem_cons, ← ih, ← character_bytes]
    constructor
    · intro h
      obtain ⟨first, rest, hp, hlen⟩ := length_bytes p
      generalize hdata : p.bytes ++ allBytes ps = data at h
      cases h with
      | nil =>
        rw [hp] at hdata
        cases hdata
      | @cons c more hc hmore =>
        cases c with
        | nil => simp [Character, ranges] at hc
        | cons d c =>
          have hfirst : first = d := by
            rw [hp] at hdata
            exact (List.cons.inj hdata).1
          have hsame : p.bytes.length = (d :: c).length := by
            rw [hp, List.length_cons, ← hlen, hfirst, length_character hc, List.length_cons]
          obtain ⟨hbytes, hrest⟩ := List.append_inj hdata hsame
          rw [hbytes, hrest]
          exact ⟨hc, hmore⟩
    · rintro ⟨hc, hrest⟩
      exact .cons hc hrest

/-- A well-formed stretch at the beginning of a string that fits is no longer than the pieces that
fit. -/
theorem length_le_fit {q : List UInt8} (hq : WellFormed q) {space : ℕ} {ps : List Piece}
    (hbegins : q <+: allBytes ps) (hspace : q.length ≤ space) :
    q.length ≤ (allBytes (fit space ps)).length := by
  induction hq generalizing space ps with
  | nil => exact Nat.zero_le _
  | @cons c more hc hmore ih =>
    cases c with
    | nil => simp [Character, ranges] at hc
    | cons d c =>
      cases ps with
      | nil => simp at hbegins
      | cons p ps =>
        obtain ⟨first, rest, hp, hlen⟩ := length_bytes p
        obtain ⟨tail, htail⟩ := hbegins
        rw [allBytes_cons, List.append_assoc] at htail
        have hfirst : d = first := by
          rw [hp] at htail
          exact (List.cons.inj htail).1
        have hsame : (d :: c).length = p.bytes.length := by
          rw [hp, List.length_cons, List.length_cons, ← hlen, ← hfirst, length_character hc]
        obtain ⟨-, hrest⟩ := List.append_inj htail hsame
        rw [List.length_append] at hspace ⊢
        have hmoreFits := @ih (space - p.bytes.length) ps ⟨tail, hrest⟩ (by omega)
        rw [fit, if_pos (by omega), allBytes_cons, List.length_append]
        omega

/-! ### The two functions against each other -/

/-- `encode` delivers UTF-8, and `encodeInto` the longest whole characters of it that fit. -/
def Agree (s : List UInt16) : Prop :=
  WellFormed (encode s) ∧ ∀ dst : List UInt8, ∃ bytes : List UInt8,
    (encodeInto s dst).dst = bytes ++ dst.drop bytes.length ∧
    (encodeInto s dst).written = bytes.length ∧
    bytes <+: encode s ∧ WellFormed bytes ∧ bytes.length ≤ dst.length ∧
    (∀ q, q <+: encode s → WellFormed q → q.length ≤ dst.length → q.length ≤ bytes.length) ∧
    (encodeInto s dst).read ≤ s.length ∧ encode (s.take (encodeInto s dst).read) = bytes ∧
    ((encode s).length ≤ dst.length → bytes = encode s)

theorem encodeInto_eq {s : List UInt16} (h : ∀ p ∈ join s, lone p = false) (dst : List UInt8) :
    encodeInto s dst =
      ⟨(allUnits (fit dst.length (join s))).length, (allBytes (fit dst.length (join s))).length,
        allBytes (fit dst.length (join s)) ++
          dst.drop (allBytes (fit dst.length (join s))).length⟩ := by
  have hcopied : (fit dst.length (join s)).flatMap copied = allBytes (fit dst.length (join s)) :=
    flatMap_copied fun p hp => h p ((fit_begins _ _).subset hp)
  unfold encodeInto
  rw [toCStringLen_eq, encodeIntoLoop_eq]
  simp [hcopied]

theorem agree_of_isWellFormed {s : List UInt16} (h : isWellFormed s = true) : Agree s := by
  rw [isWellFormed_iff] at h
  have hencode : encode s = allBytes (join s) := toCStringLen_eq s
  refine ⟨by rw [hencode, wellFormed_allBytes]; exact h, fun dst => ?_⟩
  obtain ⟨more, hmore⟩ := fit_begins dst.length (join s)
  have hfit : ∀ p ∈ fit dst.length (join s), lone p = false :=
    fun p hp => h p ((fit_begins _ _).subset hp)
  have hunits : allUnits (fit dst.length (join s)) ++ allUnits more = s := by
    rw [← allUnits_append, hmore, allUnits_join]
  have htaken : s.take (allUnits (fit dst.length (join s))).length =
      allUnits (fit dst.length (join s)) :=
    (congrArg (List.take _) hunits.symm).trans List.take_left
  have hread : (allUnits (fit dst.length (join s))).length ≤ s.length :=
    (List.prefix_append _ _).length_le.trans_eq (congrArg List.length hunits)
  rw [encodeInto_eq h]
  refine ⟨allBytes (fit dst.length (join s)), rfl, rfl, ?_, ?_, length_fit _ _, ?_, hread, ?_, ?_⟩
  · rw [hencode]
    conv_rhs => rw [← hmore]
    rw [allBytes_append]
    exact List.prefix_append _ _
  · rw [wellFormed_allBytes]
    exact hfit
  · intro q hq hwell hspace
    rw [hencode] at hq
    exact length_le_fit hwell hq hspace
  · show toCStringLen _ = _
    rw [htaken, toCStringLen_eq, join_allUnits hfit]
  · intro hspace
    rw [hencode] at hspace ⊢
    rw [fit_eq_self hspace]

/-- **The two encoders agree exactly on the strings without lone surrogates.** -/
theorem agree_iff (s : List UInt16) : Agree s ↔ isWellFormed s = true := by
  constructor
  · intro h
    have hencode : encode s = allBytes (join s) := toCStringLen_eq s
    rw [isWellFormed_iff, ← wellFormed_allBytes, ← hencode]
    exact h.1
  · exact agree_of_isWellFormed

/-- A lone high surrogate: `encode` gives `ED A0 80`. -/
theorem not_agree_surrogate :
    encode [0xD800] = [0xED, 0xA0, 0x80] ∧ ¬ Agree [0xD800] := by
  refine ⟨by decide +kernel, fun h => ?_⟩
  have hbytes : WellFormed (allBytes (join [0xD800])) := by
    rw [← toCStringLen_eq]
    exact h.1
  rw [wellFormed_allBytes] at hbytes
  exact absurd (hbytes (.unit 0xD800) (by decide)) (by decide)

end QuickBeam.Text.Encoder
