import Mathlib.Data.List.Basic
import Mathlib.Tactic

/-!
# `TextDecoder` and `TextDecoderStream` (`text_encoding.zig`, `text-streams.ts`)

`validate_utf8` and the two passes of `replace_invalid_utf8` walk the bytes in the same steps:
an ASCII byte, a stray byte, or a whole sequence, which may still be overlong, a surrogate or out
of range.  The loops differ in what they do with a step.

A string is the list of its code points.  `JS_NewStringLen` is only ever given valid UTF-8 here.
-/

namespace QuickBeam.Text

/-! ### Steps over the bytes -/

/-- The length that a lead byte announces. -/
def sequenceLength (b : UInt8) : Option ℕ :=
  if b &&& 0xE0 = 0xC0 then some 2
  else if b &&& 0xF0 = 0xE0 then some 3
  else if b &&& 0xF8 = 0xF0 then some 4
  else none

def isContinuation (b : UInt8) : Bool := b &&& 0xC0 = 0x80

def validateContinuation (bytes : List UInt8) : Bool := bytes.all isContinuation

def decodeCodepoint (data : List UInt8) (sl : ℕ) : ℕ :=
  let byte i := (data.getD i 0).toNat
  match sl with
  | 2 => (byte 0 &&& 0x1F) <<< 6 ||| (byte 1 &&& 0x3F)
  | 3 => (byte 0 &&& 0x0F) <<< 12 ||| (byte 1 &&& 0x3F) <<< 6 ||| (byte 2 &&& 0x3F)
  | 4 => (byte 0 &&& 0x07) <<< 18 ||| (byte 1 &&& 0x3F) <<< 12 ||| (byte 2 &&& 0x3F) <<< 6 |||
      (byte 3 &&& 0x3F)
  | _ => 0xFFFD

def isOverlong (cp sl : ℕ) : Bool :=
  (sl = 2 && cp < 0x80) || (sl = 3 && cp < 0x800) || (sl = 4 && cp < 0x10000)

/-- What the loops look at in a whole sequence: overlong, a surrogate, or out of range. -/
def isInvalid (cp sl : ℕ) : Bool :=
  isOverlong cp sl || (0xD800 ≤ cp && cp ≤ 0xDFFF) || 0x10FFFF < cp

inductive Branch where
  | ascii
  /-- No lead byte, or its sequence is cut off or broken off: one byte is passed. -/
  | stray
  /-- A whole sequence of this length that encodes no scalar value. -/
  | invalid (sl : ℕ)
  | scalar (sl : ℕ)
deriving DecidableEq

/-- The branch taken at the byte `b` with the bytes `rest` behind it. -/
def branch (b : UInt8) (rest : List UInt8) : Branch :=
  if b < 0x80 then .ascii
  else
    match sequenceLength b with
    | none => .stray
    | some sl =>
      if rest.length + 1 < sl || !validateContinuation (rest.take (sl - 1)) then .stray
      else if isInvalid (decodeCodepoint (b :: rest) sl) sl then .invalid sl
      else .scalar sl

def validateUtf8 : List UInt8 → Bool
  | [] => true
  | b :: rest =>
    match branch b rest with
    | .ascii => validateUtf8 rest
    | .stray => false
    | .invalid _ => false
    | .scalar sl => validateUtf8 (rest.drop (sl - 1))
termination_by data => data.length
decreasing_by all_goals simp only [List.length_cons, List.length_drop]; omega

/-- The first pass of `replace_invalid_utf8`. -/
def needsReplace : List UInt8 → Bool
  | [] => false
  | b :: rest =>
    match branch b rest with
    | .ascii => needsReplace rest
    | .stray => true
    | .invalid _ => true
    | .scalar sl => needsReplace (rest.drop (sl - 1))
termination_by data => data.length
decreasing_by all_goals simp only [List.length_cons, List.length_drop]; omega

/-- U+FFFD in UTF-8. -/
def replacement : List UInt8 := [0xEF, 0xBF, 0xBD]

/-- The second pass of `replace_invalid_utf8`. -/
def replacePass : List UInt8 → List UInt8
  | [] => []
  | b :: rest =>
    match branch b rest with
    | .ascii => b :: replacePass rest
    | .stray => replacement ++ replacePass rest
    | .invalid sl => replacement ++ replacePass (rest.drop (sl - 1))
    | .scalar sl => b :: rest.take (sl - 1) ++ replacePass (rest.drop (sl - 1))
termination_by data => data.length
decreasing_by all_goals simp only [List.length_cons, List.length_drop]; omega

def replaceInvalidUtf8 (data : List UInt8) : Option (List UInt8) :=
  if needsReplace data then some (replacePass data) else none

/-! ### Strings -/

abbrev JSString := List ℕ

/-- `JS_NewStringLen` on valid UTF-8. -/
def newStringLen : List UInt8 → JSString
  | [] => []
  | b :: rest =>
    match branch b rest with
    | .ascii => b.toNat :: newStringLen rest
    | .stray => 0xFFFD :: newStringLen rest
    | .invalid sl => 0xFFFD :: newStringLen (rest.drop (sl - 1))
    | .scalar sl => decodeCodepoint (b :: rest) sl :: newStringLen (rest.drop (sl - 1))
termination_by data => data.length
decreasing_by all_goals simp only [List.length_cons, List.length_drop]; omega

/-! ### The decoder -/

structure DecoderOptions where
  fatal : Bool
  ignoreBOM : Bool

/-- The byte-order mark. -/
def bom : List UInt8 := [0xEF, 0xBB, 0xBF]

def startsWithBom (data : List UInt8) : Bool := bom.isPrefixOf data

def stripBom (options : DecoderOptions) (data : List UInt8) : List UInt8 :=
  if !options.ignoreBOM && startsWithBom data then data.drop 3 else data

/-- `text_decoder_decode`; the argument may be missing.  A `{ stream: true }` is not looked at. -/
def decode (options : DecoderOptions) : Option (List UInt8) → Except String JSString
  | none => .ok []
  | some data =>
    let data := stripBom options data
    if options.fatal then
      if !validateUtf8 data then .error "The encoded data was not valid UTF-8"
      else .ok (newStringLen data)
    else
      match replaceInvalidUtf8 data with
      | some r => .ok (newStringLen r)
      | none => .ok (newStringLen data)

/-! ### The stream -/

/-- A `TextDecoderStream` with what it has emitted; `failed` when a write was rejected. -/
structure DecoderStream where
  options : DecoderOptions
  emitted : List JSString
  failed : Bool

namespace DecoderStream

def transform (s : DecoderStream) (chunk : List UInt8) : DecoderStream :=
  match decode s.options (some chunk) with
  | .ok text => { s with emitted := s.emitted ++ [text] }
  | .error _ => { s with failed := true }

def flush (s : DecoderStream) : DecoderStream :=
  match decode s.options none with
  | .ok final => if final ≠ [] then { s with emitted := s.emitted ++ [final] } else s
  | .error _ => { s with failed := true }

def run (options : DecoderOptions) (chunks : List (List UInt8)) : DecoderStream :=
  (chunks.foldl transform ⟨options, [], false⟩).flush

end DecoderStream

end QuickBeam.Text
