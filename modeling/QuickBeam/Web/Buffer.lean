import Mathlib.Data.Set.Basic
import Mathlib.Order.Bounds.Defs
import Mathlib.Data.List.Infix
import Mathlib.Tactic.Common

/-!
# Copying, writing and searching in a `Buffer` (`buffer.ts`)

A view is a range of an `ArrayBuffer`; views may lie on the same one.  `copy_write_search_iff` says
for which offsets and lengths `copy`, `write`, `indexOf` and `lastIndexOf` do what the API of Node
that they follow does.
-/

namespace QuickBeam.Web.Buffer

/-! ### Views -/

/-- The bytes of every `ArrayBuffer`. -/
abbrev Memory := ℕ → ℕ → UInt8

structure View where
  buffer : ℕ
  byteOffset : ℕ
  length : ℕ

def View.bytes (m : Memory) (v : View) : List UInt8 :=
  (List.range v.length).map fun i => m v.buffer (v.byteOffset + i)

/-- An index of `subarray`: a negative one is counted from the end. -/
def relative (length : ℕ) (index : ℤ) : ℕ :=
  if index < 0 then (length + index).toNat else min index.toNat length

def View.subarray (v : View) (start stop : ℤ) : View :=
  ⟨v.buffer, v.byteOffset + relative v.length start,
    relative v.length stop - relative v.length start⟩

def store (m : Memory) (buffer : ℕ) : ℕ → List UInt8 → Memory
  | _, [] => m
  | i, byte :: bytes =>
    store (Function.update m buffer (Function.update (m buffer) i byte)) buffer (i + 1) bytes

/-- `TypedArray.prototype.set`, of bytes that are read before; `none` is a `RangeError`. -/
def set (m : Memory) (target : View) (bytes : List UInt8) (offset : ℤ) : Option Memory :=
  if offset < 0 ∨ target.length < bytes.length + offset then none
  else some (store m target.buffer (target.byteOffset + offset.toNat) bytes)

def copy (m : Memory) (this target : View) (targetStart sourceStart sourceEnd : Option ℤ) :
    Option (ℤ × Memory) :=
  let tStart := targetStart.getD 0
  let src := this.subarray (sourceStart.getD 0) (sourceEnd.getD this.length)
  let toCopy := min (src.length : ℤ) (target.length - tStart)
  (set m target ((src.subarray 0 toCopy).bytes m) tStart).map (toCopy, ·)

section Write

variable {Text Encoding : Type}

/-- An argument of `write` that is a number or an encoding. -/
inductive Argument (Encoding : Type) where
  | number (value : ℤ)
  | string (encoding : Encoding)

def writeArguments (offsetOrEncoding lengthOrEncoding : Option (Argument Encoding))
    (encoding : Option Encoding) : ℤ × Option ℤ × Option Encoding :=
  match offsetOrEncoding, lengthOrEncoding with
  | none, _ => (0, none, none)
  | some (.string enc), _ => (0, none, some enc)
  | some (.number off), none => (off, none, none)
  | some (.number off), some (.string enc) => (off, none, some enc)
  | some (.number off), some (.number len) => (off, some len, encoding)

/-- `write`; `encodeString` gives the bytes of a text, in UTF-8 where no encoding is named. -/
def write (encodeString : Text → Option Encoding → List UInt8) (m : Memory) (this : View)
    (string : Text) (offsetOrEncoding lengthOrEncoding : Option (Argument Encoding))
    (encoding : Option Encoding) : Option (ℤ × Memory) :=
  let (off, len, enc) := writeArguments offsetOrEncoding lengthOrEncoding encoding
  let bytes := encodeString string enc
  let maxLen := this.length - off
  let toCopy := min (len.elim (bytes.length : ℤ) (min · bytes.length)) maxLen
  (set m this (bytes.take (relative bytes.length toCopy)) off).map (toCopy, ·)

end Write

/-! ### What a copy is -/

/-- The bytes stand in the target from `start` on, and no other byte has changed. -/
structure Fills (m m' : Memory) (target : View) (start : ℕ) (bytes : List UInt8) : Prop where
  written : ∀ j (h : j < bytes.length),
    m' target.buffer (target.byteOffset + start + j) = bytes[j]
  kept : ∀ buffer i, (buffer = target.buffer → i < target.byteOffset + start ∨
    target.byteOffset + start + bytes.length ≤ i) → m' buffer i = m buffer i

/-- How many bytes are to be copied. -/
def count (available : ℕ) (requested room : ℤ) : ℤ := max 0 (min (min requested available) room)

/-- No error, the right count, and the bytes that it says. -/
def Copied (m : Memory) (target : View) (offset requested : ℤ) (bytes : List UInt8)
    (result : Option (ℤ × Memory)) : Prop :=
  let n := count bytes.length requested (target.length - offset)
  ∃ m', result = some (n, m') ∧ Fills m m' target offset.toNat (bytes.take n.toNat)

theorem store_spec (m : Memory) (buffer start : ℕ) (bytes : List UInt8) :
    (∀ j (h : j < bytes.length), store m buffer start bytes buffer (start + j) = bytes[j]) ∧
    ∀ b i, (b = buffer → i < start ∨ start + bytes.length ≤ i) →
      store m buffer start bytes b i = m b i := by
  induction bytes generalizing m start with
  | nil => exact ⟨nofun, fun _ _ _ => rfl⟩
  | cons byte bytes ih =>
    obtain ⟨hwritten, hkept⟩ :=
      ih (Function.update m buffer (Function.update (m buffer) start byte)) (start + 1)
    constructor
    · intro j h
      cases j with
      | zero =>
        refine (hkept buffer start fun _ => .inl (Nat.lt_succ_self start)).trans ?_
        simp
      | succ j =>
        have hj := hwritten j (Nat.lt_of_succ_lt_succ h)
        rw [Nat.add_right_comm] at hj
        exact hj
    · intro b i h
      refine (hkept b i fun hb => ?_).trans ?_
      · have hi := h hb
        rw [List.length_cons] at hi
        omega
      · by_cases hb : b = buffer
        · subst hb
          have hi : i ≠ start := by
            have hi := h rfl
            rw [List.length_cons] at hi
            omega
          simp [hi]
        · simp [hb]

theorem set_isSome {m : Memory} {target : View} {bytes : List UInt8} {offset : ℤ} {m' : Memory}
    (h : set m target bytes offset = some m') : 0 ≤ offset ∧ offset ≤ target.length := by
  unfold set at h
  split at h
  · cases h
  · omega

theorem set_fills (m : Memory) {target : View} {bytes : List UInt8} {offset : ℤ}
    (h : 0 ≤ offset) (hroom : bytes.length + offset ≤ target.length) :
    ∃ m', set m target bytes offset = some m' ∧ Fills m m' target offset.toNat bytes := by
  obtain ⟨hwritten, hkept⟩ :=
    store_spec m target.buffer (target.byteOffset + offset.toNat) bytes
  exact ⟨_, if_neg (by omega), hwritten, hkept⟩

theorem relative_of_nonneg {length : ℕ} {index : ℤ} (h : 0 ≤ index) :
    relative length index = min index.toNat length :=
  if_neg (not_lt.2 h)

theorem bytes_subarray (m : Memory) (v : View) {stop : ℤ} (h : 0 ≤ stop) :
    (v.subarray 0 stop).bytes m = (v.bytes m).take stop.toNat := by
  unfold View.subarray View.bytes
  rw [relative_of_nonneg h, relative_of_nonneg le_rfl, ← List.map_take, List.take_range]
  simp

theorem length_bytes (m : Memory) (v : View) : (v.bytes m).length = v.length := by
  unfold View.bytes
  rw [List.length_map, List.length_range]

theorem copy_iff (m : Memory) (this target : View) (targetStart sourceStart sourceEnd : Option ℤ) :
    let src := (this.subarray (sourceStart.getD 0) (sourceEnd.getD this.length)).bytes m
    Copied m target (targetStart.getD 0) src.length src
        (copy m this target targetStart sourceStart sourceEnd) ↔
      0 ≤ targetStart.getD 0 ∧ targetStart.getD 0 ≤ target.length := by
  unfold copy Copied
  generalize this.subarray (sourceStart.getD 0) (sourceEnd.getD this.length) = src
  generalize targetStart.getD 0 = tStart
  dsimp only
  rw [length_bytes]
  constructor
  · rintro ⟨m', h, -⟩
    obtain ⟨m₁, hset, -⟩ := Option.map_eq_some_iff.1 h
    exact set_isSome hset
  · rintro ⟨hstart, hend⟩
    have hcount : count src.length src.length (target.length - tStart) =
        min (src.length : ℤ) (target.length - tStart) := by
      unfold count
      omega
    rw [hcount, bytes_subarray m src (by omega)]
    have hlength : (((src.bytes m).take (min (src.length : ℤ) (target.length - tStart)).toNat).length
        : ℤ) + tStart ≤ target.length := by
      rw [List.length_take, length_bytes]
      omega
    obtain ⟨m', hset, hfills⟩ := set_fills m hstart hlength
    exact ⟨m', by rw [hset]; rfl, hfills⟩

theorem write_iff {Text Encoding : Type} (encodeString : Text → Option Encoding → List UInt8)
    (m : Memory) (this : View) (string : Text)
    (offsetOrEncoding lengthOrEncoding : Option (Argument Encoding)) (encoding : Option Encoding) :
    let (off, len, enc) := writeArguments offsetOrEncoding lengthOrEncoding encoding
    let bytes := encodeString string enc
    Copied m this off (len.getD bytes.length) bytes
        (write encodeString m this string offsetOrEncoding lengthOrEncoding encoding) ↔
      (0 ≤ off ∧ off ≤ this.length) ∧ ∀ n ∈ len, 0 ≤ n := by
  unfold write Copied
  obtain ⟨off, len, enc⟩ := writeArguments offsetOrEncoding lengthOrEncoding encoding
  dsimp only
  generalize encodeString string enc = bytes
  have hlen : len.elim (bytes.length : ℤ) (min · bytes.length) =
      min (len.getD bytes.length) bytes.length := by
    cases len with
    | none => exact (min_self _).symm
    | some n => rfl
  rw [hlen]
  generalize hto : min (min (len.getD ↑bytes.length) ↑bytes.length) (↑this.length - off) = toCopy
  constructor
  · rintro ⟨m', h, -⟩
    obtain ⟨m₁, hset, hpair⟩ := Option.map_eq_some_iff.1 h
    refine ⟨set_isSome hset, fun n hn => ?_⟩
    cases Option.mem_def.1 hn
    have hcount := (Prod.mk.inj hpair).1
    unfold count at hcount
    rw [Option.getD_some] at hto
    omega
  · rintro ⟨⟨hoff, hend⟩, hnonneg⟩
    have hpos : 0 ≤ toCopy := by
      cases len with
      | none =>
        rw [Option.getD_none] at hto
        omega
      | some n =>
        have hn := hnonneg n rfl
        rw [Option.getD_some] at hto
        omega
    have hcount : count bytes.length (len.getD bytes.length) (this.length - off) = toCopy := by
      unfold count
      rw [hto]
      omega
    have hle : toCopy ≤ bytes.length ∧ toCopy ≤ this.length - off := by omega
    rw [hcount, relative_of_nonneg hpos, show min toCopy.toNat bytes.length = toCopy.toNat by omega]
    have hlength : ((bytes.take toCopy.toNat).length : ℤ) + off ≤ this.length := by
      rw [List.length_take]
      omega
    obtain ⟨m', hset, hfills⟩ := set_fills m hoff hlength
    exact ⟨m', by rw [hset]; rfl, hfills⟩

/-! ### Searching -/

/-- `bytes[i]`; there is none at a negative index. -/
def byteAt (bytes : List UInt8) (i : ℤ) : Option UInt8 :=
  if i < 0 then none else bytes[i.toNat]?

/-- A loop that goes on by `step` for so many rounds until it has found its index. -/
def scan (found : ℤ → Bool) (step : ℤ) : ℕ → ℤ → ℤ
  | 0, _ => -1
  | n + 1, i => if found i then i else scan found step n (i + step)

/-- The inner loop of `findNeedle`. -/
def matchesAt (bytes needle : List UInt8) (i : ℤ) : Bool :=
  (List.range needle.length).all fun j => byteAt bytes (i + j) == needle[j]?

def findNeedle (bytes needle : List UInt8) (first last step : ℤ) : ℤ :=
  scan (matchesAt bytes needle) step (last - first + 1).toNat (if step = 1 then first else last)

inductive Value (Text : Type) where
  | number (value : ℤ)
  | string (string : Text)
  | bytes (bytes : List UInt8)

section Search

variable {Text Encoding : Type} (encodeString : Text → Option Encoding → List UInt8)
  (bytes : List UInt8) (value : Value Text) (byteOffset : Option ℤ) (encoding : Option Encoding)

/-- The bytes that are searched for; of a number, `value & 0xff`. -/
def needleOf : List UInt8 :=
  match value with
  | .number n => [UInt8.ofInt n]
  | .string string => encodeString string encoding
  | .bytes needle => needle

def indexOf : ℤ :=
  let offset := byteOffset.getD 0
  match value with
  | .number n =>
    scan (fun i => byteAt bytes i == some (UInt8.ofInt n)) 1 (bytes.length - offset).toNat offset
  | value =>
    let needle := needleOf encodeString value encoding
    if needle = [] then offset
    else findNeedle bytes needle offset (bytes.length - needle.length) 1

def lastIndexOf : ℤ :=
  let maxOffset := byteOffset.getD (bytes.length - 1)
  match value with
  | .number n =>
    let last := min maxOffset (bytes.length - 1)
    scan (fun i => byteAt bytes i == some (UInt8.ofInt n)) (-1) (last + 1).toNat last
  | value =>
    let needle := needleOf encodeString value encoding
    if needle = [] then min maxOffset bytes.length
    else findNeedle bytes needle 0 (min maxOffset (bytes.length - needle.length)) (-1)

def Occurs (needle : List UInt8) (p : ℤ) : Prop :=
  0 ≤ p ∧ p + needle.length ≤ bytes.length ∧ needle <+: bytes.drop p.toNat

/-- An offset of a search; a negative one is counted from the end. -/
def fromEnd (offset : ℤ) : ℤ := if offset < 0 then bytes.length + offset else offset

def LeastOrNone (positions : Set ℤ) (p : ℤ) : Prop :=
  IsLeast positions p ∨ positions = ∅ ∧ p = -1

def GreatestOrNone (positions : Set ℤ) (p : ℤ) : Prop :=
  IsGreatest positions p ∨ positions = ∅ ∧ p = -1

variable {encodeString bytes value byteOffset encoding}

theorem scan_up (found : ℤ → Bool) (n : ℕ) (first : ℤ) :
    LeastOrNone {p | first ≤ p ∧ p < first + n ∧ found p} (scan found 1 n first) := by
  induction n generalizing first with
  | zero => exact .inr ⟨Set.eq_empty_of_forall_notMem fun p ⟨hle, hlt, _⟩ => by omega, rfl⟩
  | succ n ih =>
    unfold scan
    by_cases hfound : found first = true
    · rw [if_pos hfound]
      exact .inl ⟨⟨le_rfl, by omega, hfound⟩, fun p h => h.1⟩
    · rw [if_neg hfound]
      have hsame : {p | first ≤ p ∧ p < first + (n + 1 : ℕ) ∧ found p = true} =
          {p | first + 1 ≤ p ∧ p < first + 1 + n ∧ found p = true} := by
        ext p
        constructor
        · rintro ⟨hle, hlt, hp⟩
          have hne : p ≠ first := fun heq => hfound (heq ▸ hp)
          exact ⟨by omega, by omega, hp⟩
        · rintro ⟨hle, hlt, hp⟩
          exact ⟨by omega, by omega, hp⟩
      rw [hsame]
      exact ih (first + 1)

theorem scan_down (found : ℤ → Bool) (n : ℕ) (last : ℤ) :
    GreatestOrNone {p | last - n < p ∧ p ≤ last ∧ found p} (scan found (-1) n last) := by
  induction n generalizing last with
  | zero => exact .inr ⟨Set.eq_empty_of_forall_notMem fun p ⟨hlt, hle, _⟩ => by omega, rfl⟩
  | succ n ih =>
    unfold scan
    by_cases hfound : found last = true
    · rw [if_pos hfound]
      exact .inl ⟨⟨by omega, le_rfl, hfound⟩, fun p h => h.2.1⟩
    · rw [if_neg hfound]
      have hsame : {p | last - (n + 1 : ℕ) < p ∧ p ≤ last ∧ found p = true} =
          {p | last + -1 - n < p ∧ p ≤ last + -1 ∧ found p = true} := by
        ext p
        constructor
        · rintro ⟨hlt, hle, hp⟩
          have hne : p ≠ last := fun heq => hfound (heq ▸ hp)
          exact ⟨by omega, by omega, hp⟩
        · rintro ⟨hlt, hle, hp⟩
          exact ⟨by omega, by omega, hp⟩
      rw [hsame]
      exact ih (last + -1)

theorem matchesAt_iff {needle : List UInt8} (hne : needle ≠ []) (i : ℤ) :
    matchesAt bytes needle i = true ↔ Occurs bytes needle i := by
  have hpos := List.length_pos_of_ne_nil hne
  unfold matchesAt Occurs
  rw [List.all_eq_true]
  constructor
  · intro h
    have hbyte : ∀ j < needle.length, 0 ≤ i + j ∧ bytes[(i + j).toNat]? = needle[j]? := by
      intro j hj
      have hj' := beq_iff_eq.1 (h j (List.mem_range.2 hj))
      unfold byteAt at hj'
      split at hj'
      · rw [List.getElem?_eq_getElem hj] at hj'
        cases hj'
      · exact ⟨by omega, hj'⟩
    have hi : 0 ≤ i := by simpa using (hbyte 0 hpos).1
    have hlast := (hbyte (needle.length - 1) (by omega)).2
    rw [List.getElem?_eq_getElem (show needle.length - 1 < needle.length by omega)] at hlast
    have hlt := (List.getElem?_eq_some_iff.1 hlast).1
    refine ⟨hi, by omega, List.prefix_iff_getElem?.2 fun j hj => ?_⟩
    rw [List.getElem?_drop, ← List.getElem?_eq_getElem hj, ← (hbyte j hj).2]
    congr 1
    omega
  · rintro ⟨hi, -, hprefix⟩ j hj
    have hj' := List.prefix_iff_getElem?.1 hprefix j (List.mem_range.1 hj)
    rw [List.getElem?_drop] at hj'
    unfold byteAt
    rw [if_neg (by omega), List.getElem?_eq_getElem (List.mem_range.1 hj), ← hj', beq_iff_eq]
    congr 1
    omega

theorem number_eq (n : ℤ) :
    (fun i => byteAt bytes i == some (UInt8.ofInt n)) = matchesAt bytes [UInt8.ofInt n] := by
  funext i
  simp [matchesAt]

theorem findNeedle_least {needle : List UInt8} (hne : needle ≠ []) (first : ℤ) :
    LeastOrNone {p | Occurs bytes needle p ∧ first ≤ p}
      (findNeedle bytes needle first (bytes.length - needle.length) 1) := by
  have hscan := scan_up (matchesAt bytes needle)
    (bytes.length - needle.length - first + 1 : ℤ).toNat first
  have hsame : {p | Occurs bytes needle p ∧ first ≤ p} = {p | first ≤ p ∧
      p < first + (bytes.length - needle.length - first + 1 : ℤ).toNat ∧
      matchesAt bytes needle p = true} := by
    ext p
    show _ ∧ _ ↔ _ ∧ _ ∧ _
    rw [matchesAt_iff hne]
    exact ⟨fun ⟨h, hle⟩ => ⟨hle, by have := h.2.1; omega, h⟩, fun ⟨hle, _, h⟩ => ⟨h, hle⟩⟩
  rw [hsame]
  exact hscan

theorem findNeedle_greatest {needle : List UInt8} (hne : needle ≠ []) (last : ℤ) :
    GreatestOrNone {p | Occurs bytes needle p ∧ p ≤ last}
      (findNeedle bytes needle 0 (min last (bytes.length - needle.length)) (-1)) := by
  have hscan := scan_down (matchesAt bytes needle)
    (min last (bytes.length - needle.length) - 0 + 1 : ℤ).toNat
    (min last (bytes.length - needle.length))
  have hsame : {p | Occurs bytes needle p ∧ p ≤ last} =
      {p | min last (bytes.length - needle.length) -
          (min last (bytes.length - needle.length) - 0 + 1 : ℤ).toNat < p ∧
        p ≤ min last (bytes.length - needle.length) ∧ matchesAt bytes needle p = true} := by
    ext p
    show _ ∧ _ ↔ _ ∧ _ ∧ _
    rw [matchesAt_iff hne]
    constructor
    · rintro ⟨h, hle⟩
      have hlow := h.1
      have hhigh := h.2.1
      exact ⟨by omega, by omega, h⟩
    · rintro ⟨-, hle, h⟩
      exact ⟨h, by omega⟩
  rw [hsame]
  exact hscan

theorem occurs_nil (p : ℤ) : Occurs bytes [] p ↔ 0 ≤ p ∧ p ≤ bytes.length := by
  unfold Occurs
  simp

theorem indexOf_iff :
    LeastOrNone {p | Occurs bytes (needleOf encodeString value encoding) p ∧
        fromEnd bytes (byteOffset.getD 0) ≤ p}
        (indexOf encodeString bytes value byteOffset encoding) ↔
      if needleOf encodeString value encoding = [] then
        0 ≤ byteOffset.getD 0 ∧ byteOffset.getD 0 ≤ bytes.length
      else 0 ≤ byteOffset.getD 0 ∨
        ∀ p, Occurs bytes (needleOf encodeString value encoding) p →
          fromEnd bytes (byteOffset.getD 0) ≤ p := by
  have hindex : indexOf encodeString bytes value byteOffset encoding =
      if needleOf encodeString value encoding = [] then byteOffset.getD 0
      else findNeedle bytes (needleOf encodeString value encoding) (byteOffset.getD 0)
        (bytes.length - (needleOf encodeString value encoding).length) 1 := by
    cases value with
    | number n =>
      refine Eq.trans ?_ (if_neg (List.cons_ne_nil _ _)).symm
      show scan (fun i => byteAt bytes i == some (UInt8.ofInt n)) 1 _ (byteOffset.getD 0) =
        scan (matchesAt bytes [UInt8.ofInt n]) 1
          (bytes.length - (1 : ℕ) - byteOffset.getD 0 + 1 : ℤ).toNat (byteOffset.getD 0)
      rw [number_eq]
      congr 1
      omega
    | string => rfl
    | bytes => rfl
  rw [hindex]
  generalize needleOf encodeString value encoding = needle
  generalize byteOffset.getD 0 = o
  by_cases hne : needle = []
  · subst hne
    rw [if_pos rfl, if_pos rfl]
    constructor
    · rintro (⟨hmem, -⟩ | ⟨hempty, rfl⟩)
      · exact (occurs_nil o).1 hmem.1
      · have hend : (bytes.length : ℤ) ∈
            {p | Occurs bytes [] p ∧ fromEnd bytes (-1) ≤ p} :=
          ⟨(occurs_nil _).2 (by omega), by unfold fromEnd; omega⟩
        exact absurd (hempty ▸ hend) (Set.notMem_empty _)
    · intro h
      have hstart : fromEnd bytes o = o := if_neg (not_lt.2 h.1)
      rw [hstart]
      exact .inl ⟨⟨(occurs_nil o).2 h, le_rfl⟩, fun p hp => hp.2⟩
  · rw [if_neg hne, if_neg hne]
    have hfind := @findNeedle_least bytes needle hne o
    by_cases ho : 0 ≤ o
    · rw [show fromEnd bytes o = o from if_neg (not_lt.2 ho)]
      exact ⟨fun _ => .inl ho, fun _ => hfind⟩
    · constructor
      · intro h
        refine .inr fun p hp => ?_
        by_contra hlt
        have hmem : p ∈ {p | Occurs bytes needle p ∧ o ≤ p} := ⟨hp, by have := hp.1; omega⟩
        rcases hfind with ⟨hr, hle⟩ | ⟨hempty, -⟩
        · have hrp := hle hmem
          have hpos := hr.1.1
          rcases h with ⟨hr', -⟩ | ⟨-, hnone⟩
          · have := hr'.2
            omega
          · omega
        · exact absurd (hempty ▸ hmem) (Set.notMem_empty _)
      · intro h
        have hall := h.resolve_left ho
        have hsame : {p | Occurs bytes needle p ∧ fromEnd bytes o ≤ p} =
            {p | Occurs bytes needle p ∧ o ≤ p} := by
          ext p
          exact ⟨fun hp => ⟨hp.1, by have := hp.1.1; omega⟩, fun hp => ⟨hp.1, hall p hp.1⟩⟩
        rw [hsame]
        exact hfind

theorem lastIndexOf_iff :
    GreatestOrNone {p | Occurs bytes (needleOf encodeString value encoding) p ∧
        ∀ o ∈ byteOffset, p ≤ fromEnd bytes o}
        (lastIndexOf encodeString bytes value byteOffset encoding) ↔
      if needleOf encodeString value encoding = [] then
        ∃ o ∈ byteOffset, 0 ≤ o ∨ o = -1 ∧ bytes = []
      else ∀ o ∈ byteOffset, 0 ≤ o ∨
        ∀ p, Occurs bytes (needleOf encodeString value encoding) p → fromEnd bytes o < p := by
  have hindex : lastIndexOf encodeString bytes value byteOffset encoding =
      if needleOf encodeString value encoding = [] then
        min (byteOffset.getD (bytes.length - 1)) bytes.length
      else findNeedle bytes (needleOf encodeString value encoding) 0
        (min (byteOffset.getD (bytes.length - 1))
          (bytes.length - (needleOf encodeString value encoding).length)) (-1) := by
    cases value with
    | number n =>
      refine Eq.trans ?_ (if_neg (List.cons_ne_nil _ _)).symm
      show scan (fun i => byteAt bytes i == some (UInt8.ofInt n)) (-1) _ _ =
        scan (matchesAt bytes [UInt8.ofInt n]) (-1) (min _ (bytes.length - (1 : ℕ) : ℤ) - 0 + 1).toNat _
      rw [number_eq, Int.sub_zero]
      rfl
    | string => rfl
    | bytes => rfl
  rw [hindex]
  generalize needleOf encodeString value encoding = needle
  by_cases hne : needle = []
  · subst hne
    rw [if_pos rfl, if_pos rfl]
    cases byteOffset with
    | none =>
      have hend : (bytes.length : ℤ) ∈
          {p | Occurs bytes [] p ∧ ∀ o ∈ (none : Option ℤ), p ≤ fromEnd bytes o} :=
        ⟨(occurs_nil _).2 (by omega), nofun⟩
      refine iff_of_false ?_ nofun
      rintro (⟨-, hle⟩ | ⟨hempty, -⟩)
      · have hlast := hle hend
        rw [Option.getD_none] at hlast
        omega
      · exact absurd (hempty ▸ hend) (Set.notMem_empty _)
    | some o =>
      simp only [Option.mem_some_iff, forall_eq', exists_eq_left', Option.getD_some, occurs_nil]
      by_cases ho : 0 ≤ o
      · rw [show fromEnd bytes o = o from if_neg (not_lt.2 ho)]
        refine iff_of_true (.inl ⟨⟨by omega, by omega⟩, fun p hp => ?_⟩) (.inl ho)
        exact le_min hp.2 hp.1.2
      · rw [show fromEnd bytes o = bytes.length + o from if_pos (not_le.1 ho),
          show min o (bytes.length : ℤ) = o by omega]
        constructor
        · rintro (⟨hmem, -⟩ | ⟨hempty, rfl⟩)
          · exact absurd hmem.1.1 ho
          · refine .inr ⟨rfl, List.eq_nil_iff_length_eq_zero.2 ?_⟩
            by_contra hlength
            have hmem : (0 : ℤ) ∈ {p : ℤ | (0 ≤ p ∧ p ≤ bytes.length) ∧
                p ≤ bytes.length + (-1)} := ⟨by omega, by omega⟩
            exact absurd (hempty ▸ hmem) (Set.notMem_empty _)
        · rintro (hle | ⟨rfl, rfl⟩)
          · exact absurd hle ho
          · refine .inr ⟨Set.eq_empty_of_forall_notMem fun p hp => ?_, rfl⟩
            have hlow := hp.1.1
            have hhigh := hp.2
            rw [List.length_nil] at hhigh
            omega
  · rw [if_neg hne, if_neg hne]
    have hpos := List.length_pos_of_ne_nil hne
    have hfind := @findNeedle_greatest bytes needle hne (byteOffset.getD (bytes.length - 1))
    cases byteOffset with
    | none =>
      have hsame : {p | Occurs bytes needle p ∧ ∀ o ∈ (none : Option ℤ), p ≤ fromEnd bytes o} =
          {p | Occurs bytes needle p ∧ p ≤ (none : Option ℤ).getD (bytes.length - 1)} := by
        ext p
        exact ⟨fun hp => ⟨hp.1, by have := hp.1.2.1; rw [Option.getD_none]; omega⟩,
          fun hp => ⟨hp.1, nofun⟩⟩
      rw [hsame]
      exact iff_of_true hfind nofun
    | some o =>
      simp only [Option.mem_some_iff, forall_eq', Option.getD_some] at hfind ⊢
      by_cases ho : 0 ≤ o
      · rw [show fromEnd bytes o = o from if_neg (not_lt.2 ho)]
        exact iff_of_true hfind (.inl ho)
      · have hnone : findNeedle bytes needle 0 (min o (bytes.length - needle.length)) (-1) = -1 := by
          rcases hfind with ⟨hr, -⟩ | ⟨-, hr⟩
          · exact absurd (hr.1.1.trans hr.2) ho
          · exact hr
        rw [hnone]
        constructor
        · rintro (⟨hmem, -⟩ | ⟨hempty, -⟩)
          · exact absurd hmem.1.1 (by decide)
          · exact .inr fun p hp => not_le.1 fun hle =>
              absurd (hempty ▸ (⟨hp, hle⟩ : p ∈ {p | _ ∧ _})) (Set.notMem_empty p)
        · intro h
          have hall := h.resolve_left ho
          exact .inr ⟨Set.eq_empty_of_forall_notMem fun p hp =>
            absurd hp.2 (not_le.2 (hall p hp.1)), rfl⟩

end Search

/-- **Copying, writing and searching**: which offsets and lengths are in order. -/
theorem copy_write_search_iff {Text Encoding : Type}
    (encodeString : Text → Option Encoding → List UInt8) (m : Memory) (this target : View)
    (targetStart sourceStart sourceEnd : Option ℤ) (string : Text)
    (offsetOrEncoding lengthOrEncoding : Option (Argument Encoding)) (encoding : Option Encoding)
    (value : Value Text) (byteOffset : Option ℤ) :
    let src := (this.subarray (sourceStart.getD 0) (sourceEnd.getD this.length)).bytes m
    let (off, len, enc) := writeArguments offsetOrEncoding lengthOrEncoding encoding
    let bytes := this.bytes m
    let needle := needleOf encodeString value encoding
    (Copied m target (targetStart.getD 0) src.length src
        (copy m this target targetStart sourceStart sourceEnd) ↔
      0 ≤ targetStart.getD 0 ∧ targetStart.getD 0 ≤ target.length) ∧
    (Copied m this off (len.getD (encodeString string enc).length) (encodeString string enc)
        (write encodeString m this string offsetOrEncoding lengthOrEncoding encoding) ↔
      (0 ≤ off ∧ off ≤ this.length) ∧ ∀ n ∈ len, 0 ≤ n) ∧
    (LeastOrNone {p | Occurs bytes needle p ∧ fromEnd bytes (byteOffset.getD 0) ≤ p}
        (indexOf encodeString bytes value byteOffset encoding) ↔
      if needle = [] then 0 ≤ byteOffset.getD 0 ∧ byteOffset.getD 0 ≤ bytes.length
      else 0 ≤ byteOffset.getD 0 ∨
        ∀ p, Occurs bytes needle p → fromEnd bytes (byteOffset.getD 0) ≤ p) ∧
    (GreatestOrNone {p | Occurs bytes needle p ∧ ∀ o ∈ byteOffset, p ≤ fromEnd bytes o}
        (lastIndexOf encodeString bytes value byteOffset encoding) ↔
      if needle = [] then ∃ o ∈ byteOffset, 0 ≤ o ∨ o = -1 ∧ bytes = []
      else ∀ o ∈ byteOffset, 0 ≤ o ∨ ∀ p, Occurs bytes needle p → fromEnd bytes o < p) :=
  ⟨copy_iff m this target targetStart sourceStart sourceEnd,
    write_iff encodeString m this string offsetOrEncoding lengthOrEncoding encoding,
    indexOf_iff, lastIndexOf_iff⟩

/-- A target that ends before its start, and an occurrence before the offset from the end. -/
theorem copy_indexOf_wrong :
    ¬ Copied (fun _ _ => 0) ⟨1, 0, 1⟩ 2 1 [0]
        (copy (fun _ _ => 0) ⟨0, 0, 1⟩ ⟨1, 0, 1⟩ (some 2) none none) ∧
      ¬ LeastOrNone {p | Occurs [7, 8] [7] p ∧ fromEnd [7, 8] (-1) ≤ p}
        (indexOf (fun (text : List UInt8) (_ : Option Unit) => text) [7, 8] (.number 7)
          (some (-1)) none) := by
  refine ⟨fun h => ?_, fun h => ?_⟩
  · obtain ⟨m', hset, -⟩ := h
    cases hset
  · rcases h with ⟨hmem, -⟩ | ⟨-, hnone⟩
    · exact absurd hmem.2 (by decide)
    · exact absurd hnone (by decide)

end QuickBeam.Web.Buffer
