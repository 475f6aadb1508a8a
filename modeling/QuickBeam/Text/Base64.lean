import QuickBeam.Text.Encoder

/-!
# Base64 (`btoa_impl`, `atob_impl`)

`btoa` takes a string of Latin-1 characters, `atob` a string that is stripped of white space and
filled up with `=` to groups of four.  Every write to a buffer is checked against the size it was
allocated with, and every read against what was written.  `atob` looks at the padding of each group
by itself; the standard allows it at the end of the string only.
-/

namespace QuickBeam.Text.Base64

open QuickBeam.Lib.BitGroups QuickBeam.Vm.Program QuickBeam.Vm.Runtime QuickBeam.Vm.Runtime.Utf16
  QuickBeam.Vm.Runtime.Utf16.Piece QuickBeam.Text.Encoder

/-! ### Buffers -/

inductive Fault where
  | invalidCharacter
  | outOfRange
deriving DecidableEq

/-- Writing behind what was written into a buffer of `size` bytes. -/
def write (size : ℕ) (written bytes : List UInt8) : Except Fault (List UInt8) :=
  if written.length + bytes.length ≤ size then .ok (written ++ bytes) else .error .outOfRange

/-- `JS_NewStringLen` of the first `len` bytes of a buffer, which hold UTF-8. -/
def newStringLen (written : List UInt8) (len : ℕ) : Except Fault (List UInt16) :=
  if written.length = len then .ok ((Utf16.decode written).map UInt16.ofNat) else .error .outOfRange

/-! ### Encoding -/

def b64Alphabet : Binary :=
  .ofString "ABCDEFGHIJKLMNOPQRSTUVWXYZabcdefghijklmnopqrstuvwxyz0123456789+/"

def pad : UInt8 := 0x3D

/-- The first pass of `btoa_impl`; `skip` bytes are still passed over by `i += sl`. -/
def latin1Length : ℕ → List UInt8 → Except Fault ℕ
  | _, [] => .ok 0
  | skip + 1, _ :: src => latin1Length skip src
  | 0, byte :: src =>
      if utf8SeqLen byte = 0 then latin1Length 0 src
      else if 2 < utf8SeqLen byte ∨ utf8SeqLen byte = 2 ∧ 0xC4 ≤ byte then
        .error .invalidCharacter
      else (· + 1) <$> latin1Length (utf8SeqLen byte - 1) src

/-- The second pass of `btoa_impl`, which fills `latin1`. -/
def latin1Fill (size : ℕ) : ℕ → List UInt8 → List UInt8 → Except Fault (List UInt8)
  | _, latin1, [] => .ok latin1
  | skip + 1, latin1, _ :: src => latin1Fill size skip latin1 src
  | 0, latin1, byte :: src =>
      if utf8SeqLen byte = 1 then do
        latin1Fill size 0 (← write size latin1 [byte]) src
      else if utf8SeqLen byte = 2 then
        match src.head? with
        | some next => do
            latin1Fill size 1 (← write size latin1 [(byte &&& 0x1F) <<< 6 ||| next &&& 0x3F]) src
        | none => .error .outOfRange
      else latin1Fill size (utf8SeqLen byte - 1) latin1 src

def letter (i : ℕ) : UInt8 := b64Alphabet.getD i 0

/-- The four characters that one turn of the loop of `btoa_impl` writes. -/
def quartet (a : UInt8) (b c : Option UInt8) : List UInt8 :=
  let triple := a.toNat <<< 16 ||| (b.getD 0).toNat <<< 8 ||| (c.getD 0).toNat
  [letter (triple >>> 18 &&& 0x3F), letter (triple >>> 12 &&& 0x3F),
    if b.isSome then letter (triple >>> 6 &&& 0x3F) else pad,
    if c.isSome then letter (triple &&& 0x3F) else pad]

/-- The encoding loop of `btoa_impl`. -/
def encodeLoop (size : ℕ) (out : List UInt8) : List UInt8 → Except Fault (List UInt8)
  | a :: b :: c :: rest => do encodeLoop size (← write size out (quartet a (some b) (some c))) rest
  | [a, b] => write size out (quartet a (some b) none)
  | [a] => write size out (quartet a none none)
  | [] => .ok out

def btoa (s : List UInt16) : Except Fault (List UInt16) := do
  let src := toCStringLen s
  let latin1Len ← latin1Length 0 src
  let latin1 ← latin1Fill latin1Len 0 [] src
  let outLen := (latin1Len + 2) / 3 * 4
  newStringLen (← encodeLoop outLen [] latin1) outLen

/-! ### Decoding -/

def b64DecodeTable : List UInt8 :=
  b64Alphabet.zipIdx.foldl (fun table (c, i) => table.set c.toNat (.ofNat i))
    (List.replicate 256 0xFF)

def isWhiteSpace (c : UInt8) : Bool := c = 0x20 ∨ c = 0x09 ∨ c = 0x0A ∨ c = 0x0D ∨ c = 0x0C

def stripLoop (size : ℕ) : List UInt8 → List UInt8 → Except Fault (List UInt8)
  | clean, [] => .ok clean
  | clean, c :: src =>
      if isWhiteSpace c then stripLoop size clean src
      else do stripLoop size (← write size clean [c]) src

/-- The buffer is allocated anew, and filled again, when the padding does not fit into it. -/
def enlarge (src clean : List UInt8) (paddedLen : ℕ) : Except Fault (List UInt8) :=
  if src.length < paddedLen then stripLoop paddedLen [] src else .ok clean

def padLoop (size : ℕ) : List UInt8 → ℕ → Except Fault (List UInt8)
  | clean, 0 => .ok clean
  | clean, n + 1 => do padLoop size (← write size clean [pad]) n

/-- The loop over the characters of a group: their values and the padding in it. -/
def digits (padCount : ℕ) : List UInt8 → Except Fault (List ℕ × ℕ)
  | [] => .ok ([], padCount)
  | c :: rest =>
      if c = pad then do
        let (vals, count) ← digits (padCount + 1) rest
        .ok (0 :: vals, count)
      else
        match b64DecodeTable[c.toNat]? with
        | none => .error .outOfRange
        | some v =>
            if v = 0xFF then .error .invalidCharacter
            else if 0 < padCount then .error .invalidCharacter
            else do
              let (vals, count) ← digits padCount rest
              .ok (v.toNat :: vals, count)

/-- The bytes that a group writes. -/
def octets (vals : List ℕ) (padCount : ℕ) : List UInt8 :=
  let val i := vals.getD i 0
  let triple := val 0 <<< 18 ||| val 1 <<< 12 ||| val 2 <<< 6 ||| val 3
  [.ofNat (triple >>> 16 &&& 0xFF)] ++
    (if padCount < 2 then [.ofNat (triple >>> 8 &&& 0xFF)] else []) ++
    (if padCount < 1 then [.ofNat (triple &&& 0xFF)] else [])

/-- The decoding loop of `atob_impl`. -/
def decodeLoop (size : ℕ) (out : List UInt8) : List UInt8 → Except Fault (List UInt8)
  | a :: b :: c :: d :: rest => do
      let (vals, padCount) ← digits 0 [a, b, c, d]
      decodeLoop size (← write size out (octets vals padCount)) rest
  | [] => .ok out
  | _ => .error .outOfRange

/-- The bytes of a binary string in UTF-8. -/
def resultLoop (size : ℕ) : List UInt8 → List UInt8 → Except Fault (List UInt8)
  | result, [] => .ok result
  | result, byte :: rest => do
      let bytes : List UInt8 :=
        if byte < 0x80 then [byte] else [(0xC0 : UInt8) ||| byte >>> 6, 0x80 ||| byte &&& 0x3F]
      resultLoop size (← write size result bytes) rest

def atob (t : List UInt16) : Except Fault (List UInt16) := do
  let src := toCStringLen t
  let clean ← stripLoop src.length [] src
  if clean.length % 4 = 1 then .error .invalidCharacter
  let paddedLen := (clean.length + 3) / 4 * 4
  let clean ← enlarge src clean paddedLen
  let clean ← padLoop (max src.length paddedLen) clean (paddedLen - clean.length)
  let out ← decodeLoop (clean.length / 4 * 3) [] clean
  let result ← resultLoop (out.length * 2) [] out
  newStringLen result result.length

/-! ### Forgiving base64 -/

def value (c : ℕ) : Option ℕ :=
  if 65 ≤ c ∧ c ≤ 90 then some (c - 65)
  else if 97 ≤ c ∧ c ≤ 122 then some (c - 71)
  else if 48 ≤ c ∧ c ≤ 57 then some (c + 4)
  else if c = 43 then some 62
  else if c = 47 then some 63
  else none

/-- A string without its white space. -/
def stripped (t : List ℕ) : List ℕ :=
  t.filter fun c => ¬ (c = 0x20 ∨ c = 0x09 ∨ c = 0x0A ∨ c = 0x0D ∨ c = 0x0C)

/-- A string of groups of four loses one or two `=` at its end. -/
def unpadded (u : List ℕ) : List ℕ :=
  if u.length % 4 = 0 then
    match u.reverse with
    | 61 :: 61 :: data => data.reverse
    | 61 :: data => data.reverse
    | _ => u
  else u

/-- The bytes of a list of digits: each four are the twenty-four bits of three bytes, of the last
twelve or eighteen bits four or two are left out. -/
def denoted : List ℕ → List UInt8
  | a :: b :: c :: d :: rest =>
      let n := a * 262144 + b * 4096 + c * 64 + d
      .ofNat (n / 65536) :: .ofNat (n / 256 % 256) :: .ofNat (n % 256) :: denoted rest
  | [a, b, c] =>
      let n := a * 4096 + b * 64 + c
      [.ofNat (n / 1024), .ofNat (n / 4 % 256)]
  | [a, b] => [.ofNat ((a * 64 + b) / 16)]
  | _ => []

/-- Forgiving-base64 decode, after the white space is gone. -/
def decodeData (u : List ℕ) : Option (List UInt8) :=
  let data := unpadded u
  if data.length % 4 = 1 then none else (data.mapM value).map denoted

def forgivingDecode (t : List ℕ) : Option (List UInt8) := decodeData (stripped t)

/-- A binary string: each byte as a code unit. -/
def binaryString (bytes : List UInt8) : List UInt16 := bytes.map fun b => UInt16.ofNat b.toNat

/-- `=` stands at the end only, at most twice, and completes a group of four. -/
def PaddingInPlace (u : List ℕ) : Prop :=
  ∃ data, 61 ∉ data ∧ (u = data ∨ u.length % 4 = 0 ∧ (u = data ++ [61] ∨ u = data ++ [61, 61]))

/-- Within a group of four, `=` is followed by `=` only. -/
def Aligned (u : List ℕ) : Prop :=
  ∀ i j, i < j → i / 4 = j / 4 → u[i]? = some 61 → ∀ c, u[j]? = some c → c = 61

def Legal (c : ℕ) : Prop := value c ≠ none ∨ c = 61

/-- What `atob_impl` refuses. -/
def Malformed (u : List ℕ) : Prop := u.length % 4 = 1 ∨ (∃ c ∈ u, ¬ Legal c) ∨ ¬ Aligned u

/-! ### The tables -/

theorem tables :
    (∀ i : Fin 256, b64DecodeTable[i.val]? = some (UInt8.ofNat ((value i).getD 255))) ∧
      (∀ i : Fin 64, value (letter i).toNat = some i.val) ∧
      (∀ i : Fin 256, encodeUnit (UInt8.ofNat i).toNat =
        if UInt8.ofNat i < 0x80 then [UInt8.ofNat i]
        else [(0xC0 : UInt8) ||| UInt8.ofNat i >>> 6, 0x80 ||| UInt8.ofNat i &&& 0x3F]) ∧
      ∀ i : Fin 256,
        (UInt8.ofNat (192 + i.val / 64) &&& 0x1F) <<< 6 |||
          UInt8.ofNat (128 + i.val % 64) &&& 0x3F = UInt8.ofNat i := by
  decide +kernel

theorem value_lt {c v : ℕ} (h : value c = some v) : v < 64 ∧ c < 128 := by
  unfold value at h
  split_ifs at h <;> cases h <;> omega

theorem table_eq (c : UInt8) :
    b64DecodeTable[c.toNat]? = some (UInt8.ofNat ((value c.toNat).getD 255)) :=
  tables.1 ⟨c.toNat, c.toNat_lt⟩

variable {i : ℕ}

theorem value_letter (h : i < 64) : value (letter i).toNat = some i := tables.2.1 ⟨i, h⟩

theorem value_pad : value 61 = none := by decide

theorem digits_cons (p : ℕ) (c : UInt8) (rest : List UInt8) :
    digits p (c :: rest) =
      if c = pad then (fun r => (0 :: r.1, r.2)) <$> digits (p + 1) rest
      else
        match value c.toNat with
        | none => .error .invalidCharacter
        | some v =>
            if 0 < p then .error .invalidCharacter
            else (fun r => (v :: r.1, r.2)) <$> digits p rest := by
  rw [digits, table_eq]
  split
  · cases digits (p + 1) rest <;> rfl
  · cases hv : value c.toNat with
    | none => rfl
    | some v =>
      have hlt := (value_lt hv).1
      have hne : ¬ UInt8.ofNat v = 0xFF := by
        rw [← UInt8.toNat_inj, UInt8.toNat_ofNat']
        show ¬ v % 2 ^ 8 = 255
        omega
      have hv' : (UInt8.ofNat v).toNat = v := toNat_ofNat_of_lt (by omega)
      show (if UInt8.ofNat v = 0xFF then _ else _) = _
      rw [if_neg hne, Option.getD_some, hv']
      split
      · rfl
      · cases digits p rest <;> rfl

/-! ### Groups of four -/

theorem toNat_eq_pad {c : UInt8} : c.toNat = 61 ↔ c = pad :=
  (UInt8.toNat_inj (a := c) (b := pad))

theorem digits_ok_iff (p : ℕ) (g : List UInt8) :
    (∃ r, digits p g = .ok r) ↔
      (∀ c ∈ g, Legal c.toNat) ∧ (0 < p → ∀ c ∈ g, c = pad) ∧
        g.Pairwise (fun x y => x = pad → y = pad) := by
  induction g generalizing p with
  | nil => simp [digits]
  | cons c rest ih =>
    rw [digits_cons, List.forall_mem_cons, List.pairwise_cons]
    by_cases hc : c = pad
    · have hlegal : Legal c.toNat := .inr (toNat_eq_pad.2 hc)
      have hmap : (∃ r, (fun r : List ℕ × ℕ => (0 :: r.1, r.2)) <$> digits (p + 1) rest = .ok r) ↔
          ∃ r, digits (p + 1) rest = .ok r := by
        cases digits (p + 1) rest <;> simp [Functor.map, Except.map]
      rw [if_pos hc, hmap, ih]
      simp only [hc, List.forall_mem_cons, true_and, true_implies, Nat.succ_pos]
      tauto
    · have hne : ¬ c.toNat = 61 := fun h => hc (toNat_eq_pad.1 h)
      rw [if_neg hc]
      cases hv : value c.toNat with
      | none => simp [Legal, hv, hne]
      | some v =>
        dsimp only
        by_cases hp : 0 < p
        · simp [hp, hc]
        · have hmap : (∃ r, (fun r : List ℕ × ℕ => (v :: r.1, r.2)) <$> digits p rest = .ok r) ↔
              ∃ r, digits p rest = .ok r := by
            cases digits p rest <;> simp [Functor.map, Except.map]
          rw [if_neg hp, hmap, ih]
          simp [Legal, hv, hc, hp]

variable {f : Fault}

theorem digits_error {p : ℕ} {g : List UInt8} (h : digits p g = .error f) :
    f = .invalidCharacter := by
  induction g generalizing p with
  | nil => cases h
  | cons c rest ih =>
    rw [digits_cons] at h
    split at h
    · cases hrest : digits (p + 1) rest with
      | error f' =>
        rw [hrest] at h
        cases h
        exact ih hrest
      | ok r =>
        rw [hrest] at h
        cases h
    · split at h
      · cases h
        rfl
      · split at h
        · cases h
          rfl
        · cases hrest : digits p rest with
          | error f' =>
            rw [hrest] at h
            cases h
            exact ih hrest
          | ok r =>
            rw [hrest] at h
            cases h

/-- The groups of a string, without the buffer. -/
def quads : List UInt8 → Except Fault (List UInt8)
  | a :: b :: c :: d :: rest => do
      let r ← digits 0 [a, b, c, d]
      let out ← quads rest
      .ok (octets r.1 r.2 ++ out)
  | [] => .ok []
  | _ => .error .outOfRange

theorem getElem?_group {a b c d : ℕ} (rest : List ℕ) (h : i < [a, b, c, d].length) :
    (a :: b :: c :: d :: rest)[i]? = some [a, b, c, d][i] := by
  show ([a, b, c, d] ++ rest)[i]? = _
  rw [List.getElem?_append_left h, List.getElem?_eq_getElem h]

theorem aligned_group (a b c d : ℕ) (rest : List ℕ) :
    Aligned (a :: b :: c :: d :: rest) ↔
      [a, b, c, d].Pairwise (fun x y => x = 61 → y = 61) ∧ Aligned rest := by
  rw [List.pairwise_iff_getElem]
  constructor
  · intro h
    refine ⟨fun i j hi hj hij hpad => ?_, fun i j hij hgroup hi v hj => ?_⟩
    · have hi' : i < 4 := hi
      have hj' : j < 4 := hj
      exact h i j hij (by omega) (by rw [getElem?_group rest hi, hpad]) _ (getElem?_group rest hj)
    · exact h (i + 4) (j + 4) (by omega) (by omega) hi v hj
  · rintro ⟨hgroup, hrest⟩ i j hij hsame hi v hj
    by_cases hlow : i < [a, b, c, d].length
    · have hlow' : j < [a, b, c, d].length := by
        simp only [List.length_cons, List.length_nil] at hlow ⊢
        omega
      rw [getElem?_group rest hlow, Option.some_inj] at hi
      rw [getElem?_group rest hlow', Option.some_inj] at hj
      rw [← hj]
      exact hgroup i j hlow hlow' hij hi
    · have hlow' : 4 ≤ i := Nat.le_of_not_lt hlow
      obtain ⟨i, rfl⟩ : ∃ k, i = k + 4 := ⟨i - 4, by omega⟩
      obtain ⟨j, rfl⟩ : ∃ k, j = k + 4 := ⟨j - 4, by omega⟩
      exact hrest i j (by omega) (by omega) hi v hj

theorem quads_cons (a b c d : UInt8) (rest : List UInt8) :
    quads (a :: b :: c :: d :: rest) = (do
      let r ← digits 0 [a, b, c, d]
      let out ← quads rest
      .ok (octets r.1 r.2 ++ out)) := rfl

theorem groups_induction {α : Type} {P : (v : List α) → v.length % 4 = 0 → Prop}
    (nil : P [] rfl)
    (group : ∀ a b c d rest (hrest : rest.length % 4 = 0), P rest hrest →
      P (a :: b :: c :: d :: rest)
        (by rw [List.length_cons, List.length_cons, List.length_cons, List.length_cons]; omega))
    (v : List α) (h : v.length % 4 = 0) : P v h := by
  match v, h with
  | [], _ => exact nil
  | [_], h => simp at h
  | [_, _], h => simp at h
  | [_, _, _], h => simp at h
  | a :: b :: c :: d :: rest, h =>
    have hrest : rest.length % 4 = 0 := by
      simp only [List.length_cons] at h
      omega
    exact group a b c d rest hrest (groups_induction nil group rest hrest)

/-- **The groups pass exactly if every character is legal and the padding is aligned.** -/
theorem quads_ok_iff {v : List UInt8} (h : v.length % 4 = 0) :
    (∃ out, quads v = .ok out) ↔
      (∀ c ∈ v, Legal c.toNat) ∧ Aligned (v.map UInt8.toNat) := by
  induction v, h using groups_induction with
  | nil => simp [quads, Aligned]
  | group a b c d rest hrest ih =>
    have hpads : [a, b, c, d].Pairwise (fun x y => x = pad → y = pad) ↔
        [a.toNat, b.toNat, c.toNat, d.toNat].Pairwise (fun x y => x = 61 → y = 61) := by
      simp only [← toNat_eq_pad]
      exact (List.pairwise_map (R := fun x y => x = 61 → y = 61) (f := UInt8.toNat)
        (l := [a, b, c, d])).symm
    have hdigits := digits_ok_iff 0 [a, b, c, d]
    rw [hpads] at hdigits
    have hsplit : (∃ out, quads (a :: b :: c :: d :: rest) = .ok out) ↔
        (∃ r, digits 0 [a, b, c, d] = .ok r) ∧ ∃ out, quads rest = .ok out := by
      rw [quads_cons]
      cases digits 0 [a, b, c, d] with
      | error f => simp [bind, Except.bind]
      | ok r => cases quads rest <;> simp [bind, Except.bind]
    rw [hsplit, hdigits, ih, List.map_cons, List.map_cons, List.map_cons, List.map_cons,
      aligned_group]
    simp only [List.forall_mem_cons, Nat.lt_irrefl, false_implies, List.not_mem_nil]
    grind

theorem quads_error {v : List UInt8} (h : v.length % 4 = 0) (hf : quads v = .error f) :
    f = .invalidCharacter := by
  induction v, h using groups_induction with
  | nil => cases hf
  | group a b c d rest hrest ih =>
    rw [quads_cons] at hf
    cases hdigits : digits 0 [a, b, c, d] with
    | error f' =>
      rw [hdigits] at hf
      cases hf
      exact digits_error hdigits
    | ok r =>
      rw [hdigits] at hf
      cases hquads : quads rest with
      | error f' =>
        rw [hquads] at hf
        cases hf
        exact ih hquads
      | ok out =>
        rw [hquads] at hf
        cases hf

/-! ### Padding -/

/-- The number of `=` that complete the last group. -/
def missing (n : ℕ) : ℕ := (n + 3) / 4 * 4 - n

def padded (u : List UInt8) : List UInt8 := u ++ List.replicate (missing u.length) pad

theorem length_padded (u : List UInt8) : (padded u).length = (u.length + 3) / 4 * 4 := by
  rw [padded, List.length_append, List.length_replicate, missing]
  omega

theorem aligned_append_pads (u : List ℕ) (k : ℕ) :
    Aligned (u ++ List.replicate k 61) ↔ Aligned u := by
  constructor
  · intro h i j hij hgroup hi v hj
    have hlong : ∀ {m w : ℕ}, u[m]? = some w → (u ++ List.replicate k 61)[m]? = some w := by
      intro m w hm
      rw [List.getElem?_append_left (List.getElem?_eq_some_iff.1 hm).1, hm]
    exact h i j hij hgroup (hlong hi) v (hlong hj)
  · intro h i j hij hgroup hi v hj
    by_cases hlow : j < u.length
    · rw [List.getElem?_append_left hlow] at hj
      rw [List.getElem?_append_left (by omega)] at hi
      exact h i j hij hgroup hi v hj
    · rw [List.getElem?_append_right (by omega), List.getElem?_replicate] at hj
      exact (Option.some_inj.1 (Option.ite_none_right_eq_some.1 hj).2).symm

variable {u : List UInt8}

/-- **What passes the groups of four after the padding.** -/
theorem quads_padded_ok_iff (h : u.length % 4 ≠ 1) :
    (∃ out, quads (padded u) = .ok out) ↔ ¬ Malformed (u.map UInt8.toNat) := by
  have hpads : (padded u).map UInt8.toNat =
      u.map UInt8.toNat ++ List.replicate (missing u.length) 61 := by
    rw [padded, List.map_append, List.map_replicate]
    rfl
  rw [quads_ok_iff (by rw [length_padded]; omega), hpads, aligned_append_pads]
  have hlegal : (∀ c ∈ padded u, Legal c.toNat) ↔ ∀ c ∈ u, Legal c.toNat := by
    constructor
    · exact fun hall c hc => hall c (List.mem_append_left _ hc)
    · intro hall c hc
      rcases List.mem_append.1 hc with hc | hc
      · exact hall c hc
      · rw [List.eq_of_mem_replicate hc]
        exact .inr rfl
  rw [hlegal]
  simp only [Malformed, List.length_map, h, false_or, List.mem_map, not_or, not_exists, not_and,
    not_not]
  simp only [forall_exists_index, and_imp, forall_apply_eq_imp_iff₂]

/-! ### What the groups denote -/

theorem octets_eq {a b c d n : ℕ} (hn : n = a * 262144 + b * 4096 + c * 64 + d) (ha : a < 64)
    (hb : b < 64) (hc : c < 64) (hd : d < 64) (p : ℕ) :
    octets [a, b, c, d] p = .ofNat (n / 65536) ::
      ((if p < 2 then [.ofNat (n / 256 % 256)] else []) ++
        if p < 1 then [.ofNat (n % 256)] else []) := by
  have htriple : a <<< 18 ||| b <<< 12 ||| c <<< 6 ||| d = n := by rw [join4 hb hc hd, hn]
  have hhigh : n / 65536 % 256 = n / 65536 := Nat.mod_eq_of_lt (by omega)
  show [UInt8.ofNat ((a <<< 18 ||| b <<< 12 ||| c <<< 6 ||| d) >>> 16 &&& 0xFF)] ++
    (if p < 2 then [.ofNat ((a <<< 18 ||| b <<< 12 ||| c <<< 6 ||| d) >>> 8 &&& 0xFF)] else []) ++
    (if p < 1 then [.ofNat ((a <<< 18 ||| b <<< 12 ||| c <<< 6 ||| d) &&& 0xFF)] else []) = _
  rw [htriple, and_0xFF, and_0xFF, and_0xFF, Nat.shiftRight_eq_div_pow, Nat.shiftRight_eq_div_pow,
    show (2 : ℕ) ^ 16 = 65536 from rfl, show (2 : ℕ) ^ 8 = 256 from rfl, hhigh]
  rfl

theorem digits_value {p : ℕ} {c : UInt8} {v : ℕ} (h : value c.toNat = some v)
    (rest : List UInt8) :
    digits p (c :: rest) =
      if 0 < p then .error .invalidCharacter else (fun r => (v :: r.1, r.2)) <$> digits p rest := by
  have hne : ¬ c = pad := by
    rintro rfl
    cases value_pad.symm.trans h
  rw [digits_cons, if_neg hne, h]

theorem digits_pad (p : ℕ) (rest : List UInt8) :
    digits p (pad :: rest) = (fun r => (0 :: r.1, r.2)) <$> digits (p + 1) rest := by
  rw [digits_cons, if_pos rfl]

/-- **Digits that are padded by at most two `=` give the bytes they denote.** -/
theorem quads_digits (k : ℕ) (hk : k ≤ 2) (data : List UInt8) (vals : List ℕ)
    (hdata : List.Forall₂ (fun c v => value c.toNat = some v) data vals)
    (hlen : (data.length + k) % 4 = 0) :
    quads (data ++ List.replicate k pad) = .ok (denoted vals) := by
  match data, vals, hdata with
  | _, _, .nil =>
    obtain rfl : k = 0 := by
      rw [List.length_nil] at hlen
      omega
    rfl
  | _, _, .cons _ .nil =>
    rw [List.length_singleton] at hlen
    omega
  | [a, b], [v, w], .cons ha (.cons hb .nil) =>
    obtain rfl : k = 2 := by
      simp only [List.length_cons, List.length_nil] at hlen
      omega
    show quads [a, b, pad, pad] = _
    rw [quads_cons, digits_value ha, digits_value hb, digits_pad, digits_pad]
    show Except.ok (octets [v, w, 0, 0] 2 ++ []) = _
    rw [octets_eq rfl (value_lt ha).1 (value_lt hb).1 (by decide) (by decide)]
    have hbyte : (v * 262144 + w * 4096 + 0 * 64 + 0) / 65536 = (v * 64 + w) / 16 := by omega
    rw [hbyte]
    rfl
  | [a, b, c], [v, w, x], .cons ha (.cons hb (.cons hc .nil)) =>
    obtain rfl : k = 1 := by
      simp only [List.length_cons, List.length_nil] at hlen
      omega
    show quads [a, b, c, pad] = _
    rw [quads_cons, digits_value ha, digits_value hb, digits_value hc, digits_pad]
    show Except.ok (octets [v, w, x, 0] 1 ++ []) = _
    rw [octets_eq rfl (value_lt ha).1 (value_lt hb).1 (value_lt hc).1 (by decide)]
    have hfirst : (v * 262144 + w * 4096 + x * 64 + 0) / 65536 = (v * 4096 + w * 64 + x) / 1024 := by
      omega
    have hsecond : (v * 262144 + w * 4096 + x * 64 + 0) / 256 = (v * 4096 + w * 64 + x) / 4 := by
      omega
    rw [hfirst, hsecond]
    rfl
  | a :: b :: c :: d :: data, v :: w :: x :: y :: vals, .cons ha (.cons hb (.cons hc (.cons hd h))) =>
    have hrest := quads_digits k hk data vals h (by
      simp only [List.length_cons] at hlen
      omega)
    show quads (a :: b :: c :: d :: (data ++ List.replicate k pad)) = _
    rw [quads_cons, digits_value ha, digits_value hb, digits_value hc, digits_value hd, hrest]
    show Except.ok (octets [v, w, x, y] 0 ++ denoted vals) = _
    rw [octets_eq rfl (value_lt ha).1 (value_lt hb).1 (value_lt hc).1 (value_lt hd).1]
    rfl

/-! ### The standard against the groups -/

theorem mapM_value_iff (data vals : List ℕ) :
    data.mapM value = some vals ↔ List.Forall₂ (fun c v => value c = some v) data vals := by
  induction data generalizing vals with
  | nil => cases vals <;> simp [List.mapM_nil]
  | cons c data ih =>
    rw [List.mapM_cons]
    cases hv : value c with
    | none => cases vals <;> simp [hv]
    | some v =>
      cases vals with
      | nil => cases data.mapM value <;> simp
      | cons w vals =>
        rw [List.forall₂_cons, ← ih, hv]
        cases data.mapM value <;> simp

theorem unpadded_cases (u : List ℕ) :
    u = unpadded u ∨ u.length % 4 = 0 ∧ (u = unpadded u ++ [61] ∨ u = unpadded u ++ [61, 61]) := by
  unfold unpadded
  split
  · rename_i hlen
    split
    · rename_i data h
      refine .inr ⟨hlen, .inr ?_⟩
      rw [← List.reverse_reverse u, h]
      simp
    · rename_i data _ h
      refine .inr ⟨hlen, .inl ?_⟩
      rw [← List.reverse_reverse u, h]
      simp
    · exact .inl rfl
  · exact .inl rfl

variable {data : List ℕ}

theorem unpadded_one (h : 61 ∉ data) (hlen : (data ++ [61]).length % 4 = 0) :
    unpadded (data ++ [61]) = data := by
  rw [unpadded, if_pos hlen, List.reverse_append]
  cases hrev : data.reverse with
  | nil =>
    rw [List.reverse_eq_nil_iff.1 hrev]
    rfl
  | cons c rest =>
    have hc : c ≠ 61 := by
      rintro rfl
      exact h (List.mem_reverse.1 (hrev ▸ List.mem_cons_self))
    have hdata : data = (c :: rest).reverse := by rw [← hrev, List.reverse_reverse]
    rw [hdata]
    simp [hc]

theorem unpadded_two (hlen : (data ++ [61, 61]).length % 4 = 0) :
    unpadded (data ++ [61, 61]) = data := by
  rw [unpadded, if_pos hlen, List.reverse_append]
  simp

theorem unpadded_none (h : 61 ∉ data) : unpadded data = data := by
  rcases unpadded_cases data with hsame | ⟨-, hone | htwo⟩
  · exact hsame.symm
  · exact absurd (hone ▸ List.mem_append_right _ (by decide)) h
  · exact absurd (htwo ▸ List.mem_append_right _ (by decide)) h

theorem map_toNat_append {k : ℕ} (h : u.map UInt8.toNat = data ++ List.replicate k 61) :
    ∃ d, u = d ++ List.replicate k pad ∧ d.map UInt8.toNat = data := by
  obtain ⟨d, pads, rfl, hd, hpads⟩ := List.map_eq_append_iff.1 h
  refine ⟨d, ?_, hd⟩
  have hk : pads = List.replicate k pad := by
    rw [List.eq_replicate_iff]
    constructor
    · rw [← List.length_map UInt8.toNat, hpads, List.length_replicate]
    · intro c hc
      have hmem : c.toNat ∈ pads.map UInt8.toNat := List.mem_map_of_mem hc
      rw [hpads] at hmem
      exact toNat_eq_pad.1 (List.eq_of_mem_replicate hmem)
  rw [hk]

theorem exists_partner {α β : Type} {R : α → β → Prop} {l : List α} {r : List β} {x : α}
    (h : List.Forall₂ R l r) (hx : x ∈ l) : ∃ y, R x y := by
  induction h with
  | nil => cases hx
  | cons hxy _ ih =>
    rcases List.mem_cons.1 hx with rfl | hx
    · exact ⟨_, hxy⟩
    · exact ih hx

theorem pad_not_mem {data vals : List ℕ}
    (h : List.Forall₂ (fun c v => value c = some v) data vals) : 61 ∉ data := by
  intro hmem
  obtain ⟨v, hv⟩ := exists_partner h hmem
  cases value_pad.symm.trans hv

variable {bytes : List UInt8}

theorem quads_of_decodeData (h : decodeData (u.map UInt8.toNat) = some bytes) :
    u.length % 4 ≠ 1 ∧ quads (padded u) = .ok bytes ∧ PaddingInPlace (u.map UInt8.toNat) := by
  have hcases := unpadded_cases (u.map UInt8.toNat)
  unfold decodeData at h
  generalize unpadded (u.map UInt8.toNat) = data at hcases h
  obtain ⟨hlen, h⟩ := Option.ite_none_left_eq_some.1 h
  obtain ⟨vals, hvals, rfl⟩ := Option.map_eq_some_iff.1 h
  rw [mapM_value_iff] at hvals
  have hnone := pad_not_mem hvals
  -- The padding is taken off `u` itself.
  have hsplit : ∃ k, k ≤ 2 ∧ (k = 0 ∨ u.length % 4 = 0) ∧
      u.map UInt8.toNat = data ++ List.replicate k 61 := by
    rw [List.length_map] at hcases
    rcases hcases with hsame | ⟨hfour, hone | htwo⟩
    · exact ⟨0, by decide, .inl rfl, by rw [hsame]; exact (List.append_nil _).symm⟩
    · exact ⟨1, by decide, .inr hfour, hone⟩
    · exact ⟨2, by decide, .inr hfour, htwo⟩
  obtain ⟨k, hk, hwhole, hu⟩ := hsplit
  obtain ⟨d, rfl, rfl⟩ := map_toNat_append hu
  rw [List.length_map] at hlen
  rw [List.length_append, List.length_replicate] at hwhole
  have hvals' : List.Forall₂ (fun c v => value c.toNat = some v) d vals :=
    List.forall₂_map_left_iff.1 hvals
  have hfill : padded (d ++ List.replicate k pad) =
      d ++ List.replicate (k + missing (d.length + k)) pad := by
    rw [padded, List.append_assoc, List.length_append, List.length_replicate,
      List.replicate_append_replicate]
  refine ⟨?_, ?_, d.map UInt8.toNat, hnone, ?_⟩
  · rw [List.length_append, List.length_replicate]
    omega
  · rw [hfill]
    exact quads_digits _ (by rw [missing]; omega) d vals hvals' (by rw [missing]; omega)
  · rw [List.length_map, List.length_append, List.length_replicate]
    rcases hcases with hsame | ⟨hfour, hends⟩
    · exact .inl hsame
    · rw [List.length_map, List.length_append, List.length_replicate] at hfour
      exact .inr ⟨hfour, hends⟩

/-- Padding in its place, in a string that is not malformed, leaves a string for the standard. -/
theorem decodeData_of_paddingInPlace {u : List ℕ} (hplace : PaddingInPlace u)
    (h : ¬ Malformed u) : ∃ bytes, decodeData u = some bytes := by
  simp only [Malformed, not_or, not_exists, not_and, not_not] at h
  obtain ⟨hlen, hlegal, -⟩ := h
  obtain ⟨data, hnone, hends⟩ := hplace
  have hdata : unpadded u = data ∧ data.length % 4 ≠ 1 ∧ ∀ c ∈ data, c ∈ u := by
    rcases hends with rfl | ⟨hfour, rfl | rfl⟩
    · exact ⟨unpadded_none hnone, hlen, fun c hc => hc⟩
    · refine ⟨unpadded_one hnone hfour, ?_, fun c hc => List.mem_append_left _ hc⟩
      rw [List.length_append, List.length_singleton] at hfour
      omega
    · refine ⟨unpadded_two hfour, ?_, fun c hc => List.mem_append_left _ hc⟩
      simp only [List.length_append, List.length_cons, List.length_nil] at hfour
      omega
  obtain ⟨hunpadded, hone, hmem⟩ := hdata
  have hdigits : ∀ c ∈ data, value c ≠ none := by
    intro c hc hvalue
    rcases hlegal c (hmem c hc) with hdigit | rfl
    · exact hdigit hvalue
    · exact hnone hc
  have hvals : ∃ vals, List.Forall₂ (fun c v => value c = some v) data vals := by
    clear hends hone hmem hunpadded hnone
    induction data with
    | nil => exact ⟨[], .nil⟩
    | cons c data ih =>
      obtain ⟨v, hv⟩ := Option.ne_none_iff_exists'.1 (hdigits c List.mem_cons_self)
      obtain ⟨vals, hvals⟩ := ih fun c hc => hdigits c (List.mem_cons_of_mem _ hc)
      exact ⟨v :: vals, .cons hv hvals⟩
  obtain ⟨vals, hvals⟩ := hvals
  refine ⟨denoted vals, ?_⟩
  unfold decodeData
  rw [hunpadded, if_neg hone, (mapM_value_iff data vals).2 hvals]
  rfl

/-- The decoding of `atob_impl` after the white space is gone. -/
def groupsDecode (u : List UInt8) : Except Fault (List UInt8) :=
  if u.length % 4 = 1 then .error .invalidCharacter else quads (padded u)

def standardDecode (u : List ℕ) : Except Fault (List UInt8) :=
  match decodeData u with
  | some bytes => .ok bytes
  | none => .error .invalidCharacter

theorem groupsDecode_error (h : groupsDecode u = .error f) : f = .invalidCharacter := by
  unfold groupsDecode at h
  split at h
  · cases h
    rfl
  · exact quads_error (by rw [length_padded]; omega) h

theorem groupsDecode_of_malformed (h : Malformed (u.map UInt8.toNat)) :
    groupsDecode u = .error .invalidCharacter := by
  cases hd : groupsDecode u with
  | error f => rw [groupsDecode_error hd]
  | ok out =>
    unfold groupsDecode at hd
    split at hd
    · cases hd
    · rename_i hlen
      exact absurd h ((quads_padded_ok_iff hlen).1 ⟨out, hd⟩)

/-- **The groups against the standard.** -/
theorem groupsDecode_iff (u : List UInt8) :
    groupsDecode u = standardDecode (u.map UInt8.toNat) ↔
      PaddingInPlace (u.map UInt8.toNat) ∨ Malformed (u.map UInt8.toNat) := by
  unfold standardDecode
  cases hstandard : decodeData (u.map UInt8.toNat) with
  | some bytes =>
    obtain ⟨hlen, hquads, hplace⟩ := quads_of_decodeData hstandard
    refine iff_of_true ?_ (.inl hplace)
    rw [groupsDecode, if_neg hlen, hquads]
  | none =>
    constructor
    · intro h
      refine .inr (Classical.byContradiction fun hwell => ?_)
      have hlen : u.length % 4 ≠ 1 := by
        intro hone
        exact hwell (.inl (by rw [List.length_map]; exact hone))
      obtain ⟨out, hout⟩ := (quads_padded_ok_iff hlen).2 hwell
      rw [groupsDecode, if_neg hlen, hout] at h
      cases h
    · rintro (hplace | hmalformed)
      · by_cases hmalformed : Malformed (u.map UInt8.toNat)
        · exact groupsDecode_of_malformed hmalformed
        · obtain ⟨bytes, hbytes⟩ := decodeData_of_paddingInPlace hplace hmalformed
          rw [hstandard] at hbytes
          cases hbytes
      · exact groupsDecode_of_malformed hmalformed

/-! ### The buffers of `atob` -/

variable {size : ℕ} {written : List UInt8}

theorem write_ok (h : written.length + bytes.length ≤ size) :
    write size written bytes = .ok (written ++ bytes) :=
  if_pos h

theorem stripLoop_eq (clean src : List UInt8)
    (h : clean.length + (src.filter fun c => !isWhiteSpace c).length ≤ size) :
    stripLoop size clean src = .ok (clean ++ src.filter fun c => !isWhiteSpace c) := by
  induction src generalizing clean with
  | nil => simp [stripLoop]
  | cons c src ih =>
    rw [stripLoop]
    cases hc : isWhiteSpace c with
    | true =>
      simp only [List.filter_cons, hc, Bool.not_true, Bool.false_eq_true, if_false, if_true] at h ⊢
      exact ih clean h
    | false =>
      simp only [List.filter_cons, hc, Bool.not_false, Bool.false_eq_true, if_false, if_true,
        List.length_cons] at h ⊢
      rw [write_ok (by rw [List.length_singleton]; omega)]
      show stripLoop size (clean ++ [c]) src = _
      rw [ih (clean ++ [c]) (by rw [List.length_append, List.length_singleton]; omega),
        List.append_assoc]
      rfl

theorem padLoop_eq (clean : List UInt8) (n : ℕ) (h : clean.length + n ≤ size) :
    padLoop size clean n = .ok (clean ++ List.replicate n pad) := by
  induction n generalizing clean with
  | zero => simp [padLoop]
  | succ n ih =>
    rw [padLoop, write_ok (by rw [List.length_singleton]; omega)]
    show padLoop size (clean ++ [pad]) n = _
    rw [ih (clean ++ [pad]) (by rw [List.length_append, List.length_singleton]; omega),
      List.append_assoc]
    rfl

theorem length_octets (vals : List ℕ) (p : ℕ) : (octets vals p).length ≤ 3 := by
  unfold octets
  split_ifs <;> simp

theorem decodeLoop_eq (v : List UInt8) (hv : v.length % 4 = 0) (out : List UInt8)
    (h : out.length + v.length / 4 * 3 ≤ size) :
    decodeLoop size out v = (out ++ ·) <$> quads v := by
  induction v, hv using groups_induction generalizing out with
  | nil =>
    show Except.ok out = .ok (out ++ [])
    rw [List.append_nil]
  | group a b c d rest hrest ih =>
    rw [decodeLoop, quads_cons]
    cases digits 0 [a, b, c, d] with
    | error f => rfl
    | ok r =>
      have hoctets := length_octets r.1 r.2
      simp only [List.length_cons] at h
      show (write size out (octets r.1 r.2) >>= fun out => decodeLoop size out rest) = _
      rw [write_ok (by omega)]
      show decodeLoop size (out ++ octets r.1 r.2) rest = _
      rw [ih (out ++ octets r.1 r.2) (by rw [List.length_append]; omega)]
      cases quads rest with
      | error f => rfl
      | ok more =>
        show Except.ok (out ++ octets r.1 r.2 ++ more) = .ok (out ++ (octets r.1 r.2 ++ more))
        rw [List.append_assoc]

theorem encodeUnit_byte (byte : UInt8) :
    encodeUnit byte.toNat =
      if byte < 0x80 then [byte] else [(0xC0 : UInt8) ||| byte >>> 6, 0x80 ||| byte &&& 0x3F] := by
  have hb := tables.2.2.1 ⟨byte.toNat, byte.toNat_lt⟩
  rwa [show UInt8.ofNat (⟨byte.toNat, byte.toNat_lt⟩ : Fin 256) = byte from UInt8.ofNat_toNat] at hb

theorem resultLoop_eq (result bytes : List UInt8) (h : result.length + bytes.length * 2 ≤ size) :
    resultLoop size result bytes =
      .ok (result ++ bytes.flatMap fun byte => encodeUnit byte.toNat) := by
  induction bytes generalizing result with
  | nil => simp [resultLoop]
  | cons byte rest ih =>
    have hlen : (encodeUnit byte.toNat).length ≤ 2 := by
      rw [encodeUnit_byte]
      split <;> simp
    rw [List.length_cons] at h
    rw [resultLoop, ← encodeUnit_byte, write_ok (by omega)]
    show resultLoop size (result ++ encodeUnit byte.toNat) rest = _
    rw [ih _ (by rw [List.length_append]; omega), List.flatMap_cons, List.append_assoc]

theorem decode_bytes (bytes : List UInt8) :
    Utf16.decode (bytes.flatMap fun byte => encodeUnit byte.toNat) = bytes.map UInt8.toNat := by
  induction bytes with
  | nil => rfl
  | cons byte rest ih =>
    have hlt := byte.toNat_lt
    rw [List.flatMap_cons, decode_encodeUnit (by omega), ih, List.map_cons]

/-- The bytes of a string without the white space. -/
def cleaned (t : List UInt16) : List UInt8 := (toCStringLen t).filter fun c => !isWhiteSpace c

/-- **No access of `atob` is out of range, and its result is the one of the groups.** -/
theorem atob_eq (t : List UInt16) : atob t = binaryString <$> groupsDecode (cleaned t) := by
  have hle : (cleaned t).length ≤ (toCStringLen t).length := List.length_filter_le _ _
  have hstrip : stripLoop (toCStringLen t).length [] (toCStringLen t) = .ok (cleaned t) :=
    stripLoop_eq [] _ (by rw [List.length_nil, Nat.zero_add]; exact hle)
  unfold atob groupsDecode
  simp only [hstrip, bind, Except.bind]
  by_cases hone : (cleaned t).length % 4 = 1
  · rw [if_pos hone, if_pos hone]
    rfl
  · have hagain : enlarge (toCStringLen t) (cleaned t) (((cleaned t).length + 3) / 4 * 4) =
        .ok (cleaned t) := by
      unfold enlarge
      split
      · exact stripLoop_eq [] _ (by
          rw [List.length_nil, Nat.zero_add]
          show (cleaned t).length ≤ _
          omega)
      · rfl
    have hpad : padLoop (max (toCStringLen t).length (((cleaned t).length + 3) / 4 * 4)) (cleaned t)
        (((cleaned t).length + 3) / 4 * 4 - (cleaned t).length) = .ok (padded (cleaned t)) :=
      padLoop_eq _ _ (by omega)
    have hfour : (padded (cleaned t)).length % 4 = 0 := by
      rw [length_padded]
      omega
    rw [if_neg hone, if_neg hone]
    simp only [hagain, hpad]
    rw [decodeLoop_eq _ hfour [] (by rw [List.length_nil]; omega)]
    cases quads (padded (cleaned t)) with
    | error f => rfl
    | ok out =>
      show (resultLoop (out.length * 2) [] out >>= fun result =>
        newStringLen result result.length) = .ok (binaryString out)
      rw [resultLoop_eq [] out (by rw [List.length_nil]; omega)]
      show newStringLen _ _ = _
      rw [newStringLen, if_pos rfl, List.nil_append, decode_bytes, List.map_map]
      rfl

/-! ### Strings of ASCII characters -/

theorem encodeUnits_ascii (us : List ℕ) (h : ∀ u ∈ us, u < 128) :
    encodeUnits us = us.map UInt8.ofNat := by
  induction us with
  | nil => rfl
  | cons u us ih =>
    rw [List.forall_mem_cons] at h
    rw [encodeUnits_cons h.1, ih h.2, List.map_cons]

variable {t : List UInt16}

theorem toCStringLen_ascii (h : ∀ u ∈ t, u.toNat < 128) :
    (toCStringLen t).map UInt8.toNat = t.map UInt16.toNat := by
  rw [toCStringLen, encodeUnits_ascii _ (by simpa using h), List.map_map, List.map_map]
  apply List.map_congr_left
  intro u hu
  exact toNat_ofNat_of_lt ((h u hu).trans (by decide))

theorem cleaned_ascii (h : ∀ u ∈ t, u.toNat < 128) :
    (cleaned t).map UInt8.toNat = stripped (t.map UInt16.toNat) := by
  rw [← toCStringLen_ascii h, cleaned, stripped, List.filter_map]
  congr 1
  apply List.filter_congr
  intro c _
  have hchar : ∀ d : UInt8, c = d ↔ c.toNat = d.toNat := fun d => UInt8.toNat_inj.symm
  simp only [isWhiteSpace, hchar, Function.comp_apply, decide_not]
  rfl

theorem mem_units {u : UInt16} (h : u ∈ t) : ∃ p ∈ join t, u ∈ p.units := by
  rw [← allUnits_join t] at h
  exact List.mem_flatMap.1 h

theorem exists_byte (h : ∃ u ∈ t, 128 ≤ u.toNat) : ∃ b ∈ cleaned t, 128 ≤ b.toNat := by
  obtain ⟨u, hu, hlarge⟩ := h
  obtain ⟨p, hp, hup⟩ := mem_units hu
  have hbyte : ∃ b ∈ p.bytes, 128 ≤ b.toNat := by
    have hbytes := encoded_bytes p
    generalize p.bytes = bytes at hbytes ⊢
    cases hbytes with
    | one hlt ha =>
      cases List.mem_singleton.1 hup
      omega
    | two _ _ ha => exact ⟨_, List.mem_cons_self, by omega⟩
    | three _ ha => exact ⟨_, List.mem_cons_self, by omega⟩
    | four cp _ _ ha => exact ⟨_, List.mem_cons_self, by omega⟩
  obtain ⟨b, hb, hlarge'⟩ := hbyte
  refine ⟨b, List.mem_filter.2 ⟨?_, ?_⟩, hlarge'⟩
  · rw [toCStringLen_eq]
    exact List.mem_flatMap.2 ⟨p, hp, hb⟩
  · rw [Bool.not_eq_true', isWhiteSpace, decide_eq_false_iff_not]
    rintro (rfl | rfl | rfl | rfl | rfl) <;> exact absurd hlarge' (by decide)

variable {c : ℕ}

theorem not_legal (h : 128 ≤ c) : ¬ Legal c := by
  rintro (hdigit | rfl)
  · obtain ⟨v, hv⟩ := Option.ne_none_iff_exists'.1 hdigit
    have hlt := (value_lt hv).2
    omega
  · omega

theorem decodeData_none {u : List ℕ} (hc : c ∈ u) (h : ¬ Legal c) : decodeData u = none := by
  have hdata : c ∈ unpadded u := by
    have hpad : c ≠ 61 := fun heq => h (.inr heq)
    rcases unpadded_cases u with hsame | ⟨-, hone | htwo⟩
    · exact hsame ▸ hc
    · rw [hone] at hc
      simpa [hpad] using hc
    · rw [htwo] at hc
      simpa [hpad] using hc
  cases hd : decodeData u with
  | none => rfl
  | some bytes =>
    unfold decodeData at hd
    obtain ⟨-, hd⟩ := Option.ite_none_left_eq_some.1 hd
    obtain ⟨vals, hvals, -⟩ := Option.map_eq_some_iff.1 hd
    rw [mapM_value_iff] at hvals
    obtain ⟨v, hv⟩ := exists_partner hvals hdata
    exact absurd (.inl (by rw [hv]; exact Option.some_ne_none v)) h

/-- `atob` does what forgiving-base64 decode does: the same bytes, or the exception. -/
def AtobRight (t : List UInt16) : Prop :=
  atob t = binaryString <$> standardDecode (stripped (t.map UInt16.toNat))

theorem binaryString_injective : Function.Injective binaryString := by
  apply Function.Injective.list_map
  intro a b h
  have hnat := congrArg UInt16.toNat h
  simp only [UInt16.toNat_ofNat'] at hnat
  have ha := a.toNat_lt
  have hb := b.toNat_lt
  rw [Nat.mod_eq_of_lt (by omega), Nat.mod_eq_of_lt (by omega)] at hnat
  exact UInt8.toNat_inj.1 hnat

/-- **`atob` decodes as the standard does exactly if the padding is in its place or the string is
refused.** -/
theorem atobRight_iff (t : List UInt16) :
    AtobRight t ↔ PaddingInPlace (stripped (t.map UInt16.toNat)) ∨
      Malformed (stripped (t.map UInt16.toNat)) := by
  have hmap : ∀ x y : Except Fault (List UInt8), binaryString <$> x = binaryString <$> y ↔ x = y := by
    intro x y
    cases x <;> cases y <;>
      simp [Functor.map, Except.map, binaryString_injective.eq_iff]
  rw [AtobRight, atob_eq, hmap]
  by_cases hascii : ∀ u ∈ t, u.toNat < 128
  · rw [← cleaned_ascii hascii]
    exact groupsDecode_iff (cleaned t)
  · push Not at hascii
    obtain ⟨b, hb, hlarge⟩ := exists_byte hascii
    obtain ⟨u, hu, hlarge'⟩ := hascii
    have hmem : u.toNat ∈ stripped (t.map UInt16.toNat) := by
      refine List.mem_filter.2 ⟨List.mem_map_of_mem hu, ?_⟩
      rw [decide_eq_true_iff]
      omega
    refine iff_of_true ?_ (.inr (.inr (.inl ⟨_, hmem, not_legal hlarge'⟩)))
    rw [groupsDecode_of_malformed (.inr (.inl ⟨_, List.mem_map_of_mem hb, not_legal hlarge⟩)),
      standardDecode, decodeData_none hmem (not_legal hlarge')]

/-! ### The Latin-1 passes of `btoa` -/

def latin1 : Piece → Option UInt8
  | .unit u => if u.toNat < 256 then some (.ofNat u.toNat) else none
  | .pair .. => none

theorem latin1_of_lt {u : UInt16} (h : u.toNat < 256) :
    latin1 (.unit u) = some (.ofNat u.toNat) := if_pos h

theorem latin1_of_not_lt {u : UInt16} (h : ¬ u.toNat < 256) : latin1 (.unit u) = none := if_neg h

theorem latin1Length_piece (p : Piece) (more : List UInt8) :
    latin1Length 0 (p.bytes ++ more) =
      if (latin1 p).isSome then (· + 1) <$> latin1Length 0 more else .error .invalidCharacter := by
  have h := encoded_bytes p
  generalize p.bytes = bytes at h ⊢
  cases h with
  | @one u a hlt ha =>
    have hlen : utf8SeqLen a = 1 := by rw [utf8SeqLen_eq, if_pos (by omega)]
    have hsmall : u.toNat < 256 := by omega
    rw [List.singleton_append, latin1Length, hlen, if_neg (by decide), if_neg (by simp),
      latin1_of_lt hsmall]
    rfl
  | @two u a b hlo hhi ha hb =>
    have hlen : utf8SeqLen a = 2 := by
      rw [utf8SeqLen_eq, if_neg (by omega), if_neg (by omega), if_pos (by omega)]
    have hC4 : 2 < 2 ∨ 2 = 2 ∧ 0xC4 ≤ a ↔ 196 ≤ a.toNat := by
      rw [UInt8.le_iff_toNat_le]
      simp
    rw [List.cons_append, latin1Length, hlen, if_neg (by decide)]
    by_cases hsmall : u.toNat < 256
    · rw [if_neg (mt hC4.1 (by omega)), latin1_of_lt hsmall]
      rfl
    · rw [if_pos (hC4.2 (by omega)), latin1_of_not_lt hsmall]
      rfl
  | @three u a b c hlo ha hb hc =>
    have hu : u.toNat < 0x10000 := u.toNat_lt
    have hlen : utf8SeqLen a = 3 := by
      rw [utf8SeqLen_eq, if_neg (by omega), if_neg (by omega), if_neg (by omega), if_pos (by omega)]
    have hlarge : ¬ u.toNat < 256 := by omega
    rw [List.cons_append, latin1Length, hlen, if_neg (by decide), if_pos (.inl (by decide)),
      latin1_of_not_lt hlarge]
    rfl
  | @four _ _ _ _ a b c d cp hlo hhi ha hb hc hd =>
    have hlen : utf8SeqLen a = 4 := by
      rw [utf8SeqLen_eq, if_neg (by omega), if_neg (by omega), if_neg (by omega), if_neg (by omega),
        if_pos (by omega)]
    rw [List.cons_append, latin1Length, hlen, if_neg (by decide), if_pos (.inl (by decide))]
    rfl

/-- **The first pass** counts the characters of a Latin-1 string and refuses any other. -/
theorem latin1Length_eq (ps : List Piece) :
    latin1Length 0 (allBytes ps) =
      if ∀ p ∈ ps, (latin1 p).isSome then .ok ps.length else .error .invalidCharacter := by
  induction ps with
  | nil => rfl
  | cons p ps ih =>
    rw [allBytes_cons, latin1Length_piece, ih]
    cases hp : latin1 p with
    | none => simp [hp]
    | some byte =>
      by_cases hrest : ∀ q ∈ ps, (latin1 q).isSome
      · rw [Option.isSome_some, if_pos rfl, if_pos hrest, if_pos]
        · rfl
        · rw [List.forall_mem_cons, hp]
          exact ⟨rfl, hrest⟩
      · rw [Option.isSome_some, if_pos rfl, if_neg hrest, if_neg]
        · rfl
        · rw [List.forall_mem_cons]
          exact fun h => hrest h.2

variable {n : ℕ}

theorem latin1_bits (h : n < 256) :
    (UInt8.ofNat (192 + n / 64) &&& 0x1F) <<< 6 ||| UInt8.ofNat (128 + n % 64) &&& 0x3F =
      UInt8.ofNat n :=
  tables.2.2.2 ⟨n, h⟩

theorem latin1Fill_piece {p : Piece} {byte : UInt8} (h : latin1 p = some byte)
    (hsize : written.length < size) (more : List UInt8) :
    latin1Fill size 0 written (p.bytes ++ more) = latin1Fill size 0 (written ++ [byte]) more := by
  have hwrite : ∀ b : UInt8, write size written [b] = .ok (written ++ [b]) :=
    fun b => write_ok (by rw [List.length_singleton]; omega)
  have henc := encoded_bytes p
  generalize p.bytes = bytes at henc ⊢
  cases henc with
  | @one u a hlt ha =>
    obtain ⟨-, hbyte⟩ := Option.ite_none_right_eq_some.1 h
    have hlen : utf8SeqLen a = 1 := by rw [utf8SeqLen_eq, if_pos (by omega)]
    rw [← Option.some_inj.1 hbyte, ← ha, UInt8.ofNat_toNat, List.singleton_append, latin1Fill, hlen,
      if_pos rfl, hwrite]
    rfl
  | @two u a b hlo hhi ha hb =>
    obtain ⟨hsmall, hbyte⟩ := Option.ite_none_right_eq_some.1 h
    have hlen : utf8SeqLen a = 2 := by
      rw [utf8SeqLen_eq, if_neg (by omega), if_neg (by omega), if_pos (by omega)]
    have hbits : (a &&& 0x1F) <<< 6 ||| b &&& 0x3F = byte := by
      rw [← Option.some_inj.1 hbyte, ← latin1_bits hsmall, ← ha, ← hb, UInt8.ofNat_toNat,
        UInt8.ofNat_toNat]
    rw [List.cons_append, latin1Fill, hlen, if_neg (by decide), if_pos rfl]
    show (write size written [(a &&& 0x1F) <<< 6 ||| b &&& 0x3F] >>= fun w =>
      latin1Fill size 1 w ([b] ++ more)) = _
    rw [hbits, hwrite]
    rfl
  | three hlo => cases (Option.ite_none_right_eq_some.1 h).1.not_ge (by omega)
  | four => cases h

/-- **The second pass** writes the Latin-1 bytes. -/
theorem latin1Fill_eq {ps : List Piece} (h : List.Forall₂ (fun p b => latin1 p = some b) ps bytes)
    (hsize : written.length + bytes.length ≤ size) :
    latin1Fill size 0 written (allBytes ps) = .ok (written ++ bytes) := by
  induction h generalizing written with
  | nil => simp [latin1Fill]
  | @cons p byte ps bytes hp _ ih =>
    rw [List.length_cons] at hsize
    rw [allBytes_cons, latin1Fill_piece hp (by omega),
      ih (by rw [List.length_append, List.length_singleton]; omega), List.append_assoc]
    rfl

variable {s : List UInt16}

theorem exists_bytes (h : ∀ u ∈ s, u.toNat < 256) :
    ∃ bytes, List.Forall₂ (fun p b => latin1 p = some b) (join s) bytes ∧
      s = binaryString bytes := by
  have hpieces : ∀ ps : List Piece, (∀ u ∈ allUnits ps, u.toNat < 256) →
      ∃ bytes, List.Forall₂ (fun p b => latin1 p = some b) ps bytes ∧
        allUnits ps = binaryString bytes := by
    intro ps hps
    induction ps with
    | nil => exact ⟨[], .nil, rfl⟩
    | cons p ps ih =>
      rw [allUnits_cons, List.forall_mem_append] at hps
      obtain ⟨bytes, hbytes, hunits⟩ := ih hps.2
      cases p with
      | unit u =>
        have hu : u.toNat < 256 := hps.1 u List.mem_cons_self
        refine ⟨.ofNat u.toNat :: bytes, .cons (if_pos hu) hbytes, ?_⟩
        have hback : UInt16.ofNat (UInt8.ofNat u.toNat).toNat = u := by
          rw [toNat_ofNat_of_lt hu, UInt16.ofNat_toNat]
        show u :: allUnits ps = UInt16.ofNat (UInt8.ofNat u.toNat).toNat :: binaryString bytes
        rw [hback, hunits]
      | pair high low hh hl =>
        have hsmall := hps.1 high List.mem_cons_self
        simp only [isHigh, Bool.and_eq_true, decide_eq_true_eq] at hh
        omega
  have hs := hpieces (join s)
  rw [allUnits_join] at hs
  exact hs h

theorem latin1_isSome_iff (s : List UInt16) :
    (∀ p ∈ join s, (latin1 p).isSome) ↔ ∀ u ∈ s, u.toNat < 256 := by
  constructor
  · intro h u hu
    obtain ⟨p, hp, hup⟩ := mem_units hu
    have hsome := h p hp
    cases p with
    | unit v =>
      cases List.mem_singleton.1 hup
      by_contra hlarge
      rw [latin1, if_neg hlarge] at hsome
      cases hsome
    | pair => cases hsome
  · intro h p hp
    obtain ⟨bytes, hbytes, -⟩ := exists_bytes h
    obtain ⟨b, hb⟩ := exists_partner hbytes hp
    rw [hb]
    rfl

/-! ### The encoding loop -/

/-- The characters of a string of bytes, without the buffer. -/
def quartets : List UInt8 → List UInt8
  | a :: b :: c :: rest => quartet a (some b) (some c) ++ quartets rest
  | [a, b] => quartet a (some b) none
  | [a] => quartet a none none
  | [] => []

theorem length_quartets (bytes : List UInt8) :
    (quartets bytes).length = (bytes.length + 2) / 3 * 4 := by
  induction bytes using quartets.induct with
  | case1 a b c rest ih =>
    rw [quartets, List.length_append, ih]
    simp only [quartet, List.length_cons, List.length_nil]
    omega
  | case2 a b => simp [quartets, quartet]
  | case3 a => simp [quartets, quartet]
  | case4 => rfl

theorem encodeLoop_eq (bytes out : List UInt8)
    (h : out.length + (bytes.length + 2) / 3 * 4 ≤ size) :
    encodeLoop size out bytes = .ok (out ++ quartets bytes) := by
  induction bytes using quartets.induct generalizing out with
  | case1 a b c rest ih =>
    have hfour : (quartet a (some b) (some c)).length = 4 := rfl
    simp only [List.length_cons] at h
    rw [encodeLoop, write_ok (by omega)]
    show encodeLoop size (out ++ quartet a (some b) (some c)) rest = _
    rw [ih _ (by rw [List.length_append]; omega), quartets, List.append_assoc]
  | case2 a b =>
    have hfour : (quartet a (some b) none).length = 4 := rfl
    simp only [List.length_cons, List.length_nil] at h
    exact write_ok (by omega)
  | case3 a =>
    have hfour : (quartet a none none).length = 4 := rfl
    simp only [List.length_cons, List.length_nil] at h
    exact write_ok (by omega)
  | case4 =>
    rw [encodeLoop, quartets, List.append_nil]

theorem quartet_eq (a : UInt8) (b c : Option UInt8)
    (hn : n = a.toNat * 65536 + (b.getD 0).toNat * 256 + (c.getD 0).toNat) :
    quartet a b c = [letter (n / 262144), letter (n / 4096 % 64),
      if b.isSome then letter (n / 64 % 64) else pad, if c.isSome then letter (n % 64) else pad] := by
  have ha := a.toNat_lt
  have hb := (b.getD 0).toNat_lt
  have hc := (c.getD 0).toNat_lt
  have hhigh : n / 262144 % 64 = n / 262144 := Nat.mod_eq_of_lt (by omega)
  unfold quartet
  rw [joinBytes (by omega) (by omega), ← hn]
  simp only [and_0x3F, Nat.shiftRight_eq_div_pow]
  rw [show (2 : ℕ) ^ 18 = 262144 from rfl, show (2 : ℕ) ^ 12 = 4096 from rfl,
    show (2 : ℕ) ^ 6 = 64 from rfl, hhigh]

theorem legal_letter (h : i < 64) : Legal (letter i).toNat := by
  refine .inl ?_
  rw [value_letter h]
  exact Option.some_ne_none i

theorem legal_quartet (a : UInt8) (b c : Option UInt8) : ∀ x ∈ quartet a b c, Legal x.toNat := by
  have ha := a.toNat_lt
  have hb := (b.getD 0).toNat_lt
  have hc := (c.getD 0).toNat_lt
  have hpad : Legal pad.toNat := .inr rfl
  rw [quartet_eq a b c rfl]
  intro x hx
  simp only [List.mem_cons, List.not_mem_nil, or_false] at hx
  rcases hx with rfl | rfl | rfl | rfl
  · exact legal_letter (by omega)
  · exact legal_letter (Nat.mod_lt _ (by decide))
  · split
    · exact legal_letter (Nat.mod_lt _ (by decide))
    · exact hpad
  · split
    · exact legal_letter (Nat.mod_lt _ (by decide))
    · exact hpad

theorem legal_quartets (bytes : List UInt8) : ∀ x ∈ quartets bytes, Legal x.toNat := by
  induction bytes using quartets.induct with
  | case1 a b c rest ih =>
    intro x hx
    rcases List.mem_append.1 hx with hx | hx
    · exact legal_quartet _ _ _ x hx
    · exact ih x hx
  | case2 a b => exact legal_quartet _ _ _
  | case3 a => exact legal_quartet _ _ _
  | case4 => simp [quartets]

/-! ### The round trip -/

theorem ofNat_eq {a : UInt8} (h : n = a.toNat) : UInt8.ofNat n = a := by
  rw [h, UInt8.ofNat_toNat]

/-- **Decoding the characters of a string of bytes gives the bytes.** -/
theorem quads_quartets (bytes : List UInt8) : quads (quartets bytes) = .ok bytes := by
  induction bytes using quartets.induct with
  | case1 a b c rest ih =>
    have ha := a.toNat_lt
    have hb := b.toNat_lt
    have hc := c.toNat_lt
    generalize hn : a.toNat * 65536 + b.toNat * 256 + c.toNat = n
    have h0 : n / 262144 < 64 := by omega
    have h1 : n / 4096 % 64 < 64 := Nat.mod_lt _ (by decide)
    have h2 : n / 64 % 64 < 64 := Nat.mod_lt _ (by decide)
    have h3 : n % 64 < 64 := Nat.mod_lt _ (by decide)
    rw [quartets, quartet_eq a (some b) (some c) hn.symm]
    show quads (letter (n / 262144) :: letter (n / 4096 % 64) :: letter (n / 64 % 64) ::
      letter (n % 64) :: quartets rest) = _
    rw [quads_cons, digits_value (value_letter h0), digits_value (value_letter h1),
      digits_value (value_letter h2), digits_value (value_letter h3), ih]
    show Except.ok (octets [n / 262144, n / 4096 % 64, n / 64 % 64, n % 64] 0 ++ rest) = _
    rw [octets_eq (n := n) (by omega) h0 h1 h2 h3]
    show Except.ok (UInt8.ofNat (n / 65536) :: UInt8.ofNat (n / 256 % 256) ::
      UInt8.ofNat (n % 256) :: rest) = _
    rw [ofNat_eq (a := a) (by omega), ofNat_eq (a := b) (by omega), ofNat_eq (a := c) (by omega)]
  | case2 a b =>
    have ha := a.toNat_lt
    have hb := b.toNat_lt
    generalize hn : a.toNat * 65536 + b.toNat * 256 = n
    have h0 : n / 262144 < 64 := by omega
    have h1 : n / 4096 % 64 < 64 := Nat.mod_lt _ (by decide)
    have h2 : n / 64 % 64 < 64 := Nat.mod_lt _ (by decide)
    rw [quartets, quartet_eq a (some b) none (n := n) (by simp [← hn])]
    show quads [letter (n / 262144), letter (n / 4096 % 64), letter (n / 64 % 64), pad] = _
    rw [quads_cons, digits_value (value_letter h0), digits_value (value_letter h1),
      digits_value (value_letter h2), digits_pad]
    show Except.ok (octets [n / 262144, n / 4096 % 64, n / 64 % 64, 0] 1 ++ []) = _
    rw [octets_eq (n := n) (by omega) h0 h1 h2 (by decide)]
    show Except.ok [UInt8.ofNat (n / 65536), UInt8.ofNat (n / 256 % 256)] = _
    rw [ofNat_eq (a := a) (by omega), ofNat_eq (a := b) (by omega)]
  | case3 a =>
    have ha := a.toNat_lt
    generalize hn : a.toNat * 65536 = n
    have h0 : n / 262144 < 64 := by omega
    have h1 : n / 4096 % 64 < 64 := Nat.mod_lt _ (by decide)
    rw [quartets, quartet_eq a none none (n := n) (by simp [← hn])]
    show quads [letter (n / 262144), letter (n / 4096 % 64), pad, pad] = _
    rw [quads_cons, digits_value (value_letter h0), digits_value (value_letter h1), digits_pad,
      digits_pad]
    show Except.ok (octets [n / 262144, n / 4096 % 64, 0, 0] 2 ++ []) = _
    rw [octets_eq (n := n) (by omega) h0 h1 (by decide) (by decide)]
    show Except.ok [UInt8.ofNat (n / 65536)] = _
    rw [ofNat_eq (a := a) (by omega)]
  | case4 => rfl

theorem map_toNat_binaryString (bytes : List UInt8) :
    (binaryString bytes).map UInt16.toNat = bytes.map UInt8.toNat := by
  rw [binaryString, List.map_map]
  apply List.map_congr_left
  intro b _
  have hb := b.toNat_lt
  rw [Function.comp_apply, UInt16.toNat_ofNat']
  exact Nat.mod_eq_of_lt (by omega)

theorem cleaned_binaryString {e : List UInt8} (h : ∀ x ∈ e, Legal x.toNat) :
    cleaned (binaryString e) = e := by
  have hascii : ∀ u ∈ binaryString e, u.toNat < 128 := by
    intro u hu
    have hmem : u.toNat ∈ (binaryString e).map UInt16.toNat := List.mem_map_of_mem hu
    rw [map_toNat_binaryString] at hmem
    obtain ⟨x, hx, hxu⟩ := List.mem_map.1 hmem
    rw [← hxu]
    by_contra hlarge
    exact not_legal (Nat.le_of_not_lt hlarge) (h x hx)
  have hinj : Function.Injective UInt8.toNat := fun _ _ => UInt8.toNat_inj.1
  apply hinj.list_map
  rw [cleaned_ascii hascii, map_toNat_binaryString, stripped, List.filter_eq_self]
  intro c hc
  obtain ⟨x, hx, rfl⟩ := List.mem_map.1 hc
  have hlegal := h x hx
  rw [decide_eq_true_iff]
  have hspace : ∀ d : ℕ, d = 32 ∨ d = 9 ∨ d = 10 ∨ d = 13 ∨ d = 12 → ¬ Legal d := by
    rintro d (rfl | rfl | rfl | rfl | rfl) (hd | hd) <;> revert hd <;> decide
  exact fun hd => hspace _ hd hlegal

theorem atob_quartets (bytes : List UInt8) :
    atob (binaryString (quartets bytes)) = .ok (binaryString bytes) := by
  have hfour : (quartets bytes).length % 4 = 0 := by
    rw [length_quartets]
    omega
  have hpadded : padded (quartets bytes) = quartets bytes := by
    have hzero : missing (quartets bytes).length = 0 := by
      rw [missing]
      omega
    rw [padded, hzero]
    exact List.append_nil _
  rw [atob_eq, cleaned_binaryString (legal_quartets bytes), groupsDecode, if_neg (by omega),
    hpadded, quads_quartets]
  rfl

theorem btoa_binaryString (h : List.Forall₂ (fun p b => latin1 p = some b) (join s) bytes) :
    btoa s = .ok (binaryString (quartets bytes)) := by
  have hall : ∀ p ∈ join s, (latin1 p).isSome := by
    intro p hp
    obtain ⟨b, hb⟩ := exists_partner h hp
    rw [hb]
    rfl
  have hlen : (join s).length = bytes.length := h.length_eq
  have hlength : latin1Length 0 (toCStringLen s) = .ok bytes.length := by
    rw [toCStringLen_eq, latin1Length_eq, if_pos hall, hlen]
  have hfill : latin1Fill bytes.length 0 [] (toCStringLen s) = .ok bytes := by
    rw [toCStringLen_eq]
    exact latin1Fill_eq h (by rw [List.length_nil]; omega)
  have hencode : encodeLoop ((bytes.length + 2) / 3 * 4) [] bytes = .ok (quartets bytes) :=
    encodeLoop_eq bytes [] (by rw [List.length_nil]; omega)
  have hdecode : Utf16.decode (quartets bytes) = (quartets bytes).map UInt8.toNat := by
    have hflat : (quartets bytes).flatMap (fun byte => encodeUnit byte.toNat) = quartets bytes := by
      conv_rhs => rw [← List.flatMap_singleton' (quartets bytes)]
      apply List.flatMap_congr
      intro x hx
      have hlt : ¬ 128 ≤ x.toNat := fun hlarge => not_legal hlarge (legal_quartets bytes x hx)
      rw [encodeUnit, if_pos (by omega), UInt8.ofNat_toNat]
    conv_lhs => rw [← hflat]
    exact decode_bytes _
  unfold btoa
  simp only [hlength, hfill, hencode, bind, Except.bind]
  rw [newStringLen, if_pos (length_quartets bytes), hdecode, List.map_map]
  rfl

theorem btoa_refuses (h : ¬ ∀ u ∈ s, u.toNat < 256) : btoa s = .error .invalidCharacter := by
  have hlength : latin1Length 0 (toCStringLen s) = .error .invalidCharacter := by
    rw [toCStringLen_eq, latin1Length_eq, if_neg (mt (latin1_isSome_iff s).1 h)]
  unfold btoa
  simp only [hlength, bind, Except.bind]

/-- `btoa` refuses exactly the strings with a character above `0xFF`, and `atob` undoes it. -/
def BtoaRight (s : List UInt16) : Prop :=
  (btoa s = .error .invalidCharacter ↔ ∃ u ∈ s, 0xFF < u.toNat) ∧
    ((∀ u ∈ s, u.toNat ≤ 0xFF) → ∃ e, btoa s = .ok e ∧ atob e = .ok s)

theorem btoaRight (s : List UInt16) : BtoaRight s := by
  by_cases h : ∀ u ∈ s, u.toNat < 256
  · obtain ⟨bytes, hbytes, hs⟩ := exists_bytes h
    have hok := btoa_binaryString hbytes
    refine ⟨iff_of_false (by rw [hok]; exact fun he => by cases he) ?_, fun _ =>
      ⟨_, hok, by rw [atob_quartets, ← hs]⟩⟩
    rintro ⟨u, hu, hlarge⟩
    exact absurd (h u hu) (by omega)
  · have herror := btoa_refuses h
    push Not at h
    obtain ⟨u, hu, hlarge⟩ := h
    exact ⟨iff_of_true herror ⟨u, hu, by omega⟩, fun hall => absurd (hall u hu) (by omega)⟩

theorem atob_in_range (t : List UInt16) : atob t ≠ .error .outOfRange := by
  rw [atob_eq]
  cases h : groupsDecode (cleaned t) with
  | error f =>
    rw [groupsDecode_error h]
    exact fun he => by cases he
  | ok out => exact fun he => by cases he

/-- **`btoa` is right for every string, `atob` exactly for the strings whose padding is in its place
or that it refuses.** -/
theorem base64_codec (s t : List UInt16) :
    BtoaRight s ∧ atob t ≠ .error .outOfRange ∧
      (AtobRight t ↔ PaddingInPlace (stripped (t.map UInt16.toNat)) ∨
        Malformed (stripped (t.map UInt16.toNat))) :=
  ⟨btoaRight s, atob_in_range t, atobRight_iff t⟩

/-- Four `=` are decoded to a byte. -/
theorem atob_only_padding :
    atob [0x3D, 0x3D, 0x3D, 0x3D] = .ok [0] ∧
      forgivingDecode [0x3D, 0x3D, 0x3D, 0x3D] = none ∧ ¬ AtobRight [0x3D, 0x3D, 0x3D, 0x3D] := by
  have hruns : atob [0x3D, 0x3D, 0x3D, 0x3D] = .ok [0] ∧
      forgivingDecode [0x3D, 0x3D, 0x3D, 0x3D] = none ∧
      standardDecode (stripped (([0x3D, 0x3D, 0x3D, 0x3D] : List UInt16).map UInt16.toNat)) =
        .error .invalidCharacter := by decide +kernel
  refine ⟨hruns.1, hruns.2.1, fun h => ?_⟩
  rw [AtobRight, hruns.1, hruns.2.2] at h
  cases h

end QuickBeam.Text.Base64
