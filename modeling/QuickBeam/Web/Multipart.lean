import QuickBeam.Text.Encoder

/-!
# Multipart bodies (`priv/ts/fetch.ts`)

`formDataToBytes` writes the entries of a form one after the other, each behind a line with the
boundary and its headers.  Names, file names and types are put into the headers as they are.  The
body is read back with the parser of the fetch standard, in which `%0A`, `%0D` and `%22` in a quoted
name stand for the characters that would end it.
-/

namespace QuickBeam.Web.Multipart

open QuickBeam.Vm.Program QuickBeam.Vm.Runtime QuickBeam.Text.Encoder
open QuickBeam.Text.Utf8Replacement (WellFormed)

/-! ### Forms -/

/-- `normalizeType` of `blob.ts`. -/
def normalizeType (raw : Binary) : Binary :=
  if raw.all fun b => 0x20 ≤ b ∧ b ≤ 0x7E then
    raw.map fun b => if 0x41 ≤ b ∧ b ≤ 0x5A then b + 0x20 else b
  else []

/-- A `File`; its type is one that `normalizeType` has let through. -/
structure File where
  name : List UInt16
  type : Binary
  bytes : Binary
  type_normal : normalizeType type = type

inductive Value where
  | text (s : List UInt16)
  | file (f : File)

structure Entry where
  name : List UInt16
  value : Value

/-- The digits of `Math.random().toString(36)`. -/
def isBase36 (b : UInt8) : Bool := 0x30 ≤ b ∧ b ≤ 0x39 ∨ 0x61 ≤ b ∧ b ≤ 0x7A

/-- The random part of a boundary. -/
structure Suffix where
  digits : Binary
  base36 : ∀ b ∈ digits, isBase36 b = true

def boundary (suffix : Suffix) : Binary := .ofString "----QuickBEAMFormBoundary" ++ suffix.digits

def setAt (result chunk : Binary) (offset : ℕ) : Binary :=
  result.take offset ++ chunk ++ result.drop (offset + chunk.length)

/-- The second loop of `concatChunks`. -/
def setChunks (result : Binary) (offset : ℕ) : List Binary → Binary
  | [] => result
  | chunk :: chunks => setChunks (setAt result chunk offset) (offset + chunk.length) chunks

def concatChunks (chunks : List Binary) : Binary :=
  let total := chunks.foldl (fun total chunk => total + chunk.length) 0
  setChunks (List.replicate total 0) 0 chunks

def crlf : Binary := [0x0D, 0x0A]

def octetStream : Binary := .ofString "application/octet-stream"

def lit (s : String) : List UInt16 := wide (Binary.ofString s)

def entryChunks (suffix : Suffix) (entry : Entry) : List Binary :=
  [encode (lit "--" ++ wide (boundary suffix) ++ wide crlf)] ++
    (match entry.value with
      | .text s =>
          [encode (lit "Content-Disposition: form-data; name=\"" ++ entry.name ++ lit "\"" ++
            wide crlf ++ wide crlf), encode s]
      | .file f =>
          let type := if f.type = [] then octetStream else f.type
          [encode (lit "Content-Disposition: form-data; name=\"" ++ entry.name ++
            lit "\"; filename=\"" ++ f.name ++ lit "\"" ++ wide crlf ++ lit "Content-Type: " ++
            wide type ++ wide crlf ++ wide crlf), f.bytes]) ++
    [encode (wide crlf)]

def formDataToBytes (suffix : Suffix) (body : List Entry) : Binary :=
  concatChunks (body.flatMap (entryChunks suffix) ++
    [encode (lit "--" ++ wide (boundary suffix) ++ lit "--" ++ wide crlf)])

/-! ### The parser of the standard -/

/-- Collecting a sequence of bytes: the leading ones with a property, and the others. -/
def collect (p : UInt8 → Bool) (input : Binary) : Binary × Binary :=
  (input.takeWhile p, input.dropWhile p)

/-- The input behind a sequence that the position points to. -/
def after (sequence input : Binary) : Option Binary :=
  if sequence <+: input then some (input.drop sequence.length) else none

def quote : UInt8 := 0x22

def isLineEnd (b : UInt8) : Bool := b = 0x0A ∨ b = 0x0D

def isBlank (b : UInt8) : Bool := b = 0x09 ∨ b = 0x20

def trimEnd (bytes : Binary) : Binary := (bytes.reverse.dropWhile isBlank).reverse

/-- The three escapes of a name. -/
def unescape : Binary → Binary
  | 0x25 :: 0x30 :: 0x41 :: rest => 0x0A :: unescape rest
  | 0x25 :: 0x30 :: 0x44 :: rest => 0x0D :: unescape rest
  | 0x25 :: 0x32 :: 0x32 :: rest => quote :: unescape rest
  | b :: rest => b :: unescape rest
  | [] => []

/-- Parse a name; the position is behind the opening quote. -/
def parseName (input : Binary) : Option (Binary × Binary) :=
  match collect (fun b => !isLineEnd b && b != quote) input with
  | (name, b :: rest) => if b = quote then some (unescape name, rest) else none
  | (_, []) => none

structure Headers where
  name : Option Binary := none
  filename : Option Binary := none
  contentType : Option Binary := none

/-- The value of a `Content-Disposition` header. -/
def disposition (st : Headers) (input : Binary) : Option (Headers × Binary) := do
  let input ← after (.ofString "form-data; name=\"") input
  let (name, rest) ← parseName input
  match after (.ofString "; filename=\"") rest with
  | some rest => do
      let (filename, rest) ← parseName rest
      some ({ st with name := some name, filename := some filename }, rest)
  | none => some ({ st with name := some name, filename := none }, rest)

/-- A byte of a field name. -/
def isToken (b : UInt8) : Bool :=
  isBase36 b || (0x41 ≤ b && b ≤ 0x5A) || (Binary.ofString "!#$%&'*+-.^_`|~").contains b

def lower (bytes : Binary) : Binary :=
  bytes.map fun b => if 0x41 ≤ b ∧ b ≤ 0x5A then b + 0x20 else b

def headerValue (field : Binary) (st : Headers) (input : Binary) : Option (Headers × Binary) :=
  if field = .ofString "content-disposition" then disposition st input
  else
    let (value, rest) := collect (fun b => !isLineEnd b) input
    if field = .ofString "content-type" then
      some ({ st with contentType := some (trimEnd value) }, rest)
    else some (st, rest)

/-- Parse the headers of a part, up to the empty line; `fuel` bounds the number of lines. -/
def parseHeaders : ℕ → Headers → Binary → Option (Headers × Binary)
  | 0, _, _ => none
  | fuel + 1, st, input =>
      if crlf <+: input then if st.name.isSome then some (st, input) else none
      else
        let (raw, rest) := collect (fun b => !isLineEnd b && b != 0x3A) input
        let field := trimEnd (raw.dropWhile isBlank)
        if field = [] ∨ ¬ field.all isToken then none
        else
          match rest with
          | 0x3A :: rest => do
              let (st, rest) ← headerValue (lower field) st (rest.dropWhile isBlank)
              parseHeaders fuel st (← after crlf rest)
          | _ => none

def before (sequence : Binary) : Binary → Option Binary
  | [] => if sequence = [] then some [] else none
  | b :: rest =>
      if sequence <+: b :: rest then some [] else (before sequence rest).map (b :: ·)

inductive Part where
  | text (name value : Binary)
  | file (name filename type bytes : Binary)
deriving DecidableEq

def entryOf (st : Headers) (name body : Binary) : Part :=
  match st.filename with
  | some filename =>
      let type := st.contentType.getD (.ofString "text/plain")
      .file name filename (if type.all (· < 0x80) then type else []) body
  | none => .text name body

/-- One part, behind the line with the boundary: its headers, and its body up to the next
boundary, whose line begins four bytes before the boundary itself. -/
def parsePart (mark : Binary) (input : Binary) : Option (Part × Binary) := do
  let input ← after crlf input
  let (st, rest) ← parseHeaders input.length {} input
  let name ← st.name
  let rest ← after crlf rest
  let front ← before mark rest
  if front.length < 4 then none
  else
    let tail ← after crlf (rest.drop (front.length - 4))
    some (entryOf st name (rest.take (front.length - 4)), tail)

/-- The loop over the parts; `fuel` bounds their number. -/
def parseParts (mark : Binary) : ℕ → Binary → Option (List Part)
  | fuel, input => do
      let rest ← after (.ofString "--" ++ mark) input
      if rest = .ofString "--" ++ crlf then some []
      else
        match fuel with
        | 0 => none
        | fuel + 1 => do
            let (part, rest) ← parsePart mark rest
            let parts ← parseParts mark fuel rest
            some (part :: parts)

def parse (mark input : Binary) : Option (List Part) := parseParts mark input.length input

/-! ### What is given back -/

def IsUtf8 (bytes : Binary) (s : List UInt16) : Prop := bytes = toCStringLen s ∧ WellFormed bytes

def Describes : Part → Entry → Prop
  | .text name value, ⟨name', .text s⟩ => IsUtf8 name name' ∧ IsUtf8 value s
  | .file name filename type bytes, ⟨name', .file f⟩ =>
      IsUtf8 name name' ∧ IsUtf8 filename f.name ∧ type = f.type ∧ bytes = f.bytes
  | _, _ => False

def GivesBack (suffix : Suffix) (entries : List Entry) : Prop :=
  ∃ parts, parse (boundary suffix) (formDataToBytes suffix entries) = some parts ∧
    List.Forall₂ Describes parts entries

def Value.bytes : Value → Binary
  | .text s => toCStringLen s
  | .file f => f.bytes

def escapes : List Binary := [[0x25, 0x30, 0x41], [0x25, 0x30, 0x44], [0x25, 0x32, 0x32]]

/-- A name without lone surrogates, line ends, quotes and escapes. -/
def NameGood (name : List UInt16) : Prop :=
  WellFormed (toCStringLen name) ∧
    (∀ b ∈ toCStringLen name, isLineEnd b = false ∧ b ≠ quote) ∧
    ∀ e ∈ escapes, ¬ e <:+: toCStringLen name

/-- A type that is not empty and has no blank at either end. -/
def TypeGood (type : Binary) : Prop :=
  type ≠ [] ∧ (∀ b ∈ type.head?, isBlank b = false) ∧ ∀ b ∈ type.getLast?, isBlank b = false

def Good (entry : Entry) : Prop :=
  NameGood entry.name ∧
    match entry.value with
    | .text s => WellFormed (toCStringLen s)
    | .file f => NameGood f.name ∧ TypeGood f.type

/-! ### The chunks -/

theorem setChunks_eq (chunks : List Binary) (front rest : Binary)
    (h : rest.length = (chunks.map List.length).sum) :
    setChunks (front ++ rest) front.length chunks = front ++ chunks.flatten := by
  induction chunks generalizing front rest with
  | nil =>
    have hnil : rest = [] := List.length_eq_zero_iff.1 (by simpa using h)
    rw [hnil]
    rfl
  | cons chunk chunks ih =>
    rw [List.map_cons, List.sum_cons] at h
    have hset : setAt (front ++ rest) chunk front.length =
        front ++ chunk ++ rest.drop chunk.length := by
      rw [setAt, List.take_left, List.drop_append, Nat.add_sub_cancel_left,
        List.drop_of_length_le (by omega), List.nil_append]
    have hrest := ih (front ++ chunk) (rest.drop chunk.length) (by rw [List.length_drop]; omega)
    rw [setChunks, hset, ← List.length_append, hrest, List.flatten_cons, List.append_assoc]

/-- **Concatenating the chunks** puts one behind the other. -/
theorem concatChunks_eq (chunks : List Binary) : concatChunks chunks = chunks.flatten := by
  have htotal : ∀ (n : ℕ), chunks.foldl (fun total chunk => total + chunk.length) n =
      n + (chunks.map List.length).sum := by
    induction chunks with
    | nil => exact fun n => rfl
    | cons chunk chunks ih =>
      intro n
      rw [List.foldl_cons, ih, List.map_cons, List.sum_cons, Nat.add_assoc]
  have h := setChunks_eq chunks []
    (List.replicate (chunks.foldl (fun total chunk => total + chunk.length) 0) 0)
    (by rw [List.length_replicate, htotal, Nat.zero_add])
  exact h

def nameField : Binary := .ofString "Content-Disposition: form-data; name=\""

def filenameField : Binary := .ofString "; filename=\""

def typeField : Binary := .ofString "Content-Type: "

def Unbroken (bytes : Binary) : Prop := ∀ b ∈ bytes, isLineEnd b = false

def FieldName (raw : Binary) : Prop :=
  ¬ crlf <+: raw ∧ 2 ≤ raw.length ∧ (∀ b ∈ raw, (!isLineEnd b && b != 0x3A) = true) ∧
    trimEnd (raw.dropWhile isBlank) = raw ∧ raw.all isToken = true

/-- The bytes of a list are looked at, not all bytes. -/
local instance {p : UInt8 → Prop} [DecidablePred p] (l : Binary) : Decidable (∀ b ∈ l, p b) :=
  List.decidableBAll p l

theorem literals :
    ((∀ b ∈ Binary.ofString "--", b.toNat < 128) ∧
      (∀ b ∈ Binary.ofString "\"", b.toNat < 128) ∧ (∀ b ∈ crlf, b.toNat < 128) ∧
      (∀ b ∈ Binary.ofString "Content-Disposition: form-data; name=\"", b.toNat < 128) ∧
      (∀ b ∈ Binary.ofString "\"; filename=\"", b.toNat < 128) ∧
      (∀ b ∈ Binary.ofString "Content-Type: ", b.toNat < 128) ∧
      (∀ b ∈ octetStream, b.toNat < 128) ∧
      ∀ b ∈ Binary.ofString "----QuickBEAMFormBoundary", b.toNat < 128) ∧
    (Unbroken (Binary.ofString "form-data; name=\"") ∧ Unbroken filenameField ∧
      Unbroken (Binary.ofString "Content-Disposition" ++ [0x3A, 0x20]) ∧ Unbroken [quote] ∧
      Unbroken octetStream) ∧
    (FieldName (Binary.ofString "Content-Disposition") ∧ FieldName (Binary.ofString "Content-Type") ∧
      lower (Binary.ofString "Content-Disposition") = Binary.ofString "content-disposition" ∧
      lower (Binary.ofString "Content-Type") = Binary.ofString "content-type" ∧
      nameField = Binary.ofString "Content-Disposition" ++
        0x3A :: 0x20 :: Binary.ofString "form-data; name=\"" ∧
      typeField = Binary.ofString "Content-Type" ++ [0x3A, 0x20]) ∧
    trimEnd (octetStream.dropWhile isBlank) = octetStream ∧
      octetStream.all (· < 0x80) = true ∧ octetStream ≠ [] := by
  unfold FieldName Unbroken
  decide +kernel

theorem ascii_literals :
    (∀ b ∈ Binary.ofString "--", b.toNat < 128) ∧
      (∀ b ∈ Binary.ofString "\"", b.toNat < 128) ∧ (∀ b ∈ crlf, b.toNat < 128) ∧
      (∀ b ∈ Binary.ofString "Content-Disposition: form-data; name=\"", b.toNat < 128) ∧
      (∀ b ∈ Binary.ofString "\"; filename=\"", b.toNat < 128) ∧
      (∀ b ∈ Binary.ofString "Content-Type: ", b.toNat < 128) ∧
      (∀ b ∈ octetStream, b.toNat < 128) ∧
      ∀ b ∈ Binary.ofString "----QuickBEAMFormBoundary", b.toNat < 128 :=
  literals.1

theorem ascii_boundary (suffix : Suffix) : ∀ b ∈ boundary suffix, b.toNat < 128 := by
  intro b hb
  rcases List.mem_append.1 hb with hb | hb
  · exact ascii_literals.2.2.2.2.2.2.2 b hb
  · have hdigit := suffix.base36 b hb
    simp only [isBase36, decide_eq_true_eq, UInt8.le_iff_toNat_le] at hdigit
    have h9 : (0x39 : UInt8).toNat = 57 := rfl
    have hz : (0x7A : UInt8).toNat = 122 := rfl
    omega

theorem printable_type (f : File) : ∀ b ∈ f.type, 0x20 ≤ b.toNat ∧ b.toNat ≤ 0x7E := by
  intro b hb
  have hnormal := f.type_normal
  unfold normalizeType at hnormal
  split at hnormal
  · rename_i hall
    have hprintable := List.all_eq_true.1 hall b hb
    simpa [UInt8.le_iff_toNat_le] using hprintable
  · rw [← hnormal] at hb
    cases hb

def writtenType (f : File) : Binary := if f.type = [] then octetStream else f.type

theorem ascii_writtenType (f : File) : ∀ b ∈ writtenType f, b.toNat < 128 := by
  intro b hb
  unfold writtenType at hb
  split at hb
  · exact ascii_literals.2.2.2.2.2.2.1 b hb
  · have hprintable := printable_type f b hb
    omega

/-- The lines of the headers of an entry, without the last line end. -/
def headerBytes (entry : Entry) : Binary :=
  nameField ++ (toCStringLen entry.name ++ quote ::
    match entry.value with
    | .text _ => []
    | .file f =>
        filenameField ++ (toCStringLen f.name ++ quote :: (crlf ++ (typeField ++ writtenType f))))

/-- The bytes of an entry behind the boundary of its line. -/
def partBytes (entry : Entry) : Binary :=
  crlf ++ (headerBytes entry ++ (crlf ++ (crlf ++ (entry.value.bytes ++ crlf))))

variable {bytes : Binary}

theorem encode_wide (h : ∀ b ∈ bytes, b.toNat < 128) : encode (wide bytes) = bytes := by
  have hwide := toCStringLen_wide h []
  rw [List.append_nil] at hwide
  rw [encode, hwide]
  exact List.append_nil _

theorem encode_between {front back : Binary} (hfront : ∀ b ∈ front, b.toNat < 128)
    (hback : ∀ b ∈ back, b.toNat < 128) (hne : back ≠ []) (s rest : List UInt16) :
    toCStringLen (wide front ++ (s ++ (wide back ++ rest))) =
      front ++ (toCStringLen s ++ (back ++ toCStringLen rest)) := by
  rw [toCStringLen_wide hfront, toCStringLen_append_wide s hback hne]

theorem wide_append (a b : Binary) : wide (a ++ b) = wide a ++ wide b := List.map_append

theorem ascii_append {a b : Binary} (ha : ∀ x ∈ a, x.toNat < 128) (hb : ∀ x ∈ b, x.toNat < 128) :
    ∀ x ∈ a ++ b, x.toNat < 128 := by
  intro x hx
  rcases List.mem_append.1 hx with hx | hx
  · exact ha x hx
  · exact hb x hx

theorem flatten_entryChunks (suffix : Suffix) (entry : Entry) :
    (entryChunks suffix entry).flatten =
      (Binary.ofString "--" ++ boundary suffix) ++ partBytes entry := by
  obtain ⟨hdashes, hquote, hcrlf, hname, hfilename, htype, -, -⟩ := ascii_literals
  have hboundary := ascii_boundary suffix
  have hline : encode (lit "--" ++ wide (boundary suffix) ++ wide crlf) =
      (Binary.ofString "--" ++ boundary suffix) ++ crlf := by
    rw [lit, ← wide_append, ← wide_append]
    exact encode_wide (ascii_append (ascii_append hdashes hboundary) hcrlf)
  have hend : encode (wide crlf) = crlf := encode_wide hcrlf
  obtain ⟨name, value⟩ := entry
  cases value with
  | text v =>
    have hheader : encode (lit "Content-Disposition: form-data; name=\"" ++ name ++ lit "\"" ++
        wide crlf ++ wide crlf) = nameField ++ (toCStringLen name ++ (quote :: (crlf ++ crlf))) := by
      have hback := encode_between hname (ascii_append hquote (ascii_append hcrlf hcrlf))
        (by simp [crlf]) name []
      rw [List.append_nil, wide_append, wide_append] at hback
      simp only [lit, List.append_assoc, encode]
      rw [hback]
      show nameField ++ (toCStringLen name ++ (Binary.ofString "\"" ++ (crlf ++ crlf) ++ [])) = _
      rw [List.append_nil]
      rfl
    have hchunks : entryChunks suffix ⟨name, .text v⟩ =
        [encode (lit "--" ++ wide (boundary suffix) ++ wide crlf)] ++
          [encode (lit "Content-Disposition: form-data; name=\"" ++ name ++ lit "\"" ++ wide crlf ++
            wide crlf), encode v] ++ [encode (wide crlf)] := rfl
    rw [hchunks, hline, hheader, hend]
    simp only [partBytes, headerBytes, Value.bytes, encode, List.cons_append, List.nil_append,
      List.flatten_cons, List.flatten_nil, List.append_assoc, List.append_nil]
  | file f =>
    have htypeBytes := ascii_writtenType f
    have hheader : encode (lit "Content-Disposition: form-data; name=\"" ++ name ++
        lit "\"; filename=\"" ++ f.name ++ lit "\"" ++ wide crlf ++ lit "Content-Type: " ++
        wide (writtenType f) ++ wide crlf ++ wide crlf) =
          nameField ++ (toCStringLen name ++ (quote :: (filenameField ++ (toCStringLen f.name ++
            (quote :: (crlf ++ (typeField ++ (writtenType f ++ (crlf ++ crlf))))))))) := by
      have hrest := ascii_append hquote (ascii_append hcrlf (ascii_append htype
        (ascii_append htypeBytes (ascii_append hcrlf hcrlf))))
      have hfile := toCStringLen_append_wide f.name hrest (by simp [crlf]) []
      have hback := encode_between hname hfilename (by decide) name
        (f.name ++ (wide (Binary.ofString "\"" ++ (crlf ++ (Binary.ofString "Content-Type: " ++
          (writtenType f ++ (crlf ++ crlf))))) ++ []))
      rw [hfile] at hback
      simp only [wide_append, List.append_nil, List.append_assoc] at hback
      simp only [lit, List.append_assoc, encode]
      rw [hback]
      show nameField ++ (toCStringLen name ++ (Binary.ofString "\"; filename=\"" ++
        (toCStringLen f.name ++ (Binary.ofString "\"" ++ (crlf ++ (typeField ++
          (writtenType f ++ (crlf ++ (crlf ++ [])))))))))  = _
      rw [List.append_nil]
      rfl
    have hchunks : entryChunks suffix ⟨name, .file f⟩ =
        [encode (lit "--" ++ wide (boundary suffix) ++ wide crlf)] ++
          [encode (lit "Content-Disposition: form-data; name=\"" ++ name ++
            lit "\"; filename=\"" ++ f.name ++ lit "\"" ++ wide crlf ++ lit "Content-Type: " ++
            wide (writtenType f) ++ wide crlf ++ wide crlf), f.bytes] ++ [encode (wide crlf)] := rfl
    rw [hchunks, hline, hheader, hend]
    simp only [partBytes, headerBytes, Value.bytes, List.cons_append, List.nil_append,
      List.flatten_cons, List.flatten_nil, List.append_assoc, List.append_nil]

theorem formDataToBytes_eq (suffix : Suffix) (entries : List Entry) :
    formDataToBytes suffix entries =
      entries.flatMap (fun entry => (Binary.ofString "--" ++ boundary suffix) ++ partBytes entry) ++
        ((Binary.ofString "--" ++ boundary suffix) ++ (Binary.ofString "--" ++ crlf)) := by
  obtain ⟨hdashes, -, hcrlf, -⟩ := ascii_literals
  have hlast : encode (lit "--" ++ wide (boundary suffix) ++ lit "--" ++ wide crlf) =
      (Binary.ofString "--" ++ boundary suffix) ++ (Binary.ofString "--" ++ crlf) := by
    rw [lit, ← wide_append, ← wide_append, ← wide_append, List.append_assoc]
    exact encode_wide (ascii_append (ascii_append hdashes (ascii_boundary suffix))
      (ascii_append hdashes hcrlf))
  rw [formDataToBytes, concatChunks_eq, List.flatten_append, hlast, List.flatten_singleton]
  congr 1
  induction entries with
  | nil => rfl
  | cons entry entries ih =>
    rw [List.flatMap_cons, List.flatten_append, ih, flatten_entryChunks, List.flatMap_cons]

/-! ### Escapes -/

/-- **Escapes make a name shorter**, and without them it is taken as it is. -/
theorem unescape_spec (l : Binary) :
    (unescape l).length ≤ l.length ∧
      ((∃ e ∈ escapes, e <:+: l) → (unescape l).length < l.length) ∧
      ((∀ e ∈ escapes, ¬ e <:+: l) → unescape l = l) := by
  have hfront : ∀ {l : Binary}, (∀ e ∈ escapes, ¬ e <:+: l) → ∀ e ∈ escapes, ∀ rest, ¬ l = e ++ rest := by
    rintro l h e he rest rfl
    exact h e he (List.prefix_append e rest).isInfix
  fun_induction unescape l with
  | case1 rest ih =>
    simp only [List.length_cons]
    exact ⟨by omega, fun _ => by omega, fun h =>
      absurd rfl (hfront h [0x25, 0x30, 0x41] (by simp [escapes]) rest)⟩
  | case2 rest ih =>
    simp only [List.length_cons]
    exact ⟨by omega, fun _ => by omega, fun h =>
      absurd rfl (hfront h [0x25, 0x30, 0x44] (by simp [escapes]) rest)⟩
  | case3 rest ih =>
    simp only [List.length_cons]
    exact ⟨by omega, fun _ => by omega, fun h =>
      absurd rfl (hfront h [0x25, 0x32, 0x32] (by simp [escapes]) rest)⟩
  | case4 b rest h₁ h₂ h₃ ih =>
    obtain ⟨hle, hlt, heq⟩ := ih
    simp only [List.length_cons]
    refine ⟨by omega, fun ⟨e, he, hin⟩ => ?_, fun h => ?_⟩
    · -- The escape is not in front, so it is in the rest.
      have hrest : ∃ e ∈ escapes, e <:+: rest := by
        refine ⟨e, he, (List.infix_cons_iff.1 hin).resolve_left ?_⟩
        rintro ⟨tail, htail⟩
        simp only [escapes, List.mem_cons, List.not_mem_nil, or_false] at he
        rcases he with rfl | rfl | rfl
        · cases htail
          exact h₁ _ rfl rfl
        · cases htail
          exact h₂ _ rfl rfl
        · cases htail
          exact h₃ _ rfl rfl
      exact Nat.succ_lt_succ (hlt hrest)
    · rw [heq fun e he hin => h e he (hin.trans (List.suffix_cons b rest).isInfix)]
  | case5 =>
    refine ⟨le_refl _, fun ⟨e, he, hin⟩ => ?_, fun _ => rfl⟩
    simp only [escapes, List.mem_cons, List.not_mem_nil, or_false] at he
    rcases he with rfl | rfl | rfl <;> simp at hin

/-! ### Collecting -/

variable {p : UInt8 → Bool}

theorem collect_append {l r : Binary} (hl : ∀ b ∈ l, p b = true) (hr : ∀ b ∈ r.head?, p b = false) :
    collect p (l ++ r) = (l, r) := by
  rw [collect, List.takeWhile_append_of_pos hl, List.dropWhile_append_of_pos hl]
  cases r with
  | nil => simp
  | cons b r =>
    have hb : p b = false := hr b rfl
    simp [hb]

theorem collect_spec {p : UInt8 → Bool} {input l r : Binary} (h : collect p input = (l, r)) :
    input = l ++ r ∧ (∀ b ∈ l, p b = true) ∧ ∀ b ∈ r.head?, p b = false := by
  obtain ⟨rfl, rfl⟩ := Prod.mk.inj h
  refine ⟨List.takeWhile_append_dropWhile.symm, fun b hb => List.all_eq_true.1 List.all_takeWhile b hb, ?_⟩
  intro b hb
  have hhead := List.head?_dropWhile_not p input
  rw [Option.mem_def.1 hb] at hhead
  exact hhead

theorem after_append (sequence rest : Binary) : after sequence (sequence ++ rest) = some rest := by
  rw [after, if_pos (List.prefix_append _ _), List.drop_left]

theorem after_some {sequence input rest : Binary} (h : after sequence input = some rest) :
    input = sequence ++ rest := by
  obtain ⟨⟨more, rfl⟩, hrest⟩ := Option.ite_none_right_eq_some.1 h
  rw [List.drop_left] at hrest
  rw [Option.some_inj.1 hrest]

theorem after_of_not {sequence input : Binary} (h : ¬ sequence <+: input) :
    after sequence input = none := if_neg h

/-! ### Names -/

def Clean (bytes : Binary) : Prop := ∀ b ∈ bytes, isLineEnd b = false ∧ b ≠ quote

variable {raw : Binary}

theorem parseName_clean (h : Clean raw) (rest : Binary) :
    parseName (raw ++ quote :: rest) = some (unescape raw, rest) := by
  have hcollect : collect (fun b => !isLineEnd b && b != quote) (raw ++ quote :: rest) =
      (raw, quote :: rest) := by
    apply collect_append
    · intro b hb
      simp [(h b hb).1, (h b hb).2]
    · intro b hb
      cases hb
      simp
  rw [parseName, hcollect]
  exact if_pos rfl

theorem parseName_spec {input name rest : Binary} (h : parseName input = some (name, rest)) :
    ∃ raw, Clean raw ∧ input = raw ++ quote :: rest ∧ name = unescape raw := by
  cases hcollect : collect (fun b => !isLineEnd b && b != quote) input with
  | mk raw tail =>
    obtain ⟨rfl, hraw, -⟩ := collect_spec hcollect
    rw [parseName, hcollect] at h
    cases tail with
    | nil => cases h
    | cons b tail =>
      obtain ⟨rfl, h⟩ := Option.ite_none_right_eq_some.1 h
      cases h
      refine ⟨raw, fun b hb => ?_, rfl, rfl⟩
      have hboth := hraw b hb
      simpa using hboth

variable {name : List UInt16}

theorem parseName_good (h : NameGood name) (rest : Binary) :
    parseName (toCStringLen name ++ quote :: rest) = some (toCStringLen name, rest) := by
  rw [parseName_clean h.2.1, (unescape_spec _).2.2 h.2.2]

variable {more rest : Binary}

/-- **Only a good name is read back.** -/
theorem nameGood_of_parseName
    (h : parseName (toCStringLen name ++ quote :: rest) = some (bytes, more))
    (hutf8 : IsUtf8 bytes name) : NameGood name ∧ more = rest := by
  obtain ⟨raw, hclean, hinput, hbytes⟩ := parseName_spec h
  obtain ⟨heq, hwell⟩ := hutf8
  have hle : (toCStringLen name).length ≤ raw.length := by
    rw [← heq, hbytes]
    exact (unescape_spec raw).1
  -- The first quote is the one behind the name.
  have hsame : raw = toCStringLen name ∧ more = rest := by
    have hprefix : toCStringLen name <+: raw :=
      List.prefix_of_prefix_length_le (List.prefix_append _ _)
        (hinput ▸ List.prefix_append raw (quote :: more)) hle
    obtain ⟨tail, htail⟩ := hprefix
    cases tail with
    | nil =>
      rw [List.append_nil] at htail
      rw [← htail] at hinput
      exact ⟨htail.symm, (List.cons.inj (List.append_cancel_left hinput)).2.symm⟩
    | cons b tail =>
      rw [← htail, List.append_assoc] at hinput
      have hb := (List.cons.inj (List.append_cancel_left hinput)).1
      exact absurd hb.symm (hclean b (by rw [← htail]; simp)).2
  obtain ⟨rfl, rfl⟩ := hsame
  refine ⟨⟨heq ▸ hwell, hclean, fun e he hin => ?_⟩, rfl⟩
  have hlt := (unescape_spec _).2.1 ⟨e, he, hin⟩
  rw [← hbytes, heq] at hlt
  exact absurd hlt (Nat.lt_irrefl _)

/-! ### Lines -/

theorem Unbroken.append {a b : Binary} (ha : Unbroken a) (hb : Unbroken b) : Unbroken (a ++ b) := by
  intro x hx
  rcases List.mem_append.1 hx with hx | hx
  · exact ha x hx
  · exact hb x hx

theorem Clean.unbroken (h : Clean bytes) : Unbroken bytes := fun b hb => (h b hb).1

/-- The least length of a line that gives a name and a file name, from its value on. -/
def weight (st : Headers) : ℕ :=
  (st.name.getD []).length + st.filename.elim 0 fun filename => 13 + filename.length

variable {input : Binary} {st st' : Headers}

theorem disposition_spec (h : disposition st input = some (st', rest)) :
    ∃ l, input = l ++ rest ∧ Unbroken l ∧ weight st' + 18 ≤ l.length := by
  obtain ⟨hform, hfilename, -, hquote, -⟩ := literals.2.1
  have hformLength : (Binary.ofString "form-data; name=\"").length = 17 := by decide
  have hfilenameLength : filenameField.length = 12 := by decide
  obtain ⟨value, hvalue, h⟩ := Option.bind_eq_some_iff.1 h
  obtain ⟨⟨name, tail⟩, hname, h⟩ := Option.bind_eq_some_iff.1 h
  obtain ⟨raw, hraw, rfl, rfl⟩ := parseName_spec hname
  have hrawLength := (unescape_spec raw).1
  have hopening := hform.append (hraw.unbroken.append hquote)
  rw [after_some hvalue]
  dsimp only at h
  cases hafter : after (Binary.ofString "; filename=\"") tail with
  | none =>
    rw [hafter] at h
    cases h
    refine ⟨_, ?_, hopening, ?_⟩
    · simp only [List.append_assoc, List.cons_append, List.nil_append]
    · simp only [weight, Option.getD_some, Option.elim_none, List.length_append, hformLength,
        List.length_singleton]
      omega
  | some tail' =>
    rw [hafter] at h
    obtain ⟨⟨filename, tail''⟩, hparsed, h⟩ := Option.bind_eq_some_iff.1 h
    obtain ⟨raw', hraw', rfl, rfl⟩ := parseName_spec hparsed
    have hrawLength' := (unescape_spec raw').1
    cases h
    rw [after_some hafter]
    refine ⟨_, ?_, hopening.append (hfilename.append (hraw'.unbroken.append hquote)), ?_⟩
    · simp only [List.append_assoc, List.cons_append, List.nil_append]
      rfl
    · simp only [weight, Option.getD_some, Option.elim_some, List.length_append, hformLength,
        hfilenameLength, List.length_singleton]
      omega

theorem headerValue_spec {field : Binary} (h : headerValue field st input = some (st', rest)) :
    ∃ l, input = l ++ rest ∧ Unbroken l ∧
      (st'.name = st.name ∧ st'.filename = st.filename ∨
        field = Binary.ofString "content-disposition" ∧ weight st' + 18 ≤ l.length) := by
  unfold headerValue at h
  split at h
  · rename_i hfield
    obtain ⟨l, hl, hunbroken, hweight⟩ := disposition_spec h
    exact ⟨l, hl, hunbroken, .inr ⟨hfield, hweight⟩⟩
  · have hcollect : collect (fun b => !isLineEnd b) input = _ := rfl
    obtain ⟨hinput, hvalue, -⟩ := collect_spec hcollect
    have hunbroken : Unbroken (collect (fun b => !isLineEnd b) input).1 := fun b hb => by
      simpa using hvalue b hb
    dsimp only at h
    split at h
    · cases h
      exact ⟨_, hinput, hunbroken, .inl ⟨rfl, rfl⟩⟩
    · cases h
      exact ⟨_, hinput, hunbroken, .inl ⟨rfl, rfl⟩⟩

theorem length_trimEnd_le (bytes : Binary) : (trimEnd bytes).length ≤ bytes.length := by
  rw [trimEnd, List.length_reverse]
  exact (List.dropWhile_suffix isBlank).length_le.trans_eq List.length_reverse

variable {fuel : ℕ}

/-- **One line**: it is the empty one, at which the headers end, or a line without a line end in it,
which leaves the names as they are or is long enough for the ones it sets. -/
theorem parseHeaders_spec (h : parseHeaders (fuel + 1) st input = some (st', rest)) :
    (crlf <+: input ∧ st' = st ∧ rest = input) ∨
      ∃ l more mid, input = l ++ (crlf ++ more) ∧ Unbroken l ∧
        parseHeaders fuel mid more = some (st', rest) ∧
        (mid.name = st.name ∧ mid.filename = st.filename ∨ weight mid + 38 ≤ l.length) := by
  unfold parseHeaders at h
  split at h
  · rename_i hcrlf
    split at h
    · cases h
      exact .inl ⟨hcrlf, rfl, rfl⟩
    · cases h
  · refine .inr ?_
    cases hcollect : collect (fun b => !isLineEnd b && b != 0x3A) input with
    | mk raw tail =>
      obtain ⟨rfl, hraw, -⟩ := collect_spec hcollect
      rw [hcollect] at h
      dsimp only at h
      split at h
      · cases h
      · split at h
        · rename_i value _
          obtain ⟨⟨mid, tail'⟩, hvalue, h⟩ := Option.bind_eq_some_iff.1 h
          obtain ⟨more, hafter, h⟩ := Option.bind_eq_some_iff.1 h
          obtain ⟨l, hl, hunbroken, hnames⟩ := headerValue_spec hvalue
          have hrawUnbroken : Unbroken raw := by
            intro b hb
            have hb' := hraw b hb
            simp only [Bool.and_eq_true, Bool.not_eq_true'] at hb'
            exact hb'.1
          have hblank : Unbroken (value.takeWhile isBlank) := by
            intro b hb
            have hb' := List.all_eq_true.1 List.all_takeWhile b hb
            simp only [isBlank, decide_eq_true_eq] at hb'
            rcases hb' with rfl | rfl <;> decide
          have hcolon : Unbroken [0x3A] := by
            unfold Unbroken
            decide
          have hvalueSplit : value = value.takeWhile isBlank ++ (l ++ (crlf ++ more)) := by
            rw [← after_some hafter, ← hl, List.takeWhile_append_dropWhile]
          refine ⟨raw ++ ([0x3A] ++ (value.takeWhile isBlank ++ l)), more, mid, ?_,
            hrawUnbroken.append (hcolon.append (hblank.append hunbroken)), h, ?_⟩
          · conv_lhs => rw [hvalueSplit]
            simp only [List.append_assoc, List.cons_append, List.nil_append]
          · rcases hnames with hnames | ⟨hfield, hweight⟩
            · exact .inl hnames
            · refine .inr ?_
              have hlower := congrArg List.length hfield
              rw [lower, List.length_map,
                show (Binary.ofString "content-disposition").length = 19 by decide] at hlower
              have htrim := length_trimEnd_le (raw.dropWhile isBlank)
              have hdrop := (List.dropWhile_suffix isBlank (l := raw)).length_le
              simp only [List.length_append, List.length_singleton]
              omega
        · cases h

theorem line_cut {a l r more : Binary} (hl : Unbroken l)
    (h : a ++ (crlf ++ r) = l ++ (crlf ++ more)) :
    (a = l ∧ more = r) ∨ ∃ a', a = l ++ (crlf ++ a') ∧ more = a' ++ (crlf ++ r) := by
  rcases List.append_eq_append_iff.1 h with ⟨x, rfl, hx⟩ | ⟨x, rfl, hx⟩
  · cases x with
    | nil =>
      rw [List.nil_append] at hx
      exact .inl ⟨(List.append_nil a).symm, (List.append_cancel_left hx).symm⟩
    | cons c x =>
      have hc : c = 0x0D := (List.cons.inj hx).1.symm
      have hnot := hl c (List.mem_append_right _ List.mem_cons_self)
      rw [hc] at hnot
      exact absurd hnot (by decide)
  · match x, hx with
    | [], hx => exact .inl ⟨List.append_nil l, List.append_cancel_left hx⟩
    | [c], hx =>
      have hcr : (0x0A : UInt8) = 0x0D := (List.cons.inj (List.cons.inj hx).2).1
      exact absurd hcr (by decide)
    | c :: d :: x, hx =>
      have hc : (0x0D : UInt8) = c := (List.cons.inj hx).1
      have hd : (0x0A : UInt8) = d := (List.cons.inj (List.cons.inj hx).2).1
      subst hc hd
      exact .inr ⟨x, rfl, (List.cons.inj (List.cons.inj hx).2).2⟩

def Quiet (input : Binary) : Prop :=
  ∀ fuel st st' rest, parseHeaders fuel st input = some (st', rest) →
    st'.name = st.name ∧ st'.filename = st.filename

theorem parseHeaders_crlf (fuel : ℕ) (st : Headers) (rest : Binary) :
    parseHeaders (fuel + 1) st (crlf ++ rest) =
      if st.name.isSome then some (st, crlf ++ rest) else none := by
  rw [parseHeaders, if_pos (List.prefix_append _ _)]

theorem quiet_crlf (rest : Binary) : Quiet (crlf ++ rest) := by
  intro fuel st st' more h
  cases fuel with
  | zero => cases h
  | succ fuel =>
    rw [parseHeaders_crlf] at h
    obtain ⟨-, h⟩ := Option.ite_none_right_eq_some.1 h
    cases h
    exact ⟨rfl, rfl⟩

variable {a r : Binary}

/-- **The names come from the lines before a quiet rest, and these are long enough for them.** -/
theorem parseHeaders_weight (hr : Quiet r) (fuel : ℕ)
    (h : parseHeaders fuel st (a ++ (crlf ++ r)) = some (st', rest)) :
    st'.name = st.name ∧ st'.filename = st.filename ∨ weight st' + 38 ≤ a.length := by
  induction fuel generalizing st a with
  | zero => cases h
  | succ fuel ih =>
    rcases parseHeaders_spec h with ⟨-, rfl, -⟩ | ⟨l, more, mid, hcut, hl, hmore, hnames⟩
    · exact .inl ⟨rfl, rfl⟩
    · have hmid : mid.name = st.name ∧ mid.filename = st.filename ∨ weight mid + 38 ≤ l.length :=
        hnames
      have hweight : ∀ {s t : Headers}, s.name = t.name ∧ s.filename = t.filename →
          weight s = weight t := fun ⟨hn, hf⟩ => by rw [weight, weight, hn, hf]
      have hthrough : (st'.name = mid.name ∧ st'.filename = mid.filename) →
          (st'.name = st.name ∧ st'.filename = st.filename ∨ weight st' + 38 ≤ l.length) := by
        intro hsame
        rcases hmid with hmid | hmid
        · exact .inl ⟨hsame.1.trans hmid.1, hsame.2.trans hmid.2⟩
        · rw [hweight hsame]
          exact .inr hmid
      rcases line_cut hl hcut with ⟨rfl, rfl⟩ | ⟨a', rfl, rfl⟩
      · exact hthrough (hr fuel mid st' rest hmore)
      · rw [List.length_append, List.length_append]
        rcases ih hmore with hsame | hlong
        · rcases hthrough hsame with hsame | hlong
          · exact .inl hsame
          · exact .inr (by omega)
        · exact .inr (by omega)

/-! ### The fields that are written -/

theorem dropWhile_append {a b : Binary} (hb : ∀ c ∈ b.head?, p c = false) :
    (a ++ b).dropWhile p = a.dropWhile p ++ b := by
  rw [List.dropWhile_append]
  split
  · rename_i hnil
    rw [List.isEmpty_iff.1 hnil, List.nil_append]
    cases b with
    | nil => rfl
    | cons c b =>
      have hc : p c = false := hb c rfl
      simp [hc]
  · rfl

theorem parseHeaders_field (hraw : FieldName raw) (fuel : ℕ) (st : Headers) (value : Binary) :
    parseHeaders (fuel + 1) st (raw ++ 0x3A :: value) =
      (headerValue (lower raw) st (value.dropWhile isBlank)).bind fun r =>
        (after crlf r.2).bind fun rest => parseHeaders fuel r.1 rest := by
  obtain ⟨hcrlf, hlen, hbytes, htrim, htoken⟩ := hraw
  have hnot : ¬ crlf <+: raw ++ 0x3A :: value := fun hp =>
    hcrlf (List.prefix_of_prefix_length_le hp (List.prefix_append _ _) hlen)
  have hcollect : collect (fun b => !isLineEnd b && b != 0x3A) (raw ++ 0x3A :: value) =
      (raw, 0x3A :: value) := by
    apply collect_append hbytes
    intro b hb
    cases hb
    simp
  have hfield : ¬ (raw = [] ∨ ¬ raw.all isToken = true) := by
    rintro (rfl | h)
    · simp at hlen
    · exact h htoken
  rw [parseHeaders, if_neg hnot, hcollect]
  dsimp only
  rw [htrim, if_neg hfield]
  rfl

theorem parseHeaders_name (fuel : ℕ) (st : Headers) (input : Binary) :
    parseHeaders (fuel + 1) st (nameField ++ input) =
      (disposition st (Binary.ofString "form-data; name=\"" ++ input)).bind fun r =>
        (after crlf r.2).bind fun rest => parseHeaders fuel r.1 rest := by
  obtain ⟨hraw, -, hlower, -, hname, -⟩ := literals.2.2.1
  have hblank : (0x20 :: (Binary.ofString "form-data; name=\"" ++ input)).dropWhile isBlank =
      Binary.ofString "form-data; name=\"" ++ input := rfl
  rw [hname, List.append_assoc, List.cons_append, List.cons_append, parseHeaders_field hraw, hlower,
    hblank, headerValue, if_pos rfl]

variable {type : Binary}

theorem parseHeaders_type (fuel : ℕ) (st : Headers) (htype : Unbroken type) (rest : Binary) :
    parseHeaders (fuel + 1) st (typeField ++ (type ++ (crlf ++ rest))) =
      parseHeaders fuel { st with contentType := some (trimEnd (type.dropWhile isBlank)) } rest := by
  obtain ⟨-, hraw, -, hlower, -, hfield⟩ := literals.2.2.1
  have hblank : (0x20 :: (type ++ (crlf ++ rest))).dropWhile isBlank =
      type.dropWhile isBlank ++ (crlf ++ rest) := by
    have hspace : (0x20 :: (type ++ (crlf ++ rest))).dropWhile isBlank =
        (type ++ (crlf ++ rest)).dropWhile isBlank := rfl
    rw [hspace]
    apply dropWhile_append
    intro c hc
    cases hc
    rfl
  have hcollect : collect (fun b => !isLineEnd b) (type.dropWhile isBlank ++ (crlf ++ rest)) =
      (type.dropWhile isBlank, crlf ++ rest) := by
    apply collect_append
    · intro b hb
      rw [htype b ((List.dropWhile_suffix isBlank).subset hb)]
      rfl
    · intro b hb
      cases hb
      rfl
  have hne : ¬ Binary.ofString "content-type" = Binary.ofString "content-disposition" := by decide
  rw [hfield, List.append_assoc, List.cons_append, List.cons_append, List.nil_append,
    parseHeaders_field hraw, hlower, hblank, headerValue, if_neg hne, hcollect]
  dsimp only
  rw [if_pos rfl, Option.bind_some, after_append, Option.bind_some]

theorem quiet_type (htype : Unbroken type) (rest : Binary) :
    Quiet (typeField ++ (type ++ (crlf ++ (crlf ++ rest)))) := by
  intro fuel st st' more h
  cases fuel with
  | zero => cases h
  | succ fuel =>
    rw [parseHeaders_type fuel st htype] at h
    have hquiet := quiet_crlf rest _ _ _ _ h
    exact hquiet

/-! ### The first line -/

theorem disposition_eq (st : Headers) (input : Binary) :
    disposition st (Binary.ofString "form-data; name=\"" ++ input) =
      (parseName input).bind fun r =>
        match after filenameField r.2 with
        | some rest => (parseName rest).bind fun f =>
            some ({ st with name := some r.1, filename := some f.1 }, f.2)
        | none => some ({ st with name := some r.1, filename := none }, r.2) := by
  rw [disposition, after_append]
  rfl

/-- **The names are those of the first line**, or the lines behind it are long enough for others. -/
theorem first_line (hr : Quiet r) (hinput : nameField ++ input = a ++ (crlf ++ r))
    (h : parseHeaders (fuel + 1) {} (nameField ++ input) = some (st, rest)) :
    ∃ first more, disposition {} (Binary.ofString "form-data; name=\"" ++ input) =
        some (first, crlf ++ more) ∧ parseHeaders fuel first more = some (st, rest) ∧
      (st.name = first.name ∧ st.filename = first.filename ∨ weight st + 40 ≤ a.length) := by
  rw [parseHeaders_name] at h
  obtain ⟨⟨first, tail⟩, hfirst, h⟩ := Option.bind_eq_some_iff.1 h
  obtain ⟨more, hafter, h⟩ := Option.bind_eq_some_iff.1 h
  have htail := after_some hafter
  dsimp only at htail
  subst htail
  refine ⟨first, more, hfirst, h, ?_⟩
  obtain ⟨l, hl, hunbroken, -⟩ := disposition_spec hfirst
  obtain ⟨-, -, -, -, hname, -⟩ := literals.2.2.1
  have hfront := literals.2.1.2.2.1
  have hline : a ++ (crlf ++ r) =
      (Binary.ofString "Content-Disposition" ++ [0x3A, 0x20] ++ l) ++ (crlf ++ more) := by
    rw [← hinput, hname]
    simp only [List.append_assoc, List.cons_append, List.nil_append]
    rw [hl]
  rcases line_cut (hfront.append hunbroken) hline with ⟨-, rfl⟩ | ⟨a', rfl, rfl⟩
  · exact .inl (hr fuel first st rest h)
  · rcases parseHeaders_weight hr fuel h with hsame | hlong
    · exact .inl hsame
    · refine .inr ?_
      have hcrlf : crlf.length = 2 := rfl
      simp only [List.length_append, hcrlf]
      omega

/-! ### The body of a part -/

theorem before_eq {sequence tail : Binary} (hne : sequence ≠ []) (front : Binary)
    (h : ∀ y, y ≠ [] → y <:+ front → ¬ sequence <+: y ++ (sequence ++ tail)) :
    before sequence (front ++ (sequence ++ tail)) = some front := by
  induction front with
  | nil =>
    obtain ⟨b, sequence, rfl⟩ := List.exists_cons_of_ne_nil hne
    exact if_pos (List.prefix_append _ _)
  | cons b front ih =>
    have hnot : ¬ sequence <+: b :: (front ++ (sequence ++ tail)) :=
      h (b :: front) (List.cons_ne_nil b front) (List.suffix_refl _)
    have hrest := ih fun y hy hsuffix => h y hy (hsuffix.trans (List.suffix_cons b front))
    rw [List.cons_append, before, if_neg hnot, hrest]
    rfl

theorem boundary_cons (suffix : Suffix) :
    ∃ rest, boundary suffix = 0x2D :: 0x2D :: 0x2D :: 0x2D :: 0x51 :: rest :=
  ⟨_, rfl⟩

theorem cr_not_mem_boundary (suffix : Suffix) : (0x0D : UInt8) ∉ boundary suffix := by
  intro h
  rcases List.mem_append.1 h with h | h
  · exact absurd h (by decide)
  · exact absurd (suffix.base36 _ h) (by decide)

/-- **A boundary that is not in the body is found where it was put.** -/
theorem before_boundary {suffix : Suffix} {body : Binary} (h : ¬ boundary suffix <:+: body)
    (tail : Binary) :
    before (boundary suffix) (body ++ (crlf ++ ((Binary.ofString "--" ++ boundary suffix) ++ tail))) =
      some (body ++ (crlf ++ Binary.ofString "--")) := by
  obtain ⟨rest, hrest⟩ := boundary_cons suffix
  have hshape : body ++ (crlf ++ ((Binary.ofString "--" ++ boundary suffix) ++ tail)) =
      (body ++ (crlf ++ Binary.ofString "--")) ++ (boundary suffix ++ tail) := by
    simp only [List.append_assoc]
  rw [hshape]
  refine before_eq (by rw [hrest]; exact List.cons_ne_nil _ _) _ fun y hy hsuffix hprefix => ?_
  obtain ⟨p, hp⟩ := hsuffix
  rcases List.append_eq_append_iff.1 hp with ⟨x, rfl, rfl⟩ | ⟨x, rfl, hx⟩
  · -- The occurrence begins in the body: it ends there, or the line end is in the boundary.
    rcases Nat.lt_or_ge x.length (boundary suffix).length with hlt | hge
    · have hcr : x ++ [0x0D] <+: boundary suffix := by
        refine List.prefix_of_prefix_length_le ?_ hprefix ?_
        · exact ⟨0x0A :: (Binary.ofString "--" ++ (boundary suffix ++ tail)), by
            simp only [crlf, List.append_assoc, List.cons_append, List.nil_append]⟩
        · rw [List.length_append, List.length_singleton]
          exact hlt
      exact cr_not_mem_boundary suffix (hcr.subset (List.mem_append_right _ List.mem_cons_self))
    · have hinside : boundary suffix <+: x := by
        refine List.prefix_of_prefix_length_le hprefix ?_ hge
        rw [List.append_assoc]
        exact List.prefix_append _ _
      exact h (hinside.isInfix.trans (List.suffix_append p x).isInfix)
  · -- It begins behind the body, where the first bytes differ.
    obtain ⟨q, hq⟩ := hprefix
    rw [hrest] at hq
    have hdashes : crlf ++ Binary.ofString "--" = [0x0D, 0x0A, 0x2D, 0x2D] := by decide
    rw [hdashes] at hx
    match x, hx with
    | [], hx =>
      rw [List.nil_append] at hx
      rw [← hx] at hq
      exact absurd (List.cons.inj hq).1 (by decide)
    | [_], hx =>
      simp only [List.cons_append, List.nil_append, List.cons.injEq] at hx
      rw [← hx.2] at hq
      exact absurd (List.cons.inj hq).1 (by decide)
    | [_, _], hx =>
      simp only [List.cons_append, List.nil_append, List.cons.injEq] at hx
      rw [← hx.2.2] at hq
      simp only [List.cons_append, List.nil_append, List.cons.injEq] at hq
      exact absurd hq.2.2.2.2.1 (by decide)
    | [_, _, _], hx =>
      simp only [List.cons_append, List.nil_append, List.cons.injEq] at hx
      rw [← hx.2.2.2] at hq
      simp only [List.cons_append, List.nil_append, List.cons.injEq] at hq
      exact absurd hq.2.2.2.2.1 (by decide)
    | _ :: _ :: _ :: _ :: x, hx =>
      simp only [List.cons_append, List.cons.injEq] at hx
      exact hy (List.append_eq_nil_iff.1 hx.2.2.2.2.symm).2

/-! ### One part -/

variable {body : Binary} {suffix : Suffix}

theorem parsePart_body (h : ¬ boundary suffix <:+: body) (tail : Binary)
    (hheaders : parseHeaders input.length {} input = some (st, crlf ++ (body ++ (crlf ++
    ((Binary.ofString "--" ++ boundary suffix) ++ tail))))) :
    parsePart (boundary suffix) (crlf ++ input) = st.name.map fun name =>
      (entryOf st name body, (Binary.ofString "--" ++ boundary suffix) ++ tail) := by
  have hlen : (body ++ (crlf ++ Binary.ofString "--")).length = body.length + 4 := by
    rw [List.length_append]
    rfl
  rw [parsePart, after_append]
  show (parseHeaders input.length {} input).bind _ = _
  rw [hheaders]
  show st.name.bind _ = _
  cases st.name with
  | none => rfl
  | some name =>
    rw [Option.bind_some]
    show (after crlf (crlf ++ (body ++ (crlf ++
      ((Binary.ofString "--" ++ boundary suffix) ++ tail))))).bind _ = _
    rw [after_append]
    show (before (boundary suffix) (body ++ (crlf ++
      ((Binary.ofString "--" ++ boundary suffix) ++ tail)))).bind _ = _
    rw [before_boundary h]
    show (if (body ++ (crlf ++ Binary.ofString "--")).length < 4 then none else _) = _
    rw [hlen, if_neg (by omega), Nat.add_sub_cancel, List.drop_left, after_append, List.take_left]
    rfl

/-! ### Types -/

theorem trim_of_typeGood (h : TypeGood type) : trimEnd (type.dropWhile isBlank) = type := by
  obtain ⟨hne, hhead, hlast⟩ := h
  have hdrop : ∀ {l : Binary}, (∀ b ∈ l.head?, isBlank b = false) → l.dropWhile isBlank = l := by
    intro l hl
    cases l with
    | nil => rfl
    | cons b l =>
      have hb : isBlank b = false := hl b rfl
      simp [hb]
  rw [hdrop hhead, trimEnd, hdrop, List.reverse_reverse]
  intro b hb
  rw [List.head?_reverse] at hb
  exact hlast b hb

theorem typeGood_of_trim (hne : type ≠ []) (h : trimEnd (type.dropWhile isBlank) = type) :
    TypeGood type := by
  have hshort : ∀ {l : Binary} {b : UInt8}, b ∈ l.head? → isBlank b = true →
      (l.dropWhile isBlank).length < l.length := by
    intro l b hb hblank
    cases l with
    | nil => cases hb
    | cons c l =>
      cases hb
      rw [List.dropWhile_cons_of_pos hblank]
      exact Nat.lt_succ_of_le (List.dropWhile_suffix isBlank).length_le
  refine ⟨hne, fun b hb => ?_, fun b hb => ?_⟩
  · by_contra hblank
    rw [Bool.not_eq_false] at hblank
    have hlt := hshort hb hblank
    have hle := length_trimEnd_le (type.dropWhile isBlank)
    rw [h] at hle
    omega
  · by_contra hblank
    rw [Bool.not_eq_false] at hblank
    -- Nothing was taken off in front, so the last byte is still there.
    have hfront : type.dropWhile isBlank = type := by
      have hle := length_trimEnd_le (type.dropWhile isBlank)
      rw [h] at hle
      exact (List.dropWhile_suffix isBlank).eq_of_length_le hle
    rw [hfront] at h
    have hlt := hshort (l := type.reverse) (by rw [List.head?_reverse]; exact hb) hblank
    have hlen := congrArg List.length h
    rw [trimEnd, List.length_reverse] at hlen
    rw [List.length_reverse] at hlt
    omega

theorem unbroken_writtenType (f : File) : Unbroken (writtenType f) := by
  intro b hb
  unfold writtenType at hb
  split at hb
  · exact literals.2.1.2.2.2.2 b hb
  · have hprintable := printable_type f b hb
    have h10 : b = 0x0A → b.toNat = 10 := fun h => by rw [h]; rfl
    have h13 : b = 0x0D → b.toNat = 13 := fun h => by rw [h]; rfl
    rw [isLineEnd, decide_eq_false_iff_not]
    rintro (h | h)
    · have := h10 h
      omega
    · have := h13 h
      omega

/-! ### The headers of an entry -/

/-- The headers that are read back from a good entry. -/
def headersOf (entry : Entry) : Headers :=
  match entry.value with
  | .text _ => { name := some (toCStringLen entry.name) }
  | .file f =>
      { name := some (toCStringLen entry.name), filename := some (toCStringLen f.name),
        contentType := some f.type }

theorem not_filename (rest : Binary) : after filenameField (crlf ++ rest) = none := by
  apply after_of_not
  rintro ⟨tail, htail⟩
  exact absurd (List.cons.inj htail).1 (by decide)

theorem parseHeaders_good {entry : Entry} (h : Good entry) (fuel : ℕ) (rest : Binary) :
    parseHeaders (fuel + 3) {} (headerBytes entry ++ (crlf ++ (crlf ++ rest))) =
      some (headersOf entry, crlf ++ rest) := by
  obtain ⟨name, value⟩ := entry
  cases value with
  | text s =>
    have hinput : headerBytes ⟨name, .text s⟩ ++ (crlf ++ (crlf ++ rest)) =
        nameField ++ (toCStringLen name ++ quote :: (crlf ++ (crlf ++ rest))) := by
      simp only [headerBytes, List.append_assoc, List.cons_append, List.nil_append]
    rw [hinput, parseHeaders_name, disposition_eq, parseName_good h.1, Option.bind_some]
    dsimp only
    rw [not_filename, Option.bind_some, after_append, Option.bind_some, parseHeaders_crlf]
    rfl
  | file f =>
    obtain ⟨hname, hfilename, htype⟩ := h
    have hinput : headerBytes ⟨name, .file f⟩ ++ (crlf ++ (crlf ++ rest)) =
        nameField ++ (toCStringLen name ++ quote :: (filenameField ++ (toCStringLen f.name ++
          quote :: (crlf ++ (typeField ++ (writtenType f ++ (crlf ++ (crlf ++ rest)))))))) := by
      simp only [headerBytes, List.append_assoc, List.cons_append]
    have hwritten : writtenType f = f.type := if_neg htype.1
    rw [hinput, parseHeaders_name, disposition_eq, parseName_good hname, Option.bind_some]
    dsimp only
    rw [after_append]
    dsimp only
    rw [parseName_good hfilename, Option.bind_some, Option.bind_some, after_append,
      Option.bind_some, parseHeaders_type _ _ (unbroken_writtenType f), hwritten,
      trim_of_typeGood htype, parseHeaders_crlf]
    rfl

theorem parseHeaders_stop (h : parseHeaders fuel st (crlf ++ rest) = some (st', more)) :
    st' = st := by
  cases fuel with
  | zero => cases h
  | succ fuel =>
    rw [parseHeaders_crlf] at h
    obtain ⟨-, h⟩ := Option.ite_none_right_eq_some.1 h
    cases h
    rfl

/-- **The headers of a text are read back only if its name is good.** -/
theorem text_headers {name s : List UInt16}
    (h : parseHeaders fuel {} (headerBytes ⟨name, .text s⟩ ++ (crlf ++ (crlf ++ rest))) = some
    (st, more)) (hname : st.name = some bytes) (hfilename : st.filename = none)
    (hutf8 : IsUtf8 bytes name) : NameGood name := by
  cases fuel with
  | zero => cases h
  | succ fuel =>
    have hinput : headerBytes ⟨name, .text s⟩ ++ (crlf ++ (crlf ++ rest)) =
        nameField ++ (toCStringLen name ++ quote :: (crlf ++ (crlf ++ rest))) := by
      simp only [headerBytes, List.append_assoc, List.cons_append, List.nil_append]
    have hcut := hinput.symm
    rw [hinput] at h
    obtain ⟨first, tail, hfirst, -, hnames⟩ := first_line (quiet_crlf rest) hcut h
    have hsame : st.name = first.name ∧ st.filename = first.filename := by
      refine hnames.resolve_right fun hlong => ?_
      have hfield : nameField.length = 38 := by decide
      simp only [weight, hname, hfilename, Option.getD_some, Option.elim_none, hutf8.1, headerBytes,
        List.length_append, hfield, List.length_singleton] at hlong
      omega
    rw [disposition_eq] at hfirst
    obtain ⟨⟨raw, behind⟩, hparse, hfirst⟩ := Option.bind_eq_some_iff.1 hfirst
    dsimp only at hfirst
    cases hafter : after filenameField behind with
    | some value =>
      rw [hafter] at hfirst
      obtain ⟨f, -, hfirst⟩ := Option.bind_eq_some_iff.1 hfirst
      obtain ⟨rfl, -⟩ := Prod.mk.inj (Option.some_inj.1 hfirst)
      rw [hfilename] at hsame
      cases hsame.2
    | none =>
      rw [hafter] at hfirst
      cases hfirst
      have hraw : raw = bytes := Option.some_inj.1 (hsame.1.symm.trans hname)
      exact (nameGood_of_parseName hparse (hraw ▸ hutf8)).1

/-- **The headers of a file are read back only if both names are good.** -/
theorem file_headers {f : File} {bytes filename : Binary}
    (h : parseHeaders fuel {} (headerBytes ⟨name, .file f⟩ ++ (crlf ++ (crlf ++ rest))) = some
    (st, more)) (hname : st.name = some bytes) (hfilename : st.filename = some filename)
    (hutf8 : IsUtf8 bytes name) (hutf8' : IsUtf8 filename f.name) :
    NameGood name ∧ NameGood f.name ∧
      st.contentType = some (trimEnd ((writtenType f).dropWhile isBlank)) := by
  cases fuel with
  | zero => cases h
  | succ fuel =>
    have hinput : headerBytes ⟨name, .file f⟩ ++ (crlf ++ (crlf ++ rest)) =
        nameField ++ (toCStringLen name ++ quote :: (filenameField ++ (toCStringLen f.name ++
          quote :: (crlf ++ (typeField ++ (writtenType f ++ (crlf ++ (crlf ++ rest)))))))) := by
      simp only [headerBytes, List.append_assoc, List.cons_append]
    have hcut : nameField ++ (toCStringLen name ++ quote :: (filenameField ++ (toCStringLen f.name ++
          quote :: (crlf ++ (typeField ++ (writtenType f ++ (crlf ++ (crlf ++ rest)))))))) =
        (nameField ++ (toCStringLen name ++ quote :: (filenameField ++ (toCStringLen f.name ++
          [quote])))) ++ (crlf ++ (typeField ++ (writtenType f ++ (crlf ++ (crlf ++ rest))))) := by
      simp only [List.append_assoc, List.cons_append, List.nil_append]
    have hquiet := quiet_type (unbroken_writtenType f) rest
    rw [hinput] at h
    obtain ⟨first, tail, hfirst, hrest, hnames⟩ := first_line hquiet hcut h
    have hsame : st.name = first.name ∧ st.filename = first.filename := by
      refine hnames.resolve_right fun hlong => ?_
      have hfield : nameField.length = 38 := by decide
      have hfield' : filenameField.length = 12 := by decide
      simp only [weight, hname, hfilename, Option.getD_some, Option.elim_some, hutf8.1, hutf8'.1,
        List.length_append, List.length_cons, hfield, hfield', List.length_nil] at hlong
      omega
    rw [disposition_eq] at hfirst
    obtain ⟨⟨raw, behind⟩, hparse, hfirst⟩ := Option.bind_eq_some_iff.1 hfirst
    dsimp only at hfirst
    cases hafter : after filenameField behind with
    | none =>
      rw [hafter] at hfirst
      cases hfirst
      rw [hfilename] at hsame
      cases hsame.2
    | some value =>
      rw [hafter] at hfirst
      obtain ⟨⟨raw', behind'⟩, hparse', hfirst⟩ := Option.bind_eq_some_iff.1 hfirst
      obtain ⟨rfl, rfl⟩ := Prod.mk.inj (Option.some_inj.1 hfirst)
      have hraw : raw = bytes := Option.some_inj.1 (hsame.1.symm.trans hname)
      obtain ⟨hgood, hbehind⟩ := nameGood_of_parseName hparse (hraw ▸ hutf8)
      rw [hbehind, after_append] at hafter
      cases hafter
      have hraw' : raw' = filename := Option.some_inj.1 (hsame.2.symm.trans hfilename)
      obtain ⟨hgood', hbehind'⟩ := nameGood_of_parseName hparse' (hraw' ▸ hutf8')
      have htail := List.append_cancel_left hbehind'
      rw [htail] at hrest
      cases fuel with
      | zero => cases hrest
      | succ fuel =>
        rw [parseHeaders_type fuel _ (unbroken_writtenType f)] at hrest
        rw [parseHeaders_stop hrest]
        exact ⟨hgood, hgood', rfl⟩

/-! ### The parts of a form -/

section Parts

variable {suffix : Suffix}

theorem partBytes_append (entry : Entry) (tail : Binary) :
    partBytes entry ++ tail = crlf ++ (headerBytes entry ++ (crlf ++ (crlf ++
      (entry.value.bytes ++ (crlf ++ tail))))) := by
  simp only [partBytes, List.append_assoc]

theorem parsePart_crlf (mark input : Binary) :
    parsePart mark (crlf ++ input) =
      (parseHeaders input.length {} input).bind fun r => r.1.name.bind fun name =>
        (after crlf r.2).bind fun rest => (before mark rest).bind fun front =>
          if front.length < 4 then none
          else
            (after crlf (rest.drop (front.length - 4))).bind fun tail =>
              some (entryOf r.1 name (rest.take (front.length - 4)), tail) := by
  rw [parsePart, after_append]
  rfl

theorem parseParts_eq (mark : Binary) (fuel : ℕ) (rest : Binary) :
    parseParts mark fuel ((Binary.ofString "--" ++ mark) ++ rest) =
      if rest = Binary.ofString "--" ++ crlf then some []
      else
        match fuel with
        | 0 => none
        | fuel + 1 => (parsePart mark rest).bind fun r =>
            (parseParts mark fuel r.2).bind fun parts => some (r.1 :: parts) := by
  cases fuel <;> (rw [parseParts, after_append]; rfl)

variable {entry : Entry}

/-- **A good entry is read back.** -/
theorem parsePart_good (h : Good entry) (hvalue : ¬ boundary suffix <:+: entry.value.bytes)
    (tail : Binary) : ∃ part, parsePart (boundary suffix)
        (partBytes entry ++ ((Binary.ofString "--" ++ boundary suffix) ++ tail)) =
      some (part, (Binary.ofString "--" ++ boundary suffix) ++ tail) ∧ Describes part entry := by
  rw [partBytes_append]
  generalize hinput : headerBytes entry ++ (crlf ++ (crlf ++ (entry.value.bytes ++ (crlf ++
    ((Binary.ofString "--" ++ boundary suffix) ++ tail))))) = input
  have hlen : ∃ k, input.length = k + 3 := by
    have hfield : nameField.length = 38 := by decide
    refine ⟨input.length - 3, ?_⟩
    rw [← hinput, headerBytes, List.append_assoc, List.length_append, hfield]
    omega
  obtain ⟨k, hk⟩ := hlen
  have hheaders := parseHeaders_good h k (entry.value.bytes ++ (crlf ++
    ((Binary.ofString "--" ++ boundary suffix) ++ tail)))
  rw [hinput, ← hk] at hheaders
  rw [parsePart_body hvalue tail hheaders]
  obtain ⟨name, value⟩ := entry
  cases value with
  | text s => exact ⟨_, rfl, ⟨rfl, h.1.1⟩, rfl, h.2⟩
  | file f =>
    obtain ⟨hname, hfilename, htype⟩ := h
    refine ⟨_, rfl, ⟨rfl, hname.1⟩, ⟨rfl, hfilename.1⟩, ?_, rfl⟩
    have hascii : f.type.all (· < 0x80) = true := by
      rw [List.all_eq_true]
      intro b hb
      have hprintable := printable_type f b hb
      rw [decide_eq_true_iff, UInt8.lt_iff_toNat_lt]
      show b.toNat < 128
      omega
    show (if f.type.all (· < 0x80) = true then f.type else []) = f.type
    rw [if_pos hascii]

/-- **Only a good entry is read back.** -/
theorem good_of_parsePart {tail rest : Binary} {part : Part}
    (h : parsePart (boundary suffix) (partBytes entry ++ ((Binary.ofString "--" ++ boundary
    suffix) ++ tail)) = some (part, rest)) (hdescribes : Describes part entry) : Good entry := by
  rw [partBytes_append] at h
  rw [parsePart_crlf] at h
  obtain ⟨⟨st, behind⟩, hheaders, h⟩ := Option.bind_eq_some_iff.1 h
  obtain ⟨bytes, hname, h⟩ := Option.bind_eq_some_iff.1 h
  obtain ⟨value, -, h⟩ := Option.bind_eq_some_iff.1 h
  obtain ⟨front, -, h⟩ := Option.bind_eq_some_iff.1 h
  obtain ⟨-, h⟩ := Option.ite_none_left_eq_some.1 h
  obtain ⟨end', -, h⟩ := Option.bind_eq_some_iff.1 h
  obtain ⟨hpart, -⟩ := Prod.mk.inj (Option.some_inj.1 h)
  dsimp only at hname
  obtain ⟨name, entryValue⟩ := entry
  cases entryValue with
  | text s =>
    cases hfilename : st.filename with
    | some filename =>
      rw [entryOf, hfilename] at hpart
      subst hpart
      exact hdescribes.elim
    | none =>
      rw [entryOf, hfilename] at hpart
      subst hpart
      obtain ⟨hutf8, hvalue, hwell⟩ := hdescribes
      refine ⟨text_headers hheaders hname hfilename hutf8, ?_⟩
      rw [hvalue] at hwell
      exact hwell
  | file f =>
    cases hfilename : st.filename with
    | none =>
      rw [entryOf, hfilename] at hpart
      subst hpart
      exact hdescribes.elim
    | some filename =>
      rw [entryOf, hfilename] at hpart
      subst hpart
      obtain ⟨hutf8, hutf8', htype, -⟩ := hdescribes
      obtain ⟨hgood, hgood', hcontent⟩ := file_headers hheaders hname hfilename hutf8 hutf8'
      refine ⟨hgood, hgood', ?_⟩
      rw [hcontent, Option.getD_some] at htype
      have hoctet := literals.2.2.2
      by_cases hempty : f.type = []
      · rw [writtenType, if_pos hempty, hoctet.1, if_pos hoctet.2.1, hempty] at htype
        exact absurd htype hoctet.2.2
      · rw [writtenType, if_neg hempty] at htype
        refine typeGood_of_trim hempty ?_
        split at htype
        · exact htype
        · exact absurd htype.symm hempty

theorem form_eq (suffix : Suffix) (entries : List Entry) :
    ∃ tail, entries.flatMap
        (fun entry => (Binary.ofString "--" ++ boundary suffix) ++ partBytes entry) ++
        ((Binary.ofString "--" ++ boundary suffix) ++ (Binary.ofString "--" ++ crlf)) =
      (Binary.ofString "--" ++ boundary suffix) ++ tail := by
  cases entries with
  | nil => exact ⟨_, rfl⟩
  | cons entry entries =>
    rw [List.flatMap_cons, List.append_assoc, List.append_assoc]
    exact ⟨_, rfl⟩

theorem not_last (entry : Entry) (tail : Binary) :
    ¬ partBytes entry ++ tail = Binary.ofString "--" ++ crlf := by
  rw [partBytes_append]
  intro h
  exact absurd (List.cons.inj h).1 (by decide)

theorem parseParts_cons (suffix : Suffix) (fuel : ℕ) (entry : Entry) (entries : List Entry) :
    ∃ tail, entries.flatMap
          (fun entry => (Binary.ofString "--" ++ boundary suffix) ++ partBytes entry) ++
          ((Binary.ofString "--" ++ boundary suffix) ++ (Binary.ofString "--" ++ crlf)) =
        (Binary.ofString "--" ++ boundary suffix) ++ tail ∧
      parseParts (boundary suffix) (fuel + 1)
        ((entry :: entries).flatMap
          (fun entry => (Binary.ofString "--" ++ boundary suffix) ++ partBytes entry) ++
          ((Binary.ofString "--" ++ boundary suffix) ++ (Binary.ofString "--" ++ crlf))) =
        (parsePart (boundary suffix)
          (partBytes entry ++ ((Binary.ofString "--" ++ boundary suffix) ++ tail))).bind fun r =>
            (parseParts (boundary suffix) fuel r.2).bind fun parts => some (r.1 :: parts) := by
  obtain ⟨tail, htail⟩ := form_eq suffix entries
  refine ⟨tail, htail, ?_⟩
  rw [List.flatMap_cons, List.append_assoc, List.append_assoc, htail, parseParts_eq,
    if_neg (not_last entry _)]

theorem parseParts_nil (suffix : Suffix) (fuel : ℕ) :
    parseParts (boundary suffix) fuel ((Binary.ofString "--" ++ boundary suffix) ++
      (Binary.ofString "--" ++ crlf)) = some [] := by
  rw [parseParts_eq, if_pos rfl]

variable {entries : List Entry} {fuel : ℕ}

/-- **The loop reads good entries back.** -/
theorem parseParts_good (hvalues : ∀ entry ∈ entries, ¬ boundary suffix <:+: entry.value.bytes)
    (h : ∀ entry ∈ entries, Good entry) (hfuel : entries.length ≤ fuel) :
    ∃ parts, parseParts (boundary suffix) fuel (entries.flatMap
        (fun entry => (Binary.ofString "--" ++ boundary suffix) ++ partBytes entry) ++
        ((Binary.ofString "--" ++ boundary suffix) ++ (Binary.ofString "--" ++ crlf))) =
      some parts ∧ List.Forall₂ Describes parts entries := by
  induction entries generalizing fuel with
  | nil => exact ⟨[], parseParts_nil suffix fuel, .nil⟩
  | cons entry entries ih =>
    rw [List.forall_mem_cons] at hvalues h
    obtain ⟨fuel, rfl⟩ : ∃ k, fuel = k + 1 := ⟨fuel - 1, by rw [List.length_cons] at hfuel; omega⟩
    obtain ⟨parts, hparts, hdescribes⟩ := ih hvalues.2 h.2 (Nat.le_of_succ_le_succ hfuel)
    obtain ⟨tail, htail, hturn⟩ := parseParts_cons suffix fuel entry entries
    obtain ⟨part, hpart, hentry⟩ := parsePart_good h.1 hvalues.1 tail
    refine ⟨part :: parts, ?_, .cons hentry hdescribes⟩
    rw [hturn, hpart, Option.bind_some, ← htail, hparts]
    rfl

/-- **The loop reads only good entries back.** -/
theorem good_of_parseParts (hvalues : ∀ entry ∈ entries, ¬ boundary suffix <:+: entry.value.bytes)
    {parts : List Part}
    (h : parseParts (boundary suffix) fuel (entries.flatMap (fun entry => (Binary.ofString "--"
    ++ boundary suffix) ++ partBytes entry) ++ ((Binary.ofString "--" ++ boundary suffix) ++
    (Binary.ofString "--" ++ crlf))) = some parts)
    (hdescribes : List.Forall₂ Describes parts entries) : ∀ entry ∈ entries, Good entry := by
  induction entries generalizing fuel parts with
  | nil => simp
  | cons entry entries ih =>
    rw [List.forall_mem_cons] at hvalues
    cases hdescribes with
    | @cons part _ parts _ hentry hrest =>
      cases fuel with
      | zero =>
        obtain ⟨tail, htail⟩ := form_eq suffix entries
        rw [List.flatMap_cons, List.append_assoc, List.append_assoc, htail, parseParts_eq,
          if_neg (not_last entry _)] at h
        cases h
      | succ fuel =>
        obtain ⟨tail, htail, hturn⟩ := parseParts_cons suffix fuel entry entries
        rw [hturn] at h
        obtain ⟨⟨part', rest⟩, hpart, h⟩ := Option.bind_eq_some_iff.1 h
        obtain ⟨parts', hparts, h⟩ := Option.bind_eq_some_iff.1 h
        obtain ⟨rfl, rfl⟩ := List.cons.inj (Option.some_inj.1 h)
        have hgood := good_of_parsePart hpart hentry
        obtain ⟨_, hsame, -⟩ := parsePart_good hgood hvalues.1 tail
        rw [hpart, Option.some_inj, Prod.mk.injEq] at hsame
        rw [hsame.2, ← htail] at hparts
        rw [List.forall_mem_cons]
        exact ⟨hgood, ih hvalues.2 hparts hrest⟩

end Parts

/-- **The entries of a form are given back exactly if all of them are good**, for every boundary
that is in no value. -/
theorem givesBack_iff (suffix : Suffix) (entries : List Entry)
    (hvalues : ∀ entry ∈ entries, ¬ boundary suffix <:+: entry.value.bytes) :
    GivesBack suffix entries ↔ ∀ entry ∈ entries, Good entry := by
  rw [GivesBack, formDataToBytes_eq, parse]
  constructor
  · rintro ⟨parts, hparts, hdescribes⟩
    exact good_of_parseParts hvalues hparts hdescribes
  · intro h
    refine parseParts_good hvalues h ?_
    have hlength : ∀ l : List Entry, l.length ≤ (l.flatMap
        (fun entry => (Binary.ofString "--" ++ boundary suffix) ++ partBytes entry)).length := by
      intro l
      induction l with
      | nil => exact Nat.zero_le _
      | cons entry l ih =>
        have hdashes : (Binary.ofString "--").length = 2 := by decide
        rw [List.flatMap_cons, List.length_append, List.length_append, List.length_append, hdashes,
          List.length_cons]
        omega
    rw [List.length_append]
    exact (hlength entries).trans (Nat.le_add_right _ _)

def plainSuffix : Suffix := ⟨.ofString "x1y", by decide⟩

theorem plain_values :
    (¬ boundary plainSuffix <:+: (Value.text (lit "b")).bytes) ∧
      (¬ boundary plainSuffix <:+: (Value.text (lit "v")).bytes) ∧
      parse (boundary plainSuffix) (formDataToBytes plainSuffix
        [⟨lit "x\"; filename=\"y", .text (lit "v")⟩]) =
          some [.file (.ofString "x") (.ofString "y") (.ofString "text/plain") (.ofString "v")] := by
  decide +kernel

theorem givesBack_plain :
    GivesBack plainSuffix [⟨lit "a", .text (lit "b")⟩] ↔
      ∀ entry ∈ ([⟨lit "a", .text (lit "b")⟩] : List Entry), Good entry :=
  givesBack_iff plainSuffix [⟨lit "a", .text (lit "b")⟩] fun entry hentry => by
    rw [List.mem_singleton.1 hentry]
    exact plain_values.1

/-- The name `x"; filename="y` makes a text a file with another name. -/
theorem not_givesBack_quote :
    (¬ boundary plainSuffix <:+: (Value.text (lit "v")).bytes) ∧
      ¬ GivesBack plainSuffix [⟨lit "x\"; filename=\"y", .text (lit "v")⟩] := by
  refine ⟨plain_values.2.1, ?_⟩
  rintro ⟨parts, hparts, hdescribes⟩
  rw [plain_values.2.2, Option.some_inj] at hparts
  subst hparts
  cases hdescribes with
  | cons hentry _ => exact hentry.elim

end QuickBeam.Web.Multipart
