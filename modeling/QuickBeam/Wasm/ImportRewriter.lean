import Mathlib
import QuickBeam.Lib.Bytes
import QuickBeam.Lib.Except
import QuickBeam.Lib.WasmBinary

/-!
# The import rewriter (`wasm/import_rewriter.ex`)

Before a module is instantiated, its imports are replaced: the imported memories and globals become
definitions in front of the module's own, and the functions are imported under fresh symbols.

An expected import is a description of the module (`module_metadata`), a provided one is a map of
`webassembly.ts`, whose values are terms and whose keys may be missing.  A merged import has the
provided value of a key that both have.  Names and messages are binaries; `uniqueInteger i` is the
unique integer of the `i`-th function import.  A clause or a match that fails raises.
-/

namespace QuickBeam.Wasm.ImportRewriter

open QuickBeam.Lib QuickBeam.Lib.Wasm

/-! ### Terms and imports -/

inductive Term where
  | nil
  | bool (b : Bool)
  | int (z : ℤ)
  | float (x : Float)
  | bin (bytes : Bytes)
  | other

inductive Failure where
  | error (message : Bytes)
  | raised
deriving DecidableEq

def text (s : String) : Bytes := s.toUTF8.toList

def fail {β : Type} (message : String) : Except Failure β := .error (.error (text message))

def raise {β : Type} : Except Failure β := .error .raised

inductive ExpectedDesc where
  | function (params results : List String) (typeIdx : ℕ)
  | table
  | memory (min : ℕ) (max : Option ℕ)
  | global (type : String) (isMutable : Bool)
  | tag
deriving DecidableEq

def ExpectedDesc.kind : ExpectedDesc → String
  | .function _ _ _ => "function"
  | .table => "table"
  | .memory _ _ => "memory"
  | .global _ _ => "global"
  | .tag => "tag"

structure Expected where
  module : Bytes
  name : Bytes
  desc : ExpectedDesc

structure Provided where
  module : Bytes
  name : Bytes
  kind : String
  callbackName : Option Term
  bytes : Option Term
  max : Option Term
  type : Option String
  isMutable : Option Bool
  value : Option Term

structure Validated where
  expected : Expected
  provided : Provided

/-- `Map.get(import, "max")` of a merged import. -/
def Validated.max (v : Validated) : Term :=
  match v.provided.max, v.expected.desc with
  | some max, _ => max
  | none, .memory _ (some max) => .int max
  | none, _ => .nil

/-! ### Validation -/

/-- `>` of a term and an integer; every other term is above the numbers. -/
def Term.gt (t : Term) (n : ℕ) : Bool :=
  match t with
  | .int z => n < z
  | .float x => Float.ofNat n < x
  | _ => true

def Term.isNil : Term → Bool
  | .nil => true
  | _ => false

def validateMemoryBytes (bytes : Term) : Except Failure Bytes :=
  match bytes with
  | .bin bytes =>
    if bytes.length % 65536 ≠ 0 then fail "memory import size must be page-aligned" else .ok bytes
  | _ => fail "memory import bytes must be a binary"

def validateMemoryLimits (min : ℕ) (max : Option ℕ) (bytes : Bytes) (actualMax : Term) :
    Except Failure Unit :=
  let actualMin := bytes.length / 65536
  if actualMin < min then fail "memory import minimum too small"
  else match max with
    | none => .ok ()
    | some max =>
      if max < actualMin then fail "memory import current size exceeds declared maximum"
      else if actualMax.isNil || actualMax.gt max then fail "memory import maximum too large"
      else .ok ()

def validateGlobalValue (type : String) (value : Term) : Except Failure Unit :=
  match type, value with
  | "i32", .int _ => .ok ()
  | "i64", .int _ => .ok ()
  | "i64", .bin _ => .ok ()
  | "f32", .int _ => .ok ()
  | "f32", .float _ => .ok ()
  | "f64", .int _ => .ok ()
  | "f64", .float _ => .ok ()
  | _, _ => fail "invalid global import value"

def validateImportValue (expected : Expected) (provided : Provided) : Except Failure Unit :=
  match expected.desc with
  | .function _ _ _ =>
    match provided.callbackName with
    | some (.bin _) => .ok ()
    | _ =>
      .error (.error (text "function import " ++ expected.module ++ text "." ++ expected.name ++
        text " requires a callback_name"))
  | .table =>
    .error (.error (text "table imports are not supported yet (" ++ expected.module ++ text "." ++
      expected.name ++ text ")"))
  | .memory min max => do
    let bytes ← validateMemoryBytes (provided.bytes.getD (.bin []))
    validateMemoryLimits min max bytes (provided.max.getD .nil)
  | .global type isMutable =>
    match provided.type, provided.isMutable, provided.value with
    | some type', some isMutable', some value =>
      if type' = type ∧ isMutable' = isMutable then validateGlobalValue type value
      else fail "global import type mismatch"
    | _, _, _ => fail "global import type mismatch"
  | .tag => raise

def validateImport (expected : Expected) : List Provided → Except Failure (Validated × List Provided)
  | [] =>
    .error (.error (text "missing import " ++ expected.module ++ text "." ++ expected.name))
  | provided :: rest => do
    if ¬ (expected.module = provided.module ∧ expected.name = provided.name) then
      fail "import order mismatch"
    else if expected.desc.kind ≠ provided.kind then fail "import kind mismatch"
    else
      let _ ← validateImportValue expected provided
      .ok (⟨expected, provided⟩, rest)

def validateImports : List Expected → List Provided → Except Failure (List Validated)
  | [], [] => .ok []
  | [], _ :: _ => fail "unexpected extra imports"
  | expected :: rest, remaining => do
    let (merged, remaining) ← validateImport expected remaining
    let validated ← validateImports rest remaining
    .ok (merged :: validated)

/-! ### Numbers -/

/-- `decode_u32/3`: the groups read so far are in `acc`. -/
def decodeU32From (acc shift : ℕ) : Bytes → Except Failure (ℕ × Bytes)
  | [] => raise
  | byte :: rest =>
    let value := acc ||| ((byte.toNat &&& 0x7F) <<< shift)
    if byte.toNat &&& 0x80 = 0 then .ok (value, rest) else decodeU32From value (shift + 7) rest

def decodeU32 (data : Bytes) : Except Failure (ℕ × Bytes) := decodeU32From 0 0 data

def encodeUleb128 (value : ℕ) : Bytes :=
  if value < 0x80 then [UInt8.ofNat value]
  else UInt8.ofNat (0x80 ||| (value &&& 0x7F)) :: encodeUleb128 (value >>> 7)
termination_by value
decreasing_by
  rw [Nat.shiftRight_eq_div_pow]
  omega

def encodeU32 (value : ℕ) : Bytes := encodeUleb128 value

/-- `done`: the group has all that is left, and its sign bit is right.  The remainder and the
quotient of a division by 128 are the low bits and the other ones. -/
def sleb128Done (value : ℤ) : Prop :=
  (value / 128 = 0 ∧ (value % 128).toNat &&& 0x40 = 0) ∨
    (value / 128 = -1 ∧ (value % 128).toNat &&& 0x40 ≠ 0)

instance (value : ℤ) : Decidable (sleb128Done value) := inferInstanceAs (Decidable (_ ∨ _))

def encodeSleb128 (value : ℤ) : Bytes :=
  if sleb128Done value then [UInt8.ofNat (value % 128).toNat]
  else UInt8.ofNat ((value % 128).toNat ||| 0x80) :: encodeSleb128 (value / 128)
termination_by value.natAbs
decreasing_by
  rename_i hmore
  by_contra hle
  have hvalue : value = 0 ∨ value = -1 := by omega
  rcases hvalue with rfl | rfl
  · exact hmore (.inl ⟨rfl, rfl⟩)
  · exact hmore (.inr ⟨rfl, by decide⟩)

def toInteger (bytes : Bytes) : Except Failure ℤ :=
  let digits (ds : Bytes) : Except Failure ℕ :=
    if ds ≠ [] ∧ ∀ d ∈ ds, 48 ≤ d.toNat ∧ d.toNat ≤ 57 then
      .ok (ds.foldl (fun n d => 10 * n + (d.toNat - 48)) 0)
    else raise
  match bytes with
  | 45 :: ds => return -(← digits ds)
  | 43 :: ds => return (← digits ds)
  | ds => return (← digits ds)

def parseI64 : Term → Except Failure ℤ
  | .int z => .ok z
  | .bin bytes => toInteger bytes
  | _ => raise

def Term.toFloat : Term → Except Failure Float
  | .int z => if (Float.ofInt z).isFinite then .ok (Float.ofInt z) else raise
  | .float x => .ok x
  | _ => raise

def float32 (value : Term) : Except Failure Bytes := do
  let x := (← value.toFloat).toFloat32
  if x.isFinite then .ok (Bytes.writeLE 4 x.toBits.toNat) else raise

def float64 (value : Term) : Except Failure Bytes := do
  return Bytes.writeLE 8 (← value.toFloat).toBits.toNat

/-! ### Entries -/

def encodeVecRaw (entries : List Bytes) : Bytes := encodeU32 entries.length ++ entries.flatten

def encodeName (name : Bytes) : Bytes := encodeU32 name.length ++ name

structure FunctionImport where
  moduleName : Bytes
  symbol : Bytes
  signature : Bytes
  callbackName : Option Term
  typeIdx : ℕ

def encodeSignatureType : String → Except Failure UInt8
  | "i32" => .ok 0x69
  | "i64" => .ok 0x49
  | "f32" => .ok 0x66
  | "f64" => .ok 0x46
  | _ => raise

def encodeFunctionSignature (params results : List String) : Except Failure Bytes := do
  match results with
  | [] => return [0x28] ++ (← params.mapM encodeSignatureType) ++ [0x29]
  | [result] =>
    return [0x28] ++ (← params.mapM encodeSignatureType) ++ [0x29, ← encodeSignatureType result]
  | _ => raise

/-- The function imports, of which the first takes the unique integer `i`. -/
def buildFunctionImports (uniqueInteger : ℕ → ℕ) (i : ℕ) :
    List Validated → Except Failure (List FunctionImport)
  | [] => .ok []
  | v :: rest =>
    match v.expected.desc with
    | .function params results typeIdx => do
      let signature ← encodeFunctionSignature params results
      let functionImports ← buildFunctionImports uniqueInteger (i + 1) rest
      return {
        moduleName := v.expected.module
        symbol := text s!"__qb_wasm_import_{uniqueInteger i}"
        signature
        callbackName := v.provided.callbackName
        typeIdx } :: functionImports
    | _ => buildFunctionImports uniqueInteger i rest

def encodeFunctionImport (f : FunctionImport) : Bytes :=
  encodeName f.moduleName ++ encodeName f.symbol ++ [0x00] ++ encodeU32 f.typeIdx

def encodeLimits (min : ℕ) (max : Term) : Except Failure Bytes :=
  match max with
  | .nil => .ok (0x00 :: encodeU32 min)
  | .int (.ofNat max) => .ok (0x01 :: encodeU32 min ++ encodeU32 max)
  | _ => raise

/-- `Map.fetch!(import, "bytes")` with the size of a binary. -/
def fetchBytes (v : Validated) : Except Failure Bytes :=
  match v.provided.bytes with
  | some (.bin bytes) => .ok bytes
  | _ => raise

def encodeMemoryImport (v : Validated) : Except Failure Bytes := do
  encodeLimits ((← fetchBytes v).length / 65536) v.max

def encodeValtype : String → Except Failure UInt8
  | "i32" => .ok 0x7F
  | "i64" => .ok 0x7E
  | "f32" => .ok 0x7D
  | "f64" => .ok 0x7C
  | _ => raise

def encodeGlobalInit (type : String) (value : Term) : Except Failure Bytes :=
  match type, value with
  | "i32", .int z => .ok (0x41 :: encodeSleb128 z)
  | "i64", value => return 0x42 :: encodeSleb128 (← parseI64 value)
  | "f32", value => return 0x43 :: (← float32 value)
  | "f64", value => return 0x44 :: (← float64 value)
  | _, _ => raise

def encodeGlobalImport (v : Validated) : Except Failure Bytes :=
  match v.expected.desc, v.provided.value with
  | .global type isMutable, some value => do
    return [← encodeValtype type, if isMutable then 1 else 0] ++ (← encodeGlobalInit type value) ++
      [0x0B]
  | _, _ => raise

def takeLimitsRaw (data : Bytes) : Except Failure (Bytes × Bytes) :=
  match data with
  | 0x00 :: rest => do
    let (_, rest) ← decodeU32 rest
    let consumed := data.length - rest.length
    .ok (data.take consumed, data.drop consumed)
  | 0x01 :: rest => do
    let (_, rest) ← decodeU32 rest
    let (_, rest) ← decodeU32 rest
    let consumed := data.length - rest.length
    .ok (data.take consumed, data.drop consumed)
  | _ => raise

/-- The entry ends at the first `end` byte behind the type. -/
def takeGlobalRaw (data : Bytes) : Except Failure (Bytes × Bytes) :=
  match data with
  | _ :: _ :: rest =>
    match rest.findIdx? (· = 0x0B) with
    | some exprSize =>
      let rawSize := 2 + exprSize + 1
      .ok (data.take rawSize, data.drop rawSize)
    | none => raise
  | _ => raise

def decodeVecRawItems (decoder : Bytes → Except Failure (Bytes × Bytes)) :
    ℕ → Bytes → Except Failure (List Bytes × Bytes)
  | 0, rest => .ok ([], rest)
  | count + 1, data => do
    let (item, rest) ← decoder data
    let (items, rest) ← decodeVecRawItems decoder count rest
    .ok (item :: items, rest)

def decodeEntries (decoder : Bytes → Except Failure (Bytes × Bytes)) (payload : Bytes) :
    Except Failure (List Bytes) := do
  let (count, rest) ← decodeU32 payload
  let (entries, rest) ← decodeVecRawItems decoder count rest
  if rest = [] then .ok entries else raise

def decodeMemoryEntries : Bytes → Except Failure (List Bytes) := decodeEntries takeLimitsRaw

def decodeGlobalEntries : Bytes → Except Failure (List Bytes) := decodeEntries takeGlobalRaw

/-! ### Sections -/

/-- A section has at least one byte, so that many sections are enough. -/
def parseSections : ℕ → Bytes → Except Failure (List Section)
  | _, [] => .ok []
  | 0, _ :: _ => raise
  | fuel + 1, id :: rest => do
    let (size, rest) ← decodeU32 rest
    if size ≤ rest.length then
      let sections ← parseSections fuel (rest.drop size)
      .ok (⟨id.toNat, rest.take size⟩ :: sections)
    else fail "truncated WASM section"

def splitSections (bytes : Bytes) : Except Failure (List Section) :=
  if magic.isPrefixOf bytes then
    let rest := bytes.drop magic.length
    parseSections rest.length rest
  else fail "not a WASM binary"

def encodeSection (s : Section) : Bytes :=
  UInt8.ofNat s.id :: (encodeU32 s.payload.length ++ s.payload)

def rebuild (sections : List Section) : Bytes := magic ++ sections.flatMap encodeSection

def insertSection : List Section → Section → List Section
  | [], new => [new]
  | current :: rest, new =>
    if current.id > new.id ∧ current.id ≠ 0 then new :: current :: rest
    else current :: insertSection rest new

def keytake (id : ℕ) : List Section → Option (Bytes × List Section)
  | [] => none
  | s :: rest =>
    if s.id = id then some (s.payload, rest)
    else (keytake id rest).map fun (payload, rest) => (payload, s :: rest)

def removeImportSection (sections : List Section) : List Section :=
  sections.filter fun s => s.id ≠ 2

def prependFunctionImports (sections : List Section) (functionImports : List FunctionImport) :
    List Section :=
  if functionImports.isEmpty then sections
  else insertSection sections ⟨2, encodeVecRaw (functionImports.map encodeFunctionImport)⟩

def prependSectionEntries (sections : List Section) (id : ℕ) (imports : List Validated)
    (encode : Validated → Except Failure Bytes) (decode : Bytes → Except Failure (List Bytes)) :
    Except Failure (List Section) := do
  if imports.isEmpty then return sections
  let newEntries ← imports.mapM encode
  match keytake id sections with
  | some (payload, rest) =>
    return insertSection rest ⟨id, encodeVecRaw (newEntries ++ (← decode payload))⟩
  | none => return insertSection sections ⟨id, encodeVecRaw newEntries⟩

def memoryImports (validated : List Validated) : List Validated :=
  validated.filter fun v => v.expected.desc.kind = "memory"

def globalImports (validated : List Validated) : List Validated :=
  validated.filter fun v => v.expected.desc.kind = "global"

def prependMemoryImports (sections : List Section) (validated : List Validated) :
    Except Failure (List Section) :=
  prependSectionEntries sections 5 (memoryImports validated) encodeMemoryImport decodeMemoryEntries

def prependGlobalImports (sections : List Section) (validated : List Validated) :
    Except Failure (List Section) :=
  prependSectionEntries sections 6 (globalImports validated) encodeGlobalImport decodeGlobalEntries

def rewrite (uniqueInteger : ℕ → ℕ) (bytes : Bytes) (expected : List Expected)
    (provided : List Provided) : Except Failure (Bytes × List Bytes × List FunctionImport) :=
  if expected.isEmpty ∧ provided.isEmpty then .ok (bytes, [], [])
  else do
    let sections ← splitSections bytes
    let validated ← validateImports expected provided
    let functionImports ← buildFunctionImports uniqueInteger 0 validated
    let sections := removeImportSection sections
    let sections := prependFunctionImports sections functionImports
    let sections ← prependMemoryImports sections validated
    let sections ← prependGlobalImports sections validated
    let memoryInitializers ← (memoryImports validated).mapM fetchBytes
    return (rebuild sections, memoryInitializers, functionImports)

end QuickBeam.Wasm.ImportRewriter
