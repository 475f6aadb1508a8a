import QuickBeam.Lib.WasmBinary

/-!
# The index spaces of a parsed module (`finalize/1` of `wasm/parser.ex`)

WebAssembly counts the imports of a kind before the definitions.  For functions the parser does so
too.  It looks up an exported table, memory or global among the definitions alone: the description
is that of the entity as many places behind as there are imports of the kind.
-/

namespace QuickBeam.Wasm.IndexSpaces

open QuickBeam.Lib.Wasm (Bytes)

/-! ### Modules -/

inductive ValType where
  | i32 | i64 | f32 | f64 | v128 | funcref | externref | unknownValtype
deriving DecidableEq

structure FuncType where
  params : List ValType
  results : List ValType
deriving DecidableEq

structure Limits where
  min : ℕ
  max : Option ℕ
deriving DecidableEq

inductive Kind where
  | func | table | memory | global | tag
deriving DecidableEq

/-- What an import says of its entity. -/
inductive Desc where
  | func (typeIdx : ℕ)
  | table (limits : Limits) (element : ValType)
  | memory (limits : Limits)
  | global (type : ValType) (mutable_ : Bool)
  | tag (typeIdx : ℕ)
deriving DecidableEq

def Desc.kind : Desc → Kind
  | .func _ => .func
  | .table _ _ => .table
  | .memory _ => .memory
  | .global _ _ => .global
  | .tag _ => .tag

structure Import where
  module_ : Bytes
  name : Bytes
  desc : Desc

structure Export where
  name : Bytes
  kind : Kind
  index : ℕ

/-- What `Map.merge/2` adds to an import or an export. -/
inductive Details where
  | nothing
  | signature (type : FuncType)
  | entity (desc : Desc)
deriving DecidableEq

structure Function (L O : Type) where
  index : ℕ
  name : Option Bytes
  typeIdx : ℕ
  type : FuncType
  locals : L
  opcodes : O

/-- The module behind the last section.  `L` and `O` are the locals and opcodes of a body; a global
is without its `init`, which an export drops. -/
structure Sections (L O : Type) where
  types : List FuncType
  imports : List Import
  funcTypeIndices : List ℕ
  codeBodies : List (L × O)
  tables : List (Limits × ValType)
  memories : List Limits
  globals : List (ValType × Bool)
  exports : List Export
  names : ℕ → Option Bytes

structure Module (L O : Type) where
  functions : List (Function L O)
  imports : List (Import × Details)
  exports : List (Export × Details)

variable {L O : Type}

def noType : FuncType := ⟨[], []⟩

def importTypeIdx (i : Import) : Option ℕ :=
  match i.desc with
  | .func typeIdx => some typeIdx
  | _ => none

/-- `function_type_idx/3`. -/
def functionTypeIdx (imports : List Import) (funcTypeIndices : List ℕ) (index : ℕ) : Option ℕ :=
  let importTypeIndices := imports.filterMap importTypeIdx
  if index < importTypeIndices.length then importTypeIndices[index]?
  else funcTypeIndices[index - importTypeIndices.length]?

/-- `Enum.at(types, type_idx || -1, …)`: without an index it is the last type. -/
def typeAt (types : List FuncType) : Option ℕ → FuncType
  | some typeIdx => types.getD typeIdx noType
  | none => types.getLast?.getD noType

def enrichImport (m : Sections L O) (i : Import) : Details :=
  match i.desc with
  | .func typeIdx => .signature (typeAt m.types (some typeIdx))
  | _ => .nothing

def detailsOf (definition : Option Desc) : Details := definition.elim .nothing .entity

def enrichExport (m : Sections L O) (e : Export) : Details :=
  match e.kind with
  | .func => .signature (typeAt m.types (functionTypeIdx m.imports m.funcTypeIndices e.index))
  | .memory => detailsOf (m.memories[e.index]?.map .memory)
  | .table => detailsOf (m.tables[e.index]?.map fun t => .table t.1 t.2)
  | .global => detailsOf (m.globals[e.index]?.map fun g => .global g.1 g.2)
  | .tag => .nothing

def finalize (m : Sections L O) : Module L O :=
  let numImports := m.imports.countP (·.desc.kind = .func)
  { functions := (m.funcTypeIndices.zipIdx.zip m.codeBodies).map fun entry =>
      { index := numImports + entry.1.2
        name := m.names (numImports + entry.1.2)
        typeIdx := entry.1.1
        type := typeAt m.types (some entry.1.1)
        locals := entry.2.1
        opcodes := entry.2.2 }
    imports := m.imports.map fun i => (i, enrichImport m i)
    exports := m.exports.map fun e => (e, enrichExport m e) }

/-! ### Index spaces -/

def imported (m : Sections L O) (kind : Kind) : List Desc :=
  (m.imports.map (·.desc)).filter (·.kind = kind)

def defined (m : Sections L O) : Kind → List Desc
  | .func => m.funcTypeIndices.map .func
  | .table => m.tables.map fun t => .table t.1 t.2
  | .memory => m.memories.map .memory
  | .global => m.globals.map fun g => .global g.1 g.2
  | .tag => []

/-- The entities of a kind, the imported ones first. -/
def space (m : Sections L O) (kind : Kind) : List Desc := imported m kind ++ defined m kind

variable (m : Sections L O)

end QuickBeam.Wasm.IndexSpaces
