import QuickBeam.Lib.Leb128

/-!
# The binary format of WebAssembly modules

The grammar of the sections, imports, memories and globals as relations between bytes and what they
mean, with the constant expressions of WebAssembly 1.0.  A number may have more bytes than it needs,
so an expression keeps the bytes of its immediate.

`Valid` is validity up to a predicate `rest` on the sections that the format has besides imports,
memories and globals, which sees the types of the index spaces only.
-/

namespace QuickBeam.Lib.Wasm

open Leb128

abbrev Bytes := List UInt8

/-! ### Sections -/

structure Section where
  id : ℕ
  payload : Bytes

def magic : Bytes := [0x00, 0x61, 0x73, 0x6D, 0x01, 0x00, 0x00, 0x00]

inductive IsSections : Bytes → List Section → Prop
  | nil : IsSections [] []
  | cons (id : UInt8) {size payload rest : Bytes} {sections : List Section} :
      U32 size payload.length → IsSections rest sections →
      IsSections (id :: (size ++ (payload ++ rest))) (⟨id.toNat, payload⟩ :: sections)

/-- The place of a section: tags stand before the globals, the data count before the code. -/
def place : ℕ → ℕ
  | 1 => 1
  | 2 => 2
  | 3 => 3
  | 4 => 4
  | 5 => 5
  | 13 => 6
  | 6 => 7
  | 7 => 8
  | 8 => 9
  | 9 => 10
  | 12 => 11
  | 10 => 12
  | 11 => 13
  | _ => 0

/-- Each section once and in its place, with custom sections anywhere. -/
structure InPlace (sections : List Section) : Prop where
  known : ∀ s ∈ sections, s.id ≤ 13
  ordered : (sections.filter fun s => s.id ≠ 0).Pairwise fun s t => place s.id < place t.id

/-- The payload of a section is a vector. -/
def IsVec {β : Type} (item : Bytes → β → Prop) (bs : Bytes) (xs : List β) : Prop :=
  ∃ count items, bs = count ++ items.flatten ∧ U32 count xs.length ∧ List.Forall₂ item items xs

inductive Entries {β : Type} (item : Bytes → β → Prop) (id : ℕ) (sections : List Section) :
    List β → Prop
  | absent : (∀ s ∈ sections, s.id ≠ id) → Entries item id sections []
  | present {payload : Bytes} {xs : List β} :
      ⟨id, payload⟩ ∈ sections → IsVec item payload xs → Entries item id sections xs

/-! ### Imports, memories and globals -/

structure Limits where
  min : ℕ
  max : Option ℕ
deriving DecidableEq

inductive IsLimits : Bytes → Limits → Prop
  | unbounded {a : Bytes} {n : ℕ} : U32 a n → IsLimits (0x00 :: a) ⟨n, none⟩
  | bounded {a b : Bytes} {n m : ℕ} : U32 a n → U32 b m → IsLimits (0x01 :: (a ++ b)) ⟨n, some m⟩

inductive ValType where
  | i32
  | i64
  | f32
  | f64
deriving DecidableEq

def ValType.byte : ValType → UInt8
  | .i32 => 0x7F
  | .i64 => 0x7E
  | .f32 => 0x7D
  | .f64 => 0x7C

def ValType.name : ValType → String
  | .i32 => "i32"
  | .i64 => "i64"
  | .f32 => "f32"
  | .f64 => "f64"

def mutByte (isMutable : Bool) : UInt8 := if isMutable then 1 else 0

inductive ConstInstr where
  | i32Const (value : ℤ)
  | i64Const (value : ℤ)
  | f32Const (bits : Bytes)
  | f64Const (bits : Bytes)
  | globalGet (index : ℕ)
deriving DecidableEq

def ConstInstr.opcode : ConstInstr → UInt8
  | .i32Const _ => 0x41
  | .i64Const _ => 0x42
  | .f32Const _ => 0x43
  | .f64Const _ => 0x44
  | .globalGet _ => 0x23

structure ConstExpr where
  instr : ConstInstr
  immediate : Bytes
deriving DecidableEq

def ConstExpr.WellFormed (e : ConstExpr) : Prop :=
  match e.instr with
  | .i32Const value => S32 e.immediate value
  | .i64Const value => S64 e.immediate value
  | .f32Const bits => e.immediate = bits ∧ bits.length = 4
  | .f64Const bits => e.immediate = bits ∧ bits.length = 8
  | .globalGet index => U32 e.immediate index

def ConstExpr.bytes (e : ConstExpr) : Bytes := e.instr.opcode :: (e.immediate ++ [0x0B])

structure Global where
  type : ValType
  isMutable : Bool
  init : ConstExpr
deriving DecidableEq

def Global.bytes (g : Global) : Bytes := g.type.byte :: mutByte g.isMutable :: g.init.bytes

def IsGlobal (bs : Bytes) (g : Global) : Prop := bs = g.bytes ∧ g.init.WellFormed

inductive ImportDesc where
  | func (typeIdx : ℕ)
  | memory (limits : Limits)
  | global (type : ValType) (isMutable : Bool)
deriving DecidableEq

structure Import where
  module : Bytes
  name : Bytes
  desc : ImportDesc
deriving DecidableEq

def IsName (bs name : Bytes) : Prop := ∃ size, bs = size ++ name ∧ U32 size name.length

inductive IsDesc : Bytes → ImportDesc → Prop
  | func {a : Bytes} {n : ℕ} : U32 a n → IsDesc (0x00 :: a) (.func n)
  | memory {a : Bytes} {limits : Limits} : IsLimits a limits → IsDesc (0x02 :: a) (.memory limits)
  | global (type : ValType) (isMutable : Bool) :
      IsDesc [0x03, type.byte, mutByte isMutable] (.global type isMutable)

def IsImport (bs : Bytes) (i : Import) : Prop :=
  ∃ module name desc, bs = module ++ (name ++ desc) ∧
    IsName module i.module ∧ IsName name i.name ∧ IsDesc desc i.desc

/-! ### Modules -/

structure Module where
  sections : List Section
  imports : List Import
  /-- The type indices of the functions that the module defines. -/
  functions : List ℕ
  memories : List Limits
  globals : List Global

structure Parses (bytes : Bytes) (m : Module) : Prop where
  sections : ∃ body, bytes = magic ++ body ∧ IsSections body m.sections
  inPlace : InPlace m.sections
  imports : Entries IsImport 2 m.sections m.imports
  functions : Entries U32 3 m.sections m.functions
  memories : Entries IsLimits 5 m.sections m.memories
  globals : Entries IsGlobal 6 m.sections m.globals

def ImportDesc.typeIdx : ImportDesc → Option ℕ
  | .func typeIdx => some typeIdx
  | _ => none

def ImportDesc.limits : ImportDesc → Option Limits
  | .memory limits => some limits
  | _ => none

def ImportDesc.globalType : ImportDesc → Option (ValType × Bool)
  | .global type isMutable => some (type, isMutable)
  | _ => none

def Global.globalType (g : Global) : ValType × Bool := (g.type, g.isMutable)

/-- The types of the index spaces, imports first. -/
structure Context where
  functions : List ℕ
  memories : ℕ
  globals : List (ValType × Bool)

def Module.importedGlobals (m : Module) : List (ValType × Bool) :=
  m.imports.filterMap fun i => i.desc.globalType

def Module.context (m : Module) : Context where
  functions := (m.imports.filterMap fun i => i.desc.typeIdx) ++ m.functions
  memories := (m.imports.filterMap fun i => i.desc.limits).length + m.memories.length
  globals := m.importedGlobals ++ m.globals.map Global.globalType

structure Limits.Valid (limits : Limits) : Prop where
  min : limits.min ≤ 65536
  max : ∀ max ∈ limits.max, limits.min ≤ max ∧ max ≤ 65536

/-- The globals that an initialiser may read, which must be immutable: those of WebAssembly 1.0 are
the imported ones. -/
inductive Reads where
  | imported
  | earlier
deriving DecidableEq

/-- The types of the globals that the `k`-th initialiser may read. -/
def Module.readable (m : Module) (k : ℕ) : Reads → List (ValType × Bool)
  | .imported => m.importedGlobals
  | .earlier => m.importedGlobals ++ (m.globals.take k).map Global.globalType

inductive ConstInstr.HasType (readable : List (ValType × Bool)) : ConstInstr → ValType → Prop
  | i32Const (value : ℤ) : HasType readable (.i32Const value) .i32
  | i64Const (value : ℤ) : HasType readable (.i64Const value) .i64
  | f32Const (bits : Bytes) : HasType readable (.f32Const bits) .f32
  | f64Const (bits : Bytes) : HasType readable (.f64Const bits) .f64
  | globalGet {index : ℕ} {type : ValType} : readable[index]? = some (type, false) →
      HasType readable (.globalGet index) type

/-- The sections besides imports, memories and globals. -/
def Section.isOther (s : Section) : Bool := s.id != 2 && s.id != 5 && s.id != 6

structure Valid (reads : Reads) (rest : Context → List Section → Prop) (bytes : Bytes)
    (m : Module) : Prop extends Parses bytes m where
  importedLimits : ∀ i ∈ m.imports, ∀ limits ∈ i.desc.limits, limits.Valid
  limits : ∀ limits ∈ m.memories, limits.Valid
  inits : ∀ (k : ℕ) (g : Global), m.globals[k]? = some g →
    g.init.instr.HasType (m.readable k reads) g.type
  rest : rest m.context (m.sections.filter Section.isOther)

end QuickBeam.Lib.Wasm
