import QuickBeam.Lib.Double
import QuickBeam.Vm.Bytecode.Opcode

/-!
# Functions, values and programs (`program/function.ex`, `program.ex`)

A function holds its constants, and a constant is any value of the virtual machine, a function
among them: `FunctionOf` is a function over the type of its constants, and `Value` closes the
knot.  The fields whose types the source checks at run time (integers that are not negative,
booleans, lists) have those types here, so that a function of the wrong shape cannot be built.
-/

set_option linter.dupNamespace false

namespace QuickBeam.Vm.Program

open QuickBeam.Lib QuickBeam.Vm.Bytecode

/-! ### Functions -/

/-- A binary of the host.  Strings of the program are binaries. -/
abbrev Binary := List UInt8

instance : LawfulBEq Binary := inferInstanceAs (LawfulBEq (List UInt8))

def Binary.ofString (s : String) : Binary := s.toList.map fun c => UInt8.ofNat c.toNat

/-- What `%Variable{}` says about a local slot. -/
structure Variable where
  name : Binary
  isCaptured : Bool
  varRefIdx : Option ℕ
deriving DecidableEq

/-- `%Variable.Closure{}`: where a closure variable is captured from. -/
structure Closure where
  name : Binary
  varIdx : ℕ
  closureType : ℕ
deriving DecidableEq

structure FunctionHeader where
  id : ℕ
  argCount : ℕ
  varCount : ℕ
  definedArgCount : ℕ
  stackSize : ℕ
  varRefCount : ℕ
  locals : List Variable
  closureVars : List Closure
  instructions : List Instruction
  sourcePositions : List (ℕ × ℕ)
  hasPrototype : Bool
  funcKind : ℕ
deriving DecidableEq

structure FunctionOf (V : Type) extends FunctionHeader where
  constants : List V

/-! ### Values -/

inductive SlotRef where
  | cell (id : ℕ)
  | global (name : Binary)
deriving DecidableEq

/-- The values of the virtual machine.  Numbers are integers, finite doubles and three atoms;
`slot` is a promoted local, `catchMarker` and `returnAddress` are the two kinds of stack entry
that are no JavaScript value, and `array`, `object` and `templateObject` are constants. -/
inductive Value where
  | undefined
  | null
  | bool (b : Bool)
  | int (n : ℤ)
  | float (x : Double)
  | nan
  | infinity
  | negInfinity
  | string (s : Binary)
  | bigint (n : ℤ)
  | uninitialized
  | reference (id : ℕ)
  | promise (id : ℕ)
  | symbol (id : ℕ)
  | function (f : FunctionOf Value)
  | closure (f : FunctionOf Value) (refs : List SlotRef)
  | boundFunction (target this : Value) (arguments : List Value)
  | builtin (name : String)
  | primitiveMethod (kind : String) (key : Binary)
  | promiseResolver (promise : ℕ) (resolve assimilated : Bool)
  | array (values : List Value)
  | object (values : List (Binary × Value))
  | templateObject (cooked raw : Value)
  | slot (ref : SlotRef)
  | catchMarker (target : ℕ)
  | returnAddress (target : ℕ)
  | forIn (keys : List Value) (index : ℕ)
  | forOf (values : List Value) (index : ℕ)
  | directIterator
  | pending (reference : ℕ)
  | resolved (value : Value)
  | rejected (reason : Value)
  | atom (name : String)

abbrev Function := FunctionOf Value

/-- What the verifier and the interpreter read of a `%Program{}`. -/
structure Program where
  version : ℕ
  fingerprint : String
  atoms : List Binary
  root : Value

/-! ### The functions of a program -/

/-- `Nested f v`: the function `f` is `v` or is nested in it, at any depth. -/
inductive Nested (f : Function) : Value → Prop where
  | here : Nested f (.function f)
  | constant {g : Function} {v : Value} : v ∈ g.constants → Nested f v → Nested f (.function g)
  | array {vs : List Value} {v : Value} : v ∈ vs → Nested f v → Nested f (.array vs)
  | object {kvs : List (Binary × Value)} {kv : Binary × Value} :
      kv ∈ kvs → Nested f kv.2 → Nested f (.object kvs)
  | cooked {cooked raw : Value} : Nested f cooked → Nested f (.templateObject cooked raw)
  | raw {cooked raw : Value} : Nested f raw → Nested f (.templateObject cooked raw)

end QuickBeam.Vm.Program
