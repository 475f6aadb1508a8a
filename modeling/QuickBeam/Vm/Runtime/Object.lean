import QuickBeam.Lib.Assoc
import QuickBeam.Vm.Runtime.Value

/-!
# Objects and property descriptors (`runtime/object.ex`, `runtime/property/descriptor.ex`)

A property with the default flags is stored as its value alone, every other one as a full
descriptor.  A descriptor is a data or an accessor descriptor, so that the fields that mean
nothing for its kind cannot be set.
-/

namespace QuickBeam.Vm.Runtime

open QuickBeam.Lib QuickBeam.Vm.Program

/-! ### Keys -/

/-- A normalized property key: an array index, or any other term. -/
inductive Key where
  | index (i : ℕ)
  | name (v : Value)
deriving DecidableEq

def lengthKey : Key := .name (.string (.ofString "length"))

def maxIndex : ℕ := 4294967294

def isDigit (b : UInt8) : Bool := 48 ≤ b.toNat && b.toNat ≤ 57

/-- `Integer.parse/1` of a string of digits. -/
def parseDigits (digits : Binary) : ℕ := digits.foldl (fun n b => 10 * n + (b.toNat - 48)) 0

def normalizeKey (key : Value) : Key :=
  match key with
  | .int n =>
      if 0 ≤ n ∧ n ≤ maxIndex then .index n.toNat else .name (.string (.ofString (toString n)))
  | .float x =>
      if x.toUnits % Double.unitsPerOne ≠ 0 then .name key
      else if 0 ≤ x.toUnits ∧ x.toUnits ≤ maxIndex * Double.unitsPerOne then .index x.trunc.toNat
      else .name (.string (.ofString (toString x.trunc)))
  | .string s =>
      if s ≠ [] ∧ s.all isDigit then
        if parseDigits s ≤ maxIndex ∧ Binary.ofString (toString (parseDigits s)) = s then
          .index (parseDigits s)
        else .name key
      else .name key
  | _ => .name key

/-! ### Descriptors -/

/-- The kind of a property with the fields of that kind. -/
inductive Content where
  | data (value : Value) (writable : Bool)
  | accessor (getter setter : Option Value)
deriving DecidableEq

structure Descriptor where
  content : Content
  enumerable : Bool
  configurable : Bool
deriving DecidableEq

namespace Descriptor

def isAccessor (d : Descriptor) : Bool :=
  match d.content with
  | .data _ _ => false
  | .accessor _ _ => true

def value (d : Descriptor) : Value :=
  match d.content with
  | .data v _ => v
  | .accessor _ _ => .undefined

def writable (d : Descriptor) : Bool :=
  match d.content with
  | .data _ w => w
  | .accessor _ _ => false

def getter (d : Descriptor) : Option Value :=
  match d.content with
  | .data _ _ => none
  | .accessor g _ => g

def setter (d : Descriptor) : Option Value :=
  match d.content with
  | .data _ _ => none
  | .accessor _ s => s

/-- `%{property | value: value}`, for a data property. -/
def withValue (d : Descriptor) (v : Value) : Descriptor :=
  match d.content with
  | .data _ w => { d with content := .data v w }
  | .accessor _ _ => d

/-- `default_data_property?/1`. -/
def isDefault (d : Descriptor) : Bool :=
  !d.isAccessor && d.writable && d.enumerable && d.configurable

end Descriptor

inductive Stored where
  | default (value : Value)
  | full (property : Descriptor)
deriving DecidableEq

namespace Stored

/-- `Object.property_descriptor/1`. -/
def descriptor : Stored → Descriptor
  | .default v => ⟨.data v true, true, true⟩
  | .full d => d

/-- `match?(%Descriptor{configurable: false}, property)`. -/
def isFixed : Stored → Bool
  | .default _ => false
  | .full d => !d.configurable

def enumerable : Stored → Bool
  | .default _ => true
  | .full d => d.enumerable

/-- `current_flag(current, :configurable, true)`. -/
def configurable : Stored → Bool
  | .default _ => true
  | .full d => d.configurable

def getter : Stored → Option Value
  | .default _ => none
  | .full d => d.getter

def setter : Stored → Option Value
  | .default _ => none
  | .full d => d.setter

end Stored

/-! ### Objects -/

inductive Kind where
  | ordinary | array | function | map | promise | regexp | set
deriving DecidableEq

/-- `%Object{}`; `prototype` is the identifier of an object. -/
structure Object where
  kind : Kind
  prototype : Option ℕ
  properties : Assoc Key Stored
  propertyOrder : List Key
  extensible : Bool
  length : ℕ
  lengthWritable : Bool
  callable : Option Value
  internal : Option Value

namespace Object

def rememberProperty (object : Object) (key : Key) : Object :=
  match key with
  | .index _ => object
  | .name _ =>
      if object.properties.hasKey key then object
      else { object with propertyOrder := object.propertyOrder ++ [key] }

/-- `put_default_property/3`: an index may raise the length of an array. -/
def putDefaultProperty (object : Object) (key : Key) (value : Value) : Object :=
  let object := object.rememberProperty key
  let object := { object with properties := object.properties.put key (.default value) }
  match object.kind, key with
  | .array, .index i => { object with length := max object.length (i + 1) }
  | _, _ => object

def putPropertyStruct (object : Object) (key : Key) (property : Descriptor) : Object :=
  if property.isDefault then object.putDefaultProperty key property.value
  else
    let object := object.rememberProperty key
    { object with properties := object.properties.put key (.full property) }

def putProperty (object : Object) (key : Key) (value : Value) : Object :=
  match object.properties.get? key with
  | some (.default _) => object.putDefaultProperty key value
  | some (.full property) => object.putPropertyStruct key (property.withValue value)
  | none => object.putDefaultProperty key value

def beyond (length : ℕ) : Key → Bool
  | .index i => length ≤ i
  | .name _ => false

def isIndex : Key → Bool
  | .index _ => true
  | .name _ => false

def clearArray (object : Object) : Object :=
  { object with
    properties := object.properties.filterKeys fun key => !isIndex key
    length := 0 }

/-- `Heap.array_entries/1`: the present values, in the order of their indices. -/
def presentValues (object : Object) : List Value :=
  (List.range object.length).filterMap fun i =>
    (object.properties.get? (.index i)).map fun stored => stored.descriptor.value

end Object

end QuickBeam.Vm.Runtime
