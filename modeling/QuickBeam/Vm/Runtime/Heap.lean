import QuickBeam.Lib.Except
import QuickBeam.Lib.Transition
import QuickBeam.Vm.Runtime.Object

/-!
# The heap of objects (`runtime/heap.ex`)

Each writing operation looks its object up, checks extensibility and the stored descriptor, and
stores the changed object.  Arrays have paths of their own for an index with the default flags.
The operations of the builtins that write in bulk (`sort`, `Object.freeze`,
`Object.defineProperty`) are at the end, with the machine whose events are all of them.
-/

namespace QuickBeam.Vm.Runtime

open QuickBeam.Lib QuickBeam.Vm.Program

/-- The owner-local heap of an evaluation. -/
structure Heap where
  objects : Assoc ℕ Object
  nextObjectId : ℕ
  defaultPrototypes : Assoc Kind ℕ

/-- The reasons of a refused operation; `matchError` raises in the host. -/
inductive HeapError where
  | invalidReference (id : ℕ)
  | prototypeChainTooDeep
  | cyclicPrototype
  | invokeSetter (setter : Value)
  | propertyNotWritable (key : Key)
  | objectNotExtensible (key : Key)
  | propertyNotConfigurable (key : Key)
  | invalidArrayLength
  | nonconfigurableArrayElement
  | invalidPropertyDescriptor
  | accessorNotCallable
  | notAnArray
  | matchError
deriving DecidableEq

namespace Heap

def maxPrototypeDepth : ℕ := 1000

def empty : Heap := ⟨∅, 0, ∅⟩

def fetchObject (h : Heap) (id : ℕ) : Except HeapError Object :=
  match h.objects.get? id with
  | some object => .ok object
  | none => .error (.invalidReference id)

/-- `%{execution | heap: Map.put(execution.heap, id, object)}`. -/
def store (h : Heap) (id : ℕ) (object : Object) : Heap :=
  { h with objects := h.objects.put id object }

/-! ### Allocation -/

/-- The options of `allocate/3`; `prototype` is `none` when the key is missing. -/
structure AllocateOptions where
  prototype : Option (Option ℕ)
  length : ℕ
  callable : Option Value
  internal : Option Value

def storeNew (h : Heap) (object : Object) : ℕ × Heap :=
  (h.nextObjectId,
    { h with
      objects := h.objects.put h.nextObjectId object
      nextObjectId := h.nextObjectId + 1 })

def allocate (h : Heap) (kind : Kind) (opts : AllocateOptions) : ℕ × Heap :=
  h.storeNew
    { kind
      prototype := opts.prototype.getD (h.defaultPrototypes.get? kind)
      properties := ∅
      propertyOrder := []
      extensible := true
      length := opts.length
      lengthWritable := true
      callable := opts.callable
      internal := opts.internal }

/-- The elements of a new array, from index `first` on. -/
def elements (first : ℕ) : List Value → Assoc Key Stored
  | [] => ∅
  | v :: vs => (elements (first + 1) vs).put (.index first) (.default v)

def allocateArray (h : Heap) (values : List Value) : ℕ × Heap :=
  h.storeNew
    { kind := .array
      prototype := h.defaultPrototypes.get? .array
      properties := elements 0 values
      propertyOrder := []
      extensible := true
      length := values.length
      lengthWritable := true
      callable := none
      internal := none }

/-! ### Reading -/

inductive Read where
  | value (v : Value)
  | accessor (getter : Value) (receiver : ℕ)
deriving DecidableEq

/-- `get_with_depth/5`, with the number of objects that may still be visited. -/
def getFrom (h : Heap) (key : Key) (receiver : ℕ) : ℕ → ℕ → Except HeapError Read
  | 0, _ => .error .prototypeChainTooDeep
  | levels + 1, id =>
      match h.objects.get? id with
      | none => .error (.invalidReference id)
      | some object =>
          if object.kind = .array ∧ key = lengthKey then .ok (.value (.int object.length))
          else
            match object.properties.get? key with
            | some (.default v) => .ok (.value v)
            | some (.full property) =>
                match property.getter, property.setter with
                | some getter, _ => .ok (.accessor getter receiver)
                | none, some _ => .ok (.value .undefined)
                | none, none => .ok (.value property.value)
            | none =>
                match object.prototype with
                | some prototype => getFrom h key receiver levels prototype
                | none => .ok (.value .undefined)

def get (h : Heap) (id : ℕ) (key : Value) : Except HeapError Read :=
  h.getFrom (normalizeKey key) id (maxPrototypeDepth + 1) id

/-- `inherited_property/4`; a chain that is too long counts as a read-only property. -/
def inheritedProperty (h : Heap) (key : Key) : ℕ → Option ℕ → Option Stored
  | _, none => none
  | 0, some _ => some (.full ⟨.data .undefined false, true, true⟩)
  | levels + 1, some id =>
      match h.objects.get? id with
      | none => none
      | some object =>
          match object.properties.get? key with
          | some property => some property
          | none => inheritedProperty h key levels object.prototype

def ownProperty (h : Heap) (id : ℕ) (key : Value) : Except HeapError (Option Descriptor) := do
  let object ← h.fetchObject id
  if object.kind = .array ∧ normalizeKey key = lengthKey then
    pure (some ⟨.data (.int object.length) object.lengthWritable, false, false⟩)
  else pure ((object.properties.get? (normalizeKey key)).map Stored.descriptor)

/-! ### Array lengths -/

def arrayLength : Value → Except HeapError ℕ
  | .int n => if 0 ≤ n ∧ n ≤ 4294967295 then .ok n.toNat else .error .invalidArrayLength
  | .float x =>
      if 0 ≤ x.toUnits ∧ x.toUnits ≤ 4294967295 * Double.unitsPerOne ∧
          x.toUnits % Double.unitsPerOne = 0 then .ok x.trunc.toNat
      else .error .invalidArrayLength
  | _ => .error .invalidArrayLength

def resizeArray (object : Object) (length : ℕ) : Except HeapError Object :=
  if object.length ≤ length then .ok { object with length }
  else
    let removed := object.properties.toList.filter fun e => Object.beyond length e.1
    if removed.any fun e => e.2.isFixed then .error .nonconfigurableArrayElement
    else
      .ok { object with
        length
        properties := object.properties.filterKeys fun key => !Object.beyond length key
        propertyOrder := object.propertyOrder.diff (removed.map Prod.fst) }

def setLength (object : Object) (value : Value) : Except HeapError Object := do
  check object.lengthWritable (.propertyNotWritable lengthKey)
  let length ← arrayLength value
  resizeArray object length

/-! ### Assignment -/

def writableDescriptor (property : Option Stored) (key : Key) : Except HeapError Unit :=
  match property with
  | some (.full d) =>
      match d.setter with
      | some setter => .error (.invokeSetter setter)
      | none => check (!d.isAccessor && d.writable) (.propertyNotWritable key)
  | _ => .ok ()

def putNewOrExisting (object : Object) (key : Key) : Except HeapError Unit :=
  if object.properties.hasKey key then .ok ()
  else if object.kind = .array ∧ object.lengthWritable = false ∧ Object.beyond object.length key
  then .error (.propertyNotWritable lengthKey)
  else check object.extensible (.objectNotExtensible key)

def putObject (h : Heap) (id : ℕ) (object : Object) (key : Key) (value : Value) :
    Except HeapError Heap := do
  if object.kind = .array ∧ key = lengthKey then
    let object ← setLength object value
    pure (h.store id object)
  else
    let property := (object.properties.get? key).orElse fun _ =>
      h.inheritedProperty key (maxPrototypeDepth + 1) object.prototype
    writableDescriptor property key
    putNewOrExisting object key
    pure (h.store id (object.putProperty key value))

def storeDefaultArrayIndex (h : Heap) (id : ℕ) (object : Object) (i : ℕ) (value : Value) : Heap :=
  h.store id { object with
    properties := object.properties.put (.index i) (.default value)
    length := max object.length (i + 1) }

def putNewDefaultArrayIndex (h : Heap) (id : ℕ) (object : Object) (i : ℕ) (value : Value) :
    Except HeapError Heap := do
  writableDescriptor
    (h.inheritedProperty (.index i) (maxPrototypeDepth + 1) object.prototype) (.index i)
  check (decide (i < object.length) || object.lengthWritable) (.propertyNotWritable lengthKey)
  check object.extensible (.objectNotExtensible (.index i))
  pure (h.storeDefaultArrayIndex id object i value)

def put (h : Heap) (id : ℕ) (key value : Value) : Except HeapError Heap := do
  let object ← h.fetchObject id
  match object.kind, normalizeKey key with
  | .array, .index i =>
      match object.properties.get? (.index i) with
      | some (.default _) => pure (h.storeDefaultArrayIndex id object i value)
      | none => h.putNewDefaultArrayIndex id object i value
      | some (.full _) => h.putObject id object (.index i) value
  | _, key => h.putObject id object key value

/-! ### Definition -/

/-- The flags given to `define/5` and `define_accessor/6`. -/
structure PropertyOptions where
  writable : Option Bool
  enumerable : Option Bool
  configurable : Option Bool

def noOptions : PropertyOptions := ⟨none, none, none⟩

def PropertyOptions.isDefault (opts : PropertyOptions) : Bool :=
  opts.writable.getD true && opts.enumerable.getD true && opts.configurable.getD true

def PropertyOptions.property (opts : PropertyOptions) (value : Value) : Descriptor :=
  ⟨.data value (opts.writable.getD true), opts.enumerable.getD true, opts.configurable.getD true⟩

/-- `getter == getter'`. -/
def sameFunction : Option Value → Option Value → Bool
  | none, none => true
  | some f, some g => f.looselySame g
  | _, _ => false

def validateFixedDefinition (key : Key) (current candidate : Descriptor) :
    Except HeapError Unit := do
  check (!candidate.configurable) (.propertyNotConfigurable key)
  check (candidate.enumerable = current.enumerable) (.propertyNotConfigurable key)
  check (candidate.isAccessor = current.isAccessor) (.propertyNotConfigurable key)
  check (!current.isAccessor || (sameFunction candidate.getter current.getter &&
    sameFunction candidate.setter current.setter)) (.propertyNotConfigurable key)
  check (current.isAccessor || current.writable ||
    (!candidate.writable && candidate.value.looselySame current.value)) (.propertyNotWritable key)

def validateArrayGrowth (object : Object) (key : Key) : Except HeapError Unit :=
  check (!(decide (object.kind = .array) && !object.lengthWritable &&
    Object.beyond object.length key)) (.propertyNotWritable lengthKey)

def validateDefinition (object : Object) (key : Key) (candidate : Descriptor) :
    Except HeapError Unit :=
  match object.properties.get? key with
  | some (.full current) =>
      if current.configurable then validateArrayGrowth object key
      else validateFixedDefinition key current candidate
  | none =>
      if object.extensible then validateArrayGrowth object key
      else .error (.objectNotExtensible key)
  | some (.default _) => validateArrayGrowth object key

def storeDescriptor (h : Heap) (id : ℕ) (object : Object) (key : Key) (property : Descriptor) :
    Except HeapError Heap := do
  validateDefinition object key property
  pure (h.store id (object.putPropertyStruct key property))

def defineObject (h : Heap) (id : ℕ) (object : Object) (key : Key) (value : Value)
    (opts : PropertyOptions) : Except HeapError Heap := do
  if object.kind = .array ∧ key = lengthKey then
    check (!opts.configurable.getD false) (.propertyNotConfigurable lengthKey)
    check (!opts.enumerable.getD false) (.propertyNotConfigurable lengthKey)
    let object ← setLength object value
    pure (h.store id
      { object with lengthWritable := opts.writable.getD object.lengthWritable })
  else h.storeDescriptor id object key (opts.property value)

def defineNewDefaultArrayIndex (h : Heap) (id : ℕ) (object : Object) (i : ℕ) (value : Value) :
    Except HeapError Heap := do
  check object.extensible (.objectNotExtensible (.index i))
  check (decide (i < object.length) || object.lengthWritable) (.propertyNotWritable lengthKey)
  pure (h.storeDefaultArrayIndex id object i value)

def define (h : Heap) (id : ℕ) (key value : Value) (opts : PropertyOptions) :
    Except HeapError Heap := do
  let object ← h.fetchObject id
  match object.kind, normalizeKey key with
  | .array, .index i =>
      match object.properties.get? (.index i), opts.isDefault with
      | some (.default _), true => pure (h.storeDefaultArrayIndex id object i value)
      | none, true => h.defineNewDefaultArrayIndex id object i value
      | _, _ => h.defineObject id object (.index i) value opts
  | _, key => h.defineObject id object key value opts

inductive AccessorKind where
  | getter | setter
deriving DecidableEq

/-- The descriptor of `define_accessor/6`: what is not given is kept. -/
def accessorProperty (current : Option Stored) (kind : AccessorKind) (callable : Value)
    (opts : PropertyOptions) : Descriptor where
  content := .accessor
    (if kind = .getter then some callable else current.bind Stored.getter)
    (if kind = .setter then some callable else current.bind Stored.setter)
  enumerable := opts.enumerable.getD ((current.map Stored.enumerable).getD true)
  configurable := opts.configurable.getD ((current.map Stored.configurable).getD true)

def defineAccessor (h : Heap) (id : ℕ) (key : Value) (kind : AccessorKind) (callable : Value)
    (opts : PropertyOptions) : Except HeapError Heap := do
  let object ← h.fetchObject id
  let key := normalizeKey key
  h.storeDescriptor id object key
    (accessorProperty (object.properties.get? key) kind callable opts)

def defineDescriptor (h : Heap) (id : ℕ) (key : Value) (property : Descriptor) :
    Except HeapError Heap := do
  let object ← h.fetchObject id
  if object.kind = .array ∧ normalizeKey key = lengthKey then
    .error (.propertyNotConfigurable lengthKey)
  else h.storeDescriptor id object (normalizeKey key) property

/-! ### Deletion and prototypes -/

def delete (h : Heap) (id : ℕ) (key : Value) : Except HeapError (Bool × Heap) := do
  let object ← h.fetchObject id
  match (object.properties.get? (normalizeKey key)).map Stored.isFixed with
  | some true => pure (false, h)
  | _ =>
      pure (true, h.store id { object with
        properties := object.properties.delete (normalizeKey key)
        propertyOrder := object.propertyOrder.erase (normalizeKey key) })

/-- `prototype_contains?/4`; a chain that is too long counts as cyclic. -/
def prototypeContains (h : Heap) (id : ℕ) : ℕ → Option ℕ → Bool
  | _, none => false
  | 0, some _ => true
  | levels + 1, some prototype =>
      if prototype = id then true
      else
        match h.objects.get? prototype with
        | some object => prototypeContains h id levels object.prototype
        | none => false

def setPrototype (h : Heap) (id : ℕ) (prototype : Option ℕ) : Except HeapError Heap := do
  let object ← h.fetchObject id
  check (!h.prototypeContains id (maxPrototypeDepth + 1) prototype) .cyclicPrototype
  pure (h.store id { object with prototype })

def updateObject (h : Heap) (id : ℕ) (update : Object → Object) : Except HeapError Heap := do
  let object ← h.fetchObject id
  pure (h.store id (update object))

/-! ### Operations of the builtins -/

def freeze (h : Heap) (id : ℕ) : Except HeapError Heap :=
  match h.updateObject id fun object => { object with extensible := false } with
  | .ok h => .ok h
  | .error _ => .error .matchError

/-- `Heap.update_object(execution, array, &Heap.clear_array/1)`. -/
def clearArray (h : Heap) (id : ℕ) : Except HeapError Heap := do
  let object ← h.fetchObject id
  check (object.kind = .array) .matchError
  pure (h.store id object.clearArray)

/-- The definitions of `sort_default/2`, from index `first` on. -/
def defineFrom (h : Heap) (id first : ℕ) : List Value → Except HeapError Heap
  | [] => .ok h
  | v :: vs =>
      match h.define id (.int first) v noOptions with
      | .ok h => defineFrom h id (first + 1) vs
      | .error _ => .error .matchError

/-- `Array.prototype.sort` without a comparator: by the string form, in byte order. -/
def sort [Value.Platform] (h : Heap) (id : ℕ) : Except HeapError Heap :=
  match h.objects.get? id with
  | none => .error .notAnArray
  | some object =>
      if object.kind ≠ .array then .error .notAnArray
      else do
        let values := object.presentValues.mergeSort fun a b =>
          compare a.toStringValue b.toStringValue != .gt
        let h ← h.clearArray id
        h.defineFrom id 0 values

structure DescriptorFields where
  get : Option Value
  set : Option Value
  value : Option Value
  writable : Option Value
  enumerable : Option Value
  configurable : Option Value

/-- `accessor_function/3`; `callable` is `Invocation.callable?/2`. -/
def accessorFunction (callable : Value → Bool) : Option Value → Except HeapError (Option Value)
  | none => .ok none
  | some .undefined => .ok none
  | some f => if callable f then .ok (some f) else .error .accessorNotCallable

/-- `descriptor_definition/3` and `build_descriptor/3`. -/
def descriptorDefinition (callable : Value → Bool) (fields : DescriptorFields)
    (current : Option Descriptor) : Except HeapError Descriptor := do
  check (!((fields.get.isSome || fields.set.isSome) &&
    (fields.value.isSome || fields.writable.isSome))) .invalidPropertyDescriptor
  let getter ← accessorFunction callable fields.get
  let setter ← accessorFunction callable fields.set
  let current := current.getD ⟨.data .undefined false, false, false⟩
  let enumerable := (fields.enumerable.map Value.truthy).getD current.enumerable
  let configurable := (fields.configurable.map Value.truthy).getD current.configurable
  if fields.get.isSome || fields.set.isSome ||
      (fields.value.isNone && fields.writable.isNone && current.isAccessor) then
    pure ⟨.accessor (if fields.get.isSome then getter else current.getter)
      (if fields.set.isSome then setter else current.setter), enumerable, configurable⟩
  else
    pure ⟨.data (fields.value.getD current.value)
      ((fields.writable.map Value.truthy).getD current.writable), enumerable, configurable⟩

def applyPropertyDefinition (h : Heap) (id : ℕ) (key : Value) (property : Descriptor) :
    Except HeapError Heap :=
  if property.isAccessor then h.defineDescriptor id key property
  else
    h.define id key property.value
      ⟨some property.writable, some property.enumerable, some property.configurable⟩

/-- `Object.defineProperty`, of a reference. -/
def defineProperty (h : Heap) (callable : Value → Bool) (id : ℕ) (key : Value)
    (fields : DescriptorFields) : Except HeapError Heap := do
  let current ← h.ownProperty id key
  let definition ← descriptorDefinition callable fields current
  h.applyPropertyDefinition id key definition

/-! ### The machine -/

inductive Operation where
  | allocate (kind : Kind) (opts : AllocateOptions)
  | allocateArray (values : List Value)
  | put (id : ℕ) (key value : Value)
  | define (id : ℕ) (key value : Value) (opts : PropertyOptions)
  | defineAccessor (id : ℕ) (key : Value) (kind : AccessorKind) (callable : Value)
      (opts : PropertyOptions)
  | defineDescriptor (id : ℕ) (key : Value) (property : Descriptor)
  | delete (id : ℕ) (key : Value)
  | setPrototype (id : ℕ) (prototype : Option ℕ)
  | clearArray (id : ℕ)
  | freeze (id : ℕ)
  | sort (id : ℕ)
  | defineProperty (id : ℕ) (key : Value) (fields : DescriptorFields)

variable [Value.Platform] (callable : Value → Bool)

def apply (h : Heap) : Operation → Except HeapError Heap
  | .allocate kind opts => .ok (h.allocate kind opts).2
  | .allocateArray values => .ok (h.allocateArray values).2
  | .put id key value => h.put id key value
  | .define id key value opts => h.define id key value opts
  | .defineAccessor id key kind f opts => h.defineAccessor id key kind f opts
  | .defineDescriptor id key property => h.defineDescriptor id key property
  | .delete id key => (h.delete id key).map Prod.snd
  | .setPrototype id prototype => h.setPrototype id prototype
  | .clearArray id => h.clearArray id
  | .freeze id => h.freeze id
  | .sort id => h.sort id
  | .defineProperty id key fields => h.defineProperty callable id key fields

/-- One operation: a refused one leaves the heap as it is, a failed match ends the run. -/
def step (h : Heap) (operation : Operation) : Option Heap :=
  match h.apply callable operation with
  | .ok h' => some h'
  | .error .matchError => none
  | .error _ => some h

def machine : Machine Heap Operation := ⟨fun h => h = empty, step callable⟩

end Heap

end QuickBeam.Vm.Runtime
