import QuickBeam.Lib.Resumable
import QuickBeam.Vm.Runtime.ArraySort
import QuickBeam.Vm.Runtime.CallDelivery
import QuickBeam.Vm.Runtime.Global
import QuickBeam.Vm.Runtime.OwnKeys
import QuickBeam.Vm.Runtime.PrototypeChain
import QuickBeam.Vm.Runtime.Utf16

/-!
# Array iteration and `Object.assign` (`interpreter.ex`, `frame/native.ex`, `object_assign.ex`)

Native code that calls JavaScript keeps how far it is in a record, which is its boundary on the list
of callers.  An array iteration goes over the entries that the array had at its start; an assignment
takes the keys of each source when it comes to it, and reads and writes the properties one by one.

Calls, completion and throws are those of `Calls`; a record asks for a call, or ends in a call in
tail position.  The heap is one part of the world, promises and jobs are the other.  The memory
limit is left out.
-/

namespace QuickBeam.Vm.Runtime.Iteration

open QuickBeam.Lib QuickBeam.Lib.Resumable QuickBeam.Vm.Program
open Calls (Env Next TraceFrame)

/-! ### Properties -/

structure World (P : Type) where
  heap : Heap
  rest : P

/-- The reasons that native code raises. -/
inductive Reason where
  | heap (reason : HeapError)
  | nullOrUndefinedPropertyAccess
  | notAnObject
  | notAnArray
  | missingCallback
  | reduceOfEmptyArray
  | notCallable (value : Value)
deriving DecidableEq

/-- The term that a reason is raised as, and `Map.keys/1` of the struct that a value is. -/
structure Host where
  reasonTerm : Reason → Value
  structKeys : Value → List Value

section Properties

variable {P : Type} (s : State (World P))

def overHeap : State Heap := { s with world := s.world.heap }

def withHeap (heap : Heap) : State (World P) := { s with world := { s.world with heap } }

def intrinsicProperty (constructorName : String) (key : Value) : Except HeapError Heap.Read :=
  match s.globals.get? (.ofString constructorName) with
  | some (.reference constructor_) =>
    match s.world.heap.get constructor_ (.string (.ofString "prototype")) with
    | .ok (.value (.reference prototype)) => s.world.heap.get prototype key
    | _ => .ok (.value .undefined)
  | _ => .ok (.value .undefined)

/-- `Property.get/3` of a value that is not a reference; the keys of a map are strings. -/
def primitiveProperty (object key : Value) : Except HeapError Heap.Read :=
  let undefined := .ok (.value .undefined)
  match object, key with
  | .object entries, .string name =>
    .ok (.value (((entries.find? fun e => e.1 = name).map Prod.snd).getD .undefined))
  | .promise _, .string _ => intrinsicProperty s "Promise" key
  | .builtin _, .string _ => intrinsicProperty s "Function" key
  | .boundFunction _ _ _, .string _ => intrinsicProperty s "Function" key
  | .primitiveMethod _ _, .string _ => intrinsicProperty s "Function" key
  | .promiseResolver _ _ _, .string _ => intrinsicProperty s "Function" key
  | .string text, .string name =>
    if name = .ofString "length" then .ok (.value (.int (Utf16.length text)))
    else intrinsicProperty s "String" key
  | .string text, .int index =>
    .ok (.value (((Utf16.at' text index).map Value.string).getD .undefined))
  | .array values, .string name =>
    if name = .ofString "length" then .ok (.value (.int values.length))
    else intrinsicProperty s "Array" key
  | .array values, .int index =>
    -- `Enum.at/3` counts a negative index from the end.
    let index := if index < 0 then index + values.length else index
    .ok (.value (if index < 0 then .undefined else (values[index.toNat]?).getD .undefined))
  | number, .string _ =>
    if number.isNumber then intrinsicProperty s "Number" key else undefined
  | _, _ => undefined

def propertyGet (object key : Value) : Except Reason Heap.Read :=
  match object with
  | .reference id => (Global.propertyGet (overHeap s) id key).mapError .heap
  | .null => .error .nullOrUndefinedPropertyAccess
  | .undefined => .error .nullOrUndefinedPropertyAccess
  | object => (primitiveProperty s object key).mapError .heap

def keyValue : Key → Value
  | .index i => .int i
  | .name value => value

variable (host : Host)

/-- `Property.assignable_keys/2`; `enumerable_keys/2` of a value that is not a reference. -/
def assignableKeys (source : Value) : Except Reason (List Value) :=
  match source with
  | .reference id =>
    match s.world.heap.fetchObject id with
    | .ok object => .ok (object.assignableKeys.map keyValue)
    | .error reason => .error (.heap reason)
  | .object entries => .ok (entries.map fun e => .string e.1)
  | .array values => .ok ((List.range values.length).map fun i => .int i)
  | .promise _ => .ok (host.structKeys source)
  | .symbol _ => .ok (host.structKeys source)
  | .function _ => .ok (host.structKeys source)
  | _ => .ok []

def interpreterArrayValues (value : Value) : Except Reason (List (Option Value)) :=
  match value with
  | .array values => .ok (values.map some)
  | .reference id =>
    match s.world.heap.objects.get? id with
    | some object => if object.kind = .array then .ok object.entries else .error .notAnArray
    | none => .error .notAnArray
  | _ => .error .notAnArray

/-- The definitions of `from_entries/2`, from index `first` on. -/
def defineEntries (heap : Heap) (array first : ℕ) : List (Option Value) → Except HeapError Heap
  | [] => .ok heap
  | none :: entries => defineEntries heap array (first + 1) entries
  | some value :: entries => do
    let heap ← Heap.mustSucceed (heap.define array (.int first) value Heap.noOptions)
    defineEntries heap array (first + 1) entries

def fromEntries (entries : List (Option Value)) : Except HeapError (Value × State (World P)) := do
  let (array, heap) := s.world.heap.allocate .array ⟨none, 0, none, none⟩
  let heap ← defineEntries heap array 0 entries
  let heap ← Heap.mustSucceed
    (heap.define array (.string (.ofString "length")) (.int entries.length) Heap.noOptions)
  pure (.reference array, withHeap s heap)

end Properties

/-! ### Records -/

inductive Operation where
  | map | filter | forEach | some_ | reduce
deriving DecidableEq

structure Native where
  operation : Operation
  values : List (Option Value)
  callback : Value
  receiver : Value
  caller : Caller
  accumulator : Value
  index : ℕ
  results : List (Option Value)
  tail : Bool

/-- The phases of a property that is being assigned. -/
inductive Phase where
  | get | set
deriving DecidableEq

structure ObjectAssign where
  target : ℕ
  sources : List Value
  source : Value
  caller : Caller
  depth : ℕ
  phase : Option Phase
  key : Value
  keys : List Value
  tail : Bool

/-- Native code that waits for a call. -/
inductive Record where
  | native (native : Native)
  | objectAssign (boundary : ObjectAssign)

def Record.boundary : Record → Caller
  | .native n => .native n.caller n.tail
  | .objectAssign b => .objectAssign (.reference b.target) b.caller b.depth b.tail

/-- `dispatch_call/6` of native code. -/
structure Call where
  callable : Value
  arguments : List Value
  this : Value

section Machine

variable {P : Type} (env : Env (World P)) (host : Host)

/-- A call, or the call in tail position that native code ends with. -/
abbrev Request (P : Type) := Resumable.Request Record (State (World P)) Call (Next (World P))

def raise (reason : Reason) (caller : Caller) (s : State (World P)) : Request P :=
  .done (Calls.throwFrom env (host.reasonTerm reason) caller s)

/-! ### Array iterations -/

def nextPresent (values : List (Option Value)) (index : ℕ) : Option (ℕ × Value) :=
  if h : index < values.length then
    match values[index] with
    | none => nextPresent values (index + 1)
    | some value => some (index, value)
  else none
termination_by values.length - index

def initializeNative (native : Native) (arguments : List Value) : Except Reason Native :=
  match native.operation, arguments with
  | .reduce, initial :: _ => .ok { native with accumulator := initial }
  | .reduce, [] =>
    match nextPresent native.values 0 with
    | some (index, value) => .ok { native with accumulator := value, index := index + 1 }
    | none => .error .reduceOfEmptyArray
  | _, _ => .ok native

def nativeResult (native : Native) (s : State (World P)) :
    Except HeapError (Value × State (World P)) :=
  match native.operation with
  | .map => fromEntries s native.results.reverse
  | .filter => fromEntries s native.results.reverse
  | .forEach => .ok (.undefined, s)
  | .some_ => .ok (.bool false, s)
  | .reduce => .ok (native.accumulator, s)

/-- `finish_native/3`, of a result that may fail to match. -/
def finishNative (native : Native) (result : Except HeapError (Value × State (World P))) :
    Request P :=
  match result with
  | .ok (value, s) => .done (Calls.finish env value (.native native.caller native.tail) s)
  | .error _ => .done (.crash .noClause)

def callbackArguments (native : Native) (value : Value) : List Value :=
  if native.operation = .reduce then
    [native.accumulator, value, .int native.index, native.receiver]
  else [value, .int native.index, native.receiver]

/-- The record past a hole. -/
def Native.skip (native : Native) : Native :=
  { native with
    index := native.index + 1
    results := if native.operation = .map then none :: native.results else native.results }

def invokeNativeNext (native : Native) (s : State (World P)) : Request P :=
  if h : native.index < native.values.length then
    match native.values[native.index] with
    | none => invokeNativeNext native.skip s
    | some value =>
      .call (.native native) ⟨native.callback, callbackArguments native value, .undefined⟩ s
  else finishNative env native (nativeResult native s)
termination_by native.values.length - native.index
decreasing_by
  show native.values.length - (native.index + 1) < native.values.length - native.index
  omega

/-- The record that has taken what the callback returned for the element `current`. -/
def Native.take (native : Native) (current value : Value) : Native :=
  match native.operation with
  | .map => { native with index := native.index + 1, results := some value :: native.results }
  | .filter =>
    { native with
      index := native.index + 1
      results := if value.truthy then some current :: native.results else native.results }
  | .forEach => { native with index := native.index + 1 }
  | .some_ => { native with index := native.index + 1, accumulator := .bool value.truthy }
  | .reduce => { native with index := native.index + 1, accumulator := value }

def resumeNative (value : Value) (native : Native) (s : State (World P)) : Request P :=
  match native.values[native.index]? with
  | some (some current) =>
    let native := native.take current value
    if native.operation = .some_ ∧ native.accumulator = .bool true then
      finishNative env native (.ok (.bool true, s))
    else invokeNativeNext env native s
  | _ => .done (.crash .noClause)

def startArrayIteration (operation : Operation) (receiver : Value) (arguments : List Value)
    (caller : Caller) (s : State (World P)) (tail : Bool) : Request P :=
  match interpreterArrayValues s receiver with
  | .error reason => raise env host reason caller s
  | .ok values =>
    match arguments with
    | [] => raise env host .missingCallback caller s
    | callback :: rest =>
      let native : Native :=
        { operation, values, callback, receiver, caller, accumulator := .null, index := 0
          results := [], tail }
      match initializeNative native rest with
      | .ok native => invokeNativeNext env native s
      | .error reason => raise env host reason caller s

/-! ### `Object.assign` -/

mutual

def continueObjectAssign (b : ObjectAssign) (s : State (World P)) : Request P :=
  match _ : b.keys with
  | key :: keys =>
    match propertyGet s b.source key with
    | .ok (.accessor getter receiver) =>
      .call (.objectAssign { b with phase := some .get, key, keys })
        ⟨getter, [], .reference receiver⟩ s
    | .ok (.value value) => assignObjectValue { b with keys } key value s
    | .error reason => raise env host reason (Record.objectAssign b).boundary s
  | [] =>
    match _ : b.sources with
    | source :: sources =>
      match assignableKeys s host source with
      | .ok keys =>
        continueObjectAssign { b with source, sources, keys, phase := none, key := .null } s
      | .error reason => raise env host reason (Record.objectAssign b).boundary s
    | [] => .done (Calls.finish env .undefined (Record.objectAssign b).boundary s)
termination_by (b.sources.length, b.keys.length, 0)
decreasing_by
  · simp [*, Prod.lex_def]
  · simp [*, Prod.lex_def]

def assignObjectValue (b : ObjectAssign) (key value : Value) (s : State (World P)) : Request P :=
  match s.world.heap.put b.target key value with
  | .ok heap => continueObjectAssign { b with phase := none, key := .null } (withHeap s heap)
  | .error (.invokeSetter setter) =>
    .call (.objectAssign { b with phase := some .set, key })
      ⟨setter, [value], .reference b.target⟩ s
  | .error reason => raise env host (.heap reason) (Record.objectAssign b).boundary s
termination_by (b.sources.length, b.keys.length, 1)

end

inductive Answer (P : Type) where
  /-- A builtin completes, or an async function gives its promise. -/
  | completes (value : Value) (left : State (World P))
  /-- A function that was entered returns. -/
  | returns (value : Value) (left : State (World P))
  /-- A builtin raises, or the callable is none. -/
  | raises (reason : Value) (left : State (World P))
  /-- A function that was entered throws. -/
  | throws (reason : Value) (trace : List TraceFrame) (left : State (World P))

def under (s left : State (World P)) : State (World P) :=
  { left with callers := s.callers, depth := s.depth }

/-- The state in which a function returns or throws: its caller is on the list. -/
def entered (s left : State (World P)) (boundary : Caller) : State (World P) :=
  { under s left with callers := boundary :: s.callers, depth := s.depth + 1 }

/-- Native code that is resumed takes a value. -/
def taken : Next (World P) → Resumable.Reply (State (World P)) Value (Next (World P))
  | .resume _ (some value) s => .value value s
  | next => .ends next

def reply (record : Record) (s : State (World P)) :
    Answer P → Resumable.Reply (State (World P)) Value (Next (World P))
  | .completes value left =>
    taken (Calls.completeCallResult env value record.boundary (under s left) false)
  | .returns value left => taken (Calls.returnValue env value (entered s left record.boundary))
  | .raises reason left => .ends (Calls.throwFrom env reason record.boundary (under s left))
  | .throws reason trace left =>
    .ends (Calls.unwindCaller env reason (record.boundary :: s.callers)
      (entered s left record.boundary) trace)

/-- `resume_native/3` or the next phase of an assignment. -/
def resume (value : Value) (record : Record) (s : State (World P)) : Request P :=
  match record with
  | .native n => resumeNative env value n s
  | .objectAssign b =>
    match b.phase with
    | some .get => assignObjectValue env host b b.key value s
    | some .set => continueObjectAssign env host { b with phase := none, key := .null } s
    | none => .done (.crash .noField)

/-- Native code that calls JavaScript. -/
def code : Code Record (State (World P)) Call Value (Answer P) (Next (World P)) where
  resume := resume env host
  reply := reply env

end Machine

end QuickBeam.Vm.Runtime.Iteration
