import QuickBeam.Vm.Runtime.Opcode.Local

/-!
# Object, property and enumeration opcodes (`runtime/opcode/object.ex`)

What an instruction asks the heap, the properties and the iterators for is in the answer; the
clauses are grouped by what the instruction works on.
-/

namespace QuickBeam.Vm.Runtime.Opcode.Object

open QuickBeam.Vm.Bytecode QuickBeam.Vm.Program
open QuickBeam.Vm.Runtime.Opcode.Local (State.after captureClosure)

variable {W : Type}

/-! ### Answers -/

def next (stack : List Value) (frame : Frame) (execution : State W) (reply : Reply W) :
    Except Crash (Action W) :=
  .ok (.next { frame with stack := stack } (State.after execution reply))

def throw_ (reason : Value) (frame : Frame) (execution : State W) (reply : Reply W) :
    Except Crash (Action W) :=
  .ok (.throw_ reason frame (State.after execution reply))

/-- An operation that gives a new top of the stack, or fails. -/
def pushing (rest : List Value) (frame : Frame) (execution : State W) (reply : Reply W) :
    Except Crash (Action W) :=
  match reply.answer with
  | .value value => next (value :: rest) frame execution reply
  | .error reason => throw_ reason frame execution reply
  | _ => .error .noClause

def done (rest : List Value) (frame : Frame) (execution : State W) (reply : Reply W) :
    Except Crash (Action W) :=
  match reply.answer with
  | .value _ => next rest frame execution reply
  | .error reason => throw_ reason frame execution reply
  | _ => .error .noClause

def get (stack : List Value) (frame : Frame) (execution : State W) (reply : Reply W) :
    Except Crash (Action W) :=
  match reply.answer with
  | .accessor getter receiver =>
      .ok (.invokeGetter getter receiver { frame with stack := stack } (State.after execution reply))
  | .value value => next (value :: stack) frame execution reply
  | .error reason => throw_ reason { frame with stack := stack } execution reply
  | _ => .error .noClause

def put (object value : Value) (stack : List Value) (frame : Frame) (execution : State W)
    (reply : Reply W) : Except Crash (Action W) :=
  match reply.answer with
  | .value _ => next stack frame execution reply
  | .setter setter =>
      .ok (.invokeSetter setter value object { frame with stack := stack }
        (State.after execution reply))
  | .error reason => throw_ reason { frame with stack := stack } execution reply
  | _ => .error .noClause

/-! ### Private names and brands -/

def privateOps : List Op :=
  [.privateSymbol, .getPrivateField, .getSuper, .putPrivateField, .definePrivateField, .addBrand,
   .checkBrand, .setHomeObject]

def isReference : Value → Bool
  | .reference _ => true
  | _ => false

def executePrivate (name : Op) (operands : List Operand) (frame : Frame) (execution : State W)
    (reply : Reply W) : Except Crash (Action W) :=
  match name, operands, frame.stack with
  | .privateSymbol, [_atom], stack => pushing stack frame execution reply
  | .getSuper, [], .reference _ :: stack => pushing stack frame execution reply
  | .getPrivateField, [], .symbol _ :: .reference _ :: stack =>
      pushing stack frame execution reply
  | .putPrivateField, [], .symbol _ :: _value :: .reference _ :: stack =>
      done stack frame execution reply
  | .definePrivateField, [], _value :: .symbol _ :: .reference object :: stack =>
      done (.reference object :: stack) frame execution reply
  | .setHomeObject, [], .reference function :: .reference home :: stack =>
      done (.reference function :: .reference home :: stack) frame execution reply
  | .addBrand, [], .reference _ :: object :: stack =>
      if object.isNullish || isReference object then done stack frame execution reply
      else .error .noClause
  | .checkBrand, [], .reference function :: .reference object :: stack =>
      done (.reference function :: .reference object :: stack) frame execution reply
  | _, _, _ => .error .noClause

/-! ### Objects and classes -/

def constructionOps : List Op :=
  [.regexp, .specialObject, .object, .arrayFrom, .defineClass, .defineClassComputed]

/-- `Enum.split/2`: a negative count is counted from the end. -/
def enumSplit (list : List Value) (count : ℤ) : List Value × List Value :=
  if 0 ≤ count then list.splitAt count.toNat else list.splitAt (list.length + count).toNat

/-- `special_object`: the arguments, the callable, its home object, or a new object. -/
def specialObject (type : ℤ) (frame : Frame) (execution : State W) (reply : Reply W) :
    Except Crash (Action W) :=
  if type = 2 ∨ type = 3 then next (frame.callable :: frame.stack) frame execution reply
  else if type ∈ [0, 1, 4, 5, 7] then pushing frame.stack frame execution reply
  else next (.undefined :: frame.stack) frame execution reply

def instantiateClassConstructor (constructor_ : Value) (frame : Frame) (execution : State W) :
    Except Crash (Frame × State W) :=
  match constructor_ with
  | .function function => do
      let (_callable, frame, execution) ← captureClosure function frame execution
      .ok (frame, execution)
  | .reference _ => .ok (frame, execution)
  | _ => .error .noClause

def defineClass (constructor_ : Value) (stack : List Value) (frame : Frame) (execution : State W)
    (reply : Reply W) : Except Crash (Action W) := do
  let (frame, execution) ← instantiateClassConstructor constructor_ frame execution
  match reply.answer with
  | .construct constructor_ prototype =>
      next (prototype :: constructor_ :: stack) frame execution reply
  | .error reason => throw_ reason frame execution reply
  | _ => .error .noClause

def executeConstruction (name : Op) (operands : List Operand) (frame : Frame)
    (execution : State W) (reply : Reply W) : Except Crash (Action W) :=
  match name, operands, frame.stack with
  | .regexp, [], _bytecode :: _source :: stack => pushing stack frame execution reply
  | .specialObject, [.int type], _ => specialObject type frame execution reply
  | .object, [], stack => pushing stack frame execution reply
  | .arrayFrom, [.int count], stack => pushing (enumSplit stack count).2 frame execution reply
  | .defineClass, [_atom, _flags], constructor_ :: _parent :: stack =>
      defineClass constructor_ stack frame execution reply
  | .defineClassComputed, [_atom, _flags], constructor_ :: _parent :: name :: stack =>
      defineClass constructor_ (name :: stack) frame execution reply
  | _, _, _ => .error .noClause

/-! ### Definitions -/

def definitionOps : List Op :=
  [.defineMethod, .defineMethodComputed, .defineField, .defineArrayEl, .append,
   .copyDataProperties]

def invalidCopyTarget : Value := .atom "invalid_copy_target"

def executeDefinition [Value.Platform] (name : Op) (operands : List Operand) (frame : Frame)
    (execution : State W) (reply : Reply W) : Except Crash (Action W) :=
  match name, operands, frame.stack with
  | .defineMethod, [_atom, _kind], _callable :: .reference object :: stack =>
      done (.reference object :: stack) frame execution reply
  | .defineMethodComputed, [_kind], _callable :: _key :: .reference object :: stack =>
      done (.reference object :: stack) frame execution reply
  | .defineField, [_atom], _value :: .reference object :: stack =>
      done (.reference object :: stack) frame execution reply
  | .defineArrayEl, [], _value :: key :: .reference object :: stack =>
      done (key :: .reference object :: stack) frame execution reply
  | .append, [], _iterable :: index :: .reference array :: stack =>
      match reply.answer, index.toNumber with
      | .values values, .int n =>
          next (.int (n + values.length) :: .reference array :: stack) frame execution reply
      | .error reason, _ => throw_ reason frame execution reply
      | _, _ => .error .noClause
  | .copyDataProperties, [.int mask], stack =>
      if isReference (enumAt stack (mask % 4)) then done stack frame execution reply
      else throw_ invalidCopyTarget frame execution reply
  | _, _, _ => .error .noClause

/-! ### Properties -/

def propertyOps : List Op :=
  [.getField, .getField2, .getArrayEl, .getLength, .putField, .putArrayEl, .delete]

def executeProperty (name : Op) (operands : List Operand) (frame : Frame) (execution : State W)
    (reply : Reply W) : Except Crash (Action W) :=
  match name, operands, frame.stack with
  | .getField, [_atom], _object :: stack => get stack frame execution reply
  | .getField2, [_atom], object :: stack => get (object :: stack) frame execution reply
  | .getArrayEl, [], _key :: _object :: stack => get stack frame execution reply
  | .getLength, [], _object :: stack => get stack frame execution reply
  | .putField, [_atom], value :: object :: stack => put object value stack frame execution reply
  | .putArrayEl, [], value :: _key :: object :: stack =>
      put object value stack frame execution reply
  | .delete, [], _key :: .reference _ :: stack => pushing stack frame execution reply
  | _, _, _ => .error .noClause

/-! ### Enumeration -/

def enumerationOps : List Op := [.forInStart, .forInNext, .forOfStart, .forOfNext, .iteratorClose]

def invalidForOfIterator : Value := .atom "invalid_for_of_iterator"

/-- `for_in_next`: whether the keys are at an end, and the next one. -/
def forInNext (keys : List Value) (index : ℕ) (stack : List Value) : List Value :=
  if index < keys.length then
    .bool false :: enumAt keys index :: .forIn keys (index + 1) :: stack
  else .bool true :: .undefined :: .forIn keys index :: stack

def forOfNext (offset : ℤ) (values : List Value) (index : ℕ) (stack : List Value) : List Value :=
  if values.length ≤ index then
    .bool true :: .undefined :: putElem stack offset (.forOf values index)
  else .bool false :: enumAt values index :: putElem stack offset (.forOf values (index + 1))

def executeEnumeration (name : Op) (operands : List Operand) (frame : Frame)
    (execution : State W) (reply : Reply W) : Except Crash (Action W) :=
  match name, operands, frame.stack with
  | .forInStart, [], _object :: stack =>
      match reply.answer with
      | .values keys => next (.forIn keys 0 :: stack) frame execution reply
      | .error reason => throw_ reason { frame with stack := stack } execution reply
      | _ => .error .noClause
  | .forInNext, [], .forIn keys index :: stack =>
      next (forInNext keys index stack) frame execution reply
  | .forOfStart, [], _iterable :: stack =>
      match reply.answer with
      | .values values =>
          next (.int 0 :: .directIterator :: .forOf values 0 :: stack) frame execution reply
      | .error reason => throw_ reason frame execution reply
      | _ => .error .noClause
  | .forOfNext, [.int depth], stack =>
      match enumAt stack (depth + 2) with
      | .forOf values index => next (forOfNext (depth + 2) values index stack) frame execution reply
      | _ => throw_ invalidForOfIterator frame execution reply
  | .iteratorClose, [], _index :: _next :: _iterator :: stack => next stack frame execution reply
  | _, _, _ => .error .noClause

/-! ### Instructions -/

def opcodes : List Op :=
  privateOps ++ constructionOps ++ definitionOps ++ propertyOps ++ enumerationOps

/-- `Opcode.Object.execute/4`. -/
def execute [Value.Platform] (name : Op) (operands : List Operand) (frame : Frame)
    (execution : State W) (reply : Reply W) : Except Crash (Action W) :=
  if name ∈ privateOps then executePrivate name operands frame execution reply
  else if name ∈ constructionOps then executeConstruction name operands frame execution reply
  else if name ∈ definitionOps then executeDefinition name operands frame execution reply
  else if name ∈ propertyOps then executeProperty name operands frame execution reply
  else executeEnumeration name operands frame execution reply

end QuickBeam.Vm.Runtime.Opcode.Object
