import QuickBeam.Vm.Runtime.State

/-!
# Coercion, comparison and arithmetic opcodes (`runtime/opcode/value.ex`)
-/

namespace QuickBeam.Vm.Runtime.Opcode.Value

open QuickBeam.Vm.Bytecode QuickBeam.Vm.Program

variable {W : Type} [Value.Platform]

def binaryOperations : List Op :=
  [.add, .sub, .mul, .div, .mod, .pow, .lt, .lte, .gt, .gte, .eq, .neq, .strictEq, .strictNeq,
   .and, .or, .xor, .shl, .sar, .shr]

def unaryOperations : List Op :=
  [.neg, .plus, .not, .lnot, .inc, .dec, .isUndefinedOrNull, .isUndefined, .isNull]

/-- `@opcodes`; its entry `is_function` names no opcode. -/
def opcodes : List Op :=
  binaryOperations ++ unaryOperations ++
    [.postInc, .postDec, .toPropkey, .toPropkey2, .toObject, .typeof, .typeofIsFunction,
     .typeofIsUndefined, .in_, .instanceof]

def cannotConvert : Value := .atom "cannot_convert_to_object"

/-- `next/2` with a new stack, where the new entry may fail to compute. -/
def nextWith (frame : Frame) (execution : State W) (rest : List Value) :
    Option Value → Except Crash (Action W)
  | some value => .ok (.next { frame with stack := value :: rest } execution)
  | none => .error .arithmetic

def execute (name : Op) (operands : List Operand) (frame : Frame) (execution : State W)
    (answer : Answer) : Except Crash (Action W) :=
  if name ∈ binaryOperations then
    match operands, frame.stack with
    | [], right :: left :: stack => nextWith frame execution stack (Value.binary name left right)
    | _, _ => .error .underflow
  else if name ∈ unaryOperations then
    match operands, frame.stack with
    | [], value :: stack => nextWith frame execution stack (Value.unary name value)
    | _, _ => .error .underflow
  else
    match name, operands, frame.stack, answer with
    | .postInc, [], value :: stack, _ =>
        nextWith frame execution (value :: stack) (Value.unary .inc value)
    | .postDec, [], value :: stack, _ =>
        nextWith frame execution (value :: stack) (Value.unary .dec value)
    | .toPropkey, [], _, _ => .ok (.next frame execution)
    | .toPropkey2, [], _key :: object :: _, _ =>
        if object.isNullish then .ok (.throw_ cannotConvert frame execution)
        else .ok (.next frame execution)
    | .toPropkey2, [], _, _ => .ok (.next frame execution)
    | .toObject, [], value :: _, _ =>
        if value.isNullish then .ok (.throw_ cannotConvert frame execution)
        else .ok (.next frame execution)
    | .toObject, [], [], _ => .ok (.next frame execution)
    | .typeof, [], _ :: stack, .value type =>
        .ok (.next { frame with stack := type :: stack } execution)
    | .typeofIsFunction, [], _ :: stack, .value callable =>
        .ok (.next { frame with stack := callable :: stack } execution)
    | .typeofIsUndefined, [], value :: stack, _ =>
        nextWith frame execution stack (Value.unary .isUndefined value)
    | .in_, [], _object :: _key :: stack, .value result =>
        .ok (.next { frame with stack := result :: stack } execution)
    | .instanceof, [], _constructor :: _object :: stack, .value result =>
        .ok (.next { frame with stack := result :: stack } execution)
    | .instanceof, [], _constructor :: _object :: _, .error reason =>
        .ok (.throw_ reason frame execution)
    | _, _, [], _ => .error .underflow
    | .in_, _, [_], _ => .error .underflow
    | .instanceof, _, [_], _ => .error .underflow
    | _, _, _, _ => .error .noClause

end QuickBeam.Vm.Runtime.Opcode.Value
