import QuickBeam.Vm.Runtime.Opcode.Object

/-!
# Call and constructor opcodes (`runtime/opcode/invocation.ex`)

The operands of a call are taken from the stack of the caller; the interpreter executes the
invocation.  The constructor that an instruction resolves and the new instance are the answer.
-/

namespace QuickBeam.Vm.Runtime.Opcode.Invocation

open QuickBeam.Vm.Bytecode QuickBeam.Vm.Program
open QuickBeam.Vm.Runtime.Opcode.Local (State.after)
open QuickBeam.Vm.Runtime.Opcode.Object (enumSplit)

variable {W : Type}

def opcodes : List Op :=
  [.apply, .call, .tailCall, .callMethod, .tailCallMethod, .callConstructor, .checkCtor, .initCtor]

def invalidStack : String := "invalid_stack"

def call (tail : Bool) (argumentCount : ℤ) (frame : Frame) (execution : State W) : Action W :=
  match enumSplit frame.stack argumentCount with
  | (arguments, callable :: rest) =>
      .invoke callable arguments.reverse .undefined { frame with stack := rest } execution tail
  | _ => .error invalidStack execution

def callMethod (tail : Bool) (argumentCount : ℤ) (frame : Frame) (execution : State W) :
    Action W :=
  match enumSplit frame.stack argumentCount with
  | (arguments, callable :: this :: rest) =>
      .invoke callable arguments.reverse this { frame with stack := rest } execution tail
  | _ => .error invalidStack execution

def callConstructor (argumentCount : ℤ) (frame : Frame) (execution : State W) (reply : Reply W) :
    Except Crash (Action W) :=
  match enumSplit frame.stack argumentCount with
  | (arguments, _newTarget :: constructor_ :: rest) =>
      match reply.answer with
      | .construct _ instance_ =>
          .ok (.invokeConstructor constructor_ arguments.reverse instance_
            { frame with stack := rest } (State.after execution reply))
      | .error reason => .ok (.throw_ reason frame (State.after execution reply))
      | _ => .error .noClause
  | _ => .ok (.error invalidStack execution)

def apply (construct : ℤ) (arguments : Answer) (callable this : Value) (stack : List Value)
    (frame : Frame) (execution : State W) (reply : Reply W) : Except Crash (Action W) :=
  match arguments, construct, reply.answer with
  | .values arguments, 0, _ =>
      .ok (.invoke callable arguments this { frame with stack := stack } execution false)
  | .values arguments, 1, .construct _ instance_ =>
      .ok (.invokeConstructor callable arguments instance_ { frame with stack := stack }
        (State.after execution reply))
  | .values _, 1, .error reason => .ok (.throw_ reason frame execution)
  | .error reason, _, _ => .ok (.throw_ reason frame execution)
  | _, _, _ => .error .noClause

/-- `Opcode.Invocation.execute/4`; `arguments` is what `Iterator.values/2` gives for `apply`, and a
super constructor is invoked as any other. -/
def execute (name : Op) (operands : List Operand) (frame : Frame) (execution : State W)
    (arguments : Answer) (reply : Reply W) : Except Crash (Action W) :=
  match name, operands, frame.stack, reply.answer with
  | .checkCtor, [], _, .value _ => .ok (.next frame execution)
  | .checkCtor, [], _, .error reason => .ok (.throw_ reason frame execution)
  | .apply, [.int construct], _argumentList :: this :: callable :: stack, _ =>
      apply construct arguments callable this stack frame execution reply
  | .call, [.int argumentCount], _, _ => .ok (call false argumentCount frame execution)
  | .tailCall, [.int argumentCount], _, _ => .ok (call true argumentCount frame execution)
  | .callMethod, [.int argumentCount], _, _ => .ok (callMethod false argumentCount frame execution)
  | .tailCallMethod, [.int argumentCount], _, _ =>
      .ok (callMethod true argumentCount frame execution)
  | .callConstructor, [.int argumentCount], _, _ =>
      callConstructor argumentCount frame execution reply
  | .initCtor, [], _, .construct parent instance_ =>
      .ok (.invokeConstructor parent frame.args instance_ frame (State.after execution reply))
  | .initCtor, [], _, .error reason => .ok (.throw_ reason frame execution)
  | _, _, _, _ => .error .noClause

end QuickBeam.Vm.Runtime.Opcode.Invocation
