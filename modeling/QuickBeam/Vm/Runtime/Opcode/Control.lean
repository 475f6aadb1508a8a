import QuickBeam.Vm.Runtime.State

/-!
# Branch, catch, return, throw and await opcodes (`runtime/opcode/control.ex`)
-/

namespace QuickBeam.Vm.Runtime.Opcode.Control

open QuickBeam.Vm.Bytecode QuickBeam.Vm.Program

variable {W : Type}

def opcodes : List Op :=
  [.catch_, .gosub, .ret, .ifFalse, .ifFalse8, .ifTrue, .ifTrue8, .goto, .goto8, .goto16, .return_,
   .returnUndef, .returnAsync, .throw_, .await]

/-- The clause of `if_false`, `if_false8`, `if_true` and `if_true8`: the branch is taken when the
value is as true as `taken` says. -/
def branchOn (taken : Bool) (target : Operand) (value : Value) (stack : List Value)
    (frame : Frame) (execution : State W) : Action W :=
  let pc := if value.truthy = taken then labelTarget target else frame.pc + 1
  .run { frame with
    pc := pc
    stack := stack } execution

/-- `Opcode.Control.execute/4`. -/
def execute (name : Op) (operands : List Operand) (frame : Frame) (execution : State W) :
    Except Crash (Action W) :=
  match name, operands, frame.stack with
  | .catch_, [target], stack =>
      .ok (.next { frame with stack := .catchMarker (labelTarget target) :: stack } execution)
  | .gosub, [target], stack =>
      .ok (.run { frame with
        pc := labelTarget target
        stack := .returnAddress (frame.pc + 1) :: stack } execution)
  | .ret, [], .returnAddress target :: stack =>
      .ok (.run { frame with
        pc := target
        stack := stack } execution)
  | .ifFalse, [target], value :: stack => .ok (branchOn false target value stack frame execution)
  | .ifFalse8, [target], value :: stack => .ok (branchOn false target value stack frame execution)
  | .ifTrue, [target], value :: stack => .ok (branchOn true target value stack frame execution)
  | .ifTrue8, [target], value :: stack => .ok (branchOn true target value stack frame execution)
  | .goto, [target], _ => .ok (.run { frame with pc := labelTarget target } execution)
  | .goto8, [target], _ => .ok (.run { frame with pc := labelTarget target } execution)
  | .goto16, [target], _ => .ok (.run { frame with pc := labelTarget target } execution)
  | .return_, [], value :: _ => .ok (.return_ value execution)
  | .returnUndef, [], _ => .ok (.return_ .undefined execution)
  | .returnAsync, [], value :: _ => .ok (.returnAsync value execution)
  | .throw_, [], value :: stack => .ok (.throw_ value { frame with stack := stack } execution)
  | .await, [], .promise promise :: stack =>
      .ok (.awaitPromise promise { frame with stack := stack } execution)
  | .await, [], .pending reference :: stack =>
      .ok (.awaitLegacy reference { frame with stack := stack } execution)
  | .await, [], .resolved value :: stack =>
      .ok (.awaitImmediate (.ok value) { frame with stack := stack } execution)
  | .await, [], .rejected reason :: stack =>
      .ok (.awaitImmediate (.error reason) { frame with stack := stack } execution)
  | .await, [], value :: stack =>
      .ok (.awaitImmediate (.ok value) { frame with stack := stack } execution)
  | _, _, [] => .error .underflow
  | _, _, _ => .error .noClause

end QuickBeam.Vm.Runtime.Opcode.Control
