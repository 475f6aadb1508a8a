import QuickBeam.Vm.Runtime.Opcode.Control
import QuickBeam.Vm.Runtime.Opcode.Invocation
import QuickBeam.Vm.Runtime.Opcode.Stack
import QuickBeam.Vm.Runtime.Opcode.Value

/-!
# One instruction (`interpreter.ex`)

An instruction is expanded to its canonical form and executed by the module of its family.  The
action that this gives is carried out by the interpreter; `Completed` is the frame in which the
function goes on when that ends without a throw.
-/

namespace QuickBeam.Vm.Runtime.Interpreter

open QuickBeam.Vm.Bytecode QuickBeam.Vm.Program
open QuickBeam.Vm.Runtime.Opcode.Local (AtomTable)

variable {W : Type} [Value.Platform] [AtomTable]

def ignoredOps : List Op := [.nop, .setName, .setNameComputed]

/-- `execute/4`: the family of an instruction. -/
def execute (name : Op) (operands : List Operand) (frame : Frame) (execution : State W)
    (arguments : Answer) (reply : Reply W) : Except Crash (Action W) :=
  if name ∈ Opcode.Control.opcodes then Opcode.Control.execute name operands frame execution
  else if name ∈ Opcode.Invocation.opcodes then
    Opcode.Invocation.execute name operands frame execution arguments reply
  else if name ∈ Opcode.Local.opcodes then
    Opcode.Local.execute name operands frame execution reply
  else if name ∈ Opcode.Object.opcodes then
    Opcode.Object.execute name operands frame execution reply
  else if name ∈ Opcode.Stack.opcodes then Opcode.Stack.execute name operands frame execution
  else if name ∈ Opcode.Value.opcodes then
    Opcode.Value.execute name operands frame execution reply.answer
  else if name ∈ ignoredOps then .ok (.next frame execution)
  else .ok (.error "unsupported_opcode" execution)

def executeCurrent (frame : Frame) (execution : State W) (arguments : Answer) (reply : Reply W) :
    Except Crash (Action W) :=
  match frame.function.instructions[frame.pc]? with
  | none => .ok (.error "invalid_program_counter" execution)
  | some (opcode, operands) =>
      match info opcode with
      | none => .error .noClause
      | some (name, _row) =>
          execute (expandShortForm name operands frame.function.argCount).1
            (expandShortForm name operands frame.function.argCount).2 frame
            { execution with remainingSteps := execution.remainingSteps - 1 } arguments reply

/-- The frame after an action that completes: `execute_opcode/1` for an instruction without a call,
`complete_call_result/4` and `complete_accessor/3` with the value of the call, and the resumption
of an await.  A return, a tail call and a throw have none. -/
inductive Completed (value : Value) : Action W → Frame → Prop
  | next {frame execution} : Completed value (.next frame execution) frame.next
  | run {frame execution} : Completed value (.run frame execution) frame
  | invoke {callable arguments this caller execution} :
      Completed value (.invoke callable arguments this caller execution false)
        (caller.next.push value)
  | construct {callable arguments instance_ caller execution} :
      Completed value (.invokeConstructor callable arguments instance_ caller execution)
        (caller.next.push value)
  | getter {getter receiver frame execution} :
      Completed value (.invokeGetter getter receiver frame execution) (frame.next.push value)
  | setter {setter stored object frame execution} :
      Completed value (.invokeSetter setter stored object frame execution) frame.next
  | awaitPromise {promise frame execution} :
      Completed value (.awaitPromise promise frame execution) (frame.next.push value)
  | awaitLegacy {reference frame execution} :
      Completed value (.awaitLegacy reference frame execution) (frame.next.push value)
  | awaitImmediate {result frame execution} :
      Completed value (.awaitImmediate result frame execution) (frame.next.push value)

end QuickBeam.Vm.Runtime.Interpreter
