import QuickBeam.Vm.Runtime.State

/-!
# Literals and stack shuffles (`runtime/stack.ex`, `runtime/opcode/stack.ex`)

One function transforms the operand stack; the interpreter and the compiled blocks share it.
-/

namespace QuickBeam.Vm.Runtime.Opcode.Stack

open QuickBeam.Vm.Bytecode QuickBeam.Vm.Program

variable {W : Type}

/-- `Runtime.Stack.execute/5`; `none` is `{:error, {:invalid_stack_operation, …}}`. -/
def transform (name : Op) (operands : List Operand) (stack : List Value) (this : Value)
    (constants : List Value) : Option (List Value) :=
  match name, operands, stack with
  | .pushI32, [.int value], stack => some (.int value :: stack)
  | .pushI8, [.int value], stack => some (.int value :: stack)
  | .pushI16, [.int value], stack => some (.int value :: stack)
  | .pushBigintI32, [.int value], stack => some (.bigint value :: stack)
  | .undefined, [], stack => some (.undefined :: stack)
  | .null, [], stack => some (.null :: stack)
  | .pushFalse, [], stack => some (.bool false :: stack)
  | .pushTrue, [], stack => some (.bool true :: stack)
  | .pushThis, [], stack => some (this :: stack)
  | .pushConst, [.int index], stack => some (enumAt constants index :: stack)
  | .pushConst8, [.int index], stack => some (enumAt constants index :: stack)
  | .drop, [], _ :: stack => some stack
  | .dup, [], value :: stack => some (value :: value :: stack)
  | .dup1, [], a :: b :: stack => some (a :: b :: b :: stack)
  | .dup2, [], a :: b :: stack => some (a :: b :: a :: b :: stack)
  | .dup3, [], a :: b :: c :: stack => some (a :: b :: c :: a :: b :: c :: stack)
  | .nip, [], a :: _ :: stack => some (a :: stack)
  | .nipCatch, [], a :: _ :: stack => some (a :: stack)
  | .nip1, [], a :: b :: _ :: stack => some (a :: b :: stack)
  | .swap, [], a :: b :: stack => some (b :: a :: stack)
  | .swap2, [], a :: b :: c :: d :: stack => some (c :: d :: a :: b :: stack)
  | .perm3, [], a :: b :: c :: stack => some (a :: c :: b :: stack)
  | .perm4, [], a :: b :: c :: d :: stack => some (a :: c :: d :: b :: stack)
  | .perm5, [], a :: b :: c :: d :: e :: stack => some (a :: c :: d :: e :: b :: stack)
  | .rot3l, [], a :: b :: c :: stack => some (c :: a :: b :: stack)
  | .rot3r, [], a :: b :: c :: stack => some (b :: c :: a :: stack)
  | .rot4l, [], a :: b :: c :: d :: stack => some (d :: a :: b :: c :: stack)
  | .rot5l, [], a :: b :: c :: d :: e :: stack => some (e :: a :: b :: c :: d :: stack)
  | .insert2, [], a :: b :: stack => some (a :: b :: a :: stack)
  | .insert3, [], a :: b :: c :: stack => some (a :: b :: c :: a :: stack)
  | _, _, _ => none

def opcodes : List Op :=
  [.pushI32, .pushI8, .pushI16, .pushBigintI32, .undefined, .null, .pushFalse, .pushTrue,
   .pushThis, .pushConst, .pushConst8, .drop, .dup, .dup1, .dup2, .dup3, .nip, .nipCatch, .nip1,
   .swap, .swap2, .perm3, .perm4, .perm5, .rot3l, .rot3r, .rot4l, .rot5l, .insert2, .insert3]

/-- `Opcode.Stack.execute/4`; the source matches on `{:ok, stack}`. -/
def execute (name : Op) (operands : List Operand) (frame : Frame) (execution : State W) :
    Except Crash (Action W) :=
  match transform name operands frame.stack frame.this frame.function.constants with
  | some stack => .ok (.next { frame with stack := stack } execution)
  | none => .error .underflow

end QuickBeam.Vm.Runtime.Opcode.Stack
