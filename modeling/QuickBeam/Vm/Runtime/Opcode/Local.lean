import QuickBeam.Vm.Runtime.State

/-!
# Local, argument, closure and global opcodes (`runtime/opcode/local.ex`)

A local or an argument is a value or the reference of a cell, once a closure has captured it.  The
compact operations are those that the interpreter and the compiled blocks share.
-/

namespace QuickBeam.Vm.Runtime.Opcode.Local

open QuickBeam.Lib QuickBeam.Vm.Bytecode QuickBeam.Vm.Program

variable {W : Type}

/-! ### Slots -/

def readReference (reference : SlotRef) (execution : State W) : Except Crash Value :=
  match reference with
  | .cell id =>
    match execution.cells.get? id with
    | some value => .ok value
    | none => .error .noCell
  | .global name => .ok ((execution.globals.get? name).getD .undefined)

def writeReference (reference : SlotRef) (value : Value) (execution : State W) : State W :=
  match reference with
  | .cell id => { execution with cells := execution.cells.put id value }
  | .global name => { execution with globals := execution.globals.put name value }

def readSlot (slot : Value) (execution : State W) : Except Crash Value :=
  match slot with
  | .slot reference => readReference reference execution
  | value => .ok value

def writeTupleSlot (tuple : List Value) (index : ℤ) (value : Value) (execution : State W) :
    Except Crash (List Value × State W) := do
  match ← elem tuple index with
  | .slot reference => .ok (tuple, writeReference reference value execution)
  | _ => .ok (putElem tuple index value, execution)

/-- `tuple_get/2`: an index past the end reads `undefined`. -/
def tupleGet (tuple : List Value) (index : ℤ) : Except Crash Value :=
  if index < tuple.length then elem tuple index else .ok .undefined

/-- The result of a primitive operation. -/
def computed : Option Value → Except Crash Value
  | some value => .ok value
  | none => .error .arithmetic

/-! ### Compact operations -/

def compactOperations : List Op :=
  [.getArg, .putArg, .setArg, .getLoc, .getLoc0Loc1, .incLoc, .decLoc, .addLoc, .putLoc, .setLoc,
   .setLocUninitialized, .putLocCheckInit, .putLocCheck]

/-- The fields of a frame that a compact operation changes, and the state. -/
structure Compact (W : Type) where
  args : List Value
  locals : List Value
  stack : List Value
  execution : State W

def putArg (index : ℤ) (value : Value) (args locals stack : List Value) (execution : State W) :
    Except Crash (Compact W) := do
  let (args, execution) ← writeTupleSlot args index value execution
  .ok ⟨args, locals, stack, execution⟩

def putLoc (index : ℤ) (value : Value) (args locals stack : List Value) (execution : State W) :
    Except Crash (Compact W) := do
  let (locals, execution) ← writeTupleSlot locals index value execution
  .ok ⟨args, locals, stack, execution⟩

/-- `inc_loc` and `dec_loc`. -/
def stepLoc [Value.Platform] (operation : Op) (index : ℤ) (args locals stack : List Value)
    (execution : State W) : Except Crash (Compact W) := do
  let value ← readSlot (← elem locals index) execution
  let value ← computed (Value.unary operation value)
  putLoc index value args locals stack execution

def executeCompact [Value.Platform] (name : Op) (operands : List Operand)
    (args locals stack : List Value) (execution : State W) : Except Crash (Compact W) :=
  match name, operands, stack with
  | .getArg, [.int index], stack => do
    let value ← readSlot (← tupleGet args index) execution
    .ok ⟨args, locals, value :: stack, execution⟩
  | .putArg, [.int index], value :: stack => putArg index value args locals stack execution
  | .setArg, [.int index], value :: stack => putArg index value args locals (value :: stack) execution
  | .getLoc, [.int index], stack => do
    let value ← readSlot (← elem locals index) execution
    .ok ⟨args, locals, value :: stack, execution⟩
  | .getLoc0Loc1, [.int first, .int second], stack => do
    let first ← readSlot (← elem locals first) execution
    let second ← readSlot (← elem locals second) execution
    .ok ⟨args, locals, first :: second :: stack, execution⟩
  | .incLoc, [.int index], stack => stepLoc .inc index args locals stack execution
  | .decLoc, [.int index], stack => stepLoc .dec index args locals stack execution
  | .addLoc, [.int index], value :: stack => do
    let current ← readSlot (← elem locals index) execution
    let sum ← computed (Value.binary .add current value)
    putLoc index sum args locals stack execution
  | .putLoc, [.int index], value :: stack => putLoc index value args locals stack execution
  | .setLoc, [.int index], value :: stack => putLoc index value args locals (value :: stack) execution
  | .setLocUninitialized, [.int index], stack =>
    putLoc index .uninitialized args locals stack execution
  | .putLocCheckInit, [.int index], value :: stack => putLoc index value args locals stack execution
  | .putLocCheck, [.int index], value :: stack => putLoc index value args locals stack execution
  | _, _, _ => .error .noClause

/-! ### Names and globals -/

/-- `AtomTable.lookup/1`, the predefined atoms of the vendored build. -/
class AtomTable where
  lookup : ℤ → Option Binary

def resolveAtom [AtomTable] (atom : Operand) (execution : State W) : Value :=
  match atom with
  | .emptyString => .string []
  | .taggedInt value => .int value
  | .predefined index =>
    match AtomTable.lookup index with
    | some name => .string name
    | none => .atom "predefined"
  | .int index =>
    if 0 ≤ index then
      match execution.atoms[index.toNat]? with
      | some name => .string name
      | none => .atom "atom"
    else .int index

def State.after (execution : State W) (reply : Reply W) : State W :=
  { execution with world := reply.world, memoryExceeded := reply.memoryExceeded }

/-- `write_global/3`; what it writes to the global object is in the answer. -/
def writeGlobal (name value : Value) (execution : State W) (reply : Reply W) : State W :=
  match name with
  | .string key => { State.after execution reply with globals := execution.globals.put key value }
  | _ => State.after execution reply

/-! ### Closures -/

/-- `promote_tuple_slot/3`: the slot moves to a cell, unless it is one. -/
def promoteTupleSlot (tuple : List Value) (index : ℤ) (execution : State W) :
    Except Crash (SlotRef × List Value × State W) := do
  match ← elem tuple index with
  | .slot (.cell id) => .ok (.cell id, tuple, execution)
  | value =>
    let id := execution.nextCellId
    .ok (.cell id, putElem tuple index (.slot (.cell id)),
      { execution with cells := execution.cells.put id value, nextCellId := id + 1 })

def captureReference (closureVar : Closure) (frame : Frame) (execution : State W) :
    Except Crash (SlotRef × Frame × State W) :=
  match closureVar.closureType with
  | 0 => do
    let (reference, locals, execution) ←
      promoteTupleSlot frame.locals (frame.function.argCount + closureVar.varIdx : ℕ) execution
    .ok (reference, { frame with locals }, execution)
  | 1 => do
    let (reference, args, execution) ← promoteTupleSlot frame.args closureVar.varIdx execution
    .ok (reference, { frame with args }, execution)
  | 2 =>
    match frame.closureRefs[closureVar.varIdx]? with
    | some reference => .ok (reference, frame, execution)
    | none => .error .badIndex
  | _ => .ok (.global closureVar.name, frame, execution)

def captureReferences : List Closure → Frame → State W →
    Except Crash (List SlotRef × Frame × State W)
  | [], frame, execution => .ok ([], frame, execution)
  | closureVar :: rest, frame, execution => do
    let (reference, frame, execution) ← captureReference closureVar frame execution
    let (references, frame, execution) ← captureReferences rest frame execution
    .ok (reference :: references, frame, execution)

def captureClosure (function : Function) (frame : Frame) (execution : State W) :
    Except Crash (Value × Frame × State W) :=
  if function.closureVars = [] then .ok (.function function, frame, execution)
  else do
    let (references, frame, execution) ← captureReferences function.closureVars frame execution
    .ok (.closure function references, frame, execution)

/-! ### Instructions -/

def getReferenceOps : List Op :=
  [.getVarRef, .getVarRef0, .getVarRef1, .getVarRef2, .getVarRef3, .getVarRefCheck]

def putReferenceOps : List Op :=
  [.putVarRef, .putVarRef0, .putVarRef1, .putVarRef2, .putVarRef3, .putVarRefCheck,
   .putVarRefCheckInit]

def putGlobalOps : List Op := [.putVar, .putVarInit, .defineFunc]

def opcodes : List Op :=
  [.pushAtomValue, .rest, .getArg, .putArg, .setArg, .getLoc, .getLoc0Loc1, .putLoc, .setLoc,
   .setLocUninitialized, .getLocCheck, .putLocCheckInit, .putLocCheck, .closeLoc, .incLoc, .decLoc,
   .addLoc, .fclosure, .fclosure8, .setVarRef, .getVar, .getVarUndef, .putVar, .putVarInit,
   .defineFunc, .defineVar, .checkDefineVar] ++ getReferenceOps ++ putReferenceOps

def closureRef (frame : Frame) (index : ℤ) : Except Crash SlotRef :=
  if 0 ≤ index then
    match frame.closureRefs[index.toNat]? with
    | some reference => .ok reference
    | none => .error .badIndex
  else .error .badIndex

def push (frame : Frame) (execution : State W) (value : Value) : Action W :=
  .next (frame.push value) execution

def referenceError : Value := .atom "reference_error"

/-- A read that throws when the slot is not initialized. -/
def checked (value : Value) (frame : Frame) (execution : State W) : Action W :=
  if value = .uninitialized then .throw_ referenceError frame execution
  else push frame execution value

/-- `Opcode.Local.execute/4`; an array, a global or a function reference is an answer. -/
def execute [Value.Platform] [AtomTable] (name : Op) (operands : List Operand) (frame : Frame)
    (execution : State W) (reply : Reply W) : Except Crash (Action W) :=
  if name ∈ compactOperations then do
    let result ← executeCompact name operands frame.args frame.locals frame.stack execution
    .ok (.next { frame with args := result.args, locals := result.locals, stack := result.stack }
      result.execution)
  else if name ∈ getReferenceOps then
    match operands with
    | [.int index] => do
      let value ← readReference (← closureRef frame index) execution
      .ok (if name = .getVarRefCheck then checked value frame execution
        else push frame execution value)
    | _ => .error .noClause
  else if name ∈ putReferenceOps then
    match operands, frame.stack with
    | [.int index], value :: stack => do
      let reference ← closureRef frame index
      .ok (.next { frame with stack } (writeReference reference value execution))
    | _, [] => .error .underflow
    | _, _ => .error .noClause
  else if name ∈ putGlobalOps then
    match operands, frame.stack with
    | atom :: _, value :: stack =>
      .ok (.next { frame with stack }
        (writeGlobal (resolveAtom atom execution) value execution reply))
    | _, [] => .error .underflow
    | _, _ => .error .noClause
  else
    match name, operands, frame.stack, reply.answer with
    | .pushAtomValue, [atom], _, _ => .ok (push frame execution (resolveAtom atom execution))
    | .rest, [.int _first], _, .value array => .ok (push frame (State.after execution reply) array)
    | .getLocCheck, [.int index], _, _ => do
      let value ← readSlot (← elem frame.locals index) execution
      .ok (checked value frame execution)
    | .closeLoc, [_index], _, _ => .ok (.next frame execution)
    | .setVarRef, [.int index], value :: _, _ => do
      let reference ← closureRef frame index
      .ok (.next frame (writeReference reference value execution))
    | .getVar, [_atom], _, .value value => .ok (push frame execution value)
    | .getVar, [_atom], _, .error _ => .ok (.throw_ referenceError frame execution)
    | .getVarUndef, [_atom], _, .value value => .ok (push frame execution value)
    | .getVarUndef, [_atom], _, .error _ => .ok (push frame execution .undefined)
    | .defineVar, _atom :: _, _, _ => .ok (.next frame execution)
    | .checkDefineVar, _atom :: _, _, _ => .ok (.next frame execution)
    | .fclosure, [.int index], _, .value reference =>
      instantiate index reference
    | .fclosure8, [.int index], _, .value reference =>
      instantiate index reference
    | .setVarRef, _, [], _ => .error .underflow
    | _, _, _, _ => .error .noClause
where
  /-- `instantiate_function/4`. -/
  instantiate (index : ℤ) (reference : Value) : Except Crash (Action W) :=
    match enumAt frame.function.constants index with
    | .function function => do
      let (_callable, frame, execution) ← captureClosure function frame execution
      .ok (push frame (State.after execution reply) reference)
    | _ => .error .noClause

end QuickBeam.Vm.Runtime.Opcode.Local
