import QuickBeam.Vm.Bytecode.VerifierStack

/-!
# The bytecode verifier (`bytecode/verifier.ex`)

The verifier accepts a program when its header is the one of this build, and every function in
it, nested at any depth, has consistent counts, operands in range, and an operand stack that the
analysis accepts.
-/

namespace QuickBeam.Vm.Bytecode.Verifier

open QuickBeam.Lib QuickBeam.Vm.Program

/-! ### Limits and errors -/

/-- The identity of the vendored QuickJS: the serialization version, the fingerprint of the ABI
and the end of the predefined atoms. -/
structure Abi where
  bytecodeVersion : ℕ
  fingerprint : String
  jsAtomEnd : ℕ

inductive LimitKey where
  | maxAtoms | maxConstantsPerFunction | maxFunctionDepth | maxFunctions | maxInstructions
  | maxStackSize
deriving DecidableEq

abbrev Limits := LimitKey → ℕ

def defaultLimits : Limits
  | .maxAtoms => 100000
  | .maxConstantsPerFunction => 100000
  | .maxFunctionDepth => 128
  | .maxFunctions => 10000
  | .maxInstructions => 1000000
  | .maxStackSize => 100000

inductive LimitKind where
  | atoms | functionDepth | constantDepth | constants | stackSize | functions | instructions
deriving DecidableEq

inductive IndexKind where
  | local_ | argument | closureVariable | constant | atom | label
deriving DecidableEq

inductive InstructionError where
  | unknownOpcode (opcode : ℕ)
  | operandCount (expected found : ℕ)
  | invalidOperandType
  | invalidAtom
  | invalidIndex (kind : IndexKind) (operand : Operand)
deriving DecidableEq

inductive FunctionField where
  | locals | definedArguments | sourcePositions
deriving DecidableEq

inductive VerifyError where
  | badVersion (version : ℕ)
  | badFingerprint (fingerprint : String)
  | invalidLimit (key : LimitKey)
  | invalidRootFunction
  | limitExceeded (kind : LimitKind) (value : ℕ)
  | invalidFunction (id : ℕ) (field : FunctionField)
  | invalidVarRef (id : ℕ) (index : Option ℕ)
  | invalidInstruction (id index : ℕ) (reason : InstructionError)
  | invalidStack (id : ℕ) (reason : Stack.StackError)
  | invalidTemplateConstant
deriving DecidableEq

def limits (opts : List (LimitKey × ℤ)) : Except VerifyError Limits :=
  opts.foldlM (fun limits (key, value) =>
    if 0 < value ∧ value ≤ defaultLimits key then
      .ok fun k => if k = key then value.toNat else limits k
    else .error (.invalidLimit key)) defaultLimits

def within (value maximum : ℕ) (kind : LimitKind) : Except VerifyError Unit :=
  if value ≤ maximum then .ok () else .error (.limitExceeded kind value)

/-! ### Operands -/

def indexWithin (operand : Operand) (count : ℕ) (kind : IndexKind) : Except InstructionError Unit :=
  match operand with
  | .int index => if 0 ≤ index ∧ index < count then .ok () else .error (.invalidIndex kind operand)
  | _ => .error (.invalidIndex kind operand)

def atomFormats : List Format := [.atom, .atomU8, .atomU16, .atomLabelU8, .atomLabelU16]

def expectedOperands (format : Format) (operands : List Operand) : ℕ :=
  match format with
  | .none => 0
  | .u32x2 | .npopU16 | .atomU8 | .atomU16 | .labelU16 => 2
  | .atomLabelU8 | .atomLabelU16 => 3
  | .noneLoc => if operands.length = 2 then 2 else 1
  | _ => 1

def verifyOperandCount (format : Format) (operands : List Operand) :
    Except InstructionError Unit :=
  let expected := expectedOperands format operands
  if operands.length = expected then .ok ()
  else .error (.operandCount expected operands.length)

def Operand.isInteger : Operand → Bool
  | .int _ => true
  | _ => false

def verifyIntegerOperands (operands : List Operand) : Except InstructionError Unit :=
  if operands.all Operand.isInteger then .ok () else .error .invalidOperandType

def verifyOperandTypes (format : Format) (operands : List Operand) :
    Except InstructionError Unit :=
  match operands with
  | _atom :: rest =>
      if format ∈ atomFormats then verifyIntegerOperands rest else verifyIntegerOperands operands
  | [] => verifyIntegerOperands []

def verifyAtomOperand (abi : Abi) (operand : Operand) (atoms : List Binary) :
    Except InstructionError Unit :=
  match operand with
  | .int _ => indexWithin operand atoms.length .atom
  | .predefined index => if 0 ≤ index ∧ index < abi.jsAtomEnd then .ok () else .error .invalidAtom
  | .taggedInt value => if 0 ≤ value then .ok () else .error .invalidAtom
  | .emptyString => .error .invalidAtom

def verifySecondaryOperand (name : Op) (operands : List Operand) (f : FunctionHeader) :
    Except InstructionError Unit :=
  match name, operands with
  | .makeLocRef, [_atom, index] => indexWithin index (f.argCount + f.varCount) .local_
  | .makeArgRef, [_atom, index] => indexWithin index f.argCount .argument
  | .makeVarRefRef, [_atom, index] => indexWithin index f.closureVars.length .closureVariable
  | _, _ => .ok ()

def verifyLabel (label : Operand) (f : FunctionHeader) : Except InstructionError Unit :=
  indexWithin label f.instructions.length .label

def verifyEmbeddedLabel (format : Format) (operands : List Operand) (f : FunctionHeader) :
    Except InstructionError Unit :=
  match format, operands with
  | .atomLabelU8, _atom :: label :: _ => verifyLabel label f
  | .atomLabelU16, _atom :: label :: _ => verifyLabel label f
  | _, _ => .ok ()

/-- `verify_operands/5`; a format without a clause of its own is accepted as it is. -/
def verifyOperands (abi : Abi) (name : Op) (format : Format) (operands : List Operand)
    (f : Function) (atoms : List Binary) : Except InstructionError Unit :=
  match format, operands with
  | .loc, [index] | .loc8, [index] => indexWithin index (f.argCount + f.varCount) .local_
  | .arg, [index] => indexWithin index f.argCount .argument
  | .varRef, [index] => indexWithin index f.closureVars.length .closureVariable
  | .const, [index] | .const8, [index] => indexWithin index f.constants.length .constant
  | .atom, first :: _ | .atomU8, first :: _ | .atomU16, first :: _ | .atomLabelU8, first :: _
  | .atomLabelU16, first :: _ => do
      verifyAtomOperand abi first atoms
      verifySecondaryOperand name operands f.toFunctionHeader
      verifyEmbeddedLabel format operands f.toFunctionHeader
  | .label8, first :: _ | .label16, first :: _ | .label, first :: _ | .labelU16, first :: _ =>
      verifyLabel first f.toFunctionHeader
  | _, _ => .ok ()

def verifyInstruction (abi : Abi) (instruction : Instruction) (f : Function)
    (atoms : List Binary) : Except InstructionError Unit :=
  match info instruction.1 with
  | none => .error (.unknownOpcode instruction.1)
  | some (name, row) => do
      verifyOperandCount row.format instruction.2
      verifyOperandTypes row.format instruction.2
      verifyOperands abi name row.format instruction.2 f atoms

def verifyInstructionsFrom (abi : Abi) (f : Function) (atoms : List Binary) :
    ℕ → List Instruction → Except VerifyError Unit
  | _, [] => .ok ()
  | index, instruction :: rest =>
      match verifyInstruction abi instruction f atoms with
      | .ok () => verifyInstructionsFrom abi f atoms (index + 1) rest
      | .error reason => .error (.invalidInstruction f.id index reason)

def verifyInstructions (abi : Abi) (f : Function) (atoms : List Binary) :
    Except VerifyError Unit :=
  verifyInstructionsFrom abi f atoms 0 f.instructions

/-! ### Functions -/

def verifyCaptureIndexes (f : FunctionHeader) : Except VerifyError Unit :=
  match f.locals.find? fun v => v.isCaptured && !(v.varRefIdx.any (· < f.varRefCount)) with
  | some v => .error (.invalidVarRef f.id v.varRefIdx)
  | none => .ok ()

def verifyFunctionShape (f : FunctionHeader) : Except VerifyError Unit :=
  if f.locals.length ≠ f.argCount + f.varCount then .error (.invalidFunction f.id .locals)
  else if f.argCount < f.definedArgCount then .error (.invalidFunction f.id .definedArguments)
  else if f.sourcePositions.length ≠ f.instructions.length then
    .error (.invalidFunction f.id .sourcePositions)
  else verifyCaptureIndexes f

def verifyStack (f : FunctionHeader) : Except VerifyError Unit :=
  match Stack.verify f with
  | .ok () => .ok ()
  | .error reason => .error (.invalidStack f.id reason)

structure Counts where
  functions : ℕ
  instructions : ℕ

def addCounts (f : FunctionHeader) (limits : Limits) (counts : Counts) :
    Except VerifyError Counts := do
  let counts : Counts := ⟨counts.functions + 1, counts.instructions + f.instructions.length⟩
  within counts.functions (limits .maxFunctions) .functions
  within counts.instructions (limits .maxInstructions) .instructions
  pure counts

def verifyFunction (abi : Abi) (atoms : List Binary) (limits : Limits) (f : Function) (depth : ℕ)
    (counts : Counts) : Except VerifyError Counts := do
  within depth (limits .maxFunctionDepth) .functionDepth
  within f.constants.length (limits .maxConstantsPerFunction) .constants
  within f.stackSize (limits .maxStackSize) .stackSize
  verifyFunctionShape f.toFunctionHeader
  verifyInstructions abi f atoms
  verifyStack f.toFunctionHeader
  addCounts f.toFunctionHeader limits counts

mutual

def verifyValue (abi : Abi) (atoms : List Binary) (limits : Limits) :
    Value → ℕ → Counts → Except VerifyError Counts
  | .function ⟨header, constants⟩, depth, counts => do
      let counts ← verifyFunction abi atoms limits ⟨header, constants⟩ depth counts
      verifyValues abi atoms limits constants (depth + 1) counts
  | .array values, depth, counts => do
      within depth (limits .maxFunctionDepth) .constantDepth
      within values.length (limits .maxConstantsPerFunction) .constants
      verifyValues abi atoms limits values (depth + 1) counts
  | .object values, depth, counts => do
      within depth (limits .maxFunctionDepth) .constantDepth
      within values.length (limits .maxConstantsPerFunction) .constants
      verifyEntries abi atoms limits values (depth + 1) counts
  | .templateObject (.array values) raw, depth, counts => do
      within depth (limits .maxFunctionDepth) .constantDepth
      within values.length (limits .maxConstantsPerFunction) .constants
      let counts ← verifyValues abi atoms limits values (depth + 1) counts
      verifyValue abi atoms limits raw (depth + 1) counts
  | .templateObject _ _, _, _ => .error .invalidTemplateConstant
  | _, _, counts => .ok counts

def verifyValues (abi : Abi) (atoms : List Binary) (limits : Limits) :
    List Value → ℕ → Counts → Except VerifyError Counts
  | [], _, counts => .ok counts
  | value :: rest, depth, counts => do
      let counts ← verifyValue abi atoms limits value depth counts
      verifyValues abi atoms limits rest depth counts

/-- `verify_values/5` over `Map.values/1`. -/
def verifyEntries (abi : Abi) (atoms : List Binary) (limits : Limits) :
    List (Binary × Value) → ℕ → Counts → Except VerifyError Counts
  | [], _, counts => .ok counts
  | (_, value) :: rest, depth, counts => do
      let counts ← verifyValue abi atoms limits value depth counts
      verifyEntries abi atoms limits rest depth counts

end

/-! ### Programs -/

def verifyHeader (abi : Abi) (program : Program) : Except VerifyError Unit :=
  if program.version ≠ abi.bytecodeVersion then .error (.badVersion program.version)
  else if program.fingerprint ≠ abi.fingerprint then .error (.badFingerprint program.fingerprint)
  else .ok ()

def verifyRoot : Value → Except VerifyError Unit
  | .function _ => .ok ()
  | _ => .error .invalidRootFunction

def verify (abi : Abi) (program : Program) (opts : List (LimitKey × ℤ)) :
    Except VerifyError Unit := do
  let limits ← limits opts
  verifyHeader abi program
  verifyRoot program.root
  within program.atoms.length (limits .maxAtoms) .atoms
  let _ ← verifyValue abi program.atoms limits program.root 0 ⟨0, 0⟩
  pure ()

end QuickBeam.Vm.Bytecode.Verifier
