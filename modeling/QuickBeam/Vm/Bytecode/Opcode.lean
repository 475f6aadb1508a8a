import Mathlib.Data.List.Basic
import Mathlib.Data.Int.Notation
import Mathlib.Data.Nat.Notation

/-!
# The opcode table (`bytecode/opcode.ex`)

The table is generated from the rows of `quickjs-opcode.h` that reach final bytecode, in the
order of the header: the number of an opcode is the position of its row.  A row holds the name,
the bytes of the encoding, the entries popped and pushed, and the format of the operands.  Compact
encodings are expanded to a canonical name and operands right before an instruction is executed.
-/

namespace QuickBeam.Vm.Bytecode

/-! ### Names and formats -/

inductive Format where
  | none | noneInt | noneLoc | noneArg | noneVarRef | u8 | i8 | loc8 | const8 | label8 | u16 | i16
  | label16 | npop | npopx | npopU16 | loc | arg | varRef | u32 | u32x2 | i32 | const | label
  | atom | atomU8 | atomU16 | atomLabelU8 | atomLabelU16 | labelU16
deriving DecidableEq

/-- The opcode names; a name that is a keyword here has a final underscore. -/
inductive Op where
  | invalid | pushI32 | pushConst | fclosure | pushAtomValue | privateSymbol | undefined | null
  | pushThis | pushFalse | pushTrue | object | specialObject | rest | drop | nip | nip1 | dup
  | dup1 | dup2 | dup3 | insert2 | insert3 | insert4 | perm3 | perm4 | perm5 | swap | swap2
  | rot3l | rot3r | rot4l | rot5l | callConstructor | call | tailCall | callMethod
  | tailCallMethod | arrayFrom | apply | return_ | returnUndef | checkCtorReturn | checkCtor
  | initCtor | checkBrand | addBrand | returnAsync | throw_ | throwError | eval | applyEval
  | regexp | getSuper | import_ | getVarUndef | getVar | putVar | putVarInit | getRefValue
  | putRefValue | defineVar | checkDefineVar | defineFunc | getField | getField2 | putField
  | getPrivateField | putPrivateField | definePrivateField | getArrayEl | getArrayEl2
  | putArrayEl | getSuperValue | putSuperValue | defineField | setName | setNameComputed
  | setProto | setHomeObject | defineArrayEl | append | copyDataProperties | defineMethod
  | defineMethodComputed | defineClass | defineClassComputed | getLoc | putLoc | setLoc | getArg
  | putArg | setArg | getVarRef | putVarRef | setVarRef | setLocUninitialized | getLocCheck
  | putLocCheck | putLocCheckInit | getVarRefCheck | putVarRefCheck | putVarRefCheckInit
  | closeLoc | ifFalse | ifTrue | goto | catch_ | gosub | ret | nipCatch | checkObject | toObject
  | toPropkey | toPropkey2 | withGetVar | withPutVar | withDeleteVar | withMakeRef | withGetRef
  | withGetRefUndef | makeLocRef | makeArgRef | makeVarRefRef | makeVarRef | forInStart
  | forOfStart | forAwaitOfStart | forInNext | forOfNext | iteratorGetValueDone | iteratorClose
  | iteratorNext | iteratorCall | initialYield | yield | yieldStar | asyncYieldStar | await | neg
  | plus | dec | inc | postDec | postInc | decLoc | incLoc | addLoc | not | lnot | typeof
  | delete | deleteVar | mul | div | mod | add | sub | shl | sar | shr | and | xor | or | pow
  | lt | lte | gt | gte | instanceof | in_ | eq | neq | strictEq | strictNeq | isUndefinedOrNull
  | privateIn | pushBigintI32 | usingDisposeInit | usingDispose | usingDisposeAsync
  | usingDisposeMerge | usingDisposeEnd | usingCheck | nop | pushMinus1 | push0 | push1 | push2
  | push3 | push4 | push5 | push6 | push7 | pushI8 | pushI16 | pushConst8 | fclosure8
  | pushEmptyString | getLoc8 | putLoc8 | setLoc8 | getLoc0Loc1 | getLoc0 | getLoc1 | getLoc2
  | getLoc3 | putLoc0 | putLoc1 | putLoc2 | putLoc3 | setLoc0 | setLoc1 | setLoc2 | setLoc3
  | getArg0 | getArg1 | getArg2 | getArg3 | putArg0 | putArg1 | putArg2 | putArg3 | setArg0
  | setArg1 | setArg2 | setArg3 | getVarRef0 | getVarRef1 | getVarRef2 | getVarRef3 | putVarRef0
  | putVarRef1 | putVarRef2 | putVarRef3 | setVarRef0 | setVarRef1 | setVarRef2 | setVarRef3
  | getLength | ifFalse8 | ifTrue8 | goto8 | goto16 | call0 | call1 | call2 | call3 | isUndefined
  | isNull | typeofIsUndefined | typeofIsFunction
deriving DecidableEq

/-- Bytes of the encoding, entries popped, entries pushed, and operand format. -/
structure Row where
  size : ℕ
  pops : ℕ
  pushes : ℕ
  format : Format
deriving DecidableEq

namespace Op

def row : Op → Row
  | .invalid => ⟨1, 0, 0, .none⟩
  | .pushI32 => ⟨5, 0, 1, .i32⟩
  | .pushConst => ⟨5, 0, 1, .const⟩
  | .fclosure => ⟨5, 0, 1, .const⟩
  | .pushAtomValue => ⟨5, 0, 1, .atom⟩
  | .privateSymbol => ⟨5, 0, 1, .atom⟩
  | .undefined => ⟨1, 0, 1, .none⟩
  | .null => ⟨1, 0, 1, .none⟩
  | .pushThis => ⟨1, 0, 1, .none⟩
  | .pushFalse => ⟨1, 0, 1, .none⟩
  | .pushTrue => ⟨1, 0, 1, .none⟩
  | .object => ⟨1, 0, 1, .none⟩
  | .specialObject => ⟨2, 0, 1, .u8⟩
  | .rest => ⟨3, 0, 1, .u16⟩
  | .drop => ⟨1, 1, 0, .none⟩
  | .nip => ⟨1, 2, 1, .none⟩
  | .nip1 => ⟨1, 3, 2, .none⟩
  | .dup => ⟨1, 1, 2, .none⟩
  | .dup1 => ⟨1, 2, 3, .none⟩
  | .dup2 => ⟨1, 2, 4, .none⟩
  | .dup3 => ⟨1, 3, 6, .none⟩
  | .insert2 => ⟨1, 2, 3, .none⟩
  | .insert3 => ⟨1, 3, 4, .none⟩
  | .insert4 => ⟨1, 4, 5, .none⟩
  | .perm3 => ⟨1, 3, 3, .none⟩
  | .perm4 => ⟨1, 4, 4, .none⟩
  | .perm5 => ⟨1, 5, 5, .none⟩
  | .swap => ⟨1, 2, 2, .none⟩
  | .swap2 => ⟨1, 4, 4, .none⟩
  | .rot3l => ⟨1, 3, 3, .none⟩
  | .rot3r => ⟨1, 3, 3, .none⟩
  | .rot4l => ⟨1, 4, 4, .none⟩
  | .rot5l => ⟨1, 5, 5, .none⟩
  | .callConstructor => ⟨3, 2, 1, .npop⟩
  | .call => ⟨3, 1, 1, .npop⟩
  | .tailCall => ⟨3, 1, 0, .npop⟩
  | .callMethod => ⟨3, 2, 1, .npop⟩
  | .tailCallMethod => ⟨3, 2, 0, .npop⟩
  | .arrayFrom => ⟨3, 0, 1, .npop⟩
  | .apply => ⟨3, 3, 1, .u16⟩
  | .return_ => ⟨1, 1, 0, .none⟩
  | .returnUndef => ⟨1, 0, 0, .none⟩
  | .checkCtorReturn => ⟨1, 1, 2, .none⟩
  | .checkCtor => ⟨1, 0, 0, .none⟩
  | .initCtor => ⟨1, 0, 1, .none⟩
  | .checkBrand => ⟨1, 2, 2, .none⟩
  | .addBrand => ⟨1, 2, 0, .none⟩
  | .returnAsync => ⟨1, 1, 0, .none⟩
  | .throw_ => ⟨1, 1, 0, .none⟩
  | .throwError => ⟨6, 0, 0, .atomU8⟩
  | .eval => ⟨5, 1, 1, .npopU16⟩
  | .applyEval => ⟨3, 2, 1, .u16⟩
  | .regexp => ⟨1, 2, 1, .none⟩
  | .getSuper => ⟨1, 1, 1, .none⟩
  | .import_ => ⟨1, 2, 1, .none⟩
  | .getVarUndef => ⟨5, 0, 1, .atom⟩
  | .getVar => ⟨5, 0, 1, .atom⟩
  | .putVar => ⟨5, 1, 0, .atom⟩
  | .putVarInit => ⟨5, 1, 0, .atom⟩
  | .getRefValue => ⟨1, 2, 3, .none⟩
  | .putRefValue => ⟨1, 3, 0, .none⟩
  | .defineVar => ⟨6, 0, 0, .atomU8⟩
  | .checkDefineVar => ⟨6, 0, 0, .atomU8⟩
  | .defineFunc => ⟨6, 1, 0, .atomU8⟩
  | .getField => ⟨5, 1, 1, .atom⟩
  | .getField2 => ⟨5, 1, 2, .atom⟩
  | .putField => ⟨5, 2, 0, .atom⟩
  | .getPrivateField => ⟨1, 2, 1, .none⟩
  | .putPrivateField => ⟨1, 3, 0, .none⟩
  | .definePrivateField => ⟨1, 3, 1, .none⟩
  | .getArrayEl => ⟨1, 2, 1, .none⟩
  | .getArrayEl2 => ⟨1, 2, 2, .none⟩
  | .putArrayEl => ⟨1, 3, 0, .none⟩
  | .getSuperValue => ⟨1, 3, 1, .none⟩
  | .putSuperValue => ⟨1, 4, 0, .none⟩
  | .defineField => ⟨5, 2, 1, .atom⟩
  | .setName => ⟨5, 1, 1, .atom⟩
  | .setNameComputed => ⟨1, 2, 2, .none⟩
  | .setProto => ⟨1, 2, 1, .none⟩
  | .setHomeObject => ⟨1, 2, 2, .none⟩
  | .defineArrayEl => ⟨1, 3, 2, .none⟩
  | .append => ⟨1, 3, 2, .none⟩
  | .copyDataProperties => ⟨2, 3, 3, .u8⟩
  | .defineMethod => ⟨6, 2, 1, .atomU8⟩
  | .defineMethodComputed => ⟨2, 3, 1, .u8⟩
  | .defineClass => ⟨6, 2, 2, .atomU8⟩
  | .defineClassComputed => ⟨6, 3, 3, .atomU8⟩
  | .getLoc => ⟨3, 0, 1, .loc⟩
  | .putLoc => ⟨3, 1, 0, .loc⟩
  | .setLoc => ⟨3, 1, 1, .loc⟩
  | .getArg => ⟨3, 0, 1, .arg⟩
  | .putArg => ⟨3, 1, 0, .arg⟩
  | .setArg => ⟨3, 1, 1, .arg⟩
  | .getVarRef => ⟨3, 0, 1, .varRef⟩
  | .putVarRef => ⟨3, 1, 0, .varRef⟩
  | .setVarRef => ⟨3, 1, 1, .varRef⟩
  | .setLocUninitialized => ⟨3, 0, 0, .loc⟩
  | .getLocCheck => ⟨3, 0, 1, .loc⟩
  | .putLocCheck => ⟨3, 1, 0, .loc⟩
  | .putLocCheckInit => ⟨3, 1, 0, .loc⟩
  | .getVarRefCheck => ⟨3, 0, 1, .varRef⟩
  | .putVarRefCheck => ⟨3, 1, 0, .varRef⟩
  | .putVarRefCheckInit => ⟨3, 1, 0, .varRef⟩
  | .closeLoc => ⟨3, 0, 0, .loc⟩
  | .ifFalse => ⟨5, 1, 0, .label⟩
  | .ifTrue => ⟨5, 1, 0, .label⟩
  | .goto => ⟨5, 0, 0, .label⟩
  | .catch_ => ⟨5, 0, 1, .label⟩
  | .gosub => ⟨5, 0, 0, .label⟩
  | .ret => ⟨1, 1, 0, .none⟩
  | .nipCatch => ⟨1, 2, 1, .none⟩
  | .checkObject => ⟨1, 1, 1, .none⟩
  | .toObject => ⟨1, 1, 1, .none⟩
  | .toPropkey => ⟨1, 1, 1, .none⟩
  | .toPropkey2 => ⟨1, 2, 2, .none⟩
  | .withGetVar => ⟨10, 1, 0, .atomLabelU8⟩
  | .withPutVar => ⟨10, 2, 1, .atomLabelU8⟩
  | .withDeleteVar => ⟨10, 1, 0, .atomLabelU8⟩
  | .withMakeRef => ⟨10, 1, 0, .atomLabelU8⟩
  | .withGetRef => ⟨10, 1, 0, .atomLabelU8⟩
  | .withGetRefUndef => ⟨10, 1, 0, .atomLabelU8⟩
  | .makeLocRef => ⟨7, 0, 2, .atomU16⟩
  | .makeArgRef => ⟨7, 0, 2, .atomU16⟩
  | .makeVarRefRef => ⟨7, 0, 2, .atomU16⟩
  | .makeVarRef => ⟨5, 0, 2, .atom⟩
  | .forInStart => ⟨1, 1, 1, .none⟩
  | .forOfStart => ⟨1, 1, 3, .none⟩
  | .forAwaitOfStart => ⟨1, 1, 3, .none⟩
  | .forInNext => ⟨1, 1, 3, .none⟩
  | .forOfNext => ⟨2, 3, 5, .u8⟩
  | .iteratorGetValueDone => ⟨1, 1, 2, .none⟩
  | .iteratorClose => ⟨1, 3, 0, .none⟩
  | .iteratorNext => ⟨1, 4, 4, .none⟩
  | .iteratorCall => ⟨2, 4, 5, .u8⟩
  | .initialYield => ⟨1, 0, 0, .none⟩
  | .yield => ⟨1, 1, 2, .none⟩
  | .yieldStar => ⟨1, 1, 2, .none⟩
  | .asyncYieldStar => ⟨1, 1, 2, .none⟩
  | .await => ⟨1, 1, 1, .none⟩
  | .neg => ⟨1, 1, 1, .none⟩
  | .plus => ⟨1, 1, 1, .none⟩
  | .dec => ⟨1, 1, 1, .none⟩
  | .inc => ⟨1, 1, 1, .none⟩
  | .postDec => ⟨1, 1, 2, .none⟩
  | .postInc => ⟨1, 1, 2, .none⟩
  | .decLoc => ⟨2, 0, 0, .loc8⟩
  | .incLoc => ⟨2, 0, 0, .loc8⟩
  | .addLoc => ⟨2, 1, 0, .loc8⟩
  | .not => ⟨1, 1, 1, .none⟩
  | .lnot => ⟨1, 1, 1, .none⟩
  | .typeof => ⟨1, 1, 1, .none⟩
  | .delete => ⟨1, 2, 1, .none⟩
  | .deleteVar => ⟨5, 0, 1, .atom⟩
  | .mul => ⟨1, 2, 1, .none⟩
  | .div => ⟨1, 2, 1, .none⟩
  | .mod => ⟨1, 2, 1, .none⟩
  | .add => ⟨1, 2, 1, .none⟩
  | .sub => ⟨1, 2, 1, .none⟩
  | .shl => ⟨1, 2, 1, .none⟩
  | .sar => ⟨1, 2, 1, .none⟩
  | .shr => ⟨1, 2, 1, .none⟩
  | .and => ⟨1, 2, 1, .none⟩
  | .xor => ⟨1, 2, 1, .none⟩
  | .or => ⟨1, 2, 1, .none⟩
  | .pow => ⟨1, 2, 1, .none⟩
  | .lt => ⟨1, 2, 1, .none⟩
  | .lte => ⟨1, 2, 1, .none⟩
  | .gt => ⟨1, 2, 1, .none⟩
  | .gte => ⟨1, 2, 1, .none⟩
  | .instanceof => ⟨1, 2, 1, .none⟩
  | .in_ => ⟨1, 2, 1, .none⟩
  | .eq => ⟨1, 2, 1, .none⟩
  | .neq => ⟨1, 2, 1, .none⟩
  | .strictEq => ⟨1, 2, 1, .none⟩
  | .strictNeq => ⟨1, 2, 1, .none⟩
  | .isUndefinedOrNull => ⟨1, 1, 1, .none⟩
  | .privateIn => ⟨1, 2, 1, .none⟩
  | .pushBigintI32 => ⟨5, 0, 1, .i32⟩
  | .usingDisposeInit => ⟨1, 0, 1, .none⟩
  | .usingDispose => ⟨3, 1, 1, .loc⟩
  | .usingDisposeAsync => ⟨3, 0, 1, .loc⟩
  | .usingDisposeMerge => ⟨1, 2, 1, .none⟩
  | .usingDisposeEnd => ⟨1, 1, 0, .none⟩
  | .usingCheck => ⟨2, 1, 2, .u8⟩
  | .nop => ⟨1, 0, 0, .none⟩
  | .pushMinus1 => ⟨1, 0, 1, .noneInt⟩
  | .push0 => ⟨1, 0, 1, .noneInt⟩
  | .push1 => ⟨1, 0, 1, .noneInt⟩
  | .push2 => ⟨1, 0, 1, .noneInt⟩
  | .push3 => ⟨1, 0, 1, .noneInt⟩
  | .push4 => ⟨1, 0, 1, .noneInt⟩
  | .push5 => ⟨1, 0, 1, .noneInt⟩
  | .push6 => ⟨1, 0, 1, .noneInt⟩
  | .push7 => ⟨1, 0, 1, .noneInt⟩
  | .pushI8 => ⟨2, 0, 1, .i8⟩
  | .pushI16 => ⟨3, 0, 1, .i16⟩
  | .pushConst8 => ⟨2, 0, 1, .const8⟩
  | .fclosure8 => ⟨2, 0, 1, .const8⟩
  | .pushEmptyString => ⟨1, 0, 1, .none⟩
  | .getLoc8 => ⟨2, 0, 1, .loc8⟩
  | .putLoc8 => ⟨2, 1, 0, .loc8⟩
  | .setLoc8 => ⟨2, 1, 1, .loc8⟩
  | .getLoc0Loc1 => ⟨1, 0, 2, .noneLoc⟩
  | .getLoc0 => ⟨1, 0, 1, .noneLoc⟩
  | .getLoc1 => ⟨1, 0, 1, .noneLoc⟩
  | .getLoc2 => ⟨1, 0, 1, .noneLoc⟩
  | .getLoc3 => ⟨1, 0, 1, .noneLoc⟩
  | .putLoc0 => ⟨1, 1, 0, .noneLoc⟩
  | .putLoc1 => ⟨1, 1, 0, .noneLoc⟩
  | .putLoc2 => ⟨1, 1, 0, .noneLoc⟩
  | .putLoc3 => ⟨1, 1, 0, .noneLoc⟩
  | .setLoc0 => ⟨1, 1, 1, .noneLoc⟩
  | .setLoc1 => ⟨1, 1, 1, .noneLoc⟩
  | .setLoc2 => ⟨1, 1, 1, .noneLoc⟩
  | .setLoc3 => ⟨1, 1, 1, .noneLoc⟩
  | .getArg0 => ⟨1, 0, 1, .noneArg⟩
  | .getArg1 => ⟨1, 0, 1, .noneArg⟩
  | .getArg2 => ⟨1, 0, 1, .noneArg⟩
  | .getArg3 => ⟨1, 0, 1, .noneArg⟩
  | .putArg0 => ⟨1, 1, 0, .noneArg⟩
  | .putArg1 => ⟨1, 1, 0, .noneArg⟩
  | .putArg2 => ⟨1, 1, 0, .noneArg⟩
  | .putArg3 => ⟨1, 1, 0, .noneArg⟩
  | .setArg0 => ⟨1, 1, 1, .noneArg⟩
  | .setArg1 => ⟨1, 1, 1, .noneArg⟩
  | .setArg2 => ⟨1, 1, 1, .noneArg⟩
  | .setArg3 => ⟨1, 1, 1, .noneArg⟩
  | .getVarRef0 => ⟨1, 0, 1, .noneVarRef⟩
  | .getVarRef1 => ⟨1, 0, 1, .noneVarRef⟩
  | .getVarRef2 => ⟨1, 0, 1, .noneVarRef⟩
  | .getVarRef3 => ⟨1, 0, 1, .noneVarRef⟩
  | .putVarRef0 => ⟨1, 1, 0, .noneVarRef⟩
  | .putVarRef1 => ⟨1, 1, 0, .noneVarRef⟩
  | .putVarRef2 => ⟨1, 1, 0, .noneVarRef⟩
  | .putVarRef3 => ⟨1, 1, 0, .noneVarRef⟩
  | .setVarRef0 => ⟨1, 1, 1, .noneVarRef⟩
  | .setVarRef1 => ⟨1, 1, 1, .noneVarRef⟩
  | .setVarRef2 => ⟨1, 1, 1, .noneVarRef⟩
  | .setVarRef3 => ⟨1, 1, 1, .noneVarRef⟩
  | .getLength => ⟨1, 1, 1, .none⟩
  | .ifFalse8 => ⟨2, 1, 0, .label8⟩
  | .ifTrue8 => ⟨2, 1, 0, .label8⟩
  | .goto8 => ⟨2, 0, 0, .label8⟩
  | .goto16 => ⟨3, 0, 0, .label16⟩
  | .call0 => ⟨1, 1, 1, .npopx⟩
  | .call1 => ⟨1, 1, 1, .npopx⟩
  | .call2 => ⟨1, 1, 1, .npopx⟩
  | .call3 => ⟨1, 1, 1, .npopx⟩
  | .isUndefined => ⟨1, 1, 1, .none⟩
  | .isNull => ⟨1, 1, 1, .none⟩
  | .typeofIsUndefined => ⟨1, 1, 1, .none⟩
  | .typeofIsFunction => ⟨1, 1, 1, .none⟩

/-- The opcodes in the order of the header. -/
def all : List Op :=
  [.invalid, .pushI32, .pushConst, .fclosure, .pushAtomValue, .privateSymbol, .undefined, .null,
   .pushThis, .pushFalse, .pushTrue, .object, .specialObject, .rest, .drop, .nip, .nip1, .dup,
   .dup1, .dup2, .dup3, .insert2, .insert3, .insert4, .perm3, .perm4, .perm5, .swap, .swap2,
   .rot3l, .rot3r, .rot4l, .rot5l, .callConstructor, .call, .tailCall, .callMethod,
   .tailCallMethod, .arrayFrom, .apply, .return_, .returnUndef, .checkCtorReturn, .checkCtor,
   .initCtor, .checkBrand, .addBrand, .returnAsync, .throw_, .throwError, .eval, .applyEval,
   .regexp, .getSuper, .import_, .getVarUndef, .getVar, .putVar, .putVarInit, .getRefValue,
   .putRefValue, .defineVar, .checkDefineVar, .defineFunc, .getField, .getField2, .putField,
   .getPrivateField, .putPrivateField, .definePrivateField, .getArrayEl, .getArrayEl2,
   .putArrayEl, .getSuperValue, .putSuperValue, .defineField, .setName, .setNameComputed,
   .setProto, .setHomeObject, .defineArrayEl, .append, .copyDataProperties, .defineMethod,
   .defineMethodComputed, .defineClass, .defineClassComputed, .getLoc, .putLoc, .setLoc, .getArg,
   .putArg, .setArg, .getVarRef, .putVarRef, .setVarRef, .setLocUninitialized, .getLocCheck,
   .putLocCheck, .putLocCheckInit, .getVarRefCheck, .putVarRefCheck, .putVarRefCheckInit,
   .closeLoc, .ifFalse, .ifTrue, .goto, .catch_, .gosub, .ret, .nipCatch, .checkObject, .toObject,
   .toPropkey, .toPropkey2, .withGetVar, .withPutVar, .withDeleteVar, .withMakeRef, .withGetRef,
   .withGetRefUndef, .makeLocRef, .makeArgRef, .makeVarRefRef, .makeVarRef, .forInStart,
   .forOfStart, .forAwaitOfStart, .forInNext, .forOfNext, .iteratorGetValueDone, .iteratorClose,
   .iteratorNext, .iteratorCall, .initialYield, .yield, .yieldStar, .asyncYieldStar, .await, .neg,
   .plus, .dec, .inc, .postDec, .postInc, .decLoc, .incLoc, .addLoc, .not, .lnot, .typeof,
   .delete, .deleteVar, .mul, .div, .mod, .add, .sub, .shl, .sar, .shr, .and, .xor, .or, .pow,
   .lt, .lte, .gt, .gte, .instanceof, .in_, .eq, .neq, .strictEq, .strictNeq, .isUndefinedOrNull,
   .privateIn, .pushBigintI32, .usingDisposeInit, .usingDispose, .usingDisposeAsync,
   .usingDisposeMerge, .usingDisposeEnd, .usingCheck, .nop, .pushMinus1, .push0, .push1, .push2,
   .push3, .push4, .push5, .push6, .push7, .pushI8, .pushI16, .pushConst8, .fclosure8,
   .pushEmptyString, .getLoc8, .putLoc8, .setLoc8, .getLoc0Loc1, .getLoc0, .getLoc1, .getLoc2,
   .getLoc3, .putLoc0, .putLoc1, .putLoc2, .putLoc3, .setLoc0, .setLoc1, .setLoc2, .setLoc3,
   .getArg0, .getArg1, .getArg2, .getArg3, .putArg0, .putArg1, .putArg2, .putArg3, .setArg0,
   .setArg1, .setArg2, .setArg3, .getVarRef0, .getVarRef1, .getVarRef2, .getVarRef3, .putVarRef0,
   .putVarRef1, .putVarRef2, .putVarRef3, .setVarRef0, .setVarRef1, .setVarRef2, .setVarRef3,
   .getLength, .ifFalse8, .ifTrue8, .goto8, .goto16, .call0, .call1, .call2, .call3, .isUndefined,
   .isNull, .typeofIsUndefined, .typeofIsFunction]

end Op

/-- `Opcode.info/1`: the opcode with a number, with its row. -/
def info (number : ℕ) : Option (Op × Row) :=
  Op.all[number]?.map fun name => (name, name.row)

theorem info_eq_some {number : ℕ} {name : Op} {row : Row} (h : info number = some (name, row)) :
    Op.all[number]? = some name ∧ row = name.row := by
  obtain ⟨op, hop, heq⟩ := Option.map_eq_some_iff.1 h
  obtain ⟨rfl, rfl⟩ := Prod.mk.injEq .. ▸ heq
  exact ⟨hop, rfl⟩

/-! ### Operands -/

/-- An operand: an integer, or one of the three shapes of an atom that is not in the table of
the program. -/
inductive Operand where
  | int (value : ℤ)
  | predefined (index : ℤ)
  | taggedInt (value : ℤ)
  | emptyString
deriving DecidableEq

abbrev Instruction := ℕ × List Operand

/-! ### Compact encodings -/

/-- `@short_forms`: the canonical name and the constant operands. -/
def shortForm : Op → Option (Op × List Operand)
  | .pushMinus1 => some (.pushI32, [.int (-1)])
  | .push0 => some (.pushI32, [.int 0])
  | .push1 => some (.pushI32, [.int 1])
  | .push2 => some (.pushI32, [.int 2])
  | .push3 => some (.pushI32, [.int 3])
  | .push4 => some (.pushI32, [.int 4])
  | .push5 => some (.pushI32, [.int 5])
  | .push6 => some (.pushI32, [.int 6])
  | .push7 => some (.pushI32, [.int 7])
  | .getLoc0 => some (.getLoc, [.int 0])
  | .getLoc1 => some (.getLoc, [.int 1])
  | .getLoc2 => some (.getLoc, [.int 2])
  | .getLoc3 => some (.getLoc, [.int 3])
  | .putLoc0 => some (.putLoc, [.int 0])
  | .putLoc1 => some (.putLoc, [.int 1])
  | .putLoc2 => some (.putLoc, [.int 2])
  | .putLoc3 => some (.putLoc, [.int 3])
  | .setLoc0 => some (.setLoc, [.int 0])
  | .setLoc1 => some (.setLoc, [.int 1])
  | .setLoc2 => some (.setLoc, [.int 2])
  | .setLoc3 => some (.setLoc, [.int 3])
  | .getArg0 => some (.getArg, [.int 0])
  | .getArg1 => some (.getArg, [.int 1])
  | .getArg2 => some (.getArg, [.int 2])
  | .getArg3 => some (.getArg, [.int 3])
  | .putArg0 => some (.putArg, [.int 0])
  | .putArg1 => some (.putArg, [.int 1])
  | .putArg2 => some (.putArg, [.int 2])
  | .putArg3 => some (.putArg, [.int 3])
  | .setArg0 => some (.setArg, [.int 0])
  | .setArg1 => some (.setArg, [.int 1])
  | .setArg2 => some (.setArg, [.int 2])
  | .setArg3 => some (.setArg, [.int 3])
  | .getVarRef0 => some (.getVarRef, [.int 0])
  | .getVarRef1 => some (.getVarRef, [.int 1])
  | .getVarRef2 => some (.getVarRef, [.int 2])
  | .getVarRef3 => some (.getVarRef, [.int 3])
  | .putVarRef0 => some (.putVarRef, [.int 0])
  | .putVarRef1 => some (.putVarRef, [.int 1])
  | .putVarRef2 => some (.putVarRef, [.int 2])
  | .putVarRef3 => some (.putVarRef, [.int 3])
  | .setVarRef0 => some (.setVarRef, [.int 0])
  | .setVarRef1 => some (.setVarRef, [.int 1])
  | .setVarRef2 => some (.setVarRef, [.int 2])
  | .setVarRef3 => some (.setVarRef, [.int 3])
  | .call0 => some (.call, [.int 0])
  | .call1 => some (.call, [.int 1])
  | .call2 => some (.call, [.int 2])
  | .call3 => some (.call, [.int 3])
  | .pushEmptyString => some (.pushAtomValue, [.emptyString])
  | .getLoc0Loc1 => some (.getLoc0Loc1, [.int 0, .int 1])
  | _ => none

/-- `@passthrough_aliases`; its keys `get_loc_check8` and `put_loc_check8` name no opcode. -/
def passthroughAlias : Op → Option Op
  | .getLoc8 => some .getLoc
  | .putLoc8 => some .putLoc
  | .setLoc8 => some .setLoc
  | _ => none

/-- `&(&1 + arg_count)`, on the integer operands of a compact local form. -/
def Operand.addArgCount (argCount : ℕ) : Operand → Operand
  | .int value => .int (value + argCount)
  | operand => operand

def expandShortForm (name : Op) (args : List Operand) (argCount : ℕ) : Op × List Operand :=
  match shortForm name with
  | none =>
      match passthroughAlias name with
      | none => (name, args)
      | some canonical => (canonical, args)
  | some (canonical, constantArgs) =>
      if canonical ∈ [.getLoc, .putLoc, .setLoc, .getLoc0Loc1] then
        (canonical, constantArgs.map (Operand.addArgCount argCount))
      else
        (canonical, constantArgs)

def shortFormOperands (number argCount : ℕ) : List Operand :=
  match info number with
  | some (name, _) => (expandShortForm name [] argCount).2
  | none => []

end QuickBeam.Vm.Bytecode
