import QuickBeam.Lib.Except
import QuickBeam.Vm.Runtime.Interpreter

/-!
# Activations and their variables

A run of the interpreter enters activations and executes the instructions of them in any order:
callers wait, coroutines are resumed.  The variables of an activation are its arguments and its
locals; a closure refers to the variables that it has captured.  Apart from the accessors of the
variables and the instructions that create closures, no instruction touches a variable.
-/

namespace QuickBeam.Vm.Runtime

open QuickBeam.Lib QuickBeam.Vm.Bytecode QuickBeam.Vm.Program
open QuickBeam.Vm.Runtime.Opcode.Local (AtomTable)

variable {W : Type}

/-! ### What an action carries -/

/-- The frame that goes on, or waits, after an action; a return leaves none. -/
def Action.frame? : Action W → Option Frame
  | .next frame _ => some frame
  | .run frame _ => some frame
  | .return_ _ _ => none
  | .returnAsync _ _ => none
  | .throw_ _ frame _ => some frame
  | .invoke _ _ _ caller _ _ => some caller
  | .invokeConstructor _ _ _ caller _ => some caller
  | .invokeGetter _ _ frame _ => some frame
  | .invokeSetter _ _ _ frame _ => some frame
  | .awaitPromise _ frame _ => some frame
  | .awaitLegacy _ frame _ => some frame
  | .awaitImmediate _ frame _ => some frame
  | .error _ _ => none

def Action.execution : Action W → State W
  | .next _ execution => execution
  | .run _ execution => execution
  | .return_ _ execution => execution
  | .returnAsync _ execution => execution
  | .throw_ _ _ execution => execution
  | .invoke _ _ _ _ execution _ => execution
  | .invokeConstructor _ _ _ _ execution => execution
  | .invokeGetter _ _ _ execution => execution
  | .invokeSetter _ _ _ _ execution => execution
  | .awaitPromise _ _ execution => execution
  | .awaitLegacy _ _ execution => execution
  | .awaitImmediate _ _ execution => execution
  | .error _ execution => execution

/-- What an activation was entered with is unchanged. -/
structure SameEntry (frame frame' : Frame) : Prop where
  function : frame'.function = frame.function
  callable : frame'.callable = frame.callable
  this : frame'.this = frame.this
  closureRefs : frame'.closureRefs = frame.closureRefs
  actualArgCount : frame'.actualArgCount = frame.actualArgCount

/-- The variables and what the activation was entered with are unchanged. -/
structure SameVariables (frame frame' : Frame) : Prop extends SameEntry frame frame' where
  args : frame'.args = frame.args
  locals : frame'.locals = frame.locals

structure SameCells (execution execution' : State W) : Prop where
  cells : execution'.cells = execution.cells
  nextCellId : execution'.nextCellId = execution.nextCellId

structure SameTables (execution execution' : State W) : Prop extends SameCells execution execution' where
  globals : execution'.globals = execution.globals

theorem SameEntry.refl (frame : Frame) : SameEntry frame frame := ⟨rfl, rfl, rfl, rfl, rfl⟩

theorem SameVariables.refl (frame : Frame) : SameVariables frame frame := ⟨.refl frame, rfl, rfl⟩

theorem SameCells.refl (execution : State W) : SameCells execution execution := ⟨rfl, rfl⟩

theorem SameTables.refl (execution : State W) : SameTables execution execution :=
  ⟨.refl execution, rfl⟩

structure Keeps (frame : Frame) (execution : State W) (action : Action W) : Prop where
  frame : ∀ frame', action.frame? = some frame' → SameVariables frame frame'
  execution : SameCells execution action.execution

/-- Whatever the instruction gives, it touches no variable. -/
def AlwaysKeeps (frame : Frame) (execution : State W) (result : Except Crash (Action W)) : Prop :=
  ∀ action, result = .ok action → Keeps frame execution action

section Families

variable {frame frame' : Frame} {execution : State W} {reply : Reply W}

theorem SameVariables.stack (frame : Frame) (stack : List Value) :
    SameVariables frame { frame with stack := stack } := ⟨⟨rfl, rfl, rfl, rfl, rfl⟩, rfl, rfl⟩

theorem SameEntry.trans {frame frame' frame'' : Frame} (h : SameEntry frame frame')
    (h' : SameEntry frame' frame'') : SameEntry frame frame'' where
  function := h'.function.trans h.function
  callable := h'.callable.trans h.callable
  this := h'.this.trans h.this
  closureRefs := h'.closureRefs.trans h.closureRefs
  actualArgCount := h'.actualArgCount.trans h.actualArgCount

theorem SameVariables.trans {frame frame' frame'' : Frame} (h : SameVariables frame frame')
    (h' : SameVariables frame' frame'') : SameVariables frame frame'' where
  toSameEntry := h.toSameEntry.trans h'.toSameEntry
  args := h'.args.trans h.args
  locals := h'.locals.trans h.locals

theorem alwaysKeeps_error (crash : Crash) : AlwaysKeeps frame execution (.error crash) :=
  fun _ h => (by cases h)

theorem alwaysKeeps_frame {action : Action W} (hframe : action.frame? = some frame')
    (hsame : SameVariables frame frame') (hcells : SameCells execution action.execution) :
    AlwaysKeeps frame execution (.ok action) := by
  intro action' h
  cases h
  refine ⟨fun frame'' h => ?_, hcells⟩
  cases hframe.symm.trans h
  exact hsame

theorem alwaysKeeps_none {action : Action W} (hframe : action.frame? = none)
    (hcells : SameCells execution action.execution) :
    AlwaysKeeps frame execution (.ok action) := by
  intro action' h
  cases h
  exact ⟨fun frame'' h => (by rw [hframe] at h; cases h), hcells⟩

/-! ### Values, stacks and branches -/

section Pure

theorem alwaysKeeps_nextWith {rest : List Value} {result : Option Value} :
    AlwaysKeeps frame execution (Opcode.Value.nextWith frame execution rest result) := by
  cases result with
  | none => exact alwaysKeeps_error _
  | some value => exact alwaysKeeps_frame rfl (.stack frame _) (.refl _)

theorem alwaysKeeps_value [Value.Platform] (name : Op) (operands : List Operand)
    (answer : Answer) :
    AlwaysKeeps frame execution (Opcode.Value.execute name operands frame execution answer) := by
  unfold Opcode.Value.execute
  split
  · split
    · exact alwaysKeeps_nextWith
    · exact alwaysKeeps_error _
  · split
    · split
      · exact alwaysKeeps_nextWith
      · exact alwaysKeeps_error _
    · split
      all_goals first
        | exact alwaysKeeps_nextWith
        | exact alwaysKeeps_error _
        | exact alwaysKeeps_frame rfl (.refl frame) (.refl _)
        | exact alwaysKeeps_frame rfl (.stack frame _) (.refl _)
        | skip
      all_goals
        split
        · exact alwaysKeeps_frame rfl (.refl frame) (.refl _)
        · exact alwaysKeeps_frame rfl (.refl frame) (.refl _)

theorem alwaysKeeps_stack (name : Op) (operands : List Operand) :
    AlwaysKeeps frame execution (Opcode.Stack.execute name operands frame execution) := by
  unfold Opcode.Stack.execute
  split
  · exact alwaysKeeps_frame rfl (.stack frame _) (.refl _)
  · exact alwaysKeeps_error _

theorem alwaysKeeps_control (name : Op) (operands : List Operand) :
    AlwaysKeeps frame execution (Opcode.Control.execute name operands frame execution) := by
  unfold Opcode.Control.execute Opcode.Control.branchOn
  split
  all_goals first
    | exact alwaysKeeps_frame rfl ⟨⟨rfl, rfl, rfl, rfl, rfl⟩, rfl, rfl⟩ (.refl _)
    | exact alwaysKeeps_none rfl (.refl _)
    | exact alwaysKeeps_error _

end Pure

/-! ### Objects -/

section Objects

open Opcode.Object
open Opcode.Local (State.after)

theorem sameCells_after (execution : State W) (reply : Reply W) :
    SameCells execution (State.after execution reply) := ⟨rfl, rfl⟩

theorem alwaysKeeps_next (stack : List Value) (hsame : SameVariables frame frame') :
    AlwaysKeeps frame execution (next stack frame' execution reply) :=
  alwaysKeeps_frame rfl (hsame.trans (.stack frame' stack)) (sameCells_after _ _)

theorem alwaysKeeps_throw (reason : Value) (hsame : SameVariables frame frame') :
    AlwaysKeeps frame execution (throw_ reason frame' execution reply) :=
  alwaysKeeps_frame rfl hsame (sameCells_after _ _)

theorem alwaysKeeps_pushing (rest : List Value) :
    AlwaysKeeps frame execution (pushing rest frame execution reply) := by
  unfold pushing
  split
  · exact alwaysKeeps_next _ (.refl frame)
  · exact alwaysKeeps_throw _ (.refl frame)
  · exact alwaysKeeps_error _

theorem alwaysKeeps_done (rest : List Value) :
    AlwaysKeeps frame execution (done rest frame execution reply) := by
  unfold done
  split
  · exact alwaysKeeps_next _ (.refl frame)
  · exact alwaysKeeps_throw _ (.refl frame)
  · exact alwaysKeeps_error _

theorem alwaysKeeps_get (stack : List Value) :
    AlwaysKeeps frame execution (Opcode.Object.get stack frame execution reply) := by
  unfold Opcode.Object.get
  split
  · exact alwaysKeeps_frame rfl (.stack frame stack) (sameCells_after _ _)
  · exact alwaysKeeps_next _ (.refl frame)
  · exact alwaysKeeps_throw _ (.stack frame stack)
  · exact alwaysKeeps_error _

theorem alwaysKeeps_put (object value : Value) (stack : List Value) :
    AlwaysKeeps frame execution (put object value stack frame execution reply) := by
  unfold put
  split
  · exact alwaysKeeps_next _ (.refl frame)
  · exact alwaysKeeps_frame rfl (.stack frame stack) (sameCells_after _ _)
  · exact alwaysKeeps_throw _ (.stack frame stack)
  · exact alwaysKeeps_error _

theorem alwaysKeeps_private (name : Op) (operands : List Operand) :
    AlwaysKeeps frame execution (executePrivate name operands frame execution reply) := by
  unfold executePrivate
  split
  case h_7 =>
    split
    · exact alwaysKeeps_done _
    · exact alwaysKeeps_error _
  all_goals first
    | exact alwaysKeeps_pushing _
    | exact alwaysKeeps_done _
    | exact alwaysKeeps_error _

theorem alwaysKeeps_specialObject (type : ℤ) :
    AlwaysKeeps frame execution (specialObject type frame execution reply) := by
  unfold specialObject
  split
  · exact alwaysKeeps_next _ (.refl frame)
  · split
    · exact alwaysKeeps_pushing _
    · exact alwaysKeeps_next _ (.refl frame)

/-- The two instructions that create the constructor of a class. -/
def classOps : List Op := [.defineClass, .defineClassComputed]

variable {name : Op}

theorem alwaysKeeps_construction (hname : name ∉ classOps) (operands : List Operand) :
    AlwaysKeeps frame execution (executeConstruction name operands frame execution reply) := by
  unfold executeConstruction
  split
  · exact alwaysKeeps_pushing _
  · exact alwaysKeeps_specialObject _
  · exact alwaysKeeps_pushing _
  · exact alwaysKeeps_pushing _
  · exact absurd (by decide) hname
  · exact absurd (by decide) hname
  · exact alwaysKeeps_error _

theorem alwaysKeeps_definition [Value.Platform] (name : Op) (operands : List Operand) :
    AlwaysKeeps frame execution (executeDefinition name operands frame execution reply) := by
  unfold executeDefinition
  split
  case h_5 =>
    split
    · exact alwaysKeeps_next _ (.refl frame)
    · exact alwaysKeeps_throw _ (.refl frame)
    · exact alwaysKeeps_error _
  case h_6 =>
    split
    · exact alwaysKeeps_done _
    · exact alwaysKeeps_throw _ (.refl frame)
  all_goals first
    | exact alwaysKeeps_done _
    | exact alwaysKeeps_error _

theorem alwaysKeeps_property (name : Op) (operands : List Operand) :
    AlwaysKeeps frame execution (executeProperty name operands frame execution reply) := by
  unfold executeProperty
  split
  all_goals first
    | exact alwaysKeeps_get _
    | exact alwaysKeeps_put _ _ _
    | exact alwaysKeeps_pushing _
    | exact alwaysKeeps_error _

theorem alwaysKeeps_enumeration (name : Op) (operands : List Operand) :
    AlwaysKeeps frame execution (executeEnumeration name operands frame execution reply) := by
  unfold executeEnumeration
  split
  · split
    · exact alwaysKeeps_next _ (.refl frame)
    · exact alwaysKeeps_throw _ (.stack frame _)
    · exact alwaysKeeps_error _
  · exact alwaysKeeps_next _ (.refl frame)
  · split
    · exact alwaysKeeps_next _ (.refl frame)
    · exact alwaysKeeps_throw _ (.refl frame)
    · exact alwaysKeeps_error _
  · split
    · exact alwaysKeeps_next _ (.refl frame)
    · exact alwaysKeeps_throw _ (.refl frame)
  · exact alwaysKeeps_next _ (.refl frame)
  · exact alwaysKeeps_error _

theorem alwaysKeeps_object [Value.Platform] (hname : name ∉ classOps) (operands : List Operand) :
    AlwaysKeeps frame execution (Opcode.Object.execute name operands frame execution reply) := by
  unfold Opcode.Object.execute
  split
  · exact alwaysKeeps_private name operands
  · split
    · exact alwaysKeeps_construction hname operands
    · split
      · exact alwaysKeeps_definition name operands
      · split
        · exact alwaysKeeps_property name operands
        · exact alwaysKeeps_enumeration name operands

end Objects

/-! ### Calls -/

section Calls

open Opcode.Invocation

theorem alwaysKeeps_call (tail : Bool) (count : ℤ) :
    AlwaysKeeps frame execution (.ok (call tail count frame execution)) := by
  unfold call
  split
  · exact alwaysKeeps_frame rfl (.stack frame _) (.refl _)
  · exact alwaysKeeps_none rfl (.refl _)

theorem alwaysKeeps_callMethod (tail : Bool) (count : ℤ) :
    AlwaysKeeps frame execution (.ok (callMethod tail count frame execution)) := by
  unfold callMethod
  split
  · exact alwaysKeeps_frame rfl (.stack frame _) (.refl _)
  · exact alwaysKeeps_none rfl (.refl _)

theorem alwaysKeeps_callConstructor (count : ℤ) :
    AlwaysKeeps frame execution (callConstructor count frame execution reply) := by
  unfold callConstructor
  split
  · split
    · exact alwaysKeeps_frame rfl (.stack frame _) (sameCells_after _ _)
    · exact alwaysKeeps_frame rfl (.refl frame) (sameCells_after _ _)
    · exact alwaysKeeps_error _
  · exact alwaysKeeps_none rfl (.refl _)

theorem alwaysKeeps_apply (construct : ℤ) (arguments : Answer) (callable this : Value)
    (stack : List Value) : AlwaysKeeps frame execution
      (apply construct arguments callable this stack frame execution reply) := by
  unfold apply
  split
  · exact alwaysKeeps_frame rfl (.stack frame stack) (.refl _)
  · exact alwaysKeeps_frame rfl (.stack frame stack) (sameCells_after _ _)
  · exact alwaysKeeps_frame rfl (.refl frame) (.refl _)
  · exact alwaysKeeps_frame rfl (.refl frame) (.refl _)
  · exact alwaysKeeps_error _

theorem alwaysKeeps_invocation (name : Op) (operands : List Operand) (arguments : Answer) :
    AlwaysKeeps frame execution
      (Opcode.Invocation.execute name operands frame execution arguments reply) := by
  unfold Opcode.Invocation.execute
  split
  · exact alwaysKeeps_frame rfl (.refl frame) (.refl _)
  · exact alwaysKeeps_frame rfl (.refl frame) (.refl _)
  · exact alwaysKeeps_apply _ _ _ _ _
  · exact alwaysKeeps_call _ _
  · exact alwaysKeeps_call _ _
  · exact alwaysKeeps_callMethod _ _
  · exact alwaysKeeps_callMethod _ _
  · exact alwaysKeeps_callConstructor _
  · exact alwaysKeeps_frame rfl (.refl frame) (sameCells_after _ _)
  · exact alwaysKeeps_frame rfl (.refl frame) (.refl _)
  · exact alwaysKeeps_error _

end Calls

/-! ### Names and globals -/

section Locals

open Opcode.Local

def accessorOps : List Op :=
  compactOperations ++ getReferenceOps ++ putReferenceOps ++ [.getLocCheck, .setVarRef]

/-- The instructions that create closures. -/
def captureOps : List Op := [.fclosure, .fclosure8] ++ classOps

theorem alwaysKeeps_push (value : Value) :
    AlwaysKeeps frame execution (.ok (push frame execution value)) :=
  alwaysKeeps_frame rfl (.stack frame _) (.refl _)

theorem alwaysKeeps_local [Value.Platform] [AtomTable] {name : Op} (haccessor : name ∉ accessorOps)
    (hcapture : name ∉ captureOps) (operands : List Operand) :
    AlwaysKeeps frame execution (Opcode.Local.execute name operands frame execution reply) := by
  simp only [accessorOps, List.mem_append, not_or] at haccessor
  obtain ⟨⟨⟨hcompact, hget⟩, hput⟩, hother⟩ := haccessor
  unfold Opcode.Local.execute
  rw [if_neg hcompact, if_neg hget, if_neg hput]
  split
  · split
    · refine alwaysKeeps_frame rfl (.stack frame _) ?_
      unfold writeGlobal
      split <;> exact ⟨rfl, rfl⟩
    · exact alwaysKeeps_error _
    · exact alwaysKeeps_error _
  · split
    case h_2 =>
      exact alwaysKeeps_frame rfl (.stack frame _) (sameCells_after _ _)
    case h_3 => exact absurd (by decide) hother
    case h_5 => exact absurd (by decide) hother
    case h_12 => exact absurd (by decide) hcapture
    case h_13 => exact absurd (by decide) hcapture
    all_goals first
      | exact alwaysKeeps_push _
      | exact alwaysKeeps_frame rfl (.refl frame) (.refl _)
      | exact alwaysKeeps_error _

end Locals

/-- Apart from the accessors and the instructions that create closures, no instruction touches a
variable. -/
theorem alwaysKeeps_execute [Value.Platform] [AtomTable] {name : Op}
    (haccessor : name ∉ accessorOps) (hcapture : name ∉ captureOps) (operands : List Operand)
    (arguments : Answer) :
    AlwaysKeeps frame execution
      (Interpreter.execute name operands frame execution arguments reply) := by
  have hclass : name ∉ classOps := fun h => hcapture (List.mem_append_right _ h)
  unfold Interpreter.execute
  split
  · exact alwaysKeeps_control name operands
  · split
    · exact alwaysKeeps_invocation name operands arguments
    · split
      · exact alwaysKeeps_local haccessor hcapture operands
      · split
        · exact alwaysKeeps_object hclass operands
        · split
          · exact alwaysKeeps_stack name operands
          · split
            · exact alwaysKeeps_value name operands reply.answer
            · split
              · exact alwaysKeeps_frame rfl (.refl frame) (.refl _)
              · exact alwaysKeeps_none rfl (.refl _)

end Families

/-! ### Variables -/

/-- The two tuples that hold the variables of an activation. -/
inductive Bank where
  | args
  | locals
deriving DecidableEq

def Frame.bank (frame : Frame) : Bank → List Value
  | .args => frame.args
  | .locals => frame.locals

def Frame.slot? (frame : Frame) (bank : Bank) (index : ℕ) : Option Value :=
  (frame.bank bank)[index]?

def Frame.withBank (frame : Frame) (bank : Bank) (tuple : List Value) : Frame :=
  match bank with
  | .args => { frame with args := tuple }
  | .locals => { frame with locals := tuple }

def Frame.putSlot (frame : Frame) (bank : Bank) (index : ℕ) (value : Value) : Frame :=
  frame.withBank bank ((frame.bank bank).set index value)

theorem SameVariables.slot? {frame frame' : Frame} (h : SameVariables frame frame') (bank : Bank)
    (index : ℕ) : frame'.slot? bank index = frame.slot? bank index := by
  cases bank with
  | args => exact congrArg (·[index]?) h.args
  | locals => exact congrArg (·[index]?) h.locals

/-- What an accessor names: a variable of its frame, or a closure reference. -/
inductive Place where
  | slot (bank : Bank) (index : ℕ)
  | ref (index : ℕ)

/-- Where the variable is: in the frame, or behind a reference. -/
inductive Target where
  | slot (bank : Bank) (index : ℕ)
  | ref (reference : SlotRef)
deriving DecidableEq

def Frame.target? (frame : Frame) : Place → Option Target
  | .slot bank index =>
      match frame.slot? bank index with
      | some (.slot reference) => some (.ref reference)
      | some _ => some (.slot bank index)
      | none => none
  | .ref index => (frame.closureRefs[index]?).map .ref

/-- The accessors of an argument, of a local, and of a closure reference. -/
def argOps : List Op := [.getArg, .putArg, .setArg]

def locOps : List Op :=
  [.getLoc, .getLocCheck, .putLoc, .setLoc, .setLocUninitialized, .putLocCheckInit, .putLocCheck,
   .incLoc, .decLoc, .addLoc]

def refOps : List Op := Opcode.Local.getReferenceOps ++ Opcode.Local.putReferenceOps ++ [.setVarRef]

/-- What an accessor with one operand names. -/
def placeOf (name : Op) (index : ℤ) : Option Place :=
  if index < 0 then none
  else if name ∈ argOps then some (.slot .args index.toNat)
  else if name ∈ locOps then some (.slot .locals index.toNat)
  else if name ∈ refOps then some (.ref index.toNat)
  else none

def writingOps : List Op :=
  [.putArg, .setArg, .putLoc, .setLoc, .setLocUninitialized, .putLocCheckInit, .putLocCheck,
   .incLoc, .decLoc, .addLoc, .setVarRef] ++ Opcode.Local.putReferenceOps

def Writes (frame : Frame) (execution : State W) (target : Target) (value : Value) (frame' : Frame)
    (execution' : State W) : Prop :=
  match target with
  | .slot bank index =>
      SameVariables (frame.putSlot bank index value) frame' ∧ SameTables execution execution'
  | .ref reference =>
      SameVariables frame frame' ∧
        SameTables (Opcode.Local.writeReference reference value execution) execution'

def readTarget (frame : Frame) (execution : State W) : Target → Option Value
  | .slot bank index => frame.slot? bank index
  | .ref (.cell id) => execution.cells.get? id
  | .ref (.global name) => some ((execution.globals.get? name).getD .undefined)

/-- The value that an accessor writes, where `current` is the value that it finds. -/
def written [Value.Platform] (name : Op) (stack : List Value) (current : Value) : Option Value :=
  match name with
  | .setLocUninitialized => some .uninitialized
  | .incLoc => Value.unary .inc current
  | .decLoc => Value.unary .dec current
  | .addLoc => stack.head?.bind (Value.binary .add current)
  | _ => stack.head?

def Assigns [Value.Platform] (name : Op) (operands : List Operand) (frame : Frame)
    (execution : State W) (frame' : Frame) (execution' : State W) : Prop :=
  ∃ index place target value, operands = [.int index] ∧ name ∈ writingOps ∧
    placeOf name index = some place ∧ frame.target? place = some target ∧
    written name frame.stack ((readTarget frame execution target).getD .undefined) = some value ∧
    Writes frame execution target value frame' execution'

section Accessors

variable {frame : Frame} {execution : State W} {reply : Reply W}

open Opcode.Local

theorem slot?_of_elem {bank : Bank} {index : ℤ} {value : Value}
    (h : elem (frame.bank bank) index = .ok value) :
    0 ≤ index ∧ frame.slot? bank index.toNat = some value := by
  unfold elem at h
  split at h
  · rename_i hindex
    refine ⟨hindex, ?_⟩
    unfold Frame.slot?
    split at h
    · rename_i hget
      cases h
      exact hget
    · cases h
  · cases h

variable {bank : Bank} {index : ℕ} {reference : SlotRef}

theorem target?_of_slot (h : frame.slot? bank index = some (.slot reference)) :
    frame.target? (.slot bank index) = some (.ref reference) := by
  unfold Frame.target?
  simp only [h]

variable {value : Value}

theorem target?_of_plain (h : frame.slot? bank index = some value)
    (hplain : ∀ reference, value ≠ .slot reference) :
    frame.target? (.slot bank index) = some (.slot bank index) := by
  unfold Frame.target?
  simp only [h]

theorem readReference_ok (h : readReference reference execution = .ok value) :
    readTarget frame execution (.ref reference) = some value := by
  cases reference with
  | cell id =>
    simp only [readReference] at h
    split at h
    · rename_i hget
      cases h
      exact hget
    · cases h
  | global name =>
    cases h
    rfl

theorem readSlot_ok {slot value : Value} (hslot : frame.slot? bank index = some slot)
    (h : readSlot slot execution = .ok value) :
    ∃ target, frame.target? (.slot bank index) = some target ∧
      readTarget frame execution target = some value := by
  unfold readSlot at h
  split at h
  · rename_i reference
    exact ⟨_, target?_of_slot hslot, readReference_ok h⟩
  · rename_i hplain
    cases h
    exact ⟨_, target?_of_plain hslot fun reference heq => hplain reference heq, hslot⟩

theorem withBank_bank (frame : Frame) (bank : Bank) : frame.withBank bank (frame.bank bank) = frame := by
  cases bank <;> rfl

theorem writeTupleSlot_ok {bank : Bank} {index : ℤ} {value : Value} {tuple : List Value}
    {execution' : State W}
    (h : writeTupleSlot (frame.bank bank) index value execution = .ok (tuple, execution')) :
    0 ≤ index ∧ ∃ target, frame.target? (.slot bank index.toNat) = some target ∧
      ∀ frame', SameVariables (frame.withBank bank tuple) frame' →
        Writes frame execution target value frame' execution' := by
  obtain ⟨slot, helem, h⟩ := bind_eq_ok h
  obtain ⟨hindex, hslot⟩ := slot?_of_elem helem
  refine ⟨hindex, ?_⟩
  split at h
  · rename_i reference
    cases h
    refine ⟨_, target?_of_slot hslot, fun frame' hsame => ?_⟩
    rw [withBank_bank] at hsame
    exact ⟨hsame, .refl _⟩
  · rename_i hplain
    cases h
    exact ⟨_, target?_of_plain hslot fun reference heq => hplain reference heq,
      fun frame' hsame => ⟨hsame, .refl _⟩⟩

theorem placeOf_nonneg {name : Op} {index : ℤ} (hindex : 0 ≤ index) :
    placeOf name index = if name ∈ argOps then some (.slot .args index.toNat)
      else if name ∈ locOps then some (.slot .locals index.toNat)
      else if name ∈ refOps then some (.ref index.toNat) else none :=
  if_neg (by omega)

section Assignments

variable [Value.Platform] {name : Op} {index : ℤ} {value : Value} {stack : List Value}
  {frame' : Frame} {result : Opcode.Local.Compact W}

theorem assigns_putArg (hname : name ∈ argOps) (hwriting : name ∈ writingOps)
    (hvalue : ∀ current, written name frame.stack current = some value)
    (h : putArg index value frame.args frame.locals stack execution = .ok result)
    (hsame : SameVariables { frame with args := result.args, locals := result.locals } frame') :
    Assigns name [.int index] frame execution frame' result.execution := by
  obtain ⟨⟨args, execution'⟩, hwrite, h⟩ := bind_eq_ok h
  cases h
  obtain ⟨hindex, target, htarget, hwrites⟩ := @writeTupleSlot_ok _ frame execution .args _ _ _ _ hwrite
  refine ⟨index, _, target, value, rfl, hwriting, ?_, htarget, hvalue _, ?_⟩
  · rw [placeOf_nonneg hindex, if_pos hname]
  · exact hwrites frame' hsame

theorem assigns_putLoc (harg : name ∉ argOps) (hname : name ∈ locOps) (hwriting : name ∈ writingOps)
    (hvalue : ∀ target, frame.target? (.slot .locals index.toNat) = some target →
      written name frame.stack ((readTarget frame execution target).getD .undefined) = some value)
    (h : putLoc index value frame.args frame.locals stack execution = .ok result)
    (hsame : SameVariables { frame with args := result.args, locals := result.locals } frame') :
    Assigns name [.int index] frame execution frame' result.execution := by
  obtain ⟨⟨locals, execution'⟩, hwrite, h⟩ := bind_eq_ok h
  cases h
  obtain ⟨hindex, target, htarget, hwrites⟩ :=
    @writeTupleSlot_ok _ frame execution .locals _ _ _ _ hwrite
  refine ⟨index, _, target, value, rfl, hwriting, ?_, htarget, hvalue target htarget, ?_⟩
  · rw [placeOf_nonneg hindex, if_neg harg, if_pos hname]
  · exact hwrites frame' hsame

/-- `inc_loc`, `dec_loc` and `add_loc` write what they compute from the value that they find. -/
theorem assigns_update (harg : name ∉ argOps) (hname : name ∈ locOps) (hwriting : name ∈ writingOps)
    {slot current : Value} (hslot : elem frame.locals index = .ok slot)
    (hcurrent : readSlot slot execution = .ok current)
    (hvalue : written name frame.stack current = some value)
    (h : putLoc index value frame.args frame.locals stack execution = .ok result)
    (hsame : SameVariables { frame with args := result.args, locals := result.locals } frame') :
    Assigns name [.int index] frame execution frame' result.execution := by
  refine assigns_putLoc harg hname hwriting (fun target htarget => ?_) h hsame
  obtain ⟨-, hslot⟩ := @slot?_of_elem frame .locals _ _ hslot
  obtain ⟨target', htarget', hread⟩ := readSlot_ok hslot hcurrent
  cases htarget.symm.trans htarget'
  rw [hread]
  exact hvalue

omit [Value.Platform] in
theorem computed_ok {result : Option Value} (h : computed result = .ok value) :
    result = some value := by
  cases result with
  | none => cases h
  | some v =>
    cases h
    rfl

theorem assigns_stepLoc {operation : Op} (harg : name ∉ argOps) (hname : name ∈ locOps)
    (hwriting : name ∈ writingOps)
    (hvalue : ∀ current, written name frame.stack current = Value.unary operation current)
    (h : stepLoc operation index frame.args frame.locals stack execution = .ok result)
    (hsame : SameVariables { frame with args := result.args, locals := result.locals } frame') :
    Assigns name [.int index] frame execution frame' result.execution := by
  obtain ⟨slot, hslot, h⟩ := bind_eq_ok h
  obtain ⟨current, hcurrent, h⟩ := bind_eq_ok h
  obtain ⟨value, hcomputed, h⟩ := bind_eq_ok h
  exact assigns_update harg hname hwriting hslot hcurrent
    ((hvalue current).trans (computed_ok hcomputed)) h hsame

variable {operands : List Operand}

theorem compact_effect
    (h : executeCompact name operands frame.args frame.locals frame.stack execution = .ok result)
    (hsame : SameVariables { frame with args := result.args, locals := result.locals } frame') :
    (SameVariables frame frame' ∧ SameTables execution result.execution ∧ name ∉ writingOps) ∨
      Assigns name operands frame execution frame' result.execution := by
  unfold executeCompact at h
  split at h
  · obtain ⟨slot, -, h⟩ := bind_eq_ok h
    obtain ⟨current, -, h⟩ := bind_eq_ok h
    cases h
    exact .inl ⟨hsame, .refl _, by decide⟩
  · rename_i hstack
    exact .inr (assigns_putArg (by decide) (by decide) (fun _ => by rw [hstack]; rfl) h hsame)
  · rename_i hstack
    exact .inr (assigns_putArg (by decide) (by decide) (fun _ => by rw [hstack]; rfl) h hsame)
  · obtain ⟨slot, -, h⟩ := bind_eq_ok h
    obtain ⟨current, -, h⟩ := bind_eq_ok h
    cases h
    exact .inl ⟨hsame, .refl _, by decide⟩
  · obtain ⟨slot, -, h⟩ := bind_eq_ok h
    obtain ⟨first, -, h⟩ := bind_eq_ok h
    obtain ⟨slot', -, h⟩ := bind_eq_ok h
    obtain ⟨second, -, h⟩ := bind_eq_ok h
    cases h
    exact .inl ⟨hsame, .refl _, by decide⟩
  · exact .inr (assigns_stepLoc (by decide) (by decide) (by decide) (fun _ => rfl) h hsame)
  · exact .inr (assigns_stepLoc (by decide) (by decide) (by decide) (fun _ => rfl) h hsame)
  · rename_i hstack
    obtain ⟨slot, hslot, h⟩ := bind_eq_ok h
    obtain ⟨current, hcurrent, h⟩ := bind_eq_ok h
    obtain ⟨sum, hsum, h⟩ := bind_eq_ok h
    refine .inr (assigns_update (by decide) (by decide) (by decide) hslot hcurrent ?_ h hsame)
    rw [hstack]
    exact computed_ok hsum
  · rename_i hstack
    exact .inr (assigns_putLoc (by decide) (by decide) (by decide)
      (fun _ _ => by rw [hstack]; rfl) h hsame)
  · rename_i hstack
    exact .inr (assigns_putLoc (by decide) (by decide) (by decide)
      (fun _ _ => by rw [hstack]; rfl) h hsame)
  · exact .inr (assigns_putLoc (by decide) (by decide) (by decide) (fun _ _ => rfl) h hsame)
  · rename_i hstack
    exact .inr (assigns_putLoc (by decide) (by decide) (by decide)
      (fun _ _ => by rw [hstack]; rfl) h hsame)
  · rename_i hstack
    exact .inr (assigns_putLoc (by decide) (by decide) (by decide)
      (fun _ _ => by rw [hstack]; rfl) h hsame)
  · cases h

variable {reference : SlotRef}

omit [Value.Platform] in
theorem closureRef_ok (h : closureRef frame index = .ok reference) :
    0 ≤ index ∧ frame.target? (.ref index.toNat) = some (.ref reference) := by
  unfold closureRef at h
  split at h
  · rename_i hindex
    refine ⟨hindex, ?_⟩
    split at h
    · rename_i hget
      cases h
      show (frame.closureRefs[index.toNat]?).map Target.ref = _
      rw [hget]
      rfl
    · cases h
  · cases h

theorem assigns_reference (harg : name ∉ argOps) (hloc : name ∉ locOps) (hname : name ∈ refOps)
    (hwriting : name ∈ writingOps)
    (hvalue : ∀ current, written name frame.stack current = some value)
    (h : closureRef frame index = .ok reference) (hsame : SameVariables frame frame') :
    Assigns name [.int index] frame execution frame' (writeReference reference value execution) := by
  obtain ⟨hindex, htarget⟩ := closureRef_ok h
  refine ⟨index, _, _, value, rfl, hwriting, ?_, htarget, hvalue _, hsame, .refl _⟩
  rw [placeOf_nonneg hindex, if_neg harg, if_neg hloc, if_pos hname]

omit [Value.Platform] in
theorem keeps_checked (value : Value) : Keeps frame execution (checked value frame execution) := by
  unfold checked
  split
  · exact @alwaysKeeps_frame _ frame _ execution (.throw_ _ frame execution) rfl (.refl frame)
      (.refl _) _ rfl
  · exact alwaysKeeps_push value _ rfl

omit [Value.Platform] in
theorem putReference_facts : ∀ name ∈ putReferenceOps,
    name ∉ compactOperations ∧ name ∉ getReferenceOps ∧ name ∉ argOps ∧ name ∉ locOps ∧
      name ∈ refOps ∧ name ∈ writingOps := by decide

theorem written_putReference (hname : name ∈ putReferenceOps) (stack : List Value)
    (current : Value) : written name stack current = stack.head? := by
  fin_cases hname <;> rfl

omit [Value.Platform] in
theorem getReference_facts : ∀ name ∈ getReferenceOps, name ∉ writingOps := by decide

/-- **An accessor** leaves the variables as they are, or assigns to the place that it names. -/
theorem accessor_effect [AtomTable] (hname : name ∈ accessorOps) {operands : List Operand}
    {action : Action W}
    (h : Opcode.Local.execute name operands frame execution reply = .ok action) :
    Keeps frame execution action ∧ name ∉ writingOps ∨ ∃ frame' execution', action = .next frame' execution' ∧
      Assigns name operands frame execution frame' execution' := by
  unfold Opcode.Local.execute at h
  split at h
  · obtain ⟨result, hcompact, h⟩ := bind_eq_ok h
    cases h
    rcases compact_effect hcompact (.stack _ result.stack) with
      ⟨hframe, hexecution, hreads⟩ | hassigns
    · exact .inl ⟨alwaysKeeps_frame rfl hframe hexecution.toSameCells _ rfl, hreads⟩
    · exact .inr ⟨_, _, rfl, hassigns⟩
  · rename_i hcompact
    split at h
    · rename_i hget
      split at h
      · obtain ⟨reference, -, h⟩ := bind_eq_ok h
        obtain ⟨value, -, h⟩ := bind_eq_ok h
        cases h
        refine .inl ⟨?_, getReference_facts name hget⟩
        split
        · exact keeps_checked value
        · exact alwaysKeeps_push value _ rfl
      · cases h
    · rename_i hget
      split at h
      · rename_i hput
        obtain ⟨-, -, harg, hloc, href, hwriting⟩ := putReference_facts name hput
        split at h
        · rename_i hstack
          obtain ⟨reference, hreference, h⟩ := bind_eq_ok h
          cases h
          refine .inr ⟨_, _, rfl, assigns_reference harg hloc href hwriting (fun current => ?_)
            hreference (.stack frame _)⟩
          rw [written_putReference hput, hstack]
          rfl
        · cases h
        · cases h
      · rename_i hput
        have hother : name ∈ [.getLocCheck, .setVarRef] := by
          simp only [accessorOps, List.mem_append] at hname
          tauto
        rw [if_neg (show name ∉ putGlobalOps by fin_cases hother <;> decide)] at h
        split at h
        case h_3 =>
          obtain ⟨slot, -, h⟩ := bind_eq_ok h
          obtain ⟨value, -, h⟩ := bind_eq_ok h
          cases h
          exact .inl ⟨keeps_checked value, by decide⟩
        case h_5 hstack =>
          obtain ⟨reference, hreference, h⟩ := bind_eq_ok h
          cases h
          refine .inr ⟨_, _, rfl, assigns_reference (by decide) (by decide) (by decide) (by decide)
            (fun _ => ?_) hreference (.refl frame)⟩
          rw [hstack]
          rfl
        all_goals first
          | exact absurd hother (by decide)
          | cases h

omit [Value.Platform] in
theorem execute_accessor_facts : ∀ name ∈ accessorOps ++ [.fclosure, .fclosure8],
    name ∉ Opcode.Control.opcodes ∧ name ∉ Opcode.Invocation.opcodes ∧
      name ∈ Opcode.Local.opcodes := by decide

theorem execute_local [AtomTable] (hname : name ∈ accessorOps ++ [.fclosure, .fclosure8])
    (operands : List Operand) (arguments : Answer) :
    Interpreter.execute name operands frame execution arguments reply =
      Opcode.Local.execute name operands frame execution reply := by
  obtain ⟨hcontrol, hinvocation, hlocal⟩ := execute_accessor_facts name hname
  unfold Interpreter.execute
  rw [if_neg hcontrol, if_neg hinvocation, if_pos hlocal]

end Assignments

end Accessors

/-! ### Captures -/

/-- What a capture does: a slot moves to a new cell or stays; the other cells are unchanged. -/
structure Promotes (frame : Frame) (execution : State W) (frame' : Frame) (execution' : State W) :
    Prop where
  entry : SameEntry frame frame'
  stack : frame'.stack = frame.stack
  globals : execution'.globals = execution.globals
  length : ∀ bank, (frame'.bank bank).length = (frame.bank bank).length
  next_le : execution.nextCellId ≤ execution'.nextCellId
  slot : ∀ bank index value, frame.slot? bank index = some value →
    frame'.slot? bank index = some value ∨ (∀ id, value ≠ .slot (.cell id)) ∧
      ∃ id, frame'.slot? bank index = some (.slot (.cell id)) ∧ execution.nextCellId ≤ id ∧
        id < execution'.nextCellId ∧ execution'.cells.get? id = some value
  old : ∀ id < execution.nextCellId, execution'.cells.get? id = execution.cells.get? id
  new : ∀ id value, execution'.cells.get? id = some value → execution.cells.get? id = some value ∨
    id < execution'.nextCellId ∧ (∀ id, value ≠ .slot (.cell id)) ∧
      ∃ bank index, frame.slot? bank index = some value
  distinct : ∀ bank index bank' index' value value' id, frame.slot? bank index = some value →
    (∀ id, value ≠ .slot (.cell id)) → frame.slot? bank' index' = some value' →
    (∀ id, value' ≠ .slot (.cell id)) → frame'.slot? bank index = some (.slot (.cell id)) →
    frame'.slot? bank' index' = some (.slot (.cell id)) → bank = bank' ∧ index = index'

section Captures

variable {frame frame' frame'' : Frame} {execution execution' execution'' : State W}

open Opcode.Local

theorem Promotes.refl (frame : Frame) (execution : State W) :
    Promotes frame execution frame execution :=
  ⟨.refl frame, rfl, rfl, fun _ => rfl, le_rfl, fun _ _ _ h => .inl h, fun _ _ => rfl,
    fun _ _ h => .inl h, fun _ _ _ _ _ _ id hvalue hplain _ _ hslot _ =>
      absurd (Option.some.inj (hvalue.symm.trans hslot)) (hplain id)⟩

variable {bank : Bank}

theorem Promotes.keeps_cell (h : Promotes frame execution frame' execution') {index id : ℕ}
    (hslot : frame.slot? bank index = some (.slot (.cell id))) :
    frame'.slot? bank index = some (.slot (.cell id)) := by
  rcases h.slot bank index _ hslot with hsame | ⟨hnot, -⟩
  · exact hsame
  · exact absurd rfl (hnot id)

variable {value : Value}

theorem Promotes.le_of_new (h : Promotes frame execution frame' execution') {index id : ℕ}
    (hvalue : frame.slot? bank index = some value) (hplain : ∀ id, value ≠ .slot (.cell id))
    (hslot : frame'.slot? bank index = some (.slot (.cell id))) :
    execution.nextCellId ≤ id ∧ id < execution'.nextCellId := by
  rcases h.slot bank index value hvalue with hsame | ⟨-, id', hid, hle, hlt, -⟩
  · exact absurd (Option.some.inj (hsame.symm.trans hslot)) (hplain id)
  · cases Option.some.inj (hid.symm.trans hslot)
    exact ⟨hle, hlt⟩

variable {index : ℕ}

theorem Promotes.slot_before (h : Promotes frame execution frame' execution')
    (hslot : frame'.slot? bank index = some value) :
    ∃ value₀, frame.slot? bank index = some value₀ := by
  have hlt : index < (frame'.bank bank).length := (List.getElem?_eq_some_iff.1 hslot).1
  rw [h.length bank] at hlt
  exact ⟨_, List.getElem?_eq_getElem hlt⟩

theorem Promotes.trans (h : Promotes frame execution frame' execution')
    (h' : Promotes frame' execution' frame'' execution'') :
    Promotes frame execution frame'' execution'' where
  entry := h.entry.trans h'.entry
  stack := h'.stack.trans h.stack
  globals := h'.globals.trans h.globals
  length bank := (h'.length bank).trans (h.length bank)
  next_le := h.next_le.trans h'.next_le
  slot bank index value hvalue := by
    rcases h.slot bank index value hvalue with hsame | ⟨hplain, id, hid, hle, hlt, hcell⟩
    · rcases h'.slot bank index value hsame with hsame | ⟨hplain, id, hid, hle, hlt, hcell⟩
      · exact .inl hsame
      · exact .inr ⟨hplain, id, hid, h.next_le.trans hle, hlt, hcell⟩
    · rcases h'.slot bank index _ hid with hsame | ⟨hnot, -⟩
      · exact .inr ⟨hplain, id, hsame, hle, hlt.trans_le h'.next_le, (h'.old id hlt).trans hcell⟩
      · exact absurd rfl (hnot id)
  old id hid := (h'.old id (hid.trans_le h.next_le)).trans (h.old id hid)
  new id value hid := by
    rcases h'.new id value hid with hcell | ⟨hlt, hplain, bank, index, hslot⟩
    · rcases h.new id value hcell with hcell | ⟨hlt, hplain, hslot⟩
      · exact .inl hcell
      · exact .inr ⟨hlt.trans_le h'.next_le, hplain, hslot⟩
    · obtain ⟨value₀, hslot₀⟩ := h.slot_before hslot
      rcases h.slot bank index value₀ hslot₀ with hsame | ⟨-, id', hcell, -⟩
      · cases hsame.symm.trans hslot
        exact .inr ⟨hlt, hplain, bank, index, hslot₀⟩
      · exact absurd (Option.some.inj (hslot.symm.trans hcell)) (hplain id')
  distinct bank index bank' index' value value' id hvalue hplain hvalue' hplain' hslot hslot' := by
    rcases h.slot bank index value hvalue with hsame | ⟨-, id₁, hid₁, -, hlt, -⟩
    · rcases h.slot bank' index' value' hvalue' with hsame' | ⟨-, id₂, hid₂, -, hlt, -⟩
      · exact h'.distinct _ _ _ _ _ _ id hsame hplain hsame' hplain' hslot hslot'
      · have hle := (h'.le_of_new hsame hplain hslot).1
        cases (h'.keeps_cell hid₂).symm.trans hslot'
        omega
    · have hfirst := (h'.keeps_cell hid₁).symm.trans hslot
      rcases h.slot bank' index' value' hvalue' with hsame' | ⟨-, id₂, hid₂, -, hlt, -⟩
      · have hle := (h'.le_of_new hsame' hplain' hslot').1
        cases hfirst
        omega
      · have hsecond := (h'.keeps_cell hid₂).symm.trans hslot'
        cases hfirst
        cases hsecond
        exact h.distinct _ _ _ _ _ _ _ hvalue hplain hvalue' hplain' hid₁ hid₂

theorem slot?_putSlot (frame : Frame) (bank bank' : Bank) (index index' : ℕ) (value : Value) :
    (frame.putSlot bank index value).slot? bank' index' =
      if bank' = bank ∧ index' = index ∧ (frame.slot? bank index).isSome then some value
      else frame.slot? bank' index' := by
  have hset : ∀ tuple : List Value, (tuple.set index value)[index']? =
      if index' = index ∧ (tuple[index]?).isSome then some value else tuple[index']? := by
    intro tuple
    rw [List.getElem?_set]
    by_cases heq : index = index'
    · subst heq
      by_cases hlt : index < tuple.length
      · simp [hlt]
      · simp [hlt]
    · simp [heq, Ne.symm heq]
  cases bank <;> cases bank' <;> simp [Frame.putSlot, Frame.withBank, Frame.slot?, Frame.bank, hset]

theorem bank_putSlot_length (frame : Frame) (bank bank' : Bank) (index : ℕ) (value : Value) :
    ((frame.putSlot bank index value).bank bank').length = (frame.bank bank').length := by
  cases bank <;> cases bank' <;> simp [Frame.putSlot, Frame.withBank, Frame.bank]

theorem entry_withBank (frame : Frame) (bank : Bank) (tuple : List Value) :
    SameEntry frame (frame.withBank bank tuple) := by
  cases bank <;> exact ⟨rfl, rfl, rfl, rfl, rfl⟩

theorem stack_withBank (frame : Frame) (bank : Bank) (tuple : List Value) :
    (frame.withBank bank tuple).stack = frame.stack := by
  cases bank <;> rfl

theorem promotes_promoteTupleSlot {bank : Bank} {index : ℤ} {reference : SlotRef}
    {tuple : List Value}
    (h : promoteTupleSlot (frame.bank bank) index execution = .ok (reference, tuple, execution')) :
    Promotes frame execution (frame.withBank bank tuple) execution' ∧ ∃ id, reference = .cell id ∧
      (frame.withBank bank tuple).slot? bank index.toNat = some (.slot (.cell id)) := by
  obtain ⟨slot, helem, h⟩ := bind_eq_ok h
  obtain ⟨hindex, hslot⟩ := slot?_of_elem helem
  split at h
  · rename_i id
    cases h
    rw [withBank_bank]
    exact ⟨.refl _ _, id, rfl, hslot⟩
  · rename_i hplain
    cases h
    show Promotes frame execution
      (frame.putSlot bank index.toNat (.slot (.cell execution.nextCellId))) _ ∧ _
    have hnew : (frame.putSlot bank index.toNat (.slot (.cell execution.nextCellId))).slot? bank
        index.toNat = some (.slot (.cell execution.nextCellId)) := by
      rw [slot?_putSlot, if_pos ⟨rfl, rfl, by rw [hslot]; rfl⟩]
    -- Only this slot gets a cell.
    have honly : ∀ bank' index' id value, frame.slot? bank' index' = some value →
        (∀ id, value ≠ .slot (.cell id)) →
        (frame.putSlot bank index.toNat (.slot (.cell execution.nextCellId))).slot? bank' index' =
          some (.slot (.cell id)) → bank' = bank ∧ index' = index.toNat := by
      intro bank' index' id value hvalue hplain' hcell
      by_contra hne
      rw [slot?_putSlot, if_neg (fun h => hne ⟨h.1, h.2.1⟩), hvalue] at hcell
      exact hplain' id (Option.some.inj hcell)
    refine ⟨⟨entry_withBank _ _ _, stack_withBank _ _ _, rfl,
      fun bank' => bank_putSlot_length frame bank bank' _ _, Nat.le_succ _, ?_, ?_, ?_, ?_⟩, _, rfl,
      hnew⟩
    · intro bank' index' value hvalue
      by_cases hsame : bank' = bank ∧ index' = index.toNat
      · obtain ⟨rfl, rfl⟩ := hsame
        cases hslot.symm.trans hvalue
        refine .inr ⟨fun id heq => hplain id heq, _, hnew, le_rfl, Nat.lt_succ_self _, ?_⟩
        exact Assoc.get?_put _ _ _
      · refine .inl ?_
        rw [slot?_putSlot, if_neg (fun h => hsame ⟨h.1, h.2.1⟩)]
        exact hvalue
    · intro id hid
      exact Assoc.get?_put_ne _ _ (by omega)
    · intro id value hid
      rcases Assoc.get?_put_cases hid with ⟨rfl, rfl⟩ | ⟨hne, hold⟩
      · exact .inr ⟨Nat.lt_succ_self _, fun id heq => hplain id heq, bank, _, hslot⟩
      · exact .inl hold
    · intro bank₁ index₁ bank₂ index₂ value value' id hvalue hplain₁ hvalue' hplain₂ hslot₁ hslot₂
      obtain ⟨rfl, rfl⟩ := honly _ _ _ _ hvalue hplain₁ hslot₁
      obtain ⟨rfl, rfl⟩ := honly _ _ _ _ hvalue' hplain₂ hslot₂
      exact ⟨rfl, rfl⟩

def RefersTo (frame : Frame) (closureVar : Closure) (reference : SlotRef) : Prop :=
  match closureVar.closureType with
  | 0 => ∃ id, reference = .cell id ∧
      frame.slot? .locals (frame.function.argCount + closureVar.varIdx) = some (.slot (.cell id))
  | 1 => ∃ id, reference = .cell id ∧
      frame.slot? .args closureVar.varIdx = some (.slot (.cell id))
  | 2 => frame.closureRefs[closureVar.varIdx]? = some reference
  | _ => reference = .global closureVar.name

variable {closureVar : Closure} {reference : SlotRef}

theorem RefersTo.of_promotes (hrefers : RefersTo frame closureVar reference)
    (h : Promotes frame execution frame' execution') : RefersTo frame' closureVar reference := by
  unfold RefersTo at hrefers ⊢
  generalize closureVar.closureType = type at hrefers ⊢
  match type, hrefers with
  | 0, hrefers =>
    obtain ⟨id, hid, hslot⟩ := hrefers
    rw [h.entry.function]
    exact ⟨id, hid, h.keeps_cell hslot⟩
  | 1, hrefers =>
    obtain ⟨id, hid, hslot⟩ := hrefers
    exact ⟨id, hid, h.keeps_cell hslot⟩
  | 2, hrefers =>
    rw [h.entry.closureRefs]
    exact hrefers
  | _ + 3, hrefers => exact hrefers

theorem captureReference_ok
    (h : captureReference closureVar frame execution = .ok (reference, frame', execution')) :
    Promotes frame execution frame' execution' ∧ RefersTo frame' closureVar reference := by
  unfold captureReference at h
  split at h
  · rename_i htype
    obtain ⟨⟨reference', locals, execution₁⟩, hpromote, h⟩ := bind_eq_ok h
    cases h
    obtain ⟨hpromotes, id, hid, hslot⟩ :=
      @promotes_promoteTupleSlot _ frame execution _ .locals _ _ _ hpromote
    refine ⟨hpromotes, ?_⟩
    unfold RefersTo
    rw [htype]
    exact ⟨id, hid, hslot⟩
  · rename_i htype
    obtain ⟨⟨reference', args, execution₁⟩, hpromote, h⟩ := bind_eq_ok h
    cases h
    obtain ⟨hpromotes, id, hid, hslot⟩ :=
      @promotes_promoteTupleSlot _ frame execution _ .args _ _ _ hpromote
    refine ⟨hpromotes, ?_⟩
    unfold RefersTo
    rw [htype]
    exact ⟨id, hid, hslot⟩
  · rename_i htype
    split at h
    · rename_i hget
      cases h
      refine ⟨.refl _ _, ?_⟩
      unfold RefersTo
      rw [htype]
      exact hget
    · cases h
  · rename_i h₀ h₁ h₂
    cases h
    refine ⟨.refl _ _, ?_⟩
    unfold RefersTo
    split
    · rename_i h
      exact absurd h h₀
    · rename_i h
      exact absurd h h₁
    · rename_i h
      exact absurd h h₂
    · rfl

theorem captureReferences_ok {closureVars : List Closure} :
    ∀ {frame frame' : Frame} {execution execution' : State W} {references : List SlotRef},
      captureReferences closureVars frame execution = .ok (references, frame', execution') →
      Promotes frame execution frame' execution' ∧
        List.Forall₂ (RefersTo frame') closureVars references := by
  induction closureVars with
  | nil =>
    intro frame frame' execution execution' references h
    cases h
    exact ⟨.refl _ _, .nil⟩
  | cons closureVar rest ih =>
    intro frame frame' execution execution' references h
    obtain ⟨⟨reference, frame₁, execution₁⟩, hone, h⟩ := bind_eq_ok h
    obtain ⟨⟨others, frame₂, execution₂⟩, hrest, h⟩ := bind_eq_ok h
    cases h
    obtain ⟨hpromotes, hrefers⟩ := captureReference_ok hone
    obtain ⟨hothers, hreferences⟩ := ih hrest
    exact ⟨hpromotes.trans hothers, .cons (hrefers.of_promotes hothers) hreferences⟩

theorem captureClosure_ok {function : Function} {callable : Value}
    (h : captureClosure function frame execution = .ok (callable, frame', execution')) :
    Promotes frame execution frame' execution' ∧ ∃ references,
      captureReferences function.closureVars frame execution = .ok (references, frame', execution') ∧
      List.Forall₂ (RefersTo frame') function.closureVars references := by
  unfold captureClosure at h
  split at h
  · rename_i hnil
    cases h
    rw [hnil]
    exact ⟨.refl _ _, [], rfl, .nil⟩
  · obtain ⟨⟨references, frame₁, execution₁⟩, hcapture, h⟩ := bind_eq_ok h
    cases h
    obtain ⟨hpromotes, hreferences⟩ := captureReferences_ok hcapture
    exact ⟨hpromotes, references, hcapture, hreferences⟩

end Captures

/-! ### Instructions that create closures -/

def functionOf : Value → Option Function
  | .function function => some function
  | _ => none

def closureFunction (name : Op) (operands : List Operand) (frame : Frame) : Option Function :=
  match name, operands, frame.stack with
  | .fclosure, [.int index], _ => functionOf (enumAt frame.function.constants index)
  | .fclosure8, [.int index], _ => functionOf (enumAt frame.function.constants index)
  | .defineClass, _, constructor_ :: _ => functionOf constructor_
  | .defineClassComputed, _, constructor_ :: _ => functionOf constructor_
  | _, _, _ => none

section Creations

variable {frame : Frame} {execution : State W} {reply : Reply W} {action : Action W}

open Opcode.Local (captureReferences captureClosure)

def Captures (function? : Option Function) (frame : Frame) (execution : State W)
    (action : Action W) : Prop :=
  ∃ captured execution', (∀ frame', action.frame? = some frame' → SameVariables captured frame') ∧
    action.frame?.isSome ∧ SameTables execution' action.execution ∧
    match function? with
    | some function => ∃ references,
        captureReferences function.closureVars frame execution = .ok (references, captured, execution')
    | none => captured = frame ∧ execution' = execution

theorem Captures.promotes {function? : Option Function}
    (h : Captures function? frame execution action) :
    ∃ captured execution', Promotes frame execution captured execution' ∧
      (∀ frame', action.frame? = some frame' → SameVariables captured frame') ∧
      action.frame?.isSome ∧ SameTables execution' action.execution := by
  obtain ⟨captured, execution', hframe, hsome, hcells, hcapture⟩ := h
  refine ⟨captured, execution', ?_, hframe, hsome, hcells⟩
  cases function? with
  | none =>
    obtain ⟨rfl, rfl⟩ := hcapture
    exact .refl _ _
  | some function =>
    obtain ⟨references, hreferences⟩ := hcapture
    exact (captureReferences_ok hreferences).1

theorem captures_instantiate {index : ℤ} {reference : Value}
    (h : Opcode.Local.execute.instantiate frame execution reply index reference = .ok action) :
    Captures (functionOf (enumAt frame.function.constants index)) frame execution action := by
  unfold Opcode.Local.execute.instantiate at h
  split at h
  · rename_i function hconstant
    obtain ⟨⟨callable, captured, execution'⟩, hcapture, h⟩ := bind_eq_ok h
    cases h
    obtain ⟨-, references, hreferences, -⟩ := captureClosure_ok hcapture
    rw [hconstant]
    refine ⟨captured, execution', fun frame' h => ?_, rfl, ⟨⟨rfl, rfl⟩, rfl⟩, references,
      hreferences⟩
    cases h
    exact .stack captured _
  · cases h

theorem captures_defineClass {constructor_ : Value} {stack : List Value}
    (h : Opcode.Object.defineClass constructor_ stack frame execution reply = .ok action) :
    Captures (functionOf constructor_) frame execution action := by
  obtain ⟨⟨captured, execution'⟩, hcreate, h⟩ := bind_eq_ok h
  have hframe : action.frame?.isSome ∧ (∀ frame', action.frame? = some frame' →
      SameVariables captured frame') ∧ SameTables execution' action.execution := by
    dsimp only at h
    split at h
    · cases h
      refine ⟨rfl, fun frame' h => ?_, ⟨⟨rfl, rfl⟩, rfl⟩⟩
      cases h
      exact .stack captured _
    · cases h
      refine ⟨rfl, fun frame' h => ?_, ⟨⟨rfl, rfl⟩, rfl⟩⟩
      cases h
      exact .refl captured
    · cases h
  refine ⟨captured, execution', hframe.2.1, hframe.1, hframe.2.2, ?_⟩
  unfold Opcode.Object.instantiateClassConstructor at hcreate
  split at hcreate
  · obtain ⟨⟨callable, captured', execution₁⟩, hcapture, hcreate⟩ := bind_eq_ok hcreate
    cases hcreate
    obtain ⟨-, references, hreferences, -⟩ := captureClosure_ok hcapture
    exact ⟨references, hreferences⟩
  · cases hcreate
    exact ⟨rfl, rfl⟩
  · cases hcreate

theorem captureOps_facts : ∀ name ∈ captureOps,
    name ∉ Opcode.Control.opcodes ∧ name ∉ Opcode.Invocation.opcodes ∧
      (name ∈ Opcode.Object.opcodes → name ∈ classOps) ∧ name ∉ accessorOps := by decide

theorem classOps_facts : ∀ name ∈ classOps,
    name ∉ Opcode.Local.opcodes ∧ name ∈ Opcode.Object.opcodes ∧
      name ∉ Opcode.Object.privateOps ∧ name ∈ Opcode.Object.constructionOps := by decide

variable {name : Op} {operands : List Operand}

theorem captures_local [Value.Platform] [AtomTable] (hname : name ∈ [.fclosure, .fclosure8])
    (h : Opcode.Local.execute name operands frame execution reply = .ok action) :
    Captures (closureFunction name operands frame) frame execution action := by
  unfold Opcode.Local.execute at h
  rw [if_neg (by fin_cases hname <;> decide), if_neg (by fin_cases hname <;> decide),
    if_neg (by fin_cases hname <;> decide), if_neg (by fin_cases hname <;> decide)] at h
  split at h
  case h_12 => exact captures_instantiate h
  case h_13 => exact captures_instantiate h
  all_goals first
    | exact absurd hname (by decide)
    | cases h

theorem captures_class [Value.Platform] (hname : name ∈ classOps)
    (h : Opcode.Object.execute name operands frame execution reply = .ok action) :
    Captures (closureFunction name operands frame) frame execution action := by
  obtain ⟨-, -, hprivate, hconstruction⟩ := classOps_facts name hname
  unfold Opcode.Object.execute at h
  rw [if_neg hprivate, if_pos hconstruction] at h
  unfold Opcode.Object.executeConstruction at h
  split at h
  case h_5 hstack =>
    unfold closureFunction
    rw [hstack]
    exact captures_defineClass h
  case h_6 hstack =>
    unfold closureFunction
    rw [hstack]
    exact captures_defineClass h
  all_goals first
    | exact absurd hname (by decide)
    | cases h

variable {arguments : Answer}

/-- **An instruction that creates a closure** captures the variables of its function. -/
theorem capture_effect [Value.Platform] [AtomTable] (hname : name ∈ captureOps)
    (h : Interpreter.execute name operands frame execution arguments reply = .ok action) :
    Captures (closureFunction name operands frame) frame execution action := by
  obtain ⟨hcontrol, hinvocation, -, -⟩ := captureOps_facts name hname
  rcases List.mem_append.1 hname with hlocal | hclass
  · rw [execute_local (List.mem_append_right _ hlocal)] at h
    exact captures_local hlocal h
  · obtain ⟨hlocal, hobject, -, -⟩ := classOps_facts name hclass
    unfold Interpreter.execute at h
    rw [if_neg hcontrol, if_neg hinvocation, if_neg hlocal, if_pos hobject] at h
    exact captures_class hclass h

theorem writing_facts : ∀ name ∈ writingOps, name ∈ accessorOps ∧ name ∉ captureOps := by decide

/-- **What an instruction does to the variables**: nothing, an assignment, or a capture. -/
theorem execute_effect [Value.Platform] [AtomTable]
    (h : Interpreter.execute name operands frame execution arguments reply = .ok action) :
    (Keeps frame execution action ∧ name ∉ captureOps ∧ name ∉ writingOps) ∨
    (name ∈ accessorOps ∧ ∃ frame' execution', action = .next frame' execution' ∧
      Assigns name operands frame execution frame' execution') ∨
    (name ∈ captureOps ∧ Captures (closureFunction name operands frame) frame execution action) := by
  by_cases hcapture : name ∈ captureOps
  · exact .inr (.inr ⟨hcapture, capture_effect hcapture h⟩)
  · by_cases haccessor : name ∈ accessorOps
    · rw [execute_local (List.mem_append_left _ haccessor)] at h
      rcases accessor_effect haccessor h with ⟨hkeeps, hreads⟩ | hassigns
      · exact .inl ⟨hkeeps, hcapture, hreads⟩
      · exact .inr (.inl ⟨haccessor, hassigns⟩)
    · exact .inl ⟨alwaysKeeps_execute haccessor hcapture operands arguments action h, hcapture,
        fun hwriting => haccessor (writing_facts name hwriting).1⟩

end Creations

end QuickBeam.Vm.Runtime
