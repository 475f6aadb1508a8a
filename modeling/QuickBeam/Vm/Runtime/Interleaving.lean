import QuickBeam.Vm.Runtime.Activations

/-!
# Interleaved activations

`Activations` keeps every activation that was entered and the references of every closure that was
created, with what they stand for: a variable of an activation or a global.  An event executes
one instruction of some activation, enters an activation, changes the stack of a waiting frame, or
changes the rest of the state.
-/

namespace QuickBeam.Vm.Runtime.Interleaving

open QuickBeam.Lib QuickBeam.Vm.Bytecode QuickBeam.Vm.Program
open QuickBeam.Vm.Runtime.Opcode.Local (AtomTable captureReferences)

variable {W : Type}

/-! ### States -/

structure Binding where
  activation : ℕ
  bank : Bank
  index : ℕ
deriving DecidableEq

/-- What a closure reference stands for. -/
inductive Origin where
  | captured (x : Binding)
  | global (name : Binary)
deriving DecidableEq

structure Activation where
  frame : Frame
  origins : List Origin

structure Capture where
  references : List SlotRef
  origins : List Origin

structure Activations (W : Type) where
  entered : List Activation
  captures : List Capture
  execution : State W

def Activations.slot? (m : Activations W) (x : Binding) : Option Value :=
  (m.entered[x.activation]?).bind fun a => a.frame.slot? x.bank x.index

/-! ### Events -/

def originOf (f : ℕ) (a : Activation) (closureVar : Closure) : Origin :=
  match closureVar.closureType with
  | 0 => .captured ⟨f, .locals, a.frame.function.argCount + closureVar.varIdx⟩
  | 1 => .captured ⟨f, .args, closureVar.varIdx⟩
  | 2 => a.origins.getD closureVar.varIdx (.global closureVar.name)
  | _ => .global closureVar.name

def created (f : ℕ) (a : Activation) (name : Op) (operands : List Operand) (execution : State W) :
    List Capture :=
  match closureFunction name operands a.frame with
  | some function =>
      match captureReferences function.closureVars a.frame execution with
      | .ok (references, _, _) => [⟨references, function.closureVars.map (originOf f a)⟩]
      | .error _ => []
  | none => []

def Current (frame : Frame) (name : Op) (operands : List Operand) : Prop :=
  ∃ opcode given short row, frame.function.instructions[frame.pc]? = some (opcode, given) ∧
    info opcode = some (short, row) ∧
    expandShortForm short given frame.function.argCount = (name, operands)

def charged (execution : State W) : State W :=
  { execution with remainingSteps := execution.remainingSteps - 1 }

inductive Event (W : Type) where
  | instruction (f : ℕ) (name : Op) (operands : List Operand) (arguments : Answer)
      (reply : Reply W) (action : Action W)
  | enter (capture : Capture) (function : Function) (callable : Value) (values : List Value)
      (this : Value)
  | resume (f : ℕ) (frame : Frame)
  | environment (execution : State W)

section Steps

variable [Value.Platform] [AtomTable]

inductive Step : Activations W → Event W → Activations W → Prop where
  | instruction {m : Activations W} {f : ℕ} {a : Activation} {name : Op} {operands : List Operand}
      {arguments : Answer} {reply : Reply W} {action : Action W} : m.entered[f]? = some a →
      Current a.frame name operands →
      Interpreter.executeCurrent a.frame m.execution arguments reply = .ok action →
      Step m (.instruction f name operands arguments reply action)
        { entered := m.entered.set f { a with frame := action.frame?.getD a.frame }
          captures := m.captures ++ created f a name operands (charged m.execution)
          execution := action.execution }
  | enter {m : Activations W} {capture : Capture} (function : Function) (callable : Value)
      (values : List Value) (this : Value) : capture ∈ ⟨[], []⟩ :: m.captures →
      Step m (.enter capture function callable values this)
        { m with
          entered := m.entered ++
            [⟨newFrame function callable values this capture.references, capture.origins⟩] }
  | resume {m : Activations W} {f : ℕ} {a : Activation} {frame : Frame} :
      m.entered[f]? = some a → SameVariables a.frame frame →
      Step m (.resume f frame) { m with entered := m.entered.set f { a with frame } }
  | environment {m : Activations W} {execution : State W} : SameCells m.execution execution →
      Step m (.environment execution) { m with execution }

theorem executeCurrent_eq {frame : Frame} {name : Op} {operands : List Operand}
    (h : Current frame name operands) (execution : State W) (arguments : Answer) (reply : Reply W) :
    Interpreter.executeCurrent frame execution arguments reply =
      Interpreter.execute name operands frame (charged execution) arguments reply := by
  obtain ⟨opcode, given, short, row, hget, hinfo, hexpand⟩ := h
  unfold Interpreter.executeCurrent
  rw [hget]
  simp only [hinfo, hexpand]
  rfl

end Steps

/-! ### Charging -/

section Charging

variable {frame frame' : Frame} {execution execution' : State W}

theorem writes_of_charged {target : Target} {value : Value}
    (h : Writes frame (charged execution) target value frame' execution') :
    Writes frame execution target value frame' execution' := by
  cases target with
  | slot bank index => exact ⟨h.1, ⟨⟨h.2.cells, h.2.nextCellId⟩, h.2.globals⟩⟩
  | ref reference => cases reference <;> exact ⟨h.1, ⟨⟨h.2.cells, h.2.nextCellId⟩, h.2.globals⟩⟩

theorem promotes_of_charged (h : Promotes frame (charged execution) frame' execution') :
    Promotes frame execution frame' execution' :=
  ⟨h.entry, h.stack, h.globals, h.length, h.next_le, h.slot, h.old, h.new,
    h.distinct⟩

theorem readTarget_charged (target : Target) :
    readTarget frame (charged execution) target = readTarget frame execution target := by
  cases target with
  | slot bank index => rfl
  | ref reference => cases reference <;> rfl

theorem keeps_activation {action : Action W} (h : Keeps frame execution action) :
    SameVariables frame (action.frame?.getD frame) := by
  cases hframe : action.frame? with
  | none => exact .refl frame
  | some frame' => exact h.frame frame' hframe

end Charging

/-! ### The variables of the activations -/

section Slots

variable {m : Activations W} {f : ℕ} {a : Activation}

theorem slot?_eq (h : m.entered[f]? = some a) (bank : Bank) (index : ℕ) :
    m.slot? ⟨f, bank, index⟩ = a.frame.slot? bank index := by
  unfold Activations.slot?
  rw [h]
  rfl

theorem slot?_set (h : m.entered[f]? = some a) (frame : Frame) (captures : List Capture)
    (execution : State W) (x : Binding) :
    Activations.slot? ⟨m.entered.set f { a with frame }, captures, execution⟩ x =
      if x.activation = f then frame.slot? x.bank x.index else m.slot? x := by
  have hlt : f < m.entered.length := (List.getElem?_eq_some_iff.1 h).1
  unfold Activations.slot?
  dsimp only
  rw [List.getElem?_set]
  by_cases heq : x.activation = f
  · rw [if_pos heq, if_pos heq.symm, if_pos hlt]
    rfl
  · rw [if_neg heq, if_neg (Ne.symm heq)]

theorem slot?_append {x : Binding} {value : Value} (h : m.slot? x = some value) (b : Activation)
    (captures : List Capture) (execution : State W) :
    Activations.slot? ⟨m.entered ++ [b], captures, execution⟩ x = some value := by
  obtain ⟨a, ha, hslot⟩ := Option.bind_eq_some_iff.1 h
  have hlt : x.activation < m.entered.length := (List.getElem?_eq_some_iff.1 ha).1
  unfold Activations.slot?
  dsimp only
  rw [List.getElem?_append_left hlt, ha]
  exact hslot

end Slots

end QuickBeam.Vm.Runtime.Interleaving
