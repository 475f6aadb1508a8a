import QuickBeam.Vm.Runtime.Interleaving
import QuickBeam.Vm.Runtime.StackPrediction

/-!
# A captured variable is never bound anew

A slot that holds a cell holds the same cell for the rest of the run: an assignment goes to the
cell, a further capture uses it, and `close_loc` does nothing.  So the closures of all iterations of
a loop share the variables of its body.
-/

namespace QuickBeam.Vm.Runtime.CapturedSlots

open QuickBeam.Lib QuickBeam.Vm.Bytecode QuickBeam.Vm.Program
open QuickBeam.Vm.Runtime.Interleaving
open QuickBeam.Vm.Runtime.Opcode.Local (AtomTable captureReferences)

variable {W : Type}

/-! ### One step -/

section Steps

variable {frame frame' : Frame} {execution execution' : State W} {bank : Bank} {index id : ℕ}

theorem kept_writes {place : Place} {target : Target} {value : Value}
    (hslot : frame.slot? bank index = some (.slot (.cell id)))
    (htarget : frame.target? place = some target)
    (hwrites : Writes frame execution target value frame' execution') :
    frame'.slot? bank index = some (.slot (.cell id)) := by
  cases target with
  | ref reference => rw [hwrites.1.slot?, hslot]
  | slot bank' index' =>
    -- the target is a slot only where the slot holds no reference
    have hplain : ∀ reference, frame.slot? bank' index' ≠ some (.slot reference) := by
      intro reference hreference
      cases place with
      | slot bank'' index'' =>
        rw [Frame.target?] at htarget
        split at htarget
        · cases htarget
        · rename_i hnot hget
          cases htarget
          exact hnot reference (Option.some.inj (hget.symm.trans hreference))
        · cases htarget
      | ref index'' =>
        obtain ⟨_, -, h⟩ := Option.map_eq_some_iff.1 htarget
        cases h
    rw [hwrites.1.slot?, slot?_putSlot, if_neg, hslot]
    rintro ⟨rfl, rfl, -⟩
    exact hplain _ hslot

theorem kept_execute [Value.Platform] [AtomTable] {name : Op} {operands : List Operand}
    {arguments : Answer} {reply : Reply W} {action : Action W}
    (h : Interpreter.execute name operands frame execution arguments reply = .ok action)
    (hslot : frame.slot? bank index = some (.slot (.cell id))) :
    (action.frame?.getD frame).slot? bank index = some (.slot (.cell id)) := by
  rcases execute_effect h with ⟨hkeeps, -⟩ | ⟨-, next, _, rfl, hassigns⟩ | ⟨-, hcaptures⟩
  · rw [(keeps_activation hkeeps).slot?, hslot]
  · obtain ⟨_, _, _, _, -, -, -, htarget, -, hwrites⟩ := hassigns
    exact kept_writes hslot htarget hwrites
  · obtain ⟨captured, _, hpromotes, hsame, hsome, -⟩ := hcaptures.promotes
    obtain ⟨next, hnext⟩ := Option.isSome_iff_exists.1 hsome
    rw [hnext, Option.getD_some, (hsame next hnext).slot?]
    exact hpromotes.keeps_cell hslot

variable [Value.Platform] [AtomTable] {m m' : Activations W} {event : Event W} {x : Binding}

/-- **One step** of the run leaves the cell of a variable where it is. -/
theorem kept_step (hstep : Step m event m') (hslot : m.slot? x = some (.slot (.cell id))) :
    m'.slot? x = some (.slot (.cell id)) := by
  have hset {f : ℕ} {a : Activation} {frame : Frame} (ha : m.entered[f]? = some a)
      (hframe : a.frame.slot? x.bank x.index = some (.slot (.cell id)) →
        frame.slot? x.bank x.index = some (.slot (.cell id)))
      (captures : List Capture) (execution : State W) :
      Activations.slot? ⟨m.entered.set f { a with frame }, captures, execution⟩ x =
        some (.slot (.cell id)) := by
    rw [slot?_set ha]
    split
    · rename_i hx
      exact hframe (by rw [← slot?_eq ha, ← hx]; exact hslot)
    · exact hslot
  cases hstep with
  | instruction ha hcurrent hexecute =>
    rw [executeCurrent_eq hcurrent] at hexecute
    exact hset ha (kept_execute hexecute) _ _
  | enter => exact slot?_append hslot _ _ _
  | resume ha hsame => exact hset ha (fun h => (hsame.slot? ..).trans h) _ _
  | environment => exact hslot

/-! ### Runs -/

def Steps : Activations W → Activations W → Prop :=
  Relation.ReflTransGen fun m m' => ∃ event, Step m event m'

theorem kept_steps (hsteps : Steps m m') (hslot : m.slot? x = some (.slot (.cell id))) :
    m'.slot? x = some (.slot (.cell id)) := by
  induction hsteps with
  | refl => exact hslot
  | tail _ hstep ih =>
    obtain ⟨_, hstep⟩ := hstep
    exact kept_step hstep ih

end Steps

/-! ### Closures -/

/-- The own variable of an activation that a closure variable stands for. -/
def ownSlot (f : ℕ) (function : Function) (closureVar : Closure) : Option Binding :=
  match closureVar.closureType with
  | 0 => some ⟨f, .locals, function.argCount + closureVar.varIdx⟩
  | 1 => some ⟨f, .args, closureVar.varIdx⟩
  | _ => none

theorem slot_of_refersTo {frame : Frame} {closureVar : Closure} {reference : SlotRef} {f : ℕ}
    {x : Binding} (h : RefersTo frame closureVar reference)
    (hown : ownSlot f frame.function closureVar = some x) :
    ∃ id, reference = .cell id ∧ frame.slot? x.bank x.index = some (.slot (.cell id)) := by
  unfold RefersTo at h
  unfold ownSlot at hown
  split at hown
  · rename_i htype
    rw [htype] at h
    cases hown
    exact h
  · rename_i htype
    rw [htype] at h
    cases hown
    exact h
  · cases hown

/-- A closure that an instruction of an activation creates, with its reference for a variable of the
activation. -/
structure Creation (m : Activations W) (f : ℕ) (name : Op) (operands : List Operand) (x : Binding)
    (reference : SlotRef) where
  a : Activation
  function : Function
  references : List SlotRef
  captured : Frame
  execution : State W
  index : ℕ
  closureVar : Closure
  entered : m.entered[f]? = some a
  created : closureFunction name operands a.frame = some function
  capture : captureReferences function.closureVars a.frame (charged m.execution) =
    .ok (references, captured, execution)
  variable_ : function.closureVars[index]? = some closureVar
  own : ownSlot f a.frame.function closureVar = some x
  reference : references[index]? = some reference

theorem mem_captureOps {name : Op} {operands : List Operand} {frame : Frame} {function : Function}
    (h : closureFunction name operands frame = some function) : name ∈ captureOps := by
  unfold closureFunction at h
  split at h
  · decide
  · decide
  · decide
  · decide
  · cases h

section Creations

variable {m m₁ m₂ m₃ : Activations W} {f : ℕ} {name name' : Op} {operands operands' : List Operand}
  {x : Binding} {reference reference' : SlotRef}

theorem Creation.activation (h : Creation m f name operands x reference) : x.activation = f := by
  have hown := h.own
  unfold ownSlot at hown
  split at hown
  · exact congrArg Binding.activation (Option.some.inj hown).symm
  · exact congrArg Binding.activation (Option.some.inj hown).symm
  · cases hown

/-- The reference is the cell that the slot holds after the capture. -/
theorem Creation.cell (h : Creation m f name operands x reference) :
    ∃ id, reference = .cell id ∧ h.captured.slot? x.bank x.index = some (.slot (.cell id)) := by
  obtain ⟨hpromotes, hrefers⟩ := captureReferences_ok h.capture
  obtain ⟨hlt, hvariable⟩ := List.getElem?_eq_some_iff.1 h.variable_
  obtain ⟨hlt', hreference⟩ := List.getElem?_eq_some_iff.1 h.reference
  have hone := (List.forall₂_iff_get.1 hrefers).2 h.index hlt hlt'
  rw [List.get_eq_getElem, List.get_eq_getElem, hvariable, hreference] at hone
  exact slot_of_refersTo hone (by rw [hpromotes.entry.function]; exact h.own)

variable [Value.Platform] [AtomTable] {arguments : Answer} {reply : Reply W} {action : Action W}

theorem Creation.slot_after (h : Creation m₁ f name operands x reference)
    (hstep : Step m₁ (.instruction f name operands arguments reply action) m₂) :
    ∃ id, reference = .cell id ∧ m₂.slot? x = some (.slot (.cell id)) := by
  obtain ⟨id, hid, hslot⟩ := h.cell
  refine ⟨id, hid, ?_⟩
  cases hstep with
  | instruction ha hcurrent hexecute =>
    cases ha.symm.trans h.entered
    rw [executeCurrent_eq hcurrent] at hexecute
    obtain ⟨captured, _, hsame, hsome, -, hcapture⟩ :=
      capture_effect (mem_captureOps h.created) hexecute
    rw [h.created] at hcapture
    obtain ⟨_, hcapture⟩ := hcapture
    cases h.capture.symm.trans hcapture
    obtain ⟨next, hnext⟩ := Option.isSome_iff_exists.1 hsome
    rw [slot?_set ha, if_pos h.activation, hnext, Option.getD_some, (hsame next hnext).slot?]
    exact hslot

/-- **No fresh bindings**: closures that an activation creates at any two moments of a run share the
variables that they capture from it, whatever is executed in between. -/
theorem closures_share (hfirst : Creation m₁ f name operands x reference)
    (hstep : Step m₁ (.instruction f name operands arguments reply action) m₂)
    (hsteps : Steps m₂ m₃) (hsecond : Creation m₃ f name' operands' x reference') :
    reference' = reference := by
  obtain ⟨id, rfl, hslot⟩ := hfirst.slot_after hstep
  have hkept := kept_steps hsteps hslot
  obtain ⟨id', rfl, hslot'⟩ := hsecond.cell
  have hown : hsecond.a.frame.slot? x.bank x.index = some (.slot (.cell id)) := by
    rw [← slot?_eq hsecond.entered, ← hsecond.activation]
    exact hkept
  have hcell := (captureReferences_ok hsecond.capture).1.keeps_cell hown
  cases hcell.symm.trans hslot'
  rfl

end Creations

/-- The body of a loop: `fclosure 0` captures the local, and `close_loc 0` is between two rounds. -/
def loopFunction : Function :=
  { Interpreter.returnFunction with
    varCount := 1
    instructions := [(3, [.int 0]), (103, [.int 0]), (3, [.int 0])]
    constants := [.function { Interpreter.returnFunction with closureVars := [⟨[], 0, 0⟩] }] }

section Loop

local instance : Value.Platform := Value.noNumbers
local instance : AtomTable := ⟨fun _ => none⟩

def loopFrame (pc : ℕ) (locals stack : List Value) : Frame :=
  { newFrame loopFunction .undefined [] .undefined [] with pc, locals, stack }

def loopStart : Activations Unit where
  entered := [⟨loopFrame 0 [.undefined] [], []⟩]
  captures := []
  execution := { Interpreter.returnState with remainingSteps := 3 }

/-- The loop behind its first closure. -/
def loopAt (pc steps : ℕ) : Activations Unit where
  entered := [⟨loopFrame pc [.slot (.cell 0)] [.reference 0], []⟩]
  captures := [⟨[.cell 0], [.captured ⟨0, .locals, 0⟩]⟩]
  execution := { Interpreter.returnState with
    cells := Assoc.put ∅ 0 .undefined
    nextCellId := 1
    remainingSteps := steps }

def loopFirst : Creation loopStart 0 .fclosure [.int 0] ⟨0, .locals, 0⟩ (.cell 0) :=
  ⟨_, _, _, _, _, 0, _, rfl, rfl, rfl, rfl, rfl, rfl⟩

def loopSecond : Creation (loopAt 2 1) 0 .fclosure [.int 0] ⟨0, .locals, 0⟩ (.cell 0) :=
  ⟨_, _, _, _, _, 0, _, rfl, rfl, rfl, rfl, rfl, rfl⟩

theorem loop_resume (pc pc' steps : ℕ) :
    Step (loopAt pc steps) (.resume 0 (loopFrame pc' [.slot (.cell 0)] [.reference 0]))
      (loopAt pc' steps) :=
  @Step.resume Unit _ _ (loopAt pc steps) 0 _ _ rfl ⟨⟨rfl, rfl, rfl, rfl, rfl⟩, rfl, rfl⟩

/-- The closures of both rounds have the same cell. -/
theorem loop_closures_share : loopSecond.references[0]? = loopFirst.references[0]? := by
  have hfirst : Step loopStart (.instruction 0 .fclosure [.int 0] (.error .undefined)
      ⟨.value (.reference 0), (), false⟩
      (.next (loopFrame 0 [.slot (.cell 0)] [.reference 0]) (loopAt 0 2).execution)) (loopAt 0 2) :=
    @Step.instruction Unit _ _ loopStart 0 _ .fclosure [.int 0] _ _ _ rfl
      ⟨_, _, _, _, rfl, rfl, rfl⟩ rfl
  have hclose : Step (loopAt 1 2) (.instruction 0 .closeLoc [.int 0] (.error .undefined)
      Interpreter.noReply
      (.next (loopFrame 1 [.slot (.cell 0)] [.reference 0]) (loopAt 1 1).execution)) (loopAt 1 1) :=
    @Step.instruction Unit _ _ (loopAt 1 2) 0 _ .closeLoc [.int 0] _ _ _ rfl
      ⟨_, _, _, _, rfl, rfl, rfl⟩ rfl
  have hsteps : Steps (loopAt 0 2) (loopAt 2 1) :=
    ((Relation.ReflTransGen.single ⟨_, loop_resume 0 1 2⟩).tail ⟨_, hclose⟩).tail
      ⟨_, loop_resume 1 2 1⟩
  have hshare := closures_share loopFirst hfirst hsteps loopSecond
  exact loopSecond.reference.trans ((congrArg some hshare).trans loopFirst.reference.symm)

end Loop

end QuickBeam.Vm.Runtime.CapturedSlots
