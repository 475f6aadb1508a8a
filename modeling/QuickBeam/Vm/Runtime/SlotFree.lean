import QuickBeam.Vm.Runtime.Activations
import QuickBeam.Vm.Runtime.InstructionEffect

/-!
# No cell reference on an operand stack

The reference of a cell stands in the slot of a frame and among the references of a closure.  As
long as the instructions that hand out raw slots meet none, the operand stacks hold values of
JavaScript only.
-/

namespace QuickBeam.Vm.Runtime

open QuickBeam.Lib QuickBeam.Vm.Bytecode QuickBeam.Vm.Program
open QuickBeam.Vm.Runtime.Opcode.Local (AtomTable)
open QuickBeam.Vm.Runtime.Interpreter (given isComputed computed_unary computed_binary)

variable {W : Type}

/-! ### Values without a cell reference -/

/-- Neither a cell reference nor an iterator. -/
def isLeaf : Value → Bool
  | .slot _ | .forIn _ _ | .forOf _ _ => false
  | _ => true

/-- No cell reference, and no iterator over one. -/
inductive SlotFree : Value → Prop where
  | leaf {v : Value} : isLeaf v = true → SlotFree v
  | forIn {keys : List Value} {index : ℕ} : (∀ v ∈ keys, SlotFree v) → SlotFree (.forIn keys index)
  | forOf {values : List Value} {index : ℕ} : (∀ v ∈ values, SlotFree v) →
      SlotFree (.forOf values index)

variable {v : Value}

theorem SlotFree.ne_slot (h : SlotFree v) (reference : SlotRef) : v ≠ .slot reference := by
  rintro rfl
  cases h with
  | leaf hleaf => cases hleaf

theorem slotFree_of_isComputed (v : Value) (h : isComputed v = true) : SlotFree v := by
  refine .leaf ?_
  cases v <;> first | rfl | cases h

theorem slotFree_enumAt {list : List Value} (h : ∀ v ∈ list, SlotFree v) (index : ℤ) :
    SlotFree (enumAt list index) := by
  have hgetD : ∀ i : ℕ, SlotFree (list.getD i .null) := by
    intro i
    rw [List.getD_eq_getElem?_getD]
    cases hi : list[i]? with
    | none => exact .leaf rfl
    | some v => exact h v (List.mem_of_getElem? hi)
  unfold enumAt
  split
  · exact hgetD _
  · split
    · exact hgetD _
    · exact .leaf rfl

def FreeStack (stack : List Value) : Prop := ∀ v ∈ stack, SlotFree v

theorem freeStack_cons {stack : List Value} :
    FreeStack (v :: stack) ↔ SlotFree v ∧ FreeStack stack := List.forall_mem_cons

/-- What an instruction can put on the stack of its frame is free of cell references. -/
structure Supplied [Value.Platform] (frame : Frame) (reply : Reply W) : Prop where
  stack : FreeStack frame.stack
  this : SlotFree frame.this
  callable : SlotFree frame.callable
  constants : FreeStack frame.function.constants
  answer : FreeStack (given reply.answer)
  parsed : ∀ s, SlotFree (Value.Platform.parseNumber s)

/-- A global was written, if at all, with a value that is free of cell references. -/
def FreeGlobals (execution execution' : State W) : Prop :=
  execution'.globals = execution.globals ∨
    ∃ name v, SlotFree v ∧ execution'.globals = execution.globals.put name v

/-- Whatever the instruction gives: its frame has a free stack, and a global was written with a
value that is free. -/
def AlwaysFree (execution : State W) (result : Except Crash (Action W)) : Prop :=
  ∀ action, result = .ok action → (∀ frame', action.frame? = some frame' → FreeStack frame'.stack) ∧
    FreeGlobals execution action.execution

section Families

variable {frame frame' : Frame} {execution : State W} {reply : Reply W}

theorem alwaysFree_error (crash : Crash) : AlwaysFree execution (.error crash) :=
  fun _ h => (by cases h)

theorem alwaysFree_frame {action : Action W} (hframe : action.frame? = some frame')
    (hglobals : action.execution.globals = execution.globals) (hstack : FreeStack frame'.stack) :
    AlwaysFree execution (.ok action) := by
  intro action' h
  cases h
  refine ⟨fun frame'' hframe' => ?_, .inl hglobals⟩
  cases hframe.symm.trans hframe'
  exact hstack

theorem alwaysFree_none {action : Action W} (hframe : action.frame? = none)
    (hglobals : action.execution.globals = execution.globals) :
    AlwaysFree execution (.ok action) := by
  intro action' h
  cases h
  exact ⟨fun frame'' hframe' => (by rw [hframe] at hframe'; cases hframe'), .inl hglobals⟩

/-! ### Values, stacks and branches -/

section Pure

variable [Value.Platform]

omit [Value.Platform] in
theorem alwaysFree_nextWith {rest : List Value} {result : Option Value} (hrest : FreeStack rest)
    (hresult : ∀ v, result = some v → SlotFree v) :
    AlwaysFree execution (Opcode.Value.nextWith frame execution rest result) := by
  cases result with
  | none => exact alwaysFree_error _
  | some value => exact alwaysFree_frame rfl rfl (freeStack_cons.2 ⟨hresult value rfl, hrest⟩)

variable {name : Op}

theorem slotFree_unary (hsupplied : Supplied frame reply) {a v : Value}
    (h : Value.unary name a = some v) : SlotFree v :=
  computed_unary slotFree_of_isComputed hsupplied.parsed h

theorem slotFree_binary (hsupplied : Supplied frame reply) {a b v : Value}
    (h : Value.binary name a b = some v) : SlotFree v :=
  computed_binary slotFree_of_isComputed hsupplied.parsed h

theorem alwaysFree_value (hsupplied : Supplied frame reply) (name : Op) (operands : List Operand) :
    AlwaysFree execution (Opcode.Value.execute name operands frame execution reply.answer) := by
  have hstack := hsupplied.stack
  have hanswer := hsupplied.answer
  unfold Opcode.Value.execute
  split
  · split
    · rename_i heq
      rw [heq, freeStack_cons, freeStack_cons] at hstack
      exact alwaysFree_nextWith hstack.2.2 fun v hv => slotFree_binary hsupplied hv
    · exact alwaysFree_error _
  · rename_i hbinary
    clear hbinary
    split
    · split
      · rename_i heq
        rw [heq, freeStack_cons] at hstack
        exact alwaysFree_nextWith hstack.2 fun v hv => slotFree_unary hsupplied hv
      · exact alwaysFree_error _
    · rename_i hunary
      clear hunary
      -- The entries under the operands, with a value that is answered on top.
      have hanswered : ∀ {rest : List Value} {v : Value}, reply.answer = .value v →
          FreeStack rest → AlwaysFree execution (.ok (.next { frame with stack := v :: rest } execution)) := by
        intro rest v heq hrest
        rw [heq] at hanswer
        exact alwaysFree_frame rfl rfl (freeStack_cons.2 ⟨hanswer v (List.mem_singleton_self v), hrest⟩)
      split
      case h_1 top rest heq =>
        rw [heq] at hstack
        exact alwaysFree_nextWith hstack fun v hv => slotFree_unary hsupplied hv
      case h_2 top rest heq =>
        rw [heq] at hstack
        exact alwaysFree_nextWith hstack fun v hv => slotFree_unary hsupplied hv
      case h_4 => split <;> exact alwaysFree_frame rfl rfl hstack
      case h_6 => split <;> exact alwaysFree_frame rfl rfl hstack
      case h_8 top rest type heq hvalue =>
        rw [heq, freeStack_cons] at hstack
        exact hanswered hvalue hstack.2
      case h_9 top rest type heq hvalue =>
        rw [heq, freeStack_cons] at hstack
        exact hanswered hvalue hstack.2
      case h_10 top rest heq =>
        rw [heq, freeStack_cons] at hstack
        exact alwaysFree_nextWith hstack.2 fun v hv => slotFree_unary hsupplied hv
      case h_11 object key rest result heq hvalue =>
        rw [heq, freeStack_cons, freeStack_cons] at hstack
        exact hanswered hvalue hstack.2.2
      case h_12 object key rest result heq hvalue =>
        rw [heq, freeStack_cons, freeStack_cons] at hstack
        exact hanswered hvalue hstack.2.2
      all_goals first
        | exact alwaysFree_error _
        | exact alwaysFree_frame rfl rfl hstack

/-- The shuffles move entries; the literals are no cell references. -/
theorem alwaysFree_stack (hsupplied : Supplied frame reply) (name : Op) (operands : List Operand) :
    AlwaysFree execution (Opcode.Stack.execute name operands frame execution) := by
  unfold Opcode.Stack.execute
  split
  · rename_i stack htransform
    refine alwaysFree_frame rfl rfl ?_
    show FreeStack stack
    have hstack := hsupplied.stack
    unfold Opcode.Stack.transform at htransform
    split at htransform
    all_goals cases htransform
    all_goals first
      | exact freeStack_cons.2 ⟨.leaf rfl, hstack⟩
      | exact freeStack_cons.2 ⟨hsupplied.this, hstack⟩
      | exact freeStack_cons.2 ⟨slotFree_enumAt hsupplied.constants _, hstack⟩
      | rename_i heq
        rw [heq] at hstack
        simp only [freeStack_cons] at hstack ⊢
        tauto
  · exact alwaysFree_error _

theorem alwaysFree_control (hsupplied : Supplied frame reply) (name : Op) (operands : List Operand) :
    AlwaysFree execution (Opcode.Control.execute name operands frame execution) := by
  have hstack := hsupplied.stack
  unfold Opcode.Control.execute Opcode.Control.branchOn
  split
  all_goals first
    | exact alwaysFree_error _
    | exact alwaysFree_none rfl rfl
    | exact alwaysFree_frame rfl rfl hstack
    | exact alwaysFree_frame rfl rfl (freeStack_cons.2 ⟨.leaf rfl, hstack⟩)
    | rename_i heq
      rw [heq, freeStack_cons] at hstack
      exact alwaysFree_frame rfl rfl hstack.2

end Pure

/-! ### Objects -/

section Objects

open Opcode.Object

variable {stack : List Value}

/-- The frame of an instruction keeps its stack, or has the stack `stack`. -/
theorem alwaysFree_next (hstack : FreeStack stack) :
    AlwaysFree execution (next stack frame execution reply) := alwaysFree_frame rfl rfl hstack

theorem alwaysFree_throw (reason : Value) (hstack : FreeStack frame.stack) :
    AlwaysFree execution (throw_ reason frame execution reply) := alwaysFree_frame rfl rfl hstack

variable (hstack : FreeStack frame.stack) (hanswer : FreeStack (given reply.answer))

include hstack hanswer

variable {rest : List Value}

theorem alwaysFree_pushing (hrest : FreeStack rest) :
    AlwaysFree execution (pushing rest frame execution reply) := by
  unfold pushing
  split
  · rename_i value heq
    rw [heq] at hanswer
    exact alwaysFree_next (freeStack_cons.2 ⟨hanswer value (List.mem_singleton_self value), hrest⟩)
  · exact alwaysFree_throw _ hstack
  · exact alwaysFree_error _

omit hanswer in
theorem alwaysFree_done (hrest : FreeStack rest) :
    AlwaysFree execution (done rest frame execution reply) := by
  unfold done
  split
  · exact alwaysFree_next hrest
  · exact alwaysFree_throw _ hstack
  · exact alwaysFree_error _

omit hstack in
theorem alwaysFree_get (hrest : FreeStack stack) :
    AlwaysFree execution (Opcode.Object.get stack frame execution reply) := by
  unfold Opcode.Object.get
  split
  · exact alwaysFree_frame rfl rfl hrest
  · rename_i value heq
    rw [heq] at hanswer
    exact alwaysFree_next (freeStack_cons.2 ⟨hanswer value (List.mem_singleton_self value), hrest⟩)
  · exact alwaysFree_frame rfl rfl hrest
  · exact alwaysFree_error _

omit hstack hanswer in
theorem alwaysFree_put (object value : Value) (hrest : FreeStack stack) :
    AlwaysFree execution (put object value stack frame execution reply) := by
  unfold put
  split
  · exact alwaysFree_next hrest
  · exact alwaysFree_frame rfl rfl hrest
  · exact alwaysFree_frame rfl rfl hrest
  · exact alwaysFree_error _

theorem alwaysFree_private (name : Op) (operands : List Operand) :
    AlwaysFree execution (executePrivate name operands frame execution reply) := by
  have hrest := hstack
  unfold executePrivate
  split
  all_goals try exact alwaysFree_error _
  case h_1 => exact alwaysFree_pushing hstack hanswer hstack
  case h_7 heq =>
    rw [heq] at hrest
    simp only [freeStack_cons] at hrest
    split
    · exact alwaysFree_done hstack hrest.2.2
    · exact alwaysFree_error _
  all_goals
    rename_i heq
    rw [heq] at hrest
    simp only [freeStack_cons] at hrest
    first
      | exact alwaysFree_pushing hstack hanswer (by simp [hrest])
      | exact alwaysFree_done hstack (by simp [freeStack_cons, hrest])

theorem alwaysFree_specialObject (hcallable : SlotFree frame.callable) (type : ℤ) :
    AlwaysFree execution (specialObject type frame execution reply) := by
  unfold specialObject
  split
  · exact alwaysFree_next (freeStack_cons.2 ⟨hcallable, hstack⟩)
  · split
    · exact alwaysFree_pushing hstack hanswer hstack
    · exact alwaysFree_next (freeStack_cons.2 ⟨.leaf rfl, hstack⟩)

omit hanswer in
theorem freeStack_enumSplit (count : ℤ) : FreeStack (enumSplit frame.stack count).2 := by
  unfold enumSplit
  simp only [List.splitAt_eq]
  split
  · exact fun v hv => hstack v (List.mem_of_mem_drop hv)
  · exact fun v hv => hstack v (List.mem_of_mem_drop hv)

omit hstack hanswer in
theorem globals_instantiateClassConstructor {constructor_ : Value} {captured : Frame}
    {execution' : State W}
    (h : instantiateClassConstructor constructor_ frame execution = .ok (captured, execution')) :
    execution'.globals = execution.globals := by
  unfold instantiateClassConstructor at h
  split at h
  · obtain ⟨⟨callable, captured', execution₁⟩, hcapture, h⟩ := bind_eq_ok h
    cases h
    exact (captureClosure_ok hcapture).1.globals
  · cases h
    rfl
  · cases h

theorem alwaysFree_defineClass (constructor_ : Value) (hrest : FreeStack stack) :
    AlwaysFree execution (defineClass constructor_ stack frame execution reply) := by
  intro action h
  obtain ⟨⟨captured, execution'⟩, hcreate, h⟩ := bind_eq_ok h
  have hcaptured : FreeStack captured.stack := by
    rw [(Interpreter.instantiateClassConstructor_sameStack hcreate).1]
    exact hstack
  have hglobals : execution'.globals = execution.globals :=
    globals_instantiateClassConstructor hcreate
  have hafter : ∀ result : Except Crash (Action W), AlwaysFree execution' result →
      AlwaysFree execution result := by
    intro result hfree action' haction
    unfold FreeGlobals
    rw [← hglobals]
    exact hfree action' haction
  dsimp only at h
  split at h
  · rename_i constructor_ prototype heq
    rw [heq] at hanswer
    exact hafter _ (alwaysFree_next (freeStack_cons.2 ⟨hanswer _ (by simp [given]),
      freeStack_cons.2 ⟨hanswer _ (by simp [given]), hrest⟩⟩)) action h
  · exact hafter _ (alwaysFree_throw _ hcaptured) action h
  · cases h

theorem alwaysFree_construction (hcallable : SlotFree frame.callable) (name : Op)
    (operands : List Operand) :
    AlwaysFree execution (executeConstruction name operands frame execution reply) := by
  have hrest := hstack
  unfold executeConstruction
  split
  · rename_i heq
    rw [heq, freeStack_cons, freeStack_cons] at hrest
    exact alwaysFree_pushing hstack hanswer hrest.2.2
  · exact alwaysFree_specialObject hstack hanswer hcallable _
  · exact alwaysFree_pushing hstack hanswer hstack
  · exact alwaysFree_pushing hstack hanswer (freeStack_enumSplit hstack _)
  · rename_i heq
    rw [heq, freeStack_cons, freeStack_cons] at hrest
    exact alwaysFree_defineClass hstack hanswer _ hrest.2.2
  · rename_i heq
    rw [heq, freeStack_cons, freeStack_cons] at hrest
    exact alwaysFree_defineClass hstack hanswer _ hrest.2.2
  · exact alwaysFree_error _

omit hanswer in
theorem alwaysFree_definition [Value.Platform] (name : Op) (operands : List Operand) :
    AlwaysFree execution (executeDefinition name operands frame execution reply) := by
  have hrest := hstack
  unfold executeDefinition
  split
  case h_5 heq =>
    rw [heq] at hrest
    simp only [freeStack_cons] at hrest
    split
    · exact alwaysFree_next (freeStack_cons.2 ⟨.leaf rfl, freeStack_cons.2 ⟨.leaf rfl, hrest.2.2.2⟩⟩)
    · exact alwaysFree_throw _ hstack
    · exact alwaysFree_error _
  case h_6 =>
    split
    · exact alwaysFree_done hstack hstack
    · exact alwaysFree_throw _ hstack
  case h_7 => exact alwaysFree_error _
  all_goals
    rename_i heq
    rw [heq] at hrest
    simp only [freeStack_cons] at hrest
    exact alwaysFree_done hstack (by simp [freeStack_cons, hrest])

theorem alwaysFree_property (name : Op) (operands : List Operand) :
    AlwaysFree execution (executeProperty name operands frame execution reply) := by
  have hrest := hstack
  unfold executeProperty
  split
  case h_8 => exact alwaysFree_error _
  all_goals
    rename_i heq
    rw [heq] at hrest
    simp only [freeStack_cons] at hrest
    first
      | exact alwaysFree_get hanswer (by simp [freeStack_cons, hrest])
      | exact alwaysFree_put _ _ (by simp [hrest])
      | exact alwaysFree_pushing hstack hanswer (by simp [hrest])

omit hanswer in
theorem freeStack_putElem {v : Value} (hv : SlotFree v) (index : ℤ) :
    FreeStack (putElem frame.stack index v) := by
  intro w hw
  rcases List.mem_or_eq_of_mem_set hw with hmem | heq
  · exact hstack w hmem
  · rw [heq]
    exact hv

theorem alwaysFree_enumeration (name : Op) (operands : List Operand) :
    AlwaysFree execution (executeEnumeration name operands frame execution reply) := by
  have hrest := hstack
  unfold executeEnumeration
  split
  case h_1 heq =>
    rw [heq, freeStack_cons] at hrest
    split
    · rename_i keys hkeys
      rw [hkeys] at hanswer
      exact alwaysFree_next (freeStack_cons.2 ⟨.forIn hanswer, hrest.2⟩)
    · exact alwaysFree_frame rfl rfl hrest.2
    · exact alwaysFree_error _
  case h_2 keys index stack heq =>
    rw [heq, freeStack_cons] at hrest
    obtain ⟨hiterator, hrest⟩ := hrest
    have hkeys : ∀ v ∈ keys, SlotFree v := by
      cases hiterator with
      | leaf hleaf => cases hleaf
      | forIn hkeys => exact hkeys
    refine alwaysFree_next ?_
    unfold forInNext
    split
    · exact freeStack_cons.2 ⟨.leaf rfl, freeStack_cons.2 ⟨slotFree_enumAt hkeys _,
        freeStack_cons.2 ⟨.forIn hkeys, hrest⟩⟩⟩
    · exact freeStack_cons.2 ⟨.leaf rfl, freeStack_cons.2 ⟨.leaf rfl,
        freeStack_cons.2 ⟨.forIn hkeys, hrest⟩⟩⟩
  case h_3 heq =>
    rw [heq, freeStack_cons] at hrest
    split
    · rename_i values hvalues
      rw [hvalues] at hanswer
      exact alwaysFree_next (freeStack_cons.2 ⟨.leaf rfl, freeStack_cons.2 ⟨.leaf rfl,
        freeStack_cons.2 ⟨.forOf hanswer, hrest.2⟩⟩⟩)
    · exact alwaysFree_throw _ hstack
    · exact alwaysFree_error _
  case h_4 depth =>
    split
    · rename_i values index hiterator
      have hvalues : ∀ v ∈ values, SlotFree v := by
        have hfree := slotFree_enumAt hstack (depth + 2)
        rw [hiterator] at hfree
        cases hfree with
        | leaf hleaf => cases hleaf
        | forOf hvalues => exact hvalues
      refine alwaysFree_next ?_
      unfold forOfNext
      split
      · exact freeStack_cons.2 ⟨.leaf rfl, freeStack_cons.2 ⟨.leaf rfl,
          freeStack_putElem hstack (.forOf hvalues) _⟩⟩
      · exact freeStack_cons.2 ⟨.leaf rfl, freeStack_cons.2 ⟨slotFree_enumAt hvalues _,
          freeStack_putElem hstack (.forOf hvalues) _⟩⟩
    · exact alwaysFree_throw _ hstack
  case h_5 heq =>
    rw [heq] at hrest
    simp only [freeStack_cons] at hrest
    exact alwaysFree_next hrest.2.2.2
  case h_6 => exact alwaysFree_error _

theorem alwaysFree_object [Value.Platform] (hcallable : SlotFree frame.callable) (name : Op)
    (operands : List Operand) :
    AlwaysFree execution (Opcode.Object.execute name operands frame execution reply) := by
  unfold Opcode.Object.execute
  split
  · exact alwaysFree_private hstack hanswer name operands
  · split
    · exact alwaysFree_construction hstack hanswer hcallable name operands
    · split
      · exact alwaysFree_definition hstack name operands
      · split
        · exact alwaysFree_property hstack hanswer name operands
        · exact alwaysFree_enumeration hstack hanswer name operands

end Objects

/-! ### Calls -/

section Calls

open Opcode.Invocation

variable (hstack : FreeStack frame.stack)

include hstack

theorem alwaysFree_call (tail : Bool) (count : ℤ) :
    AlwaysFree execution (.ok (call tail count frame execution)) := by
  have hrest := freeStack_enumSplit hstack count
  unfold call
  split
  · rename_i arguments callable rest heq
    rw [heq, freeStack_cons] at hrest
    exact alwaysFree_frame rfl rfl hrest.2
  · exact alwaysFree_none rfl rfl

theorem alwaysFree_callMethod (tail : Bool) (count : ℤ) :
    AlwaysFree execution (.ok (callMethod tail count frame execution)) := by
  have hrest := freeStack_enumSplit hstack count
  unfold callMethod
  split
  · rename_i arguments callable this rest heq
    rw [heq, freeStack_cons, freeStack_cons] at hrest
    exact alwaysFree_frame rfl rfl hrest.2.2
  · exact alwaysFree_none rfl rfl

theorem alwaysFree_callConstructor (count : ℤ) :
    AlwaysFree execution (callConstructor count frame execution reply) := by
  have hrest := freeStack_enumSplit hstack count
  unfold callConstructor
  split
  · rename_i arguments newTarget constructor_ rest heq
    rw [heq, freeStack_cons, freeStack_cons] at hrest
    split
    · exact alwaysFree_frame rfl rfl hrest.2.2
    · exact alwaysFree_frame rfl rfl hstack
    · exact alwaysFree_error _
  · exact alwaysFree_none rfl rfl

theorem alwaysFree_apply (construct : ℤ) (arguments : Answer) (callable this : Value)
    {stack : List Value} (hrest : FreeStack stack) :
    AlwaysFree execution (apply construct arguments callable this stack frame execution reply) := by
  unfold apply
  split
  · exact alwaysFree_frame rfl rfl hrest
  · exact alwaysFree_frame rfl rfl hrest
  · exact alwaysFree_frame rfl rfl hstack
  · exact alwaysFree_frame rfl rfl hstack
  · exact alwaysFree_error _

theorem alwaysFree_invocation (name : Op) (operands : List Operand) (arguments : Answer) :
    AlwaysFree execution (Opcode.Invocation.execute name operands frame execution arguments reply) := by
  have hrest := hstack
  unfold Opcode.Invocation.execute
  split
  case h_3 heq =>
    rw [heq] at hrest
    simp only [freeStack_cons] at hrest
    exact alwaysFree_apply hstack _ _ _ _ hrest.2.2.2
  case h_4 => exact alwaysFree_call hstack _ _
  case h_5 => exact alwaysFree_call hstack _ _
  case h_6 => exact alwaysFree_callMethod hstack _ _
  case h_7 => exact alwaysFree_callMethod hstack _ _
  case h_8 => exact alwaysFree_callConstructor hstack _
  all_goals first
    | exact alwaysFree_frame rfl rfl hstack
    | exact alwaysFree_error _

end Calls

/-! ### Variables, names and globals -/

section Locals

open Opcode.Local

/-- The variables of a frame, the cells and the globals hold values of JavaScript. -/
structure Held (frame : Frame) (execution : State W) : Prop where
  slot : ∀ bank index v, frame.slot? bank index = some v →
    SlotFree v ∨ ∃ reference, v = .slot reference
  cell : ∀ id v, execution.cells.get? id = some v → SlotFree v
  global : ∀ name v, execution.globals.get? name = some v → SlotFree v

variable (hheld : Held frame execution)

include hheld

variable {v : Value}

theorem slotFree_readReference {reference : SlotRef}
    (h : readReference reference execution = .ok v) : SlotFree v := by
  cases reference with
  | cell id =>
    simp only [readReference] at h
    split at h
    · rename_i value hvalue
      cases h
      exact hheld.cell id v hvalue
    · cases h
  | global name =>
    cases h
    cases hget : execution.globals.get? name with
    | none => exact .leaf rfl
    | some value => exact hheld.global name value hget

theorem slotFree_readSlot {slot v : Value}
    (hslot : SlotFree slot ∨ ∃ reference, slot = .slot reference)
    (h : readSlot slot execution = .ok v) : SlotFree v := by
  unfold readSlot at h
  split at h
  · exact slotFree_readReference hheld h
  · rename_i hplain
    cases h
    rcases hslot with hfree | ⟨reference, heq⟩
    · exact hfree
    · exact (hplain reference heq).elim

theorem slotFree_readElem {bank : Bank} {index : ℤ} {slot v : Value}
    (hslot : elem (frame.bank bank) index = .ok slot) (h : readSlot slot execution = .ok v) :
    SlotFree v :=
  slotFree_readSlot hheld (hheld.slot _ _ _ (slot?_of_elem hslot).2) h

variable {index : ℤ}

theorem slotFree_readArg {slot v : Value} (hslot : tupleGet frame.args index = .ok slot)
    (h : readSlot slot execution = .ok v) : SlotFree v := by
  unfold tupleGet at hslot
  split at hslot
  · exact @slotFree_readElem _ frame _ hheld .args _ _ _ hslot h
  · cases hslot
    cases h
    exact .leaf rfl

variable (hstack : FreeStack frame.stack)

include hstack

omit hheld in
theorem alwaysFree_push (hv : SlotFree v) : AlwaysFree execution (.ok (push frame execution v)) :=
  alwaysFree_frame rfl rfl (freeStack_cons.2 ⟨hv, hstack⟩)

omit hheld in
theorem alwaysFree_checked (hv : SlotFree v) :
    AlwaysFree execution (.ok (checked v frame execution)) := by
  unfold checked
  split
  · exact @alwaysFree_frame _ _ execution (.throw_ _ frame execution) rfl rfl hstack
  · exact alwaysFree_push hstack hv

omit hheld hstack in
theorem slotFree_resolveAtom [AtomTable] (atom : Operand) (execution : State W) :
    SlotFree (resolveAtom atom execution) := by
  unfold resolveAtom
  split
  · exact .leaf rfl
  · exact .leaf rfl
  · split <;> exact .leaf rfl
  · split
    · split <;> exact .leaf rfl
    · exact .leaf rfl

variable [Value.Platform]

variable {name : Op} {operands : List Operand} {result : Opcode.Local.Compact W}

theorem freeStack_compact
    (h : executeCompact name operands frame.args frame.locals frame.stack execution = .ok result) :
    FreeStack result.stack := by
  have hrest := hstack
  unfold executeCompact at h
  split at h
  case h_1 =>
    obtain ⟨slot, hslot, h⟩ := bind_eq_ok h
    obtain ⟨value, hread, h⟩ := bind_eq_ok h
    cases h
    exact freeStack_cons.2 ⟨slotFree_readArg hheld hslot hread, hstack⟩
  case h_2 heq =>
    rw [heq, freeStack_cons] at hrest
    rw [Interpreter.putArg_stack h]
    exact hrest.2
  case h_3 heq =>
    rw [heq] at hrest
    rw [Interpreter.putArg_stack h]
    exact hrest
  case h_4 =>
    obtain ⟨slot, hslot, h⟩ := bind_eq_ok h
    obtain ⟨value, hread, h⟩ := bind_eq_ok h
    cases h
    exact freeStack_cons.2 ⟨@slotFree_readElem _ _ _ hheld .locals _ _ _ hslot hread, hstack⟩
  case h_5 =>
    obtain ⟨slot, hslot, h⟩ := bind_eq_ok h
    obtain ⟨value, hread, h⟩ := bind_eq_ok h
    obtain ⟨slot', hslot', h⟩ := bind_eq_ok h
    obtain ⟨value', hread', h⟩ := bind_eq_ok h
    cases h
    exact freeStack_cons.2 ⟨@slotFree_readElem _ _ _ hheld .locals _ _ _ hslot hread,
      freeStack_cons.2 ⟨@slotFree_readElem _ _ _ hheld .locals _ _ _ hslot' hread', hstack⟩⟩
  case h_6 =>
    rw [Interpreter.stepLoc_stack h]
    exact hstack
  case h_7 =>
    rw [Interpreter.stepLoc_stack h]
    exact hstack
  case h_8 heq =>
    rw [heq, freeStack_cons] at hrest
    obtain ⟨slot, -, h⟩ := bind_eq_ok h
    obtain ⟨current, -, h⟩ := bind_eq_ok h
    obtain ⟨sum, -, h⟩ := bind_eq_ok h
    rw [Interpreter.putLoc_stack h]
    exact hrest.2
  case h_10 heq =>
    rw [heq] at hrest
    rw [Interpreter.putLoc_stack h]
    exact hrest
  case h_11 =>
    rw [Interpreter.putLoc_stack h]
    exact hstack
  case h_14 => cases h
  all_goals
    rename_i heq
    rw [heq, freeStack_cons] at hrest
    rw [Interpreter.putLoc_stack h]
    exact hrest.2

omit hheld [Value.Platform] in
theorem alwaysFree_instantiate (hanswer : FreeStack (given reply.answer)) {index : ℤ}
    {reference : Value} (hreference : reply.answer = .value reference) :
    AlwaysFree execution (Opcode.Local.execute.instantiate frame execution reply index reference) := by
  unfold Opcode.Local.execute.instantiate
  split
  · intro action h
    obtain ⟨⟨callable, captured, execution'⟩, hcapture, h⟩ := bind_eq_ok h
    rw [hreference] at hanswer
    have hcaptured : FreeStack captured.stack := by
      rw [(Interpreter.captureClosure_sameStack hcapture).1]
      exact hstack
    have hglobals : (State.after execution' reply).globals = execution.globals :=
      (captureClosure_ok hcapture).1.globals
    exact @alwaysFree_frame _ _ execution (push captured _ reference) rfl hglobals
      (freeStack_cons.2 ⟨hanswer reference (List.mem_singleton_self _), hcaptured⟩) action h
  · exact alwaysFree_error _

omit hheld hstack [Value.Platform] in
theorem freeGlobals_writeReference (reference : SlotRef) (hv : SlotFree v) :
    FreeGlobals execution (writeReference reference v execution) := by
  cases reference with
  | cell id => exact .inl rfl
  | global name => exact .inr ⟨name, v, hv, rfl⟩

omit hheld hstack in
theorem slotFree_written (hparsed : ∀ s, SlotFree (Value.Platform.parseNumber s))
    {stack : List Value} (hstack : FreeStack stack) {current v : Value}
    (h : written name stack current = some v) : SlotFree v := by
  have hhead : ∀ {w : Value}, stack.head? = some w → SlotFree w := fun hw =>
    hstack _ (List.mem_of_head? hw)
  unfold written at h
  split at h
  · cases h
    exact .leaf rfl
  · exact computed_unary slotFree_of_isComputed hparsed h
  · exact computed_unary slotFree_of_isComputed hparsed h
  · obtain ⟨right, -, h⟩ := Option.bind_eq_some_iff.1 h
    exact computed_binary slotFree_of_isComputed hparsed h
  · exact hhead h

omit hheld in
theorem freeGlobals_assigns (hparsed : ∀ s, SlotFree (Value.Platform.parseNumber s))
    {execution' : State W} (h : Assigns name operands frame execution frame' execution') :
    FreeGlobals execution execution' := by
  obtain ⟨index, place, target, value, -, -, -, -, hvalue, hwrites⟩ := h
  cases target with
  | slot bank index => exact .inl hwrites.2.globals
  | ref reference =>
    unfold FreeGlobals
    rw [hwrites.2.globals]
    exact freeGlobals_writeReference reference (slotFree_written hparsed hstack hvalue)

theorem alwaysFree_compact (hparsed : ∀ s, SlotFree (Value.Platform.parseNumber s))
    (h : executeCompact name operands frame.args frame.locals frame.stack execution = .ok result) :
    AlwaysFree execution (.ok (.next { frame with
      args := result.args
      locals := result.locals
      stack := result.stack } result.execution)) := by
  intro action haction
  cases haction
  refine ⟨fun frame' hframe' => ?_, ?_⟩
  · cases hframe'
    exact freeStack_compact hheld hstack h
  · rcases compact_effect h (.refl _) with ⟨-, hsame, -⟩ | hassigns
    · exact .inl hsame.globals
    · exact freeGlobals_assigns hstack hparsed hassigns

theorem alwaysFree_local [AtomTable] (hparsed : ∀ s, SlotFree (Value.Platform.parseNumber s))
    (hanswer : FreeStack (given reply.answer)) (name : Op) (operands : List Operand) :
    AlwaysFree execution (Opcode.Local.execute name operands frame execution reply) := by
  have hrest := hstack
  unfold Opcode.Local.execute
  split
  · intro action h
    obtain ⟨result, hcompact, h⟩ := bind_eq_ok h
    exact alwaysFree_compact hheld hstack hparsed hcompact action h
  · rename_i hcompact
    clear hcompact
    split
    · split
      · intro action h
        obtain ⟨reference, -, h⟩ := bind_eq_ok h
        obtain ⟨value, hread, h⟩ := bind_eq_ok h
        have hvalue : SlotFree value := slotFree_readReference hheld hread
        split at h
        · exact alwaysFree_checked hstack hvalue action h
        · exact alwaysFree_push hstack hvalue action h
      · exact alwaysFree_error _
    · rename_i hget
      clear hget
      split
      · split
        · rename_i heq
          rw [heq, freeStack_cons] at hrest
          intro action h
          obtain ⟨reference, -, h⟩ := bind_eq_ok h
          cases h
          refine ⟨fun frame' hframe' => ?_, freeGlobals_writeReference reference hrest.1⟩
          cases hframe'
          exact hrest.2
        · exact alwaysFree_error _
        · exact alwaysFree_error _
      · rename_i hput
        clear hput
        split
        · split
          · rename_i heq
            rw [heq, freeStack_cons] at hrest
            intro action h
            cases h
            refine ⟨fun frame' hframe' => ?_, ?_⟩
            · cases hframe'
              exact hrest.2
            · show FreeGlobals execution (writeGlobal _ _ execution reply)
              unfold writeGlobal
              split
              · exact .inr ⟨_, _, hrest.1, rfl⟩
              · exact .inl rfl
          · exact alwaysFree_error _
          · exact alwaysFree_error _
        · rename_i hglobal
          clear hglobal
          have hpush : ∀ {v : Value} {execution' : State W}, reply.answer = .value v →
              execution'.globals = execution.globals →
              AlwaysFree execution (.ok (push frame execution' v)) := by
            intro v execution' hv hglobals
            rw [hv] at hanswer
            exact alwaysFree_frame rfl hglobals
              (freeStack_cons.2 ⟨hanswer v (List.mem_singleton_self v), hstack⟩)
          split
          case h_1 => exact alwaysFree_push hstack (slotFree_resolveAtom _ _)
          case h_2 first stack array hanswered => exact hpush hanswered rfl
          case h_3 =>
            intro action h
            obtain ⟨slot, hslot, h⟩ := bind_eq_ok h
            obtain ⟨value, hread, h⟩ := bind_eq_ok h
            exact alwaysFree_checked hstack
              (@slotFree_readElem _ _ _ hheld .locals _ _ _ hslot hread) action h
          case h_5 heq =>
            intro action h
            obtain ⟨reference, -, h⟩ := bind_eq_ok h
            cases h
            rw [heq, freeStack_cons] at hrest
            refine ⟨fun frame' hframe' => ?_, freeGlobals_writeReference reference hrest.1⟩
            cases hframe'
            exact hstack
          case h_6 atom stack value hanswered => exact hpush hanswered rfl
          case h_8 atom stack value hanswered => exact hpush hanswered rfl
          case h_9 => exact alwaysFree_push hstack (.leaf rfl)
          case h_12 index stack reference hanswered =>
            exact alwaysFree_instantiate hstack hanswer hanswered
          case h_13 index stack reference hanswered =>
            exact alwaysFree_instantiate hstack hanswer hanswered
          all_goals first
            | exact alwaysFree_error _
            | exact alwaysFree_frame rfl rfl hstack

end Locals

/-- **No instruction puts a cell reference on a stack** that holds none. -/
theorem alwaysFree_execute [Value.Platform] [AtomTable] (hsupplied : Supplied frame reply)
    (hheld : Held frame execution) (name : Op) (operands : List Operand) (arguments : Answer) :
    AlwaysFree execution (Interpreter.execute name operands frame execution arguments reply) := by
  unfold Interpreter.execute
  split
  · exact alwaysFree_control hsupplied name operands
  · split
    · exact alwaysFree_invocation hsupplied.stack name operands arguments
    · split
      · exact alwaysFree_local hheld hsupplied.stack hsupplied.parsed hsupplied.answer name operands
      · split
        · exact alwaysFree_object hsupplied.stack hsupplied.answer hsupplied.callable name operands
        · split
          · exact alwaysFree_stack hsupplied name operands
          · split
            · exact alwaysFree_value hsupplied name operands
            · split
              · exact alwaysFree_frame rfl rfl hsupplied.stack
              · exact alwaysFree_none rfl rfl

end Families

end QuickBeam.Vm.Runtime
