import QuickBeam.Lib.Except
import QuickBeam.Vm.Bytecode.VerifierStack
import QuickBeam.Vm.Runtime.Interpreter

/-!
# The stack effect of an instruction

Whatever an instruction computes, it takes entries from the top of the stack and puts others there,
as many as the opcode table says (`execute_effect`).  The catch markers of a frame are on its
operand stack only (`Contained`), so that no instruction but `catch` makes one up.
-/

namespace QuickBeam.Vm.Runtime.Interpreter

open QuickBeam.Lib QuickBeam.Vm.Bytecode QuickBeam.Vm.Program
open QuickBeam.Vm.Bytecode.Verifier.Stack (variablePops)
open QuickBeam.Vm.Runtime.Opcode.Local (AtomTable)

variable {W : Type}

/-! ### Catch markers -/

def isCatch : Value → Bool
  | .catchMarker _ => true
  | _ => false

def given : Answer → List Value
  | .value v => [v]
  | .values vs => vs
  | .construct constructor_ instance_ => [constructor_, instance_]
  | _ => []

/-- No catch marker is anywhere but on the operand stack: not in the slots of the frame, in a cell,
a global, an iterator or an answer, and no string parses to one. -/
structure Contained [Value.Platform] (frame : Frame) (execution : State W) (reply : Reply W)
    (value : Value) : Prop where
  locals : ∀ v ∈ frame.locals, isCatch v = false
  args : ∀ v ∈ frame.args, isCatch v = false
  constants : ∀ v ∈ frame.function.constants, isCatch v = false
  this : isCatch frame.this = false
  callable : isCatch frame.callable = false
  forIn : ∀ keys index, Value.forIn keys index ∈ frame.stack → ∀ v ∈ keys, isCatch v = false
  forOf : ∀ values index, Value.forOf values index ∈ frame.stack → ∀ v ∈ values, isCatch v = false
  cells : ∀ id v, execution.cells.get? id = some v → isCatch v = false
  globals : ∀ name v, execution.globals.get? name = some v → isCatch v = false
  answer : ∀ v ∈ given reply.answer, isCatch v = false
  value : isCatch value = false
  parsed : ∀ s, isCatch (Value.Platform.parseNumber s) = false

/-! ### Effects -/

/-- The first entries of the stack are taken and others are put there: a catch marker only where
one was taken, as long as the frame is `clean`. -/
def Effect (clean : Prop) (takes puts : ℕ) (stack stack' : List Value) : Prop :=
  ∃ taken put rest, stack = taken ++ rest ∧ stack' = put ++ rest ∧ taken.length = takes ∧
    put.length = puts ∧ ∀ v ∈ put, v ∈ taken ∨ (clean → isCatch v = false)

variable {clean : Prop} {takes puts : ℕ} {stack stack' : List Value}

theorem effect_same (clean : Prop) (stack : List Value) : Effect clean 0 0 stack stack :=
  ⟨[], [], stack, rfl, rfl, rfl, rfl, fun v hv => (by cases hv)⟩

theorem effect_of_drop (htakes : takes ≤ stack.length) (hputs : puts ≤ stack'.length)
    (hdrop : stack'.drop puts = stack.drop takes)
    (hmem : ∀ v ∈ stack'.take puts, v ∈ stack.take takes ∨ (clean → isCatch v = false)) :
    Effect clean takes puts stack stack' := by
  refine ⟨stack.take takes, stack'.take puts, stack.drop takes, (List.take_append_drop ..).symm, ?_,
    List.length_take_of_le htakes, List.length_take_of_le hputs, hmem⟩
  rw [← hdrop, List.take_append_drop]

theorem effect_push {v : Value} (hv : clean → isCatch v = false) :
    Effect clean 0 1 stack (v :: stack) := by
  refine ⟨[], [v], stack, rfl, rfl, rfl, rfl, fun w hw => .inr ?_⟩
  rw [List.mem_singleton.1 hw]
  exact hv

theorem effect_take {taken rest : List Value} (hlength : taken.length = takes) :
    Effect clean takes 0 (taken ++ rest) rest :=
  ⟨taken, [], rest, rfl, rfl, hlength, rfl, fun v hv => (by cases hv)⟩

theorem effect_replace {taken rest : List Value} {v : Value} (hlength : taken.length = takes)
    (hv : clean → isCatch v = false) : Effect clean takes 1 (taken ++ rest) (v :: rest) := by
  refine ⟨taken, [v], rest, rfl, rfl, hlength, rfl, fun w hw => .inr ?_⟩
  rw [List.mem_singleton.1 hw]
  exact hv

/-- An instruction that puts three entries, none of them a catch marker, in place of the top. -/
theorem effect_three {top a b c : Value} {rest : List Value} (ha : isCatch a = false)
    (hb : clean → isCatch b = false) (hc : isCatch c = false) :
    Effect clean 1 3 (top :: rest) (a :: b :: c :: rest) := by
  refine ⟨[top], [a, b, c], rest, rfl, rfl, rfl, rfl, fun v hv => .inr fun hclean => ?_⟩
  rcases List.mem_cons.1 hv with rfl | hv
  · exact ha
  · rcases List.mem_cons.1 hv with rfl | hv
    · exact hb hclean
    · rw [List.mem_singleton.1 hv]
      exact hc

theorem Effect.length (h : Effect clean takes puts stack stack') :
    stack'.length + takes = stack.length + puts := by
  obtain ⟨taken, put, rest, rfl, rfl, htaken, hput, -⟩ := h
  rw [List.length_append, List.length_append]
  omega

/-- Entries of the row that an instruction leaves where they are. -/
def kept : Op → ℕ
  | .setLoc | .setLoc8 | .setLoc0 | .setLoc1 | .setLoc2 | .setLoc3 | .setArg | .setArg0 | .setArg1
  | .setArg2 | .setArg3 | .setVarRef | .setVarRef0 | .setVarRef1 | .setVarRef2 | .setVarRef3
  | .toObject | .toPropkey | .setName | .getField2 | .postInc | .postDec | .definePrivateField
  | .defineField | .defineMethod | .defineMethodComputed | .defineClassComputed | .append => 1
  | .toPropkey2 | .setHomeObject | .checkBrand | .setNameComputed | .defineArrayEl => 2
  | .copyDataProperties | .forOfNext => 3
  | _ => 0

/-- How many entries an instruction takes. -/
def taking (name : Op) (operands : List Operand) : ℕ :=
  name.row.pops - kept name + (variablePops name.row.format operands).toNat

/-- How many entries an instruction puts. -/
def putting (name : Op) : ℕ := name.row.pushes - kept name

/-- The frame after an instruction that goes on with the next one. -/
structure Stepped (clean : Prop) (name : Op) (operands : List Operand) (frame frame' : Frame) :
    Prop where
  pc : frame'.pc = frame.pc + 1
  effect : Effect clean (taking name operands) (putting name) frame.stack frame'.stack

/-! ### Literals and shuffles -/

theorem isCatch_enumAt {list : List Value} (h : ∀ v ∈ list, isCatch v = false) (index : ℤ) :
    isCatch (enumAt list index) = false := by
  have hgetD : ∀ i : ℕ, isCatch (list.getD i .null) = false := by
    intro i
    rw [List.getD_eq_getElem?_getD]
    cases hi : list[i]? with
    | none => rfl
    | some v => exact h v (List.mem_of_getElem? hi)
  unfold enumAt
  split
  · exact hgetD _
  · split
    · exact hgetD _
    · rfl

theorem transform_effect {name : Op} {operands : List Operand} {constants : List Value}
    {this : Value} (hthis : clean → isCatch this = false)
    (hconstants : clean → ∀ v ∈ constants, isCatch v = false)
    (h : Opcode.Stack.transform name operands stack this constants = some stack') :
    Effect clean (taking name operands) (putting name) stack stack' := by
  unfold Opcode.Stack.transform at h
  split at h
  all_goals first
    | cases h
      exact effect_push fun _ => rfl
    | cases h
      exact effect_push hthis
    | cases h
      exact effect_push fun hclean => isCatch_enumAt (hconstants hclean) _
    | cases h
      refine effect_of_drop ?_ ?_ rfl ?_ <;> simp [taking, putting, kept, Op.row, variablePops]
    | cases h

/-! ### Values that are computed -/

/-- The values that an operator makes. -/
def isComputed : Value → Bool
  | .undefined | .null | .bool _ | .int _ | .float _ | .nan | .infinity | .negInfinity | .string _
  | .bigint _ => true
  | _ => false

theorem isCatch_of_isComputed (v : Value) (h : isComputed v = true) : isCatch v = false := by
  cases v <;> first | rfl | cases h

section Computed

variable {P : Value → Prop} (hP : ∀ v, isComputed v = true → P v)

include hP

theorem computed_signedInfinity (neg : Bool) : P (Value.signedInfinity neg) := by
  cases neg <;> exact hP _ rfl

variable {a b v : Value}

theorem computed_arith {onInts : ℤ → ℤ → ℤ} {onDoubles : Double → Double → Option Double}
    (h : Value.arith onInts onDoubles a b = some v) : P v := by
  unfold Value.arith at h
  split at h
  · cases h
    exact hP _ rfl
  · obtain ⟨x, -, h⟩ := Option.bind_eq_some_iff.1 h
    obtain ⟨y, -, h⟩ := Option.bind_eq_some_iff.1 h
    obtain ⟨z, -, rfl⟩ := Option.map_eq_some_iff.1 h
    exact hP _ rfl

theorem computed_addNumbers (h : Value.addNumbers a b = some v) : P v := by
  unfold Value.addNumbers at h
  split at h
  all_goals first
    | cases h
      exact hP _ rfl
    | exact computed_arith hP h

theorem computed_negateNumber (hv : P v) : P v.negateNumber := by
  unfold Value.negateNumber
  split
  all_goals first
    | exact hP _ rfl
    | skip
  split
  · exact hP _ rfl
  · unfold Value.minusOf
    split
    · exact hP _ rfl
    · exact hP _ rfl
    · exact hv

theorem computed_quotient (h : Value.quotient a b = some v) : P v := by
  obtain ⟨x, -, h⟩ := Option.bind_eq_some_iff.1 h
  obtain ⟨y, -, h⟩ := Option.bind_eq_some_iff.1 h
  obtain ⟨z, -, rfl⟩ := Option.map_eq_some_iff.1 h
  exact hP _ rfl

theorem computed_fmod (h : Value.fmod a b = some v) : P v := by
  obtain ⟨x, -, h⟩ := Option.bind_eq_some_iff.1 h
  obtain ⟨y, -, h⟩ := Option.bind_eq_some_iff.1 h
  obtain ⟨z, -, rfl⟩ := Option.map_eq_some_iff.1 h
  exact hP _ rfl

variable [Value.Platform]

theorem computed_toNumber (hparsed : ∀ s, P (Value.Platform.parseNumber s))
    (v : Value) : P v.toNumber := by
  unfold Value.toNumber
  split
  all_goals first
    | exact hP _ rfl
    | skip
  split
  · exact hP _ rfl
  · exact hparsed _

theorem computed_add (h : Value.add a b = some v) : P v := by
  unfold Value.add at h
  split at h
  all_goals first
    | cases h
      exact hP _ rfl
    | exact computed_addNumbers hP h

theorem computed_multiply (h : Value.multiply a b = some v) : P v := by
  unfold Value.multiply Value.multiplyNumbers at h
  split at h
  · cases h
    exact hP _ rfl
  · cases h
    exact hP _ rfl
  · split at h
    · split at h
      · cases h
        exact hP _ rfl
      · cases h
        exact computed_signedInfinity hP _
    · exact computed_arith hP h

theorem computed_divide (h : Value.divide a b = some v) : P v := by
  unfold Value.divide Value.divideNumbers at h
  split at h
  · cases h
    exact hP _ rfl
  · cases h
    exact hP _ rfl
  · split at h
    · cases h
      exact hP _ rfl
    · split at h
      · cases h
        exact computed_signedInfinity hP _
      · split at h
        · cases h
          exact hP _ rfl
        · split at h
          · cases h
            exact hP _ rfl
          · split at h
            · cases h
              exact computed_signedInfinity hP _
            · exact computed_quotient hP h

theorem computed_modulo (hparsed : ∀ s, P (Value.Platform.parseNumber s))
    (h : Value.modulo a b = some v) : P v := by
  have ha := computed_toNumber hP hparsed a
  unfold Value.modulo at h
  generalize a.toNumber = dividend at h ha
  unfold Value.remainder at h
  split at h
  · cases h
    exact hP _ rfl
  · cases h
    exact hP _ rfl
  · split at h
    · cases h
      exact hP _ rfl
    · split at h
      · cases h
        exact hP _ rfl
      · split at h
        · cases h
          exact ha
        · split at h
          · split at h
            · cases h
              exact hP _ rfl
            · cases h
              exact hP _ rfl
          · exact computed_fmod hP h

theorem computed_power (a b : Value) : P (Value.power a b) := by
  have hgetD : ∀ x : Option Double, P ((x.map Value.float).getD .nan) := by
    intro x
    cases x <;> exact hP _ rfl
  have hinfinite : ∀ (base : Value) (positive : Bool),
      P (Value.powerInfiniteExponent base positive) := by
    intro base positive
    unfold Value.powerInfiniteExponent
    split <;> exact hP _ rfl
  unfold Value.power Value.powerNumbers
  split
  · exact hgetD _
  · split
    · exact hP _ rfl
    · exact hP _ rfl
    · exact hinfinite _ _
    · exact hinfinite _ _
    · split
      · split
        · exact computed_signedInfinity hP _
        · exact hP _ rfl
      · split
        · exact computed_signedInfinity hP _
        · split
          · exact hgetD _
          · exact hP _ rfl

variable {name : Op}

theorem computed_unary (hparsed : ∀ s, P (Value.Platform.parseNumber s))
    (h : Value.unary name a = some v) : P v := by
  unfold Value.unary at h
  split at h
  · cases h
    exact computed_negateNumber hP (computed_toNumber hP hparsed a)
  · cases h
    exact computed_toNumber hP hparsed a
  · cases h
    exact hP _ rfl
  · cases h
    exact hP _ rfl
  · exact computed_add hP h
  · exact computed_addNumbers hP h
  all_goals
    cases h
    try exact hP _ rfl

theorem computed_binary (hparsed : ∀ s, P (Value.Platform.parseNumber s))
    (h : Value.binary name a b = some v) : P v := by
  unfold Value.binary at h
  split at h
  · exact computed_add hP h
  · exact computed_addNumbers hP h
  · exact computed_multiply hP h
  · exact computed_divide hP h
  · exact computed_modulo hP hparsed h
  · cases h
    exact computed_power hP a b
  all_goals
    cases h
    try exact hP _ rfl

omit hP

/-- **No unary operation gives a catch marker.** -/
theorem isCatch_unary (hparsed : ∀ s, isCatch (Value.Platform.parseNumber s) = false)
    (h : Value.unary name a = some v) : isCatch v = false :=
  computed_unary (P := fun v => isCatch v = false) isCatch_of_isComputed hparsed h

/-- **No binary operation gives a catch marker.** -/
theorem isCatch_binary (hparsed : ∀ s, isCatch (Value.Platform.parseNumber s) = false)
    (h : Value.binary name a b = some v) : isCatch v = false :=
  computed_binary (P := fun v => isCatch v = false) isCatch_of_isComputed hparsed h

end Computed

end QuickBeam.Vm.Runtime.Interpreter
