import QuickBeam.Vm.Runtime.StackEffect

/-!
# The stack effect of every instruction

One lemma for each family of instructions, over what its definitions give: an instruction that goes
on with the next one takes and puts what its row says (`execute_stepped`).  The instructions that
put a marker, branch, or replace the iterator of a loop have their own lemmas.
-/

namespace QuickBeam.Vm.Runtime.Interpreter

open QuickBeam.Lib QuickBeam.Vm.Bytecode QuickBeam.Vm.Program
open QuickBeam.Vm.Bytecode.Verifier.Stack (kind variablePops)
open QuickBeam.Vm.Runtime.Opcode.Local (AtomTable)

variable {W : Type} {name : Op} {operands : List Operand} {frame frame' : Frame}
  {execution : State W} {reply : Reply W} {value : Value} {action : Action W} {clean : Prop}

/-! ### Actions -/

theorem stepped_same (htaking : taking name operands = 0) (hputting : putting name = 0)
    (hdone : Completed value (.next frame execution) frame') :
    Stepped clean name operands frame frame' := by
  cases hdone
  refine ⟨rfl, ?_⟩
  rw [htaking, hputting]
  exact effect_same _ _

theorem stepped_next {stack : List Value}
    (heffect : Effect clean (taking name operands) (putting name) frame.stack stack)
    (hdone : Completed value (.next { frame with stack := stack } execution) frame') :
    Stepped clean name operands frame frame' := by
  cases hdone
  exact ⟨rfl, heffect⟩

/-! ### Slots and atoms -/

section Slots

open Opcode.Local

variable {index : ℤ} {v : Value}

theorem mem_of_elem {tuple : List Value} (h : elem tuple index = .ok v) : v ∈ tuple := by
  unfold elem at h
  split at h
  · split at h
    · rename_i hget
      cases h
      exact List.mem_of_getElem? hget
    · cases h
  · cases h

theorem isCatch_resolveAtom [AtomTable] (atom : Operand) (execution : State W) :
    isCatch (resolveAtom atom execution) = false := by
  unfold resolveAtom
  split
  · rfl
  · rfl
  · split <;> rfl
  · split
    · split <;> rfl
    · rfl

/-! ### Closures -/

/-- A capture changes the slots of a frame only. -/
def SameStack (frame frame' : Frame) : Prop := frame'.stack = frame.stack ∧ frame'.pc = frame.pc

variable {captured : Frame} {execution' : State W}

theorem captureReference_sameStack {closureVar : Closure} {reference : SlotRef}
    (h : captureReference closureVar frame execution = .ok (reference, captured, execution')) :
    SameStack frame captured := by
  unfold captureReference at h
  split at h
  · obtain ⟨promoted, -, h⟩ := bind_eq_ok h
    cases h
    exact ⟨rfl, rfl⟩
  · obtain ⟨promoted, -, h⟩ := bind_eq_ok h
    cases h
    exact ⟨rfl, rfl⟩
  · split at h
    · cases h
      exact ⟨rfl, rfl⟩
    · cases h
  · cases h
    exact ⟨rfl, rfl⟩

theorem captureReferences_sameStack {closureVars : List Closure} :
    ∀ {frame captured : Frame} {execution execution' : State W} {references : List SlotRef},
      captureReferences closureVars frame execution = .ok (references, captured, execution') →
      SameStack frame captured := by
  induction closureVars with
  | nil =>
    intro frame captured execution execution' references h
    cases h
    exact ⟨rfl, rfl⟩
  | cons closureVar rest ih =>
    intro frame captured execution execution' references h
    obtain ⟨⟨reference, next, execution₁⟩, hone, h⟩ := bind_eq_ok h
    obtain ⟨⟨others, last, execution₂⟩, hrest, h⟩ := bind_eq_ok h
    cases h
    have hfirst := captureReference_sameStack hone
    have hlast := ih hrest
    exact ⟨hlast.1.trans hfirst.1, hlast.2.trans hfirst.2⟩

theorem captureClosure_sameStack {function : Function} {callable : Value}
    (h : captureClosure function frame execution = .ok (callable, captured, execution')) :
    SameStack frame captured := by
  unfold captureClosure at h
  split at h
  · cases h
    exact ⟨rfl, rfl⟩
  · obtain ⟨⟨references, last, execution₁⟩, hrefs, h⟩ := bind_eq_ok h
    cases h
    exact captureReferences_sameStack hrefs

/-! ### Pushes and writes -/

theorem stepped_push (hv : clean → isCatch v = false) (htaking : taking name operands = 0)
    (hputting : putting name = 1)
    (hdone : Completed value (Opcode.Local.push frame execution v) frame') :
    Stepped clean name operands frame frame' := by
  refine stepped_next ?_ hdone
  rw [htaking, hputting]
  exact effect_push hv

theorem stepped_checked (hv : clean → isCatch v = false) (htaking : taking name operands = 0)
    (hputting : putting name = 1) (hdone : Completed value (checked v frame execution) frame') :
    Stepped clean name operands frame frame' := by
  unfold checked at hdone
  split at hdone
  · cases hdone
  · exact stepped_push hv htaking hputting hdone

theorem taking_getReference : ∀ name ∈ getReferenceOps, ∀ index,
    taking name [.int index] = 0 ∧ putting name = 1 := by
  intro name h index
  fin_cases h <;> exact ⟨rfl, rfl⟩

theorem taking_putReference : ∀ name ∈ putReferenceOps, ∀ index,
    taking name [.int index] = 1 ∧ putting name = 0 := by
  intro name h index
  fin_cases h <;> exact ⟨rfl, rfl⟩

theorem taking_putGlobal : ∀ name ∈ putGlobalOps, ∀ operands,
    taking name operands = 1 ∧ putting name = 0 := by
  intro name h operands
  fin_cases h <;> exact ⟨rfl, rfl⟩

variable {result : Opcode.Local.Compact W}

theorem putArg_stack {args locals stack : List Value}
    (h : putArg index v args locals stack execution = .ok result) : result.stack = stack := by
  obtain ⟨written, -, h⟩ := bind_eq_ok h
  cases h
  rfl

theorem putLoc_stack {args locals stack : List Value}
    (h : putLoc index v args locals stack execution = .ok result) : result.stack = stack := by
  obtain ⟨written, -, h⟩ := bind_eq_ok h
  cases h
  rfl

end Slots

/-! ### Values -/

variable {rest : List Value}

theorem stepped_nextWith {result : Option Value}
    (hresult : ∀ v, result = some v → Effect clean (taking name operands) (putting name)
    frame.stack (v :: rest)) (h : Opcode.Value.nextWith frame execution rest result = .ok action)
    (hdone : Completed value action frame') : Stepped clean name operands frame frame' := by
  cases result with
  | none => cases h
  | some v =>
    cases h
    exact stepped_next (hresult v rfl) hdone

theorem taking_binary : ∀ name ∈ Opcode.Value.binaryOperations,
    taking name [] = 2 ∧ putting name = 1 := by decide

theorem taking_unary : ∀ name ∈ Opcode.Value.unaryOperations,
    taking name [] = 1 ∧ putting name = 1 := by decide

variable [Value.Platform]

theorem Contained.given_value (hcontained : Contained frame execution reply value) {v : Value}
    (h : reply.answer = .value v) : isCatch v = false :=
  hcontained.answer v (by rw [h]; exact List.mem_singleton_self v)

theorem value_stepped (hclean : clean → Contained frame execution reply value)
    (h : Opcode.Value.execute name operands frame execution reply.answer = .ok action)
    (hdone : Completed value action frame') : Stepped clean name operands frame frame' := by
  unfold Opcode.Value.execute at h
  split at h
  case isTrue hbinary =>
    split at h
    · rename_i right left rest hstack
      obtain ⟨htaking, hputting⟩ := taking_binary name hbinary
      refine stepped_nextWith (fun v hv => ?_) h hdone
      rw [htaking, hputting, hstack]
      exact @effect_replace _ _ [right, left] _ _ rfl fun hc => isCatch_binary (hclean hc).parsed hv
    · cases h
  case isFalse hbinary =>
    split at h
    case isTrue hunary =>
      split at h
      · rename_i top rest hstack
        obtain ⟨htaking, hputting⟩ := taking_unary name hunary
        refine stepped_nextWith (fun v hv => ?_) h hdone
        rw [htaking, hputting, hstack]
        exact @effect_replace _ _ [top] _ _ rfl fun hc => isCatch_unary (hclean hc).parsed hv
      · cases h
    case isFalse hunary =>
      clear hbinary hunary
      split at h
      case h_1 top rest hstack =>
        refine stepped_nextWith (fun v hv => ?_) h hdone
        rw [hstack]
        exact effect_push fun hc => isCatch_unary (hclean hc).parsed hv
      case h_2 top rest hstack =>
        refine stepped_nextWith (fun v hv => ?_) h hdone
        rw [hstack]
        exact effect_push fun hc => isCatch_unary (hclean hc).parsed hv
      case h_3 =>
        cases h
        exact stepped_same rfl rfl hdone
      case h_4 =>
        split at h
        · cases h
          cases hdone
        · cases h
          exact stepped_same rfl rfl hdone
      case h_5 =>
        cases h
        exact stepped_same rfl rfl hdone
      case h_6 =>
        split at h
        · cases h
          cases hdone
        · cases h
          exact stepped_same rfl rfl hdone
      case h_7 =>
        cases h
        exact stepped_same rfl rfl hdone
      case h_8 top rest type hstack hanswer =>
        cases h
        refine stepped_next ?_ hdone
        rw [hstack]
        exact @effect_replace _ _ [top] _ _ rfl fun hc => (hclean hc).given_value hanswer
      case h_9 top rest callable hstack hanswer =>
        cases h
        refine stepped_next ?_ hdone
        rw [hstack]
        exact @effect_replace _ _ [top] _ _ rfl fun hc => (hclean hc).given_value hanswer
      case h_10 top rest hstack =>
        refine stepped_nextWith (fun v hv => ?_) h hdone
        rw [hstack]
        exact @effect_replace _ _ [top] _ _ rfl fun hc => isCatch_unary (hclean hc).parsed hv
      case h_11 object key rest result hstack hanswer =>
        cases h
        refine stepped_next ?_ hdone
        rw [hstack]
        exact @effect_replace _ _ [object, key] _ _ rfl fun hc => (hclean hc).given_value hanswer
      case h_12 constructor_ object rest result hstack hanswer =>
        cases h
        refine stepped_next ?_ hdone
        rw [hstack]
        exact @effect_replace _ _ [constructor_, object] _ _ rfl fun hc =>
          (hclean hc).given_value hanswer
      case h_13 =>
        cases h
        cases hdone
      all_goals cases h

/-! ### Locals -/

section Local

open Opcode.Local

variable {v : Value}

theorem Contained.readReference (hcontained : Contained frame execution reply value)
    {reference : SlotRef} (h : readReference reference execution = .ok v) : isCatch v = false := by
  unfold Opcode.Local.readReference at h
  split at h
  · split at h
    · rename_i hget
      cases h
      exact hcontained.cells _ _ hget
    · cases h
  · cases h
    rename_i global
    cases hget : execution.globals.get? global with
    | none => rfl
    | some v => exact hcontained.globals _ _ hget

theorem Contained.readSlot (hcontained : Contained frame execution reply value) {slot v : Value}
    (hslot : isCatch slot = false) (h : readSlot slot execution = .ok v) : isCatch v = false := by
  unfold Opcode.Local.readSlot at h
  split at h
  · exact hcontained.readReference h
  · cases h
    exact hslot

variable {index : ℤ}

theorem Contained.readLocal (hcontained : Contained frame execution reply value) {slot v : Value}
    (helem : elem frame.locals index = .ok slot)
    (h : Opcode.Local.readSlot slot execution = .ok v) : isCatch v = false :=
  hcontained.readSlot (hcontained.locals slot (mem_of_elem helem)) h

theorem Contained.readArg (hcontained : Contained frame execution reply value) {slot v : Value}
    (hget : tupleGet frame.args index = .ok slot)
    (h : Opcode.Local.readSlot slot execution = .ok v) : isCatch v = false := by
  refine hcontained.readSlot ?_ h
  unfold tupleGet at hget
  split at hget
  · exact hcontained.args slot (mem_of_elem hget)
  · cases hget
    rfl

variable {result : Opcode.Local.Compact W}

theorem stepLoc_stack {operation : Op} {args locals stack : List Value}
    (h : stepLoc operation index args locals stack execution = .ok result) :
    result.stack = stack := by
  obtain ⟨slot, -, h⟩ := bind_eq_ok h
  obtain ⟨current, -, h⟩ := bind_eq_ok h
  obtain ⟨computed, -, h⟩ := bind_eq_ok h
  exact putLoc_stack h

theorem executeCompact_effect (hclean : clean → Contained frame execution reply value)
    (h : executeCompact name operands frame.args frame.locals frame.stack execution = .ok result) :
    Effect clean (taking name operands) (putting name) frame.stack result.stack := by
  unfold executeCompact at h
  split at h
  case h_1 index =>
    obtain ⟨slot, hslot, h⟩ := bind_eq_ok h
    obtain ⟨v, hv, h⟩ := bind_eq_ok h
    cases h
    exact effect_push fun hc => (hclean hc).readArg hslot hv
  case h_2 index v rest hstack =>
    rw [putArg_stack h, hstack]
    exact @effect_take _ _ [v] _ rfl
  case h_3 index v rest hstack =>
    rw [putArg_stack h, hstack]
    exact effect_same _ _
  case h_4 index =>
    obtain ⟨slot, hslot, h⟩ := bind_eq_ok h
    obtain ⟨v, hv, h⟩ := bind_eq_ok h
    cases h
    exact effect_push fun hc => (hclean hc).readLocal hslot hv
  case h_5 first second =>
    obtain ⟨slot, hslot, h⟩ := bind_eq_ok h
    obtain ⟨v, hv, h⟩ := bind_eq_ok h
    obtain ⟨slot', hslot', h⟩ := bind_eq_ok h
    obtain ⟨v', hv', h⟩ := bind_eq_ok h
    cases h
    refine ⟨[], [v, v'], frame.stack, rfl, rfl, rfl, rfl, fun w hw => .inr fun hc => ?_⟩
    rcases List.mem_cons.1 hw with rfl | hw
    · exact (hclean hc).readLocal hslot hv
    · rw [List.mem_singleton.1 hw]
      exact (hclean hc).readLocal hslot' hv'
  case h_6 index =>
    rw [stepLoc_stack h]
    exact effect_same _ _
  case h_7 index =>
    rw [stepLoc_stack h]
    exact effect_same _ _
  case h_8 index v rest hstack =>
    obtain ⟨slot, -, h⟩ := bind_eq_ok h
    obtain ⟨current, -, h⟩ := bind_eq_ok h
    obtain ⟨sum, -, h⟩ := bind_eq_ok h
    rw [putLoc_stack h, hstack]
    exact @effect_take _ _ [v] _ rfl
  case h_9 index v rest hstack =>
    rw [putLoc_stack h, hstack]
    exact @effect_take _ _ [v] _ rfl
  case h_10 index v rest hstack =>
    rw [putLoc_stack h, hstack]
    exact effect_same _ _
  case h_11 index =>
    rw [putLoc_stack h]
    exact effect_same _ _
  case h_12 index v rest hstack =>
    rw [putLoc_stack h, hstack]
    exact @effect_take _ _ [v] _ rfl
  case h_13 index v rest hstack =>
    rw [putLoc_stack h, hstack]
    exact @effect_take _ _ [v] _ rfl
  case h_14 => cases h

/-! ### Local instructions -/

theorem instantiate_stepped (hclean : clean → Contained frame execution reply value)
    (htaking : taking name operands = 0) (hputting : putting name = 1) {reference : Value}
    (hanswer : reply.answer = .value reference)
    (h : Opcode.Local.execute.instantiate frame execution reply index reference = .ok action)
    (hdone : Completed value action frame') : Stepped clean name operands frame frame' := by
  unfold Opcode.Local.execute.instantiate at h
  split at h
  · obtain ⟨⟨callable, captured, execution'⟩, hcapture, h⟩ := bind_eq_ok h
    obtain ⟨hstack, hpc⟩ := captureClosure_sameStack hcapture
    cases h
    cases hdone
    refine ⟨congrArg (· + 1) hpc, ?_⟩
    show Effect clean _ _ frame.stack (reference :: captured.stack)
    rw [htaking, hputting, hstack]
    exact effect_push fun hc => (hclean hc).given_value hanswer
  · cases h

theorem local_stepped [AtomTable] (hclean : clean → Contained frame execution reply value)
    (h : Opcode.Local.execute name operands frame execution reply = .ok action)
    (hdone : Completed value action frame') : Stepped clean name operands frame frame' := by
  unfold Opcode.Local.execute at h
  split at h
  case isTrue =>
    obtain ⟨result, hcompact, h⟩ := bind_eq_ok h
    cases h
    cases hdone
    exact ⟨rfl, executeCompact_effect hclean hcompact⟩
  case isFalse hcompact =>
    split at h
    case isTrue hget =>
      split at h
      case h_1 index =>
        obtain ⟨reference, hreference, h⟩ := bind_eq_ok h
        obtain ⟨v, hv, h⟩ := bind_eq_ok h
        obtain ⟨htaking, hputting⟩ := taking_getReference name hget index
        have hvalue : clean → isCatch v = false := fun hc => (hclean hc).readReference hv
        cases h
        split at hdone
        · exact stepped_checked hvalue htaking hputting hdone
        · exact stepped_push hvalue htaking hputting hdone
      case h_2 => cases h
    case isFalse hget =>
      split at h
      case isTrue hput =>
        split at h
        case h_1 index v rest hstack =>
          obtain ⟨reference, -, h⟩ := bind_eq_ok h
          cases h
          obtain ⟨htaking, hputting⟩ := taking_putReference name hput index
          refine stepped_next ?_ hdone
          rw [htaking, hputting, hstack]
          exact @effect_take _ _ [v] _ rfl
        case h_2 => cases h
        case h_3 => cases h
      case isFalse hput =>
        split at h
        case isTrue hglobal =>
          split at h
          case h_1 atom others v rest hstack =>
            obtain ⟨htaking, hputting⟩ := taking_putGlobal name hglobal (atom :: others)
            cases h
            refine stepped_next ?_ hdone
            rw [htaking, hputting, hstack]
            exact @effect_take _ _ [v] _ rfl
          case h_2 => cases h
          case h_3 => cases h
        case isFalse hglobal =>
          clear hcompact hget hput hglobal
          split at h
          case h_1 atom =>
            cases h
            exact stepped_push (fun _ => isCatch_resolveAtom atom execution) rfl rfl hdone
          case h_2 first array hanswer =>
            cases h
            exact stepped_push (fun hc => (hclean hc).given_value hanswer) rfl rfl hdone
          case h_3 index =>
            obtain ⟨slot, hslot, h⟩ := bind_eq_ok h
            obtain ⟨v, hv, h⟩ := bind_eq_ok h
            cases h
            exact stepped_checked (fun hc => (hclean hc).readLocal hslot hv) rfl rfl hdone
          case h_4 =>
            cases h
            exact stepped_same rfl rfl hdone
          case h_5 index v rest hstack =>
            obtain ⟨reference, -, h⟩ := bind_eq_ok h
            cases h
            exact stepped_same rfl rfl hdone
          case h_6 atom v hanswer =>
            cases h
            exact stepped_push (fun hc => (hclean hc).given_value hanswer) rfl rfl hdone
          case h_7 =>
            cases h
            cases hdone
          case h_8 atom v hanswer =>
            cases h
            exact stepped_push (fun hc => (hclean hc).given_value hanswer) rfl rfl hdone
          case h_9 =>
            cases h
            exact stepped_push (fun _ => rfl) rfl rfl hdone
          case h_10 =>
            cases h
            exact stepped_same rfl rfl hdone
          case h_11 =>
            cases h
            exact stepped_same rfl rfl hdone
          case h_12 index reference hanswer =>
            exact instantiate_stepped hclean rfl rfl hanswer h hdone
          case h_13 index reference hanswer =>
            exact instantiate_stepped hclean rfl rfl hanswer h hdone
          case h_14 => cases h
          case h_15 => cases h

end Local

/-! ### Objects -/

section Object

open Opcode.Object

variable {rest : List Value}

theorem pushing_stepped (taken : List Value)
    (hclean : clean → Contained frame execution reply value)
    (hstack : frame.stack = taken ++ rest) (htaking : taking name operands = taken.length)
    (hputting : putting name = 1) (h : pushing rest frame execution reply = .ok action)
    (hdone : Completed value action frame') : Stepped clean name operands frame frame' := by
  unfold pushing at h
  split at h
  · rename_i v hanswer
    cases h
    refine stepped_next ?_ hdone
    rw [hstack, htaking, hputting]
    exact effect_replace rfl fun hc => (hclean hc).given_value hanswer
  · cases h
    cases hdone
  · cases h

omit [Value.Platform] in
theorem done_stepped (taken : List Value) (hstack : frame.stack = taken ++ rest)
    (htaking : taking name operands = taken.length) (hputting : putting name = 0)
    (h : done rest frame execution reply = .ok action) (hdone : Completed value action frame') :
    Stepped clean name operands frame frame' := by
  unfold done at h
  split at h
  · cases h
    refine stepped_next ?_ hdone
    rw [hstack, htaking, hputting]
    exact effect_take rfl
  · cases h
    cases hdone
  · cases h

theorem get_stepped (taken : List Value) (hclean : clean → Contained frame execution reply value)
    (hstack : frame.stack = taken ++ rest) (htaking : taking name operands = taken.length)
    (hputting : putting name = 1) (h : Opcode.Object.get rest frame execution reply = .ok action)
    (hdone : Completed value action frame') : Stepped clean name operands frame frame' := by
  unfold Opcode.Object.get at h
  split at h
  · cases h
    cases hdone
    refine ⟨rfl, ?_⟩
    rw [hstack, htaking, hputting]
    exact effect_replace rfl fun hc => (hclean hc).value
  · rename_i v hanswer
    cases h
    refine stepped_next ?_ hdone
    rw [hstack, htaking, hputting]
    exact effect_replace rfl fun hc => (hclean hc).given_value hanswer
  · cases h
    cases hdone
  · cases h

omit [Value.Platform] in
theorem put_stepped (taken : List Value) {object stored : Value}
    (hstack : frame.stack = taken ++ rest) (htaking : taking name operands = taken.length)
    (hputting : putting name = 0)
    (h : Opcode.Object.put object stored rest frame execution reply = .ok action)
    (hdone : Completed value action frame') : Stepped clean name operands frame frame' := by
  unfold Opcode.Object.put at h
  split at h
  · cases h
    refine stepped_next ?_ hdone
    rw [hstack, htaking, hputting]
    exact effect_take rfl
  · cases h
    cases hdone
    refine ⟨rfl, ?_⟩
    rw [hstack, htaking, hputting]
    exact effect_take rfl
  · cases h
    cases hdone
  · cases h

theorem private_stepped (hclean : clean → Contained frame execution reply value)
    (h : executePrivate name operands frame execution reply = .ok action)
    (hdone : Completed value action frame') : Stepped clean name operands frame frame' := by
  unfold executePrivate at h
  split at h
  case h_1 => exact pushing_stepped [] hclean rfl rfl rfl h hdone
  case h_2 object rest hstack =>
    exact pushing_stepped [.reference object] hclean hstack rfl rfl h hdone
  case h_3 key object rest hstack =>
    exact pushing_stepped [.symbol key, .reference object] hclean hstack rfl rfl h hdone
  case h_4 key stored object rest hstack =>
    exact done_stepped [.symbol key, stored, .reference object] hstack rfl rfl h hdone
  case h_5 stored key object rest hstack =>
    exact done_stepped [stored, .symbol key] hstack rfl rfl h hdone
  case h_6 function home rest hstack => exact done_stepped [] hstack rfl rfl h hdone
  case h_7 function object rest hstack =>
    split at h
    · exact done_stepped [.reference function, object] hstack rfl rfl h hdone
    · cases h
  case h_8 function object rest hstack => exact done_stepped [] hstack rfl rfl h hdone
  case h_9 => cases h

omit [Value.Platform] in
theorem instantiateClassConstructor_sameStack {constructor_ : Value} {captured : Frame}
    {execution' : State W}
    (h : instantiateClassConstructor constructor_ frame execution = .ok (captured, execution')) :
    SameStack frame captured := by
  unfold instantiateClassConstructor at h
  split at h
  · obtain ⟨⟨callable, last, execution₁⟩, hcapture, h⟩ := bind_eq_ok h
    cases h
    exact captureClosure_sameStack hcapture
  · cases h
    exact ⟨rfl, rfl⟩
  · cases h

theorem defineClass_stepped (hclean : clean → Contained frame execution reply value)
    {constructor_ parent : Value} (hstack : frame.stack = constructor_ :: parent :: rest)
    (htaking : taking name operands = 2) (hputting : putting name = 2)
    (h : defineClass constructor_ rest frame execution reply = .ok action)
    (hdone : Completed value action frame') : Stepped clean name operands frame frame' := by
  obtain ⟨⟨captured, execution'⟩, hcapture, h⟩ := bind_eq_ok h
  obtain ⟨-, hpc⟩ := instantiateClassConstructor_sameStack hcapture
  dsimp only at h
  split at h
  · rename_i class_ prototype hanswer
    cases h
    cases hdone
    refine ⟨congrArg (· + 1) hpc, ?_⟩
    rw [hstack, htaking, hputting]
    refine ⟨[constructor_, parent], [prototype, class_], rest, rfl, rfl, rfl, rfl, fun v hv =>
      .inr fun hc => (hclean hc).answer v ?_⟩
    rw [hanswer]
    rcases List.mem_cons.1 hv with rfl | hv
    · exact List.mem_cons_of_mem _ (List.mem_singleton_self _)
    · rw [List.mem_singleton.1 hv]
      exact List.mem_cons_self
  · cases h
    cases hdone
  · cases h

omit [Value.Platform] in
theorem enumSplit_eq (list : List Value) (count : ℤ) :
    (enumSplit list count).1 ++ (enumSplit list count).2 = list := by
  unfold enumSplit
  split <;> rw [List.splitAt_eq] <;> exact List.take_append_drop _ _

omit [Value.Platform] in
theorem length_enumSplit {list : List Value} {count : ℤ} (hcount : 0 ≤ count) :
    (enumSplit list count).1.length = min count.toNat list.length := by
  unfold enumSplit
  rw [if_pos hcount, List.splitAt_eq]
  exact List.length_take

theorem construction_stepped (hclean : clean → Contained frame execution reply value)
    (hcount : 0 ≤ variablePops name.row.format operands)
    (henough : taking name operands ≤ frame.stack.length)
    (h : executeConstruction name operands frame execution reply = .ok action)
    (hdone : Completed value action frame') : Stepped clean name operands frame frame' := by
  unfold executeConstruction at h
  split at h
  case h_1 bytecode source rest hstack =>
    exact pushing_stepped [bytecode, source] hclean hstack rfl rfl h hdone
  case h_2 type =>
    unfold specialObject at h
    split at h
    · cases h
      exact stepped_next (effect_push fun hc => (hclean hc).callable) hdone
    · split at h
      · exact pushing_stepped [] hclean rfl rfl rfl h hdone
      · cases h
        exact stepped_next (effect_push fun _ => rfl) hdone
  case h_3 => exact pushing_stepped [] hclean rfl rfl rfl h hdone
  case h_4 count =>
    have hnonneg : 0 ≤ count := hcount
    have htaking : taking .arrayFrom [.int count] = count.toNat := Nat.zero_add _
    rw [htaking] at henough
    refine pushing_stepped (enumSplit frame.stack count).1 hclean (enumSplit_eq _ _).symm ?_ rfl h hdone
    rw [length_enumSplit hnonneg, htaking]
    omega
  case h_5 constructor_ parent rest hstack => exact defineClass_stepped hclean hstack rfl rfl h hdone
  case h_6 constructor_ parent className rest hstack =>
    exact defineClass_stepped hclean hstack rfl rfl h hdone
  case h_7 => cases h

theorem definition_stepped
    (h : executeDefinition name operands frame execution reply = .ok action)
    (hdone : Completed value action frame') : Stepped clean name operands frame frame' := by
  unfold executeDefinition at h
  split at h
  case h_1 callable object rest hstack => exact done_stepped [callable] hstack rfl rfl h hdone
  case h_2 callable key object rest hstack =>
    exact done_stepped [callable, key] hstack rfl rfl h hdone
  case h_3 stored object rest hstack => exact done_stepped [stored] hstack rfl rfl h hdone
  case h_4 stored key object rest hstack => exact done_stepped [stored] hstack rfl rfl h hdone
  case h_5 iterable index array rest hstack =>
    split at h
    · cases h
      refine stepped_next ?_ hdone
      rw [hstack]
      exact @effect_replace _ _ [iterable, index] _ _ rfl fun _ => rfl
    · cases h
      cases hdone
    · cases h
  case h_6 mask =>
    split at h
    · exact done_stepped [] rfl rfl rfl h hdone
    · cases h
      cases hdone
  case h_7 => cases h

theorem property_stepped (hclean : clean → Contained frame execution reply value)
    (h : executeProperty name operands frame execution reply = .ok action)
    (hdone : Completed value action frame') : Stepped clean name operands frame frame' := by
  unfold executeProperty at h
  split at h
  case h_1 object rest hstack => exact get_stepped [object] hclean hstack rfl rfl h hdone
  case h_2 object rest hstack => exact get_stepped [] hclean hstack rfl rfl h hdone
  case h_3 key object rest hstack => exact get_stepped [key, object] hclean hstack rfl rfl h hdone
  case h_4 object rest hstack => exact get_stepped [object] hclean hstack rfl rfl h hdone
  case h_5 stored object rest hstack =>
    exact put_stepped [stored, object] hstack rfl rfl h hdone
  case h_6 stored key object rest hstack =>
    exact put_stepped [stored, key, object] hstack rfl rfl h hdone
  case h_7 key object rest hstack =>
    exact pushing_stepped [key, .reference object] hclean hstack rfl rfl h hdone
  case h_8 => cases h

theorem enumeration_stepped (hclean : clean → Contained frame execution reply value)
    (hname : name ≠ .forOfNext)
    (h : executeEnumeration name operands frame execution reply = .ok action)
    (hdone : Completed value action frame') : Stepped clean name operands frame frame' := by
  unfold executeEnumeration at h
  split at h
  case h_1 object rest hstack =>
    split at h
    · cases h
      refine stepped_next ?_ hdone
      rw [hstack]
      exact @effect_replace _ _ [object] _ _ rfl fun _ => rfl
    · cases h
      cases hdone
    · cases h
  case h_2 keys index rest hstack =>
    cases h
    refine stepped_next ?_ hdone
    have hkeys : clean → ∀ v ∈ keys, isCatch v = false := fun hc =>
      (hclean hc).forIn keys index (by rw [hstack]; exact List.mem_cons_self)
    rw [hstack]
    unfold forInNext
    split
    · exact effect_three rfl (fun hc => isCatch_enumAt (hkeys hc) _) rfl
    · exact effect_three rfl (fun _ => rfl) rfl
  case h_3 iterable rest hstack =>
    split at h
    · cases h
      refine stepped_next ?_ hdone
      rw [hstack]
      exact effect_three rfl (fun _ => rfl) rfl
    · cases h
      cases hdone
    · cases h
  case h_4 => exact absurd rfl hname
  case h_5 index next iterator rest hstack =>
    cases h
    refine stepped_next ?_ hdone
    rw [hstack]
    exact @effect_take _ _ [index, next, iterator] _ rfl
  case h_6 => cases h

theorem object_stepped (hclean : clean → Contained frame execution reply value)
    (hname : name ≠ .forOfNext) (hcount : 0 ≤ variablePops name.row.format operands)
    (henough : taking name operands ≤ frame.stack.length)
    (h : Opcode.Object.execute name operands frame execution reply = .ok action)
    (hdone : Completed value action frame') : Stepped clean name operands frame frame' := by
  unfold Opcode.Object.execute at h
  split at h
  · exact private_stepped hclean h hdone
  · split at h
    · exact construction_stepped hclean hcount henough h hdone
    · split at h
      · exact definition_stepped h hdone
      · split at h
        · exact property_stepped hclean h hdone
        · exact enumeration_stepped hclean hname h hdone

/-- `for_of_next`: the iterator goes on where it is, and two entries are pushed. -/
structure Iterated (clean : Prop) (frame frame' : Frame) : Prop where
  pc : frame'.pc = frame.pc + 1
  stack : ∃ (position index index' : ℕ) (values put : List Value),
    frame.stack[position]? = some (.forOf values index) ∧
    frame'.stack = put ++ frame.stack.set position (.forOf values index') ∧ put.length = 2 ∧
    (clean → ∀ v ∈ put, isCatch v = false)

omit [Value.Platform] in
theorem getElem?_of_enumAt {list : List Value} {index : ℤ} {values : List Value} {next : ℕ}
    (hindex : 0 ≤ index) (h : enumAt list index = .forOf values next) :
    list[index.toNat]? = some (.forOf values next) := by
  unfold enumAt at h
  rw [if_pos hindex, List.getD_eq_getElem?_getD] at h
  cases hget : list[index.toNat]? with
  | none => rw [hget] at h; cases h
  | some v => rw [hget] at h; exact congrArg some h

theorem forOfNext_iterated (hclean : clean → Contained frame execution reply value)
    (hdepth : ∀ depth, operands = [.int depth] → 0 ≤ depth)
    (h : executeEnumeration .forOfNext operands frame execution reply = .ok action)
    (hdone : Completed value action frame') : Iterated clean frame frame' := by
  unfold executeEnumeration at h
  split at h
  case h_4 depth _ =>
    split at h
    case h_1 values index hat =>
      have hget := getElem?_of_enumAt (by have := hdepth depth rfl; omega) hat
      have hvalues : clean → ∀ v ∈ values, isCatch v = false := fun hc =>
        (hclean hc).forOf values index (List.mem_of_getElem? hget)
      cases h
      cases hdone
      refine ⟨rfl, ?_⟩
      show ∃ (position next next' : ℕ) (vs put : List Value), _ ∧
        forOfNext (depth + 2) values index frame.stack = _ ∧ _
      unfold forOfNext
      split
      · refine ⟨_, index, index, values, [.bool true, .undefined], hget, rfl, rfl, fun _ v hv => ?_⟩
        rcases List.mem_cons.1 hv with rfl | hv
        · rfl
        · rw [List.mem_singleton.1 hv]
          rfl
      · refine ⟨_, index, index + 1, values, [.bool false, enumAt values index], hget, rfl, rfl,
          fun hc v hv => ?_⟩
        rcases List.mem_cons.1 hv with rfl | hv
        · rfl
        · rw [List.mem_singleton.1 hv]
          exact isCatch_enumAt (hvalues hc) _
    case h_2 =>
      cases h
      cases hdone
  all_goals contradiction

end Object

/-! ### Calls -/

section Invocation

open Opcode.Invocation
open Opcode.Object (enumSplit)

theorem split_effect (under : List Value) (hclean : clean → Contained frame execution reply value)
    {count : ℤ} (hcount : 0 ≤ count) {arguments rest : List Value}
    (hsplit : enumSplit frame.stack count = (arguments, under ++ rest)) (hunder : under ≠ []) :
    Effect clean (under.length + count.toNat) 1 frame.stack (value :: rest) := by
  have hlist := enumSplit_eq frame.stack count
  have hlength := @length_enumSplit frame.stack count hcount
  rw [hsplit] at hlist hlength
  dsimp only at hlist hlength
  have htotal := congrArg List.length hlist
  have hpos := List.length_pos_of_ne_nil hunder
  simp only [List.length_append] at htotal
  rw [← hlist, ← List.append_assoc]
  refine effect_replace ?_ fun hc => (hclean hc).value
  rw [List.length_append]
  omega

variable {arguments : Answer}

theorem apply_stepped (hclean : clean → Contained frame execution reply value) {construct : ℤ}
    {list this callable : Value} {rest : List Value}
    (hstack : frame.stack = list :: this :: callable :: rest)
    (h : Opcode.Invocation.apply construct arguments callable this rest frame execution reply =
    .ok action) (hdone : Completed value action frame') :
    Stepped clean .apply [.int construct] frame frame' := by
  have heffect : Effect clean 3 1 frame.stack (value :: rest) := by
    rw [hstack]
    exact @effect_replace _ _ [list, this, callable] _ _ rfl fun hc => (hclean hc).value
  unfold Opcode.Invocation.apply at h
  split at h
  case h_1 =>
    cases h
    cases hdone
    exact ⟨rfl, heffect⟩
  case h_2 =>
    cases h
    cases hdone
    exact ⟨rfl, heffect⟩
  case h_3 =>
    cases h
    cases hdone
  case h_4 =>
    cases h
    cases hdone
  case h_5 => cases h

theorem invocation_stepped (hclean : clean → Contained frame execution reply value)
    (hcount : 0 ≤ variablePops name.row.format operands)
    (h : Opcode.Invocation.execute name operands frame execution arguments reply = .ok action)
    (hdone : Completed value action frame') : Stepped clean name operands frame frame' := by
  unfold Opcode.Invocation.execute at h
  split at h
  case h_1 =>
    cases h
    exact stepped_same rfl rfl hdone
  case h_2 =>
    cases h
    cases hdone
  case h_3 construct list this callable rest hstack => exact apply_stepped hclean hstack h hdone
  case h_4 count =>
    cases h
    unfold call at hdone
    split at hdone
    case h_1 arguments callable rest hsplit =>
      cases hdone
      exact ⟨rfl, split_effect [callable] hclean hcount hsplit (List.cons_ne_nil _ _)⟩
    case h_2 => cases hdone
  case h_5 count =>
    cases h
    unfold call at hdone
    split at hdone <;> cases hdone
  case h_6 count =>
    cases h
    unfold callMethod at hdone
    split at hdone
    case h_1 arguments callable this rest hsplit =>
      cases hdone
      exact ⟨rfl, split_effect [callable, this] hclean hcount hsplit (List.cons_ne_nil _ _)⟩
    case h_2 => cases hdone
  case h_7 count =>
    cases h
    unfold callMethod at hdone
    split at hdone <;> cases hdone
  case h_8 count =>
    unfold callConstructor at h
    split at h
    case h_1 arguments newTarget constructor_ rest hsplit =>
      have heffect := split_effect [newTarget, constructor_] hclean hcount hsplit
        (List.cons_ne_nil _ _)
      split at h
      · cases h
        cases hdone
        exact ⟨rfl, heffect⟩
      · cases h
        cases hdone
      · cases h
    case h_2 =>
      cases h
      cases hdone
  case h_9 =>
    cases h
    cases hdone
    exact ⟨rfl, effect_push fun hc => (hclean hc).value⟩
  case h_10 =>
    cases h
    cases hdone
  case h_11 => cases h

end Invocation

/-! ### Control -/

inductive Controlled (clean : Prop) (frame frame' : Frame) : Op → List Operand → Prop
  | await : Stepped clean .await [] frame frame' → Controlled clean frame frame' .await []
  | goto {name : Op} {target : Operand} : kind name = .goto → frame'.pc = labelTarget target →
      Effect clean (taking name [target]) (putting name) frame.stack frame'.stack →
      Controlled clean frame frame' name [target]
  | branch {name : Op} {target : Operand} : kind name = .conditional →
      (frame'.pc = labelTarget target ∨ frame'.pc = frame.pc + 1) →
      Effect clean (taking name [target]) (putting name) frame.stack frame'.stack →
      Controlled clean frame frame' name [target]
  | catch_ {target : Operand} : frame'.pc = frame.pc + 1 →
      frame'.stack = .catchMarker (labelTarget target) :: frame.stack →
      Controlled clean frame frame' .catch_ [target]
  | gosub {target : Operand} : frame'.pc = labelTarget target →
      frame'.stack = .returnAddress (frame.pc + 1) :: frame.stack →
      Controlled clean frame frame' .gosub [target]
  | ret {address : ℕ} : frame'.pc = address →
      frame.stack = .returnAddress address :: frame'.stack → Controlled clean frame frame' .ret []

omit [Value.Platform] in
theorem branchOn_controlled {taken : Bool} {target : Operand} {top : Value} {rest : List Value}
    (hkind : kind name = .conditional) (htaking : taking name [target] = 1)
    (hputting : putting name = 0) (hstack : frame.stack = top :: rest)
    (hdone : Completed value (Opcode.Control.branchOn taken target top rest frame execution) frame') :
    Controlled clean frame frame' name [target] := by
  cases hdone
  refine .branch hkind ?_ ?_
  · show (if _ then _ else _) = _ ∨ (if _ then _ else _) = _
    split
    · exact .inl rfl
    · exact .inr rfl
  · rw [hstack, htaking, hputting]
    exact @effect_take _ _ [top] _ rfl

variable {top : Value}

/-- An await puts the value of the promise in place of the promise. -/
theorem await_controlled (hclean : clean → Contained frame execution reply value)
    (hstack : frame.stack = top :: rest) (hpc : frame'.pc = frame.pc + 1)
    (hstack' : frame'.stack = value :: rest) : Controlled clean frame frame' .await [] := by
  refine .await ⟨hpc, ?_⟩
  rw [hstack, hstack']
  exact @effect_replace _ _ [top] _ _ rfl fun hc => (hclean hc).value

theorem control_controlled (hclean : clean → Contained frame execution reply value)
    (h : Opcode.Control.execute name operands frame execution = .ok action)
    (hdone : Completed value action frame') : Controlled clean frame frame' name operands := by
  unfold Opcode.Control.execute at h
  split at h
  case h_1 target =>
    cases h
    cases hdone
    exact .catch_ rfl rfl
  case h_2 target =>
    cases h
    cases hdone
    exact .gosub rfl rfl
  case h_3 address rest hstack =>
    cases h
    cases hdone
    exact .ret rfl hstack
  case h_4 target top rest hstack =>
    cases h
    exact branchOn_controlled rfl rfl rfl hstack hdone
  case h_5 target top rest hstack =>
    cases h
    exact branchOn_controlled rfl rfl rfl hstack hdone
  case h_6 target top rest hstack =>
    cases h
    exact branchOn_controlled rfl rfl rfl hstack hdone
  case h_7 target top rest hstack =>
    cases h
    exact branchOn_controlled rfl rfl rfl hstack hdone
  case h_8 target =>
    cases h
    cases hdone
    exact .goto rfl rfl (effect_same _ _)
  case h_9 target =>
    cases h
    cases hdone
    exact .goto rfl rfl (effect_same _ _)
  case h_10 target =>
    cases h
    cases hdone
    exact .goto rfl rfl (effect_same _ _)
  case h_15 promise rest hstack =>
    cases h
    cases hdone
    exact await_controlled hclean hstack rfl rfl
  case h_16 reference rest hstack =>
    cases h
    cases hdone
    exact await_controlled hclean hstack rfl rfl
  case h_17 resolved rest hstack =>
    cases h
    cases hdone
    exact await_controlled hclean hstack rfl rfl
  case h_18 reason rest hstack =>
    cases h
    cases hdone
    exact await_controlled hclean hstack rfl rfl
  case h_19 top rest _ _ _ _ hstack =>
    cases h
    cases hdone
    exact await_controlled hclean hstack rfl rfl
  all_goals
    cases h
    try cases hdone

/-! ### One instruction -/

/-- The instructions that take from the top of the stack and put there. -/
def Plain (name : Op) : Prop := name ∉ Opcode.Control.opcodes ∧ name ≠ .forOfNext

omit [Value.Platform] in
theorem ignored_taking : ∀ name ∈ ignoredOps, ∀ operands,
    taking name operands = 0 ∧ putting name = 0 := by
  intro name h operands
  fin_cases h <;> exact ⟨rfl, rfl⟩

variable {arguments : Answer}

/-- **The effect of an instruction** that is not control. -/
theorem execute_stepped [AtomTable] (hclean : clean → Contained frame execution reply value)
    (hplain : Plain name) (hcount : 0 ≤ variablePops name.row.format operands)
    (henough : taking name operands ≤ frame.stack.length)
    (h : execute name operands frame execution arguments reply = .ok action)
    (hdone : Completed value action frame') : Stepped clean name operands frame frame' := by
  unfold execute at h
  rw [if_neg hplain.1] at h
  split at h
  · exact invocation_stepped hclean hcount h hdone
  · split at h
    · exact local_stepped hclean h hdone
    · split at h
      · exact object_stepped hclean hplain.2 hcount henough h hdone
      · split at h
        · unfold Opcode.Stack.execute at h
          split at h
          · rename_i stack htransform
            cases h
            exact stepped_next (transform_effect (fun hc => (hclean hc).this)
              (fun hc => (hclean hc).constants) htransform) hdone
          · cases h
        · split at h
          · exact value_stepped hclean h hdone
          · split at h
            · rename_i hignored
              obtain ⟨htaking, hputting⟩ := ignored_taking name hignored operands
              cases h
              exact stepped_same htaking hputting hdone
            · cases h
              cases hdone

theorem execute_iterated [AtomTable] (hclean : clean → Contained frame execution reply value)
    (hdepth : ∀ depth, operands = [.int depth] → 0 ≤ depth)
    (h : execute .forOfNext operands frame execution arguments reply = .ok action)
    (hdone : Completed value action frame') : Iterated clean frame frame' := by
  have hfamily : execute .forOfNext operands frame execution arguments reply =
      Opcode.Object.executeEnumeration .forOfNext operands frame execution reply := rfl
  rw [hfamily] at h
  exact forOfNext_iterated hclean hdepth h hdone

theorem execute_controlled [AtomTable] (hclean : clean → Contained frame execution reply value)
    (hname : name ∈ Opcode.Control.opcodes)
    (h : execute name operands frame execution arguments reply = .ok action)
    (hdone : Completed value action frame') : Controlled clean frame frame' name operands := by
  unfold execute at h
  rw [if_pos hname] at h
  exact control_controlled hclean h hdone

end QuickBeam.Vm.Runtime.Interpreter
