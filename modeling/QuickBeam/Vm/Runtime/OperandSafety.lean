import QuickBeam.Vm.Bytecode.VerifierAcceptance
import QuickBeam.Vm.Runtime.Interleaving
import QuickBeam.Vm.Runtime.StackPrediction

/-!
# The operands of accepted programs

A frame has the arguments and locals that the verifier counts, in every state of a run.  So the
index of an accessor is in range, but for the compact encodings that have their index in the opcode,
which the verifier does not look at, and for a function that is entered without its references.
-/

namespace QuickBeam.Vm.Runtime.OperandSafety

open QuickBeam.Lib QuickBeam.Vm.Bytecode QuickBeam.Vm.Program
open QuickBeam.Vm.Bytecode.Verifier (Abi LimitKey WellFormed)
open QuickBeam.Vm.Runtime.Interleaving QuickBeam.Vm.Runtime.Opcode.Local
open QuickBeam.Vm.Runtime.Interpreter (canonical expand_fst)

variable {W : Type}

/-! ### Frames -/

/-- The frame has the arguments and locals of its function. -/
structure Fits (frame : Frame) : Prop where
  locals : frame.function.argCount + frame.function.varCount ≤ frame.locals.length
  args : frame.function.argCount ≤ frame.args.length

variable {frame frame' : Frame} {execution : State W} {arguments : Answer} {reply : Reply W}
  {action : Action W} {name : Op} {operands : List Operand}

theorem Fits.of_entry (h : Fits frame) (hentry : SameEntry frame frame')
    (hlength : ∀ bank, (frame'.bank bank).length = (frame.bank bank).length) : Fits frame' := by
  have hlocals := hlength .locals
  have hargs := hlength .args
  simp only [Frame.bank] at hlocals hargs
  constructor
  · rw [hentry.function, hlocals]
    exact h.locals
  · rw [hentry.function, hargs]
    exact h.args

theorem Fits.same (h : Fits frame) (hsame : SameVariables frame frame') : Fits frame' :=
  h.of_entry hsame.toSameEntry fun bank => by
    cases bank with
    | args => exact congrArg List.length hsame.args
    | locals => exact congrArg List.length hsame.locals

theorem fits_newFrame (function : Function) (callable this : Value) (values : List Value)
    (references : List SlotRef) : Fits (newFrame function callable values this references) := by
  constructor
  · simp only [newFrame, List.length_replicate]
    exact le_max_left _ _
  · simp only [newFrame, List.length_append, List.length_replicate]
    omega

/-- **One instruction** keeps the variables of its frame in number. -/
theorem Fits.execute [Value.Platform] [AtomTable] (h : Fits frame)
    (hexecute : Interpreter.execute name operands frame execution arguments reply = .ok action)
    (hframe : action.frame? = some frame') : Fits frame' := by
  rcases execute_effect hexecute with ⟨hkeeps, -⟩ | ⟨-, next, _, rfl, hassigns⟩ | ⟨-, hcaptures⟩
  · exact h.same (hkeeps.frame frame' hframe)
  · cases hframe
    obtain ⟨_, _, target, value, -, -, -, -, -, hwrites⟩ := hassigns
    cases target with
    | slot bank index =>
      exact (h.of_entry (entry_withBank ..) (bank_putSlot_length frame bank · index value)).same
        hwrites.1
    | ref reference => exact h.same hwrites.1
  · obtain ⟨captured, _, hpromotes, hsame, -⟩ := hcaptures.promotes
    exact (h.of_entry hpromotes.entry hpromotes.length).same (hsame frame' hframe)

/-! ### Runs -/

inductive Run [Value.Platform] [AtomTable] : Activations W → Prop where
  | start {m : Activations W} : m.entered = [] → Run m
  | step {m m' : Activations W} {event : Event W} : Run m → Step m event m' → Run m'

theorem fits_of_run [Value.Platform] [AtomTable] {m : Activations W} (h : Run m) :
    ∀ a ∈ m.entered, Fits a.frame := by
  induction h with
  | start hentered =>
    intro a ha
    rw [hentered] at ha
    cases ha
  | step _ hstep ih =>
    intro b hb
    cases hstep with
    | @instruction f a name operands arguments reply action ha hcurrent hexecute =>
      rcases List.mem_or_eq_of_mem_set hb with hb | rfl
      · exact ih b hb
      · have hfits := ih a (List.mem_of_getElem? ha)
        rw [executeCurrent_eq hcurrent] at hexecute
        cases hframe : action.frame? with
        | none => exact hfits
        | some frame' => exact hfits.execute hexecute hframe
    | @enter capture function callable values this hcapture =>
      rcases List.mem_append.1 hb with hb | hb
      · exact ih b hb
      · cases List.mem_singleton.1 hb
        exact fits_newFrame function callable this values _
    | resume ha hsame =>
      rcases List.mem_or_eq_of_mem_set hb with hb | rfl
      · exact ih b hb
      · exact (ih _ (List.mem_of_getElem? ha)).same hsame
    | environment => exact ih b hb

/-! ### Accessors -/

/-- How many variables there are of the kind that an accessor names. -/
def variableCount (f : FunctionHeader) (name : Op) : ℕ :=
  if name ∈ argOps then f.argCount
  else if name ∈ refOps then f.closureVars.length
  else f.argCount + f.varCount

def InRange (f : FunctionHeader) (name : Op) (operands : List Operand) : Prop :=
  ∀ index : ℤ, .int index ∈ operands → 0 ≤ index ∧ index < variableCount f name

section Indexes

theorem bind_ne_badIndex {α β : Type} {x : Except Crash α} {f : α → Except Crash β}
    (hx : x ≠ .error .badIndex) (hf : ∀ a, f a ≠ .error .badIndex) : x >>= f ≠ .error .badIndex := by
  cases x with
  | error crash => exact fun h => hx (by cases h; rfl)
  | ok a => exact hf a

theorem elem_ne_badIndex {tuple : List Value} {index : ℤ} (h : 0 ≤ index)
    (hlt : index < tuple.length) : elem tuple index ≠ .error .badIndex := by
  rw [elem, if_pos h, List.getElem?_eq_getElem (show index.toNat < tuple.length by omega)]
  rintro ⟨⟩

theorem readReference_ne_badIndex (reference : SlotRef) (execution : State W) :
    readReference reference execution ≠ .error .badIndex := by
  unfold readReference
  repeat' split
  all_goals rintro ⟨⟩

theorem readSlot_ne_badIndex (slot : Value) (execution : State W) :
    readSlot slot execution ≠ .error .badIndex := by
  unfold readSlot
  split
  · exact readReference_ne_badIndex _ _
  · rintro ⟨⟩

theorem computed_ne_badIndex (result : Option Value) : computed result ≠ .error .badIndex := by
  cases result <;> rintro ⟨⟩

variable {args locals stack : List Value} {index : ℤ}

theorem writeTupleSlot_ne_badIndex {tuple : List Value} (value : Value) (execution : State W)
    (h : elem tuple index ≠ .error .badIndex) :
    writeTupleSlot tuple index value execution ≠ .error .badIndex :=
  bind_ne_badIndex h fun slot => by split <;> rintro ⟨⟩

theorem putLoc_ne_badIndex (value : Value) (h : elem locals index ≠ .error .badIndex) :
    putLoc index value args locals stack execution ≠ .error .badIndex :=
  bind_ne_badIndex (writeTupleSlot_ne_badIndex value execution h) fun _ => by rintro ⟨⟩

theorem putArg_ne_badIndex (value : Value) (h : elem args index ≠ .error .badIndex) :
    putArg index value args locals stack execution ≠ .error .badIndex :=
  bind_ne_badIndex (writeTupleSlot_ne_badIndex value execution h) fun _ => by rintro ⟨⟩

variable [Value.Platform]

theorem stepLoc_ne_badIndex (operation : Op) (h : elem locals index ≠ .error .badIndex) :
    stepLoc operation index args locals stack execution ≠ .error .badIndex :=
  bind_ne_badIndex h fun slot => bind_ne_badIndex (readSlot_ne_badIndex slot execution) fun _ =>
    bind_ne_badIndex (computed_ne_badIndex _) fun _ => putLoc_ne_badIndex _ h

theorem executeCompact_ne_badIndex (hfits : Fits frame)
    (hrange : InRange frame.function.toFunctionHeader name operands) :
    executeCompact name operands frame.args frame.locals frame.stack execution ≠
      .error .badIndex := by
  have hargs {index : ℤ} (h : 0 ≤ index ∧ index < (frame.function.argCount : ℤ)) :
      elem frame.args index ≠ .error .badIndex :=
    elem_ne_badIndex h.1 (by have := hfits.args; omega)
  have hlocals {index : ℤ}
      (h : 0 ≤ index ∧ index < ((frame.function.argCount + frame.function.varCount : ℕ) : ℤ)) :
      elem frame.locals index ≠ .error .badIndex :=
    elem_ne_badIndex h.1 (by have := hfits.locals; omega)
  unfold executeCompact
  split
  · refine bind_ne_badIndex ?_ fun slot => bind_ne_badIndex (readSlot_ne_badIndex slot _) fun _ => by
      rintro ⟨⟩
    unfold tupleGet
    split
    · exact hargs (hrange _ List.mem_cons_self)
    · rintro ⟨⟩
  · exact putArg_ne_badIndex _ (hargs (hrange _ List.mem_cons_self))
  · exact putArg_ne_badIndex _ (hargs (hrange _ List.mem_cons_self))
  · exact bind_ne_badIndex (hlocals (hrange _ List.mem_cons_self)) fun slot =>
      bind_ne_badIndex (readSlot_ne_badIndex slot _) fun _ => by rintro ⟨⟩
  · exact bind_ne_badIndex (hlocals (hrange _ List.mem_cons_self)) fun slot =>
      bind_ne_badIndex (readSlot_ne_badIndex slot _) fun _ =>
        bind_ne_badIndex (hlocals (hrange _ (List.mem_cons_of_mem _ List.mem_cons_self)))
          fun slot => bind_ne_badIndex (readSlot_ne_badIndex slot _) fun _ => by rintro ⟨⟩
  · exact stepLoc_ne_badIndex _ (hlocals (hrange _ List.mem_cons_self))
  · exact stepLoc_ne_badIndex _ (hlocals (hrange _ List.mem_cons_self))
  · have helem := hlocals (hrange _ List.mem_cons_self)
    exact bind_ne_badIndex helem fun slot => bind_ne_badIndex (readSlot_ne_badIndex slot _) fun _ =>
      bind_ne_badIndex (computed_ne_badIndex _) fun _ => putLoc_ne_badIndex _ helem
  · exact putLoc_ne_badIndex _ (hlocals (hrange _ List.mem_cons_self))
  · exact putLoc_ne_badIndex _ (hlocals (hrange _ List.mem_cons_self))
  · exact putLoc_ne_badIndex _ (hlocals (hrange _ List.mem_cons_self))
  · exact putLoc_ne_badIndex _ (hlocals (hrange _ List.mem_cons_self))
  · exact putLoc_ne_badIndex _ (hlocals (hrange _ List.mem_cons_self))
  · rintro ⟨⟩

omit [Value.Platform] in
theorem closureRef_ne_badIndex (hname : name ∈ refOps)
    (hreferences : frame.function.closureVars.length ≤ frame.closureRefs.length)
    (h : 0 ≤ index ∧ index < variableCount frame.function.toFunctionHeader name) :
    closureRef frame index ≠ .error .badIndex := by
  have hcount : variableCount frame.function.toFunctionHeader name =
      frame.function.closureVars.length := by
    fin_cases hname <;> rfl
  rw [hcount] at h
  rw [closureRef, if_pos h.1,
    List.getElem?_eq_getElem (show index.toNat < frame.closureRefs.length by omega)]
  rintro ⟨⟩

/-- **An accessor** whose index is in range does not fail on it. -/
theorem execute_ne_badIndex [AtomTable] (hfits : Fits frame) (hname : name ∈ accessorOps)
    (hreferences : name ∈ refOps → frame.function.closureVars.length ≤ frame.closureRefs.length)
    (hrange : InRange frame.function.toFunctionHeader name operands) :
    Opcode.Local.execute name operands frame execution reply ≠ .error .badIndex := by
  have hreference {index : ℤ} (hname : name ∈ refOps) (hmem : .int index ∈ operands) :
      closureRef frame index ≠ .error .badIndex :=
    closureRef_ne_badIndex hname (hreferences hname) (hrange _ hmem)
  unfold Opcode.Local.execute
  split
  · exact bind_ne_badIndex (executeCompact_ne_badIndex hfits hrange) fun _ => by rintro ⟨⟩
  · split
    · rename_i hget
      split
      · have hname : name ∈ refOps := List.mem_append_left _ (List.mem_append_left _ hget)
        exact bind_ne_badIndex (hreference hname List.mem_cons_self) fun reference =>
          bind_ne_badIndex (readReference_ne_badIndex reference _) fun _ => by rintro ⟨⟩
      · rintro ⟨⟩
    · split
      · rename_i hput
        split
        · have hname : name ∈ refOps := List.mem_append_left _ (List.mem_append_right _ hput)
          exact bind_ne_badIndex (hreference hname List.mem_cons_self) fun _ => by rintro ⟨⟩
        · rintro ⟨⟩
        · rintro ⟨⟩
      · have hother : name ∈ [.getLocCheck, .setVarRef] := by
          simp only [accessorOps, List.mem_append] at hname
          tauto
        rw [if_neg (show name ∉ putGlobalOps by fin_cases hother <;> decide)]
        split
        case h_3 =>
          have hindex := hrange _ List.mem_cons_self
          have hlt : _ < (frame.locals.length : ℤ) :=
            hindex.2.trans_le (Int.ofNat_le.2 hfits.locals)
          exact bind_ne_badIndex (elem_ne_badIndex hindex.1 hlt) fun slot =>
            bind_ne_badIndex (readSlot_ne_badIndex slot _) fun _ => by rintro ⟨⟩
        case h_5 =>
          exact bind_ne_badIndex (hreference (by decide) List.mem_cons_self) fun _ => by
            rintro ⟨⟩
        all_goals first
          | exact absurd hother (by decide)
          | rintro ⟨⟩

end Indexes

/-! ### Verified operands -/

/-- The formats of the encodings that have their index in the opcode. -/
def impliedFormats : List Format := [.noneLoc, .noneArg, .noneVarRef]

def checkedFormats (name : Op) : List Format :=
  if name ∈ argOps then [.arg] else if name ∈ refOps then [.varRef] else [.loc, .loc8]

/-- An encoding with an operand is the accessor itself, and its operand has a format of the kind. -/
theorem accessor_format (short : Op) : canonical short ∈ accessorOps →
    short.row.format ∉ impliedFormats →
      shortForm short = none ∧ short.row.format ∈ checkedFormats (canonical short) := by
  cases short <;> decide

theorem indexWithin_iff {operand : Operand} {count : ℕ} {kind : Verifier.IndexKind} :
    Verifier.indexWithin operand count kind = .ok () ↔
      ∃ index : ℤ, operand = .int index ∧ 0 ≤ index ∧ index < count := by
  unfold Verifier.indexWithin
  split
  · split_ifs <;> simp_all
  · simp_all

variable {abi : Abi} {f : Function} {atoms : List Binary} {opcode : ℕ} {given : List Operand}
  {short : Op} {row : Row}

theorem inRange_of_verified (hinfo : info opcode = some (short, row))
    (hverify : Verifier.verifyInstruction abi (opcode, given) f atoms = .ok ())
    (haccessor : canonical short ∈ accessorOps) (hformat : row.format ∉ impliedFormats) :
    InRange f.toFunctionHeader (canonical short) (expandShortForm short given f.argCount).2 := by
  obtain ⟨-, rfl⟩ := info_eq_some hinfo
  obtain ⟨hshort, hchecked⟩ := accessor_format short haccessor hformat
  have hgiven : (expandShortForm short given f.argCount).2 = given := by
    unfold expandShortForm
    rw [hshort]
    cases passthroughAlias short <;> rfl
  rw [Verifier.verifyInstruction, hinfo] at hverify
  simp only [unit_bind_eq_ok_iff] at hverify
  obtain ⟨hcount, -, hoperands⟩ := hverify
  obtain ⟨operand, rfl⟩ : ∃ operand, given = [operand] := by
    refine List.length_eq_one_iff.1 ?_
    simp only [Verifier.verifyOperandCount] at hcount
    split_ifs at hcount with hlength
    rw [hlength]
    generalize short.row.format = format at hchecked
    unfold checkedFormats at hchecked
    split_ifs at hchecked <;> fin_cases hchecked <;> rfl
  have hwithin : ∃ kind, Verifier.indexWithin operand
      (variableCount f.toFunctionHeader (canonical short)) kind = .ok () := by
    unfold variableCount
    generalize short.row.format = format at hchecked hoperands
    unfold checkedFormats at hchecked
    split_ifs at hchecked ⊢ <;> fin_cases hchecked <;> exact ⟨_, hoperands⟩
  obtain ⟨kind, hwithin⟩ := hwithin
  obtain ⟨index, rfl, hindex⟩ := indexWithin_iff.1 hwithin
  rw [hgiven]
  intro index' hmem
  cases List.mem_singleton.1 hmem
  exact hindex

/-- **Operands of accepted programs**: in every state of a run, an accessor fails on an index only
when its index is in the opcode, or when its frame has too few references. -/
theorem badIndex_of_verified [Value.Platform] [AtomTable] {program : Program}
    {opts : List (LimitKey × ℤ)} {m : Activations W} {a : Activation}
    (hverify : Verifier.verify abi program opts = .ok ()) (hrun : Run m) (ha : a ∈ m.entered)
    (hnested : Nested a.frame.function program.root)
    (hget : a.frame.function.instructions[a.frame.pc]? = some (opcode, given))
    (hinfo : info opcode = some (short, row)) (haccessor : canonical short ∈ accessorOps)
    (hbad : Interpreter.executeCurrent a.frame m.execution arguments reply = .error .badIndex) :
    (row.format ∈ impliedFormats ∧ ¬InRange a.frame.function.toFunctionHeader (canonical short)
        (expandShortForm short given a.frame.function.argCount).2) ∨
      (canonical short ∈ refOps ∧
        a.frame.closureRefs.length < a.frame.function.closureVars.length) := by
  have hexpand : expandShortForm short given a.frame.function.argCount = (canonical short,
      (expandShortForm short given a.frame.function.argCount).2) :=
    Prod.ext (expand_fst ..) rfl
  rw [executeCurrent_eq ⟨opcode, given, short, row, hget, hinfo, hexpand⟩,
    execute_local (List.mem_append_left _ haccessor)] at hbad
  by_contra hnot
  rw [not_or, not_and_not_right, not_and, not_lt] at hnot
  refine execute_ne_badIndex (fits_of_run hrun a ha) haccessor hnot.2 ?_ hbad
  by_cases hformat : row.format ∈ impliedFormats
  · exact hnot.1 hformat
  · obtain ⟨limits, -, haccepted⟩ := Verifier.accepted_of_verify hverify
    exact inRange_of_verified hinfo
      ((haccepted.wellFormed hnested).operands _ (List.mem_of_getElem? hget)) haccessor hformat

/-- `get_loc3` and `return`, in a function without locals. -/
def loc3Function : Function where
  id := 0
  argCount := 0
  varCount := 0
  definedArgCount := 0
  stackSize := 1
  varRefCount := 0
  locals := []
  closureVars := []
  instructions := [(206, [.int 3]), (40, [])]
  sourcePositions := [(0, 0), (0, 0)]
  hasPrototype := false
  funcKind := 0
  constants := []

def loc3Entered : Activations Unit where
  entered := [⟨newFrame loc3Function (.function loc3Function) [] .undefined [], []⟩]
  captures := []
  execution := Interpreter.returnState

theorem run_loc3Entered : @Run Unit Value.noNumbers ⟨fun _ => none⟩ loc3Entered :=
  letI := Value.noNumbers
  letI : AtomTable := ⟨fun _ => none⟩
  .step (.start (m := ⟨[], [], Interpreter.returnState⟩) rfl)
    (.enter loc3Function (.function loc3Function) [] .undefined List.mem_cons_self)

/-- The verifier accepts `loc3Function`, and its `get_loc3` fails on the index. -/
theorem loc3_not_inRange : ¬InRange loc3Function.toFunctionHeader .getLoc [.int 3] := by
  have h := @badIndex_of_verified Unit (.error .undefined) Interpreter.noReply ⟨0, "", 0⟩ _ _ _ _
    Value.noNumbers ⟨fun _ => none⟩ ⟨0, "", [], .function loc3Function⟩ [] loc3Entered _ rfl
    run_loc3Entered List.mem_cons_self .here rfl rfl (by decide) rfl
  rcases h with h | h
  · exact h.2
  · exact absurd h.2 (by decide)

end QuickBeam.Vm.Runtime.OperandSafety
