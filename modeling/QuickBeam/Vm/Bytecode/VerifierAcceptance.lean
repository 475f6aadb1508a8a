import QuickBeam.Lib.Except
import QuickBeam.Vm.Bytecode.StackSolution
import QuickBeam.Vm.Bytecode.Verifier

/-!
# What the verifier accepts

`verify_value/5` walks through a value with running counts.  The walk is the check of one part after
the other; so a program is accepted exactly when each of its parts is valid at its depth and its
functions are within the limits together.
-/

namespace QuickBeam.Vm.Bytecode.Verifier

open QuickBeam.Lib QuickBeam.Vm.Program

/-! ### The parts of a value -/

mutual

/-- The values that are checked, in the order of the walk, with their depths. -/
def parts : Value → ℕ → List (Value × ℕ)
  | .function ⟨header, constants⟩, depth =>
      (.function ⟨header, constants⟩, depth) :: partsOfAll constants (depth + 1)
  | .array values, depth => (.array values, depth) :: partsOfAll values (depth + 1)
  | .object values, depth => (.object values, depth) :: partsOfEntries values (depth + 1)
  | .templateObject (.array values) raw, depth =>
      (.templateObject (.array values) raw, depth) ::
        (partsOfAll values (depth + 1) ++ parts raw (depth + 1))
  | value, depth => [(value, depth)]

def partsOfAll : List Value → ℕ → List (Value × ℕ)
  | [], _ => []
  | value :: rest, depth => parts value depth ++ partsOfAll rest depth

def partsOfEntries : List (Binary × Value) → ℕ → List (Value × ℕ)
  | [], _ => []
  | (_, value) :: rest, depth => parts value depth ++ partsOfEntries rest depth

end

variable (abi : Abi) (atoms : List Binary) (limits : Limits)

/-- The limits of a part with as many values. -/
def verifyBounds (depth length : ℕ) : Except VerifyError Unit := do
  within depth (limits .maxFunctionDepth) .constantDepth
  within length (limits .maxConstantsPerFunction) .constants

/-- The check of one part. -/
def verifyPart (counts : Counts) : Value × ℕ → Except VerifyError Counts
  | (.function f, depth) => verifyFunction abi atoms limits f depth counts
  | (.array values, depth) => do verifyBounds limits depth values.length; pure counts
  | (.object values, depth) => do verifyBounds limits depth values.length; pure counts
  | (.templateObject (.array values) _, depth) => do
      verifyBounds limits depth values.length; pure counts
  | (.templateObject _ _, _) => .error .invalidTemplateConstant
  | _ => .ok counts

mutual

/-- **The walk** checks one part after the other. -/
theorem verifyValue_eq (value : Value) (depth : ℕ) (counts : Counts) :
    verifyValue abi atoms limits value depth counts =
      (parts value depth).foldlM (verifyPart abi atoms limits) counts := by
  cases value with
  | function f =>
    rw [verifyValue, parts, List.foldlM_cons, verifyPart]
    exact bind_congr fun counts => verifyValues_eq f.constants (depth + 1) counts
  | array values =>
    rw [verifyValue, parts, List.foldlM_cons, verifyPart, verifyBounds]
    simp only [bind_assoc, pure_bind, verifyValues_eq values]
  | object values =>
    rw [verifyValue, parts, List.foldlM_cons, verifyPart, verifyBounds]
    simp only [bind_assoc, pure_bind, verifyEntries_eq values]
  | templateObject cooked raw =>
    cases cooked with
    | array values =>
      rw [verifyValue, parts, List.foldlM_cons, verifyPart, verifyBounds]
      simp only [bind_assoc, pure_bind, List.foldlM_append, verifyValues_eq values,
        verifyValue_eq raw]
    | _ => rfl
  | _ => rfl

theorem verifyValues_eq (values : List Value) (depth : ℕ) (counts : Counts) :
    verifyValues abi atoms limits values depth counts =
      (partsOfAll values depth).foldlM (verifyPart abi atoms limits) counts := by
  cases values with
  | nil => rfl
  | cons value rest =>
    rw [verifyValues, partsOfAll, List.foldlM_append, verifyValue_eq value]
    exact bind_congr fun counts => verifyValues_eq rest depth counts

theorem verifyEntries_eq (values : List (Binary × Value)) (depth : ℕ) (counts : Counts) :
    verifyEntries abi atoms limits values depth counts =
      (partsOfEntries values depth).foldlM (verifyPart abi atoms limits) counts := by
  cases values with
  | nil => rfl
  | cons entry rest =>
    obtain ⟨_, value⟩ := entry
    rw [verifyEntries, partsOfEntries, List.foldlM_append, verifyValue_eq value]
    exact bind_congr fun counts => verifyEntries_eq rest depth counts

end

/-! ### Valid parts -/

/-- What is required of a function by itself. -/
structure WellFormed (f : Function) : Prop where
  stackSize : f.stackSize ≤ limits .maxStackSize
  locals : f.locals.length = f.argCount + f.varCount
  arguments : f.definedArgCount ≤ f.argCount
  positions : f.sourcePositions.length = f.instructions.length
  captures : ∀ v ∈ f.locals, v.isCaptured = true →
    ∃ index, v.varRefIdx = some index ∧ index < f.varRefCount
  operands : ∀ instruction ∈ f.instructions, verifyInstruction abi instruction f atoms = .ok ()
  nonempty : f.instructions ≠ []
  /-- The equations of the operand stack have a solution, and its depths go up to the stack size. -/
  stack : ∃ levels, Stack.Solution f.toFunctionHeader levels ∧
    IsGreatest {depth | Stack.DepthOnPath f.toFunctionHeader levels depth} f.stackSize

def Bounded (depth length : ℕ) : Prop :=
  depth ≤ limits .maxFunctionDepth ∧ length ≤ limits .maxConstantsPerFunction

def Valid : Value × ℕ → Prop
  | (.function f, depth) =>
      Bounded limits depth f.constants.length ∧ WellFormed abi atoms limits f
  | (.array values, depth) => Bounded limits depth values.length
  | (.object values, depth) => Bounded limits depth values.length
  | (.templateObject (.array values) _, depth) => Bounded limits depth values.length
  | (.templateObject _ _, _) => False
  | _ => True

def functionsOf : Value × ℕ → List Function
  | (.function f, _) => [f]
  | _ => []

def Counts.add (counts : Counts) (functions : List Function) : Counts where
  functions := counts.functions + functions.length
  instructions := counts.instructions + (functions.map fun f => f.instructions.length).sum

def Counts.Within (counts : Counts) : Prop :=
  counts.functions ≤ limits .maxFunctions ∧ counts.instructions ≤ limits .maxInstructions

theorem Counts.add_nil (counts : Counts) : counts.add [] = counts := rfl

theorem Counts.add_append (counts : Counts) (a b : List Function) :
    counts.add (a ++ b) = (counts.add a).add b := by
  simp [Counts.add, Nat.add_assoc]

variable {abi atoms limits} {f : Function} {counts counts' : Counts}

theorem Counts.within_of_add {functions : List Function}
    (h : (counts.add functions).Within limits) : counts.Within limits :=
  ⟨(Nat.le_add_right ..).trans h.1, (Nat.le_add_right ..).trans h.2⟩

theorem within_iff {value maximum : ℕ} {kind : LimitKind} :
    within value maximum kind = .ok () ↔ value ≤ maximum := by
  unfold within
  split <;> simp_all

theorem verifyCaptureIndexes_iff {f : FunctionHeader} : verifyCaptureIndexes f = .ok () ↔
    ∀ v ∈ f.locals, v.isCaptured = true → ∃ index, v.varRefIdx = some index ∧
      index < f.varRefCount := by
  unfold verifyCaptureIndexes
  split
  · rename_i v hfind
    have hv := List.find?_some hfind
    have hmem := List.mem_of_find?_eq_some hfind
    simp only [Bool.and_eq_true, Bool.not_eq_true'] at hv
    refine iff_of_false (by rintro ⟨⟩) fun h => ?_
    obtain ⟨index, hindex, hlt⟩ := h v hmem hv.1
    simp [hindex, hlt] at hv
  · rename_i hfind
    refine iff_of_true rfl fun v hv hcaptured => ?_
    have hnot := List.find?_eq_none.1 hfind v hv
    simpa [hcaptured, Option.any_eq_true] using hnot

theorem verifyFunctionShape_iff {f : FunctionHeader} : verifyFunctionShape f = .ok () ↔
    f.locals.length = f.argCount + f.varCount ∧ f.definedArgCount ≤ f.argCount ∧
      f.sourcePositions.length = f.instructions.length ∧ verifyCaptureIndexes f = .ok () := by
  unfold verifyFunctionShape
  split_ifs <;> simp_all

theorem verifyInstructionsFrom_iff {instructions : List Instruction} : ∀ {index : ℕ},
    verifyInstructionsFrom abi f atoms index instructions = .ok () ↔
      ∀ instruction ∈ instructions, verifyInstruction abi instruction f atoms = .ok () := by
  induction instructions with
  | nil => simp [verifyInstructionsFrom]
  | cons instruction rest ih =>
    intro index
    rw [verifyInstructionsFrom]
    cases hfirst : verifyInstruction abi instruction f atoms with
    | error reason => simp [hfirst]
    | ok u => simp [hfirst, ih]

theorem verifyStack_iff {f : FunctionHeader} : verifyStack f = .ok () ↔ f.instructions ≠ [] ∧
    ∃ levels, Stack.Solution f levels ∧
      IsGreatest {depth | Stack.DepthOnPath f levels depth} f.stackSize := by
  have hverify : verifyStack f = .ok () ↔ Stack.verify f = .ok () := by
    unfold verifyStack
    split <;> simp_all
  rw [hverify]
  constructor
  · intro h
    obtain ⟨analysis, hanalysis, hmaximum, -⟩ := Stack.verify_sound h
    have hne : f.instructions ≠ [] := by
      intro hempty
      rw [Stack.analyze, if_pos hempty] at hanalysis
      cases hanalysis
    obtain ⟨n, hrun⟩ := Stack.analyze_rounds hanalysis
    exact ⟨hne, _, (hrun.walked hne).solution rfl, hmaximum ▸ (hrun.walked hne).isGreatest rfl⟩
  · rintro ⟨hne, levels, hsol, hgreatest⟩
    obtain ⟨analysis, hanalysis⟩ := Stack.analyze_of_solution hne hsol
    obtain ⟨n, hrun⟩ := Stack.analyze_rounds hanalysis
    -- the levels of the analysis are the solution, so the depths are the same
    have hsame : ∀ index, levels.get? index = analysis.levels.get? index :=
      hsol.unique hne hrun rfl
    have hmaximum : analysis.maximum = f.stackSize := by
      have hgreatest' := (hrun.walked hne).isGreatest rfl
      refine le_antisymm (hgreatest.2 (hgreatest'.1.extends fun index level h => ?_))
        (hgreatest'.2 (hgreatest.1.extends fun index level h => ?_))
      · rw [hsame, h]
      · rw [← hsame, h]
    rw [Stack.verify, hanalysis]
    exact if_pos hmaximum

theorem verifyFunction_iff {depth : ℕ} :
    verifyFunction abi atoms limits f depth counts = .ok counts' ↔
      (Bounded limits depth f.constants.length ∧ WellFormed abi atoms limits f) ∧
        counts' = counts.add [f] ∧ counts'.Within limits := by
  simp only [verifyFunction, unit_bind_eq_ok_iff, within_iff, verifyFunctionShape_iff,
    verifyCaptureIndexes_iff, verifyInstructions, verifyInstructionsFrom_iff, verifyStack_iff,
    addCounts]
  constructor
  · rintro ⟨hdepth, hconstants, hsize, ⟨hlocals, harguments, hpositions, hcaptures⟩, hoperands,
      ⟨hne, hstack⟩, hfunctions, hinstructions, h⟩
    cases h
    exact ⟨⟨⟨hdepth, hconstants⟩, hsize, hlocals, harguments, hpositions, hcaptures, hoperands, hne,
      hstack⟩, rfl, hfunctions, hinstructions⟩
  · rintro ⟨⟨⟨hdepth, hconstants⟩, h⟩, rfl, hfunctions, hinstructions⟩
    exact ⟨hdepth, hconstants, h.stackSize, ⟨h.locals, h.arguments, h.positions, h.captures⟩,
      h.operands, ⟨h.nonempty, h.stack⟩, hfunctions, hinstructions, rfl⟩

theorem verifyPart_iff {part : Value × ℕ} (hcounts : counts.Within limits) :
    verifyPart abi atoms limits counts part = .ok counts' ↔
      Valid abi atoms limits part ∧ counts' = counts.add (functionsOf part) ∧
        counts'.Within limits := by
  have hbounds (depth length : ℕ) : (do verifyBounds limits depth length; pure counts) =
      (Except.ok counts' : Except VerifyError Counts) ↔
        Bounded limits depth length ∧ counts' = counts.add [] ∧ counts'.Within limits := by
    simp only [verifyBounds, unit_bind_eq_ok_iff, within_iff]
    constructor
    · rintro ⟨h, ⟨⟩⟩
      exact ⟨h, rfl, hcounts⟩
    · rintro ⟨h, rfl, -⟩
      exact ⟨h, rfl⟩
  obtain ⟨value, depth⟩ := part
  cases value with
  | function f => exact verifyFunction_iff
  | array values => exact hbounds _ _
  | object values => exact hbounds _ _
  | templateObject cooked raw =>
    cases cooked with
    | array values => exact hbounds _ _
    | _ => exact iff_of_false (by rintro ⟨⟩) And.left
  | _ =>
    constructor
    · rintro ⟨⟩
      exact ⟨trivial, rfl, hcounts⟩
    · rintro ⟨-, rfl, -⟩
      rfl

theorem foldlM_verifyPart_iff {list : List (Value × ℕ)} : ∀ {counts : Counts},
    counts.Within limits → (list.foldlM (verifyPart abi atoms limits) counts = .ok counts' ↔
      (∀ part ∈ list, Valid abi atoms limits part) ∧
        counts' = counts.add (list.flatMap functionsOf) ∧ counts'.Within limits) := by
  induction list with
  | nil =>
    intro counts hcounts
    constructor
    · rintro ⟨⟩
      exact ⟨fun _ h => absurd h List.not_mem_nil, rfl, hcounts⟩
    · rintro ⟨-, rfl, -⟩
      rfl
  | cons part rest ih =>
    intro counts hcounts
    rw [List.foldlM_cons, List.flatMap_cons, Counts.add_append, List.forall_mem_cons]
    constructor
    · intro h
      obtain ⟨between, hpart, hrest⟩ := bind_eq_ok h
      obtain ⟨hvalid, rfl, hbetween⟩ := (verifyPart_iff hcounts).1 hpart
      obtain ⟨hall, hcounts'⟩ := (ih hbetween).1 hrest
      exact ⟨⟨hvalid, hall⟩, hcounts'⟩
    · rintro ⟨⟨hvalid, hall⟩, rfl, hwithin⟩
      have hbetween := Counts.within_of_add hwithin
      rw [(verifyPart_iff hcounts).2 ⟨hvalid, rfl, hbetween⟩]
      exact (ih hbetween).2 ⟨hall, rfl, hwithin⟩

/-! ### Accepted programs -/

variable (abi limits) in
structure Accepted (program : Program) : Prop where
  version : program.version = abi.bytecodeVersion
  fingerprint : program.fingerprint = abi.fingerprint
  root : ∃ f, program.root = .function f
  atoms : program.atoms.length ≤ limits .maxAtoms
  valid : ∀ part ∈ parts program.root 0, Valid abi program.atoms limits part
  total : (Counts.add ⟨0, 0⟩ ((parts program.root 0).flatMap functionsOf)).Within limits

theorem verifyHeader_iff {program : Program} : verifyHeader abi program = .ok () ↔
    program.version = abi.bytecodeVersion ∧ program.fingerprint = abi.fingerprint := by
  unfold verifyHeader
  split_ifs <;> simp_all

theorem verifyRoot_iff {value : Value} : verifyRoot value = .ok () ↔ ∃ f, value = .function f := by
  unfold verifyRoot
  split <;> simp_all

theorem exists_verifyValue_iff {value : Value} :
    (∃ counts, verifyValue abi atoms limits value 0 ⟨0, 0⟩ = .ok counts) ↔
      (∀ part ∈ parts value 0, Valid abi atoms limits part) ∧
        (Counts.add ⟨0, 0⟩ ((parts value 0).flatMap functionsOf)).Within limits := by
  have hzero : Counts.Within limits ⟨0, 0⟩ := ⟨Nat.zero_le _, Nat.zero_le _⟩
  simp only [verifyValue_eq, foldlM_verifyPart_iff hzero]
  exact ⟨fun ⟨_, hvalid, heq, hwithin⟩ => ⟨hvalid, heq ▸ hwithin⟩,
    fun ⟨hvalid, hwithin⟩ => ⟨_, hvalid, rfl, hwithin⟩⟩

theorem accepted_of_verify {program : Program} {opts : List (LimitKey × ℤ)}
    (h : verify abi program opts = .ok ()) :
    ∃ limits, Verifier.limits opts = .ok limits ∧ Accepted abi limits program := by
  obtain ⟨limits, hlimits, h⟩ := bind_eq_ok h
  refine ⟨limits, hlimits, ?_⟩
  simp only [unit_bind_eq_ok_iff, verifyHeader_iff, verifyRoot_iff, within_iff] at h
  obtain ⟨⟨hversion, hfingerprint⟩, hroot, hatoms, h⟩ := h
  obtain ⟨counts, hcounts, -⟩ := bind_eq_ok h
  obtain ⟨hvalid, htotal⟩ := exists_verifyValue_iff.1 ⟨counts, hcounts⟩
  exact ⟨hversion, hfingerprint, hroot, hatoms, hvalid, htotal⟩

/-- **The verifier** accepts exactly the programs whose header, parts and totals are right. -/
theorem verify_iff (abi : Abi) (program : Program) (opts : List (LimitKey × ℤ)) :
    verify abi program opts = .ok () ↔
      ∃ limits, Verifier.limits opts = .ok limits ∧ Accepted abi limits program := by
  refine ⟨accepted_of_verify, ?_⟩
  rintro ⟨limits, hlimits, h⟩
  obtain ⟨counts, hcounts⟩ := exists_verifyValue_iff.2 ⟨h.valid, h.total⟩
  rw [verify, hlimits]
  refine unit_bind_eq_ok_iff.2 ⟨verifyHeader_iff.2 ⟨h.version, h.fingerprint⟩, ?_⟩
  refine unit_bind_eq_ok_iff.2 ⟨verifyRoot_iff.2 h.root, ?_⟩
  refine unit_bind_eq_ok_iff.2 ⟨within_iff.2 h.atoms, ?_⟩
  exact bind_eq_ok_iff.2 ⟨counts, hcounts, rfl⟩

/-! ### Nested functions -/

theorem partsOfAll_eq (values : List Value) (depth : ℕ) :
    partsOfAll values depth = values.flatMap fun value => parts value depth := by
  induction values with
  | nil => rfl
  | cons value rest ih => rw [partsOfAll, ih, List.flatMap_cons]

theorem partsOfEntries_eq (entries : List (Binary × Value)) (depth : ℕ) :
    partsOfEntries entries depth = entries.flatMap fun entry => parts entry.2 depth := by
  induction entries with
  | nil => rfl
  | cons entry rest ih => rw [partsOfEntries, ih, List.flatMap_cons]

/-- A function nested in a valid value is one of the parts. -/
theorem mem_parts_of_nested {value : Value} (h : Nested f value) : ∀ {depth : ℕ},
    (∀ part ∈ parts value depth, Valid abi atoms limits part) →
      ∃ depth', (.function f, depth') ∈ parts value depth := by
  have hchild {child value : Value} {depth depth' : ℕ}
      (hsub : ∀ part ∈ parts child depth', part ∈ parts value depth)
      (ih : ∀ {depth : ℕ}, (∀ part ∈ parts child depth, Valid abi atoms limits part) →
        ∃ depth', (.function f, depth') ∈ parts child depth)
      (hvalid : ∀ part ∈ parts value depth, Valid abi atoms limits part) :
      ∃ depth', (.function f, depth') ∈ parts value depth :=
    (ih fun part hpart => hvalid part (hsub part hpart)).imp fun _ => hsub _
  induction h with
  | here => exact fun _ => ⟨_, List.mem_cons_self⟩
  | constant hv _ ih =>
    intro depth
    refine hchild (fun part (hpart : part ∈ parts _ (depth + 1)) => ?_) ih
    rw [parts, partsOfAll_eq]
    exact List.mem_cons_of_mem _ (List.mem_flatMap.2 ⟨_, hv, hpart⟩)
  | array hv _ ih =>
    intro depth
    refine hchild (fun part (hpart : part ∈ parts _ (depth + 1)) => ?_) ih
    rw [parts, partsOfAll_eq]
    exact List.mem_cons_of_mem _ (List.mem_flatMap.2 ⟨_, hv, hpart⟩)
  | object hv _ ih =>
    intro depth
    refine hchild (fun part (hpart : part ∈ parts _ (depth + 1)) => ?_) ih
    rw [parts, partsOfEntries_eq]
    exact List.mem_cons_of_mem _ (List.mem_flatMap.2 ⟨_, hv, hpart⟩)
  | @cooked cooked raw _ ih =>
    intro depth hvalid
    have hself : Valid abi atoms limits (.templateObject cooked raw, depth) :=
      hvalid _ (by cases cooked <;> exact List.mem_cons_self)
    cases cooked with
    | array values =>
      rw [parts] at hvalid ⊢
      -- the parts of the cooked array are itself and the parts of its values
      obtain ⟨depth', h⟩ := @ih depth fun part hpart => by
        rw [parts] at hpart
        rcases List.mem_cons.1 hpart with rfl | hpart
        · exact hself
        · exact hvalid part (List.mem_cons_of_mem _ (List.mem_append_left _ hpart))
      rw [parts] at h
      rcases List.mem_cons.1 h with heq | h
      · cases heq
      · exact ⟨depth', List.mem_cons_of_mem _ (List.mem_append_left _ h)⟩
    | _ => exact hself.elim
  | @raw cooked raw _ ih =>
    intro depth hvalid
    have hself : Valid abi atoms limits (.templateObject cooked raw, depth) :=
      hvalid _ (by cases cooked <;> exact List.mem_cons_self)
    cases cooked with
    | array values =>
      refine hchild (fun part (hpart : part ∈ parts _ (depth + 1)) => ?_) ih hvalid
      rw [parts]
      exact List.mem_cons_of_mem _ (List.mem_append_right _ hpart)
    | _ => exact hself.elim

theorem Accepted.wellFormed {program : Program} (h : Accepted abi limits program)
    (hf : Nested f program.root) : WellFormed abi program.atoms limits f :=
  have ⟨_, hpart⟩ := mem_parts_of_nested hf h.valid
  (h.valid _ hpart).2

end QuickBeam.Vm.Bytecode.Verifier
