import QuickBeam.Vm.Bytecode.InstructionRoundtrip
import QuickBeam.Vm.Runtime.InstructionEffect
import QuickBeam.Vm.Runtime.StackTracking

/-!
# The interpreter and the analysis of the stack

The level that the analysis predicts behind an instruction (`Predicts`) against the frame in which
the interpreter goes on.  The length of the stack is as predicted after every instruction but
`nip_catch`, and the innermost marker too, as long as the instruction takes no marker that stays.
`nip_catch` takes one entry below the top, whatever it is: it is as predicted exactly when the
marker is that entry.
-/

namespace QuickBeam.Vm.Runtime.Interpreter

open QuickBeam.Vm.Bytecode QuickBeam.Vm.Program
open QuickBeam.Vm.Bytecode.Verifier.Stack
open QuickBeam.Vm.Runtime.Opcode.Local (AtomTable)

/-! ### Expansion -/

def canonical (name : Op) : Op :=
  match shortForm name with
  | some (canonical, _) => canonical
  | none => (passthroughAlias name).getD name

theorem expand_fst (name : Op) (operands : List Operand) (argCount : ℕ) :
    (expandShortForm name operands argCount).1 = canonical name := by
  unfold expandShortForm canonical
  cases shortForm name with
  | none => cases passthroughAlias name <;> rfl
  | some form =>
    dsimp only
    split <;> rfl

/-- A compact encoding and its canonical name take and put as many entries. -/
structure Alias (name canonical : Op) : Prop where
  pops : canonical.row.pops = name.row.pops
  pushes : canonical.row.pushes = name.row.pushes
  kept : kept canonical = kept name
  kind : kind name = .other
  plain : Plain canonical

theorem expand_cases (name : Op) :
    (∀ operands argCount, expandShortForm name operands argCount = (name, operands)) ∨
      Alias name (canonical name) := by
  cases name <;> first
    | exact .inl fun _ _ => rfl
    | exact .inr ⟨rfl, rfl, rfl, rfl, by decide, by decide⟩

/-- The instructions that pop as many entries as their operand says. -/
def countedOps : List Op :=
  [.callConstructor, .call, .tailCall, .callMethod, .tailCallMethod, .arrayFrom, .eval, .call0,
   .call1, .call2, .call3]

variable {name : Op}

theorem variablePops_of_not_counted (h : name ∉ countedOps) (operands : List Operand) :
    variablePops name.row.format operands = 0 := by
  cases name <;> first
    | rfl
    | exact absurd (by decide) h

theorem canonical_not_counted (h : name ∉ countedOps) : canonical name ∉ countedOps := by
  cases name <;> first
    | decide
    | exact absurd (by decide) h

/-! ### Decoded operands -/

variable {jsAtomEnd argCount : ℕ} {bs : List UInt8} {instructions : List Instruction}
  {opcode : ℕ} {name : Op} {row : Row} {operands : List Operand}

variable {offsets : Instruction.Offsets} {pos : ℕ}

theorem mem_decodes (h : Instruction.Decodes jsAtomEnd bs offsets argCount pos instructions)
    (hmem : (opcode, operands) ∈ instructions) (hinfo : info opcode = some (name, row)) :
    ∃ pos, Instruction.operandsFor jsAtomEnd bs pos opcode name row.format offsets argCount =
      .ok operands := by
  induction h with
  | done => cases hmem
  | @cons pos _ _ _ _ _ hinfo' _ hoperands _ ih =>
    rcases List.mem_cons.1 hmem with heq | hmem
    · cases heq
      rw [hinfo] at hinfo'
      cases hinfo'
      exact ⟨pos + 1, hoperands⟩
    · exact ih hmem

/-- What the instructions of a function rely on in their operands. -/
structure Decoded (name : Op) (operands : List Operand) (argCount : ℕ) : Prop where
  nonneg : 0 ≤ variablePops name.row.format operands
  expanded : variablePops (canonical name).row.format (expandShortForm name operands argCount).2 =
    variablePops name.row.format operands
  depth : name = .forOfNext → ∀ depth, operands = [.int depth] → 0 ≤ depth

theorem decoded_counted (hinfo : info opcode = some (name, name.row))
    (hcounted : name ∈ countedOps)
    (h : Instruction.operandsFor jsAtomEnd bs pos opcode name name.row.format offsets argCount =
    .ok operands) : Decoded name operands argCount := by
  have hread : (0 : ℤ) ≤ Lib.Bytes.readLE bs pos 2 := Int.natCast_nonneg _
  -- the count of `call0` and its like is in the name
  have hshort : shortFormOperands opcode argCount = (expandShortForm name [] argCount).2 := by
    unfold shortFormOperands
    rw [hinfo]
  fin_cases hcounted
  all_goals first
    | cases h
      exact ⟨hread, rfl, nofun⟩
    | rw [← Except.ok.inj h]
      rw [hshort]
      exact ⟨Int.natCast_nonneg _, rfl, nofun⟩

theorem decoded (h : Instruction.decode jsAtomEnd bs argCount = .ok instructions)
    (hmem : (opcode, operands) ∈ instructions) (hinfo : info opcode = some (name, row)) :
    Decoded name operands argCount := by
  obtain ⟨offsets, -, h⟩ := Lib.bind_eq_ok h
  obtain ⟨pos, hoperands⟩ := mem_decodes (Instruction.decodes_of_decodeFrom h) hmem hinfo
  obtain rfl := (info_eq_some hinfo).2
  by_cases hcounted : name ∈ countedOps
  · exact decoded_counted hinfo hcounted hoperands
  · refine ⟨?_, ?_, ?_⟩
    · rw [variablePops_of_not_counted hcounted]
    · rw [variablePops_of_not_counted hcounted,
        variablePops_of_not_counted (canonical_not_counted hcounted)]
    · rintro rfl depth rfl
      cases hoperands
      exact Int.natCast_nonneg _

/-! ### Counts -/

theorem kept_le (name : Op) : kept name ≤ name.row.pops ∧ kept name ≤ name.row.pushes := by
  cases name <;> exact ⟨by decide, by decide⟩

theorem taking_eq (hdecoded : Decoded name operands argCount) :
    (taking name operands : ℤ) + kept name = pops name.row operands := by
  have hnonneg := hdecoded.nonneg
  have hle := (kept_le name).1
  unfold taking pops
  omega

theorem putting_eq (name : Op) : putting name + kept name = name.row.pushes := by
  have hle := (kept_le name).2
  unfold putting
  omega

theorem taking_expand (hdecoded : Decoded name operands argCount) :
    taking (expandShortForm name operands argCount).1 (expandShortForm name operands argCount).2 =
      taking name operands := by
  rw [expand_fst]
  rcases expand_cases name with hsame | halias
  · have hname : canonical name = name := by rw [← expand_fst name operands argCount, hsame]
    rw [hsame, hname]
  · unfold taking
    rw [halias.pops, halias.kept, hdecoded.expanded]

/-! ### What the interpreter does -/

section Execution

variable {W : Type} [Value.Platform] [AtomTable] {frame frame' : Frame} {execution : State W}
  {arguments : Answer} {reply : Reply W} {value : Value} {action : Action W} {clean : Prop}

theorem executeCurrent_eq (hfetch : fetch frame.function.toFunctionHeader frame.pc =
      some (name, row, operands))
    (h : executeCurrent frame execution arguments reply = .ok action) :
    ∃ opcode, frame.function.instructions[frame.pc]? = some (opcode, operands) ∧
      info opcode = some (name, row) ∧
      execute (expandShortForm name operands frame.function.argCount).1
        (expandShortForm name operands frame.function.argCount).2 frame
        { execution with remainingSteps := execution.remainingSteps - 1 } arguments reply =
          .ok action := by
  unfold fetch at hfetch
  unfold executeCurrent at h
  cases hget : frame.function.instructions[frame.pc]? with
  | none => rw [hget] at hfetch; cases hfetch
  | some instruction =>
    rw [hget] at hfetch h
    obtain ⟨opcode, operands'⟩ := instruction
    obtain ⟨⟨name', row'⟩, hinfo, heq⟩ := Option.map_eq_some_iff.1 hfetch
    cases heq
    dsimp only at h
    rw [hinfo] at h
    exact ⟨opcode, rfl, hinfo, h⟩

omit [AtomTable] in
theorem Contained.counted (h : Contained frame execution reply value) (steps : ℕ) :
    Contained frame { execution with remainingSteps := steps } reply value :=
  ⟨h.locals, h.args, h.constants, h.this, h.callable, h.forIn, h.forOf, h.cells, h.globals,
    h.answer, h.value, h.parsed⟩

inductive Outcome (clean : Prop) (frame frame' : Frame) : Op → List Operand → Prop
  | stepped {name : Op} {operands : List Operand} : name ∉ Opcode.Control.opcodes →
      name ∉ [.nip, .nipCatch] → kind name ≠ .iteratorStart →
      Stepped clean name operands frame frame' → Outcome clean frame frame' name operands
  | nipped {name : Op} {operands : List Operand} {top next : Value} {rest : List Value} :
      name ∈ [.nip, .nipCatch] → frame'.pc = frame.pc + 1 → frame.stack = top :: next :: rest →
      frame'.stack = top :: rest → Outcome clean frame frame' name operands
  | started {name : Op} {operands : List Operand} {iterable : Value} {values rest : List Value} :
      kind name = .iteratorStart → frame'.pc = frame.pc + 1 → frame.stack = iterable :: rest →
      frame'.stack = .int 0 :: .directIterator :: .forOf values 0 :: rest →
      Outcome clean frame frame' name operands
  | iterated {operands : List Operand} : Iterated clean frame frame' →
      Outcome clean frame frame' .forOfNext operands
  | controlled {name : Op} {operands : List Operand} :
      Controlled clean frame frame' name operands → Outcome clean frame frame' name operands

theorem execute_nip (hname : name ∈ [Op.nip, .nipCatch])
    (h : execute name operands frame execution arguments reply = .ok action)
    (hdone : Completed value action frame') : Outcome clean frame frame' name operands := by
  have hfamily : execute name operands frame execution arguments reply =
      Opcode.Stack.execute name operands frame execution := by
    fin_cases hname <;> rfl
  rw [hfamily] at h
  unfold Opcode.Stack.execute at h
  split at h
  · rename_i stack htransform
    cases h
    cases hdone
    have hcases : name = .nip ∨ name = .nipCatch := by simpa using hname
    unfold Opcode.Stack.transform at htransform
    rcases hcases with rfl | rfl
    all_goals
      split at htransform
      all_goals first
        | contradiction
        | cases htransform
          rename_i hstack
          exact .nipped hname rfl hstack rfl
  · cases h

theorem execute_iteratorStart (hkind : kind name = .iteratorStart)
    (h : execute name operands frame execution arguments reply = .ok action)
    (hdone : Completed value action frame') : Outcome clean frame frame' name operands := by
  have hname : name = .forOfStart ∨ name = .forAwaitOfStart := by
    cases name <;> first
      | exact .inl rfl
      | exact .inr rfl
      | cases hkind
  rcases hname with rfl | rfl
  · have hfamily : execute .forOfStart operands frame execution arguments reply =
        Opcode.Object.executeEnumeration .forOfStart operands frame
          execution reply := rfl
    rw [hfamily] at h
    unfold Opcode.Object.executeEnumeration at h
    split at h
    case h_3 iterable rest _ hstack =>
      split at h
      · cases h
        cases hdone
        exact .started hkind rfl hstack rfl
      · cases h
        cases hdone
      · cases h
    case h_6 => cases h
    all_goals contradiction
  · cases h
    cases hdone

theorem execute_outcome (hclean : clean → Contained frame execution reply value)
    (hdecoded : Decoded name operands argCount)
    (henough : taking name operands ≤ frame.stack.length)
    (h : execute (expandShortForm name operands argCount).1
      (expandShortForm name operands argCount).2 frame execution arguments reply = .ok action)
    (hdone : Completed value action frame') : Outcome clean frame frame' name operands := by
  rcases expand_cases name with hsame | halias
  · rw [hsame] at h
    by_cases hcontrol : name ∈ Opcode.Control.opcodes
    · exact .controlled (execute_controlled hclean hcontrol h hdone)
    · by_cases hnip : name ∈ [.nip, .nipCatch]
      · exact execute_nip hnip h hdone
      · by_cases hstart : kind name = .iteratorStart
        · exact execute_iteratorStart hstart h hdone
        · by_cases hnext : name = .forOfNext
          · subst hnext
            exact .iterated (execute_iterated hclean (hdecoded.depth rfl) h hdone)
          · exact .stepped hcontrol hnip hstart
              (execute_stepped hclean ⟨hcontrol, hnext⟩ hdecoded.nonneg henough h hdone)
  · have htaking := taking_expand hdecoded
    have hcount := hdecoded.expanded
    rw [expand_fst] at h htaking
    have hstepped := execute_stepped hclean halias.plain (by rw [hcount]; exact hdecoded.nonneg)
      (by rw [htaking]; exact henough) h hdone
    have hputting : putting (canonical name) = putting name := by
      unfold putting
      rw [halias.pushes, halias.kept]
    refine .stepped (fun hcontrol => ?_) (fun hnip => ?_) (fun hstart => ?_) ⟨hstepped.pc, ?_⟩
    · fin_cases hcontrol <;> exact halias.plain.1 (by decide)
    · have hkind := halias.kind
      fin_cases hnip <;> cases hkind
    · rw [halias.kind] at hstart
      cases hstart
    · rw [← htaking, ← hputting]
      exact hstepped.effect

end Execution

/-! ### What the analysis predicts -/

/-- The level that the analysis predicts behind the instruction at an index when the interpreter
goes on at `pc`: that of a transition to there and, where the analysis follows no path, the one
that the row gives. -/
inductive Predicts (f : FunctionHeader) (levels : Levels) (index : ℕ) (level : Level) (pc : ℕ) :
    Level → Prop
  | transition {name : Op} {row : Row} {operands : List Operand} {ts : List Transition}
      {t : Transition} : fetch f index = some (name, row, operands) →
      transitions f levels name operands index (level.1 + row.pushes - pops row operands) level.2 =
        .ok ts → t ∈ ts → t.index = pc → Predicts f levels index level pc (t.depth, t.catchIndex)
  | terminal {name : Op} {row : Row} {operands : List Operand} :
      fetch f index = some (name, row, operands) → kind name = .terminal →
      Predicts f levels index level pc (level.1 + row.pushes - pops row operands, level.2)

/-- The marker that stays behind an instruction: `drop`, `nip` and `iterator_close` may leave the
innermost one. -/
def staying (f : FunctionHeader) (levels : Levels) (name : Op) (operands : List Operand)
    (level : Level) : Option ℕ :=
  if name ∈ [.drop, .nip, .iteratorClose] then
    (maybeLeaveCatch f levels (catchLevel name (level.1 + name.row.pushes - pops name.row operands))
      level.2).getD level.2
  else level.2

/-- An instruction spares the marker that stays: it is below the entries that are taken. -/
def Spares (f : FunctionHeader) (levels : Levels) (name : Op) (operands : List Operand)
    (level : Level) : Prop :=
  Within f levels (staying f levels name operands level) (level.1 - taking name operands)

/-- The marker that `nip_catch` is to leave is the entry below the top. -/
def Adjacent (f : FunctionHeader) (levels : Levels) (level : Level) : Prop :=
  ∀ marker, level.2 = some marker → slotHeight f levels marker + 2 = level.1

def Follows (f : FunctionHeader) (levels : Levels) (level : Level) (frame frame' : Frame) : Prop :=
  ∃ level', Predicts f levels frame.pc level frame'.pc level' ∧
    Tracked f levels frame'.stack level'

def FollowsLength (f : FunctionHeader) (levels : Levels) (level : Level) (frame frame' : Frame) :
    Prop :=
  ∃ level', Predicts f levels frame.pc level frame'.pc level' ∧
    (frame'.stack.length : ℤ) = level'.1

/-- The entries from the innermost marker on are removed, but for the top. -/
def Nipped (f : FunctionHeader) (levels : Levels) (level : Level) (frame frame' : Frame) : Prop :=
  ∀ marker, level.2 = some marker →
    frame'.stack = frame.stack.take 1 ++
      frame.stack.drop (frame.stack.length - (slotHeight f levels marker).toNat)

/-! ### Prediction -/

section Prediction

variable {f : FunctionHeader} {levels : Levels} {level : Level} {index : ℕ} {ts : List Transition}

def Agrees (clean : Prop) (f : FunctionHeader) (levels : Levels) (name : Op)
    (operands : List Operand) (level : Level) (frame frame' : Frame) : Prop :=
  ∃ level', Predicts f levels frame.pc level frame'.pc level' ∧
    (frame'.stack.length : ℤ) = level'.1 ∧
    (clean → Spares f levels name operands level → Tracks f levels frame'.stack level'.2)

variable {catchIndex : Option ℕ} {depth : ℤ}

theorem next_mem (hkind : kind name ∈ [.withOne, .withTwo, .withPutVar, .other])
    (h : transitions f levels name operands index depth catchIndex = .ok ts) :
    next index depth catchIndex ∈ ts := by
  generalize hk : kind name = k at hkind
  fin_cases hkind
  case «2» =>
    rcases operands with _ | ⟨x, _ | ⟨target, rest⟩⟩
    · simp only [transitions, hk] at h
      cases h
    · simp only [transitions, hk] at h
      cases h
    · simp only [transitions, hk] at h
      split at h
      · cases h
        simp
      · cases h
  all_goals
    rcases operands with _ | ⟨x, _ | ⟨target, rest⟩⟩ <;> simp only [transitions, hk] at h <;>
      cases h <;> simp

variable {row : Row}

theorem predicts_next (hfetch : fetch f index = some (name, row, operands))
    (htrans : transitions f levels name operands index (level.1 + row.pushes - pops row operands)
    level.2 = .ok ts) (hmem : next index depth catchIndex ∈ ts) :
    Predicts f levels index level (index + 1) (depth, catchIndex) :=
  .transition hfetch htrans hmem (Nat.cast_succ index).symm

theorem predicts_other (hfetch : fetch f index = some (name, row, operands))
    (htrans : transitions f levels name operands index (level.1 + row.pushes - pops row operands)
    level.2 = .ok ts) (hkind : kind name ∈ [.terminal, .withOne, .withTwo, .withPutVar, .other]) :
    Predicts f levels index level (index + 1)
      (level.1 + row.pushes - pops row operands, level.2) := by
  rcases List.mem_cons.1 hkind with hterminal | hkind
  · exact .terminal hfetch hterminal
  · exact predicts_next hfetch htrans (next_mem hkind htrans)

/-! ### One instruction -/

variable {frame frame' : Frame} {clean : Prop}

theorem effect_length (hdecoded : Decoded name operands argCount)
    (hlength : (frame.stack.length : ℤ) = level.1)
    (h : Effect clean (taking name operands) (putting name) frame.stack frame'.stack) :
    (frame'.stack.length : ℤ) = level.1 + name.row.pushes - pops name.row operands := by
  have hchange := h.length
  have htaking := taking_eq hdecoded
  have hputting := putting_eq name
  omega

theorem effect_entries
    (h : Effect clean (taking name operands) (putting name) frame.stack frame'.stack)
    (hclean : clean) :
    ∃ taken put rest, frame.stack = taken ++ rest ∧ frame'.stack = put ++ rest ∧
      taken.length = taking name operands ∧ put.length = putting name ∧
      ((∀ v ∈ taken, isCatch v = false) → ∀ v ∈ put, isCatch v = false) := by
  obtain ⟨taken, put, rest, hstack, hstack', htaken, hput, hmem⟩ := h
  refine ⟨taken, put, rest, hstack, hstack', htaken, hput, fun hnone v hv => ?_⟩
  rcases hmem v hv with hv | hv
  · exact hnone v hv
  · exact hv hclean

theorem rest_length {taken rest : List Value} (hlength : (frame.stack.length : ℤ) = level.1)
    (hstack : frame.stack = taken ++ rest) (htaken : taken.length = taking name operands) :
    level.1 - taking name operands = rest.length := by
  rw [hstack, List.length_append] at hlength
  omega

theorem effect_tracks (htracked : Tracked f levels frame.stack level)
    (h : Effect clean (taking name operands) (putting name) frame.stack frame'.stack)
    (hclean : clean)
    (hspares : Within f levels level.2 (level.1 - taking name operands)) :
    Tracks f levels frame'.stack level.2 := by
  obtain ⟨taken, put, rest, hstack, hstack', htaken, -, hput⟩ := effect_entries h hclean
  rw [rest_length htracked.1 hstack htaken] at hspares
  obtain ⟨hrest, hnone⟩ := tracks_drop htracked.2 hstack hspares
  rw [hstack']
  exact tracks_append hrest (hput hnone)

theorem staying_eq (h : name ∉ [.drop, .nip, .iteratorClose]) :
    staying f levels name operands level = level.2 := if_neg h

theorem staying_leave {remaining : Option ℕ} (h : name ∈ [.drop, .nip, .iteratorClose])
    (hleave : maybeLeaveCatch f levels
      (catchLevel name (level.1 + name.row.pushes - pops name.row operands)) level.2 =
        some remaining) : staying f levels name operands level = remaining := by
  unfold staying
  rw [if_pos h, hleave]
  rfl

theorem leave_transitions (hkind : kind name = .leave)
    (h : transitions f levels name operands index depth catchIndex = .ok ts) :
    ∃ remaining, maybeLeaveCatch f levels (catchLevel name depth) catchIndex = some remaining ∧
      next index depth remaining ∈ ts := by
  rcases operands with _ | ⟨x, _ | ⟨y, ys⟩⟩
  all_goals
    simp only [transitions, hkind] at h
    split at h
    · rename_i remaining hleave
      cases h
      exact ⟨remaining, hleave, List.mem_singleton_self _⟩
    · cases h

section Agreement

variable (hfetch : fetch frame.function.toFunctionHeader frame.pc = some (name, name.row, operands))
  (htrans : transitions frame.function.toFunctionHeader levels name operands frame.pc
    (level.1 + name.row.pushes - pops name.row operands) level.2 = .ok ts)
  (htracked : Tracked frame.function.toFunctionHeader levels frame.stack level)
  (hdecoded : Decoded name operands argCount)

include hfetch htrans htracked hdecoded

theorem stepped_agrees (hcontrol : name ∉ Opcode.Control.opcodes) (hnip : name ∉ [.nip, .nipCatch])
    (hstart : kind name ≠ .iteratorStart) (h : Stepped clean name operands frame frame') :
    Agrees clean frame.function.toFunctionHeader levels name operands level frame frame' := by
  have hlength := effect_length hdecoded htracked.1 h.effect
  have hkinds : (kind name ∈ [.terminal, .withOne, .withTwo, .withPutVar, .other] ∧
      name ∉ [.drop, .nip, .iteratorClose]) ∨ kind name = .leave ∧
        (name = .nip1 ∨ name = .drop ∨ name = .iteratorClose) := by
    cases name <;> first
      | exact .inl ⟨by decide, by decide⟩
      | exact .inr ⟨rfl, by decide⟩
      | exact absurd (by decide) hcontrol
      | exact absurd (by decide) hnip
      | exact absurd rfl hstart
  rcases hkinds with ⟨hkind, hname⟩ | ⟨hkind, hname⟩
  · refine ⟨_, by rw [h.pc]; exact predicts_other hfetch htrans hkind, hlength, ?_⟩
    intro hclean hspares
    unfold Spares at hspares
    rw [staying_eq hname] at hspares
    show Tracks _ levels frame'.stack level.2
    exact effect_tracks htracked h.effect hclean hspares
  · obtain ⟨remaining, hleave, hmem⟩ := leave_transitions hkind htrans
    refine ⟨_, by rw [h.pc]; exact predicts_next hfetch htrans hmem, hlength, ?_⟩
    intro hclean hspares
    obtain ⟨taken, put, rest, hstack, hstack', htaken, hput, hputs⟩ := effect_entries h.effect hclean
    have hrest := @rest_length _ _ level _ _ _ htracked.1 hstack htaken
    unfold Spares at hspares
    rw [hrest] at hspares
    show Tracks _ levels frame'.stack remaining
    rw [hstack']
    rcases hname with rfl | hname
    · -- `nip1` is not one of those that the analysis takes to leave the marker it removes
      rw [staying_eq (by decide)] at hspares
      refine tracks_append ?_ (hputs (tracks_drop htracked.2 hstack hspares).2)
      refine tracks_maybeLeave htracked.2 hstack hleave ?_
        (within_maybeLeave htracked.2 hleave hspares)
      have htake : taking .nip1 operands = 3 := rfl
      have hpops : pops Op.nip1.row operands = 3 := rfl
      have hpushes : Op.nip1.row.pushes = 2 := rfl
      have hat : ∀ depth, catchLevel .nip1 depth = depth - 1 := fun _ => rfl
      rw [hat]
      omega
    · have hputting : putting name = 0 := by rcases hname with rfl | rfl <;> rfl
      rw [staying_leave (by rcases hname with rfl | rfl <;> decide) hleave] at hspares
      obtain rfl : put = [] := List.length_eq_zero_iff.1 (hput.trans hputting)
      rw [List.nil_append]
      refine tracks_maybeLeave htracked.2 hstack hleave ?_ hspares
      rcases hname with rfl | rfl
      · have htake : taking .drop operands = 1 := rfl
        have hpops : pops Op.drop.row operands = 1 := rfl
        have hpushes : Op.drop.row.pushes = 0 := rfl
        have hat : ∀ depth, catchLevel .drop depth = depth := fun _ => rfl
        rw [hat]
        omega
      · have htake : taking .iteratorClose operands = 3 := rfl
        have hpops : pops Op.iteratorClose.row operands = 3 := rfl
        have hpushes : Op.iteratorClose.row.pushes = 0 := rfl
        have hat : ∀ depth, catchLevel .iteratorClose depth = depth + 2 := fun _ => rfl
        rw [hat]
        omega

theorem nip_agrees {top under : Value} {rest : List Value} (hname : name = .nip)
    (hpc : frame'.pc = frame.pc + 1) (hstack : frame.stack = top :: under :: rest)
    (hstack' : frame'.stack = top :: rest) :
    Agrees clean frame.function.toFunctionHeader levels name operands level frame frame' := by
  subst hname
  obtain ⟨hlevel, htracks⟩ := htracked
  obtain ⟨remaining, hleave, hmem⟩ := leave_transitions rfl htrans
  have hpops : pops Op.nip.row operands = 2 := rfl
  have hpushes : Op.nip.row.pushes = 1 := rfl
  have hat : ∀ depth, catchLevel .nip depth = depth - 1 := fun _ => rfl
  have hlength := hlevel
  rw [hstack, List.length_cons, List.length_cons] at hlength
  refine ⟨_, by rw [hpc]; exact predicts_next hfetch htrans hmem, ?_, ?_⟩
  · show (frame'.stack.length : ℤ) = level.1 + Op.nip.row.pushes - pops Op.nip.row operands
    rw [hstack', List.length_cons]
    omega
  · intro _ hspares
    have htaking : taking .nip operands = 2 := rfl
    unfold Spares at hspares
    rw [staying_leave (by decide) hleave, htaking, show level.1 - (2 : ℕ) = rest.length by omega]
      at hspares
    show Tracks _ levels frame'.stack remaining
    have hrest := @tracks_maybeLeave _ _ _ [top, under] rest _ _ _ htracks hstack hleave
      (by rw [hat]; omega) hspares
    -- the top is above the marker, whether it is left or stays
    have habove : Within frame.function.toFunctionHeader levels level.2 (under :: rest).length :=
      within_of_maybeLeave hleave
        (hspares.mono (by rw [List.length_cons]; omega)) (by rw [hat, List.length_cons]; omega)
    rw [hstack']
    exact @tracks_append _ _ [top] _ _ hrest
      (@tracks_drop _ _ _ [top] _ _ htracks hstack habove).2

theorem start_agrees {iterable : Value} {values rest : List Value}
    (hkind : kind name = .iteratorStart) (hpc : frame'.pc = frame.pc + 1)
    (hstack : frame.stack = iterable :: rest)
    (hstack' : frame'.stack = .int 0 :: .directIterator :: .forOf values 0 :: rest)
    (hlevels : levels.get? frame.pc = some level) :
    Agrees clean frame.function.toFunctionHeader levels name operands level frame frame' := by
  obtain ⟨hlevel, htracks⟩ := htracked
  have hname : name = .forOfStart ∨ name = .forAwaitOfStart := by
    cases name <;> first
      | exact .inl rfl
      | exact .inr rfl
      | cases hkind
  have htaking : taking name operands = 1 := by rcases hname with rfl | rfl <;> rfl
  have hpops : pops name.row operands = 1 := by rcases hname with rfl | rfl <;> rfl
  have hpushes : name.row.pushes = 3 := by rcases hname with rfl | rfl <;> rfl
  have hmem : next frame.pc (level.1 + name.row.pushes - pops name.row operands) (some frame.pc) ∈
      ts := by
    rcases operands with _ | ⟨x, _ | ⟨y, ys⟩⟩
    all_goals
      simp only [transitions, hkind] at htrans
      cases htrans
      exact List.mem_singleton_self _
  rw [hstack, List.length_cons] at hlevel
  refine ⟨_, by rw [hpc]; exact predicts_next hfetch htrans hmem, ?_, ?_⟩
  · show (frame'.stack.length : ℤ) = level.1 + name.row.pushes - pops name.row operands
    rw [hstack']
    simp only [List.length_cons]
    omega
  · intro _ hspares
    unfold Spares at hspares
    rw [staying_eq (by rcases hname with rfl | rfl <;> decide), htaking,
      show level.1 - (1 : ℕ) = rest.length by omega] at hspares
    have hrest := (@tracks_drop _ _ _ [iterable] rest _ htracks hstack hspares).1
    have hmarker : IsMarker frame.function.toFunctionHeader frame.pc (.forOf values 0) :=
      .iterator hfetch hkind
    have hextra : extra frame.function.toFunctionHeader frame.pc = 2 := by
      rcases hmarker.cases with ⟨-, target, h⟩ | ⟨h, -⟩
      · cases h
      · exact h
    show Tracks _ levels frame'.stack (some frame.pc)
    rw [hstack']
    refine @Tracks.marker _ _ [.int 0, .directIterator] rest _ _ level.1 _ hmarker hlevels
      (by rw [hextra]; omega) (fun v hv => ?_) hrest
    rcases List.mem_cons.1 hv with rfl | hv
    · rfl
    · rw [List.mem_singleton.1 hv]
      rfl

theorem iterated_agrees (hname : name = .forOfNext) (h : Iterated clean frame frame') :
    Agrees clean frame.function.toFunctionHeader levels name operands level frame frame' := by
  subst hname
  obtain ⟨position, index, index', values, put, hget, hstack', hput, hclean⟩ := h.stack
  obtain ⟨hlevel, htracks⟩ := htracked
  have hpops : pops Op.forOfNext.row operands = 3 := rfl
  have hpushes : Op.forOfNext.row.pushes = 5 := rfl
  refine ⟨_, by rw [h.pc]; exact predicts_other hfetch htrans (by decide), ?_, fun hc _ => ?_⟩
  · show (frame'.stack.length : ℤ) =
      level.1 + Op.forOfNext.row.pushes - pops Op.forOfNext.row operands
    rw [hstack', List.length_append, List.length_set]
    omega
  · show Tracks _ levels frame'.stack level.2
    rw [hstack']
    exact tracks_append (tracks_set hget htracks) (hclean hc)

/-! ### Control -/

omit hfetch htrans htracked hdecoded in
theorem label_eq {target : Operand} (h : 0 ≤ label target) : label target = labelTarget target := by
  cases target with
  | int index => exact (Int.toNat_of_nonneg h).symm
  | predefined index => cases h
  | taggedInt value => cases h
  | emptyString => cases h

theorem controlled_agrees (hreached : ∀ t ∈ ts, 0 ≤ t.index)
    (hlevels : levels.get? frame.pc = some level)
    (h : Controlled clean frame frame' name operands) :
    Agrees clean frame.function.toFunctionHeader levels name operands level frame frame' := by
  have hout : Predicts frame.function.toFunctionHeader levels frame.pc level frame'.pc
        (level.1 + name.row.pushes - pops name.row operands, level.2) →
      Effect clean (taking name operands) (putting name) frame.stack frame'.stack →
      name ∉ [.drop, .nip, .iteratorClose] →
      Agrees clean frame.function.toFunctionHeader levels name operands level frame frame' := by
    intro hpredicts heffect hname
    refine ⟨_, hpredicts, effect_length hdecoded htracked.1 heffect, fun hclean hspares => ?_⟩
    unfold Spares at hspares
    rw [staying_eq hname] at hspares
    show Tracks _ levels frame'.stack level.2
    exact effect_tracks htracked heffect hclean hspares
  obtain ⟨hlevel, htracks⟩ := htracked
  cases h with
  | await hstepped =>
    exact hout (by rw [hstepped.pc]; exact predicts_other hfetch htrans (by decide))
      hstepped.effect (by decide)
  | @goto _ target hkind hpc heffect =>
    have hmem : (⟨label target, level.1 + name.row.pushes - pops name.row [target], level.2⟩ :
        Transition) ∈ ts := by
      simp only [transitions, hkind] at htrans
      cases htrans
      exact List.mem_singleton_self _
    exact hout (.transition hfetch htrans hmem (by rw [hpc]; exact label_eq (hreached _ hmem)))
      heffect (by intro hname; fin_cases hname <;> cases hkind)
  | @branch _ target hkind hpc heffect =>
    have hboth : (⟨label target, level.1 + name.row.pushes - pops name.row [target], level.2⟩ :
        Transition) ∈ ts ∧
        next frame.pc (level.1 + name.row.pushes - pops name.row [target]) level.2 ∈ ts := by
      simp only [transitions, hkind] at htrans
      cases htrans
      exact ⟨List.mem_cons_self, List.mem_cons_of_mem _ (List.mem_singleton_self _)⟩
    refine hout ?_ heffect (by intro hname; fin_cases hname <;> cases hkind)
    rcases hpc with hpc | hpc
    · exact .transition hfetch htrans hboth.1 (by rw [hpc]; exact label_eq (hreached _ hboth.1))
    · rw [hpc]
      exact predicts_next hfetch htrans hboth.2
  | @catch_ target hpc hstack' =>
    have hmem : next frame.pc (level.1 + Op.catch_.row.pushes - pops Op.catch_.row [target])
        (some frame.pc) ∈ ts := by
      simp only [transitions, kind] at htrans
      cases htrans
      exact List.mem_cons_of_mem _ (List.mem_singleton_self _)
    have hmarker : IsMarker frame.function.toFunctionHeader frame.pc
        (.catchMarker (labelTarget target)) := .catch_ hfetch
    have hextra : extra frame.function.toFunctionHeader frame.pc = 1 := by
      rcases hmarker.cases with ⟨h, -⟩ | ⟨-, values, next, h⟩
      · exact h
      · cases h
    have hpops : pops Op.catch_.row [target] = 0 := rfl
    have hpushes : Op.catch_.row.pushes = 1 := rfl
    refine ⟨_, by rw [hpc]; exact predicts_next hfetch htrans hmem, ?_, fun _ _ => ?_⟩
    · show (frame'.stack.length : ℤ) =
        level.1 + Op.catch_.row.pushes - pops Op.catch_.row [target]
      rw [hstack', List.length_cons]
      omega
    · show Tracks _ levels frame'.stack (some frame.pc)
      rw [hstack']
      exact @Tracks.marker _ _ [] frame.stack _ _ level.1 _ hmarker hlevels
        (by rw [hextra]; omega) (fun v hv => by cases hv) htracks
  | @gosub target hpc hstack' =>
    have hmem : (⟨label target, level.1 + Op.gosub.row.pushes - pops Op.gosub.row [target] + 1,
        level.2⟩ : Transition) ∈ ts := by
      simp only [transitions, kind] at htrans
      cases htrans
      exact List.mem_cons_self
    have hpops : pops Op.gosub.row [target] = 0 := rfl
    have hpushes : Op.gosub.row.pushes = 0 := rfl
    refine ⟨_, .transition hfetch htrans hmem (by rw [hpc]; exact label_eq (hreached _ hmem)), ?_,
      fun _ _ => ?_⟩
    · show (frame'.stack.length : ℤ) =
        level.1 + Op.gosub.row.pushes - pops Op.gosub.row [target] + 1
      rw [hstack', List.length_cons]
      omega
    · show Tracks _ levels frame'.stack level.2
      rw [hstack']
      refine @tracks_append _ _ [.returnAddress (frame.pc + 1)] _ _ htracks fun v hv => ?_
      rw [List.mem_singleton.1 hv]
      rfl
  | @ret address hpc hstack =>
    refine hout (.terminal hfetch rfl) ?_ (by decide)
    rw [hstack]
    exact @effect_take _ _ [.returnAddress address] _ rfl

/-! ### `nip_catch` -/

omit htracked hdecoded in
theorem predicts_nipCatch (hname : name = .nipCatch) :
    ∃ marker entry parent, level.2 = some marker ∧ levels.get? marker = some (entry, parent) ∧
      ∀ level', Predicts frame.function.toFunctionHeader levels frame.pc level (frame.pc + 1) level' ↔
        level' = (entry + extra frame.function.toFunctionHeader marker, parent) := by
  subst hname
  have hshape : ∃ marker entry parent, level.2 = some marker ∧
      levels.get? marker = some (entry, parent) ∧
      ts = [next frame.pc (entry + extra frame.function.toFunctionHeader marker) parent] := by
    cases hmarker : level.2 with
    | none =>
      rcases operands with _ | ⟨x, _ | ⟨y, ys⟩⟩ <;> simp [transitions, kind, hmarker] at htrans
    | some marker =>
      cases hentry : levels.get? marker with
      | none =>
        rcases operands with _ | ⟨x, _ | ⟨y, ys⟩⟩ <;>
          simp [transitions, kind, hmarker, hentry] at htrans
      | some pair =>
        obtain ⟨entry, parent⟩ := pair
        refine ⟨marker, entry, parent, rfl, hentry, ?_⟩
        rcases operands with _ | ⟨x, _ | ⟨y, ys⟩⟩ <;>
          simpa [transitions, kind, hmarker, hentry] using htrans.symm
  obtain ⟨marker, entry, parent, hmarker, hentry, rfl⟩ := hshape
  refine ⟨marker, entry, parent, hmarker, hentry, fun level' => ⟨fun h => ?_, ?_⟩⟩
  · cases h with
    | transition hfetch' htrans' hmem _ =>
      rw [hfetch] at hfetch'
      cases hfetch'
      rw [htrans] at htrans'
      cases htrans'
      rw [List.mem_singleton.1 hmem]
      rfl
    | terminal hfetch' hkind =>
      rw [hfetch] at hfetch'
      cases hfetch'
      cases hkind
  · rintro rfl
    exact predicts_next hfetch htrans (List.mem_singleton_self _)

omit hdecoded in
/-- `nip_catch` removes one entry; the analysis takes it to remove those from the marker on. -/
theorem nipCatch_iff {top under : Value} {rest : List Value} (hname : name = .nipCatch)
    (hpc : frame'.pc = frame.pc + 1) (hstack : frame.stack = top :: under :: rest)
    (hstack' : frame'.stack = top :: rest) :
    (FollowsLength frame.function.toFunctionHeader levels level frame frame' ↔
        Adjacent frame.function.toFunctionHeader levels level) ∧
      (Follows frame.function.toFunctionHeader levels level frame frame' ↔
        Adjacent frame.function.toFunctionHeader levels level) ∧
      (Nipped frame.function.toFunctionHeader levels level frame frame' ↔
        Adjacent frame.function.toFunctionHeader levels level) := by
  obtain ⟨marker, entry, parent, hmarker, hentry, hpredicts⟩ :=
    predicts_nipCatch hfetch htrans hname
  obtain ⟨hlevel, htracks⟩ := htracked
  rw [hmarker] at htracks
  have hslot := slotHeight_eq (f := frame.function.toFunctionHeader) hentry
  obtain ⟨hnonneg, hheight⟩ := tracks_slot htracks
  have hadjacent : Adjacent frame.function.toFunctionHeader levels level ↔
      slotHeight frame.function.toFunctionHeader levels marker = rest.length := by
    rw [hstack, List.length_cons, List.length_cons] at hlevel
    constructor
    · intro h
      have hone := h marker hmarker
      omega
    · intro h other hother
      rw [hmarker] at hother
      cases hother
      omega
  have hlength : FollowsLength frame.function.toFunctionHeader levels level frame frame' ↔
      Adjacent frame.function.toFunctionHeader levels level := by
    unfold FollowsLength
    rw [hadjacent, hpc, hstack', List.length_cons]
    constructor
    · rintro ⟨level', hpredicted, hlevel'⟩
      rw [(hpredicts level').1 hpredicted] at hlevel'
      dsimp only at hlevel'
      omega
    · intro h
      refine ⟨_, (hpredicts _).2 rfl, ?_⟩
      dsimp only
      omega
  refine ⟨hlength, ⟨fun h => ?_, fun h => ?_⟩, ?_⟩
  · obtain ⟨level', hpredicted, htracked'⟩ := h
    exact hlength.1 ⟨level', hpredicted, htracked'.1⟩
  · obtain ⟨level', hpredicted, hlevel'⟩ := hlength.2 h
    refine ⟨level', hpredicted, hlevel', ?_⟩
    rw [hpc] at hpredicted
    rw [(hpredicts level').1 hpredicted]
    rw [hadjacent] at h
    -- the marker is the entry below the top, and what is below it has the level of its instruction
    have hrest : Tracks frame.function.toFunctionHeader levels rest parent :=
      @tracks_leave _ _ _ [top, under] rest _ _ _ htracks hstack hentry (by omega)
        ((tracks_parent htracks hentry).mono (by omega))
    have habove : Within frame.function.toFunctionHeader levels (some marker)
        (under :: rest).length := by
      intro _ heq
      cases heq
      rw [List.length_cons]
      omega
    show Tracks _ levels frame'.stack parent
    rw [hstack']
    exact @tracks_append _ _ [top] _ _ hrest
      (@tracks_drop _ _ _ [top] _ _ htracks hstack habove).2
  · rw [hadjacent]
    have htake : frame.stack.take 1 = [top] := by rw [hstack]; rfl
    have hfull : frame.stack.length = rest.length + 2 := by rw [hstack]; rfl
    constructor
    · intro h
      have hdrop := h marker hmarker
      rw [hstack', htake] at hdrop
      have hlengths := congrArg List.length (List.cons.inj hdrop).2
      change rest.length = (List.drop _ frame.stack).length at hlengths
      rw [List.length_drop, hfull] at hlengths
      omega
    · intro h other hother
      rw [hmarker] at hother
      cases hother
      rw [h, hfull, hstack', htake, hstack, Int.toNat_natCast, Nat.add_sub_cancel_left]
      rfl

end Agreement

end Prediction

/-! ### Any instruction -/

/-- **The interpreter against the analysis.**  In a decoded function that the analysis accepts, from
a frame that has the level of its instruction, an instruction that completes leaves a stack of the
length that the analysis predicts, and the innermost marker too where the instruction spares the one
that stays and no catch marker is off the stack.  The exception is `nip_catch`: length, marker and
the entries that stay are as predicted exactly when the marker is the entry below the top. -/
theorem executeCurrent_follows {W : Type} [Value.Platform] [AtomTable] {frame frame' : Frame}
    {execution : State W} {arguments : Answer} {reply : Reply W} {value : Value}
    {action : Action W} {analysis : Analysis} {jsAtomEnd : ℕ} {bs : List UInt8} {name : Op}
    {row : Row} {operands : List Operand} {level : Level}
    (hdecode : Instruction.decode jsAtomEnd bs frame.function.argCount =
      .ok frame.function.instructions)
    (hanalysis : analyze frame.function.toFunctionHeader = .ok analysis)
    (hfetch : fetch frame.function.toFunctionHeader frame.pc = some (name, row, operands))
    (hlevel : analysis.levels.get? frame.pc = some level)
    (htracked : Tracked frame.function.toFunctionHeader analysis.levels frame.stack level)
    (hexecute : executeCurrent frame execution arguments reply = .ok action)
    (hcompleted : Completed value action frame') :
    (FollowsLength frame.function.toFunctionHeader analysis.levels level frame frame' ↔
        (name = .nipCatch → Adjacent frame.function.toFunctionHeader analysis.levels level)) ∧
      (name = .nipCatch →
        (Follows frame.function.toFunctionHeader analysis.levels level frame frame' ↔
            Adjacent frame.function.toFunctionHeader analysis.levels level) ∧
          (Nipped frame.function.toFunctionHeader analysis.levels level frame frame' ↔
            Adjacent frame.function.toFunctionHeader analysis.levels level)) ∧
      (name ≠ .nipCatch → Contained frame execution reply value →
        Spares frame.function.toFunctionHeader analysis.levels name operands level →
        Follows frame.function.toFunctionHeader analysis.levels level frame frame') := by
  obtain ⟨opcode, hget, hinfo, hfamily⟩ := executeCurrent_eq hfetch hexecute
  obtain rfl := (info_eq_some hinfo).2
  obtain ⟨name', row', operands', ts, hfetch', hpops, -, htrans, hreached⟩ :=
    (analyze_sound hanalysis).settled frame.pc level hlevel
  rw [hfetch] at hfetch'
  cases hfetch'
  have hdecoded := decoded hdecode (List.mem_of_getElem? hget) hinfo
  have henough : taking name operands ≤ frame.stack.length := by
    have htaking := taking_eq hdecoded
    have hlength := htracked.1
    omega
  have houtcome := execute_outcome
    (fun hcontained : Contained frame execution reply value => hcontained.counted _) hdecoded
    henough hfamily hcompleted
  by_cases hname : name = .nipCatch
  · obtain ⟨hiff, hfollows, hnipped⟩ :
        (FollowsLength _ analysis.levels level frame frame' ↔ Adjacent _ analysis.levels level) ∧
        (Follows _ analysis.levels level frame frame' ↔ Adjacent _ analysis.levels level) ∧
        (Nipped _ analysis.levels level frame frame' ↔ Adjacent _ analysis.levels level) := by
      cases houtcome with
      | nipped _ hpc hstack hstack' =>
        exact nipCatch_iff hfetch htrans htracked hname hpc hstack hstack'
      | stepped _ hnip => exact absurd (by rw [hname]; decide) hnip
      | started hkind => rw [hname] at hkind; cases hkind
      | iterated => cases hname
      | controlled hcontrolled => subst hname; cases hcontrolled <;> contradiction
    exact ⟨⟨fun h _ => hiff.1 h, fun h => hiff.2 (h hname)⟩, fun _ => ⟨hfollows, hnipped⟩,
      fun hne => absurd hname hne⟩
  · obtain ⟨level', hpredicts, hlength, htracks⟩ :
        Agrees (Contained frame execution reply value) frame.function.toFunctionHeader
          analysis.levels name operands level frame frame' := by
      cases houtcome with
      | stepped hcontrol hnip hstart hstepped =>
        exact stepped_agrees hfetch htrans htracked hdecoded hcontrol hnip hstart hstepped
      | nipped hnip hpc hstack hstack' =>
        have hnip' : name = .nip := by
          rcases List.mem_cons.1 hnip with h | h
          · exact h
          · exact absurd (List.mem_singleton.1 h) hname
        exact nip_agrees hfetch htrans htracked hdecoded hnip' hpc hstack hstack'
      | started hkind hpc hstack hstack' =>
        exact start_agrees hfetch htrans htracked hdecoded hkind hpc hstack hstack' hlevel
      | iterated hiterated => exact iterated_agrees hfetch htrans htracked hdecoded rfl hiterated
      | controlled hcontrolled =>
        exact controlled_agrees hfetch htrans htracked hdecoded
          (fun t ht => (hreached t ht).nonneg) hlevel hcontrolled
    exact ⟨⟨fun _ h => absurd h hname, fun _ => ⟨level', hpredicts, hlength⟩⟩,
      fun h => absurd h hname,
      fun _ hcontained hspares => ⟨level', hpredicts, hlength, htracks hcontained hspares⟩⟩

/-! ### A return from a loop under a `catch` -/

/-- A `return` whose value is over a loop entry and a marker: `catch`, two entries, `nip_catch` and
`return`, which is the handler too. -/
def returnCode : List UInt8 := [107, 7, 0, 0, 0, 6, 10, 110, 40]

def returnFunction : Function where
  id := 0
  argCount := 0
  varCount := 0
  definedArgCount := 0
  stackSize := 3
  varRefCount := 0
  locals := []
  closureVars := []
  instructions := [(107, [.int 4]), (6, []), (10, []), (110, []), (40, [])]
  sourcePositions := []
  hasPrototype := false
  funcKind := 0
  constants := []

def returnLevels : Levels :=
  (((((∅ : Levels).put 0 (0, none)).put 4 (1, none)).put 1 (1, some 0)).put 2 (2, some 0)).put 3
    (3, some 0)

def returnFrame : Frame :=
  { newFrame returnFunction .undefined [] .undefined [] with
    pc := 3
    stack := [.bool true, .undefined, .catchMarker 4] }

def returnState : State Unit where
  atoms := []
  callers := []
  cells := ∅
  nextCellId := 0
  globals := ∅
  coroutines := []
  depth := 1
  maxStackDepth := 1
  remainingSteps := 1
  stepLimit := 1
  memoryExceeded := false
  syncJobsPending := false
  world := ()

def noReply : Reply Unit := ⟨.error .undefined, (), false⟩

theorem decode_returnCode : Instruction.decode 230 returnCode 0 = .ok returnFunction.instructions := by
  have hcatch : info (Lib.Bytes.byteAt returnCode 0) = some (.catch_, ⟨5, 0, 1, .label⟩) := rfl
  have hundefined : info (Lib.Bytes.byteAt returnCode 5) = some (.undefined, ⟨1, 0, 1, .none⟩) := rfl
  have htrue : info (Lib.Bytes.byteAt returnCode 6) = some (.pushTrue, ⟨1, 0, 1, .none⟩) := rfl
  have hnip : info (Lib.Bytes.byteAt returnCode 7) = some (.nipCatch, ⟨1, 2, 1, .none⟩) := rfl
  have hreturn : info (Lib.Bytes.byteAt returnCode 8) = some (.return_, ⟨1, 1, 0, .none⟩) := rfl
  have hmap : Instruction.buildOffsetMap returnCode =
      .ok (((((∅ : Instruction.Offsets).put 0 0).put 5 1).put 6 2).put 7 3 |>.put 8 4) := by
    refine (Instruction.buildOffsetMapFrom_next (by decide) hcatch (by decide)).trans ?_
    refine (Instruction.buildOffsetMapFrom_next (by decide) hundefined (by decide)).trans ?_
    refine (Instruction.buildOffsetMapFrom_next (by decide) htrue (by decide)).trans ?_
    refine (Instruction.buildOffsetMapFrom_next (by decide) hnip (by decide)).trans ?_
    refine (Instruction.buildOffsetMapFrom_next (by decide) hreturn (by decide)).trans ?_
    rw [Instruction.buildOffsetMapFrom, if_pos (by decide)]
  unfold Instruction.decode
  rw [hmap]
  refine (Instruction.Decodes.cons (by decide) hcatch (by decide) rfl ?_).decodeFrom
  refine .cons (by decide) hundefined (by decide) rfl ?_
  refine .cons (by decide) htrue (by decide) rfl ?_
  refine .cons (by decide) hnip (by decide) rfl ?_
  exact .cons (by decide) hreturn (by decide) rfl (.done (by decide))

theorem analyze_returnFunction :
    analyze returnFunction.toFunctionHeader = .ok ⟨returnLevels, 3⟩ := rfl

theorem tracked_returnFrame : Tracked returnFunction.toFunctionHeader returnLevels
    returnFrame.stack (3, some 0) := by
  refine ⟨rfl, @Tracks.marker _ _ [.bool true, .undefined] [] _ _ 0 none
    (@IsMarker.catch_ _ _ _ (.int 4) rfl) rfl rfl (fun v hv => ?_) (.none fun v hv => by cases hv)⟩
  fin_cases hv <;> rfl

/-- `nip_catch` at `returnFrame`: the loop entry is removed and the marker stays. -/
theorem nipCatch_leaves_marker :
    analyze returnFunction.toFunctionHeader = .ok ⟨returnLevels, 3⟩ ∧
      Tracked returnFunction.toFunctionHeader returnLevels returnFrame.stack (3, some 0) ∧
      ∃ frame', frame'.stack = [.bool true, .catchMarker 4] ∧
        (∃ action, @executeCurrent Unit Value.noNumbers ⟨fun _ => none⟩ returnFrame returnState
          (.error .undefined) noReply = .ok action ∧ Completed .undefined action frame') ∧
        ¬FollowsLength returnFunction.toFunctionHeader returnLevels (3, some 0) returnFrame frame' ∧
        ¬Follows returnFunction.toFunctionHeader returnLevels (3, some 0) returnFrame frame' ∧
        ¬Nipped returnFunction.toFunctionHeader returnLevels (3, some 0) returnFrame frame' := by
  have hnot : ¬Adjacent returnFunction.toFunctionHeader returnLevels (3, some 0) :=
    fun h => absurd (h 0 rfl) (by decide)
  obtain ⟨hlength, hfollows, hnipped⟩ := @nipCatch_iff .nipCatch [] returnLevels (3, some 0)
    [⟨4, 1, none⟩] returnFrame
    { returnFrame with
      pc := 4
      stack := [.bool true, .catchMarker 4] }
    rfl rfl tracked_returnFrame (.bool true) .undefined [.catchMarker 4] rfl rfl rfl rfl
  exact ⟨rfl, tracked_returnFrame, _, rfl, ⟨_, rfl, .next⟩, fun h => hnot (hlength.1 h),
    fun h => hnot (hfollows.1 h), fun h => hnot (hnipped.1 h)⟩

/-- **The interpreter against the analysis**, at the `nip_catch` of `returnFrame`. -/
theorem executeCurrent_follows_returnFrame :
    ¬Follows returnFunction.toFunctionHeader returnLevels (3, some 0) returnFrame
      { returnFrame with
        pc := 4
        stack := [.bool true, .catchMarker 4] } := by
  have h := (@executeCurrent_follows Unit Value.noNumbers ⟨fun _ => none⟩ returnFrame _ returnState
    (.error .undefined) noReply .undefined _ _ 230 returnCode .nipCatch _ [] (3, some 0)
    decode_returnCode rfl rfl rfl tracked_returnFrame rfl .next).2.1 rfl
  exact fun hfollows => absurd (h.1.1 hfollows 0 rfl) (by decide)

end QuickBeam.Vm.Runtime.Interpreter
