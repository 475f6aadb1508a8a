import QuickBeam.Lib.SortedLookup
import QuickBeam.Vm.Bytecode.InstructionRoundtrip
import QuickBeam.Vm.Bytecode.Varint

/-!
# Source positions of the instructions (`source_positions` in `bytecode/decoder.ex`)

A function carries its line table as a string of deltas.  The decoder expands it once, and gives
every instruction a position in one pass over the instruction offsets and the entries; QuickJS
looks a position up when it needs one (`find_line_num` in `quickjs.c`).  Offsets and entries both
go up, so the pass gives each offset the last entry that is not behind it
(`positionsForOffsets_eq`).  The two part where the table is broken: the decoder keeps the
entries before the break, QuickJS gives up and answers with the line of the function.
-/

namespace QuickBeam.Vm.Bytecode.SourcePositions

open QuickBeam.Lib QuickBeam.Lib.Bytes QuickBeam.Lib.SortedLookup
open QuickBeam.Vm.Bytecode.Instruction QuickBeam.Vm.Bytecode.Varint

/-! ### The decoder -/

abbrev Position := ℤ × ℤ

abbrev Entry := ℕ × Position

/-- What `read_debug_info/3` gives to the positions. -/
structure DebugInfo where
  pc2line : List UInt8
  lineNum : ℕ
  colNum : ℕ

def DebugInfo.position (debugInfo : DebugInfo) : Position := (debugInfo.lineNum, debugInfo.colNum)

def pc2lineBase : ℤ := -1

def pc2lineRange : ℕ := 5

def pc2lineOpFirst : ℕ := 1

/-- `instruction_offsets/4`, which gives the offsets in their order. -/
def instructionOffsetsFrom (bs : List UInt8) (pos : ℕ) : List ℕ :=
  if bs.length ≤ pos then []
  else
    match h : info (byteAt bs pos) with
    | some (_, row) => pos :: instructionOffsetsFrom bs (pos + row.size)
    | none => []
termination_by bs.length - pos
decreasing_by
  have := info_size h
  omega

def instructionOffsets (byteCode : List UInt8) : List ℕ := instructionOffsetsFrom byteCode 0

/-- `next_pc2line_entry/5`: the entry after `entry`, and the rest of the data. -/
def nextPc2lineEntry (leb : Leb128) (opByte : UInt8) (rest : List UInt8) (entry : Entry) :
    Option (Entry × List UInt8) :=
  let (pc, lineNum, colNum) := entry
  if opByte = 0 then
    match readUnsigned leb rest with
    | .error _ => none
    | .ok (diffPc, rest) =>
        match readSigned leb rest with
        | .error _ => none
        | .ok (diffLine, rest) =>
            match readSigned leb rest with
            | .error _ => none
            | .ok (diffCol, rest) =>
                some ((pc + diffPc, lineNum + diffLine, colNum + diffCol), rest)
  else
    let op := opByte.toNat - pc2lineOpFirst
    match readSigned leb rest with
    | .error _ => none
    | .ok (diffCol, rest) =>
        some ((pc + op / pc2lineRange, lineNum + (op % pc2lineRange : ℕ) + pc2lineBase,
          colNum + diffCol), rest)

/-- `do_pc2line_entries/5`, one unit of fuel an entry; an entry takes at least one byte. -/
def doPc2lineEntries (leb : Leb128) : ℕ → List UInt8 → Entry → List Entry
  | _, [], _ => []
  | 0, _, _ => []
  | fuel + 1, opByte :: rest, entry =>
      match nextPc2lineEntry leb opByte rest entry with
      | some (next, rest) => next :: doPc2lineEntries leb fuel rest next
      | none => []

/-- `pc2line_entries/3` without the entry of the function, which is the first one. -/
def pc2lineEntries (leb : Leb128) (debugInfo : DebugInfo) : List Entry :=
  doPc2lineEntries leb debugInfo.pc2line.length debugInfo.pc2line (0, debugInfo.position)

def advanceSourcePosition (offset : ℕ) : Position → List Entry → Position × List Entry
  | current, [] => (current, [])
  | current, (pc, position) :: rest =>
      if pc ≤ offset then advanceSourcePosition offset position rest
      else (current, (pc, position) :: rest)

def positionsForOffsets : List ℕ → Position → List Entry → List Position
  | [], _, _ => []
  | offset :: offsets, current, entries =>
      let (current, entries) := advanceSourcePosition offset current entries
      current :: positionsForOffsets offsets current entries

def sourcePositions (leb : Leb128) (byteCode : List UInt8) (debugInfo : DebugInfo) :
    List Position :=
  positionsForOffsets (instructionOffsets byteCode) debugInfo.position
    (pc2lineEntries leb debugInfo)

/-! ### QuickJS -/

/-- The loop of `find_line_num`, one unit of fuel an entry; `none` is `goto fail`. -/
def findLineNumFrom (pcValue : ℕ) : ℕ → List UInt8 → Entry → Option Position
  | _, [], (_, position) => some position
  | 0, _, _ => none
  | fuel + 1, op :: rest, (pc, lineNum, colNum) => do
      let (pc, newLineNum, rest) ←
        if op = 0 then do
          let (val, rest) ← getLeb128 rest
          let (v, rest) ← getSleb128 rest
          pure ((pc + val) % 2 ^ 32, wrap32 (lineNum + v), rest)
        else
          let op := op.toNat - pc2lineOpFirst
          pure ((pc + op / pc2lineRange) % 2 ^ 32,
            wrap32 (lineNum + (op % pc2lineRange : ℕ) + pc2lineBase), rest)
      let (v, rest) ← getSleb128 rest
      if pcValue < pc then some (lineNum, colNum)
      else findLineNumFrom pcValue fuel rest (pc, newLineNum, wrap32 (colNum + v))

/-- `find_line_num`: the line and `*col`.  The reader of a function allocates no buffer for an
empty line table. -/
def findLineNum (debugInfo : DebugInfo) (pcValue : ℕ) : Position :=
  let failed : Position := (wrap32 debugInfo.lineNum, 1)
  if debugInfo.pc2line = [] then failed
  else
    (findLineNumFrom pcValue debugInfo.pc2line.length debugInfo.pc2line
      (0, wrap32 debugInfo.lineNum, wrap32 debugInfo.colNum)).getD failed

/-! ### Entries go up -/

variable {entry next : Entry} {leb : Leb128} {opByte : UInt8} {rest rest' : List UInt8}

theorem nextPc2lineEntry_le (h : nextPc2lineEntry leb opByte rest entry = some (next, rest')) :
    entry.1 ≤ next.1 := by
  unfold nextPc2lineEntry at h
  repeat' split at h
  all_goals cases h
  all_goals exact Nat.le_add_right _ _

theorem doPc2lineEntries_sorted (leb : Leb128) (fuel : ℕ) :
    ∀ (data : List UInt8) (entry : Entry),
      Sorted (entry :: doPc2lineEntries leb fuel data entry) := by
  induction fuel with
  | zero =>
    intro data entry
    cases data <;> exact List.pairwise_singleton _ _
  | succ fuel ih =>
    intro data entry
    cases data with
    | nil => exact List.pairwise_singleton _ _
    | cons opByte rest =>
      rw [doPc2lineEntries]
      cases hnext : nextPc2lineEntry leb opByte rest entry with
      | none => exact List.pairwise_singleton _ _
      | some found =>
        obtain ⟨next, rest'⟩ := found
        have hle := nextPc2lineEntry_le hnext
        have hrest := ih rest' next
        refine List.pairwise_cons.2 ⟨fun e hmem => ?_, hrest⟩
        rcases List.mem_cons.1 hmem with rfl | hmem
        · exact hle
        · exact hle.trans (List.rel_of_pairwise_cons hrest hmem)

theorem pc2lineEntries_sorted (leb : Leb128) (debugInfo : DebugInfo) :
    Sorted (pc2lineEntries leb debugInfo) :=
  (doPc2lineEntries_sorted leb _ _ _).tail

/-! ### One pass over offsets and entries -/

variable {offset : ℕ}

theorem advanceSourcePosition_spec {entries : List Entry} (hsorted : Sorted entries)
    (current : Position) :
    (advanceSourcePosition offset current entries).1 = lastAtMost current entries offset ∧
    Sorted (advanceSourcePosition offset current entries).2 ∧
    ∀ later, offset ≤ later →
      lastAtMost (advanceSourcePosition offset current entries).1
        (advanceSourcePosition offset current entries).2 later = lastAtMost current entries later := by
  induction entries generalizing current with
  | nil => exact ⟨rfl, hsorted, fun later _ => rfl⟩
  | cons e rest ih =>
    obtain ⟨pc, position⟩ := e
    by_cases hle : pc ≤ offset
    · rw [advanceSourcePosition, if_pos hle, lastAtMost_cons_of_le current rest hle]
      obtain ⟨hfirst, hrest, hlater⟩ := ih (List.Pairwise.of_cons hsorted) position
      refine ⟨hfirst, hrest, fun later hl => ?_⟩
      rw [hlater later hl, lastAtMost_cons_of_le current rest (hle.trans hl)]
    · rw [advanceSourcePosition, if_neg hle]
      have hlt : offset < pc := Nat.lt_of_not_le hle
      exact ⟨(lastAtMost_cons_of_lt current hsorted hlt).symm, hsorted, fun later _ => rfl⟩

/-- **The pass looks every offset up.** -/
theorem positionsForOffsets_eq {offsets : List ℕ} (hoffsets : offsets.Pairwise (· ≤ ·)) :
    ∀ {entries : List Entry} (_ : Sorted entries) (current : Position),
      positionsForOffsets offsets current entries = offsets.map (lastAtMost current entries) := by
  induction offsets with
  | nil => intro entries _ current; rfl
  | cons offset offsets ih =>
    intro entries hsorted current
    obtain ⟨hle, hrest⟩ := List.pairwise_cons.1 hoffsets
    obtain ⟨hfirst, hsorted', hlater⟩ := advanceSourcePosition_spec hsorted current
    show _ :: positionsForOffsets offsets _ _ = lastAtMost current entries offset :: _
    rw [hfirst, ih hrest hsorted', ← hfirst]
    congr 1
    apply List.map_congr_left
    intro later hmem
    exact hlater later (hle later hmem)

/-! ### The offsets of the instructions -/

variable {bs : List UInt8} {instructions : List Instruction}

/-- **One offset an instruction**: the sum of the sizes before it. -/
theorem instructionOffsetsFrom_eq {jsAtomEnd argCount : ℕ} {offsets : Offsets} {pos : ℕ}
    (h : Decodes jsAtomEnd bs offsets argCount pos instructions) : instructionOffsetsFrom bs pos =
      (List.range instructions.length).map fun i => pos + startOf instructions i := by
  induction h with
  | done hpos => rw [instructionOffsetsFrom, if_pos hpos]; rfl
  | @cons pos name row operands rest hpos hinfo _ _ _ ih =>
    rw [instructionOffsetsFrom, if_neg (by omega)]
    split
    · rename_i hsome
      rw [hinfo] at hsome
      cases hsome
      rw [ih, List.length_cons, List.range_succ_eq_map, List.map_cons, List.map_map]
      congr 1
      apply List.map_congr_left
      intro i _
      show pos + row.size + startOf rest i = pos + startOf _ (i + 1)
      rw [startOf_cons, sizeOf_of_info hinfo, Nat.add_assoc]
    · rename_i hnone
      rw [hinfo] at hnone
      cases hnone

theorem startOf_mono (instructions : List Instruction) {i j : ℕ} (h : i ≤ j) :
    startOf instructions i ≤ startOf instructions j := by
  obtain ⟨k, rfl⟩ := Nat.exists_eq_add_of_le h
  unfold startOf
  rw [List.take_add, List.map_append, List.sum_append]
  exact Nat.le_add_right _ _

theorem instructionOffsets_eq {jsAtomEnd argCount : ℕ}
    (h : decode jsAtomEnd bs argCount = .ok instructions) :
    instructionOffsets bs = (List.range instructions.length).map (startOf instructions) := by
  obtain ⟨offsets, -, hfrom⟩ := bind_eq_ok h
  have heq := instructionOffsetsFrom_eq (decodes_of_decodeFrom hfrom)
  rw [instructionOffsets, heq]
  simp only [Nat.zero_add]

theorem sourcePositions_eq {leb : Leb128} {jsAtomEnd argCount : ℕ} {bs : List UInt8}
    {instructions : List Instruction} (debugInfo : DebugInfo)
    (h : decode jsAtomEnd bs argCount = .ok instructions) :
    sourcePositions leb bs debugInfo = (List.range instructions.length).map fun i =>
      lastAtMost debugInfo.position (pc2lineEntries leb debugInfo) (startOf instructions i) := by
  have hsorted : ((List.range instructions.length).map (startOf instructions)).Pairwise (· ≤ ·) := by
    refine List.pairwise_map.2 (List.pairwise_lt_range.imp fun hlt => ?_)
    exact startOf_mono instructions (Nat.le_of_lt hlt)
  unfold sourcePositions
  rw [instructionOffsets_eq h, positionsForOffsets_eq hsorted (pc2lineEntries_sorted leb debugInfo),
    List.map_map]
  rfl

/-! ### The lookup of QuickJS -/

/-- The numbers of an entry are 32-bit ones. -/
structure Fits (entry : Entry) : Prop where
  pc : entry.1 < 2 ^ 32
  line : -2 ^ 31 ≤ entry.2.1 ∧ entry.2.1 < 2 ^ 31
  column : -2 ^ 31 ≤ entry.2.2 ∧ entry.2.2 < 2 ^ 31

/-- The data are entries to their end. -/
inductive WellFormed (leb : Leb128) : List UInt8 → Entry → Prop
  | nil (entry : Entry) : WellFormed leb [] entry
  | cons {opByte : UInt8} {rest rest' : List UInt8} {entry next : Entry}
      (hnext : nextPc2lineEntry leb opByte rest entry = some (next, rest'))
      (tail : WellFormed leb rest' next) : WellFormed leb (opByte :: rest) entry

theorem findLineNumFrom_cons {pcValue fuel : ℕ}
    (hnext : nextPc2lineEntry leb opByte rest entry = some (next, rest')) (hfits : Fits next) :
    findLineNumFrom pcValue (fuel + 1) (opByte :: rest) entry =
      if pcValue < next.1 then some entry.2 else findLineNumFrom pcValue fuel rest' next := by
  obtain ⟨pc, lineNum, colNum⟩ := entry
  have hpc := hfits.pc
  have hline := hfits.line
  have hcol := hfits.column
  unfold nextPc2lineEntry at hnext
  by_cases hop : opByte = 0
  · simp only [hop, if_true] at hnext
    split at hnext
    case h_1 => cases hnext
    case h_2 diffPc rest₁ hread₁ =>
      split at hnext
      case h_1 => cases hnext
      case h_2 diffLine rest₂ hread₂ =>
        split at hnext
        case h_1 => cases hnext
        case h_2 diffCol rest₃ hread₃ =>
          cases hnext
          obtain ⟨front₁, rfl, hu₁⟩ := readUnsigned_eq_ok hread₁
          obtain ⟨front₂, n₂, rfl, hu₂, rfl⟩ := readSigned_eq_ok hread₂
          obtain ⟨front₃, n₃, rfl, hu₃, rfl⟩ := readSigned_eq_ok hread₃
          simp only [findLineNumFrom, hop, if_true, getLeb128_u32 hu₁, getSleb128_u32 hu₂,
            getSleb128_u32 hu₃, Option.bind_eq_bind, Option.bind_some, Option.pure_def,
            Nat.mod_eq_of_lt hpc, wrap32_of_range hline.1 hline.2, wrap32_of_range hcol.1 hcol.2]
  · simp only [hop, if_false] at hnext
    split at hnext
    case h_1 => cases hnext
    case h_2 diffCol rest₁ hread₁ =>
      cases hnext
      obtain ⟨front₁, n₁, rfl, hu₁, rfl⟩ := readSigned_eq_ok hread₁
      simp only [findLineNumFrom, hop, if_false, getSleb128_u32 hu₁, Option.bind_eq_bind,
        Option.bind_some, Option.pure_def, Nat.mod_eq_of_lt hpc, wrap32_of_range hline.1 hline.2,
        wrap32_of_range hcol.1 hcol.2]

theorem nextPc2lineEntry_length (h : nextPc2lineEntry leb opByte rest entry = some (next, rest')) :
    rest'.length ≤ rest.length := by
  have hunsigned : ∀ {bs behind : List UInt8} {value : ℕ},
      readUnsigned leb bs = .ok (value, behind) → behind.length ≤ bs.length := by
    intro bs behind value hread
    obtain ⟨front, rfl, -⟩ := readUnsigned_eq_ok hread
    simp
  have hsigned : ∀ {bs behind : List UInt8} {value : ℤ},
      readSigned leb bs = .ok (value, behind) → behind.length ≤ bs.length := by
    intro bs behind value hread
    obtain ⟨front, n, rfl, -⟩ := readSigned_eq_ok hread
    simp
  unfold nextPc2lineEntry at h
  by_cases hop : opByte = 0
  · simp only [hop, if_true] at h
    split at h
    case h_1 => cases h
    case h_2 hread₁ =>
      split at h
      case h_1 => cases h
      case h_2 hread₂ =>
        split at h
        case h_1 => cases h
        case h_2 hread₃ =>
          cases h
          exact (hsigned hread₃).trans ((hsigned hread₂).trans (hunsigned hread₁))
  · simp only [hop, if_false] at h
    split at h
    case h_1 => cases h
    case h_2 hread₁ =>
      cases h
      exact hsigned hread₁

/-- **The lookup finds the entry**, unless it meets a broken one before a larger offset. -/
theorem findLineNumFrom_eq {leb : Leb128} {pcValue : ℕ} (fuel : ℕ) :
    ∀ {data : List UInt8} {entry : Entry}, data.length ≤ fuel →
      (∀ e ∈ doPc2lineEntries leb fuel data entry, Fits e) →
      (WellFormed leb data entry ∨ ∃ e ∈ doPc2lineEntries leb fuel data entry, pcValue < e.1) →
      findLineNumFrom pcValue fuel data entry =
        some (lastAtMost entry.2 (doPc2lineEntries leb fuel data entry) pcValue) := by
  induction fuel with
  | zero =>
    intro data entry hlen _ _
    obtain rfl : data = [] := List.length_eq_zero_iff.1 (Nat.le_zero.1 hlen)
    rfl
  | succ fuel ih =>
    intro data entry hlen hfits hread
    cases data with
    | nil => rfl
    | cons opByte rest =>
      have hsorted := doPc2lineEntries_sorted leb (fuel + 1) (opByte :: rest) entry
      rw [doPc2lineEntries] at hfits hread hsorted ⊢
      cases hnext : nextPc2lineEntry leb opByte rest entry with
      | none =>
        simp only [hnext] at hread
        obtain hwell | ⟨e, hmem, -⟩ := hread
        · cases hwell with
          | cons hsome _ =>
            rw [hnext] at hsome
            cases hsome
        · exact absurd hmem List.not_mem_nil
      | some found =>
        obtain ⟨next, rest'⟩ := found
        simp only [hnext] at hfits hread hsorted ⊢
        rw [findLineNumFrom_cons hnext (hfits next List.mem_cons_self)]
        by_cases hlt : pcValue < next.1
        · rw [if_pos hlt, lastAtMost_cons_of_lt _ hsorted.tail hlt]
        · rw [if_neg hlt, lastAtMost_cons_of_le _ _ (Nat.le_of_not_lt hlt)]
          refine ih ?_ (fun e hmem => hfits e (List.mem_cons_of_mem _ hmem)) ?_
          · have hle := nextPc2lineEntry_length hnext
            rw [List.length_cons] at hlen
            omega
          · obtain hwell | ⟨e, hmem, he⟩ := hread
            · cases hwell with
              | cons hsome tail =>
                rw [hnext] at hsome
                cases hsome
                exact .inl tail
            · rcases List.mem_cons.1 hmem with rfl | hmem
              · exact absurd he hlt
              · exact .inr ⟨e, hmem, he⟩

/-- QuickJS takes the position of an offset from the entries: there are line data, their numbers
are 32-bit ones, and the entries go to the end of the data or beyond the offset. -/
structure Readable (leb : Leb128) (debugInfo : DebugInfo) (offset : ℕ) : Prop where
  nonempty : debugInfo.pc2line ≠ []
  own : Fits (0, debugInfo.position)
  entries : ∀ e ∈ pc2lineEntries leb debugInfo, Fits e
  read : WellFormed leb debugInfo.pc2line (0, debugInfo.position) ∨
    ∃ e ∈ pc2lineEntries leb debugInfo, offset < e.1

theorem findLineNum_eq {debugInfo : DebugInfo} (h : Readable leb debugInfo offset) :
    findLineNum debugInfo offset =
      lastAtMost debugInfo.position (pc2lineEntries leb debugInfo) offset := by
  unfold findLineNum
  have hline : wrap32 debugInfo.lineNum = debugInfo.lineNum :=
    wrap32_of_range h.own.line.1 h.own.line.2
  have hcol : wrap32 debugInfo.colNum = debugInfo.colNum :=
    wrap32_of_range h.own.column.1 h.own.column.2
  have hloop := @findLineNumFrom_eq leb offset debugInfo.pc2line.length debugInfo.pc2line
    (0, debugInfo.position) (Nat.le_refl _) h.entries h.read
  simp only [h.nonempty, if_false, hline, hcol]
  rw [show ((0 : ℕ), ((debugInfo.lineNum : ℤ), (debugInfo.colNum : ℤ))) =
    (0, debugInfo.position) from rfl, hloop]
  rfl

/-! ### The positions of a decoded function -/

/-- There is one position an instruction, that of the last entry at or before its offset; where
QuickJS takes it from the entries, it is the one QuickJS gives. -/
structure FollowsEntries (leb : Leb128) (byteCode : List UInt8) (instructions : List Instruction)
    (debugInfo : DebugInfo) : Prop where
  length : (sourcePositions leb byteCode debugInfo).length = instructions.length
  position : ∀ i < instructions.length, (sourcePositions leb byteCode debugInfo)[i]? =
    some (lastAtMost debugInfo.position (pc2lineEntries leb debugInfo) (startOf instructions i))
  quickjs : ∀ i < instructions.length, Readable leb debugInfo (startOf instructions i) →
    (sourcePositions leb byteCode debugInfo)[i]? =
      some (findLineNum debugInfo (startOf instructions i))

/-- **The pass follows the entries, for every byte string of line data.** -/
theorem sourcePositions_follow (leb : Leb128) {jsAtomEnd argCount : ℕ} {byteCode : List UInt8}
    {instructions : List Instruction} (debugInfo : DebugInfo)
    (h : decode jsAtomEnd byteCode argCount = .ok instructions) :
    FollowsEntries leb byteCode instructions debugInfo := by
  have heq := @sourcePositions_eq leb _ _ _ _ debugInfo h
  have hposition : ∀ i < instructions.length, (sourcePositions leb byteCode debugInfo)[i]? =
      some (lastAtMost debugInfo.position (pc2lineEntries leb debugInfo)
        (startOf instructions i)) := by
    intro i hi
    rw [heq, List.getElem?_map, List.getElem?_range hi]
    rfl
  refine ⟨?_, hposition, ?_⟩
  · rw [heq, List.length_map, List.length_range]
  · intro i hi hread
    rw [findLineNum_eq hread]
    exact hposition i hi

/-- One entry, for the offset of the second instruction. -/
theorem sourcePositions_follow_two :
    (sourcePositions groups [242, 1, 203] ⟨[13, 2], 10, 5⟩).length = 2 ∧
      (sourcePositions groups [242, 1, 203] ⟨[13, 2], 10, 5⟩)[1]? = some (11, 6) ∧
      findLineNum ⟨[13, 2], 10, 5⟩ 2 = (11, 6) := by
  have hdecode := decode_goto8_getLoc0
  obtain ⟨hlength, hposition, hquickjs⟩ :=
    sourcePositions_follow groups ⟨[13, 2], 10, 5⟩ hdecode
  have hread : Readable groups ⟨[13, 2], 10, 5⟩ 2 := by
    refine ⟨by decide, ⟨by decide, by decide, by decide⟩, fun e hmem => ?_, .inl ?_⟩
    · obtain rfl : e = (2, 11, 6) := List.mem_singleton.1 hmem
      exact ⟨by decide, by decide, by decide⟩
    · exact @WellFormed.cons groups 13 [2] [] (0, 10, 5) (2, 11, 6) rfl (.nil _)
  have hsecond := hposition 1 (by decide)
  have hsame := hquickjs 1 (by decide) hread
  exact ⟨hlength, hsecond, (Option.some.inj (hsame.symm.trans hsecond))⟩

/-- A second entry that breaks off: QuickJS answers with the line of the function and column 1,
the decoder has the first entry. -/
theorem broken_entry : ¬ ∀ (leb : Leb128) (jsAtomEnd argCount : ℕ) (byteCode : List UInt8)
    (instructions : List Instruction) (debugInfo : DebugInfo),
    decode jsAtomEnd byteCode argCount = .ok instructions →
      ∀ i < instructions.length, (sourcePositions leb byteCode debugInfo)[i]? =
        some (findLineNum debugInfo (startOf instructions i)) := by
  intro h
  have hsame := h groups 230 2 [242, 1, 203] _ ⟨[13, 2, 1], 10, 5⟩ decode_goto8_getLoc0 1 (by decide)
  rw [sourcePositions_eq _ decode_goto8_getLoc0] at hsame
  exact absurd hsame (by decide)

end QuickBeam.Vm.Bytecode.SourcePositions
