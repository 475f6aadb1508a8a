import QuickBeam.Lib.Except
import QuickBeam.Vm.Bytecode.Instruction

/-!
# Decoding is undone by encoding

Both passes walk over the same chain of instruction starts.  `Starts` is the chain as the first
pass records it and `Decodes` the one of the second pass; `starts_iff` brings them together: the
offset of instruction `i` is the sum of the sizes before it.  With that, each operand format
gives back its own bytes, and so does the whole list.
-/

namespace QuickBeam.Vm.Bytecode.Instruction

open QuickBeam.Lib QuickBeam.Lib.Bytes

/-! ### The chain of the first pass -/

/-- Walking from `pos`, where instruction `index` starts, instruction `i` starts at `p`. -/
inductive Starts (bs : List UInt8) : ℕ → ℕ → ℕ → ℕ → Prop
  | here {pos index : ℕ} (hpos : pos < bs.length) : Starts bs pos index pos index
  | next {pos index p i : ℕ} {name : Op} {row : Row} (hpos : pos < bs.length)
      (hinfo : info (byteAt bs pos) = some (name, row)) (hsize : pos + row.size ≤ bs.length)
      (tail : Starts bs (pos + row.size) (index + 1) p i) : Starts bs pos index p i

variable {acc offsets : Offsets} {bs : List UInt8} {index pos : ℕ}

theorem buildOffsetMapFrom_get? (h : buildOffsetMapFrom bs pos index acc = .ok offsets)
    (hacc : ∀ p i, acc.get? p = some i → p < pos) (p i : ℕ) :
    offsets.get? p = some i ↔ Starts bs pos index p i ∨ acc.get? p = some i := by
  induction pos, index, acc using buildOffsetMapFrom.induct bs with
  | case1 pos index acc hle =>
    rw [buildOffsetMapFrom, if_pos hle] at h
    cases h
    constructor
    · exact .inr
    · rintro (hs | ha)
      · exfalso
        cases hs with
        | here hpos => omega
        | next hpos _ _ _ => omega
      · exact ha
  | case2 pos index acc hle hnone =>
    rw [buildOffsetMapFrom, if_neg hle] at h
    split at h
    · cases h
    · rename_i hsome
      rw [hnone] at hsome
      cases hsome
  | case3 pos index acc hle name row hinfo hlong =>
    rw [buildOffsetMapFrom, if_neg hle] at h
    split at h
    · cases h
    · rename_i hsome
      rw [hinfo] at hsome
      cases hsome
      rw [if_pos hlong] at h
      cases h
  | case4 pos index acc hle name row hinfo hlong ih =>
    rw [buildOffsetMapFrom, if_neg hle] at h
    split at h
    · cases h
    · rename_i hsome
      rw [hinfo] at hsome
      cases hsome
      rw [if_neg hlong] at h
      have hsize := info_size hinfo
      have hold : acc.get? pos = none := by
        cases hp : acc.get? pos with
        | none => rfl
        | some j => exact absurd (hacc pos j hp) (Nat.lt_irrefl _)
      rw [ih h ?_]
      · constructor
        · rintro (hs | ha)
          · exact .inl (.next (by omega) hinfo (by omega) hs)
          · obtain ⟨rfl, rfl⟩ | ⟨-, ha⟩ := Assoc.get?_put_cases ha
            · exact .inl (.here (by omega))
            · exact .inr ha
        · rintro (hs | ha)
          · cases hs with
            | here _ => exact .inr (Assoc.get?_put acc p i)
            | next _ hinfo' _ tail =>
              rw [hinfo] at hinfo'
              cases hinfo'
              exact .inl tail
          · have hne : p ≠ pos := by
              rintro rfl
              rw [hold] at ha
              cases ha
            exact .inr ((Assoc.get?_put_ne acc index hne).trans ha)
      · intro q j hq
        obtain ⟨rfl, -⟩ | ⟨-, hq⟩ := Assoc.get?_put_cases hq
        · omega
        · exact Nat.lt_of_lt_of_le (hacc q j hq) (Nat.le_add_right _ _)

variable {name : Op} {row : Row}

theorem buildOffsetMapFrom_next (hpos : pos < bs.length)
    (hinfo : info (byteAt bs pos) = some (name, row)) (hsize : pos + row.size ≤ bs.length) :
    buildOffsetMapFrom bs pos index acc =
      buildOffsetMapFrom bs (pos + row.size) (index + 1) (acc.put pos index) := by
  rw [buildOffsetMapFrom, if_neg (by omega)]
  split
  · rename_i hnone
    rw [hinfo] at hnone
    cases hnone
  · rename_i hsome
    rw [hinfo] at hsome
    cases hsome
    rw [if_neg (by omega)]

theorem buildOffsetMap_get? (h : buildOffsetMap bs = .ok offsets) (p i : ℕ) :
    offsets.get? p = some i ↔ Starts bs 0 0 p i := by
  rw [buildOffsetMapFrom_get? h (fun q j hq => by cases hq)]
  constructor
  · rintro (hs | ha)
    · exact hs
    · cases ha
  · exact .inl

/-! ### The chain of the second pass -/

/-- The instructions decoded from `pos` to the end of the bytes. -/
inductive Decodes (jsAtomEnd : ℕ) (bs : List UInt8) (offsets : Offsets) (argCount : ℕ) :
    ℕ → List Instruction → Prop
  | done {pos : ℕ} (hpos : bs.length ≤ pos) : Decodes jsAtomEnd bs offsets argCount pos []
  | cons {pos : ℕ} {name : Op} {row : Row} {operands : List Operand} {rest : List Instruction}
      (hpos : pos < bs.length) (hinfo : info (byteAt bs pos) = some (name, row))
      (hsize : pos + row.size ≤ bs.length)
      (hoperands : operandsFor jsAtomEnd bs (pos + 1) (byteAt bs pos) name row.format offsets
        argCount = .ok operands)
      (tail : Decodes jsAtomEnd bs offsets argCount (pos + row.size) rest) :
      Decodes jsAtomEnd bs offsets argCount pos ((byteAt bs pos, operands) :: rest)

variable {jsAtomEnd argCount : ℕ} {bs : List UInt8} {offsets : Offsets}

variable {instructions : List Instruction}

theorem decodes_of_decodeFrom
    (h : decodeFrom jsAtomEnd bs offsets argCount pos = .ok instructions) :
    Decodes jsAtomEnd bs offsets argCount pos instructions := by
  induction pos using decodeFrom.induct bs generalizing instructions with
  | case1 pos hle =>
    rw [decodeFrom, if_pos hle] at h
    cases h
    exact .done hle
  | case2 pos hle hnone =>
    rw [decodeFrom, if_neg hle] at h
    split at h
    · cases h
    · rename_i hsome
      rw [hnone] at hsome
      cases hsome
  | case3 pos hle name row hinfo hlong =>
    rw [decodeFrom, if_neg hle] at h
    split at h
    · cases h
    · rename_i hsome
      rw [hinfo] at hsome
      cases hsome
      rw [if_pos hlong] at h
      cases h
  | case4 pos hle name row hinfo hlong ih =>
    rw [decodeFrom, if_neg hle] at h
    split at h
    · cases h
    · rename_i hsome
      rw [hinfo] at hsome
      cases hsome
      rw [if_neg hlong] at h
      cases hoperands : operandsFor jsAtomEnd bs (pos + 1) (byteAt bs pos) name row.format offsets
        argCount with
      | error reason =>
        rw [hoperands] at h
        cases h
      | ok operands =>
        rw [hoperands] at h
        cases hrest : decodeFrom jsAtomEnd bs offsets argCount (pos + row.size) with
        | error reason =>
          rw [hrest] at h
          cases h
        | ok rest =>
          rw [hrest] at h
          cases h
          exact .cons (by omega) hinfo (by omega) hoperands (ih hrest)

theorem Decodes.decodeFrom (h : Decodes jsAtomEnd bs offsets argCount pos instructions) :
    decodeFrom jsAtomEnd bs offsets argCount pos = .ok instructions := by
  induction h with
  | done hpos => rw [Instruction.decodeFrom, if_pos hpos]
  | cons hpos hinfo hsize hoperands tail ih =>
    rw [Instruction.decodeFrom, if_neg (by omega)]
    split
    · rename_i hnone
      rw [hinfo] at hnone
      cases hnone
    · rename_i hsome
      rw [hinfo] at hsome
      cases hsome
      rw [if_neg (by omega), hoperands, ih]
      rfl

theorem sizeOf_of_info {number : ℕ} {operands : List Operand} {name : Op} {row : Row}
    (h : info number = some (name, row)) : sizeOf (number, operands) = row.size := by
  unfold sizeOf
  rw [h]

@[simp] theorem startOf_zero (instructions : List Instruction) : startOf instructions 0 = 0 := rfl

theorem startOf_cons (instruction : Instruction) (rest : List Instruction) (k : ℕ) :
    startOf (instruction :: rest) (k + 1) = sizeOf instruction + startOf rest k := by
  simp only [startOf, List.take_succ_cons, List.map_cons, List.sum_cons]

/-- **The two passes agree.**  Instruction `i` is recorded at the sum of the sizes before it. -/
theorem Decodes.starts_iff (h : Decodes jsAtomEnd bs offsets argCount pos instructions) (p i : ℕ) :
    Starts bs pos index p i ↔
      ∃ k < instructions.length, i = index + k ∧ p = pos + startOf instructions k := by
  induction h generalizing index with
  | done hpos =>
    constructor
    · intro hs
      cases hs with
      | here _ => omega
      | next _ _ _ _ => omega
    · rintro ⟨k, hk, -⟩
      exact absurd hk (Nat.not_lt_zero k)
  | @cons pos name row operands rest hpos hinfo hsize hoperands tail ih =>
    have hfirst := @sizeOf_of_info _ operands _ _ hinfo
    constructor
    · intro hs
      cases hs with
      | here _ => exact ⟨0, Nat.succ_pos _, rfl, rfl⟩
      | next _ hinfo' _ hs =>
        rw [hinfo] at hinfo'
        cases hinfo'
        obtain ⟨k, hk, rfl, rfl⟩ := ih.1 hs
        refine ⟨k + 1, Nat.succ_lt_succ hk, by omega, ?_⟩
        rw [startOf_cons, hfirst, Nat.add_assoc]
    · rintro ⟨k, hk, rfl, rfl⟩
      cases k with
      | zero => exact .here hpos
      | succ k =>
        refine .next hpos hinfo hsize (ih.2 ⟨k, Nat.lt_of_succ_lt_succ hk, by omega, ?_⟩)
        rw [startOf_cons, hfirst, Nat.add_assoc]

theorem Decodes.startOf_length (h : Decodes jsAtomEnd bs offsets argCount pos instructions)
    (hpos : pos ≤ bs.length) : pos + startOf instructions instructions.length = bs.length := by
  induction h with
  | done hle => exact Nat.le_antisymm hpos hle
  | cons _ hinfo hsize _ _ ih =>
    have := ih hsize
    rw [List.length_cons, startOf_cons, sizeOf_of_info hinfo]
    omega

/-! ### Each operand gives back its bytes -/

theorem putInt_natCast {n v : ℕ} (h : v < 256 ^ n) : putInt n v = writeLE n v := by
  have hv : ((v : ℤ) % 256 ^ n).toNat = v := by
    rw [show ((v : ℤ) % 256 ^ n) = ((v % 256 ^ n : ℕ) : ℤ) by push_cast; rfl, Int.toNat_natCast,
      Nat.mod_eq_of_lt h]
  unfold putInt unsigned
  rw [hv]

variable {n : ℕ}

theorem putInt_readLE (h : pos + n ≤ bs.length) : putInt n (readLE bs pos n) = slice bs pos n := by
  rw [putInt_natCast (readLE_lt bs pos n), writeLE_readLE h]

theorem putInt_signed (h : pos + n ≤ bs.length) :
    putInt n (signed n (readLE bs pos n)) = slice bs pos n := by
  unfold putInt
  rw [unsigned_signed (readLE_lt bs pos n), writeLE_readLE h]

theorem putAtom_getAtom (h : pos + 4 ≤ bs.length) :
    putAtom jsAtomEnd (getAtom jsAtomEnd bs pos) = slice bs pos 4 := by
  have hslice := putInt_readLE h
  unfold getAtom atomOperand
  split
  · rename_i htag
    rw [← hslice]
    show putInt 4 _ = _
    congr 1
    omega
  · split
    · exact hslice
    · split
      · rename_i hle
        rw [← hslice]
        show putInt 4 _ = _
        congr 1
        omega
      · exact hslice

def OffsetsOf (offsets : Offsets) (instructions : List Instruction) : Prop :=
  ∀ p i, offsets.get? p = some i ↔ i < instructions.length ∧ p = startOf instructions i

theorem getLabel_ok (hoffsets : OffsetsOf offsets instructions) {label : Operand}
    (h : getLabel bs pos n offsets = .ok label) (hlen : pos + n ≤ bs.length) :
    ∃ target < instructions.length, label = .int (target : ℕ) ∧
      putLabel instructions pos n (target : ℕ) = slice bs pos n := by
  unfold getLabel resolveLabel at h
  split at h
  · rename_i index hindex
    cases h
    split at hindex
    · rename_i hnonneg
      obtain ⟨hlt, hstart⟩ := (hoffsets _ _).1 hindex
      refine ⟨index, hlt, rfl, ?_⟩
      rw [← putInt_signed hlen]
      unfold putLabel
      congr 1
      rw [Int.toNat_natCast]
      omega
    · cases hindex
  · cases h

def hasLabel : Format → Bool
  | .label8 | .label16 | .label | .labelU16 | .atomLabelU8 | .atomLabelU16 => true
  | _ => false

def labelOperand (format : Format) (operands : List Operand) : Option ℤ :=
  match format, operands with
  | .label8, [.int target] | .label16, [.int target] | .label, [.int target] => some target
  | .labelU16, [.int target, _] => some target
  | .atomLabelU8, [_, .int target, _] | .atomLabelU16, [_, .int target, _] => some target
  | _, _ => none

variable {operands : List Operand}

/-- **Each format is undone.**  The operands give back their bytes, and a label names an
instruction. -/
theorem encodeOperands_of_decodeOperands (hoffsets : OffsetsOf offsets instructions)
    {format : Format} (hformat : format ∉ implicitFormats)
    (h : decodeOperands jsAtomEnd bs pos format offsets argCount = .ok operands)
    (hlen : pos + width format ≤ bs.length) :
    encodeOperands jsAtomEnd argCount instructions pos format operands =
        some (slice bs pos (width format)) ∧
      (hasLabel format = true →
        ∃ target < instructions.length, labelOperand format operands = some (target : ℕ)) := by
  have hint {p n : ℕ} (hp : p + n ≤ bs.length) := putInt_readLE hp
  have hsigned {p n : ℕ} (hp : p + n ≤ bs.length) := putInt_signed hp
  cases format with
  | none =>
    cases h
    exact ⟨congrArg some (slice_zero bs pos).symm, fun hl => by cases hl⟩
  | noneInt | noneLoc | noneArg | noneVarRef | npopx => exact absurd (by decide) hformat
  | u8 | u16 | u32 | const8 | npop | arg | varRef | const =>
    cases h
    exact ⟨congrArg some (hint hlen), fun hl => by cases hl⟩
  | i8 | i16 | i32 =>
    cases h
    exact ⟨congrArg some (hsigned hlen), fun hl => by cases hl⟩
  | loc8 | loc =>
    cases h
    refine ⟨congrArg some ?_, fun hl => by cases hl⟩
    rw [← hint hlen]
    exact congrArg _ (Int.add_sub_cancel _ _)
  | u32x2 =>
    cases h
    change pos + 8 ≤ bs.length at hlen
    refine ⟨congrArg some ?_, fun hl => by cases hl⟩
    rw [hint (by omega), hint (by omega), ← slice_add]
    rfl
  | npopU16 =>
    cases h
    change pos + 4 ≤ bs.length at hlen
    refine ⟨congrArg some ?_, fun hl => by cases hl⟩
    rw [hint (by omega), hint (by omega), ← slice_add]
    rfl
  | label8 | label16 | label =>
    obtain ⟨label, hlabel, hpure⟩ := bind_eq_ok h
    cases hpure
    obtain ⟨target, hlt, rfl, hbytes⟩ := getLabel_ok hoffsets hlabel hlen
    exact ⟨congrArg some hbytes, fun _ => ⟨target, hlt, rfl⟩⟩
  | labelU16 =>
    obtain ⟨label, hlabel, hpure⟩ := bind_eq_ok h
    cases hpure
    change pos + 6 ≤ bs.length at hlen
    obtain ⟨target, hlt, rfl, hbytes⟩ := getLabel_ok hoffsets hlabel (by omega)
    refine ⟨congrArg some ?_, fun _ => ⟨target, hlt, rfl⟩⟩
    rw [hbytes, hint (by omega), ← slice_add]
    rfl
  | atom =>
    cases h
    exact ⟨congrArg some (putAtom_getAtom hlen), fun hl => by cases hl⟩
  | atomU8 =>
    cases h
    change pos + 5 ≤ bs.length at hlen
    refine ⟨congrArg some ?_, fun hl => by cases hl⟩
    rw [putAtom_getAtom (by omega), hint (by omega), ← slice_add]
    rfl
  | atomU16 =>
    cases h
    change pos + 6 ≤ bs.length at hlen
    refine ⟨congrArg some ?_, fun hl => by cases hl⟩
    rw [putAtom_getAtom (by omega), hint (by omega), ← slice_add]
    rfl
  | atomLabelU8 =>
    obtain ⟨label, hlabel, hpure⟩ := bind_eq_ok h
    cases hpure
    change pos + 9 ≤ bs.length at hlen
    obtain ⟨target, hlt, rfl, hbytes⟩ := getLabel_ok hoffsets hlabel (by omega)
    refine ⟨congrArg some ?_, fun _ => ⟨target, hlt, rfl⟩⟩
    rw [putAtom_getAtom (by omega), hbytes, hint (by omega), Nat.add_assoc pos 4 4,
      ← slice_add, ← slice_add]
    rfl
  | atomLabelU16 =>
    obtain ⟨label, hlabel, hpure⟩ := bind_eq_ok h
    cases hpure
    change pos + 10 ≤ bs.length at hlen
    obtain ⟨target, hlt, rfl, hbytes⟩ := getLabel_ok hoffsets hlabel (by omega)
    refine ⟨congrArg some ?_, fun _ => ⟨target, hlt, rfl⟩⟩
    rw [putAtom_getAtom (by omega), hbytes, hint (by omega), ← Nat.add_assoc pos 4 4,
      ← slice_add, ← slice_add]
    rfl

/-- The local index of `make_loc_ref` is counted behind the arguments only once decoded. -/
theorem denormalize_normalize (name : Op) (operands : List Operand) :
    denormalizeOperands name (normalizeOperands name operands argCount) argCount = operands := by
  unfold normalizeOperands
  split
  · rename_i atom index
    by_cases hname : name = .makeLocRef
    · rw [if_pos hname]
      show (if name = .makeLocRef then _ else _) = _
      rw [if_pos hname, Int.add_sub_cancel]
    · rw [if_neg hname]
      show (if name = .makeLocRef then _ else _) = _
      rw [if_neg hname]
  · rename_i hshape
    unfold denormalizeOperands
    split
    · rename_i atom index
      exact absurd rfl (hshape atom index)
    · rfl

theorem labelOperand_normalize (name : Op) (operands : List Operand) :
    labelOperand name.row.format (normalizeOperands name operands argCount) =
      labelOperand name.row.format operands := by
  unfold normalizeOperands
  split
  · by_cases hname : name = .makeLocRef
    · rw [if_pos hname, hname]
      rfl
    · rw [if_neg hname]
  · rfl

/-! ### The whole list -/

/-- **One instruction is undone.** -/
theorem encodeInstruction_ok (hoffsets : OffsetsOf offsets instructions) (hpos : pos < bs.length)
    (hinfo : info (byteAt bs pos) = some (name, row)) (hsize : pos + row.size ≤ bs.length)
    (h : operandsFor jsAtomEnd bs (pos + 1) (byteAt bs pos) name row.format offsets argCount =
    .ok operands) :
    encodeInstruction jsAtomEnd argCount instructions pos (byteAt bs pos, operands) =
        some (slice bs pos row.size) ∧
      (hasLabel row.format = true →
        ∃ target < instructions.length, labelOperand row.format operands = some (target : ℕ)) := by
  have hwidth := info_size hinfo
  have hopcode : UInt8.ofNat (byteAt bs pos) :: slice bs (pos + 1) (width row.format) =
      slice bs pos row.size := by
    rw [hwidth, slice_add, slice_one hpos, byteAt_of_lt hpos, UInt8.ofNat_toNat]
    rfl
  unfold operandsFor at h
  unfold encodeInstruction
  simp only [hinfo]
  by_cases hformat : row.format ∈ implicitFormats
  · rw [if_pos hformat]
    have hzero : width row.format = 0 ∧ hasLabel row.format = false := by
      generalize row.format = format at hformat
      revert format
      decide
    refine ⟨congrArg some ?_, fun hl => ?_⟩
    · rw [← hopcode, hzero.1, slice_zero]
    · rw [hzero.2] at hl
      cases hl
  · rw [if_neg hformat] at h ⊢
    obtain ⟨raw, hraw, hpure⟩ := bind_eq_ok h
    cases hpure
    obtain ⟨hencode, hlabel⟩ := encodeOperands_of_decodeOperands hoffsets hformat hraw (by omega)
    rw [denormalize_normalize, hencode]
    refine ⟨congrArg some hopcode, fun hl => ?_⟩
    obtain ⟨-, rfl⟩ := info_eq_some hinfo
    rw [labelOperand_normalize]
    exact hlabel hl

/-- What decoding gives: the pieces of the encoding are the pieces of the bytes, and each label
names an instruction. -/
theorem Decodes.encodeFrom_ok (hoffsets : OffsetsOf offsets instructions)
    {rest : List Instruction} (h : Decodes jsAtomEnd bs offsets argCount pos rest) :
    encodeFrom jsAtomEnd argCount instructions pos rest =
        some (rest.mapIdx fun k x => slice bs (pos + startOf rest k) (sizeOf x)) ∧
      ∀ x ∈ rest, ∃ name row, info x.1 = some (name, row) ∧ (hasLabel row.format = true →
        ∃ target < instructions.length, labelOperand row.format x.2 = some (target : ℕ)) := by
  induction h with
  | done hpos => exact ⟨rfl, fun x hx => absurd hx (List.not_mem_nil)⟩
  | @cons pos name row operands rest hpos hinfo hsize hoperands tail ih =>
    obtain ⟨hencode, hlabel⟩ := encodeInstruction_ok hoffsets hpos hinfo hsize hoperands
    obtain ⟨hrest, hlabels⟩ := ih
    have hfirst := @sizeOf_of_info _ operands _ _ hinfo
    constructor
    · rw [encodeFrom, hencode, hfirst, hrest, List.mapIdx_cons]
      simp only [startOf_cons, hfirst, Nat.add_assoc]
      rfl
    · rintro x (_ | ⟨_, hx⟩)
      · exact ⟨name, row, hinfo, hlabel⟩
      · exact hlabels x hx

theorem flatten_slices (instructions : List Instruction) (pos : ℕ) :
    (instructions.mapIdx fun k x => slice bs (pos + startOf instructions k) (sizeOf x)).flatten =
      slice bs pos (startOf instructions instructions.length) := by
  induction instructions generalizing pos with
  | nil => exact (slice_zero bs pos).symm
  | cons x rest ih =>
    rw [List.mapIdx_cons, List.flatten_cons, List.length_cons, startOf_cons, slice_add, ← ih]
    simp only [startOf_cons, startOf_zero, Nat.add_zero, Nat.add_assoc]

/-- **Decoding is invertible.**  Encoding the decoded instructions gives back the bytes: piece
`i` is the bytes of instruction `i`, which starts at its recorded offset, and the pieces make up
the input without a gap or an overlap.  Every label names an instruction of the list. -/
theorem decode_invertible (jsAtomEnd : ℕ) (bs : List UInt8) (argCount : ℕ)
    (instructions : List Instruction) (h : decode jsAtomEnd bs argCount = .ok instructions) :
    ∃ pieces offsets,
      encode jsAtomEnd argCount instructions = some pieces ∧ pieces.flatten = bs ∧
      buildOffsetMap bs = .ok offsets ∧
      (∀ p i, offsets.get? p = some i ↔ i < instructions.length ∧ p = startOf instructions i) ∧
      startOf instructions instructions.length = bs.length ∧
      ∀ i (hi : i < instructions.length),
        pieces[i]? = some (slice bs (startOf instructions i) (sizeOf instructions[i])) ∧
        ∃ name row, info instructions[i].1 = some (name, row) ∧ (hasLabel row.format = true →
          ∃ target < instructions.length,
            labelOperand row.format instructions[i].2 = some (target : ℕ)) := by
  obtain ⟨offsets, hmap, hdecode⟩ := bind_eq_ok h
  have hdecodes := decodes_of_decodeFrom hdecode
  have hoffsets : OffsetsOf offsets instructions := by
    intro p i
    rw [buildOffsetMap_get? hmap, hdecodes.starts_iff]
    constructor
    · rintro ⟨k, hk, rfl, rfl⟩
      simp only [Nat.zero_add, hk, and_self]
    · rintro ⟨hi, rfl⟩
      exact ⟨i, hi, (Nat.zero_add i).symm, (Nat.zero_add _).symm⟩
  obtain ⟨hencode, hlabels⟩ := hdecodes.encodeFrom_ok hoffsets
  have hlength := hdecodes.startOf_length (Nat.zero_le _)
  rw [Nat.zero_add] at hlength
  refine ⟨_, offsets, hencode, ?_, hmap, hoffsets, hlength,
    fun i hi => ⟨?_, ?_⟩⟩
  · rw [flatten_slices, hlength]
    exact List.take_length
  · rw [List.getElem?_mapIdx, List.getElem?_eq_getElem hi, Option.map_some, Nat.zero_add]
  · exact hlabels _ (List.getElem_mem hi)

theorem decode_goto8_getLoc0 :
    decode 230 [242, 1, 203] 2 = .ok [(242, [.int 1]), (203, [.int 2])] := by
  have hgoto : info (byteAt [242, 1, 203] 0) = some (.goto8, ⟨2, 0, 0, .label8⟩) := rfl
  have hget : info (byteAt [242, 1, 203] 2) = some (.getLoc0, ⟨1, 0, 1, .noneLoc⟩) := rfl
  have hmap : buildOffsetMap [242, 1, 203] = .ok ((Assoc.put ∅ 0 0).put 2 1) := by
    refine (buildOffsetMapFrom_next (by decide) hgoto (by decide)).trans ?_
    refine (buildOffsetMapFrom_next (by decide) hget (by decide)).trans ?_
    rw [buildOffsetMapFrom, if_pos (by decide)]
  unfold decode
  rw [hmap]
  refine (Decodes.cons (by decide) hgoto (by decide) rfl ?_).decodeFrom
  exact .cons (by decide) hget (by decide) rfl (.done (by decide))

/-- **Decoding is invertible**, on these bytes. -/
theorem decode_invertible_goto8_getLoc0 :
    ∃ pieces offsets,
      encode 230 2 [(242, [.int 1]), (203, [.int 2])] = some pieces ∧
      pieces.flatten = [242, 1, 203] ∧
      buildOffsetMap [242, 1, 203] = .ok offsets := by
  obtain ⟨pieces, offsets, hencode, hflatten, hmap, -⟩ :=
    decode_invertible 230 [242, 1, 203] 2 _ decode_goto8_getLoc0
  exact ⟨pieces, offsets, hencode, hflatten, hmap⟩

end QuickBeam.Vm.Bytecode.Instruction
