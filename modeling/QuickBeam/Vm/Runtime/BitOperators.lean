import Mathlib.Data.Int.ModEq
import QuickBeam.Lib.TwosComplement
import QuickBeam.Vm.Runtime.Value

/-!
# The 32-bit operators (`bitwise/3`, `shift_left/2`, … of `runtime/value.ex`)

ECMAScript reduces the operands of `&`, `|`, `^`, `~`, `<<`, `>>` and `>>>` to words of 32 bits and
gives a word back.  The integers of the host have no size, so each operator has to bring its
result back to a word.  All do, except the left shift.
-/

namespace QuickBeam.Vm.Program.Value

open QuickBeam.Lib QuickBeam.Vm.Bytecode

/-! ### The operators of ECMAScript -/

inductive BitOperator
  | and | or | xor | not | shl | sar | shr
deriving DecidableEq

/-- The integer part of a number; `NaN` and the infinities count as zero. -/
def integerPart : Value → ℤ
  | .int n => n
  | .float x => x.toUnits.tdiv Double.unitsPerOne
  | _ => 0

/-- ECMAScript's `ToInt32`. -/
def ecmaInt32 (number : Value) : ℤ := number.integerPart.bmod (2 ^ 32)

/-- ECMAScript's `ToUint32`. -/
def ecmaUint32 (number : Value) : ℤ := number.integerPart % 2 ^ 32

def ecmaShiftCount (number : Value) : ℕ := (number.ecmaUint32 % 32).toNat

namespace BitOperator

/-- The result of the operator on two numbers before it is brought to 32 bits: the bit operations
on the words, a shift as a product or a quotient by a power of two. -/
def mathematical (left right : Value) : BitOperator → ℤ
  | .and => (BitVec.ofInt 32 left.ecmaInt32 &&& BitVec.ofInt 32 right.ecmaInt32).toInt
  | .or => (BitVec.ofInt 32 left.ecmaInt32 ||| BitVec.ofInt 32 right.ecmaInt32).toInt
  | .xor => (BitVec.ofInt 32 left.ecmaInt32 ^^^ BitVec.ofInt 32 right.ecmaInt32).toInt
  | .not => (~~~BitVec.ofInt 32 left.ecmaInt32).toInt
  | .shl => left.ecmaInt32 * 2 ^ right.ecmaShiftCount
  | .sar => left.ecmaInt32 / 2 ^ right.ecmaShiftCount
  | .shr => left.ecmaUint32 / 2 ^ right.ecmaShiftCount

/-- The results of the operator: unsigned words for `>>>`, else signed ones. -/
def InRange : BitOperator → ℤ → Prop
  | .shr, n => 0 ≤ n ∧ n < 2 ^ 32
  | _, n => -2 ^ 31 ≤ n ∧ n < 2 ^ 31

variable [Platform]

/-- The entry point of `runtime/value.ex` for the operator; `~` has one operand. -/
def run : BitOperator → Value → Value → Option Value
  | .and, left, right => binary .and left right
  | .or, left, right => binary .or left right
  | .xor, left, right => binary .xor left right
  | .not, left, _ => unary .not left
  | .shl, left, right => binary .shl left right
  | .sar, left, right => binary .sar left right
  | .shr, left, right => binary .shr left right

/-- `result` is what ECMAScript gives for the operator. -/
def IsResult (op : BitOperator) (left right : Value) (result : Option Value) : Prop :=
  ∃ n, result = some (.int n) ∧ op.InRange n ∧
    n ≡ op.mathematical left.toNumber right.toNumber [ZMOD 2 ^ 32]

end BitOperator

/-! ### Operands -/

theorem signed32_eq_bmod (n : ℤ) : signed32 n = n.bmod (2 ^ 32) := by
  unfold signed32
  rw [Int.bmod_def]
  split <;> split <;> omega

theorem trunc_eq_tdiv (x : Double) : x.trunc = x.toUnits.tdiv Double.unitsPerOne := by
  unfold Double.trunc Double.toUnits
  by_cases hneg : x.neg
  · rw [if_pos hneg, if_pos hneg, Int.neg_tdiv, Int.ofNat_tdiv]
  · rw [if_neg hneg, if_neg hneg, Int.ofNat_tdiv]

theorem ecmaShiftCount_lt (v : Value) : v.ecmaShiftCount < 32 := by
  unfold ecmaShiftCount
  omega

variable {word : BitVec 32}

theorem eq_toInt_of_ofInt {n : ℤ} (hn : IsSigned 31 n) (h : BitVec.ofInt 32 n = word) :
    n = word.toInt := by
  rw [← h, toInt_ofInt_of_isSigned hn]

variable [Platform]

theorem toInt32_eq (v : Value) : v.toInt32 = v.toNumber.ecmaInt32 := by
  unfold toInt32 ecmaInt32
  cases v.toNumber with
  | int n => exact signed32_eq_bmod n
  | float x =>
    show signed32 x.trunc = (x.toUnits.tdiv Double.unitsPerOne).bmod (2 ^ 32)
    rw [← trunc_eq_tdiv]
    exact signed32_eq_bmod x.trunc
  | _ => rfl

theorem isSigned_toInt32 (v : Value) : IsSigned 31 v.toInt32 := by
  rw [toInt32_eq]
  exact isSigned_bmod _

theorem toInt32_emod (v : Value) : v.toInt32 % 2 ^ 32 = v.toNumber.ecmaUint32 := by
  rw [toInt32_eq]
  exact Int.bmod_emod

theorem toInt32_shiftCount (v : Value) : (v.toInt32 % 32).toNat = v.toNumber.ecmaShiftCount := by
  have h := toInt32_emod v
  unfold ecmaShiftCount
  rw [← h]
  congr 1
  omega

/-! ### Results -/

theorem isResult_of_word {op : BitOperator} {left right : Value} {n : ℤ}
    (hrange : op.InRange n ↔ IsSigned 31 n)
    (hmath : op.mathematical left.toNumber right.toNumber = word.toInt) (hn : IsSigned 31 n)
    (h : BitVec.ofInt 32 n = word) : op.IsResult left right (some (.int n)) := by
  refine ⟨n, rfl, hrange.2 hn, ?_⟩
  rw [hmath, ← eq_toInt_of_ofInt hn h]

theorem isResult_and (left right : Value) :
    BitOperator.and.IsResult left right (binary .and left right) := by
  refine isResult_of_word Iff.rfl rfl
    (isSigned_land (isSigned_toInt32 left) (isSigned_toInt32 right)) ?_
  rw [ofInt_land, toInt32_eq, toInt32_eq]

theorem isResult_or (left right : Value) :
    BitOperator.or.IsResult left right (binary .or left right) := by
  refine isResult_of_word Iff.rfl rfl
    (isSigned_lor (isSigned_toInt32 left) (isSigned_toInt32 right)) ?_
  rw [ofInt_lor, toInt32_eq, toInt32_eq]

theorem isResult_xor (left right : Value) :
    BitOperator.xor.IsResult left right (binary .xor left right) := by
  refine isResult_of_word Iff.rfl rfl
    (isSigned_xor (isSigned_toInt32 left) (isSigned_toInt32 right)) ?_
  rw [ofInt_xor, toInt32_eq, toInt32_eq]

theorem isResult_not (left right : Value) :
    BitOperator.not.IsResult left right (unary .not left) := by
  refine isResult_of_word Iff.rfl rfl (isSigned_not (isSigned_toInt32 left)) ?_
  rw [ofInt_not, toInt32_eq]

theorem isResult_sar (left right : Value) :
    BitOperator.sar.IsResult left right (binary .sar left right) := by
  have hpos : (0 : ℤ) < 2 ^ (right.toInt32 % 32).toNat := Int.pow_pos (by omega)
  refine ⟨_, rfl, isSigned_ediv (isSigned_toInt32 left) hpos, ?_⟩
  rw [toInt32_eq left, toInt32_shiftCount]
  exact Int.ModEq.refl _

theorem isResult_shr (left right : Value) :
    BitOperator.shr.IsResult left right (binary .shr left right) := by
  have hpos : (0 : ℤ) < 2 ^ (right.toInt32 % 32).toNat := Int.pow_pos (by omega)
  have hlow : 0 ≤ left.toInt32 % 4294967296 := Int.emod_nonneg _ (by omega)
  have hhigh : left.toInt32 % 4294967296 < 4294967296 := Int.emod_lt_of_pos _ (by omega)
  refine ⟨_, rfl, ⟨Int.ediv_nonneg hlow (by omega), ?_⟩, ?_⟩
  · exact (Int.ediv_le_self _ hlow).trans_lt hhigh
  · have hword : left.toInt32 % 4294967296 = left.toNumber.ecmaUint32 := toInt32_emod left
    rw [hword, toInt32_shiftCount]
    exact Int.ModEq.refl _

/-- The left operand of a left shift has as many bits to spare as the shift moves it. -/
def ShiftFits (left right : Value) : Prop :=
  -2 ^ (31 - right.toNumber.ecmaShiftCount) ≤ left.toNumber.ecmaInt32 ∧
    left.toNumber.ecmaInt32 < 2 ^ (31 - right.toNumber.ecmaShiftCount)

theorem isResult_shl_iff (left right : Value) :
    BitOperator.shl.IsResult left right (binary .shl left right) ↔ ShiftFits left right := by
  have hcount := ecmaShiftCount_lt right.toNumber
  have hfits := isSigned_mul_two_pow_iff (show right.toNumber.ecmaShiftCount ≤ 31 by omega)
    left.toNumber.ecmaInt32
  have hrun : binary .shl left right =
      some (.int (left.toNumber.ecmaInt32 * 2 ^ right.toNumber.ecmaShiftCount)) := by
    show some (Value.int (left.toInt32 * 2 ^ (right.toInt32 % 32).toNat)) = _
    rw [toInt32_eq left, toInt32_shiftCount]
  rw [hrun]
  constructor
  · intro h
    obtain ⟨n, hn, hrange, -⟩ := h
    cases hn
    exact hfits.1 hrange
  · intro h
    exact ⟨_, rfl, hfits.2 h, Int.ModEq.refl _⟩

/-- **The operators give ECMAScript's results, a left shift where nothing is shifted out.** -/
theorem run_isResult_iff (op : BitOperator) (left right : Value) :
    op.IsResult left right (op.run left right) ↔ (op = .shl → ShiftFits left right) := by
  cases op with
  | shl => exact (isResult_shl_iff left right).trans (by simp)
  | and => exact iff_of_true (isResult_and left right) (by simp)
  | or => exact iff_of_true (isResult_or left right) (by simp)
  | xor => exact iff_of_true (isResult_xor left right) (by simp)
  | not => exact iff_of_true (isResult_not left right) (by simp)
  | sar => exact iff_of_true (isResult_sar left right) (by simp)
  | shr => exact iff_of_true (isResult_shr left right) (by simp)

omit [Platform] in
/-- `1 << 31` is `2147483648` where ECMAScript has `-2147483648`. -/
theorem one_shifted_into_sign : ¬∀ [Platform] (op : BitOperator) (left right : Value),
    op.IsResult left right (op.run left right) := by
  intro h
  obtain ⟨n, hn, hrange, -⟩ := @h noNumbers .shl (.int 1) (.int 31)
  cases hn
  exact absurd hrange.2 (by decide)

end QuickBeam.Vm.Program.Value
