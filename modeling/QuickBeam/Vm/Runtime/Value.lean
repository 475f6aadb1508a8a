import Mathlib.Data.Int.Bitwise
import QuickBeam.Vm.Program.Function

/-!
# Value coercions and primitive operations (`runtime/value.ex`)

A number is an integer or a finite double; an operation on integers stays an integer, an
operation with a double is done in doubles.  `NaN` and the infinities are atoms.  The result of
an operation is `none` where the arithmetic of the host raises: an integer too large for a
double, or a double that overflows.  Parsing and printing of doubles and the power function
belong to the host.
-/

namespace QuickBeam.Vm.Program.Value

open QuickBeam.Lib QuickBeam.Vm.Bytecode

/-- The functions of the host: `parse_number/1` of a trimmed string, `Float.to_string/1` and
`:math.pow/2`. -/
class Platform where
  parseNumber : Binary → Value
  floatToString : Double → Binary
  pow : Double → Double → Option Double

/-- A host that prints and parses nothing. -/
abbrev noNumbers : Platform := ⟨fun _ => .nan, fun _ => [], fun _ _ => none⟩

/-! ### Numbers of the host -/

def isNumber : Value → Bool
  | .int _ | .float _ => true
  | _ => false

def units : Value → ℤ
  | .int n => n * Double.unitsPerOne
  | .float x => x.toUnits
  | _ => 0

def toDouble : Value → Option Double
  | .int n => Double.ofInt n
  | .float x => some x
  | _ => none

/-- An arithmetic operator: on integers exact, else on doubles. -/
def arith (onInts : ℤ → ℤ → ℤ) (onDoubles : Double → Double → Option Double) :
    Value → Value → Option Value
  | .int a, .int b => some (.int (onInts a b))
  | a, b => do
      let x ← a.toDouble
      let y ← b.toDouble
      (onDoubles x y).map .float

/-- `left + right`. -/
def plus : Value → Value → Option Value := arith (· + ·) Double.add

/-- `left - right`. -/
def minus : Value → Value → Option Value := arith (· - ·) Double.sub

/-- `left * right`. -/
def times : Value → Value → Option Value := arith (· * ·) Double.mul

/-- `left / right`, always in doubles. -/
def quotient (a b : Value) : Option Value := do
  let x ← a.toDouble
  let y ← b.toDouble
  (x.div y).map .float

def fmod (a b : Value) : Option Value := do
  let x ← a.toDouble
  let y ← b.toDouble
  (x.fmod y).map .float

def minusOf : Value → Value
  | .int n => .int (-n)
  | .float x => .float x.neg'
  | v => v

/-- `left == right` on numbers. -/
def numEq (a b : Value) : Bool := a.units = b.units

/-- `left < right` on numbers. -/
def numLt (a b : Value) : Bool := a.units < b.units

/-! ### Equality of terms -/

mutual

/-- `left === right`. -/
def same : Value → Value → Bool
  | .undefined, .undefined | .null, .null | .nan, .nan | .infinity, .infinity
  | .negInfinity, .negInfinity | .uninitialized, .uninitialized
  | .directIterator, .directIterator => true
  | .bool a, .bool b => a = b
  | .int a, .int b => a = b
  | .float a, .float b => a = b
  | .string a, .string b => a = b
  | .bigint a, .bigint b => a = b
  | .reference a, .reference b => a = b
  | .promise a, .promise b => a = b
  | .symbol a, .symbol b => a = b
  | .function ⟨header, constants⟩, .function ⟨header', constants'⟩ =>
      header = header' && sameValues constants constants'
  | .closure ⟨header, constants⟩ refs, .closure ⟨header', constants'⟩ refs' =>
      header = header' && sameValues constants constants' && refs = refs'
  | .boundFunction target this arguments, .boundFunction target' this' arguments' =>
      target.same target' && this.same this' && sameValues arguments arguments'
  | .builtin a, .builtin b => a = b
  | .primitiveMethod a k, .primitiveMethod b j => a = b && k = j
  | .promiseResolver p r a, .promiseResolver p' r' a' => p = p' && r = r' && a = a'
  | .array a, .array b => sameValues a b
  | .object a, .object b => sameEntries a b
  | .templateObject a b, .templateObject a' b' => a.same a' && b.same b'
  | .slot a, .slot b => a = b
  | .catchMarker a, .catchMarker b => a = b
  | .returnAddress a, .returnAddress b => a = b
  | .forIn a i, .forIn b j => sameValues a b && i = j
  | .forOf a i, .forOf b j => sameValues a b && i = j
  | .pending a, .pending b => a = b
  | .resolved a, .resolved b => a.same b
  | .rejected a, .rejected b => a.same b
  | .atom a, .atom b => a = b
  | _, _ => false

def sameValues : List Value → List Value → Bool
  | [], [] => true
  | a :: as, b :: bs => a.same b && sameValues as bs
  | _, _ => false

def sameEntries : List (Binary × Value) → List (Binary × Value) → Bool
  | [], [] => true
  | (k, a) :: as, (k', b) :: bs => k = k' && a.same b && sameEntries as bs
  | _, _ => false

end

mutual

/-- `left == right`, where an integer and a double are equal as numbers. -/
def looselySame : Value → Value → Bool
  | .function ⟨header, constants⟩, .function ⟨header', constants'⟩ =>
      header = header' && looselySameValues constants constants'
  | .closure ⟨header, constants⟩ refs, .closure ⟨header', constants'⟩ refs' =>
      header = header' && looselySameValues constants constants' && refs = refs'
  | .boundFunction target this arguments, .boundFunction target' this' arguments' =>
      target.looselySame target' && this.looselySame this' &&
        looselySameValues arguments arguments'
  | .array a, .array b => looselySameValues a b
  | .object a, .object b => looselySameEntries a b
  | .templateObject a b, .templateObject a' b' => a.looselySame a' && b.looselySame b'
  | .forIn a i, .forIn b j => looselySameValues a b && i = j
  | .forOf a i, .forOf b j => looselySameValues a b && i = j
  | .resolved a, .resolved b => a.looselySame b
  | .rejected a, .rejected b => a.looselySame b
  | a, b => if a.isNumber && b.isNumber then numEq a b else a.same b

def looselySameValues : List Value → List Value → Bool
  | [], [] => true
  | a :: as, b :: bs => a.looselySame b && looselySameValues as bs
  | _, _ => false

def looselySameEntries : List (Binary × Value) → List (Binary × Value) → Bool
  | [], [] => true
  | (k, a) :: as, (k', b) :: bs => k = k' && a.looselySame b && looselySameEntries as bs
  | _, _ => false

end

mutual

theorem eq_of_same : (a b : Value) → a.same b = true → a = b
  | .function ⟨header, constants⟩, b, h => by
    cases b with
    | function f =>
      obtain ⟨hh, hc⟩ := Bool.and_eq_true_iff.1 h
      rw [of_decide_eq_true hh, eq_of_sameValues constants f.constants hc]
    | _ => cases h
  | .closure ⟨header, constants⟩ refs, b, h => by
    cases b with
    | closure f refs' =>
      obtain ⟨hf, hr⟩ := Bool.and_eq_true_iff.1 h
      obtain ⟨hh, hc⟩ := Bool.and_eq_true_iff.1 hf
      rw [of_decide_eq_true hh, eq_of_sameValues constants f.constants hc, of_decide_eq_true hr]
    | _ => cases h
  | .boundFunction target this arguments, b, h => by
    cases b with
    | boundFunction target' this' arguments' =>
      obtain ⟨htt, ha⟩ := Bool.and_eq_true_iff.1 h
      obtain ⟨ht, hs⟩ := Bool.and_eq_true_iff.1 htt
      rw [eq_of_same target target' ht, eq_of_same this this' hs,
        eq_of_sameValues arguments arguments' ha]
    | _ => cases h
  | .array values, b, h => by
    cases b with
    | array values' => rw [eq_of_sameValues values values' h]
    | _ => cases h
  | .object values, b, h => by
    cases b with
    | object values' => rw [eq_of_sameEntries values values' h]
    | _ => cases h
  | .templateObject cooked raw, b, h => by
    cases b with
    | templateObject cooked' raw' =>
      obtain ⟨hc, hr⟩ := Bool.and_eq_true_iff.1 h
      rw [eq_of_same cooked cooked' hc, eq_of_same raw raw' hr]
    | _ => cases h
  | .forIn keys index, b, h => by
    cases b with
    | forIn keys' index' =>
      obtain ⟨hk, hi⟩ := Bool.and_eq_true_iff.1 h
      rw [eq_of_sameValues keys keys' hk, of_decide_eq_true hi]
    | _ => cases h
  | .forOf values index, b, h => by
    cases b with
    | forOf values' index' =>
      obtain ⟨hv, hi⟩ := Bool.and_eq_true_iff.1 h
      rw [eq_of_sameValues values values' hv, of_decide_eq_true hi]
    | _ => cases h
  | .resolved value, b, h => by
    cases b with
    | resolved value' => rw [eq_of_same value value' h]
    | _ => cases h
  | .rejected reason, b, h => by
    cases b with
    | rejected reason' => rw [eq_of_same reason reason' h]
    | _ => cases h
  | .primitiveMethod k m, b, h => by
    cases b with
    | primitiveMethod k' m' =>
      obtain ⟨hk, hm⟩ := Bool.and_eq_true_iff.1 h
      rw [of_decide_eq_true hk, of_decide_eq_true hm]
    | _ => cases h
  | .promiseResolver p r a, b, h => by
    cases b with
    | promiseResolver p' r' a' =>
      obtain ⟨hpr, ha⟩ := Bool.and_eq_true_iff.1 h
      obtain ⟨hp, hr⟩ := Bool.and_eq_true_iff.1 hpr
      rw [of_decide_eq_true hp, of_decide_eq_true hr, of_decide_eq_true ha]
    | _ => cases h
  | .undefined, b, h | .null, b, h | .nan, b, h | .infinity, b, h | .negInfinity, b, h
  | .uninitialized, b, h | .directIterator, b, h => by
    cases b with
    | undefined | null | nan | infinity | negInfinity | uninitialized | directIterator =>
      first | rfl | cases h
    | _ => cases h
  | .bool _, b, h | .int _, b, h | .float _, b, h | .string _, b, h | .bigint _, b, h
  | .reference _, b, h | .promise _, b, h | .symbol _, b, h | .builtin _, b, h | .slot _, b, h
  | .catchMarker _, b, h | .returnAddress _, b, h | .pending _, b, h | .atom _, b, h => by
    cases b with
    | bool _ | int _ | float _ | string _ | bigint _ | reference _ | promise _ | symbol _
    | builtin _ | slot _ | catchMarker _ | returnAddress _ | pending _ | atom _ =>
      first | rw [of_decide_eq_true h] | cases h
    | _ => cases h

theorem eq_of_sameValues : (as bs : List Value) → sameValues as bs = true → as = bs
  | [], [], _ => rfl
  | a :: as, b :: bs, h => by
    obtain ⟨ha, hs⟩ := Bool.and_eq_true_iff.1 h
    rw [eq_of_same a b ha, eq_of_sameValues as bs hs]
  | [], _ :: _, h => by cases h
  | _ :: _, [], h => by cases h

theorem eq_of_sameEntries : (as bs : List (Binary × Value)) → sameEntries as bs = true → as = bs
  | [], [], _ => rfl
  | (k, a) :: as, (k', b) :: bs, h => by
    obtain ⟨hka, hs⟩ := Bool.and_eq_true_iff.1 h
    obtain ⟨hk, ha⟩ := Bool.and_eq_true_iff.1 hka
    rw [of_decide_eq_true hk, eq_of_same a b ha, eq_of_sameEntries as bs hs]
  | [], _ :: _, h => by cases h
  | _ :: _, [], h => by cases h

end

mutual

theorem same_self : (a : Value) → a.same a = true
  | .function ⟨_, constants⟩ =>
      Bool.and_eq_true_iff.2 ⟨decide_eq_true rfl, sameValues_self constants⟩
  | .closure ⟨_, constants⟩ _ =>
      Bool.and_eq_true_iff.2 ⟨Bool.and_eq_true_iff.2 ⟨decide_eq_true rfl,
        sameValues_self constants⟩, decide_eq_true rfl⟩
  | .boundFunction target this arguments =>
      Bool.and_eq_true_iff.2 ⟨Bool.and_eq_true_iff.2 ⟨same_self target, same_self this⟩,
        sameValues_self arguments⟩
  | .primitiveMethod _ _ => Bool.and_eq_true_iff.2 ⟨decide_eq_true rfl, decide_eq_true rfl⟩
  | .promiseResolver _ _ _ =>
      Bool.and_eq_true_iff.2 ⟨Bool.and_eq_true_iff.2 ⟨decide_eq_true rfl, decide_eq_true rfl⟩,
        decide_eq_true rfl⟩
  | .array values => sameValues_self values
  | .object values => sameEntries_self values
  | .templateObject cooked raw => Bool.and_eq_true_iff.2 ⟨same_self cooked, same_self raw⟩
  | .forIn keys _ => Bool.and_eq_true_iff.2 ⟨sameValues_self keys, decide_eq_true rfl⟩
  | .forOf values _ => Bool.and_eq_true_iff.2 ⟨sameValues_self values, decide_eq_true rfl⟩
  | .resolved value => same_self value
  | .rejected reason => same_self reason
  | .undefined | .null | .nan | .infinity | .negInfinity | .uninitialized | .directIterator => rfl
  | .bool _ | .int _ | .float _ | .string _ | .bigint _ | .reference _ | .promise _ | .symbol _
  | .builtin _ | .slot _ | .catchMarker _ | .returnAddress _ | .pending _ | .atom _ =>
      decide_eq_true rfl

theorem sameValues_self : (as : List Value) → sameValues as as = true
  | [] => rfl
  | a :: as => Bool.and_eq_true_iff.2 ⟨same_self a, sameValues_self as⟩

theorem sameEntries_self : (as : List (Binary × Value)) → sameEntries as as = true
  | [] => rfl
  | (_, a) :: as => Bool.and_eq_true_iff.2 ⟨Bool.and_eq_true_iff.2 ⟨decide_eq_true rfl,
      same_self a⟩, sameEntries_self as⟩

end

/-- **`===` decides equality of terms.** -/
theorem same_iff {a b : Value} : a.same b = true ↔ a = b :=
  ⟨eq_of_same a b, fun h => h ▸ same_self a⟩

instance : DecidableEq Value := fun _ _ => decidable_of_iff _ same_iff

/-! ### Coercions -/

def truthy : Value → Bool
  | .null | .undefined | .nan | .bool false => false
  | .int n => n ≠ 0
  | .float x => !x.isZero
  | .string s => s ≠ []
  | _ => true

def toNumber [Platform] : Value → Value
  | .int n => .int n
  | .float x => .float x
  | .bool true => .int 1
  | .bool false => .int 0
  | .null => .int 0
  | .infinity => .infinity
  | .negInfinity => .negInfinity
  | .string s => if s = [] then .int 0 else Platform.parseNumber s
  | _ => .nan

def signed32 (n : ℤ) : ℤ :=
  if n % 4294967296 ≥ 2147483648 then n % 4294967296 - 4294967296 else n % 4294967296

def toInt32 [Platform] (v : Value) : ℤ :=
  match v.toNumber with
  | .int n => signed32 n
  | .float x => signed32 x.trunc
  | _ => 0

def toStringValue [Platform] : Value → Binary
  | .undefined => .ofString "undefined"
  | .null => .ofString "null"
  | .bool true => .ofString "true"
  | .bool false => .ofString "false"
  | .nan => .ofString "NaN"
  | .infinity => .ofString "Infinity"
  | .negInfinity => .ofString "-Infinity"
  | .int n => .ofString (toString n)
  | .float x =>
      if x.isZero then .ofString "0"
      else if x.units < 10 ^ 21 * Double.unitsPerOne ∧ x.units % Double.unitsPerOne = 0 then
        .ofString (toString x.trunc)
      else Platform.floatToString x
  | .string s => s
  | _ => .ofString "[object Object]"

def negative : Value → Bool
  | .negInfinity => true
  | .float x => x.neg
  | .int n => n < 0
  | _ => false

def isZero : Value → Bool
  | .int n => n = 0
  | .float x => x.isZero
  | _ => false

def isInfinite : Value → Bool
  | .infinity | .negInfinity => true
  | _ => false

def signedInfinity (neg : Bool) : Value := if neg then .negInfinity else .infinity

def signedZero (neg : Bool) : Value := .float (if neg then .negZero else .zero)

/-! ### Equality -/

def strictEqual (a b : Value) : Bool :=
  if a.isNumber && b.isNumber then numEq a b
  else
    match a, b with
    | .nan, _ => false
    | _, .nan => false
    | a, b => a.same b

/-- A boolean as the number it coerces to. -/
def unbool : Value → Value
  | .bool true => .int 1
  | .bool false => .int 0
  | v => v

def abstractEqual [Platform] (a b : Value) : Bool :=
  match a, b with
  | .null, .undefined => true
  | .undefined, .null => true
  | a, b =>
      match a.unbool, b.unbool with
      | .string s, b' => if b'.isNumber then strictEqual (toNumber (.string s)) b'
          else strictEqual (.string s) b'
      | a', .string s => if a'.isNumber then strictEqual a' (toNumber (.string s))
          else strictEqual a' (.string s)
      | a', b' => strictEqual a' b'

/-! ### Arithmetic -/

def addNumbers : Value → Value → Option Value
  | .nan, _ | _, .nan => some .nan
  | .infinity, .negInfinity | .negInfinity, .infinity => some .nan
  | .infinity, _ | _, .infinity => some .infinity
  | .negInfinity, _ | _, .negInfinity => some .negInfinity
  | left, right => plus left right

def add [Platform] (a b : Value) : Option Value :=
  match a, b with
  | .string _, _ | _, .string _ => some (.string (a.toStringValue ++ b.toStringValue))
  | a, b => addNumbers a.toNumber b.toNumber

def negateNumber : Value → Value
  | .nan => .nan
  | .infinity => .negInfinity
  | .negInfinity => .infinity
  | number => if number.isZero then signedZero (!number.negative) else minusOf number

def subtractNumbers (left right : Value) : Option Value := addNumbers left (negateNumber right)

def subtract [Platform] (a b : Value) : Option Value := subtractNumbers a.toNumber b.toNumber

def multiplyNumbers : Value → Value → Option Value
  | .nan, _ | _, .nan => some .nan
  | left, right =>
      if left.isInfinite || right.isInfinite then
        if left.isZero || right.isZero then some .nan
        else some (signedInfinity (left.negative != right.negative))
      else times left right

def multiply [Platform] (a b : Value) : Option Value := multiplyNumbers a.toNumber b.toNumber

def divideNumbers : Value → Value → Option Value
  | .nan, _ | _, .nan => some .nan
  | dividend, divisor =>
      if dividend.isInfinite && divisor.isInfinite then some .nan
      else if dividend.isInfinite then
        some (signedInfinity (dividend.negative != divisor.negative))
      else if divisor.isInfinite then some (signedZero (dividend.negative != divisor.negative))
      else if dividend.isZero && divisor.isZero then some .nan
      else if divisor.isZero then some (signedInfinity (dividend.negative != divisor.negative))
      else quotient dividend divisor

def divide [Platform] (a b : Value) : Option Value := divideNumbers a.toNumber b.toNumber

def remainder : Value → Value → Option Value
  | .nan, _ | _, .nan => some .nan
  | dividend, divisor =>
      if dividend.isInfinite then some .nan
      else if divisor.isZero then some .nan
      else if divisor.isInfinite then some dividend
      else
        match dividend, divisor with
        | .int a, .int b =>
            if a.tmod b = 0 ∧ a < 0 then some (.float .negZero) else some (.int (a.tmod b))
        | dividend, divisor => fmod dividend divisor

def modulo [Platform] (a b : Value) : Option Value := remainder a.toNumber b.toNumber

def oddInteger : Value → Bool
  | .int n => n % 2 ≠ 0
  | .float x => x.units % Double.unitsPerOne = 0 && x.trunc % 2 ≠ 0
  | _ => false

/-- `abs(base)` compared with one; an infinity is above it. -/
def magnitudeOrdering (base : Value) : Ordering :=
  if base.isInfinite then .gt else compare (base.units.natAbs : ℤ) Double.unitsPerOne

def powerInfiniteExponent (base : Value) (positive : Bool) : Value :=
  match base.magnitudeOrdering, positive with
  | .eq, _ => .nan
  | .gt, true => .infinity
  | .gt, false => .float .zero
  | .lt, true => .float .zero
  | .lt, false => .infinity

def powerNumbers [Platform] (base exponent : Value) : Value :=
  if exponent.isZero then signedOne
  else
    match base, exponent with
    | .nan, _ | _, .nan => .nan
    | base, .infinity => powerInfiniteExponent base true
    | base, .negInfinity => powerInfiniteExponent base false
    | base, exponent =>
        if base.isInfinite then
          if 0 < exponent.units then signedInfinity (base.negative && exponent.oddInteger)
          else .float .zero
        else if base.isZero && exponent.units < 0 then
          signedInfinity (base.negative && exponent.oddInteger)
        else
          match base.toDouble, exponent.toDouble with
          | some x, some y => ((Platform.pow x y).map Value.float).getD .nan
          | _, _ => .nan
where
  /-- `1.0`. -/
  signedOne : Value := ((Double.ofInt 1).map Value.float).getD .nan

def power [Platform] (a b : Value) : Value := powerNumbers a.toNumber b.toNumber

def negate [Platform] (v : Value) : Value := negateNumber v.toNumber

/-! ### Comparison and bits -/

def ordering (left right : Value) : Ordering :=
  match left, right with
  | .infinity, .infinity | .negInfinity, .negInfinity => .eq
  | .negInfinity, _ => .lt
  | _, .negInfinity => .gt
  | .infinity, _ => .gt
  | _, .infinity => .lt
  | left, right => if numEq left right then .eq else if numLt left right then .lt else .gt

def compareOrder : Op → Ordering → Bool
  | .lt, .lt => true
  | .lte, .lt | .lte, .eq => true
  | .gt, .gt => true
  | .gte, .gt | .gte, .eq => true
  | _, _ => false

def compareValues [Platform] (a b : Value) (operation : Op) : Bool :=
  match a, b with
  | .string s, .string t => compareOrder operation (compare s t)
  | a, b =>
      match a.toNumber, b.toNumber with
      | .nan, _ => false
      | _, .nan => false
      | left, right => compareOrder operation (ordering left right)

def bitwise [Platform] (a b : Value) (operation : ℤ → ℤ → ℤ) : Value :=
  .int (operation a.toInt32 b.toInt32)

def shiftLeft [Platform] (a b : Value) : Value := .int (a.toInt32 * 2 ^ (b.toInt32 % 32).toNat)

def shiftRight [Platform] (a b : Value) : Value := .int (a.toInt32 / 2 ^ (b.toInt32 % 32).toNat)

def shiftRightUnsigned [Platform] (a b : Value) : Value :=
  .int (a.toInt32 % 4294967296 / 2 ^ (b.toInt32 % 32).toNat)

def bitwiseNot [Platform] (v : Value) : Value := .int (-v.toInt32 - 1)

/-! ### The two entry points -/

def isNullish : Value → Bool
  | .undefined | .null => true
  | _ => false

def isUndefined : Value → Bool
  | .undefined => true
  | _ => false

def isNull : Value → Bool
  | .null => true
  | _ => false

def unary [Platform] : Op → Value → Option Value
  | .neg, v => some v.negate
  | .plus, v => some v.toNumber
  | .not, v => some v.bitwiseNot
  | .lnot, v => some (.bool (!v.truthy))
  | .inc, v => add v (.int 1)
  | .dec, v => subtract v (.int 1)
  | .isUndefinedOrNull, v => some (.bool v.isNullish)
  | .isUndefined, v => some (.bool v.isUndefined)
  | .isNull, v => some (.bool v.isNull)
  | _, _ => none

def binary [Platform] : Op → Value → Value → Option Value
  | .add, left, right => add left right
  | .sub, left, right => subtract left right
  | .mul, left, right => multiply left right
  | .div, left, right => divide left right
  | .mod, left, right => modulo left right
  | .pow, left, right => some (power left right)
  | .lt, left, right => some (.bool (compareValues left right .lt))
  | .lte, left, right => some (.bool (compareValues left right .lte))
  | .gt, left, right => some (.bool (compareValues left right .gt))
  | .gte, left, right => some (.bool (compareValues left right .gte))
  | .eq, left, right => some (.bool (abstractEqual left right))
  | .neq, left, right => some (.bool (!abstractEqual left right))
  | .strictEq, left, right => some (.bool (strictEqual left right))
  | .strictNeq, left, right => some (.bool (!strictEqual left right))
  | .and, left, right => some (bitwise left right Int.land)
  | .or, left, right => some (bitwise left right Int.lor)
  | .xor, left, right => some (bitwise left right Int.xor)
  | .shl, left, right => some (shiftLeft left right)
  | .sar, left, right => some (shiftRight left right)
  | .shr, left, right => some (shiftRightUnsigned left right)
  | _, _, _ => none

end QuickBeam.Vm.Program.Value
