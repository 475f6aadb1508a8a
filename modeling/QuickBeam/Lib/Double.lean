import Mathlib

/-!
# Finite binary64 numbers

A finite double is a sign and a magnitude counted in units of `2 ^ (-1074)`, the smallest
positive double; the magnitude of a finite double is a natural number of at most 53 significant
bits below `2 ^ 2098`.  Zero has both signs.
-/

namespace QuickBeam.Lib

/-- The distance of neighbouring doubles near the magnitude `n`. -/
def ulp (n : ℕ) : ℕ := 2 ^ (n.log2 - 52)

/-- The multiple count of `d` nearest to `n`, ties to the even one. -/
def roundQuotient (n d : ℕ) : ℕ :=
  if 2 * (n % d) < d then n / d
  else if d < 2 * (n % d) then n / d + 1
  else if n / d % 2 = 0 then n / d else n / d + 1

/-- A whole number of units rounded to 53 significant bits. -/
def roundUnits (n : ℕ) : ℕ := roundQuotient n (ulp n) * ulp n

def IsMagnitude (n : ℕ) : Prop := n % ulp n = 0 ∧ n < 2 ^ 2098

instance (n : ℕ) : Decidable (IsMagnitude n) := by unfold IsMagnitude; infer_instance

structure Double where
  neg : Bool
  units : ℕ
  isMagnitude : IsMagnitude units
deriving DecidableEq

namespace Double

theorem isMagnitude_zero : IsMagnitude 0 := ⟨Nat.zero_mod _, Nat.two_pow_pos _⟩

def zero : Double := ⟨false, 0, isMagnitude_zero⟩

def negZero : Double := ⟨true, 0, isMagnitude_zero⟩

/-! ### Arithmetic -/

/-- The magnitude `numerator / denominator` units, rounded; `none` when it is too large. -/
def ofRatio (neg : Bool) (numerator denominator : ℕ) : Option Double :=
  let spacing := ulp (numerator / denominator)
  let units := roundQuotient numerator (denominator * spacing) * spacing
  if h : IsMagnitude units then some ⟨neg, units, h⟩ else none

def unitsPerOne : ℕ := 2 ^ 1074

def toUnits (x : Double) : ℤ := if x.neg then -(x.units : ℤ) else x.units

def isZero (x : Double) : Bool := x.units = 0

def ofInt (n : ℤ) : Option Double := ofRatio (n < 0) (n.natAbs * unitsPerOne) 1

def neg' (x : Double) : Double := { x with neg := !x.neg }

/-- A sum that is exactly zero is negative only when both terms are. -/
def add (x y : Double) : Option Double :=
  let sum := x.toUnits + y.toUnits
  ofRatio (if sum = 0 then x.neg && y.neg else sum < 0) sum.natAbs 1

def sub (x y : Double) : Option Double := x.add y.neg'

def mul (x y : Double) : Option Double := ofRatio (x.neg ^^ y.neg) (x.units * y.units) unitsPerOne

def div (x y : Double) : Option Double :=
  if y.units = 0 then none else ofRatio (x.neg ^^ y.neg) (x.units * unitsPerOne) y.units

/-- The remainder with the sign of the dividend. -/
def fmod (x y : Double) : Option Double :=
  if y.units = 0 then none else ofRatio x.neg (x.units % y.units) 1

def trunc (x : Double) : ℤ :=
  if x.neg then -((x.units / unitsPerOne : ℕ) : ℤ) else (x.units / unitsPerOne : ℕ)

/-! ### Integers -/

theorem log2_mul_two_pow {m : ℕ} (hm : m ≠ 0) (k : ℕ) : (m * 2 ^ k).log2 = m.log2 + k := by
  rw [Nat.log2_eq_log_two, Nat.log2_eq_log_two]
  induction k with
  | zero => rw [Nat.pow_zero, Nat.mul_one, Nat.add_zero]
  | succ k ih =>
    have hne : m * 2 ^ k ≠ 0 := Nat.mul_ne_zero hm (Nat.two_pow_pos k).ne'
    rw [Nat.pow_succ, ← Nat.mul_assoc, Nat.log_mul_base (by decide) hne, ih, Nat.add_assoc]

theorem mul_two_pow_lt {m a b c : ℕ} (hm : m < 2 ^ a) (h : a + b ≤ c) : m * 2 ^ b < 2 ^ c :=
  calc m * 2 ^ b < 2 ^ a * 2 ^ b := Nat.mul_lt_mul_of_pos_right hm (Nat.two_pow_pos b)
    _ = 2 ^ (a + b) := (Nat.pow_add ..).symm
    _ ≤ 2 ^ c := Nat.pow_le_pow_right (by decide) h

theorem roundQuotient_of_dvd {n d : ℕ} (hd : 0 < d) (h : n % d = 0) : roundQuotient n d = n / d := by
  unfold roundQuotient
  rw [h, if_pos (by omega)]

theorem ofInt_exact {n : ℤ} (hn : n.natAbs < 2 ^ 53) :
    ∃ x, ofInt n = some x ∧ x.units = n.natAbs * unitsPerOne ∧ x.neg = decide (n < 0) := by
  have hdvd : n.natAbs * unitsPerOne % ulp (n.natAbs * unitsPerOne) = 0 := by
    by_cases hzero : n.natAbs = 0
    · rw [hzero, Nat.zero_mul, Nat.zero_mod]
    · have hlog : n.natAbs.log2 ≤ 52 := by
        rw [Nat.log2_eq_log_two]
        exact Nat.lt_succ_iff.1 (Nat.log_lt_of_lt_pow hzero hn)
      unfold ulp unitsPerOne
      rw [log2_mul_two_pow hzero]
      refine Nat.mod_eq_zero_of_dvd (Nat.dvd_mul_left_of_dvd ?_ _)
      exact Nat.pow_dvd_pow 2 (by omega)
  have hulp : 0 < ulp (n.natAbs * unitsPerOne) := Nat.two_pow_pos _
  have hround : roundQuotient (n.natAbs * unitsPerOne) (1 * ulp (n.natAbs * unitsPerOne / 1)) *
      ulp (n.natAbs * unitsPerOne / 1) = n.natAbs * unitsPerOne := by
    rw [Nat.div_one, Nat.one_mul, roundQuotient_of_dvd hulp hdvd]
    exact Nat.div_mul_cancel (Nat.dvd_of_mod_eq_zero hdvd)
  have hmagnitude : IsMagnitude (n.natAbs * unitsPerOne) := by
    exact ⟨hdvd, mul_two_pow_lt hn (by decide)⟩
  refine ⟨⟨decide (n < 0), n.natAbs * unitsPerOne, hmagnitude⟩, ?_, rfl, rfl⟩
  unfold ofInt ofRatio
  simp only [hround]
  exact dif_pos hmagnitude

theorem trunc_of_units {x : Double} {m : ℕ} (h : x.units = m * unitsPerOne) :
    x.trunc = if x.neg then -(m : ℤ) else m := by
  have hdiv : m * unitsPerOne / unitsPerOne = m := Nat.mul_div_cancel m (Nat.two_pow_pos _)
  unfold trunc
  rw [h, hdiv]
end Double

end QuickBeam.Lib
