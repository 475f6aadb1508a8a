import QuickBeam.Lib.Double

/-!
# Binary64 numbers

The finite doubles together with the infinities and one NaN.  A rounded result that is too large
for a double is infinite, and the results that are not are bounded exactly (`ofRatio_lt_iff`).
-/

namespace QuickBeam.Lib

/-! ### Rounding -/

section Rounding

theorem le_roundQuotient (n d : ℕ) : n / d ≤ roundQuotient n d := by
  unfold roundQuotient
  split_ifs <;> omega

theorem roundQuotient_le (n d : ℕ) : roundQuotient n d ≤ n / d + 1 := by
  unfold roundQuotient
  split_ifs <;> omega

theorem roundQuotient_lt_iff {n d k : ℕ} (hd : 0 < d) (hk : k % 2 = 1) :
    roundQuotient n d < k + 1 ↔ 2 * n < (2 * k + 1) * d := by
  have hn : 2 * n = 2 * (n / d) * d + 2 * (n % d) := by
    rw [Nat.mul_assoc, ← Nat.mul_add, Nat.div_add_mod' n d]
  have hr := Nat.mod_lt n hd
  rcases Nat.lt_trichotomy (n / d) k with hlt | heq | hgt
  · have hle := roundQuotient_le n d
    have hmul : (2 * (n / d) + 2) * d ≤ (2 * k + 1) * d := Nat.mul_le_mul_right d (by omega)
    rw [Nat.add_mul] at hmul
    constructor <;> omega
  · unfold roundQuotient
    rw [heq] at hn ⊢
    rw [Nat.add_mul]
    split_ifs <;> omega
  · have hge := le_roundQuotient n d
    have hmul : (2 * k + 1) * d ≤ 2 * (n / d) * d := Nat.mul_le_mul_right d (by omega)
    constructor <;> omega

variable {n d : ℕ}

def roundedUnits (n d : ℕ) : ℕ := roundQuotient n (d * ulp (n / d)) * ulp (n / d)

theorem log2_eq_of_between {q e : ℕ} (hlow : 2 ^ e ≤ q) (hhigh : q < 2 ^ (e + 1)) : q.log2 = e := by
  have hq : q ≠ 0 := by
    have := Nat.two_pow_pos e
    omega
  exact (Nat.log2_eq_iff hq).2 ⟨hlow, hhigh⟩

theorem roundedUnits_between {e : ℕ} (he : 52 ≤ e) (hlow : 2 ^ e ≤ n / d) (hhigh : n / d < 2 ^ (e + 1)) :
    2 ^ e ≤ roundedUnits n d ∧ roundedUnits n d ≤ 2 ^ (e + 1) := by
  have hulp : ulp (n / d) = 2 ^ (e - 52) := by rw [ulp, log2_eq_of_between hlow hhigh]
  have hpow : 2 ^ 52 * 2 ^ (e - 52) = 2 ^ e := by rw [← Nat.pow_add]; congr 1; omega
  have hpow' : 2 ^ 53 * 2 ^ (e - 52) = 2 ^ (e + 1) := by rw [← Nat.pow_add]; congr 1; omega
  have hdiv : n / (d * 2 ^ (e - 52)) = n / d / 2 ^ (e - 52) := (Nat.div_div_eq_div_mul ..).symm
  have hge := le_roundQuotient n (d * 2 ^ (e - 52))
  have hle := roundQuotient_le n (d * 2 ^ (e - 52))
  rw [hdiv] at hge hle
  have hk : 2 ^ 52 ≤ n / d / 2 ^ (e - 52) :=
    (Nat.le_div_iff_mul_le (Nat.two_pow_pos _)).2 (hpow.trans_le hlow)
  have hk' : n / d / 2 ^ (e - 52) < 2 ^ 53 :=
    (Nat.div_lt_iff_lt_mul (Nat.two_pow_pos _)).2 (hhigh.trans_eq hpow'.symm)
  unfold roundedUnits
  rw [hulp]
  constructor
  · rw [← hpow]
    exact Nat.mul_le_mul_right _ (hk.trans hge)
  · rw [← hpow']
    exact Nat.mul_le_mul_right _ (by omega)

theorem roundedUnits_of_small (h : n / d < 2 ^ 53) : roundedUnits n d ≤ 2 ^ 53 := by
  have hulp : ulp (n / d) = 1 := by
    by_cases hzero : n / d = 0
    · rw [hzero]; rfl
    · have hlog : (n / d).log2 < 53 := (Nat.log2_lt hzero).2 h
      rw [ulp, show (n / d).log2 - 52 = 0 by omega, Nat.pow_zero]
  have hle := roundQuotient_le n d
  rw [roundedUnits, hulp, Nat.mul_one, Nat.mul_one]
  omega

/-- **Rounding gives a count of its own spacing.** -/
theorem roundedUnits_mod (n d : ℕ) : roundedUnits n d % ulp (roundedUnits n d) = 0 := by
  by_cases hsmall : n / d < 2 ^ 53
  · have hle := roundedUnits_of_small hsmall
    rcases Nat.lt_or_eq_of_le hle with hlt | heq
    · by_cases hzero : roundedUnits n d = 0
      · rw [hzero, Nat.zero_mod]
      · have hlog : (roundedUnits n d).log2 < 53 := (Nat.log2_lt hzero).2 hlt
        rw [ulp, show (roundedUnits n d).log2 - 52 = 0 by omega, Nat.pow_zero, Nat.mod_one]
    · rw [heq]
      decide
  · have hne : n / d ≠ 0 := by omega
    have hlow : 2 ^ (n / d).log2 ≤ n / d := Nat.log2_self_le hne
    have hhigh : n / d < 2 ^ ((n / d).log2 + 1) := Nat.lt_log2_self
    have he : 52 ≤ (n / d).log2 := by
      have := (Nat.le_log2 hne).2 (show 2 ^ 53 ≤ n / d by omega)
      omega
    obtain ⟨hge, hle⟩ := roundedUnits_between he hlow hhigh
    rcases Nat.lt_or_eq_of_le hle with hlt | heq
    · rw [ulp, log2_eq_of_between hge hlt]
      exact Nat.mul_mod_left ..
    · rw [heq, ulp, Nat.log2_two_pow]
      exact Nat.mod_eq_zero_of_dvd (Nat.pow_dvd_pow 2 (by omega))

theorem Double.unitsPerOne_pos : 0 < unitsPerOne := by decide +kernel

variable {x : Double}

theorem Double.ofRatio_eq_some_iff {neg : Bool} :
    Double.ofRatio neg n d = some x ↔ x.neg = neg ∧ x.units = roundedUnits n d := by
  have hdef : Double.ofRatio neg n d =
      if h : IsMagnitude (roundedUnits n d) then some ⟨neg, roundedUnits n d, h⟩ else none := rfl
  rw [hdef]
  constructor
  · intro h
    split at h
    · cases h
      exact ⟨rfl, rfl⟩
    · cases h
  · rintro ⟨hneg, hunits⟩
    rw [dif_pos (hunits ▸ x.isMagnitude)]
    obtain ⟨neg', units, hm⟩ := x
    obtain rfl : neg' = neg := hneg
    obtain rfl : units = roundedUnits n d := hunits
    rfl

theorem Double.ofRatio_isSome_iff {neg : Bool} :
    (Double.ofRatio neg n d).isSome ↔ roundedUnits n d < 2 ^ 2098 := by
  have hdef : Double.ofRatio neg n d =
      if h : IsMagnitude (roundedUnits n d) then some ⟨neg, roundedUnits n d, h⟩ else none := rfl
  rw [hdef]
  constructor
  · intro h
    split at h
    · rename_i hm
      exact hm.2
    · cases h
  · intro h
    rw [dif_pos ⟨roundedUnits_mod n d, h⟩]
    rfl

/-- **The bound of rounding**: a value is rounded below a power of two exactly if it lies below the
middle between that power and the largest double under it. -/
theorem roundedUnits_lt_iff (hd : 0 < d) {e : ℕ} (he : 53 ≤ e) :
    roundedUnits n d < 2 ^ (e + 1) ↔ n < (2 ^ (e + 1) - 2 ^ (e - 53)) * d := by
  have hhalf : 2 ^ (e + 1) = (2 ^ 54 - 1) * 2 ^ (e - 53) + 2 ^ (e - 53) := by
    rw [Nat.sub_one_mul, Nat.sub_add_cancel (Nat.le_mul_of_pos_left _ (by decide)), ← Nat.pow_add]
    congr 1
    omega
  have hbound : 2 ^ (e + 1) - 2 ^ (e - 53) = (2 ^ 54 - 1) * 2 ^ (e - 53) := by omega
  have hspacing : 2 ^ (e - 52) = 2 * 2 ^ (e - 53) := by
    rw [← Nat.pow_succ']
    congr 1
    omega
  have hpow : 2 ^ 53 * 2 ^ (e - 52) = 2 ^ (e + 1) := by rw [← Nat.pow_add]; congr 1; omega
  have hnd : n = n / d * d + n % d := (Nat.div_add_mod' n d).symm
  have hr := Nat.mod_lt n hd
  rw [hbound]
  rcases Nat.lt_or_ge (n / d) (2 ^ e) with hsmall | hlarge
  · refine ⟨fun _ => ?_, fun _ => ?_⟩
    · have hmul : (n / d + 1) * d ≤ (2 ^ 54 - 1) * 2 ^ (e - 53) * d := by
        refine Nat.mul_le_mul_right d ?_
        have : 2 ^ (e + 1) = 2 * 2 ^ e := Nat.pow_succ'
        have := Nat.two_pow_pos (e - 53)
        omega
      rw [Nat.add_mul] at hmul
      omega
    · rcases Nat.lt_or_ge (n / d) (2 ^ 53) with hfew | hmany
      · exact (roundedUnits_of_small hfew).trans_lt (Nat.pow_lt_pow_right (by decide) (by omega))
      · have hne : n / d ≠ 0 := by omega
        have hlow : 2 ^ (n / d).log2 ≤ n / d := Nat.log2_self_le hne
        have hhigh : n / d < 2 ^ ((n / d).log2 + 1) := Nat.lt_log2_self
        have hlog := (Nat.le_log2 hne).2 hmany
        have hlt : (n / d).log2 < e := (Nat.log2_lt hne).2 hsmall
        refine (roundedUnits_between (by omega) hlow hhigh).2.trans_lt ?_
        exact Nat.pow_lt_pow_right (by decide) (by omega)
  rcases Nat.lt_or_ge (n / d) (2 ^ (e + 1)) with hbelow | habove
  · have hulp : ulp (n / d) = 2 ^ (e - 52) := by rw [ulp, log2_eq_of_between hlarge hbelow]
    have hround := roundQuotient_lt_iff (n := n) (d := d * 2 ^ (e - 52)) (k := 2 ^ 53 - 1)
      (Nat.mul_pos hd (Nat.two_pow_pos _)) (by decide)
    have hscaled : (2 * (2 ^ 53 - 1) + 1) * (d * 2 ^ (e - 52)) =
        2 * ((2 ^ 54 - 1) * 2 ^ (e - 53) * d) := by
      rw [hspacing, show 2 * (2 ^ 53 - 1) + 1 = 2 ^ 54 - 1 by rfl, Nat.mul_left_comm d 2,
        Nat.mul_left_comm (2 ^ 54 - 1) 2, Nat.mul_left_comm (2 ^ 54 - 1) d, Nat.mul_comm d]
    unfold roundedUnits
    rw [hulp, ← hpow, Nat.mul_lt_mul_right (Nat.two_pow_pos _)]
    rw [hscaled, Nat.mul_lt_mul_left (by decide)] at hround
    exact hround
  · refine ⟨fun h => ?_, fun h => ?_⟩
    · have hne : n / d ≠ 0 := by
        have := Nat.two_pow_pos (e + 1)
        omega
      have hlog : e + 1 ≤ (n / d).log2 := (Nat.le_log2 hne).2 habove
      have hge := (roundedUnits_between (show 52 ≤ (n / d).log2 by omega) (Nat.log2_self_le hne)
        Nat.lt_log2_self).1
      have hpower : 2 ^ (e + 1) ≤ 2 ^ (n / d).log2 := Nat.pow_le_pow_right (by decide) hlog
      omega
    · have hmul : (2 ^ 54 - 1) * 2 ^ (e - 53) * d ≤ n / d * d := by
        refine Nat.mul_le_mul_right d ?_
        omega
      omega

theorem roundedUnits_of_isMagnitude {m : ℕ} (hd : 0 < d) (h : IsMagnitude m) :
    roundedUnits (m * d) d = m := by
  have hulp : 0 < d * ulp m := Nat.mul_pos hd (Nat.two_pow_pos _)
  have hdvd : m * d % (d * ulp m) = 0 := by
    rw [Nat.mul_comm m, Nat.mul_mod_mul_left, h.1, Nat.mul_zero]
  unfold roundedUnits
  rw [Nat.mul_div_cancel _ hd, Double.roundQuotient_of_dvd hulp hdvd, Nat.mul_comm m,
    Nat.mul_div_mul_left _ _ hd]
  exact Nat.div_mul_cancel (Nat.dvd_of_mod_eq_zero h.1)

theorem Double.ofInt_eq_some {n : ℤ} (hneg : x.neg = decide (n < 0))
    (hunits : x.units = n.natAbs * unitsPerOne) : Double.ofInt n = some x := by
  have hround := roundedUnits_of_isMagnitude Nat.one_pos x.isMagnitude
  rw [Nat.mul_one, hunits] at hround
  exact ofRatio_eq_some_iff.2 ⟨hneg, hunits.trans hround.symm⟩

theorem isMagnitude_of_le {n : ℕ} (h : n ≤ 2 ^ 53) : IsMagnitude (n * Double.unitsPerOne) := by
  rcases Nat.lt_or_eq_of_le h with hlt | rfl
  · obtain ⟨x, -, hunits, -⟩ := Double.ofInt_exact (n := n) hlt
    exact hunits ▸ x.isMagnitude
  · decide +kernel

theorem Double.eq_of_trunc (hone : 1 ≤ x.trunc.toNat) (hwhole : x.units % unitsPerOne = 0)
    {h : IsMagnitude (x.trunc.toNat * unitsPerOne)} :
    x = ⟨false, x.trunc.toNat * unitsPerOne, h⟩ := by
  have hpos : x.neg = false := by
    cases hneg : x.neg with
    | false => rfl
    | true =>
      unfold trunc at hone
      rw [hneg, if_pos rfl] at hone
      generalize x.units / unitsPerOne = q at hone
      omega
  have htrunc : x.trunc.toNat = x.units / unitsPerOne := by
    unfold trunc
    rw [hpos, if_neg Bool.false_ne_true, Int.toNat_natCast]
  obtain ⟨neg, units, hm⟩ := x
  obtain rfl : neg = false := hpos
  have hunits : units = units / unitsPerOne * unitsPerOne :=
    (Nat.div_mul_cancel (Nat.dvd_of_mod_eq_zero hwhole)).symm
  simp only [htrunc, Double.mk.injEq, true_and]
  exact hunits

end Rounding

/-! ### All numbers -/

inductive Binary64 where
  | nan
  | infinity (neg : Bool)
  | finite (x : Double)
deriving DecidableEq

namespace Binary64

/-- A rounded result, infinite where it is too large. -/
def rounded (neg : Bool) : Option Double → Binary64
  | some x => finite x
  | none => infinity neg

def ofInt (n : ℤ) : Binary64 := rounded (n < 0) (Double.ofInt n)

def mul : Binary64 → Binary64 → Binary64
  | nan, _ | _, nan => nan
  | infinity s, infinity t => infinity (s ^^ t)
  | infinity s, finite y => if y.isZero then nan else infinity (s ^^ y.neg)
  | finite x, infinity t => if x.isZero then nan else infinity (x.neg ^^ t)
  | finite x, finite y => rounded (x.neg ^^ y.neg) (x.mul y)

/-- Nothing is less or greater than NaN. -/
def lt : Binary64 → Binary64 → Bool
  | nan, _ | _, nan => false
  | infinity s, infinity t => s && !t
  | infinity s, finite _ => s
  | finite _, infinity t => !t
  | finite x, finite y => x.toUnits < y.toUnits

/-- The integer part, where it is a number of `width` bits. -/
def toUnsigned (width : ℕ) : Binary64 → Option ℕ
  | finite x => if 0 ≤ x.trunc ∧ x.trunc < 2 ^ width then some x.trunc.toNat else none
  | _ => none

/-- A product of finite doubles is converted to an unsigned integer exactly if its value lies below
the middle between `2 ^ width` and the largest double under it. -/
theorem toUnsigned_mul_isSome_iff {x y : Double} {width : ℕ} (hwidth : width ≤ 1023)
    (hpos : (x.neg ^^ y.neg) = false) :
    (((finite x).mul (finite y)).toUnsigned width).isSome ↔
      x.units * y.units < (2 ^ (width + 1074) - 2 ^ (width + 1020)) * Double.unitsPerOne := by
  have hbound := roundedUnits_lt_iff (n := x.units * y.units) Double.unitsPerOne_pos (e := width + 1073) (by omega)
  rw [show width + 1073 + 1 = width + 1074 by omega, show width + 1073 - 53 = width + 1020 by omega]
    at hbound
  rw [← hbound]
  have hmul : (finite x).mul (finite y) = rounded (x.neg ^^ y.neg)
      (Double.ofRatio (x.neg ^^ y.neg) (x.units * y.units) Double.unitsPerOne) := rfl
  rw [hmul, hpos]
  cases hresult : Double.ofRatio false (x.units * y.units) Double.unitsPerOne with
  | none =>
    refine ⟨nofun, fun h => ?_⟩
    have hpow : 2 ^ (width + 1074) ≤ 2 ^ 2098 := Nat.pow_le_pow_right (by decide) (by omega)
    have hsome := (@Double.ofRatio_isSome_iff _ _ false).2 (h.trans_le hpow)
    rw [hresult] at hsome
    cases hsome
  | some z =>
    obtain ⟨hneg, hunits⟩ := Double.ofRatio_eq_some_iff.1 hresult
    have htrunc : z.trunc = (z.units / Double.unitsPerOne : ℕ) := by
      unfold Double.trunc
      rw [hneg, if_neg Bool.false_ne_true]
    show (if 0 ≤ z.trunc ∧ z.trunc < 2 ^ width then some z.trunc.toNat else none).isSome ↔ _
    rw [htrunc, ← hunits, Nat.pow_add, ← Nat.div_lt_iff_lt_mul (Nat.two_pow_pos _)]
    have hcast : ((2 ^ width : ℕ) : ℤ) = 2 ^ width := Int.natCast_pow 2 width
    constructor
    · intro h
      by_contra hnot
      rw [if_neg (by rw [← hcast, Int.ofNat_lt]; exact fun hboth => hnot hboth.2)] at h
      cases h
    · intro h
      rw [if_pos ⟨Int.natCast_nonneg _, by rw [← hcast, Int.ofNat_lt]; exact h⟩]
      rfl

theorem toUnsigned_lt {x : Binary64} {width n : ℕ} (h : x.toUnsigned width = some n) :
    n < 2 ^ width := by
  cases x with
  | finite x =>
    replace h : (if 0 ≤ x.trunc ∧ x.trunc < 2 ^ width then some x.trunc.toNat else none) = some n := h
    split at h
    · rename_i hrange
      have hcast : ((2 ^ width : ℕ) : ℤ) = 2 ^ width := Int.natCast_pow 2 width
      have hlt := hrange.2
      rw [← Option.some.inj h]
      omega
    · cases h
  | nan => cases h
  | infinity s => cases h

theorem ofInt_of_le {n : ℕ} (h : n ≤ 2 ^ 53) :
    ofInt n = finite ⟨false, n * Double.unitsPerOne, isMagnitude_of_le h⟩ := by
  have hdouble : Double.ofInt n = some ⟨false, n * Double.unitsPerOne, isMagnitude_of_le h⟩ :=
    Double.ofInt_eq_some (decide_eq_false (by omega)).symm rfl
  rw [ofInt, hdouble]
  rfl

theorem ofInt_of_zero : ofInt 0 = finite .zero := by decide +kernel

theorem ofInt_trunc {x : Double} (hwhole : x.units % Double.unitsPerOne = 0)
    (hzero : x ≠ Double.negZero) : ofInt x.trunc = finite x := by
  have hunits : x.units = x.units / Double.unitsPerOne * Double.unitsPerOne :=
    (Nat.div_mul_cancel (Nat.dvd_of_mod_eq_zero hwhole)).symm
  have hdouble : Double.ofInt x.trunc = some x := by
    cases hneg : x.neg with
    | false =>
      refine Double.ofInt_eq_some ?_ ?_ <;> rw [Double.trunc, hneg, if_neg Bool.false_ne_true]
      · exact (decide_eq_false (not_lt.2 (Int.natCast_nonneg _))).symm
      · exact hunits
    | true =>
      have hpos : x.units / Double.unitsPerOne ≠ 0 := by
        intro hdiv
        rw [hdiv, Nat.zero_mul] at hunits
        obtain ⟨neg, units, hm⟩ := x
        obtain rfl : neg = true := hneg
        obtain rfl : units = 0 := hunits
        exact hzero rfl
      refine Double.ofInt_eq_some ?_ ?_ <;> rw [Double.trunc, hneg, if_pos rfl]
      · refine (decide_eq_true ?_).symm
        generalize x.units / Double.unitsPerOne = q at hpos
        omega
      · rw [Int.natAbs_neg]
        exact hunits
  rw [ofInt, hdouble, rounded]

theorem ofInt_inj {m n : ℕ} (hm : m ≤ 2 ^ 53) (hn : n ≤ 2 ^ 53) (h : ofInt m = ofInt n) : m = n := by
  rw [ofInt_of_le hm, ofInt_of_le hn] at h
  simp only [finite.injEq, Double.mk.injEq, true_and] at h
  exact Nat.eq_of_mul_eq_mul_right Double.unitsPerOne_pos h

end Binary64

end QuickBeam.Lib
