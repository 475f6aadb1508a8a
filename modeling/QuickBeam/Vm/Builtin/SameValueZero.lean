import QuickBeam.Vm.Builtin.Collections

/-!
# The keys of maps and sets

SameValueZero says which values are one key.  The comparison of map keys decides it, and the
normalised keys of a set's index are equal exactly for values that are one key.
-/

namespace QuickBeam.Vm.Builtin

open QuickBeam.Lib QuickBeam.Vm.Program

/-! ### SameValueZero -/

/-- Identical values, or numbers of the same value: both zeros are one key, and so is `NaN`. -/
def SameValueZero (a b : Value) : Prop :=
  a = b ∨ a.isNumber = true ∧ b.isNumber = true ∧ a.units = b.units

instance : DecidableRel SameValueZero := fun a b => by
  unfold SameValueZero
  infer_instance

theorem sameValueZero_equivalence : Equivalence SameValueZero where
  refl a := .inl rfl
  symm h := by
    rcases h with rfl | ⟨ha, hb, h⟩
    · exact .inl rfl
    · exact .inr ⟨hb, ha, h.symm⟩
  trans h h' := by
    rcases h with rfl | ⟨ha, hb, h⟩
    · exact h'
    · rcases h' with rfl | ⟨-, hc, h'⟩
      · exact .inr ⟨ha, hb, h⟩
      · exact .inr ⟨ha, hc, h.trans h'⟩

instance keySetoid : Setoid Value := ⟨SameValueZero, sameValueZero_equivalence⟩

instance (a b : Value) : Decidable (a ≈ b) := inferInstanceAs (Decidable (SameValueZero a b))

/-- The keys of JavaScript's collections. -/
abbrev Key := Quotient keySetoid

def keyOf (v : Value) : Key := Quotient.mk _ v

theorem keyOf_eq_iff {a b : Value} : keyOf a = keyOf b ↔ SameValueZero a b := Quotient.eq

theorem sameKey_iff (a b : Value) : sameKey a b = true ↔ keyOf a = keyOf b := by
  rw [keyOf_eq_iff, SameValueZero]
  unfold sameKey
  split
  · exact ⟨fun _ => .inl rfl, fun _ => rfl⟩
  · rename_i hnan
    unfold Value.strictEqual
    by_cases hnumbers : (a.isNumber && b.isNumber) = true
    · rw [if_pos hnumbers]
      obtain ⟨ha, hb⟩ := Bool.and_eq_true_iff.1 hnumbers
      rw [Value.numEq, decide_eq_true_iff]
      exact ⟨fun h => .inr ⟨ha, hb, h⟩, fun h => h.elim (congrArg _) fun h => h.2.2⟩
    · rw [if_neg hnumbers]
      have hnot : ¬(a.isNumber = true ∧ b.isNumber = true ∧ a.units = b.units) := fun h =>
        hnumbers (Bool.and_eq_true_iff.2 ⟨h.1, h.2.1⟩)
      rw [or_iff_left hnot]
      split
      · exact ⟨fun h => (by cases h), fun h => (hnan rfl h.symm).elim⟩
      · exact ⟨fun h => (by cases h), fun h => (hnan h rfl).elim⟩
      · exact Value.same_iff

/-! ### Normalised keys -/

variable {x : Double}

theorem toUnits_eq_zero : x.toUnits = 0 ↔ x.isZero = true := by
  unfold Double.toUnits Double.isZero
  rw [decide_eq_true_iff]
  split <;> omega

theorem double_eq_of_toUnits {x y : Double} (h : x.toUnits = y.toUnits) (hx : x.toUnits ≠ 0) :
    x = y := by
  obtain ⟨neg, units, hunits⟩ := x
  obtain ⟨neg', units', hunits'⟩ := y
  unfold Double.toUnits at h hx
  cases neg <;> cases neg' <;> simp only [if_true, if_false, Bool.false_eq_true] at h hx
  · obtain rfl : units = units' := by omega
    rfl
  · omega
  · omega
  · obtain rfl : units = units' := by omega
    rfl

theorem unitsPerOne_pos : 0 < Double.unitsPerOne := by
  unfold Double.unitsPerOne
  exact Nat.two_pow_pos 1074

theorem trunc_of_toUnits {n : ℤ} (h : x.toUnits = n * Double.unitsPerOne) : x.trunc = n := by
  have hpos := unitsPerOne_pos
  unfold Double.toUnits at h
  unfold Double.trunc
  generalize Double.unitsPerOne = d at h hpos
  have hd : (d : ℤ) ≠ 0 := by omega
  split at h
  · rename_i hneg
    have hunits : (x.units : ℤ) = -n * d := by
      rw [Int.neg_mul]
      omega
    rw [if_pos hneg, Int.natCast_div, hunits, Int.mul_ediv_cancel _ hd, Int.neg_neg]
  · rename_i hneg
    rw [if_neg hneg, Int.natCast_div, h, Int.mul_ediv_cancel _ hd]

/-- A normalised key is the key of a whole number, of another number, or a value. -/
theorem setKey_float (x : Double) :
    (∃ n : ℤ, setKey (.float x) = .int n ∧ x.toUnits = n * Double.unitsPerOne) ∨
      setKey (.float x) = .float x ∧ ∀ n : ℤ, x.toUnits ≠ n * Double.unitsPerOne := by
  simp only [setKey]
  by_cases hzero : x.isZero = true
  · rw [if_pos hzero]
    refine .inl ⟨0, rfl, ?_⟩
    rw [toUnits_eq_zero.2 hzero, Int.zero_mul]
  · rw [if_neg hzero]
    by_cases hwhole : Value.numEq (.int x.trunc) (.float x) = true
    · rw [if_pos hwhole]
      exact .inl ⟨_, rfl, (of_decide_eq_true hwhole).symm⟩
    · rw [if_neg hwhole]
      refine .inr ⟨rfl, fun n hn => hwhole (decide_eq_true ?_)⟩
      show x.trunc * (Double.unitsPerOne : ℤ) = x.toUnits
      rw [trunc_of_toUnits hn, hn]

theorem whole_inj {m n : ℤ} (h : m * Double.unitsPerOne = n * Double.unitsPerOne) : m = n := by
  have hpos := unitsPerOne_pos
  exact Int.eq_of_mul_eq_mul_right (by omega) h

variable {v : Value}

theorem setKey_int_iff (hv : v.isNumber = true) {n : ℤ} :
    setKey v = .int n ↔ v.units = n * Double.unitsPerOne := by
  cases v with
  | int m =>
    show SetKey.int m = .int n ↔ m * (Double.unitsPerOne : ℤ) = _
    exact ⟨fun h => by cases h; rfl, fun h => by rw [whole_inj h]⟩
  | float x =>
    show _ ↔ x.toUnits = _
    rcases setKey_float x with ⟨m, hkey, hm⟩ | ⟨hkey, hnot⟩
    · rw [hkey, hm]
      exact ⟨fun h => by cases h; rfl, fun h => by rw [whole_inj h]⟩
    · rw [hkey]
      exact ⟨fun h => (by cases h), fun h => absurd h (hnot n)⟩
  | _ => cases hv

theorem setKey_number (hv : v.isNumber = true) :
    (∃ n : ℤ, setKey v = .int n ∧ v.units = n * Double.unitsPerOne) ∨
      ∃ x : Double, v = .float x ∧ setKey v = .float x ∧ ∀ n : ℤ, v.units ≠ n * Double.unitsPerOne := by
  cases v with
  | int m => exact .inl ⟨m, rfl, rfl⟩
  | float x =>
    rcases setKey_float x with hwhole | ⟨hkey, hnot⟩
    · exact .inl hwhole
    · exact .inr ⟨x, rfl, hkey, hnot⟩
  | _ => cases hv

theorem setKey_other (hv : v.isNumber = false) :
    v = .nan ∧ setKey v = .nan ∨ v ≠ .nan ∧ setKey v = .value v := by
  cases v with
  | nan => exact .inl ⟨rfl, rfl⟩
  | int n => cases hv
  | float x => cases hv
  | _ => exact .inr ⟨fun h => (by cases h), rfl⟩

theorem setKey_eq_iff_of_numbers {a b : Value} (ha : a.isNumber = true) (hb : b.isNumber = true) :
    setKey a = setKey b ↔ a.units = b.units := by
  rcases setKey_number hb with ⟨n, hkey, hn⟩ | ⟨y, rfl, hkey, hnot⟩
  · rw [hkey, hn]
    exact setKey_int_iff ha
  · rcases setKey_number ha with ⟨n, hkey', hn⟩ | ⟨x, rfl, hkey', hnot'⟩
    · rw [hkey, hkey']
      refine ⟨fun h => (by cases h), fun h => absurd ?_ (hnot n)⟩
      rw [← h, hn]
    · rw [hkey, hkey']
      refine ⟨fun h => by cases h; rfl, fun h => ?_⟩
      have hne : x.toUnits ≠ 0 := fun h => hnot' 0 (by rw [Int.zero_mul]; exact h)
      rw [double_eq_of_toUnits h hne]

/-- **Normalisation** identifies exactly the values that SameValueZero does. -/
theorem setKey_eq_iff (a b : Value) : setKey a = setKey b ↔ SameValueZero a b := by
  -- A number and another value have different keys.
  have hmixed : ∀ {a b : Value}, a.isNumber = true → b.isNumber = false →
      setKey a ≠ setKey b ∧ a ≠ b := by
    intro a b ha hb
    refine ⟨fun h => ?_, fun h => ?_⟩
    · rcases setKey_number ha with ⟨n, hkey, -⟩ | ⟨x, -, hkey, -⟩ <;>
        rcases setKey_other hb with ⟨-, hkey'⟩ | ⟨-, hkey'⟩ <;>
        rw [hkey, hkey'] at h <;> cases h
    · rw [h, hb] at ha
      cases ha
  unfold SameValueZero
  cases ha : a.isNumber <;> cases hb : b.isNumber
  · rw [or_iff_left fun h => (by cases h.1)]
    rcases setKey_other ha with ⟨rfl, hkey⟩ | ⟨hnan, hkey⟩ <;>
      rcases setKey_other hb with ⟨rfl, hkey'⟩ | ⟨hnan', hkey'⟩
    · exact ⟨fun _ => rfl, fun _ => rfl⟩
    · rw [hkey, hkey']
      exact ⟨fun h => (by cases h), fun h => absurd h.symm hnan'⟩
    · rw [hkey, hkey']
      exact ⟨fun h => (by cases h), fun h => absurd h hnan⟩
    · rw [hkey, hkey']
      exact ⟨SetKey.value.inj, congrArg _⟩
  · rw [or_iff_left fun h => (by cases h.1)]
    exact ⟨fun h => absurd h.symm (hmixed hb ha).1, fun h => absurd h.symm (hmixed hb ha).2⟩
  · rw [or_iff_left fun h => (by cases h.2.1)]
    exact ⟨fun h => absurd h (hmixed ha hb).1, fun h => absurd h (hmixed ha hb).2⟩
  · rw [setKey_eq_iff_of_numbers ha hb]
    exact ⟨fun h => .inr ⟨rfl, rfl, h⟩, fun h => h.elim (congrArg _) fun h => h.2.2⟩

end QuickBeam.Vm.Builtin
