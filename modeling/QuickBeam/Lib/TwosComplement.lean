import Mathlib.Data.Int.Bitwise
import Mathlib.Tactic.Linarith
import Mathlib.Tactic.Positivity

/-!
# Bit operations on signed words

An integer stands for an infinite two's complement string of bits.  The operations on such
strings keep the signed integers of a given width, and their low bits are the bits that the
operations on words of any width give.
-/

namespace QuickBeam.Lib

/-- `n` is a signed integer of `w + 1` bits. -/
def IsSigned (w : ℕ) (n : ℤ) : Prop := -2 ^ w ≤ n ∧ n < 2 ^ w

variable {w : ℕ}

theorem isSigned_ofNat {m : ℕ} : IsSigned w (m : ℤ) ↔ m < 2 ^ w := by
  have hcast : ((2 ^ w : ℕ) : ℤ) = 2 ^ w := by simp
  unfold IsSigned
  omega

theorem isSigned_negSucc {m : ℕ} : IsSigned w (Int.negSucc m) ↔ m < 2 ^ w := by
  have hcast : ((2 ^ w : ℕ) : ℤ) = 2 ^ w := by simp
  unfold IsSigned
  omega

theorem ldiff_lt_two_pow {m n : ℕ} (hm : m < 2 ^ w) : Nat.ldiff m n < 2 ^ w := by
  refine Nat.lt_pow_two_of_testBit _ fun i hi => ?_
  rw [Nat.testBit_ldiff, Nat.testBit_lt_two_pow (hm.trans_le (Nat.pow_le_pow_right (by omega) hi)),
    Bool.false_and]

theorem isSigned_land {m n : ℤ} (hm : IsSigned w m) (hn : IsSigned w n) :
    IsSigned w (Int.land m n) := by
  cases m with
  | ofNat m =>
    cases n with
    | ofNat n => exact isSigned_ofNat.2 (Nat.and_lt_two_pow m (isSigned_ofNat.1 hn))
    | negSucc n => exact isSigned_ofNat.2 (ldiff_lt_two_pow (isSigned_ofNat.1 hm))
  | negSucc m =>
    cases n with
    | ofNat n => exact isSigned_ofNat.2 (ldiff_lt_two_pow (isSigned_ofNat.1 hn))
    | negSucc n =>
      exact isSigned_negSucc.2 (Nat.or_lt_two_pow (isSigned_negSucc.1 hm) (isSigned_negSucc.1 hn))

theorem isSigned_lor {m n : ℤ} (hm : IsSigned w m) (hn : IsSigned w n) :
    IsSigned w (Int.lor m n) := by
  cases m with
  | ofNat m =>
    cases n with
    | ofNat n =>
      exact isSigned_ofNat.2 (Nat.or_lt_two_pow (isSigned_ofNat.1 hm) (isSigned_ofNat.1 hn))
    | negSucc n => exact isSigned_negSucc.2 (ldiff_lt_two_pow (isSigned_negSucc.1 hn))
  | negSucc m =>
    cases n with
    | ofNat n => exact isSigned_negSucc.2 (ldiff_lt_two_pow (isSigned_negSucc.1 hm))
    | negSucc n => exact isSigned_negSucc.2 (Nat.and_lt_two_pow m (isSigned_negSucc.1 hn))

theorem isSigned_xor {m n : ℤ} (hm : IsSigned w m) (hn : IsSigned w n) :
    IsSigned w (Int.xor m n) := by
  cases m with
  | ofNat m =>
    cases n with
    | ofNat n =>
      exact isSigned_ofNat.2 (Nat.xor_lt_two_pow (isSigned_ofNat.1 hm) (isSigned_ofNat.1 hn))
    | negSucc n =>
      exact isSigned_negSucc.2 (Nat.xor_lt_two_pow (isSigned_ofNat.1 hm) (isSigned_negSucc.1 hn))
  | negSucc m =>
    cases n with
    | ofNat n =>
      exact isSigned_negSucc.2 (Nat.xor_lt_two_pow (isSigned_negSucc.1 hm) (isSigned_ofNat.1 hn))
    | negSucc n =>
      exact isSigned_ofNat.2 (Nat.xor_lt_two_pow (isSigned_negSucc.1 hm) (isSigned_negSucc.1 hn))

theorem isSigned_not {n : ℤ} (hn : IsSigned w n) : IsSigned w (-n - 1) := by
  obtain ⟨hlow, hhigh⟩ := hn
  unfold IsSigned
  omega

theorem isSigned_ediv {n d : ℤ} (hn : IsSigned w n) (hd : 0 < d) : IsSigned w (n / d) := by
  obtain ⟨hlow, hhigh⟩ := hn
  refine ⟨(Int.le_ediv_iff_mul_le hd).2 ?_, Int.ediv_lt_of_lt_mul hd ?_⟩
  · have hpos : (0 : ℤ) ≤ 2 ^ w := by positivity
    nlinarith
  · have hpos : (0 : ℤ) < 2 ^ w := by positivity
    nlinarith

/-- A product by a power of two is signed when its factor has that many bits to spare. -/
theorem isSigned_mul_two_pow_iff {k : ℕ} (hk : k ≤ w) (n : ℤ) :
    IsSigned w (n * 2 ^ k) ↔ IsSigned (w - k) n := by
  have hpow : (2 : ℤ) ^ w = 2 ^ (w - k) * 2 ^ k := by rw [← pow_add, Nat.sub_add_cancel hk]
  have hpos : (0 : ℤ) < 2 ^ k := by positivity
  unfold IsSigned
  rw [hpow, ← neg_mul]
  exact and_congr (mul_le_mul_iff_of_pos_right hpos) (mul_lt_mul_iff_of_pos_right hpos)

theorem isSigned_bmod (n : ℤ) : IsSigned w (n.bmod (2 ^ (w + 1))) := by
  have hlow : -((2 ^ (w + 1) : ℕ) / 2 : ℤ) ≤ n.bmod (2 ^ (w + 1)) :=
    Int.le_bmod (Nat.two_pow_pos _)
  have hhigh : n.bmod (2 ^ (w + 1)) < (((2 ^ (w + 1) : ℕ) : ℤ) + 1) / 2 :=
    Int.bmod_lt (Nat.two_pow_pos _)
  have hcast : ((2 ^ (w + 1) : ℕ) : ℤ) = 2 * 2 ^ w := by rw [Nat.cast_pow, Nat.cast_two, pow_succ']
  unfold IsSigned
  rw [hcast] at hlow hhigh
  omega

theorem toInt_ofInt_of_isSigned {n : ℤ} (hn : IsSigned w n) :
    (BitVec.ofInt (w + 1) n).toInt = n := by
  have hcast : ((2 ^ (w + 1) : ℕ) : ℤ) = 2 * 2 ^ w := by rw [Nat.cast_pow, Nat.cast_two, pow_succ']
  obtain ⟨hlow, hhigh⟩ := hn
  rw [BitVec.toInt_ofInt]
  refine Int.bmod_eq_of_le ?_ ?_
  · rw [hcast]; omega
  · rw [hcast]; omega

/-! ### The low bits -/

theorem ofNat_ldiff (m n : ℕ) :
    BitVec.ofNat w (Nat.ldiff m n) = BitVec.ofNat w m &&& ~~~BitVec.ofNat w n := by
  refine BitVec.eq_of_getLsbD_eq fun i hi => ?_
  rw [BitVec.getLsbD_and, BitVec.getLsbD_not]
  simp only [BitVec.getLsbD_ofNat, Nat.testBit_ldiff, hi, decide_true, Bool.true_and]

theorem ofInt_land (m n : ℤ) :
    BitVec.ofInt w (Int.land m n) = BitVec.ofInt w m &&& BitVec.ofInt w n := by
  cases m <;> cases n <;>
    simp [Int.land, ofNat_ldiff, BitVec.and_comm, BitVec.not_or]

theorem ofInt_lor (m n : ℤ) :
    BitVec.ofInt w (Int.lor m n) = BitVec.ofInt w m ||| BitVec.ofInt w n := by
  cases m <;> cases n <;>
    simp [Int.lor, ofNat_ldiff, BitVec.or_comm, BitVec.not_and]

theorem ofInt_xor (m n : ℤ) :
    BitVec.ofInt w (Int.xor m n) = BitVec.ofInt w m ^^^ BitVec.ofInt w n := by
  cases m with
  | ofNat m =>
    cases n with
    | ofNat n => simp [Int.xor]
    | negSucc n =>
      refine BitVec.eq_of_getLsbD_eq fun i hi => ?_
      simp [Int.xor, hi]
  | negSucc m =>
    cases n with
    | ofNat n =>
      refine BitVec.eq_of_getLsbD_eq fun i hi => ?_
      simp [Int.xor, hi]
    | negSucc n =>
      refine BitVec.eq_of_getLsbD_eq fun i hi => ?_
      simp [Int.xor, hi]

theorem ofInt_not (n : ℤ) : BitVec.ofInt w (-n - 1) = ~~~BitVec.ofInt w n := by
  cases n with
  | ofNat n =>
    have hnot : -(n : ℤ) - 1 = Int.negSucc n := by omega
    show BitVec.ofInt w (-(n : ℤ) - 1) = _
    rw [hnot]
    simp
  | negSucc n =>
    have hnot : -Int.negSucc n - 1 = (n : ℤ) := by omega
    rw [hnot]
    simp

end QuickBeam.Lib
