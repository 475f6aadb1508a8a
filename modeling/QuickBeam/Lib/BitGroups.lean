import Mathlib.Data.Nat.Bitwise
import Mathlib.Tactic.Common

/-!
# Groups of bits

Numbers put together from groups of bits by shifts and disjunctions, and taken apart by masks.
-/

namespace QuickBeam.Lib.BitGroups

theorem or_high (k x : ℕ) (h : x < 2 ^ k) (a : ℕ) : a * 2 ^ k ||| x = a * 2 ^ k + x := by
  rw [← Nat.shiftLeft_eq, ← Nat.shiftLeft_add_eq_or_of_lt h]

/-! ### Masks -/

theorem and_0x3F (n : ℕ) : n &&& 0x3F = n % 64 := Nat.and_two_pow_sub_one_eq_mod n 6

theorem and_0x1F (n : ℕ) : n &&& 0x1F = n % 32 := Nat.and_two_pow_sub_one_eq_mod n 5

theorem and_0x0F (n : ℕ) : n &&& 0x0F = n % 16 := Nat.and_two_pow_sub_one_eq_mod n 4

theorem and_0x07 (n : ℕ) : n &&& 0x07 = n % 8 := Nat.and_two_pow_sub_one_eq_mod n 3

theorem and_0x3FF (n : ℕ) : n &&& 0x3FF = n % 1024 := Nat.and_two_pow_sub_one_eq_mod n 10

theorem and_0xFF (n : ℕ) : n &&& 0xFF = n % 256 := Nat.and_two_pow_sub_one_eq_mod n 8

/-! ### Groups of bytes -/

theorem joinBytes {a b c : ℕ} (hb : b < 256) (hc : c < 256) :
    a <<< 16 ||| b <<< 8 ||| c = a * 65536 + b * 256 + c := by
  rw [Nat.or_assoc, Nat.shiftLeft_eq, Nat.shiftLeft_eq, or_high 8 c hc b]
  exact (or_high 16 (b * 2 ^ 8 + c) (by omega) a).trans (Nat.add_assoc _ _ _).symm

/-! ### Groups of six bits -/

theorem join2 {a b : ℕ} (hb : b < 64) : a <<< 6 ||| b = a * 64 + b := by
  rw [Nat.shiftLeft_eq]
  exact or_high 6 b hb a

theorem join3 {a b c : ℕ} (hb : b < 64) (hc : c < 64) :
    a <<< 12 ||| b <<< 6 ||| c = a * 4096 + b * 64 + c := by
  rw [Nat.or_assoc, join2 hc, Nat.shiftLeft_eq]
  exact (or_high 12 (b * 64 + c) (by omega) a).trans (Nat.add_assoc _ _ _).symm

theorem join4 {a b c d : ℕ} (hb : b < 64) (hc : c < 64) (hd : d < 64) :
    a <<< 18 ||| b <<< 12 ||| c <<< 6 ||| d = a * 262144 + b * 4096 + c * 64 + d := by
  rw [Nat.or_assoc, Nat.or_assoc, ← Nat.or_assoc (b <<< 12), join3 hc hd, Nat.shiftLeft_eq]
  have h := or_high 18 (b * 4096 + c * 64 + d) (by omega) a
  exact h.trans (by omega)

end QuickBeam.Lib.BitGroups
