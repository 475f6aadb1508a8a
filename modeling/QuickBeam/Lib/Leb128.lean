import Mathlib

/-!
# LEB128 numbers

A number in groups of seven bits, the lowest first; every byte but the last has its high bit set.
An encoding need not be the shortest.
-/

namespace QuickBeam.Lib.Leb128

inductive Unsigned : List UInt8 → ℕ → Prop
  | last (b : UInt8) : b.toNat < 128 → Unsigned [b] b.toNat
  | more (b : UInt8) {bs : List UInt8} {n : ℕ} :
      128 ≤ b.toNat → Unsigned bs n → Unsigned (b :: bs) (b.toNat - 128 + 128 * n)

inductive Signed : List UInt8 → ℤ → Prop
  | nonneg (b : UInt8) : b.toNat < 64 → Signed [b] b.toNat
  | neg (b : UInt8) : 64 ≤ b.toNat → b.toNat < 128 → Signed [b] (b.toNat - 128)
  | more (b : UInt8) {bs : List UInt8} {z : ℤ} :
      128 ≤ b.toNat → Signed bs z → Signed (b :: bs) (b.toNat - 128 + 128 * z)

def encode (n : ℕ) : List UInt8 :=
  if n < 128 then [UInt8.ofNat n] else UInt8.ofNat (n % 128 + 128) :: encode (n / 128)

theorem encode_unsigned (n : ℕ) : Unsigned (encode n) n := by
  induction n using Nat.strongRecOn with
  | ind n ih =>
    rw [encode]
    split
    · have hbyte : (UInt8.ofNat n).toNat = n := by
        rw [UInt8.toNat_ofNat']
        omega
      have hlast := Unsigned.last (UInt8.ofNat n) (by omega)
      rwa [hbyte] at hlast
    · have hbyte : (UInt8.ofNat (n % 128 + 128)).toNat = n % 128 + 128 := by
        rw [UInt8.toNat_ofNat']
        omega
      have hmore := Unsigned.more (UInt8.ofNat (n % 128 + 128)) (by omega) (ih (n / 128) (by omega))
      have hvalue : n % 128 + 128 - 128 + 128 * (n / 128) = n := by omega
      rwa [hbyte, hvalue] at hmore

theorem length_encode {k n : ℕ} (h : n < 128 ^ (k + 1)) : (encode n).length ≤ k + 1 := by
  induction k generalizing n with
  | zero =>
    rw [encode, if_pos (by simpa using h)]
    exact Nat.le_refl 1
  | succ k ih =>
    rw [encode]
    split
    · exact Nat.succ_pos _
    · rw [Nat.pow_succ] at h
      exact Nat.succ_le_succ (ih (by omega))

structure U32 (bs : List UInt8) (n : ℕ) : Prop where
  unsigned : Unsigned bs n
  length : bs.length ≤ 5
  lt : n < 2 ^ 32

structure S32 (bs : List UInt8) (z : ℤ) : Prop where
  signed : Signed bs z
  length : bs.length ≤ 5
  ge : -2 ^ 31 ≤ z
  lt : z < 2 ^ 31

structure S64 (bs : List UInt8) (z : ℤ) : Prop where
  signed : Signed bs z
  length : bs.length ≤ 10
  ge : -2 ^ 63 ≤ z
  lt : z < 2 ^ 63

theorem encode_u32 {n : ℕ} (h : n < 2 ^ 32) : U32 (encode n) n where
  unsigned := encode_unsigned n
  length := length_encode (Nat.lt_trans h (by decide))
  lt := h

theorem U32.byte (b : UInt8) (h : b.toNat < 128) : U32 [b] b.toNat where
  unsigned := .last b h
  length := Nat.succ_le_succ (Nat.zero_le _)
  lt := Nat.lt_trans h (by decide)

theorem S32.byte (b : UInt8) (h : b.toNat < 64) : S32 [b] b.toNat where
  signed := .nonneg b h
  length := Nat.succ_le_succ (Nat.zero_le _)
  ge := by omega
  lt := by omega

end QuickBeam.Lib.Leb128
