import Mathlib.Data.List.Basic
import Mathlib.Data.Int.Notation
import Mathlib.Algebra.Order.Ring.Int
import Mathlib.Tactic.Positivity

/-!
# Little-endian integers in byte strings

Reading `n` bytes at a position as an unsigned or signed integer, and writing them back.  The
two are inverse to each other: `writeLE_readLE` and `unsigned_signed`.
-/

namespace QuickBeam.Lib.Bytes

/-- The byte at a position; zero behind the end. -/
def byteAt (bs : List UInt8) (pos : ℕ) : ℕ := (bs.getD pos 0).toNat

/-- `n` bytes from a position on. -/
def slice (bs : List UInt8) (pos n : ℕ) : List UInt8 := (bs.drop pos).take n

/-- The unsigned integer in `n` bytes, the least significant byte first. -/
def readLE (bs : List UInt8) (pos : ℕ) : ℕ → ℕ
  | 0 => 0
  | n + 1 => byteAt bs pos + 256 * readLE bs (pos + 1) n

/-- The `n` least significant bytes of an integer. -/
def writeLE : ℕ → ℕ → List UInt8
  | 0, _ => []
  | n + 1, v => UInt8.ofNat v :: writeLE n (v / 256)

/-- Two's complement of `n` bytes. -/
def signed (n v : ℕ) : ℤ := if 256 ^ n ≤ 2 * v then (v : ℤ) - 256 ^ n else v

/-- The unsigned integer with the bytes of a signed one. -/
def unsigned (n : ℕ) (z : ℤ) : ℕ := (z % 256 ^ n).toNat

@[simp] theorem slice_zero (bs : List UInt8) (pos : ℕ) : slice bs pos 0 = [] := List.take_zero

theorem slice_add (bs : List UInt8) (pos a b : ℕ) :
    slice bs pos (a + b) = slice bs pos a ++ slice bs (pos + a) b := by
  show (bs.drop pos).take (a + b) = _
  rw [List.take_add, List.drop_drop]
  rfl

variable {bs : List UInt8} {pos : ℕ}

theorem slice_one (h : pos < bs.length) : slice bs pos 1 = [bs[pos]] := by
  show (bs.drop pos).take 1 = _
  rw [List.drop_eq_getElem_cons h]
  rfl

theorem byteAt_of_lt (h : pos < bs.length) : byteAt bs pos = bs[pos].toNat := by
  unfold byteAt
  rw [List.getD_eq_getElem?_getD, List.getElem?_eq_getElem h]
  rfl

theorem byteAt_lt (bs : List UInt8) (pos : ℕ) : byteAt bs pos < 256 := UInt8.toNat_lt _

theorem readLE_lt (bs : List UInt8) (pos n : ℕ) : readLE bs pos n < 256 ^ n := by
  induction n generalizing pos with
  | zero => exact Nat.one_pos
  | succ n ih =>
    have hb := byteAt_lt bs pos
    have hr := ih (pos + 1)
    rw [readLE, Nat.pow_succ]
    omega

@[simp] theorem length_writeLE (n v : ℕ) : (writeLE n v).length = n := by
  induction n generalizing v with
  | zero => rfl
  | succ n ih => rw [writeLE, List.length_cons, ih]

/-- **Writing what was read.** -/
theorem writeLE_readLE {pos n : ℕ} (h : pos + n ≤ bs.length) :
    writeLE n (readLE bs pos n) = slice bs pos n := by
  induction n generalizing pos with
  | zero => rw [slice_zero]; rfl
  | succ n ih =>
    have hlt : pos < bs.length := by omega
    have hb := byteAt_lt bs pos
    have hdiv : readLE bs pos (n + 1) / 256 = readLE bs (pos + 1) n := by
      rw [readLE]
      omega
    have hbyte : UInt8.ofNat (readLE bs pos (n + 1)) = bs[pos] := by
      apply UInt8.toNat_inj.1
      rw [UInt8.toNat_ofNat', readLE, ← byteAt_of_lt hlt]
      omega
    rw [writeLE, hdiv, hbyte, ih (by omega), Nat.add_comm n 1, slice_add, slice_one hlt]
    rfl

/-- **Two's complement is undone.** -/
theorem unsigned_signed {n v : ℕ} (h : v < 256 ^ n) : unsigned n (signed n v) = v := by
  have hp : (0 : ℤ) < 256 ^ n := by positivity
  have hv : (v : ℤ) < 256 ^ n := by exact_mod_cast h
  unfold unsigned signed
  split
  · rw [Int.sub_emod_right, Int.emod_eq_of_lt (by omega) hv]
    rfl
  · rw [Int.emod_eq_of_lt (by omega) hv]
    rfl

end QuickBeam.Lib.Bytes
