import Mathlib.Data.Int.Bitwise
import Mathlib.Tactic.Ring
import QuickBeam.Wasm.ImportEntries

/-!
# The number decoders of the parser (`wasm/parser.ex`) and the encoders of the rewriter

The parser reads the groups of a signed number into an unbounded integer and extends its sign where
the groups have not filled the type.  An encoding that fills it has sign bits above the type, which
are not cut off: a negative number then comes out with `2 ^ (7 * length)` added.
-/

namespace QuickBeam.Wasm.Parser

open QuickBeam.Lib QuickBeam.Lib.Leb128 QuickBeam.Lib.Wasm QuickBeam.Wasm.ImportRewriter

def decodeUleb128 (result shift : ℕ) : Bytes → Except Failure (ℕ × Bytes)
  | [] => raise
  | byte :: rest =>
    let value := result ||| ((byte.toNat &&& 0x7F) <<< shift)
    if byte.toNat &&& 0x80 = 0 then .ok (value, rest) else decodeUleb128 value (shift + 7) rest

def decodeSleb128 (size result shift : ℕ) : Bytes → Except Failure (ℤ × Bytes)
  | [] => raise
  | byte :: rest =>
    let value := result ||| ((byte.toNat &&& 0x7F) <<< shift)
    if byte.toNat &&& 0x80 = 0 then
      if shift + 7 < size ∧ byte.toNat &&& 0x40 ≠ 0 then
        .ok (Int.lor value ((-1 : ℤ) <<< (shift + 7)), rest)
      else .ok (value, rest)
    else decodeSleb128 size value (shift + 7) rest

/-! ### What is decoded -/

theorem decodeUleb128_eq (bs : Bytes) (acc shift : ℕ) :
    decodeUleb128 acc shift bs = decodeU32From acc shift bs := by
  induction bs generalizing acc shift with
  | nil => rfl
  | cons b bs ih =>
    unfold decodeUleb128 decodeU32From
    simp only [ih]

theorem lor_sign {v s : ℕ} (h : v < 2 ^ s) : Int.lor v ((-1 : ℤ) <<< s) = v - 2 ^ s := by
  have hones : (-1 : ℤ) <<< s = Int.negSucc (2 ^ s - 1) := by
    have hpos : 0 < 2 ^ s := Nat.two_pow_pos s
    rw [Int.shiftLeft_eq, Int.negSucc_eq]
    push_cast [Nat.cast_sub hpos]
    ring
  have hdiff : Nat.ldiff (2 ^ s - 1) v = 2 ^ s - (v + 1) := by
    apply Nat.eq_of_testBit_eq
    intro i
    rw [Nat.testBit_ldiff, Nat.testBit_two_pow_sub_one, Nat.testBit_two_pow_sub_succ h]
  rw [hones]
  show Int.negSucc (Nat.ldiff (2 ^ s - 1) v) = _
  rw [hdiff, Int.negSucc_eq]
  push_cast [Nat.cast_sub (show v + 1 ≤ 2 ^ s from h)]
  ring

theorem or_group {acc shift : ℕ} (hacc : acc < 2 ^ shift) (b : UInt8) :
    acc ||| ((b.toNat &&& 0x7F) <<< shift) = acc + b.toNat % 128 * 2 ^ shift := by
  rw [and_low, Nat.shiftLeft_eq, Nat.or_comm, Nat.mul_comm, ← Nat.two_pow_add_eq_or_of_lt hacc,
    Nat.add_comm]

theorem group_lt {acc shift g : ℕ} (hacc : acc < 2 ^ shift) (hg : g < 128) :
    acc + g * 2 ^ shift < 2 ^ (shift + 7) := by
  have hle : g * 2 ^ shift ≤ 127 * 2 ^ shift := Nat.mul_le_mul_right _ (by omega)
  rw [Nat.pow_add]
  omega

/-- A signed number, on top of what was read.  Where its groups fill the type, a negative one comes
out without its sign. -/
theorem decodeSleb128_append {size : ℕ} {bs : Bytes} {n : ℤ} (h : Signed bs n) {acc shift : ℕ}
    (hacc : acc < 2 ^ shift) (rest : Bytes) :
    decodeSleb128 size acc shift (bs ++ rest) = .ok (acc + n * 2 ^ shift +
      (if 0 ≤ n ∨ shift + 7 * bs.length < size then 0 else 2 ^ (shift + 7 * bs.length)), rest) := by
  induction h generalizing acc shift with
  | nonneg b hb =>
    have hbit := (and_sign (b := b.toNat) (by omega)).2 hb
    rw [List.singleton_append, decodeSleb128, or_group hacc, if_pos ((and_high b.toNat_lt).2 (by omega)),
      if_neg fun hs => hs.2 hbit, if_pos (.inl (by omega)), Nat.mod_eq_of_lt (by omega)]
    push_cast
    ring_nf
  | neg b hb hb' =>
    have hbit : b.toNat &&& 0x40 ≠ 0 := fun hbit => by
      have := (and_sign hb').1 hbit
      omega
    rw [List.singleton_append, decodeSleb128, or_group hacc, if_pos ((and_high b.toNat_lt).2 hb'),
      Nat.mod_eq_of_lt hb']
    by_cases hsize : shift + 7 < size
    · rw [if_pos ⟨hsize, hbit⟩, if_pos (.inr hsize), lor_sign (group_lt hacc hb')]
      push_cast [pow_add]
      ring_nf
    · rw [if_neg fun hs => hsize hs.1, if_neg]
      · push_cast [List.length_singleton, pow_add]
        ring_nf
      · rintro (hn | hn)
        · omega
        · exact hsize hn
  | @more b bs n hb hrest ih =>
    have hbyte := b.toNat_lt
    have hlow : b.toNat % 128 = b.toNat - 128 := by omega
    rw [List.cons_append, decodeSleb128, or_group hacc, hlow,
      if_neg (by rw [and_high b.toNat_lt]; omega),
      ih (group_lt hacc (by omega))]
    have hsign : (0 ≤ ((b.toNat : ℤ) - 128 + 128 * n)) ↔ 0 ≤ n := by omega
    have hlength : shift + 7 * (b :: bs).length = shift + 7 + 7 * bs.length := by
      rw [List.length_cons]
      ring
    simp only [hsign, hlength]
    push_cast [pow_add, Nat.cast_sub hb]
    ring_nf

/-- The decoder of this size reads the number off the encoding, and leaves what follows. -/
def ReadsBack (size : ℕ) (bs : Bytes) (n : ℤ) : Prop :=
  ∀ rest, decodeSleb128 size 0 0 (bs ++ rest) = .ok (n, rest)

structure Encodes (size : ℕ) (bs : Bytes) (n : ℤ) : Prop where
  signed : Signed bs n
  length : bs.length ≤ (size + 6) / 7
  ge : -2 ^ (size - 1) ≤ n
  lt : n < 2 ^ (size - 1)

variable {bs : Bytes} {n : ℤ}

theorem readsBack_iff {size : ℕ} (h : Signed bs n) :
    ReadsBack size bs n ↔ 0 ≤ n ∨ 7 * bs.length < size := by
  have hread := @decodeSleb128_append size bs n h 0 0 (by decide)
  simp only [Nat.cast_zero, pow_zero, mul_one, zero_add] at hread
  constructor
  · intro hback
    by_contra hnot
    have heq := (hread []).symm.trans (hback [])
    rw [if_neg hnot] at heq
    have hvalue := congrArg Prod.fst (Except.ok.inj heq)
    have hpos : (0 : ℤ) < 2 ^ (7 * bs.length) := by positivity
    simp only at hvalue
    omega
  · intro hin rest
    rw [hread rest, if_pos hin, add_zero]

/-! ### The shortest encoding -/

theorem signed_bounds (h : Signed bs n) :
    ∃ k, bs.length = k + 1 ∧ -(64 * 128 ^ k : ℤ) ≤ n ∧ n < 64 * 128 ^ k := by
  induction h with
  | nonneg b hb => exact ⟨0, rfl, by omega, by omega⟩
  | neg b hb hb' => exact ⟨0, rfl, by omega, by omega⟩
  | @more b bs n hb _ ih =>
    obtain ⟨k, hlen, hlo, hhi⟩ := ih
    have hbyte := b.toNat_lt
    refine ⟨k + 1, congrArg Nat.succ hlen, ?_, ?_⟩
    · rw [pow_succ]
      omega
    · rw [pow_succ]
      omega

theorem length_encodeSleb128_le (h : Signed bs n) : (encodeSleb128 n).length ≤ bs.length := by
  obtain ⟨k, hlen, hlo, hhi⟩ := signed_bounds h
  rw [hlen]
  exact length_encodeSleb128 hlo hhi

/-- A signed encoding is read back if and only if the number is not negative or the groups leave
room in the type; unsigned ones are read back by both decoders, and the signed encoder writes the
shortest encoding. -/
theorem decoders_inverse_iff {size : ℕ} {bs : Bytes} {n : ℤ} (h : Encodes size bs n) :
    (ReadsBack size bs n ↔ 0 ≤ n ∨ 7 * bs.length < size) ∧
    (∀ m < 2 ^ 64, ∀ rest, decodeUleb128 0 0 (encodeUleb128 m ++ rest) = .ok (m, rest) ∧
      decodeU32 (encodeUleb128 m ++ rest) = .ok (m, rest)) ∧
    ∀ m, Signed (encodeSleb128 m) m ∧ ∀ bs, Signed bs m → (encodeSleb128 m).length ≤ bs.length := by
  refine ⟨readsBack_iff h.signed, fun m _ rest => ?_, fun m => ⟨encodeSleb128_signed m, fun bs =>
    length_encodeSleb128_le⟩⟩
  have hread := @decodeU32From_append _ m (encodeUleb128_unsigned m) 0 0 (by decide) rest
  rw [Nat.zero_add, pow_zero, mul_one] at hread
  exact ⟨(decodeUleb128_eq _ 0 0).trans hread, hread⟩

theorem encodeSleb128_least : encodeSleb128 (-2 ^ 31) = [0x80, 0x80, 0x80, 0x80, 0x78] := by
  simp [encodeSleb128, sleb128Done]

theorem encodes_least : Encodes 32 (encodeSleb128 (-2 ^ 31)) (-2 ^ 31) where
  signed := encodeSleb128_signed _
  length := by
    rw [encodeSleb128_least]
    decide
  ge := le_refl _
  lt := by decide

theorem decoders_inverse_least : ReadsBack 32 (encodeSleb128 (-2 ^ 31)) (-2 ^ 31) ↔
    (0 : ℤ) ≤ -2 ^ 31 ∨ 7 * (encodeSleb128 (-2 ^ 31)).length < 32 :=
  (decoders_inverse_iff encodes_least).1

/-- The bytes of the smallest `i32` are not read as it. -/
theorem not_readsBack_least : Encodes 32 (encodeSleb128 (-2 ^ 31)) (-2 ^ 31) ∧
    ¬ReadsBack 32 (encodeSleb128 (-2 ^ 31)) (-2 ^ 31) := by
  refine ⟨encodes_least, fun hback => ?_⟩
  have hread := hback []
  rw [encodeSleb128_least] at hread
  exact absurd hread (by decide)

end QuickBeam.Wasm.Parser
