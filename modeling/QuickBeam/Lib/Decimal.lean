import Mathlib.Data.Nat.Digits.Lemmas
import Mathlib.Tactic.Common

/-!
# Decimal digits

Texts are lists of ASCII bytes.
-/

namespace QuickBeam.Lib.Decimal

def digit (d : ℕ) : UInt8 := UInt8.ofNat (48 + d)

def isDigit (c : UInt8) : Bool := 48 ≤ c && c ≤ 57

/-- The number that digits stand for. -/
def value (text : List UInt8) : ℕ := text.foldl (fun n c => 10 * n + (c.toNat - 48)) 0

/-- The digits of a number without leading zeros. -/
def print (n : ℕ) : List UInt8 := if n = 0 then [48] else (Nat.digits 10 n).reverse.map digit

theorem toNat_digit {d : ℕ} (hd : d < 10) : (digit d).toNat = 48 + d := by
  unfold digit
  rw [UInt8.toNat_ofNat']
  omega

variable {c : UInt8}

theorem isDigit_iff : isDigit c ↔ 48 ≤ c.toNat ∧ c.toNat ≤ 57 := by
  unfold isDigit
  rw [Bool.and_eq_true, decide_eq_true_eq, decide_eq_true_eq, UInt8.le_iff_toNat_le,
    UInt8.le_iff_toNat_le]
  rfl

theorem isDigit_digit {d : ℕ} (hd : d < 10) : isDigit (digit d) := by
  rw [isDigit_iff, toNat_digit hd]
  omega

theorem isDigit_print (n : ℕ) : ∀ c ∈ print n, isDigit c := by
  intro c hc
  unfold print at hc
  split at hc
  · rw [List.mem_singleton.1 hc]
    rfl
  · obtain ⟨d, hd, rfl⟩ := List.mem_map.1 hc
    exact isDigit_digit (Nat.digits_lt_base (by decide) (List.mem_reverse.1 hd))

theorem print_ne_nil (n : ℕ) : print n ≠ [] := by
  unfold print
  split
  · exact List.cons_ne_nil _ _
  · rename_i hn
    rw [ne_eq, List.map_eq_nil_iff, List.reverse_eq_nil_iff]
    exact Nat.digits_ne_nil_iff_ne_zero.2 hn

theorem value_append (text : List UInt8) (c : UInt8) :
    value (text ++ [c]) = 10 * value text + (c.toNat - 48) := by
  unfold value
  rw [List.foldl_append]
  rfl

theorem value_print (n : ℕ) : value (print n) = n := by
  have hdigits : ∀ ds : List ℕ, (∀ d ∈ ds, d < 10) →
      value (ds.reverse.map digit) = Nat.ofDigits 10 ds := by
    intro ds hds
    induction ds with
    | nil => rfl
    | cons d ds ih =>
      rw [List.reverse_cons, List.map_append, List.map_singleton, value_append,
        ih fun e he => hds e (List.mem_cons_of_mem d he), toNat_digit (hds d List.mem_cons_self),
        Nat.ofDigits_cons]
      omega
  unfold print
  split
  · rename_i hn
    rw [hn]
    rfl
  · rw [hdigits _ fun d hd => Nat.digits_lt_base (by decide) hd, Nat.ofDigits_digits]

end QuickBeam.Lib.Decimal
