import Mathlib.Data.List.Basic
import Mathlib.Tactic.Common

/-!
# Cutting a text at its first mark

`splitFirst_append` cuts off what has no mark in it, and `splitFirst_join` puts the parts together.
-/

namespace QuickBeam.Lib.FirstMark

variable {α : Type*} [DecidableEq α]

/-- What stands before the first `d`, and what after it where there is one. -/
def splitFirst (d : α) : List α → List α × Option (List α)
  | [] => ([], none)
  | c :: t => if c = d then ([], some t) else (c :: (splitFirst d t).1, (splitFirst d t).2)

def marked (d : α) : Option (List α) → List α
  | none => []
  | some t => d :: t

variable {d : α} {a : List α}

theorem splitFirst_append (ha : d ∉ a) (b : Option (List α)) :
    splitFirst d (a ++ marked d b) = (a, b) := by
  induction a with
  | nil =>
    cases b with
    | none => rfl
    | some t => exact if_pos rfl
  | cons c a ih =>
    have hc : c ≠ d := fun he => ha (he ▸ List.mem_cons_self)
    show (if c = d then _ else _) = _
    rw [if_neg hc]
    show (c :: (splitFirst d (a ++ marked d b)).1, (splitFirst d (a ++ marked d b)).2) = _
    rw [ih fun hmem => ha (List.mem_cons_of_mem c hmem)]

theorem splitFirst_none (ha : d ∉ a) : splitFirst d a = (a, none) := by
  simpa [marked] using splitFirst_append ha none

theorem splitFirst_join (d : α) (t : List α) :
    (splitFirst d t).1 ++ marked d (splitFirst d t).2 = t := by
  induction t with
  | nil => rfl
  | cons c t ih =>
    unfold splitFirst
    split
    · rename_i hc
      rw [hc]
      rfl
    · exact congrArg (c :: ·) ih

theorem not_mem_splitFirst (d : α) (t : List α) : d ∉ (splitFirst d t).1 := by
  induction t with
  | nil => exact List.not_mem_nil
  | cons c t ih =>
    unfold splitFirst
    split
    · exact List.not_mem_nil
    · rename_i hc
      show d ∉ c :: (splitFirst d t).1
      simp [ih, Ne.symm hc]

end QuickBeam.Lib.FirstMark
