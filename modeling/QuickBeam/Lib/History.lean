import Mathlib.Data.List.Induction

/-!
# Properties of a history, entry by entry

A history lists what has happened, oldest first.  `Each P h` says that every entry of `h` stands
in the relation `P` to the entries before it; this is how safety over a whole run ("never after",
"at most once", "in the order of") is stated as a property of the history the run leaves.

The rule is `each_append_singleton`: a new entry has to be checked against the history it is
added to, and the entries before it are not disturbed.
-/

namespace QuickBeam.Lib.History

variable {α : Type*} {P Q : List α → α → Prop} {h h' : List α} {x : α}

/-- Every entry of the history is as `P` demands, given what happened before it. -/
def Each (P : List α → α → Prop) (h : List α) : Prop :=
  ∀ past x future, h = past ++ x :: future → P past x

theorem each_nil : Each P [] := by
  intro past x future h
  cases past <;> cases h

theorem each_append_singleton : Each P (h ++ [x]) ↔ Each P h ∧ P h x := by
  constructor
  · intro hall
    refine ⟨fun past y future he => ?_, hall h x [] rfl⟩
    apply hall past y (future ++ [x])
    rw [he, List.append_assoc, List.cons_append]
  · rintro ⟨hall, hx⟩ past y future he
    cases future using List.reverseRecOn with
    | nil =>
      obtain ⟨rfl, hy⟩ := List.append_inj' he rfl
      cases hy
      exact hx
    | append_singleton future z =>
      rw [← List.cons_append, ← List.append_assoc] at he
      exact hall past y future (List.append_inj' he rfl).1

theorem Each.of_mem (hall : Each P h) (hx : x ∈ h) : ∃ past future, h = past ++ x :: future ∧ P past x := by
  obtain ⟨past, future, he⟩ := List.append_of_mem hx
  exact ⟨past, future, he, hall past x future he⟩

theorem Each.imp (hall : Each P h) (hPQ : ∀ past x, P past x → Q past x) : Each Q h :=
  fun past x future he => hPQ past x (hall past x future he)

end QuickBeam.Lib.History
