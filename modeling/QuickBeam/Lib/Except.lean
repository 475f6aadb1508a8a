/-!
# Checks that raise

A function that fails with a reason is a chain of binds and checks; `bind_eq_ok` takes a
successful chain apart, link by link, and `bind_eq_ok_iff` puts one together.
-/

namespace QuickBeam.Lib

variable {ε α β : Type}

theorem bind_eq_ok {x : Except ε α} {f : α → Except ε β} {b : β} (h : x >>= f = .ok b) :
    ∃ a, x = .ok a ∧ f a = .ok b := by
  cases x with
  | error e => cases h
  | ok a => exact ⟨a, rfl, h⟩

theorem bind_eq_ok_iff {x : Except ε α} {f : α → Except ε β} {b : β} :
    x >>= f = .ok b ↔ ∃ a, x = .ok a ∧ f a = .ok b :=
  ⟨bind_eq_ok, by rintro ⟨a, rfl, h⟩; exact h⟩

theorem unit_bind_eq_ok_iff {x : Except ε Unit} {f : Unit → Except ε β} {b : β} :
    x >>= f = .ok b ↔ x = .ok () ∧ f () = .ok b :=
  ⟨fun h => (bind_eq_ok h).elim fun _ h => h, by rintro ⟨rfl, h⟩; exact h⟩

/-- Raise `reason` unless the condition holds. -/
def check (condition : Bool) (reason : ε) : Except ε Unit :=
  if condition then .ok () else .error reason

variable {condition : Bool}

theorem check_eq_ok {reason : ε} {u : Unit} (h : check condition reason = .ok u) :
    condition = true := by
  unfold check at h
  split at h
  · assumption
  · cases h

theorem check_of_true (reason : ε) (h : condition = true) :
    check condition reason = .ok () := if_pos h

end QuickBeam.Lib
