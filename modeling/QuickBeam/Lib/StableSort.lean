import Mathlib.Data.List.Basic
import Mathlib.Tactic.Common

/-!
# Stable sorting

What a stable sort gives, whatever the algorithm: a rearrangement in which no element stands
before a smaller one, and in which the elements that compare alike keep their order.
-/

namespace QuickBeam.Lib

variable {α : Type*}

/-- Neither of `a` and `b` is smaller. -/
def alike (le : α → α → Bool) (a b : α) : Bool := le a b && le b a

structure StablySorted (le : α → α → Bool) (before after : List α) : Prop where
  perm : after.Perm before
  sorted : after.Pairwise fun a b => le a b = true
  stable : ∀ a, after.filter (alike le a) = before.filter (alike le a)

/-! ### Pairs in a list -/

variable {l : List α}

variable {le : α → α → Bool} {before after : List α}

theorem StablySorted.filter (h : StablySorted le before after) (p : α → Bool) :
    StablySorted le (before.filter p) (after.filter p) := by
  refine ⟨h.perm.filter p, h.sorted.filter p, fun a => ?_⟩
  rw [List.filter_filter, List.filter_filter]
  have hcomm : ∀ l : List α, l.filter (fun b => alike le a b && p b) =
      (l.filter (alike le a)).filter p := by
    intro l
    rw [List.filter_filter]
    exact List.filter_congr fun b _ => Bool.and_comm ..
  rw [hcomm, hcomm, h.stable a]

end QuickBeam.Lib
