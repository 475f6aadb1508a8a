import Mathlib.Data.Finset.Card
import Mathlib.Logic.Function.Basic
import Mathlib.Logic.Relation
import Mathlib.Tactic.Common

/-!
# Chains of parents

A partial function `up` gives every node at most one parent.  A new parent of one node keeps the
chains acyclic exactly when the node is not on the chain of that parent.  A walk of `n` nodes
(`climb`) has come to an end when nothing is left behind it (`rest`); in an acyclic structure
over finitely many nodes every walk ends.
-/

namespace QuickBeam.Lib.ParentChain

open Relation

variable {κ : Type} (up : κ → Option κ)

def Step (a b : κ) : Prop := up a = some b

/-- `b` is `a` or above it. -/
def Reaches : κ → κ → Prop := ReflTransGen (Step up)

/-- No node is above itself. -/
def Acyclic : Prop := ∀ a, ¬ TransGen (Step up) a a

/-! ### A new parent -/

section Update

variable [DecidableEq κ] {up} {a : κ} {p : Option κ}

theorem step_update_iff {x y : κ} :
    Step (Function.update up a p) x y ↔ x = a ∧ p = some y ∨ x ≠ a ∧ Step up x y := by
  unfold Step
  by_cases hx : x = a
  · subst hx
    simp
  · simp [hx]

theorem path_update (hp : ∀ q, p = some q → ¬ Reaches up q a) {x y : κ}
    (h : TransGen (Step (Function.update up a p)) x y) :
    TransGen (Step up) x y ∨ Reaches up x a ∧ ∃ q, p = some q ∧ Reaches up q y := by
  induction h with
  | single hstep =>
    rcases step_update_iff.1 hstep with ⟨rfl, hy⟩ | ⟨-, hstep⟩
    · exact .inr ⟨.refl, _, hy, .refl⟩
    · exact .inl (.single hstep)
  | tail _ hstep ih =>
    rcases step_update_iff.1 hstep with ⟨rfl, hz⟩ | ⟨-, hstep⟩
    · rcases ih with hpath | ⟨-, q, hq, hpath⟩
      · exact .inr ⟨hpath.to_reflTransGen, _, hz, .refl⟩
      · exact absurd hpath (hp q hq)
    · rcases ih with hpath | ⟨hx, q, hq, hpath⟩
      · exact .inl (hpath.tail hstep)
      · exact .inr ⟨hx, q, hq, hpath.tail hstep⟩

theorem reaches_update {q : κ} (h : Reaches up q a) : Reaches (Function.update up a p) q a := by
  induction h using ReflTransGen.head_induction_on with
  | refl => exact .refl
  | head hstep _ ih =>
    rename_i x y _
    by_cases hx : x = a
    · subst hx
      exact .refl
    · exact .head (step_update_iff.2 (.inr ⟨hx, hstep⟩)) ih

/-- **A new parent keeps the chains acyclic exactly when the node is not above it.** -/
theorem acyclic_update_iff (hac : Acyclic up) :
    Acyclic (Function.update up a p) ↔ ∀ q, p = some q → ¬ Reaches up q a := by
  constructor
  · intro h q hq hreach
    exact h a (.head' (step_update_iff.2 (.inl ⟨rfl, hq⟩)) (reaches_update hreach))
  · intro hp x hx
    rcases path_update hp hx with hpath | ⟨hxa, q, hq, hqx⟩
    · exact hac x hpath
    · exact hp q hq (hqx.trans hxa)

end Update

/-! ### Walks -/

/-- The first `n` nodes of the chain from `start` on. -/
def climb : ℕ → Option κ → List κ
  | 0, _ => []
  | _ + 1, none => []
  | n + 1, some a => a :: climb n (up a)

/-- What is left of the chain behind its first `n` nodes. -/
def rest : ℕ → Option κ → Option κ
  | 0, start => start
  | _ + 1, none => none
  | n + 1, some a => rest n (up a)

@[simp] theorem climb_none (n : ℕ) : climb up n none = [] := by
  cases n <;> rfl

@[simp] theorem rest_none (n : ℕ) : rest up n none = none := by
  cases n <;> rfl

variable {up}

variable {n : ℕ}

theorem reaches_of_mem_climb {a b : κ} (h : b ∈ climb up n (some a)) : Reaches up a b := by
  induction n generalizing a with
  | zero => cases h
  | succ n ih =>
    rcases List.mem_cons.1 h with rfl | hmem
    · exact .refl
    · cases hup : up a with
      | none =>
        rw [hup, climb_none] at hmem
        cases hmem
      | some c =>
        rw [hup] at hmem
        exact .head hup (ih hmem)

theorem mem_climb_of_reaches {a b : κ} (h : Reaches up a b) :
    ∀ {n : ℕ}, rest up n (some a) = none → b ∈ climb up n (some a) := by
  induction h using ReflTransGen.head_induction_on with
  | refl =>
    intro n hrest
    cases n with
    | zero => cases hrest
    | succ n => exact List.mem_cons_self ..
  | head hstep _ ih =>
    rename_i x y _
    intro n hrest
    cases n with
    | zero => cases hrest
    | succ n =>
      have hup : up x = some y := hstep
      have hrest' : rest up n (up x) = none := hrest
      rw [hup] at hrest'
      show b ∈ x :: climb up n (up x)
      rw [hup]
      exact List.mem_cons_of_mem _ (ih hrest')

theorem climb_eq_of_rest_none {m n : ℕ} (hmn : n ≤ m) :
    ∀ {start : Option κ}, rest up n start = none →
      climb up m start = climb up n start ∧ rest up m start = none := by
  induction n generalizing m with
  | zero =>
    intro start hrest
    cases hrest
    simp [climb]
  | succ n ih =>
    intro start hrest
    cases start with
    | none => simp
    | some a =>
      obtain ⟨m, rfl⟩ : ∃ k, m = k + 1 := ⟨m - 1, by omega⟩
      have hrest : rest up n (up a) = none := hrest
      obtain ⟨hclimb, hend⟩ := ih (m := m) (by omega) hrest
      exact ⟨congrArg (a :: ·) hclimb, hend⟩

theorem climb_nodup (hac : Acyclic up) (n : ℕ) (start : Option κ) :
    (climb up n start).Nodup := by
  induction n generalizing start with
  | zero => exact List.nodup_nil
  | succ n ih =>
    cases start with
    | none => exact List.nodup_nil
    | some a =>
      refine List.nodup_cons.2 ⟨fun hmem => ?_, ih (up a)⟩
      cases hup : up a with
      | none =>
        rw [hup, climb_none] at hmem
        cases hmem
      | some b =>
        rw [hup] at hmem
        exact hac a (.head' hup (reaches_of_mem_climb hmem))

variable {b : κ} {start : Option κ}

theorem length_climb_of_rest (h : rest up n start = some b) : (climb up n start).length = n := by
  induction n generalizing start with
  | zero => rfl
  | succ n ih =>
    cases start with
    | none => cases h
    | some a =>
      have hlength : (climb up n (up a)).length = n := ih h
      show (a :: climb up n (up a)).length = n + 1
      rw [List.length_cons, hlength]

variable {nodes : Finset κ}

theorem mem_of_mem_climb (hclosed : ∀ a ∈ nodes, ∀ b, up a = some b → b ∈ nodes)
    (hstart : ∀ a, start = some a → a ∈ nodes) (h : b ∈ climb up n start) : b ∈ nodes := by
  induction n generalizing start with
  | zero => cases h
  | succ n ih =>
    cases start with
    | none => cases h
    | some a =>
      have ha := hstart a rfl
      rcases List.mem_cons.1 h with rfl | hmem
      · exact ha
      · exact ih (fun c hc => hclosed a ha c hc) hmem

theorem climb_succ_of_rest (h : rest up n start = some b) :
    climb up (n + 1) start = climb up n start ++ [b] := by
  induction n generalizing start with
  | zero =>
    cases h
    rfl
  | succ n ih =>
    cases start with
    | none => cases h
    | some a => exact congrArg (a :: ·) (ih h)

/-- **Every walk over finitely many nodes ends**, where no node is above itself. -/
theorem rest_eq_none (hac : Acyclic up) (hclosed : ∀ a ∈ nodes, ∀ b, up a = some b → b ∈ nodes)
    (hstart : ∀ a, start = some a → a ∈ nodes) (hn : nodes.card ≤ n) : rest up n start = none := by
  classical
  cases hrest : rest up n start with
  | none => rfl
  | some b =>
    -- one node more than there are
    have hlong : (climb up (n + 1) start).length = n + 1 := by
      rw [climb_succ_of_rest hrest, List.length_append, length_climb_of_rest hrest]
      rfl
    have hsub : (climb up (n + 1) start).toFinset ⊆ nodes := by
      intro c hc
      exact mem_of_mem_climb hclosed hstart (List.mem_toFinset.1 hc)
    have hcard := Finset.card_le_card hsub
    rw [List.toFinset_card_of_nodup (climb_nodup hac _ _), hlong] at hcard
    omega

end QuickBeam.Lib.ParentChain
