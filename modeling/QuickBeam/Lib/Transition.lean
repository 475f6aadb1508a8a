import Mathlib.Data.List.Basic
import Mathlib.Tactic

/-!
# Labelled machines, their runs and their invariants

A machine has initial states and a partial step function: `step s e` is the state after the
event `e`, or `none` when `e` cannot happen in `s` (or crashes the machine).  A run is a list
of events.  `GuardedRun` additionally records that a condition on the state *before* each step
and on the event holds at every step; an ordinary run is a run guarded by the trivial condition.

The induction rule used everywhere is `GuardedRun.invariant`: what one guarded step preserves, a
guarded run preserves.
-/

namespace QuickBeam.Lib

/-- A machine with states `σ` and events `ε`. -/
structure Machine (σ ε : Type*) where
  init : σ → Prop
  step : σ → ε → Option σ

namespace Machine

variable {σ ε : Type*} (M : Machine σ ε)

/-- Run a list of events; `none` as soon as one of them cannot happen. -/
def exec (s : σ) : List ε → Option σ
  | [] => some s
  | e :: es => (M.step s e).bind fun s' => exec s' es

/-- `GuardedRun ok s es t`: the events `es` lead from `s` to `t`, and `ok` holds before each. -/
inductive GuardedRun (ok : σ → ε → Prop) : σ → List ε → σ → Prop
  | nil (s : σ) : GuardedRun ok s [] s
  | snoc {s t u : σ} {es : List ε} {e : ε} :
      GuardedRun ok s es t → ok t e → M.step t e = some u → GuardedRun ok s (es ++ [e]) u

/-- The states a guarded run reaches from an initial state. -/
def ReachableIf (ok : σ → ε → Prop) (t : σ) : Prop :=
  ∃ s es, M.init s ∧ M.GuardedRun ok s es t

def Reachable (t : σ) : Prop := M.ReachableIf (fun _ _ => True) t

variable {M}

theorem exec_append (s : σ) (es fs : List ε) :
    M.exec s (es ++ fs) = (M.exec s es).bind fun t => M.exec t fs := by
  induction es generalizing s with
  | nil => rfl
  | cons e es ih =>
    simp only [List.cons_append, exec]
    cases M.step s e with
    | none => rfl
    | some s' => exact ih s'

variable {es : List ε} {s t : σ}

theorem guardedRun_of_exec (h : M.exec s es = some t) : M.GuardedRun (fun _ _ => True) s es t := by
  induction es using List.reverseRecOn generalizing t with
  | nil => cases h; exact .nil s
  | append_singleton es e ih =>
    rw [exec_append] at h
    cases hs : M.exec s es with
    | none => rw [hs] at h; cases h
    | some u =>
      rw [hs] at h
      simp only [Option.bind_some, exec] at h
      cases hu : M.step u e with
      | none => rw [hu] at h; cases h
      | some v =>
        rw [hu] at h
        cases h
        exact .snoc (ih hs) trivial hu

/-- Run a list of events, checking `ok` before each. -/
def execIf (M : Machine σ ε) (ok : σ → ε → Bool) (s : σ) : List ε → Option σ
  | [] => some s
  | e :: es => if ok s e then (M.step s e).bind fun s' => execIf M ok s' es else none

theorem GuardedRun.cons {ok : σ → ε → Prop} {s t u : σ} {e : ε} {es : List ε} (hok : ok s e)
    (he : M.step s e = some t) (h : M.GuardedRun ok t es u) : M.GuardedRun ok s (e :: es) u := by
  induction h with
  | nil => exact .snoc (.nil s) hok he
  | snoc _ hok' he' ih => exact .snoc ih hok' he'

theorem guardedRun_of_execIf {ok : σ → ε → Bool} (h : M.execIf ok s es = some t) :
    M.GuardedRun (fun s e => ok s e = true) s es t := by
  induction es generalizing s with
  | nil => cases h; exact .nil _
  | cons e es ih =>
    rw [execIf] at h
    split at h
    · rename_i hok
      obtain ⟨u, hu, h⟩ := Option.bind_eq_some_iff.1 h
      exact .cons hok hu (ih h)
    · cases h

theorem reachable_of_exec (hs : M.init s) (h : M.exec s es = some t) : M.Reachable t :=
  ⟨s, es, hs, guardedRun_of_exec h⟩

variable {I : σ → Prop} {ok : σ → ε → Prop}

/-- **The invariant rule.**  A property every guarded step keeps is kept by guarded runs. -/
theorem GuardedRun.invariant (hstep : ∀ s e s', I s → ok s e → M.step s e = some s' → I s')
    (hr : M.GuardedRun ok s es t) (hs : I s) : I t := by
  induction hr with
  | nil => exact hs
  | snoc _ hok he ih => exact hstep _ _ _ ih hok he

theorem ReachableIf.invariant (hinit : ∀ s, M.init s → I s)
    (hstep : ∀ s e s', I s → ok s e → M.step s e = some s' → I s') (h : M.ReachableIf ok t) :
    I t := by
  obtain ⟨s, es, hs, hr⟩ := h
  exact hr.invariant hstep (hinit s hs)

theorem Reachable.invariant (hinit : ∀ s, M.init s → I s)
    (hstep : ∀ s e s', I s → M.step s e = some s' → I s') (h : M.Reachable t) : I t :=
  ReachableIf.invariant hinit (fun s e s' hI _ he => hstep s e s' hI he) h

theorem GuardedRun.append {s t u : σ} {es fs : List ε} (h₁ : M.GuardedRun ok s es t)
    (h₂ : M.GuardedRun ok t fs u) : M.GuardedRun ok s (es ++ fs) u := by
  induction h₂ with
  | nil => simpa using h₁
  | snoc _ hok he ih => rw [← List.append_assoc]; exact .snoc ih hok he

end Machine

end QuickBeam.Lib
