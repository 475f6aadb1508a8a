import QuickBeam.Vm.Program.Function

/-!
# Exports maps (`js/exports.ex`)

`parse/1` brings the `exports` field of a package into the form of a map from subpaths to targets;
`resolve/3` lists the targets of a subpath, the exact key first and then the patterns in the order
of the map, and takes the first.
-/

namespace QuickBeam.Js

open QuickBeam.Vm.Program

/-- A decoded JSON value; an object lists its entries in the order in which the map is walked. -/
inductive Json where
  | null
  | bool (b : Bool)
  | number
  | string (s : Binary)
  | list (items : List Json)
  | object (entries : List (Binary × Json))

/-- What the host raises on a value that is no map, and on an empty string to trim. -/
inductive Raised where
  | badMap
  | argument
deriving DecidableEq

namespace Json

/-- `Map.get/2` of a map. -/
def get (entries : List (Binary × Json)) (key : Binary) : Json :=
  (entries.lookup key).getD .null

end Json

namespace Exports

def star : UInt8 := 42

def subpathExports (entries : List (Binary × Json)) : Bool :=
  entries.any fun e => List.isPrefixOf [46] e.1

def parse : Json → Option (List (Binary × Json))
  | .object pkg =>
      match Json.get pkg (.ofString "exports") with
      | .string s => some [([46], .string s)]
      | .object entries =>
          if subpathExports entries then some entries else some [([46], .object entries)]
      | _ => none
  | _ => none

section Candidates

variable (conditions : List Binary)

mutual

def targetCandidates : Json → List Binary
  | .string path => [path]
  | .list items => listCandidates items
  | .object entries =>
      conditions.flatMap fun condition => ((entryCandidates entries).lookup condition).getD []
  | _ => []

def listCandidates : List Json → List Binary
  | [] => []
  | item :: items => targetCandidates item ++ listCandidates items

def entryCandidates : List (Binary × Json) → List (Binary × List Binary)
  | [] => []
  | (key, target) :: entries => (key, targetCandidates target) :: entryCandidates entries

end

/-- All leading copies of `prefix` removed, for a string of at most `fuel` of them. -/
def trimLeadingFrom (start : Binary) : ℕ → Binary → Binary
  | 0, value => value
  | fuel + 1, value =>
      if start.isPrefixOf value then trimLeadingFrom start fuel (value.drop start.length)
      else value

def trimLeading (value start : Binary) : Except Raised Binary :=
  if start = [] then .error .argument else .ok (trimLeadingFrom start value.length value)

/-- `String.trim_trailing/2`, of a suffix that is not empty. -/
def trimTrailing (value suffix : Binary) : Binary :=
  (trimLeadingFrom suffix.reverse value.length value.reverse).reverse

/-- `String.split(pattern, "*", parts: 2)`. -/
def splitStar (pattern : Binary) : Option (Binary × Binary) :=
  if star ∈ pattern then
    some (pattern.takeWhile (· ≠ star), (pattern.dropWhile (· ≠ star)).drop 1)
  else none

def wildcardReplacement (pattern subpath : Binary) : Except Raised (Option Binary) :=
  match splitStar pattern with
  | none => .ok none
  | some (start, suffix) =>
      if start.isPrefixOf subpath && suffix.isSuffixOf subpath then do
        let value ← trimLeading subpath start
        pure (some (if suffix = [] then value else trimTrailing value suffix))
      else .ok none

def replaceStar (replacement path : Binary) : Binary :=
  path.flatMap fun b => if b = star then replacement else [b]

def wildcardCandidates (subpath : Binary) :
    List (Binary × Json) → Except Raised (List Binary)
  | [] => .ok []
  | (pattern, target) :: entries => do
      let replacement ← wildcardReplacement pattern subpath
      let rest ← wildcardCandidates subpath entries
      match replacement with
      | none => pure rest
      | some replacement =>
          pure ((targetCandidates conditions target).map (replaceStar replacement) ++ rest)

def candidates (exportMap : Json) (subpath : Binary) : Except Raised (List Binary) :=
  match exportMap with
  | .object entries => do
      let wildcard ← wildcardCandidates conditions subpath entries
      pure (targetCandidates conditions (Json.get entries subpath) ++ wildcard)
  | _ => .ok []

def resolve (exportMap : Json) (subpath : Binary) : Except Raised (Option Binary) := do
  let targets ← candidates conditions exportMap subpath
  pure targets.head?

end Candidates

end Exports

end QuickBeam.Js
