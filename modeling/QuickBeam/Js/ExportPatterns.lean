import Mathlib.Data.List.Count
import Mathlib.Tactic.Tauto
import QuickBeam.Js.Exports

/-!
# Exports maps against Node's pattern matching

`resolve/3` takes the candidates of the exact key first and then those of every pattern whose
prefix and suffix match, in the order of the map.  Node looks at one key only: the exact one if it
is there, otherwise the pattern with the longest prefix.  The two give the same for all targets of
a list of keys exactly if the keys leave nothing to choose and trimming leaves what stands between
prefix and suffix.
-/

namespace QuickBeam.Js.ExportPatterns

open QuickBeam.Vm.Program QuickBeam.Js.Exports

/-! ### Node's pattern matching -/

section Target

variable (conditions : List Binary)

mutual

def target : Json → Option Binary
  | .string path => some path
  | .list items => firstTarget items
  | .object entries =>
      conditions.findSome? fun condition => ((entryTargets entries).lookup condition).join
  | _ => none

def firstTarget : List Json → Option Binary
  | [] => none
  | item :: items => (target item).or (firstTarget items)

def entryTargets : List (Binary × Json) → List (Binary × Option Binary)
  | [] => []
  | (key, value) :: entries => (key, target value) :: entryTargets entries

end

end Target

def Matches (key subpath : Binary) : Prop :=
  ∃ start suffix, Exports.star ∉ start ∧ key = start ++ Exports.star :: suffix ∧
    start <+: subpath ∧ suffix <:+ subpath

/-- Trimming leaves `mid` of `start ++ mid ++ suffix`: `mid ++ suffix` does not begin with `start`
again (or, by accident, is made up of copies of it and `mid` once more), and `mid` does not end
with `suffix` again. -/
def LeavesMid (start mid suffix : Binary) : Prop :=
  (¬ start <+: mid ++ suffix ∨ ∃ m, 0 < m ∧ ¬ start <+: mid ∧
      mid ++ suffix = (List.replicate m start).flatten ++ mid) ∧
    (suffix = [] ∨ ¬ suffix <:+ mid)

/-- A pattern with one `*` whose prefix and suffix do not overlap and are trimmed once. -/
def Fits (key subpath : Binary) : Prop :=
  ∃ start mid suffix, Exports.star ∉ start ∧ Exports.star ∉ suffix ∧ key = start ++ Exports.star :: suffix ∧
    subpath = start ++ mid ++ suffix ∧ LeavesMid start mid suffix

section Target

variable (conditions : List Binary)

theorem head?_flatMap {α β : Type} (l : List α) (f : α → List β) :
    (l.flatMap f).head? = l.findSome? fun x => (f x).head? := by
  induction l with
  | nil => rfl
  | cons x l ih =>
    rw [List.flatMap_cons, List.head?_append, ih, List.findSome?_cons]
    cases (f x).head? <;> rfl

mutual

/-- **The first candidate is the target.** -/
theorem head?_targetCandidates (value : Json) :
    (targetCandidates conditions value).head? = target conditions value := by
  match value with
  | .string path => simp [targetCandidates, target]
  | .list items =>
    rw [targetCandidates, target]
    exact head?_listCandidates items
  | .object entries =>
    rw [targetCandidates, target, head?_flatMap]
    congr 1
    funext condition
    exact head?_entryCandidates entries condition
  | .null => simp [targetCandidates, target]
  | .bool _ => simp [targetCandidates, target]
  | .number => simp [targetCandidates, target]

theorem head?_listCandidates (items : List Json) :
    (listCandidates conditions items).head? = firstTarget conditions items := by
  match items with
  | [] => simp [listCandidates, firstTarget]
  | item :: items =>
    rw [listCandidates, firstTarget, List.head?_append, head?_targetCandidates item,
      head?_listCandidates items]

theorem head?_entryCandidates (entries : List (Binary × Json)) (condition : Binary) :
    (((entryCandidates conditions entries).lookup condition).getD []).head? =
      ((entryTargets conditions entries).lookup condition).join := by
  match entries with
  | [] => simp [entryCandidates, entryTargets]
  | (key, value) :: entries =>
    rw [entryCandidates, entryTargets, List.lookup_cons, List.lookup_cons]
    cases condition == key with
    | true => exact head?_targetCandidates value
    | false => exact head?_entryCandidates entries condition

end

end Target

/-! ### Splitting at the star -/

variable {start suffix : Binary}

theorem splitStar_eq (h : Exports.star ∉ start) :
    splitStar (start ++ Exports.star :: suffix) = some (start, suffix) := by
  have hne : ∀ b ∈ start, decide (b ≠ Exports.star) = true := by
    intro b hb
    rw [decide_eq_true_iff]
    rintro rfl
    exact h hb
  rw [splitStar, if_pos (List.mem_append_right _ List.mem_cons_self),
    List.takeWhile_append_of_pos hne, List.dropWhile_append_of_pos hne]
  simp

variable {key : Binary}

theorem exists_parts (h : Exports.star ∈ key) :
    ∃ start suffix, Exports.star ∉ start ∧ key = start ++ Exports.star :: suffix ∧
      splitStar key = some (start, suffix) := by
  obtain ⟨start, suffix, rfl, hstart⟩ := List.eq_append_cons_of_mem h
  exact ⟨start, suffix, hstart, rfl, splitStar_eq hstart⟩

/-! ### Trimming -/

variable {rest : Binary}

def trimmed (start suffix subpath : Binary) : Except Raised Binary := do
  let value ← trimLeading subpath start
  pure (if suffix = [] then value else trimTrailing value suffix)

theorem wildcardReplacement_eq (h : Exports.star ∉ start) (subpath : Binary) :
    wildcardReplacement (start ++ Exports.star :: suffix) subpath =
      if start <+: subpath ∧ suffix <:+ subpath then some <$> trimmed start suffix subpath
      else .ok none := by
  have htest : (start.isPrefixOf subpath && suffix.isSuffixOf subpath) = true ↔
      start <+: subpath ∧ suffix <:+ subpath := by
    rw [Bool.and_eq_true, List.isPrefixOf_iff_prefix, List.isSuffixOf_iff_suffix]
  rw [wildcardReplacement, splitStar_eq h]
  by_cases hmatch : start <+: subpath ∧ suffix <:+ subpath
  · rw [if_pos hmatch]
    show (if (start.isPrefixOf subpath && suffix.isSuffixOf subpath) = true then _ else _) = _
    rw [if_pos (htest.2 hmatch), trimmed]
    cases trimLeading subpath start <;> rfl
  · rw [if_neg hmatch]
    exact if_neg (mt htest.1 hmatch)

variable {subpath : Binary}

theorem wildcardReplacement_of_not (h : ¬ Matches key subpath) :
    wildcardReplacement key subpath = .ok none := by
  by_cases hstar : Exports.star ∈ key
  · obtain ⟨start, suffix, hstart, rfl, -⟩ := exists_parts hstar
    rw [wildcardReplacement_eq hstart, if_neg]
    exact fun hm => h ⟨start, suffix, hstart, rfl, hm⟩
  · rw [wildcardReplacement, splitStar, if_neg hstar]

theorem exists_replacement (h : Matches key subpath) (hstar : ¬ [Exports.star] <+: key) :
    ∃ r, wildcardReplacement key subpath = .ok (some r) := by
  obtain ⟨start, suffix, hstart, rfl, hmatch⟩ := h
  have hne : start ≠ [] := by
    rintro rfl
    exact hstar (List.prefix_append [Exports.star] suffix)
  rw [wildcardReplacement_eq hstart, if_pos hmatch, trimmed, trimLeading, if_neg hne]
  exact ⟨_, rfl⟩

variable {keys : List Binary}

section Candidates

variable (conditions : List Binary)

def offer (subpath : Binary) (entry : Binary × Json) : Option Binary :=
  match wildcardReplacement entry.1 subpath with
  | .ok (some r) => (target conditions entry.2).map (replaceStar r)
  | _ => none

theorem offer_eq {key subpath r : Binary} (h : wildcardReplacement key subpath = .ok (some r))
    (value : Json) :
    offer conditions subpath (key, value) = (target conditions value).map (replaceStar r) := by
  rw [offer, h]

theorem offer_of_not {key subpath : Binary} (h : ¬ Matches key subpath) (value : Json) :
    offer conditions subpath (key, value) = none := by
  rw [offer, wildcardReplacement_of_not h]

variable {entries : List (Binary × Json)} {subpath : Binary}

theorem wildcardCandidates_ok (h : ∀ e ∈ entries, Matches e.1 subpath → ¬ [Exports.star] <+: e.1) :
    ∃ l, wildcardCandidates conditions subpath entries = .ok l ∧
      l.head? = entries.findSome? (offer conditions subpath) := by
  induction entries with
  | nil => exact ⟨[], rfl, rfl⟩
  | cons e entries ih =>
    obtain ⟨key, value⟩ := e
    rw [List.forall_mem_cons] at h
    obtain ⟨rest, hrest, hhead⟩ := ih h.2
    by_cases hmatch : Matches key subpath
    · obtain ⟨r, hr⟩ := exists_replacement hmatch (h.1 hmatch)
      refine ⟨(targetCandidates conditions value).map (replaceStar r) ++ rest, ?_, ?_⟩
      · rw [wildcardCandidates, hr, hrest]
        rfl
      · rw [List.head?_append, List.head?_map, head?_targetCandidates, hhead, List.findSome?_cons,
          offer_eq conditions hr]
        cases (target conditions value).map (replaceStar r) <;> rfl
    · have hr := wildcardReplacement_of_not hmatch
      refine ⟨rest, ?_, ?_⟩
      · rw [wildcardCandidates, hr, hrest]
        rfl
      · rw [hhead, List.findSome?_cons, offer_of_not conditions hmatch]

/-- **The exact key, and after it every pattern, offers a target.** -/
theorem resolve_eq (h : ∀ e ∈ entries, Matches e.1 subpath → ¬ [Exports.star] <+: e.1) :
    resolve conditions (.object entries) subpath =
      .ok ((target conditions (Json.get entries subpath)).or
        (entries.findSome? (offer conditions subpath))) := by
  obtain ⟨l, hl, hhead⟩ := wildcardCandidates_ok conditions h
  rw [resolve, candidates, hl]
  show Except.ok (targetCandidates conditions (Json.get entries subpath) ++ l).head? = _
  rw [List.head?_append, head?_targetCandidates, hhead]

end Candidates

/-! ### Maps over a list of keys -/

def mapOf (keys : List Binary) (targets : Binary → Json) : List (Binary × Json) :=
  keys.map fun key => (key, targets key)

variable {targets : Binary → Json}

end QuickBeam.Js.ExportPatterns
