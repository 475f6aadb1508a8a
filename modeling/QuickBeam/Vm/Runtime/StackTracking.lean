import QuickBeam.Vm.Runtime.StackEffect

/-!
# Markers on the operand stack

The analysis gives an instruction a level: how many entries the stack has and which `catch` or
iterator start is innermost.  `Tracked` says that a stack of the interpreter has a level: the marker
that this instruction left is where the level of the instruction says, no catch marker is above it,
and what is below has the level of the instruction itself.  Entries above the marker can be taken
and put (`tracks_drop`, `tracks_append`); the marker can be left (`tracks_leave`).
-/

namespace QuickBeam.Vm.Runtime.Interpreter

open QuickBeam.Vm.Bytecode QuickBeam.Vm.Program
open QuickBeam.Vm.Bytecode.Verifier.Stack

variable {f : FunctionHeader} {levels : Levels} {stack taken put rest : List Value}
  {catchIndex parent : Option ℕ} {marker : ℕ} {entry : ℤ}

/-! ### Markers -/

/-- The entries that the instruction at an index may leave as its marker. -/
inductive IsMarker (f : FunctionHeader) (index : ℕ) : Value → Prop
  | catch_ {row : Row} {target : Operand} : fetch f index = some (.catch_, row, [target]) →
      IsMarker f index (.catchMarker (labelTarget target))
  | iterator {name : Op} {row : Row} {operands : List Operand} {values : List Value} {next : ℕ} :
      fetch f index = some (name, row, operands) → kind name = .iteratorStart →
      IsMarker f index (.forOf values next)

/-- The height of a marker: the entries below it.  An iterator start leaves its iterator in the
place of the entry that it takes. -/
def markerHeight (f : FunctionHeader) (levels : Levels) (marker : ℕ) : ℤ :=
  match levels.get? marker with
  | some (entry, _) => entry - (extra f marker - 1)
  | none => 0

/-- The height at which the analysis takes the marker to be left. -/
def slotHeight (f : FunctionHeader) (levels : Levels) (marker : ℕ) : ℤ :=
  match levels.get? marker with
  | some (entry, _) => entry + (extra f marker - 1)
  | none => 0

/-- The marker is among the lowest entries. -/
def Within (f : FunctionHeader) (levels : Levels) (catchIndex : Option ℕ) (height : ℤ) : Prop :=
  ∀ marker, catchIndex = some marker → markerHeight f levels marker < height

/-- The innermost marker of a stack is the one of the instruction at an index. -/
inductive Tracks (f : FunctionHeader) (levels : Levels) : List Value → Option ℕ → Prop
  | none {stack : List Value} : (∀ v ∈ stack, isCatch v = false) → Tracks f levels stack none
  | marker {above below : List Value} {v : Value} {marker : ℕ} {entry : ℤ} {parent : Option ℕ} :
      IsMarker f marker v → levels.get? marker = some (entry, parent) →
      entry = below.length + (extra f marker - 1) → (∀ w ∈ above, isCatch w = false) →
      Tracks f levels below parent → Tracks f levels (above ++ v :: below) (some marker)

def Tracked (f : FunctionHeader) (levels : Levels) (stack : List Value) (level : Level) : Prop :=
  (stack.length : ℤ) = level.1 ∧ Tracks f levels stack level.2

theorem IsMarker.cases {v : Value} (h : IsMarker f marker v) :
    (extra f marker = 1 ∧ ∃ target, v = .catchMarker target) ∨
      extra f marker = 2 ∧ ∃ values next, v = .forOf values next := by
  cases h with
  | catch_ hfetch =>
    refine .inl ⟨?_, _, rfl⟩
    unfold extra opcodeName
    rw [hfetch]
    exact if_pos rfl
  | @iterator name _ _ _ _ hfetch hkind =>
    refine .inr ⟨?_, _, _, rfl⟩
    unfold extra opcodeName
    rw [hfetch]
    refine if_neg fun h => ?_
    rw [Option.map_some, Option.some.injEq] at h
    rw [show name = .catch_ from h] at hkind
    cases hkind

theorem extra_cases (f : FunctionHeader) (marker : ℕ) : extra f marker = 1 ∨ extra f marker = 2 := by
  unfold extra
  split
  · exact .inl rfl
  · exact .inr rfl

theorem markerHeight_eq (h : levels.get? marker = some (entry, parent)) :
    markerHeight f levels marker = entry - (extra f marker - 1) := by
  unfold markerHeight
  rw [h]

theorem slotHeight_eq (h : levels.get? marker = some (entry, parent)) :
    slotHeight f levels marker = entry + (extra f marker - 1) := by
  unfold slotHeight
  rw [h]

/-! ### Entries above the marker -/

variable {height height' : ℤ}

theorem Within.mono (h : Within f levels catchIndex height) (hle : height ≤ height') :
    Within f levels catchIndex height' :=
  fun marker hmarker => (h marker hmarker).trans_le hle

theorem tracks_within (h : Tracks f levels stack catchIndex) :
    Within f levels catchIndex stack.length := by
  cases h with
  | none => intro marker h; cases h
  | @marker above below v marker entry parent _ hlevel hentry =>
    intro _ heq
    cases heq
    rw [markerHeight_eq hlevel, List.length_append, List.length_cons]
    omega

theorem tracks_slot (h : Tracks f levels stack (some marker)) :
    0 ≤ slotHeight f levels marker ∧
      markerHeight f levels marker ≤ slotHeight f levels marker := by
  cases h with
  | marker hmarker hlevel hentry _ _ =>
    have hextra := extra_cases f marker
    rw [slotHeight_eq hlevel, markerHeight_eq hlevel]
    omega

theorem tracks_parent (h : Tracks f levels stack (some marker))
    (hlevel : levels.get? marker = some (entry, parent)) :
    Within f levels parent (markerHeight f levels marker) := by
  cases h with
  | marker _ hlevel' hentry _ hbelow =>
    rw [hlevel] at hlevel'
    cases hlevel'
    refine (tracks_within hbelow).mono ?_
    rw [markerHeight_eq hlevel]
    omega

theorem tracks_append (h : Tracks f levels rest catchIndex) (hput : ∀ v ∈ put, isCatch v = false) :
    Tracks f levels (put ++ rest) catchIndex := by
  cases h with
  | none hstack =>
    refine .none fun v hv => ?_
    rcases List.mem_append.1 hv with hv | hv
    · exact hput v hv
    · exact hstack v hv
  | marker hmarker hlevel hentry habove hbelow =>
    rw [← List.append_assoc]
    refine .marker hmarker hlevel hentry (fun v hv => ?_) hbelow
    rcases List.mem_append.1 hv with hv | hv
    · exact hput v hv
    · exact habove v hv

/-- Entries above the marker are no catch markers, and without them the marker is still the
innermost one. -/
theorem tracks_drop (h : Tracks f levels stack catchIndex) (hstack : stack = taken ++ rest)
    (hwithin : Within f levels catchIndex rest.length) :
    Tracks f levels rest catchIndex ∧ ∀ v ∈ taken, isCatch v = false := by
  cases h with
  | none hnone =>
    subst hstack
    exact ⟨.none fun v hv => hnone v (List.mem_append_right _ hv),
      fun v hv => hnone v (List.mem_append_left _ hv)⟩
  | @marker above below v marker entry parent hmarker hlevel hentry habove hbelow =>
    have hheight := hwithin marker rfl
    rw [markerHeight_eq hlevel] at hheight
    rcases List.append_eq_append_iff.1 hstack with ⟨between, rfl, hrest⟩ | ⟨between, rfl, rfl⟩
    · -- the marker is not taken, so that all of `taken` is above it
      have hlength := congrArg List.length hrest
      rw [List.length_cons, List.length_append] at hlength
      obtain rfl : between = [] := List.length_eq_zero_iff.1 (by omega)
      rw [List.nil_append] at hrest
      rw [← hrest, List.append_nil]
      exact ⟨@Tracks.marker _ _ [] _ _ _ _ _ hmarker hlevel hentry (fun w hw => by cases hw) hbelow,
        habove⟩
    · exact ⟨.marker hmarker hlevel hentry (fun w hw => habove w (List.mem_append_right _ hw)) hbelow,
        fun w hw => habove w (List.mem_append_left _ hw)⟩

/-! ### Leaving the marker -/

/-- With the entries from the marker on, and of an iterator with those above it, the marker is
left. -/
theorem tracks_leave (h : Tracks f levels stack (some marker)) (hstack : stack = taken ++ rest)
    (hlevel : levels.get? marker = some (entry, parent))
    (hslot : (rest.length : ℤ) ≤ slotHeight f levels marker)
    (hwithin : Within f levels parent rest.length) : Tracks f levels rest parent := by
  cases h with
  | @marker above below v _ _ _ hmarker hlevel' hentry habove hbelow =>
    rw [hlevel] at hlevel'
    cases hlevel'
    rw [slotHeight_eq hlevel] at hslot
    have hcatch : isCatch v = true → rest.length ≤ below.length := by
      intro hv
      rcases hmarker.cases with ⟨hextra, -⟩ | ⟨-, values, next, rfl⟩
      · omega
      · cases hv
    rcases List.append_eq_append_iff.1 hstack with ⟨between, rfl, hrest⟩ | ⟨between, rfl, rfl⟩
    · cases between with
      | nil =>
        rw [List.nil_append] at hrest
        subst hrest
        refine @tracks_append _ _ [v] _ _ hbelow fun w hw => ?_
        rw [List.mem_singleton.1 hw]
        by_contra hv
        have hle := hcatch (Bool.not_eq_false _ ▸ hv)
        rw [List.length_cons] at hle
        omega
      | cons w between =>
        rw [List.cons_append] at hrest
        exact (tracks_drop hbelow (List.cons.inj hrest).2 hwithin).1
    · have hv : isCatch v = false := by
        by_contra hv
        have hle := hcatch (Bool.not_eq_false _ ▸ hv)
        rw [List.length_append, List.length_cons] at hle
        omega
      rw [show between ++ v :: below = (between ++ [v]) ++ below by rw [List.append_assoc]; rfl]
      refine tracks_append hbelow fun w hw => ?_
      rcases List.mem_append.1 hw with hw | hw
      · exact habove w (List.mem_append_right _ hw)
      · rw [List.mem_singleton.1 hw]
        exact hv

theorem tracks_maybeLeave {height : ℤ} {remaining : Option ℕ}
    (h : Tracks f levels stack catchIndex) (hstack : stack = taken ++ rest)
    (hleave : maybeLeaveCatch f levels height catchIndex = some remaining)
    (hheight : (rest.length : ℤ) ≤ height) (hwithin : Within f levels remaining rest.length) :
    Tracks f levels rest remaining := by
  cases catchIndex with
  | none =>
    cases hleave
    exact (tracks_drop h hstack hwithin).1
  | some marker =>
    unfold maybeLeaveCatch at hleave
    dsimp only at hleave
    split at hleave
    · cases hleave
    · rename_i entry parent hlevel
      split at hleave
      · cases hleave
        refine tracks_leave h hstack hlevel ?_ hwithin
        rw [slotHeight_eq hlevel]
        omega
      · cases hleave
        exact (tracks_drop h hstack hwithin).1

variable {remaining : Option ℕ}

theorem within_maybeLeave (h : Tracks f levels stack catchIndex)
    (hleave : maybeLeaveCatch f levels height catchIndex = some remaining)
    (hwithin : Within f levels catchIndex height') : Within f levels remaining height' := by
  cases catchIndex with
  | none =>
    cases hleave
    exact hwithin
  | some marker =>
    unfold maybeLeaveCatch at hleave
    dsimp only at hleave
    split at hleave
    · cases hleave
    · rename_i entry parent hlevel
      split at hleave
      · cases hleave
        exact (tracks_parent h hlevel).mono (hwithin marker rfl).le
      · cases hleave
        exact hwithin

theorem within_of_maybeLeave
    (hleave : maybeLeaveCatch f levels height catchIndex = some remaining)
    (hwithin : Within f levels remaining height') (hlt : height < height') :
    Within f levels catchIndex height' := by
  cases catchIndex with
  | none =>
    intro marker h
    cases h
  | some marker =>
    unfold maybeLeaveCatch at hleave
    dsimp only at hleave
    split at hleave
    · cases hleave
    · rename_i entry parent hlevel
      split at hleave
      · intro _ heq
        cases heq
        have hextra := extra_cases f marker
        rw [markerHeight_eq hlevel]
        omega
      · cases hleave
        exact hwithin

/-! ### The iterator of a loop -/

theorem tracks_set {position next next' : ℕ} {values : List Value}
    (hget : stack[position]? = some (.forOf values next))
    (h : Tracks f levels stack catchIndex) :
    Tracks f levels (stack.set position (.forOf values next')) catchIndex := by
  induction h generalizing position with
  | none hnone =>
    refine .none fun v hv => ?_
    rcases List.mem_or_eq_of_mem_set hv with hv | rfl
    · exact hnone v hv
    · rfl
  | @marker above below v marker entry parent hmarker hlevel hentry habove hbelow ih =>
    rw [List.getElem?_append] at hget
    rw [List.set_append]
    split at hget
    case isTrue hlt =>
      rw [if_pos hlt]
      refine .marker hmarker hlevel hentry (fun w hw => ?_) hbelow
      rcases List.mem_or_eq_of_mem_set hw with hw | rfl
      · exact habove w hw
      · rfl
    case isFalse hge =>
      rw [if_neg hge]
      cases hposition : position - above.length with
      | zero =>
        rw [hposition] at hget
        cases hget
        cases hmarker with
        | iterator hfetch hkind =>
          exact .marker (.iterator hfetch hkind) hlevel hentry habove hbelow
      | succ k =>
        rw [hposition, List.getElem?_cons_succ] at hget
        refine .marker hmarker hlevel ?_ habove (ih hget)
        rw [List.length_set]
        exact hentry

end QuickBeam.Vm.Runtime.Interpreter
