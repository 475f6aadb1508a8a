import Mathlib.Data.Set.Image
import QuickBeam.Vm.Runtime.Interleaving

/-!
# The temporal dead zone

`set_loc_uninitialized` declares a binding; it is dead until it is initialized.  The checked
accessors read and write a binding that must not be dead: the reads throw on the marker, the
writes do not look at it.
-/

namespace QuickBeam.Vm.Runtime.DeadZone

open QuickBeam.Lib QuickBeam.Vm.Bytecode QuickBeam.Vm.Program
open QuickBeam.Vm.Runtime.Opcode.Local QuickBeam.Vm.Runtime.Interleaving

variable {W : Type}

/-! ### Checked accessors -/

def checkedReadOps : List Op := [.getLocCheck, .getVarRefCheck]

def checkedWriteOps : List Op := [.putLocCheck, .putVarRefCheck]

def unchecked : Op → Op
  | .getLocCheck => .getLoc
  | .putLocCheck => .putLoc
  | .getVarRefCheck => .getVarRef
  | .putVarRefCheck => .putVarRef
  | name => name

def bindingValue (name : Op) (index : ℤ) (frame : Frame) (execution : State W) : Option Value :=
  ((placeOf name index).bind frame.target?).bind (readTarget frame execution)

/-- The accessor throws on a dead binding, without an effect, and else does what the accessor
without the check does. -/
structure Guards [Value.Platform] [AtomTable] (name : Op) (index : ℤ) (frame : Frame)
    (execution : State W) (arguments : Answer) (reply : Reply W) : Prop where
  throws : bindingValue name index frame execution = some .uninitialized →
    Interpreter.execute name [.int index] frame execution arguments reply =
      .ok (.throw_ referenceError frame execution)
  passes : ∀ value, bindingValue name index frame execution = some value →
    value ≠ .uninitialized →
    Interpreter.execute name [.int index] frame execution arguments reply =
      Interpreter.execute (unchecked name) [.int index] frame execution arguments reply

def Meets (name : Op) (index : ℤ) (frame : Frame) (execution : State W) : Prop :=
  name ∈ checkedWriteOps → bindingValue name index frame execution ≠ some .uninitialized

/-! ### Dead bindings -/

inductive Location where
  | slot (x : Binding)
  | cell (id : ℕ)
deriving DecidableEq

/-- The location of a target; a global has none, nor has a cell that was never allocated. -/
def locationOf (f : ℕ) (execution : State W) : Target → Option Location
  | .slot bank index => some (.slot ⟨f, bank, index⟩)
  | .ref (.cell id) => if id < execution.nextCellId then some (.cell id) else none
  | .ref (.global _) => none

def accessed (f : ℕ) (frame : Frame) (execution : State W) (name : Op) : List Operand → Option Location
  | [.int index] =>
      ((placeOf name index).bind frame.target?).bind (locationOf f execution)
  | _ => none

def content (m : Activations W) : Location → Option Value
  | .slot x => m.slot? x
  | .cell id => m.execution.cells.get? id

def relocate (m : Activations W) : Location → Location
  | .slot x =>
      match m.slot? x with
      | some (.slot (.cell id)) => .cell id
      | _ => .slot x
  | .cell id => .cell id

/-- The dead bindings after an event, where they were before it: a declaration adds one, an
initialization removes one, a checked write is no initialization. -/
def dying (D : Set Location) (m : Activations W) : Event W → Set Location
  | .instruction f name operands _ _ _ =>
      match m.entered[f]? with
      | none => D
      | some a =>
          if name = .setLocUninitialized then
            {l | l ∈ D ∨ accessed f a.frame m.execution name operands = some l}
          else if name ∈ writingOps ∧ name ∉ checkedWriteOps then
            {l | l ∈ D ∧ accessed f a.frame m.execution name operands ≠ some l}
          else D
  | _ => D

def dead (D : Set Location) (m : Activations W) (event : Event W) (m' : Activations W) : Set Location :=
  relocate m' '' dying D m event

/-- The checked writes of the event do not meet a dead binding. -/
def Allowed (m : Activations W) : Event W → Prop
  | .instruction f name operands _ _ _ => ∀ a index, m.entered[f]? = some a →
      operands = [.int index] → Meets name index a.frame m.execution
  | _ => True

/-- A run whose checked writes do not meet a dead binding, with the bindings that are dead. -/
inductive Run [Value.Platform] [AtomTable] : Activations W → Set Location → Prop where
  | start {m : Activations W} : m.entered = [] → m.captures = [] → m.execution.cells = ∅ → Run m ∅
  | step {m m' : Activations W} {D : Set Location} {event : Event W} : Run m D → Step m event m' →
      Allowed m event → Run m' (dead D m event m')

/-- No dead binding was assigned to, and a checked read of one throws. -/
structure Respected [Value.Platform] [AtomTable] (m : Activations W) (D : Set Location) : Prop where
  unassigned : ∀ l ∈ D, content m l = some .uninitialized
  unobserved : ∀ f a name index l, m.entered[f]? = some a → name ∈ checkedReadOps →
    accessed f a.frame m.execution name [.int index] = some l → l ∈ D → ∀ arguments reply,
    Interpreter.execute name [.int index] a.frame m.execution arguments reply =
      .ok (.throw_ referenceError a.frame m.execution)

/-! ### Contents -/

section Contents

variable {m : Activations W} {f : ℕ} {a : Activation}

variable {l : Location} {target : Target}

theorem content_of_locationOf (ha : m.entered[f]? = some a)
    (h : locationOf f m.execution target = some l) :
    content m l = readTarget a.frame m.execution target := by
  cases target with
  | slot bank index =>
    cases h
    exact slot?_eq ha bank index
  | ref reference =>
    cases reference with
    | cell id =>
      rw [locationOf] at h
      split at h
      · cases h
        rfl
      · cases h
    | global name => cases h

theorem bindingValue_of_accessed (ha : m.entered[f]? = some a) {name : Op} {index : ℤ}
    (h : accessed f a.frame m.execution name [.int index] = some l) :
    bindingValue name index a.frame m.execution = content m l := by
  obtain ⟨target, htarget, hl⟩ := Option.bind_eq_some_iff.1 h
  unfold bindingValue
  rw [htarget, content_of_locationOf ha hl]
  rfl

theorem relocate_of_content {l : Location} (h : content m l = some .uninitialized) :
    relocate m l = l := by
  cases l with
  | slot x =>
    rw [relocate, show m.slot? x = some .uninitialized from h]
  | cell id => rfl

variable {frame : Frame} {place : Place}

theorem exists_of_target? {bank : Bank} {index : ℕ}
    (h : frame.target? place = some (.slot bank index)) : (frame.slot? bank index).isSome := by
  cases place with
  | slot bank' index' =>
    rw [Frame.target?] at h
    split at h
    · cases h
    · rename_i hvalue
      cases h
      rw [hvalue]
      rfl
    · cases h
  | ref index' =>
    rw [Frame.target?] at h
    cases hget : frame.closureRefs[index']? with
    | none =>
      rw [hget] at h
      cases h
    | some reference =>
      rw [hget] at h
      cases h

theorem content_of_writes (ha : m.entered[f]? = some a) {value : Value} {captures : List Capture}
    {execution' : State W} (htarget : a.frame.target? place = some target)
    (hwrites : Writes a.frame m.execution target value frame execution')
    (hl : ∀ id, l = .cell id → id < m.execution.nextCellId) :
    content ⟨m.entered.set f { a with frame }, captures, execution'⟩ l =
      if locationOf f m.execution target = some l then some value else content m l := by
  cases target with
  | slot bank index =>
    obtain ⟨hsame, hcells⟩ := hwrites
    cases l with
    | slot x =>
      show Activations.slot? _ x = _
      rw [slot?_set ha, hsame.slot?, slot?_putSlot]
      by_cases hx : x.activation = f
      · rw [if_pos hx]
        by_cases heq : x.bank = bank ∧ x.index = index
        · rw [if_pos ⟨heq.1, heq.2, exists_of_target? htarget⟩, if_pos]
          rw [locationOf, ← heq.1, ← heq.2, ← hx]
        · rw [if_neg (fun h => heq ⟨h.1, h.2.1⟩), if_neg]
          · rw [← slot?_eq ha, ← hx]
            rfl
          · intro h
            cases h
            exact heq ⟨rfl, rfl⟩
      · rw [if_neg hx, if_neg]
        · rfl
        · intro h
          cases h
          exact hx rfl
    | cell id =>
      rw [if_neg (fun h => (by cases h))]
      show execution'.cells.get? id = m.execution.cells.get? id
      rw [hcells.cells]
  | ref reference =>
    obtain ⟨hsame, hcells⟩ := hwrites
    cases l with
    | slot x =>
      rw [if_neg]
      · show Activations.slot? _ x = m.slot? x
        rw [slot?_set ha, hsame.slot?]
        split
        · rename_i hx
          rw [← slot?_eq ha, ← hx]
        · rfl
      · cases reference with
        | cell id =>
          rw [locationOf]
          split <;> exact fun h => (by cases h)
        | global name => exact fun h => (by cases h)
    | cell id =>
      show execution'.cells.get? id = _
      rw [hcells.cells]
      cases reference with
      | global name =>
        rw [if_neg (fun h => (by cases h))]
        rfl
      | cell id' =>
        show (m.execution.cells.put id' value).get? id = _
        by_cases heq : id = id'
        · subst heq
          rw [Assoc.get?_put, if_pos]
          rw [locationOf, if_pos (hl id rfl)]
        · rw [Assoc.get?_put_ne _ _ heq, if_neg]
          · rfl
          · rw [locationOf]
            split
            · intro h
              cases h
              exact heq rfl
            · exact fun h => (by cases h)

end Contents

/-! ### The invariant -/

/-- A dead binding holds the marker; its cell was allocated. -/
structure Marked (m : Activations W) (D : Set Location) : Prop where
  content : ∀ l ∈ D, content m l = some .uninitialized
  allocated : ∀ id, .cell id ∈ D → id < m.execution.nextCellId

section Steps

variable {m m' : Activations W} {D : Set Location} {event : Event W}

theorem marked_of_content
    (h : ∀ l ∈ dying D m event, DeadZone.content m' l = some .uninitialized ∧
      ∀ id, l = .cell id → id < m'.execution.nextCellId) : Marked m' (dead D m event m') := by
  have hsame : dead D m event m' = dying D m event := by
    unfold dead
    have himage : relocate m' '' dying D m event = id '' dying D m event :=
      Set.image_congr fun l hl => relocate_of_content (h l hl).1
    rw [himage, Set.image_id]
  rw [hsame]
  exact ⟨fun l hl => (h l hl).1, fun id hid => (h _ hid).2 id rfl⟩

theorem marked_of_same (hmarked : Marked m D) (hdying : dying D m event = D)
    (hslot : ∀ x value, m.slot? x = some value → m'.slot? x = some value)
    (hcells : SameCells m.execution m'.execution) : Marked m' (dead D m event m') := by
  refine marked_of_content fun l hl => ?_
  rw [hdying] at hl
  cases l with
  | slot x => exact ⟨hslot x _ (hmarked.content _ hl), fun id h => (by cases h)⟩
  | cell id =>
    refine ⟨?_, fun id' h => ?_⟩
    · show m'.execution.cells.get? id = _
      rw [hcells.cells]
      exact hmarked.content _ hl
    · cases h
      rw [hcells.nextCellId]
      exact hmarked.allocated _ hl

variable {f : ℕ} {a : Activation} {name : Op} {operands : List Operand} {arguments : Answer}
  {reply : Reply W} {action : Action W}

theorem dying_of_not_writing (hname : name ∉ writingOps) :
    dying D m (.instruction f name operands arguments reply action) = D := by
  have hdeclare : name ≠ .setLocUninitialized := fun h => hname (by rw [h]; decide)
  show (match m.entered[f]? with | none => D | some a => _) = D
  split
  · rfl
  · rw [if_neg hdeclare, if_neg fun h => hname h.1]

variable {captures : List Capture}

theorem marked_of_assigns [Value.Platform] (hmarked : Marked m D) (ha : m.entered[f]? = some a)
    (hallowed : Allowed m (.instruction f name operands arguments reply action)) {frame : Frame}
    {execution' : State W}
    (hassigns : Assigns name operands a.frame (charged m.execution) frame execution') :
    Marked ⟨m.entered.set f { a with frame }, captures, execution'⟩
      (dead D m (.instruction f name operands arguments reply action)
        ⟨m.entered.set f { a with frame }, captures, execution'⟩) := by
  obtain ⟨index, place, target, value, rfl, hwriting, hplace, htarget, hvalue, hwrites⟩ := hassigns
  have haccessed : accessed f a.frame m.execution name [.int index] =
      locationOf f m.execution target := by
    show ((placeOf name index).bind a.frame.target?).bind _ = _
    rw [hplace]
    show (a.frame.target? place).bind _ = _
    rw [htarget]
    rfl
  have hnext : execution'.nextCellId = m.execution.nextCellId := by
    have hwrites := writes_of_charged hwrites
    cases target with
    | slot bank index => exact hwrites.2.nextCellId
    | ref reference => cases reference <;> exact hwrites.2.nextCellId
  have hallocated : ∀ l, l ∈ D ∨ locationOf f m.execution target = some l →
      ∀ id, l = .cell id → id < m.execution.nextCellId := by
    rintro l (hl | hl) id rfl
    · exact hmarked.allocated id hl
    · cases target with
      | slot bank index => cases hl
      | ref reference =>
        cases reference with
        | cell id' =>
          rw [locationOf] at hl
          split at hl
          · rename_i hlt
            cases hl
            exact hlt
          · cases hl
        | global name => cases hl
  refine marked_of_content fun l hl => ?_
  have hmem : l ∈ D ∨ locationOf f m.execution target = some l := by
    simp only [dying, ha, haccessed] at hl
    split at hl
    · exact hl
    · split at hl
      · exact .inl hl.1
      · exact .inl hl
  refine ⟨?_, fun id h => by rw [hnext]; exact hallocated l hmem id h⟩
  rw [content_of_writes ha htarget (writes_of_charged hwrites) (hallocated l hmem)]
  split
  · rename_i hl'
    by_cases hdeclare : name = .setLocUninitialized
    · subst hdeclare
      exact hvalue.symm
    · -- The location was dead, so this is a checked write on a dead binding.
      simp only [dying, ha, haccessed] at hl
      rw [if_neg hdeclare] at hl
      split at hl
      · exact absurd hl' hl.2
      · rename_i hnot
        have hchecked : name ∈ checkedWriteOps := by
          by_contra hchecked
          exact hnot ⟨hwriting, hchecked⟩
        refine absurd ?_ (hallowed a index ha rfl hchecked)
        rw [bindingValue_of_accessed ha (haccessed.trans hl')]
        exact hmarked.content l hl
  · rename_i hne
    rcases hmem with hl | hl
    · exact hmarked.content l hl
    · exact absurd hl hne

theorem marked_of_promotes (hmarked : Marked m D) (ha : m.entered[f]? = some a)
    (hname : name ∉ writingOps) {captured frame : Frame} {execution₁ execution' : State W}
    (hpromotes : Promotes a.frame m.execution captured execution₁)
    (hframe : SameVariables captured frame) (hcells : SameTables execution₁ execution') :
    Marked ⟨m.entered.set f { a with frame }, captures, execution'⟩
      (dead D m (.instruction f name operands arguments reply action)
        ⟨m.entered.set f { a with frame }, captures, execution'⟩) := by
  generalize hm' : (⟨m.entered.set f { a with frame }, captures, execution'⟩ : Activations W) = m'
  have hexecution : m'.execution = execution' := by rw [← hm']
  have hslot : ∀ x, m'.slot? x =
      if x.activation = f then captured.slot? x.bank x.index else m.slot? x := fun x => by
    rw [← hm', slot?_set ha, hframe.slot?]
  have hnext : m.execution.nextCellId ≤ execution'.nextCellId := by
    rw [hcells.nextCellId]
    exact hpromotes.next_le
  have hmoved : ∀ l ∈ D, DeadZone.content m' (relocate m' l) = some .uninitialized ∧
      ∀ id, relocate m' l = .cell id → id < m'.execution.nextCellId := by
    intro l hl
    rw [hexecution]
    cases l with
    | slot x =>
      have hx : m.slot? x = some .uninitialized := hmarked.content _ hl
      have hstays : m'.slot? x = some .uninitialized →
          DeadZone.content m' (relocate m' (.slot x)) = some .uninitialized ∧
            ∀ id, relocate m' (.slot x) = .cell id → id < execution'.nextCellId := fun h => by
        rw [@relocate_of_content _ _ (.slot x) h]
        exact ⟨h, fun id hid => (by cases hid)⟩
      by_cases hactivation : x.activation = f
      · have hown : a.frame.slot? x.bank x.index = some .uninitialized := by
          rw [← slot?_eq ha, ← hactivation]
          exact hx
        rcases hpromotes.slot _ _ _ hown with hsame | ⟨-, id, hid, hle, hlt, hcell⟩
        · refine hstays ?_
          rw [hslot, if_pos hactivation]
          exact hsame
        · have hrelocate : relocate m' (.slot x) = .cell id := by
            rw [relocate, hslot, if_pos hactivation, hid]
          rw [hrelocate]
          refine ⟨?_, fun id' h => ?_⟩
          · show m'.execution.cells.get? id = _
            rw [hexecution, hcells.cells]
            exact hcell
          · cases h
            rw [hcells.nextCellId]
            exact hlt
      · refine hstays ?_
        rw [hslot, if_neg hactivation]
        exact hx
    | cell id =>
      have hlt := hmarked.allocated id hl
      refine ⟨?_, fun id' h => ?_⟩
      · show m'.execution.cells.get? id = _
        rw [hexecution, hcells.cells, hpromotes.old id hlt]
        exact hmarked.content _ hl
      · cases h
        omega
  unfold dead
  rw [dying_of_not_writing hname]
  constructor
  · rintro l ⟨l₀, hl₀, rfl⟩
    exact (hmoved l₀ hl₀).1
  · rintro id ⟨l₀, hl₀, heq⟩
    exact (hmoved l₀ hl₀).2 id heq

/-- **One event** keeps the marker in the dead bindings. -/
theorem marked_step [Value.Platform] [AtomTable] (hmarked : Marked m D) (hstep : Step m event m')
    (hallowed : Allowed m event) : Marked m' (dead D m event m') := by
  cases hstep with
  | @instruction f a name operands arguments reply action ha hcurrent hexecute =>
    rw [executeCurrent_eq hcurrent] at hexecute
    rcases execute_effect hexecute with ⟨hkeeps, -, hreads⟩ |
      ⟨-, frame', execution', rfl, hassigns⟩ | ⟨hcapture, hcaptures⟩
    · refine marked_of_same hmarked (dying_of_not_writing hreads) (fun x value hx => ?_)
        ⟨hkeeps.execution.cells, hkeeps.execution.nextCellId⟩
      rw [slot?_set ha, (keeps_activation hkeeps).slot?]
      split
      · rename_i hactivation
        rw [← slot?_eq ha, ← hactivation]
        exact hx
      · exact hx
    · exact marked_of_assigns hmarked ha hallowed hassigns
    · obtain ⟨captured, execution₁, hpromotes, hframe, hsome, hcells⟩ := hcaptures.promotes
      obtain ⟨frame', hframe'⟩ := Option.isSome_iff_exists.1 hsome
      have hnot : name ∉ writingOps := fun h => (writing_facts name h).2 hcapture
      rw [hframe']
      exact marked_of_promotes hmarked ha hnot (promotes_of_charged hpromotes) (hframe _ hframe')
        hcells
  | enter function callable values this hcapture =>
    exact marked_of_same hmarked rfl (fun x value hx => slot?_append hx _ _ _) (.refl _)
  | @resume f a frame ha hsame =>
    refine marked_of_same hmarked rfl (fun x value hx => ?_) (.refl _)
    rw [slot?_set ha, hsame.slot?]
    split
    · rename_i hactivation
      rw [← slot?_eq ha, ← hactivation]
      exact hx
    · exact hx
  | environment hsame => exact marked_of_same hmarked rfl (fun x value hx => hx) hsame

end Steps

/-! ### One accessor -/

section Accessors

variable {frame : Frame} {execution : State W} {name : Op} {index : ℤ} {value : Value}

theorem elem_of_slot? {bank : Bank} (hindex : 0 ≤ index) {slot : Value}
    (h : frame.slot? bank index.toNat = some slot) : elem (frame.bank bank) index = .ok slot := by
  have hget : (frame.bank bank)[index.toNat]? = some slot := h
  unfold elem
  rw [if_pos hindex, hget]

theorem readReference_of_target {reference : SlotRef}
    (h : readTarget frame execution (.ref reference) = some value) :
    readReference reference execution = .ok value := by
  cases reference with
  | cell id =>
    rw [readReference, show execution.cells.get? id = some value from h]
  | global name =>
    cases h
    rfl

theorem readSlot_of_target {bank : Bank} {target : Target} (hindex : 0 ≤ index)
    (htarget : frame.target? (.slot bank index.toNat) = some target)
    (hread : readTarget frame execution target = some value) :
    ∃ slot, elem (frame.bank bank) index = .ok slot ∧ readSlot slot execution = .ok value := by
  rw [Frame.target?] at htarget
  split at htarget
  · rename_i reference hslot
    cases htarget
    exact ⟨_, elem_of_slot? hindex hslot, readReference_of_target hread⟩
  · rename_i slot hplain hslot
    cases htarget
    cases hslot.symm.trans hread
    refine ⟨_, elem_of_slot? hindex hslot, ?_⟩
    unfold readSlot
    split
    · exact (hplain _ rfl).elim
    · rfl
  · cases htarget

theorem place_of_bindingValue (h : bindingValue name index frame execution = some value) :
    0 ≤ index ∧ ∃ place target, placeOf name index = some place ∧
      frame.target? place = some target ∧ readTarget frame execution target = some value := by
  obtain ⟨target, htarget, hread⟩ := Option.bind_eq_some_iff.1 h
  obtain ⟨place, hplace, htarget⟩ := Option.bind_eq_some_iff.1 htarget
  refine ⟨?_, place, target, hplace, htarget, hread⟩
  by_contra hneg
  rw [placeOf, if_pos (by omega)] at hplace
  cases hplace

theorem readSlot_of_bindingValue (harg : name ∉ argOps) (hloc : name ∈ locOps)
    (h : bindingValue name index frame execution = some value) :
    ∃ slot, elem frame.locals index = .ok slot ∧ readSlot slot execution = .ok value := by
  obtain ⟨hindex, place, target, hplace, htarget, hread⟩ := place_of_bindingValue h
  rw [placeOf_nonneg hindex, if_neg harg, if_pos hloc] at hplace
  cases hplace
  exact @readSlot_of_target _ frame _ _ _ .locals _ hindex htarget hread

theorem readReference_of_bindingValue (harg : name ∉ argOps) (hloc : name ∉ locOps)
    (href : name ∈ refOps) (h : bindingValue name index frame execution = some value) :
    ∃ reference, closureRef frame index = .ok reference ∧
      readReference reference execution = .ok value := by
  obtain ⟨hindex, place, target, hplace, htarget, hread⟩ := place_of_bindingValue h
  rw [placeOf_nonneg hindex, if_neg harg, if_neg hloc, if_pos href] at hplace
  cases hplace
  obtain ⟨reference, hget, rfl⟩ := Option.map_eq_some_iff.1 htarget
  refine ⟨reference, ?_, readReference_of_target hread⟩
  rw [closureRef, if_pos hindex, hget]

variable [Value.Platform] [AtomTable] {arguments : Answer} {reply : Reply W}

theorem execute_getLocCheck (h : bindingValue .getLocCheck index frame execution = some value) :
    Interpreter.execute .getLocCheck [.int index] frame execution arguments reply =
      .ok (checked value frame execution) := by
  obtain ⟨slot, hslot, hread⟩ := readSlot_of_bindingValue (by decide) (by decide) h
  rw [execute_local (by decide)]
  show (elem frame.locals index >>= fun slot => readSlot slot execution >>= fun value =>
    .ok (checked value frame execution)) = _
  rw [hslot]
  show (readSlot slot execution >>= fun value => .ok (checked value frame execution)) = _
  rw [hread]
  rfl

theorem execute_compact (hname : name ∈ compactOperations) (operands : List Operand) :
    Opcode.Local.execute name operands frame execution reply =
      (executeCompact name operands frame.args frame.locals frame.stack execution).bind
        fun result => .ok (.next { frame with
          args := result.args
          locals := result.locals
          stack := result.stack } result.execution) := if_pos hname

theorem execute_getLoc (h : bindingValue .getLoc index frame execution = some value) :
    Interpreter.execute .getLoc [.int index] frame execution arguments reply =
      .ok (push frame execution value) := by
  obtain ⟨slot, hslot, hread⟩ := readSlot_of_bindingValue (by decide) (by decide) h
  have hcompact : executeCompact .getLoc [.int index] frame.args frame.locals frame.stack execution =
      .ok ⟨frame.args, frame.locals, value :: frame.stack, execution⟩ := by
    show (elem frame.locals index >>= fun slot => _) = _
    rw [hslot]
    show (readSlot slot execution >>= fun value => _) = _
    rw [hread]
    rfl
  rw [execute_local (by decide), execute_compact (by decide), hcompact]
  rfl

omit [Value.Platform] [AtomTable] in
theorem getReference_places : ∀ name ∈ getReferenceOps,
    name ∉ argOps ∧ name ∉ locOps ∧ name ∈ refOps := by decide

theorem execute_getReference (hname : name ∈ getReferenceOps)
    (h : bindingValue name index frame execution = some value) :
    Interpreter.execute name [.int index] frame execution arguments reply =
      .ok (if name = .getVarRefCheck then checked value frame execution
        else push frame execution value) := by
  obtain ⟨harg, hloc, href⟩ := getReference_places name hname
  obtain ⟨reference, hreference, hread⟩ := readReference_of_bindingValue harg hloc href h
  have hlocal : Interpreter.execute name [.int index] frame execution arguments reply =
      (closureRef frame index >>= fun reference => readReference reference execution >>= fun value =>
        .ok (if name = .getVarRefCheck then checked value frame execution
          else push frame execution value)) := by
    rw [execute_local (List.mem_append_left _ (by fin_cases hname <;> decide))]
    unfold Opcode.Local.execute
    rw [if_neg (by fin_cases hname <;> decide), if_pos hname]
  rw [hlocal, hreference]
  show (readReference reference execution >>= fun value => _) = _
  rw [hread]
  rfl

theorem execute_write_ne_throw (hname : name ∈ writingOps) (operands : List Operand)
    (reason : Value) :
    Interpreter.execute name operands frame execution arguments reply ≠
      .ok (.throw_ reason frame execution) := by
  intro h
  rcases execute_effect h with ⟨-, -, hreads⟩ | ⟨-, frame', execution', haction, -⟩ | ⟨hcapture, -⟩
  · exact hreads hname
  · cases haction
  · exact (writing_facts name hname).2 hcapture

theorem execute_write_eq (hname : name ∈ checkedWriteOps) :
    Interpreter.execute name [.int index] frame execution arguments reply =
      Interpreter.execute (unchecked name) [.int index] frame execution arguments reply := by
  fin_cases hname
  · have hcompact : executeCompact .putLocCheck [.int index] frame.args frame.locals frame.stack
        execution =
        executeCompact .putLoc [.int index] frame.args frame.locals frame.stack execution := by
      cases frame.stack <;> rfl
    show Interpreter.execute .putLocCheck _ _ _ _ _ = Interpreter.execute .putLoc _ _ _ _ _
    rw [execute_local (by decide), execute_local (by decide), execute_compact (by decide),
      execute_compact (by decide), hcompact]
  · rw [execute_local (by decide), execute_local (by decide)]
    rfl

/-- **One checked accessor** guards its binding exactly if it is no write of a dead one. -/
theorem guards_iff (hname : name ∈ checkedReadOps ++ checkedWriteOps) :
    Guards name index frame execution arguments reply ↔ Meets name index frame execution := by
  constructor
  · intro h hwrite hdead
    have hwriting : name ∈ writingOps := by fin_cases hwrite <;> decide
    exact execute_write_ne_throw hwriting _ _ (h.throws hdead)
  · intro h
    rcases List.mem_append.1 hname with hread | hwrite
    · fin_cases hread
      · refine ⟨fun hdead => ?_, fun value hvalue hlive => ?_⟩
        · rw [execute_getLocCheck hdead]
          rfl
        · rw [execute_getLocCheck hvalue]
          have hplain : bindingValue .getLoc index frame execution = some value := hvalue
          show _ = Interpreter.execute .getLoc _ _ _ _ _
          rw [execute_getLoc hplain, checked, if_neg hlive]
      · refine ⟨fun hdead => ?_, fun value hvalue hlive => ?_⟩
        · rw [execute_getReference (by decide) hdead]
          rfl
        · have hplain : bindingValue .getVarRef index frame execution = some value := hvalue
          rw [execute_getReference (by decide) hvalue]
          show _ = Interpreter.execute .getVarRef _ _ _ _ _
          rw [execute_getReference (by decide) hplain, if_pos rfl, if_neg (by decide), checked,
            if_neg hlive]
    · exact ⟨fun hdead => absurd hdead (h hwrite), fun value _ _ => execute_write_eq hwrite⟩

end Accessors

/-! ### Runs -/

section Runs

variable [Value.Platform] [AtomTable]

variable {D : Set Location} {m : Activations W}

theorem marked_of_run (h : Run m D) : Marked m D := by
  induction h with
  | start => exact ⟨fun l hl => hl.elim, fun id hid => hid.elim⟩
  | step hrun hstep hallowed ih => exact marked_step ih hstep hallowed

theorem respected_of_run (h : Run m D) : Respected m D where
  unassigned := (marked_of_run h).content
  unobserved f a name index l ha hname haccessed hl arguments reply := by
    have hdead : bindingValue name index a.frame m.execution = some .uninitialized :=
      (bindingValue_of_accessed ha haccessed).trans ((marked_of_run h).content l hl)
    have hguards : Guards name index a.frame m.execution arguments reply :=
      (guards_iff (List.mem_append_left _ hname)).2 fun hwrite =>
        absurd hname (by fin_cases hwrite <;> decide)
    exact hguards.throws hdead

/-- **The temporal dead zone**: a checked accessor guards its binding exactly if it is no write of
a dead one, and in a run without such writes no dead binding is assigned to or observed. -/
theorem guards_and_respected :
    (∀ name ∈ checkedReadOps ++ checkedWriteOps, ∀ (index : ℤ) (frame : Frame)
      (execution : State W) (arguments : Answer) (reply : Reply W),
      Guards name index frame execution arguments reply ↔ Meets name index frame execution) ∧
    ∀ (m : Activations W) (D : Set Location), Run m D → Respected m D :=
  ⟨fun _ hname _ _ _ _ _ => guards_iff hname, fun _ _ => respected_of_run⟩

end Runs

/-! ### An assignment in the dead zone -/

/-- `{ x = 1; let x; }`: `set_loc_uninitialized`, `push_1`, `put_loc_check`, `return_undef`. -/
def letFunction : Function where
  id := 0
  argCount := 0
  varCount := 1
  definedArgCount := 0
  stackSize := 1
  varRefCount := 0
  locals := []
  closureVars := []
  instructions := [(96, [.int 0]), (187, []), (98, [.int 0]), (41, [])]
  sourcePositions := []
  hasPrototype := false
  funcKind := 0
  constants := []

/-- The frame at `put_loc_check`. -/
def letFrame : Frame :=
  { newFrame letFunction .undefined [] .undefined [] with
    pc := 2
    locals := [.uninitialized]
    stack := [.int 1] }

def letState : State Unit where
  atoms := []
  callers := []
  cells := ∅
  nextCellId := 0
  globals := ∅
  coroutines := []
  depth := 1
  maxStackDepth := 1
  remainingSteps := 4
  stepLimit := 4
  memoryExceeded := false
  syncJobsPending := false
  world := ()

def letReply : Reply Unit := ⟨.value .undefined, (), false⟩

/-- The assignment is made: `put_loc_check` writes the dead binding and goes on. -/
theorem putLocCheck_writes_dead :
    Current letFrame .putLocCheck [.int 0] ∧
      bindingValue .putLocCheck 0 letFrame letState = some .uninitialized ∧
      @Interpreter.executeCurrent Unit Value.noNumbers ⟨fun _ => none⟩ letFrame letState
        (.error .undefined) letReply =
        .ok (.next { letFrame with
          locals := [.int 1]
          stack := [] } (charged letState)) ∧
      ¬@Guards Unit Value.noNumbers ⟨fun _ => none⟩ .putLocCheck 0 letFrame letState
        (.error .undefined) letReply := by
  refine ⟨⟨98, [.int 0], .putLocCheck, _, rfl, rfl, rfl⟩, rfl, rfl, fun h => ?_⟩
  have hthrows := @Guards.throws _ Value.noNumbers ⟨fun _ => none⟩ _ _ _ _ _ _ h rfl
  cases hthrows

end QuickBeam.Vm.Runtime.DeadZone
