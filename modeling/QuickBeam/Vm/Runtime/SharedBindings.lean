import QuickBeam.Vm.Runtime.DeadZone
import QuickBeam.Vm.Runtime.SlotFree

/-!
# Closures share the variables that they capture

In the source program a closure variable is a variable of an activation.  `store` follows the
values of all variables through a run, with no cells: an accessor writes the variable that it
names.  A run of the interpreter refines this: every variable has one cell at most, no two
variables have the same, and a read through a frame or a closure gives the value of the store.
-/

namespace QuickBeam.Vm.Runtime.SharedBindings

open QuickBeam.Lib QuickBeam.Vm.Bytecode QuickBeam.Vm.Program
open QuickBeam.Vm.Runtime.Interleaving QuickBeam.Vm.Runtime.DeadZone
open QuickBeam.Vm.Runtime.Opcode.Local

variable {W : Type}

/-! ### Variables of the source program -/

/-- What an accessor names: a variable or a global. -/
def named (f : ℕ) (a : Activation) (name : Op) (index : ℤ) : Option Origin :=
  (placeOf name index).bind fun
    | .slot bank index => some (.captured ⟨f, bank, index⟩)
    | .ref index => a.origins[index]?

def namedBy (f : ℕ) (a : Activation) (name : Op) : List Operand → Option Origin
  | [.int index] => named f a name index
  | _ => none

abbrev Store := Binding → Option Value

def store [Value.Platform] (σ : Store) (m : Activations W) : Event W → Store
  | .instruction f name operands _ _ _ =>
      match m.entered[f]? with
      | none => σ
      | some a =>
          if name ∈ writingOps then
            match namedBy f a name operands with
            | some (.captured x) =>
                Function.update σ x ((σ x).bind (written name a.frame.stack))
            | _ => σ
          else σ
  | .enter capture function callable values this => fun x =>
      if x.activation = m.entered.length then
        (newFrame function callable values this capture.references).slot? x.bank x.index
      else σ x
  | _ => σ

/-! ### The condition -/

/-- `rest` and `init_ctor` hand out the arguments as they are; none of them must have a cell. -/
def RawFree (name : Op) (operands : List Operand) (frame : Frame) : Prop :=
  (∀ first, name = .rest → operands = [.int first] → ∀ index : ℕ, first ≤ index →
    index < frame.actualArgCount → ∀ reference, frame.slot? .args index ≠ some (.slot reference)) ∧
  (name = .initCtor → ∀ reference, Value.slot reference ∉ frame.args)

def Allowed (m : Activations W) : Event W → Prop
  | .instruction f name operands _ _ _ => ∀ a, m.entered[f]? = some a → RawFree name operands a.frame
  | _ => True

/-- The event hands a cell reference to the environment: from the stack, or a raw argument. -/
def Hands (m : Activations W) : Event W → Prop
  | .instruction f name operands _ _ _ => ∃ a, m.entered[f]? = some a ∧
      (¬FreeStack a.frame.stack ∨ ¬RawFree name operands a.frame)
  | _ => False

/-- What the environment gives is free of cell references. -/
def Free : Event W → Prop
  | .instruction _ _ _ _ reply _ => FreeStack (Interpreter.given reply.answer)
  | .enter _ function callable values this =>
      FreeStack values ∧ SlotFree callable ∧ SlotFree this ∧ FreeStack function.constants
  | .resume _ frame => FreeStack frame.stack
  | .environment execution => ∀ name v, execution.globals.get? name = some v → SlotFree v

/-- A run in which `rest` and `init_ctor` meet no argument that has a cell, with the store of the
source program.  The environment gives cell references only when one is handed to it. -/
inductive Run [Value.Platform] [AtomTable] : Activations W → Store → Prop where
  | start {m : Activations W} : m.entered = [] → m.captures = [] → m.execution.cells = ∅ →
      (∀ name v, m.execution.globals.get? name = some v → SlotFree v) → Run m fun _ => none
  | step {m m' : Activations W} {σ : Store} {event : Event W} : Run m σ → Step m event m' →
      Allowed m event → (¬Hands m event → Free event) → Run m' (store σ m event)

/-! ### What holds in a run -/

/-- The reference of a closure is the cell of the variable that it stands for. -/
def Refers (m : Activations W) : Origin → SlotRef → Prop
  | .captured x, reference => ∃ id, reference = .cell id ∧ m.slot? x = some (.slot (.cell id))
  | .global name, reference => reference = .global name

def contentOf (execution : State W) : Value → Option Value
  | .slot (.cell id) => execution.cells.get? id
  | .slot (.global name) => some ((execution.globals.get? name).getD .undefined)
  | value => some value

def valueOf (m : Activations W) (x : Binding) : Option Value :=
  (m.slot? x).bind (contentOf m.execution)

/-- Every variable has one cell at most, no two have the same, and every reference is the cell of
the variable that it stands for. -/
structure Shared (m : Activations W) : Prop where
  live : ∀ x id, m.slot? x = some (.slot (.cell id)) → ∃ v, m.execution.cells.get? id = some v
  unique : ∀ x y id, m.slot? x = some (.slot (.cell id)) → m.slot? y = some (.slot (.cell id)) →
    x = y
  frames : ∀ a ∈ m.entered, List.Forall₂ (Refers m) a.origins a.frame.closureRefs
  closures : ∀ c ∈ m.captures, List.Forall₂ (Refers m) c.origins c.references

def readingOps : List Op := [.getArg, .getLoc, .getLocCheck] ++ getReferenceOps

/-- The values of the variables are those of the store, and an accessor that reads one gives it. -/
structure Refines [Value.Platform] [AtomTable] (m : Activations W) (σ : Store) : Prop where
  value : ∀ x, valueOf m x = σ x
  read : ∀ f a name index x v, m.entered[f]? = some a → name ∈ readingOps →
    named f a name index = some (.captured x) → σ x = some v → ∀ arguments reply,
    Interpreter.execute name [.int index] a.frame m.execution arguments reply =
      .ok (if name ∈ checkedReadOps then checked v a.frame m.execution
        else push a.frame m.execution v)
  readBoth : ∀ f a first second v w, m.entered[f]? = some a →
    σ ⟨f, .locals, first⟩ = some v → σ ⟨f, .locals, second⟩ = some w → ∀ arguments reply,
    Interpreter.execute .getLoc0Loc1 [.int first, .int second] a.frame m.execution arguments
      reply = .ok (.next ((a.frame.push w).push v) m.execution)

/-! ### The invariant -/

structure Tidy (frame : Frame) : Prop where
  stack : FreeStack frame.stack
  this : SlotFree frame.this
  callable : SlotFree frame.callable
  constants : FreeStack frame.function.constants

/-- Slots hold values or cells, no two the same cell, and cells hold values. -/
structure Wired (slot? : Binding → Option Value) (execution : State W) : Prop where
  slot : ∀ x v, slot? x = some v → SlotFree v ∨ ∃ id, v = .slot (.cell id)
  cell : ∀ id v, execution.cells.get? id = some v → id < execution.nextCellId ∧ SlotFree v
  global : ∀ name v, execution.globals.get? name = some v → SlotFree v
  live : ∀ x id, slot? x = some (.slot (.cell id)) → ∃ v, execution.cells.get? id = some v
  unique : ∀ x y id, slot? x = some (.slot (.cell id)) → slot? y = some (.slot (.cell id)) → x = y

structure Sound (m : Activations W) (σ : Store) : Prop where
  tidy : ∀ a ∈ m.entered, Tidy a.frame
  wired : Wired m.slot? m.execution
  frames : ∀ a ∈ m.entered, List.Forall₂ (Refers m) a.origins a.frame.closureRefs
  closures : ∀ c ∈ m.captures, List.Forall₂ (Refers m) c.origins c.references
  value : ∀ x, valueOf m x = σ x

section Invariant

variable {m m' : Activations W} {σ : Store} {f : ℕ} {a : Activation} {frame : Frame}

variable {v : Value}

theorem contentOf_free (h : SlotFree v) (execution : State W) : contentOf execution v = some v := by
  cases v with
  | slot reference => exact absurd rfl (h.ne_slot reference)
  | _ => rfl

theorem shared_of_sound (h : Sound m σ) : Shared m :=
  ⟨h.wired.live, h.wired.unique, h.frames, h.closures⟩

theorem Refers.of_kept (hkept : ∀ x id, m.slot? x = some (.slot (.cell id)) →
    m'.slot? x = some (.slot (.cell id))) {origin : Origin} {reference : SlotRef}
    (h : Refers m origin reference) : Refers m' origin reference := by
  cases origin with
  | captured x =>
    obtain ⟨id, hid, hslot⟩ := h
    exact ⟨id, hid, hkept x id hslot⟩
  | global name => exact h

theorem Tidy.of_entry (h : Tidy a.frame) (hentry : SameEntry a.frame frame)
    (hstack : FreeStack frame.stack) : Tidy frame where
  stack := hstack
  this := by rw [hentry.this]; exact h.this
  callable := by rw [hentry.callable]; exact h.callable
  constants := by rw [hentry.function]; exact h.constants

theorem sound_set {captures : List Capture} {execution : State W} {σ' : Store}
    (hsound : Sound m σ) (ha : m.entered[f]? = some a) (hentry : SameEntry a.frame frame)
    (hstack : FreeStack frame.stack)
    (hm' : m' = ⟨m.entered.set f { a with frame }, m.captures ++ captures, execution⟩)
    (hkept : ∀ x id, m.slot? x = some (.slot (.cell id)) → m'.slot? x = some (.slot (.cell id)))
    (hwired : Wired m'.slot? m'.execution)
    (hcaptures : ∀ c ∈ captures, List.Forall₂ (Refers m') c.origins c.references)
    (hvalue : ∀ x, valueOf m' x = σ' x) : Sound m' σ' := by
  have ham : a ∈ m.entered := List.mem_of_getElem? ha
  subst hm'
  refine ⟨fun b hb => ?_, hwired, fun b hb => ?_, fun c hc => ?_, hvalue⟩
  · rcases List.mem_or_eq_of_mem_set hb with hmem | heq
    · exact hsound.tidy b hmem
    · subst heq
      exact (hsound.tidy a ham).of_entry hentry hstack
  · rcases List.mem_or_eq_of_mem_set hb with hmem | heq
    · exact (hsound.frames b hmem).imp fun _ _ h => h.of_kept hkept
    · subst heq
      show List.Forall₂ _ a.origins frame.closureRefs
      rw [hentry.closureRefs]
      exact (hsound.frames a ham).imp fun _ _ h => h.of_kept hkept
  · rcases List.mem_append.1 hc with hold | hnew
    · exact (hsound.closures c hold).imp fun _ _ h => h.of_kept hkept
    · exact hcaptures c hnew

theorem valueOf_congr (hslot : ∀ x, m'.slot? x = m.slot? x)
    (hcells : SameCells m.execution m'.execution)
    (hfree : ∀ x v, m.slot? x = some v → SlotFree v ∨ ∃ id, v = .slot (.cell id)) (x : Binding) :
    valueOf m' x = valueOf m x := by
  unfold valueOf
  rw [hslot]
  cases hx : m.slot? x with
  | none => rfl
  | some v =>
    rcases hfree x v hx with hv | ⟨id, rfl⟩
    · exact (contentOf_free hv _).trans (contentOf_free hv _).symm
    · show m'.execution.cells.get? id = m.execution.cells.get? id
      rw [hcells.cells]

theorem Wired.congr {execution execution' : State W} {slot? slot?' : Binding → Option Value}
    (h : Wired slot? execution) (hslot : ∀ x, slot?' x = slot? x)
    (hcells : SameCells execution execution')
    (hglobal : ∀ name v, execution'.globals.get? name = some v → SlotFree v) :
    Wired slot?' execution' := by
  have heq : slot?' = slot? := funext hslot
  subst heq
  refine ⟨h.slot, ?_, hglobal, ?_, h.unique⟩
  · rw [hcells.cells, hcells.nextCellId]
    exact h.cell
  · rw [hcells.cells]
    exact h.live

/-! ### What an accessor names -/

theorem exists_right {α β : Type*} {R : α → β → Prop} {as : List α} {bs : List β}
    (h : List.Forall₂ R as bs) {i : ℕ} {b : β} (hb : bs[i]? = some b) :
    ∃ a, as[i]? = some a ∧ R a b := by
  induction h generalizing i with
  | nil => cases hb
  | cons hab hrest ih =>
    cases i with
    | zero =>
      cases hb
      exact ⟨_, rfl, hab⟩
    | succ i => exact ih hb

theorem exists_left {α β : Type*} {R : α → β → Prop} {as : List α} {bs : List β}
    (h : List.Forall₂ R as bs) {i : ℕ} {a : α} (ha : as[i]? = some a) :
    ∃ b, bs[i]? = some b ∧ R a b :=
  exists_right h.flip ha

variable {index : ℤ} {name : Op}

theorem named_of_target (hsound : Sound m σ) (ha : m.entered[f]? = some a) {place : Place}
    {target : Target} (hplace : placeOf name index = some place)
    (htarget : a.frame.target? place = some target) :
    (∃ x v, named f a name index = some (.captured x) ∧ m.slot? x = some v ∧
      (target = .slot x.bank x.index ∧ x.activation = f ∧ SlotFree v ∨
        ∃ id, v = .slot (.cell id) ∧ target = .ref (.cell id))) ∨
    ∃ global, named f a name index = some (.global global) ∧ target = .ref (.global global) := by
  cases place with
  | slot bank i =>
    have hnamed : named f a name index = some (.captured ⟨f, bank, i⟩) := by
      rw [named, hplace]
      rfl
    have hslot : m.slot? ⟨f, bank, i⟩ = a.frame.slot? bank i := slot?_eq ha bank i
    rw [Frame.target?] at htarget
    split at htarget
    · rename_i reference hget
      cases htarget
      rw [hget] at hslot
      rcases hsound.wired.slot _ _ hslot with hfree | ⟨id, hid⟩
      · exact absurd rfl (hfree.ne_slot reference)
      · cases hid
        exact .inl ⟨_, _, hnamed, hslot, .inr ⟨id, rfl, rfl⟩⟩
    · rename_i v hplain hget
      cases htarget
      rw [hget] at hslot
      rcases hsound.wired.slot _ _ hslot with hfree | ⟨id, hid⟩
      · exact .inl ⟨_, _, hnamed, hslot, .inl ⟨rfl, rfl, hfree⟩⟩
      · exact (hplain _ hid).elim
    · cases htarget
  | ref i =>
    obtain ⟨reference, hget, rfl⟩ := Option.map_eq_some_iff.1 htarget
    obtain ⟨origin, horigin, hrefers⟩ :=
      exists_right (hsound.frames a (List.mem_of_getElem? ha)) hget
    have hnamed : named f a name index = some origin := by
      rw [named, hplace]
      exact horigin
    cases origin with
    | captured x =>
      obtain ⟨id, rfl, hslot⟩ := hrefers
      exact .inl ⟨x, _, hnamed, hslot, .inr ⟨id, rfl, rfl⟩⟩
    | global global =>
      cases hrefers
      exact .inr ⟨global, hnamed, rfl⟩

variable {x : Binding}

theorem target_of_named (hsound : Sound m σ) (ha : m.entered[f]? = some a)
    (hnamed : named f a name index = some (.captured x)) (hslot : m.slot? x = some v) :
    ∃ place target, placeOf name index = some place ∧ a.frame.target? place = some target := by
  obtain ⟨place, hplace, horigin⟩ := Option.bind_eq_some_iff.1 hnamed
  cases place with
  | slot bank i =>
    cases horigin
    rw [slot?_eq ha] at hslot
    rcases hsound.wired.slot _ _ ((slot?_eq ha bank i).trans hslot) with hfree | ⟨id, rfl⟩
    · exact ⟨_, _, hplace, target?_of_plain hslot hfree.ne_slot⟩
    · exact ⟨_, _, hplace, target?_of_slot hslot⟩
  | ref i =>
    obtain ⟨reference, hget, -⟩ := exists_left (hsound.frames a (List.mem_of_getElem? ha)) horigin
    refine ⟨_, .ref reference, hplace, ?_⟩
    show (a.frame.closureRefs[i]?).map Target.ref = _
    rw [hget]
    rfl

theorem bindingValue_of_named (hsound : Sound m σ) (ha : m.entered[f]? = some a)
    (hnamed : named f a name index = some (.captured x)) (hvalue : valueOf m x = some v) :
    bindingValue name index a.frame m.execution = some v := by
  obtain ⟨slot, hslot, hcontent⟩ := Option.bind_eq_some_iff.1 hvalue
  obtain ⟨place, target, hplace, htarget⟩ := target_of_named hsound ha hnamed hslot
  have hbinding : bindingValue name index a.frame m.execution =
      readTarget a.frame m.execution target := by
    unfold bindingValue
    rw [hplace]
    show (a.frame.target? place).bind _ = _
    rw [htarget]
    rfl
  rw [hbinding]
  rcases named_of_target hsound ha hplace htarget with
    ⟨y, w, hnamed', hslot', hfound⟩ | ⟨global, hnamed', -⟩
  · cases hnamed.symm.trans hnamed'
    cases hslot.symm.trans hslot'
    rcases hfound with ⟨rfl, rfl, hfree⟩ | ⟨id, rfl, rfl⟩
    · rw [contentOf_free hfree] at hcontent
      cases hcontent
      exact (slot?_eq ha x.bank x.index).symm.trans hslot
    · exact hcontent
  · cases hnamed.symm.trans hnamed'

end Invariant

/-! ### A capture -/

section Promotion

variable {m : Activations W} {f : ℕ} {a : Activation} {captured : Frame}
  {execution₁ execution' : State W} {slot?' : Binding → Option Value}

/-- What a slot holds after a capture: what it held, or a new cell with what it held. -/
def Promoted (m : Activations W) (f : ℕ) (execution' : State W) (x : Binding) (v : Value) : Prop :=
  m.slot? x = some v ∨ ∃ v₀ id, m.slot? x = some v₀ ∧ SlotFree v₀ ∧ x.activation = f ∧
    v = .slot (.cell id) ∧ m.execution.nextCellId ≤ id ∧ id < execution'.nextCellId ∧
    execution'.cells.get? id = some v₀

variable (hwired : Wired m.slot? m.execution) (ha : m.entered[f]? = some a)
  (hpromotes : Promotes a.frame m.execution captured execution₁)
  (hcells : SameCells execution₁ execution')
  (hslots : ∀ x, slot?' x = if x.activation = f then captured.slot? x.bank x.index else m.slot? x)

include hwired ha hpromotes hcells hslots

theorem promoted_of_slot {x : Binding} {v₀ : Value} (hx : m.slot? x = some v₀) :
    ∃ v, slot?' x = some v ∧ Promoted m f execution' x v := by
  rw [hslots]
  by_cases hactivation : x.activation = f
  · have hown : a.frame.slot? x.bank x.index = some v₀ := by
      rw [← slot?_eq ha, ← hactivation]
      exact hx
    rw [if_pos hactivation]
    rcases hpromotes.slot _ _ _ hown with hsame | ⟨hplain, id, hid, hle, hlt, hcell⟩
    · exact ⟨v₀, hsame, .inl hx⟩
    · have hfree : SlotFree v₀ := (hwired.slot x v₀ hx).resolve_right fun ⟨id', h⟩ => hplain id' h
      refine ⟨_, hid, .inr ⟨v₀, id, hx, hfree, hactivation, rfl, hle, ?_, ?_⟩⟩
      · rw [hcells.nextCellId]
        exact hlt
      · rw [hcells.cells]
        exact hcell
  · rw [if_neg hactivation]
    exact ⟨v₀, hx, .inl hx⟩

theorem promoted_of_slot' {x : Binding} {v : Value} (hx : slot?' x = some v) :
    Promoted m f execution' x v := by
  have hbefore : ∃ v₀, m.slot? x = some v₀ := by
    rw [hslots] at hx
    split at hx
    · rename_i hactivation
      obtain ⟨v₀, hv₀⟩ := hpromotes.slot_before hx
      refine ⟨v₀, ?_⟩
      rw [← hv₀, ← slot?_eq ha, ← hactivation]
    · exact ⟨v, hx⟩
  obtain ⟨v₀, hv₀⟩ := hbefore
  obtain ⟨w, hw, hpromoted⟩ := promoted_of_slot hwired ha hpromotes hcells hslots hv₀
  cases hx.symm.trans hw
  exact hpromoted

theorem kept_promotes (x : Binding) (id : ℕ) (hx : m.slot? x = some (.slot (.cell id))) :
    slot?' x = some (.slot (.cell id)) := by
  obtain ⟨v, hv, hsame | ⟨v₀, id', hv₀, hfree, -⟩⟩ :=
    promoted_of_slot hwired ha hpromotes hcells hslots hx
  · rw [hv, ← hsame, hx]
  · cases hx.symm.trans hv₀
    exact absurd rfl (hfree.ne_slot _)

omit hwired ha hslots in
theorem cell_of_old {id : ℕ} (hid : id < m.execution.nextCellId) :
    execution'.cells.get? id = m.execution.cells.get? id := by
  rw [hcells.cells]
  exact hpromotes.old id hid

theorem wired_promotes (hglobals : execution'.globals = m.execution.globals) :
    Wired slot?' execution' := by
  have hold : ∀ x id, m.slot? x = some (.slot (.cell id)) → id < m.execution.nextCellId ∧
      ∃ v, execution'.cells.get? id = some v := by
    intro x id hx
    obtain ⟨v, hv⟩ := hwired.live x id hx
    have hid := (hwired.cell id v hv).1
    refine ⟨hid, v, ?_⟩
    rw [cell_of_old hpromotes hcells hid]
    exact hv
  have hpromoted := @promoted_of_slot' _ _ _ _ _ _ _ _ hwired ha hpromotes hcells hslots
  refine ⟨fun x v hx => ?_, fun id v hv => ?_, ?_, fun x id hx => ?_, fun x y id hx hy => ?_⟩
  · rcases hpromoted hx with hsame | ⟨v₀, id, -, -, -, hv, -⟩
    · exact hwired.slot x v hsame
    · exact .inr ⟨id, hv⟩
  · rw [hcells.cells] at hv
    rw [hcells.nextCellId]
    rcases hpromotes.new id v hv with hv | ⟨hlt, hplain, bank, index, hslot⟩
    · obtain ⟨hid, hfree⟩ := hwired.cell id v hv
      exact ⟨hid.trans_le hpromotes.next_le, hfree⟩
    · rw [← slot?_eq ha] at hslot
      exact ⟨hlt, (hwired.slot _ v hslot).resolve_right fun ⟨id', h⟩ => hplain id' h⟩
  · rw [hglobals]
    exact hwired.global
  · rcases hpromoted hx with hsame | ⟨v₀, id', -, -, -, heq, -, -, hcell⟩
    · exact (hold x id hsame).2
    · cases heq
      exact ⟨v₀, hcell⟩
  · rcases hpromoted hx with hsame | ⟨v₀, id', hv₀, hfree₀, hactivation, heq, hle, -⟩
    · have hlt := (hold x id hsame).1
      rcases hpromoted hy with hsame' | ⟨v₁, id', hv₁, -, -, heq, hle, -⟩
      · exact hwired.unique x y id hsame hsame'
      · cases heq
        omega
    · cases heq
      rcases hpromoted hy with hsame' | ⟨v₁, id', hv₁, hfree₁, hactivation', heq, -⟩
      · have hlt := (hold y id hsame').1
        omega
      · -- Both were promoted by this capture.
        cases heq
        obtain ⟨activation, bank, index⟩ := x
        obtain ⟨activation', bank', index'⟩ := y
        obtain rfl : activation = f := hactivation
        obtain rfl : activation' = activation := hactivation'
        rw [slot?_eq ha] at hv₀ hv₁
        rw [hslots, if_pos rfl] at hx hy
        obtain ⟨rfl, rfl⟩ := hpromotes.distinct bank index bank' index' v₀ v₁ id hv₀
          (fun id' h => hfree₀.ne_slot _ h) hv₁ (fun id' h => hfree₁.ne_slot _ h) hx hy
        rfl

theorem content_promotes (x : Binding) :
    (slot?' x).bind (contentOf execution') = valueOf m x := by
  unfold valueOf
  cases hx : m.slot? x with
  | none =>
    cases hx' : slot?' x with
    | none => rfl
    | some v =>
      have hnone : ∀ v, m.slot? x ≠ some v := fun v h => by
        rw [hx] at h
        cases h
      rcases promoted_of_slot' hwired ha hpromotes hcells hslots hx' with h | ⟨v₀, _, h, -⟩
      · exact absurd h (hnone v)
      · exact absurd h (hnone v₀)
  | some v₀ =>
    obtain ⟨v, hv, hsame | ⟨v₁, id, hv₁, hfree, -, rfl, -, -, hcell⟩⟩ :=
      promoted_of_slot hwired ha hpromotes hcells hslots hx
    · cases hx.symm.trans hsame
      rw [hv]
      rcases hwired.slot x v₀ hx with hfree | ⟨id, rfl⟩
      · exact (contentOf_free hfree _).trans (contentOf_free hfree _).symm
      · obtain ⟨w, hw⟩ := hwired.live x id hx
        exact cell_of_old hpromotes hcells (hwired.cell id w hw).1
    · cases hx.symm.trans hv₁
      rw [hv]
      exact hcell.trans (contentOf_free hfree _).symm

end Promotion

/-! ### One step -/

section Steps

variable [Value.Platform] {m : Activations W} {σ : Store} {f : ℕ} {a : Activation} {frame : Frame}
  {name : Op} {operands : List Operand} {arguments : Answer} {reply : Reply W} {action : Action W}

theorem store_of_writing (ha : m.entered[f]? = some a) (hname : name ∈ writingOps) :
    store σ m (.instruction f name operands arguments reply action) =
      match namedBy f a name operands with
      | some (.captured x) => Function.update σ x ((σ x).bind (written name a.frame.stack))
      | _ => σ := by
  simp only [store, ha, if_pos hname]

theorem store_of_not_writing (hname : name ∉ writingOps) :
    store σ m (.instruction f name operands arguments reply action) = σ := by
  simp only [store, if_neg hname]
  split <;> rfl

variable {execution' : State W}

omit [Value.Platform] in
theorem wired_globals (hwired : Wired m.slot? m.execution)
    (hglobals : FreeGlobals m.execution execution') :
    ∀ name v, execution'.globals.get? name = some v → SlotFree v := by
  intro name v hv
  rcases hglobals with hsame | ⟨name', w, hw, hput⟩
  · rw [hsame] at hv
    exact hwired.global name v hv
  · rw [hput] at hv
    rcases Assoc.get?_put_cases hv with ⟨-, rfl⟩ | ⟨-, hold⟩
    · exact hw
    · exact hwired.global name v hold

variable {slot?' : Binding → Option Value} {value : Value} {x : Binding}

omit [Value.Platform] in
theorem wired_slot (hwired : Wired m.slot? m.execution) (hvalue : SlotFree value)
    (hcells : SameCells m.execution execution')
    (hglobals : ∀ name v, execution'.globals.get? name = some v → SlotFree v)
    (hslot : ∀ y, slot?' y = if y = x then some value else m.slot? y) :
    Wired slot?' execution' := by
  have hold : ∀ y id, slot?' y = some (.slot (.cell id)) → m.slot? y = some (.slot (.cell id)) := by
    intro y id hy
    rw [hslot] at hy
    split at hy
    · cases hy
      exact absurd rfl (hvalue.ne_slot _)
    · exact hy
  refine ⟨fun y v hy => ?_, ?_, hglobals, fun y id hy => ?_, fun y z id hy hz => ?_⟩
  · rw [hslot] at hy
    split at hy
    · cases hy
      exact .inl hvalue
    · exact hwired.slot y v hy
  · rw [hcells.cells, hcells.nextCellId]
    exact hwired.cell
  · rw [hcells.cells]
    exact hwired.live y id (hold y id hy)
  · exact hwired.unique y z id (hold y id hy) (hold z id hz)

omit [Value.Platform] in
theorem wired_cell {id : ℕ} (hwired : Wired m.slot? m.execution) (hvalue : SlotFree value)
    (hid : id < m.execution.nextCellId)
    (hcells : execution'.cells = m.execution.cells.put id value)
    (hnext : execution'.nextCellId = m.execution.nextCellId)
    (hglobals : ∀ name v, execution'.globals.get? name = some v → SlotFree v)
    (hslot : ∀ y, slot?' y = m.slot? y) : Wired slot?' execution' := by
  have heq : slot?' = m.slot? := funext hslot
  subst heq
  refine ⟨hwired.slot, fun id' v hv => ?_, hglobals, fun y id' hy => ?_, hwired.unique⟩
  · rw [hcells] at hv
    rw [hnext]
    rcases Assoc.get?_put_cases hv with ⟨rfl, rfl⟩ | ⟨-, hold⟩
    · exact ⟨hid, hvalue⟩
    · exact hwired.cell id' v hold
  · rw [hcells]
    by_cases heq : id' = id
    · exact ⟨value, by rw [heq]; exact Assoc.get?_put _ _ _⟩
    · obtain ⟨v, hv⟩ := hwired.live y id' hy
      exact ⟨v, (Assoc.get?_put_ne _ _ heq).trans hv⟩

variable {captures : List Capture}

omit [Value.Platform] in
theorem slot?_write (ha : m.entered[f]? = some a) (hactivation : x.activation = f)
    (hsome : (a.frame.slot? x.bank x.index).isSome)
    (hframe : SameVariables (a.frame.putSlot x.bank x.index value) frame) (y : Binding) :
    Activations.slot? ⟨m.entered.set f { a with frame }, captures, execution'⟩ y =
      if y = x then some value else m.slot? y := by
  rw [slot?_set ha, hframe.slot?, slot?_putSlot]
  by_cases hy : y = x
  · subst hy
    rw [if_pos hactivation, if_pos ⟨rfl, rfl, hsome⟩, if_pos rfl]
  · rw [if_neg hy]
    by_cases hsame : y.activation = f
    · have hne : ¬(y.bank = x.bank ∧ y.index = x.index ∧
          (a.frame.slot? x.bank x.index).isSome = true) := by
        rintro ⟨hbank, hindex, -⟩
        exact hy (by cases x; cases y; simp_all)
      rw [if_pos hsame, if_neg hne, ← slot?_eq ha, ← hsame]
    · rw [if_neg hsame]

omit [Value.Platform] in
theorem slot?_same (ha : m.entered[f]? = some a) (hframe : SameVariables a.frame frame)
    (y : Binding) :
    Activations.slot? ⟨m.entered.set f { a with frame }, captures, execution'⟩ y = m.slot? y := by
  rw [slot?_set ha, hframe.slot?]
  split
  · rename_i hy
    rw [← slot?_eq ha, ← hy]
  · rfl

variable {v : Value}

omit [Value.Platform] in
theorem contentOf_cells {execution execution' : State W}
    (hv : SlotFree v ∨ ∃ id, v = .slot (.cell id)) (hcells : execution'.cells = execution.cells) :
    contentOf execution' v = contentOf execution v := by
  rcases hv with hfree | ⟨id, rfl⟩
  · exact (contentOf_free hfree _).trans (contentOf_free hfree _).symm
  · show execution'.cells.get? id = execution.cells.get? id
    rw [hcells]

variable {m' : Activations W}

theorem sound_assigns (hparsed : ∀ s, SlotFree (Value.Platform.parseNumber s))
    (hsound : Sound m σ) (ha : m.entered[f]? = some a)
    (hassigns : Assigns name operands a.frame (charged m.execution) frame execution')
    (hstack : FreeStack frame.stack) (hglobals : FreeGlobals m.execution execution')
    (hm' : m' = ⟨m.entered.set f { a with frame }, m.captures ++ [], execution'⟩) :
    Sound m' (store σ m (.instruction f name operands arguments reply action)) ∧
      ∀ x id, m.slot? x = some (.slot (.cell id)) → m'.slot? x = some (.slot (.cell id)) := by
  have htidy := hsound.tidy a (List.mem_of_getElem? ha)
  have hfree := wired_globals hsound.wired hglobals
  obtain ⟨index, place, target, value, rfl, hwriting, hplace, htarget, hvalue, hwrites⟩ := hassigns
  have hvalueFree : SlotFree value := slotFree_written hparsed htidy.stack hvalue
  rw [readTarget_charged] at hvalue
  have hwrites := writes_of_charged hwrites
  have hexecution : m'.execution = execution' := by rw [hm']
  rw [store_of_writing ha hwriting]
  have hnamedBy : namedBy f a name [.int index] = named f a name index := rfl
  rw [hnamedBy]
  rcases named_of_target hsound ha hplace htarget with
    ⟨x, v, hnamed, hslot, ⟨rfl, hactivation, hv⟩ | ⟨id, rfl, rfl⟩⟩ | ⟨global, hnamed, rfl⟩
  · -- The variable is in its slot.
    have hown : a.frame.slot? x.bank x.index = some v := by
      rw [← slot?_eq ha, ← hactivation]
      exact hslot
    have hslots : ∀ y, m'.slot? y = if y = x then some value else m.slot? y := fun y => by
      rw [hm']
      exact slot?_write ha hactivation (by rw [hown]; rfl) hwrites.1 y
    have hkept : ∀ y id, m.slot? y = some (.slot (.cell id)) →
        m'.slot? y = some (.slot (.cell id)) := by
      intro y id hy
      have hne : y ≠ x := by
        rintro rfl
        cases hslot.symm.trans hy
        exact hv.ne_slot _ rfl
      rw [hslots, if_neg hne]
      exact hy
    have hwritten : written name a.frame.stack v = some value := by
      rw [readTarget, hown] at hvalue
      exact hvalue
    have hwired : Wired m'.slot? m'.execution := by
      rw [hexecution]
      exact wired_slot hsound.wired hvalueFree hwrites.2.toSameCells hfree hslots
    have hentry : SameEntry a.frame frame := (entry_withBank _ _ _).trans hwrites.1.toSameEntry
    refine ⟨sound_set hsound ha hentry hstack hm' hkept hwired (by simp) fun y => ?_, hkept⟩
    rw [hnamed]
    show _ = Function.update σ x ((σ x).bind _) y
    rw [← hsound.value x]
    unfold valueOf
    rw [hslots, hslot, hexecution]
    by_cases hy : y = x
    · subst hy
      rw [if_pos rfl, Function.update_self]
      show contentOf execution' value = (contentOf m.execution v).bind _
      rw [contentOf_free hvalueFree, contentOf_free hv]
      exact hwritten.symm
    · rw [if_neg hy, Function.update_of_ne hy, ← hsound.value y]
      unfold valueOf
      cases hyslot : m.slot? y with
      | none => rfl
      | some w => exact contentOf_cells (hsound.wired.slot y w hyslot) hwrites.2.cells
  · -- The variable is in its cell.
    obtain ⟨current, hcurrent⟩ := hsound.wired.live x id hslot
    have hcells : execution'.cells = m.execution.cells.put id value := hwrites.2.cells
    have hslots : ∀ y, m'.slot? y = m.slot? y := fun y => by
      rw [hm']
      exact slot?_same ha hwrites.1 y
    have hkept : ∀ y id, m.slot? y = some (.slot (.cell id)) →
        m'.slot? y = some (.slot (.cell id)) := fun y id hy => (hslots y).trans hy
    have hwritten : written name a.frame.stack current = some value := by
      rw [readTarget, hcurrent] at hvalue
      exact hvalue
    have hwired : Wired m'.slot? m'.execution := by
      rw [hexecution]
      exact wired_cell hsound.wired hvalueFree (hsound.wired.cell id current hcurrent).1 hcells
        hwrites.2.nextCellId hfree hslots
    refine ⟨sound_set hsound ha hwrites.1.toSameEntry hstack hm' hkept hwired (by simp)
      fun y => ?_, hkept⟩
    rw [hnamed]
    show _ = Function.update σ x ((σ x).bind _) y
    rw [← hsound.value x]
    unfold valueOf
    rw [hslots, hslot, hexecution]
    by_cases hy : y = x
    · subst hy
      rw [Function.update_self, hslot]
      show execution'.cells.get? id = (m.execution.cells.get? id).bind _
      rw [hcells, Assoc.get?_put, hcurrent]
      exact hwritten.symm
    · rw [Function.update_of_ne hy, ← hsound.value y]
      unfold valueOf
      cases hyslot : m.slot? y with
      | none => rfl
      | some w =>
        rcases hsound.wired.slot y w hyslot with hw | ⟨id', rfl⟩
        · exact (contentOf_free hw _).trans (contentOf_free hw _).symm
        · have hne : id' ≠ id := by
            rintro rfl
            exact hy (hsound.wired.unique y x id' hyslot hslot)
          show execution'.cells.get? id' = m.execution.cells.get? id'
          rw [hcells, Assoc.get?_put_ne _ _ hne]
  · -- A global.
    have hslots : ∀ y, m'.slot? y = m.slot? y := fun y => by
      rw [hm']
      exact slot?_same ha hwrites.1 y
    have hsame : SameCells m.execution m'.execution := by
      rw [hexecution]
      exact ⟨hwrites.2.cells, hwrites.2.nextCellId⟩
    have hkept : ∀ y id, m.slot? y = some (.slot (.cell id)) →
        m'.slot? y = some (.slot (.cell id)) := fun y id hy => (hslots y).trans hy
    have hwired : Wired m'.slot? m'.execution :=
      hsound.wired.congr hslots hsame (by rw [hexecution]; exact hfree)
    refine ⟨sound_set hsound ha hwrites.1.toSameEntry hstack hm' hkept hwired (by simp)
      fun y => ?_, hkept⟩
    rw [hnamed, valueOf_congr hslots hsame hsound.wired.slot]
    exact hsound.value y

omit [Value.Platform] in
/-- A reference that was captured in the frame of `a` is that of the variable it stands for. -/
theorem refers_originOf {captured : Frame} (hsound : Sound m σ) (ha : m.entered[f]? = some a)
    (hentry : SameEntry a.frame captured)
    (hkept : ∀ x id, m.slot? x = some (.slot (.cell id)) → m'.slot? x = some (.slot (.cell id)))
    (hslots : ∀ bank index, m'.slot? ⟨f, bank, index⟩ = captured.slot? bank index)
    {closureVar : Closure} {reference : SlotRef} (h : RefersTo captured closureVar reference) :
    Refers m' (originOf f a closureVar) reference := by
  unfold RefersTo at h
  unfold originOf
  generalize closureVar.closureType = type at h ⊢
  match type, h with
  | 0, h =>
    obtain ⟨id, hid, hslot⟩ := h
    rw [hentry.function, ← hslots] at hslot
    exact ⟨id, hid, hslot⟩
  | 1, h =>
    obtain ⟨id, hid, hslot⟩ := h
    rw [← hslots] at hslot
    exact ⟨id, hid, hslot⟩
  | 2, h =>
    rw [hentry.closureRefs] at h
    obtain ⟨origin, horigin, hrefers⟩ :=
      exists_right (hsound.frames a (List.mem_of_getElem? ha)) h
    show Refers m' (a.origins.getD closureVar.varIdx _) reference
    rw [List.getD_eq_getElem?_getD, horigin]
    exact hrefers.of_kept hkept
  | _ + 3, h => exact h

theorem sound_captures (hsound : Sound m σ) (ha : m.entered[f]? = some a)
    (hname : name ∈ captureOps)
    (hcaptures : Captures (closureFunction name operands a.frame) a.frame (charged m.execution)
    action) (hframe : action.frame? = some frame) (hstack : FreeStack frame.stack)
    (hm' : m' = ⟨m.entered.set f { a with frame }, m.captures ++ created f a name operands
    (charged m.execution), action.execution⟩) :
    Sound m' (store σ m (.instruction f name operands arguments reply action)) ∧
      ∀ x id, m.slot? x = some (.slot (.cell id)) → m'.slot? x = some (.slot (.cell id)) := by
  have hnot : name ∉ writingOps := fun h => (writing_facts name h).2 hname
  obtain ⟨captured, execution₁, hsame, -, hcells, hcapture⟩ := hcaptures
  have hpromotes : Promotes a.frame m.execution captured execution₁ := by
    cases hfunction : closureFunction name operands a.frame with
    | none =>
      rw [hfunction] at hcapture
      obtain ⟨rfl, rfl⟩ := hcapture
      exact promotes_of_charged (.refl _ _)
    | some function =>
      rw [hfunction] at hcapture
      obtain ⟨references, hreferences⟩ := hcapture
      exact promotes_of_charged (captureReferences_ok hreferences).1
  have hslots : ∀ x, m'.slot? x =
      if x.activation = f then captured.slot? x.bank x.index else m.slot? x := fun x => by
    rw [hm', slot?_set ha, (hsame frame hframe).slot?]
  have hexecution : m'.execution = action.execution := by rw [hm']
  have hcells' : SameCells execution₁ m'.execution := by
    rw [hexecution]
    exact hcells.toSameCells
  have hglobals : m'.execution.globals = m.execution.globals := by
    rw [hexecution, hcells.globals, hpromotes.globals]
  have hkept := kept_promotes hsound.wired ha hpromotes hcells' hslots
  rw [store_of_not_writing hnot]
  refine ⟨sound_set hsound ha (hpromotes.entry.trans (hsame frame hframe).toSameEntry) hstack hm'
    hkept (wired_promotes hsound.wired ha hpromotes hcells' hslots hglobals) (fun c hc => ?_)
    fun x => ?_, hkept⟩
  · unfold created at hc
    cases hfunction : closureFunction name operands a.frame with
    | none =>
      rw [hfunction] at hc
      cases hc
    | some function =>
      rw [hfunction] at hc hcapture
      obtain ⟨references, hreferences⟩ := hcapture
      simp only [hreferences, List.mem_singleton] at hc
      subst hc
      refine List.forall₂_map_left_iff.2 ((captureReferences_ok hreferences).2.imp fun _ _ h => ?_)
      exact refers_originOf hsound ha hpromotes.entry hkept
        (fun bank index => (hslots _).trans (if_pos rfl)) h
  · rw [← hsound.value x]
    exact content_promotes hsound.wired ha hpromotes hcells' hslots x

omit [Value.Platform] in
theorem closureFunction_none (hname : name ∉ captureOps) (operands : List Operand) (frame : Frame) :
    closureFunction name operands frame = none := by
  unfold closureFunction
  split
  case h_5 => rfl
  all_goals exact absurd (by decide) hname

omit [Value.Platform] in
theorem sound_same (hsound : Sound m σ) (ha : m.entered[f]? = some a)
    (hsame : SameVariables a.frame frame) (hstack : FreeStack frame.stack)
    (hcells : SameCells m.execution execution') (hglobals : FreeGlobals m.execution execution')
    (hm' : m' = ⟨m.entered.set f { a with frame }, m.captures ++ [], execution'⟩) : Sound m' σ ∧
      ∀ x id, m.slot? x = some (.slot (.cell id)) → m'.slot? x = some (.slot (.cell id)) := by
  have hslots : ∀ y, m'.slot? y = m.slot? y := fun y => by
    rw [hm']
    exact slot?_same ha hsame y
  have hcells' : SameCells m.execution m'.execution := by
    rw [hm']
    exact hcells
  have hkept : ∀ y id, m.slot? y = some (.slot (.cell id)) →
      m'.slot? y = some (.slot (.cell id)) := fun y id hy => (hslots y).trans hy
  have hwired : Wired m'.slot? m'.execution :=
    hsound.wired.congr hslots hcells' (by rw [hm']; exact wired_globals hsound.wired hglobals)
  refine ⟨sound_set hsound ha hsame.toSameEntry hstack hm' hkept hwired (by simp) fun y => ?_, hkept⟩
  rw [valueOf_congr hslots hcells' hsound.wired.slot]
  exact hsound.value y

omit [Value.Platform] in
theorem slot?_enter (b : Activation) (x : Binding) :
    Activations.slot? ⟨m.entered ++ [b], m.captures, m.execution⟩ x =
      if x.activation = m.entered.length then b.frame.slot? x.bank x.index else m.slot? x := by
  unfold Activations.slot?
  dsimp only
  rw [List.getElem?_append]
  by_cases hnew : x.activation = m.entered.length
  · rw [if_pos hnew, hnew, if_neg (lt_irrefl _), Nat.sub_self]
    rfl
  · rw [if_neg hnew]
    split
    · rfl
    · have hnone : m.entered[x.activation]? = none := List.getElem?_eq_none (by omega)
      have hnone' : [b][x.activation - m.entered.length]? = none :=
        List.getElem?_eq_none (by simp only [List.length_singleton]; omega)
      rw [hnone, hnone']

variable {function : Function} {values : List Value}

omit [Value.Platform] in
theorem slotFree_newFrame {callable this : Value} {references : List SlotRef}
    (hvalues : FreeStack values) {bank : Bank} {index : ℕ}
    (h : (newFrame function callable values this references).slot? bank index = some v) :
    SlotFree v := by
  have hmem := List.mem_of_getElem? h
  cases bank with
  | locals =>
    rw [List.eq_of_mem_replicate hmem]
    exact .leaf rfl
  | args =>
    rcases List.mem_append.1 hmem with hmem | hmem
    · exact hvalues v hmem
    · rw [List.eq_of_mem_replicate hmem]
      exact .leaf rfl

theorem sound_enter (hsound : Sound m σ) {capture : Capture}
    (hcapture : capture ∈ ⟨[], []⟩ :: m.captures) {callable this : Value}
    (hvalues : FreeStack values) (hcallable : SlotFree callable) (hthis : SlotFree this)
    (hconstants : FreeStack function.constants)
    (hm' : m' = ⟨m.entered ++ [⟨newFrame function callable values this capture.references,
    capture.origins⟩], m.captures, m.execution⟩) :
    Sound m' (store σ m (.enter capture function callable values this)) ∧
      ∀ x id, m.slot? x = some (.slot (.cell id)) → m'.slot? x = some (.slot (.cell id)) := by
  have hslots : ∀ x, m'.slot? x = if x.activation = m.entered.length then
      (newFrame function callable values this capture.references).slot? x.bank x.index
      else m.slot? x := fun x => by
    rw [hm']
    exact slot?_enter _ x
  have hexecution : m'.execution = m.execution := by rw [hm']
  have hkept : ∀ x id, m.slot? x = some (.slot (.cell id)) →
      m'.slot? x = some (.slot (.cell id)) := fun x id hx => by
    rw [hm']
    exact slot?_append hx _ _ _
  have hold : ∀ x id, m'.slot? x = some (.slot (.cell id)) →
      m.slot? x = some (.slot (.cell id)) := by
    intro x id hx
    rw [hslots] at hx
    split at hx
    · exact absurd rfl ((slotFree_newFrame hvalues hx).ne_slot _)
    · exact hx
  have hrefers : List.Forall₂ (Refers m) capture.origins capture.references := by
    rcases List.mem_cons.1 hcapture with rfl | hmem
    · exact .nil
    · exact hsound.closures capture hmem
  refine ⟨⟨fun b hb => ?_, ⟨fun x v hx => ?_, ?_, ?_, fun x id hx => ?_, fun x y id hx hy => ?_⟩,
    fun b hb => ?_, fun c hc => ?_, fun x => ?_⟩, hkept⟩
  · rw [hm'] at hb
    rcases List.mem_append.1 hb with hmem | hmem
    · exact hsound.tidy b hmem
    · rw [List.mem_singleton] at hmem
      subst hmem
      exact ⟨fun _ h => (by cases h), hthis, hcallable, hconstants⟩
  · rw [hslots] at hx
    split at hx
    · exact .inl (slotFree_newFrame hvalues hx)
    · exact hsound.wired.slot x v hx
  · rw [hexecution]
    exact hsound.wired.cell
  · rw [hexecution]
    exact hsound.wired.global
  · rw [hexecution]
    exact hsound.wired.live x id (hold x id hx)
  · exact hsound.wired.unique x y id (hold x id hx) (hold y id hy)
  · rw [hm'] at hb
    rcases List.mem_append.1 hb with hmem | hmem
    · exact (hsound.frames b hmem).imp fun _ _ h => h.of_kept hkept
    · rw [List.mem_singleton] at hmem
      subst hmem
      exact hrefers.imp fun _ _ h => h.of_kept hkept
  · rw [hm'] at hc
    exact (hsound.closures c hc).imp fun _ _ h => h.of_kept hkept
  · unfold valueOf
    show _ = if x.activation = m.entered.length then _ else σ x
    rw [hslots, hexecution]
    split
    · cases hx : (newFrame function callable values this capture.references).slot? x.bank x.index with
      | none => rfl
      | some v => exact contentOf_free (slotFree_newFrame hvalues hx) _
    · exact hsound.value x

theorem supplied_of_sound (hparsed : ∀ s, SlotFree (Value.Platform.parseNumber s))
    (hsound : Sound m σ) (ha : m.entered[f]? = some a)
    (hallowed : Allowed m (.instruction f name operands arguments reply action))
    (hfree : ¬Hands m (.instruction f name operands arguments reply action) →
      Free (.instruction f name operands arguments reply action)) :
    Supplied a.frame reply ∧ Held a.frame (charged m.execution) := by
  have htidy := hsound.tidy a (List.mem_of_getElem? ha)
  have hanswer : FreeStack (Interpreter.given reply.answer) := by
    refine hfree ?_
    rintro ⟨b, hb, hraw⟩
    cases ha.symm.trans hb
    rcases hraw with hstack | hraw
    · exact hstack htidy.stack
    · exact hraw (hallowed a ha)
  refine ⟨⟨htidy.stack, htidy.this, htidy.callable, htidy.constants, hanswer, hparsed⟩,
    ⟨fun bank index v hv => ?_, fun id v hv => (hsound.wired.cell id v hv).2, hsound.wired.global⟩⟩
  rw [← slot?_eq ha] at hv
  rcases hsound.wired.slot _ v hv with hv | ⟨id, hv⟩
  · exact .inl hv
  · exact .inr ⟨.cell id, hv⟩

/-- **One event** of a run keeps the invariant, and every slot that has a cell keeps it. -/
theorem sound_step [AtomTable] (hparsed : ∀ s, SlotFree (Value.Platform.parseNumber s))
    {event : Event W} (hsound : Sound m σ) (hstep : Step m event m') (hallowed : Allowed m event)
    (hfree : ¬Hands m event → Free event) : Sound m' (store σ m event) ∧
      ∀ x id, m.slot? x = some (.slot (.cell id)) → m'.slot? x = some (.slot (.cell id)) := by
  cases hstep with
  | @instruction f a name operands arguments reply action ha hcurrent hexecute =>
    rw [executeCurrent_eq hcurrent] at hexecute
    obtain ⟨hsupplied, hheld⟩ := supplied_of_sound hparsed hsound ha hallowed hfree
    obtain ⟨hstacks, hglobals⟩ :=
      alwaysFree_execute hsupplied hheld name operands arguments action hexecute
    rcases execute_effect hexecute with ⟨hkeeps, hcapture, hreads⟩ |
      ⟨haccessor, frame', execution', rfl, hassigns⟩ | ⟨hcapture, hcaptures⟩
    · have hstack : FreeStack (action.frame?.getD a.frame).stack := by
        cases hframe : action.frame? with
        | none => exact hsupplied.stack
        | some frame' => exact hstacks frame' hframe
      rw [store_of_not_writing hreads]
      refine sound_same hsound ha (keeps_activation hkeeps) hstack
        ⟨hkeeps.execution.cells, hkeeps.execution.nextCellId⟩ hglobals ?_
      unfold created
      rw [closureFunction_none hcapture]
    · have hcapture : name ∉ captureOps := by
        obtain ⟨-, -, -, -, -, hwriting, -⟩ := hassigns
        exact (writing_facts name hwriting).2
      refine sound_assigns hparsed hsound ha hassigns (hstacks frame' rfl) hglobals ?_
      unfold created
      rw [closureFunction_none hcapture]
      rfl
    · obtain ⟨-, -, -, -, hsome, -⟩ := hcaptures.promotes
      obtain ⟨frame', hframe⟩ := Option.isSome_iff_exists.1 hsome
      refine sound_captures hsound ha hcapture hcaptures hframe (hstacks frame' hframe) ?_
      rw [hframe]
      rfl
  | enter function callable values this hcapture =>
    obtain ⟨hvalues, hcallable, hthis, hconstants⟩ := hfree fun h => h
    exact sound_enter hsound hcapture hvalues hcallable hthis hconstants rfl
  | @resume f a frame ha hsame =>
    refine sound_same hsound ha hsame (hfree fun h => h) (.refl _) (.inl rfl) ?_
    rw [List.append_nil]
  | @environment execution hsame =>
    have hwired : Wired m.slot? execution :=
      hsound.wired.congr (fun _ => rfl) hsame (hfree fun h => h)
    refine ⟨⟨hsound.tidy, hwired, hsound.frames, hsound.closures, fun x => ?_⟩, fun _ _ h => h⟩
    exact (@valueOf_congr _ m ⟨m.entered, m.captures, execution⟩ (fun _ => rfl) hsame
      hsound.wired.slot x).trans (hsound.value x)

end Steps

/-! ### Reads -/

section Reads

variable [Value.Platform] [AtomTable] {m : Activations W} {σ : Store} {f : ℕ} {a : Activation}
  {frame : Frame} {execution : State W} {name : Op} {index : ℤ} {v w : Value} {arguments : Answer}
  {reply : Reply W}

theorem execute_getArg (h : bindingValue .getArg index frame execution = some v) :
    Interpreter.execute .getArg [.int index] frame execution arguments reply =
      .ok (push frame execution v) := by
  obtain ⟨hindex, place, target, hplace, htarget, hread⟩ := place_of_bindingValue h
  rw [placeOf_nonneg hindex, if_pos (by decide)] at hplace
  cases hplace
  obtain ⟨slot, hslot, hvalue⟩ := @readSlot_of_target _ frame _ _ _ .args _ hindex htarget hread
  have hlt : index < frame.args.length := by
    have hlt := (List.getElem?_eq_some_iff.1 (slot?_of_elem hslot).2).1
    change index.toNat < frame.args.length at hlt
    omega
  have hget : tupleGet frame.args index = .ok slot := by
    rw [tupleGet, if_pos hlt]
    exact hslot
  have hcompact : executeCompact .getArg [.int index] frame.args frame.locals frame.stack execution =
      .ok ⟨frame.args, frame.locals, v :: frame.stack, execution⟩ := by
    show (tupleGet frame.args index >>= fun slot => _) = _
    rw [hget]
    show (readSlot slot execution >>= fun value => _) = _
    rw [hvalue]
    rfl
  rw [execute_local (by decide), execute_compact (by decide), hcompact]
  rfl

theorem execute_getLoc0Loc1 {first second : ℕ}
    (hfirst : bindingValue .getLoc first frame execution = some v)
    (hsecond : bindingValue .getLoc second frame execution = some w) :
    Interpreter.execute .getLoc0Loc1 [.int first, .int second] frame execution arguments reply =
      .ok (.next ((frame.push w).push v) execution) := by
  obtain ⟨slot, hslot, hread⟩ := readSlot_of_bindingValue (by decide) (by decide) hfirst
  obtain ⟨slot', hslot', hread'⟩ := readSlot_of_bindingValue (by decide) (by decide) hsecond
  have hcompact : executeCompact .getLoc0Loc1 [.int first, .int second] frame.args frame.locals
      frame.stack execution = .ok ⟨frame.args, frame.locals, v :: w :: frame.stack, execution⟩ := by
    show (elem frame.locals first >>= fun slot => _) = _
    rw [hslot]
    show (readSlot slot execution >>= fun value => _) = _
    rw [hread]
    show (elem frame.locals second >>= fun slot => _) = _
    rw [hslot']
    show (readSlot slot' execution >>= fun value => _) = _
    rw [hread']
    rfl
  unfold Interpreter.execute
  rw [if_neg (by decide), if_neg (by decide), if_pos (by decide), execute_compact (by decide),
    hcompact]
  rfl

theorem execute_reading (hname : name ∈ readingOps)
    (h : bindingValue name index frame execution = some v) :
    Interpreter.execute name [.int index] frame execution arguments reply =
      .ok (if name ∈ checkedReadOps then checked v frame execution else push frame execution v) := by
  rcases List.mem_append.1 hname with hslot | hreference
  · fin_cases hslot
    · exact execute_getArg h
    · exact execute_getLoc h
    · exact execute_getLocCheck h
  · rw [execute_getReference hreference h]
    have hiff : name = .getVarRefCheck ↔ name ∈ checkedReadOps := by
      fin_cases hreference <;> decide
    simp only [hiff]

theorem refines_of_sound (h : Sound m σ) : Refines m σ where
  __ := h
  read f a name index x v ha hname hnamed hv arguments reply :=
    execute_reading hname (bindingValue_of_named h ha hnamed ((h.value x).trans hv))
  readBoth f a first second v w ha hv hw arguments reply := by
    have hnamed : ∀ i : ℕ, named f a .getLoc i = some (.captured ⟨f, .locals, i⟩) := fun i => by
      rw [named, placeOf_nonneg (by omega), if_neg (by decide), if_pos (by decide)]
      rfl
    exact execute_getLoc0Loc1 (bindingValue_of_named h ha (hnamed first) ((h.value _).trans hv))
      (bindingValue_of_named h ha (hnamed second) ((h.value _).trans hw))

end Reads

/-! ### Runs -/

section Runs

variable [Value.Platform] [AtomTable]

theorem sound_of_run (hparsed : ∀ s, SlotFree (Value.Platform.parseNumber s)) {m : Activations W}
    {σ : Store} (h : Run m σ) : Sound m σ := by
  induction h with
  | @start m hentered hcaptures hcells hglobals =>
    have hslot : ∀ x, m.slot? x = none := fun x => by
      unfold Activations.slot?
      rw [hentered]
      rfl
    refine ⟨fun a ha => ?_, ⟨fun x v hx => ?_, fun id v hv => ?_, hglobals, fun x id hx => ?_,
      fun x y id hx => ?_⟩, fun a ha => ?_, fun c hc => ?_, fun x => ?_⟩
    · rw [hentered] at ha
      cases ha
    · rw [hslot] at hx
      cases hx
    · rw [hcells] at hv
      cases hv
    · rw [hslot] at hx
      cases hx
    · rw [hslot] at hx
      cases hx
    · rw [hentered] at ha
      cases ha
    · rw [hcaptures] at hc
      cases hc
    · unfold valueOf
      rw [hslot]
      rfl
  | step hrun hstep hallowed hfree ih => exact (sound_step hparsed ih hstep hallowed hfree).1

/-- **Closures share the variables that they capture**: in a run in which `rest` and `init_ctor`
hand out no argument that has a cell, a variable gets one cell at most and keeps it, every closure
over it and its frame refer to that cell, no two variables have the same, and a read gives what was
written last. -/
theorem shared_and_refines (hparsed : ∀ s, SlotFree (Value.Platform.parseNumber s))
    {m : Activations W} {σ : Store} (h : Run m σ) :
    Shared m ∧ Refines m σ ∧ ∀ event m', Step m event m' → Allowed m event →
      (¬Hands m event → Free event) → ∀ x id, m.slot? x = some (.slot (.cell id)) →
        m'.slot? x = some (.slot (.cell id)) :=
  have hsound := sound_of_run hparsed h
  ⟨shared_of_sound hsound, refines_of_sound hsound, fun _ _ hstep hallowed hfree =>
    (sound_step hparsed hsound hstep hallowed hfree).2⟩

end Runs

/-! ### A class without a constructor of its own -/

/-- `() => x`, where `x` is the first argument of the function around it. -/
def innerFunction : Function where
  id := 1
  argCount := 0
  varCount := 0
  definedArgCount := 0
  stackSize := 1
  varRefCount := 0
  locals := []
  closureVars := [⟨[120], 0, 1⟩]
  instructions := [(41, [])]
  sourcePositions := []
  hasPrototype := false
  funcKind := 0
  constants := []

/-- `fclosure8 0` captures the first argument; `init_ctor` hands the arguments on. -/
def derivedFunction : Function where
  id := 0
  argCount := 1
  varCount := 0
  definedArgCount := 1
  stackSize := 1
  varRefCount := 0
  locals := []
  closureVars := []
  instructions := [(197, [.int 0]), (44, []), (41, [])]
  sourcePositions := []
  hasPrototype := true
  funcKind := 0
  constants := [.function innerFunction]

def derivedFrame : Frame :=
  newFrame derivedFunction (.reference 0) [.int 5] .undefined []

def capturedFrame : Frame :=
  { derivedFrame with
    args := [.slot (.cell 0)]
    stack := [.reference 1] }

def capturedState : State Unit :=
  { charged letState with
    cells := (∅ : Assoc ℕ Value).put 0 (.int 5)
    nextCellId := 1 }

def entering : Event Unit := .enter ⟨[], []⟩ derivedFunction (.reference 0) [.int 5] .undefined

def entered : Activations Unit := ⟨[⟨derivedFrame, []⟩], [], letState⟩

def capturing : Event Unit :=
  .instruction 0 .fclosure8 [.int 0] (.error .undefined) ⟨.value (.reference 1), (), false⟩
    (.next capturedFrame capturedState)

def captured : Activations Unit :=
  ⟨[⟨capturedFrame, []⟩], [⟨[.cell 0], [.captured ⟨0, .args, 0⟩]⟩], capturedState⟩

theorem step_entering :
    @Step Unit Value.noNumbers ⟨fun _ => none⟩ ⟨[], [], letState⟩ entering entered :=
  @Step.enter _ Value.noNumbers ⟨fun _ => none⟩ _ ⟨[], []⟩ derivedFunction (.reference 0) [.int 5]
    .undefined (List.mem_singleton_self _)

theorem step_capturing :
    @Step Unit Value.noNumbers ⟨fun _ => none⟩ entered capturing captured :=
  @Step.instruction _ Value.noNumbers ⟨fun _ => none⟩ entered 0 ⟨derivedFrame, []⟩ .fclosure8
    [.int 0] (.error .undefined) ⟨.value (.reference 1), (), false⟩ (.next capturedFrame capturedState)
    rfl ⟨197, [.int 0], .fclosure8, _, rfl, rfl, rfl⟩ rfl

/-- The variable is captured in a run. -/
theorem shared_and_refines_captured :
    @Run Unit Value.noNumbers ⟨fun _ => none⟩ captured
        (@store _ Value.noNumbers (@store _ Value.noNumbers (fun _ => none) ⟨[], [], letState⟩ entering)
          entered capturing) ∧ Shared captured := by
  have hstart : @Run Unit Value.noNumbers ⟨fun _ => none⟩ ⟨[], [], letState⟩ fun _ => none :=
    @Run.start _ Value.noNumbers ⟨fun _ => none⟩ _ rfl rfl rfl fun _ _ h => (by cases h)
  have hentered := @Run.step _ Value.noNumbers ⟨fun _ => none⟩ _ _ _ _ hstart step_entering trivial
    fun _ => ⟨fun v hv => (by rw [List.mem_singleton.1 hv]; exact .leaf rfl), .leaf rfl, .leaf rfl,
      fun v hv => (by rw [List.mem_singleton.1 hv]; exact .leaf rfl)⟩
  have hcaptured := @Run.step _ Value.noNumbers ⟨fun _ => none⟩ _ _ _ _ hentered step_capturing
    (fun a ha => ⟨fun first h => (by cases h), fun h => (by cases h)⟩)
    fun _ v hv => (by rw [List.mem_singleton.1 hv]; exact .leaf rfl)
  exact ⟨hcaptured,
    (@shared_and_refines _ Value.noNumbers ⟨fun _ => none⟩ (fun _ => .leaf rfl) _ _ hcaptured).1⟩

/-- The frame at `init_ctor`. -/
def passingFrame : Frame := { capturedFrame with pc := 1 }

def parentFrame : Frame := newFrame derivedFunction (.reference 2) [.slot (.cell 0)] (.reference 3) []

/-- `init_ctor` hands the cell of the argument to the parent constructor: a variable of another
activation has the same cell. -/
theorem initCtor_shares :
    @Step Unit Value.noNumbers ⟨fun _ => none⟩ ⟨[], [], letState⟩ entering entered ∧
    @Step Unit Value.noNumbers ⟨fun _ => none⟩ entered capturing captured ∧
    @Step Unit Value.noNumbers ⟨fun _ => none⟩ captured (.resume 0 passingFrame)
      { captured with entered := [⟨passingFrame, []⟩] } ∧
    @Step Unit Value.noNumbers ⟨fun _ => none⟩ { captured with entered := [⟨passingFrame, []⟩] }
      (.instruction 0 .initCtor [] (.error .undefined)
        ⟨.construct (.reference 2) (.reference 3), (), false⟩
        (.invokeConstructor (.reference 2) [.slot (.cell 0)] (.reference 3) passingFrame
          (charged capturedState)))
      ⟨[⟨passingFrame, []⟩], captured.captures, charged capturedState⟩ ∧
    @Step Unit Value.noNumbers ⟨fun _ => none⟩
      ⟨[⟨passingFrame, []⟩], captured.captures, charged capturedState⟩
      (.enter ⟨[], []⟩ derivedFunction (.reference 2) [.slot (.cell 0)] (.reference 3))
      ⟨[⟨passingFrame, []⟩, ⟨parentFrame, []⟩], captured.captures, charged capturedState⟩ ∧
    ¬Shared (⟨[⟨passingFrame, []⟩, ⟨parentFrame, []⟩], captured.captures,
      charged capturedState⟩ : Activations Unit) := by
  refine ⟨step_entering, step_capturing, ?_, ?_, ?_, fun h => ?_⟩
  · exact @Step.resume _ Value.noNumbers ⟨fun _ => none⟩ captured 0 ⟨capturedFrame, []⟩ passingFrame rfl
      ⟨⟨rfl, rfl, rfl, rfl, rfl⟩, rfl, rfl⟩
  · exact @Step.instruction _ Value.noNumbers ⟨fun _ => none⟩
      { captured with entered := [⟨passingFrame, []⟩] } 0 ⟨passingFrame, []⟩ .initCtor []
      (.error .undefined) ⟨.construct (.reference 2) (.reference 3), (), false⟩
      (.invokeConstructor (.reference 2) [.slot (.cell 0)] (.reference 3) passingFrame
        (charged capturedState)) rfl ⟨44, [], .initCtor, _, rfl, rfl, rfl⟩ rfl
  · exact @Step.enter _ Value.noNumbers ⟨fun _ => none⟩ _ ⟨[], []⟩ derivedFunction (.reference 2)
      [.slot (.cell 0)] (.reference 3) (List.mem_cons_self ..)
  · cases h.unique ⟨0, .args, 0⟩ ⟨1, .args, 0⟩ 0 rfl rfl

end QuickBeam.Vm.Runtime.SharedBindings
