import QuickBeam.Vm.Runtime.HeapInvariant
import QuickBeam.Vm.Runtime.State

/-!
# Global bindings (`opcode/local.ex`, `property.ex`)

A global is kept twice: in the map of globals and as a property of the global object.  Variables
read the property first and write both; closure references read and write the map alone;
`globalThis.name` reads the property, then the map, and writes and deletes the property alone.
`global_coherence` says after which operations all routes agree.
-/

namespace QuickBeam.Vm.Runtime

open QuickBeam.Lib QuickBeam.Vm.Program

namespace Global

/-! ### The routes -/

def globalThis : Binary := .ofString "globalThis"

def globalObject : Value := .atom "global_object"

def missingReferenceProperty (s : State Heap) (id : ℕ) (key : Value) (missing : Heap.Read) :
    Heap.Read :=
  match s.world.objects.get? id with
  | none => missing
  | some object =>
      if object.internal = some globalObject then
        match key with
        | .string name => ((s.globals.get? name).map Heap.Read.value).getD missing
        | _ => missing
      else if object.kind = .regexp then
        match key with
        | .string name =>
            if name ∈ [.ofString "exec", .ofString "test"] then
              .value (.primitiveMethod "regexp" name)
            else missing
        | _ => missing
      else missing

def propertyGet (s : State Heap) (id : ℕ) (key : Value) : Except HeapError Heap.Read :=
  match s.world.get id key with
  | .ok (.value .undefined) => .ok (missingReferenceProperty s id key (.value .undefined))
  | result => result

def propertyPut (s : State Heap) (id : ℕ) (key value : Value) : Except HeapError (State Heap) := do
  let world ← s.world.put id key value
  pure { s with world }

def propertyDelete (s : State Heap) (id : ℕ) (key : Value) :
    Except HeapError (Bool × State Heap) := do
  let (deleted, world) ← s.world.delete id key
  pure (deleted, { s with world })

def readGlobal (s : State Heap) (name : Binary) : Option Heap.Read :=
  match s.globals.get? globalThis with
  | some (.reference id) =>
      match propertyGet s id (.string name) with
      | .ok (.value .undefined) => (s.globals.get? name).map .value
      | .ok read => some read
      | .error _ => (s.globals.get? name).map .value
  | _ => (s.globals.get? name).map .value

/-- `write_global/3`: of `put_var`, `put_var_init` and `define_func`. -/
def writeGlobal (s : State Heap) (name : Binary) (value : Value) : State Heap :=
  let s := { s with globals := s.globals.put name value }
  match s.globals.get? globalThis with
  | some (.reference id) =>
      match propertyPut s id (.string name) value with
      | .ok s => s
      | .error _ => s
  | _ => s

/-- `read_reference/2`; `none` where a cell is missing. -/
def readReference (s : State Heap) : SlotRef → Option Value
  | .cell id => s.cells.get? id
  | .global name => some ((s.globals.get? name).getD .undefined)

def writeReference (s : State Heap) (value : Value) : SlotRef → State Heap
  | .cell id => { s with cells := s.cells.put id value }
  | .global name => { s with globals := s.globals.put name value }

/-! ### Writes and what was written last -/

/-- An operation on a global name. -/
inductive Route where
  | putVar (value : Value)
  | writeReference (value : Value)
  | assign (value : Value)
  | delete

/-- One operation, with the value written last: `none` after a deletion, unchanged when the
global object refuses. -/
def execute (id : ℕ) (name : Binary) (s : State Heap × Option Value) :
    Route → State Heap × Option Value
  | .putVar value => (writeGlobal s.1 name value, some value)
  | .writeReference value => (writeReference s.1 value (.global name), some value)
  | .assign value =>
      match propertyPut s.1 id (.string name) value with
      | .ok s' => (s', some value)
      | .error _ => s
  | .delete =>
      match propertyDelete s.1 id (.string name) with
      | .ok (true, s') => (s', none)
      | _ => s

/-- The operations on the global `name`, where `id` is the global object. -/
def machine (id : ℕ) (name : Binary) : Machine (State Heap × Option Value) Route :=
  ⟨fun _ => True, fun s route => some (execute id name s route)⟩

/-- Every route reads the value written last; a name that is not bound is a reference error for
a variable and `undefined` for the others. -/
structure Coherent (s : State Heap) (id : ℕ) (name : Binary) (current : Option Value) : Prop where
  variable_ : readGlobal s name = current.map .value
  reference : readReference s (.global name) = some (current.getD .undefined)
  property : propertyGet s id (.string name) = .ok (.value (current.getD .undefined))

/-- The object that `globalThis` is bound to, with a prototype chain that does not lead back. -/
structure IsGlobalObject (s : State Heap) (id : ℕ) : Prop where
  bound : s.globals.get? globalThis = some (.reference id)
  object : ∃ object, s.world.objects.get? id = some object ∧ object.kind = .ordinary ∧
    object.internal = some globalObject ∧
    s.world.prototypeContains id (Heap.maxPrototypeDepth + 1) object.prototype = false

/-- The property of the global object is missing, `undefined` or `value`. -/
def Shows (s : State Heap) (id : ℕ) (name : Binary) (value : Value) : Prop :=
  s.world.get id (.string name) = .ok (.value .undefined) ∨
    s.world.get id (.string name) = .ok (.value value)

def inherited (s : State Heap) (id : ℕ) (name : Binary) : Except HeapError Heap.Read :=
  match s.world.objects.get? id with
  | none => .error (.invalidReference id)
  | some object =>
      match object.prototype with
      | none => .ok (.value .undefined)
      | some prototype =>
          s.world.getFrom (normalizeKey (.string name)) id Heap.maxPrototypeDepth prototype

/-- When an operation reaches every route: a variable write when the global object takes it or
does not differ; a closure write when the property does not differ; an assignment to the
property when the map has the value already; a deletion when nothing else has the name. -/
def Lands (id : ℕ) (name : Binary) (s : State Heap) : Route → Prop
  | .putVar value =>
      (∃ world, s.world.put id (.string name) value = .ok world) ∨ Shows s id name value
  | .writeReference value => Shows s id name value
  | .assign value => ∀ world, s.world.put id (.string name) value = .ok world →
      s.globals.get? name = some value
  | .delete => ∀ world, s.world.delete id (.string name) = .ok (true, world) →
      s.globals.get? name = none ∧ inherited s id name = .ok (.value .undefined)

/-! ### What the routes read -/

variable {s : State Heap} {id : ℕ} {name : Binary}

theorem propertyGet_eq (hg : IsGlobalObject s id) :
    propertyGet s id (.string name) =
      match s.world.get id (.string name) with
      | .ok (.value .undefined) =>
          .ok (((s.globals.get? name).map Heap.Read.value).getD (.value .undefined))
      | result => result := by
  obtain ⟨object, hget, -, hinternal, -⟩ := hg.object
  unfold propertyGet missingReferenceProperty
  rw [hget]
  simp only [hinternal, if_true]

variable {value : Value}

theorem propertyGet_of_value (hg : IsGlobalObject s id) (hv : value ≠ .undefined)
    (hget : s.world.get id (.string name) = .ok (.value value)) :
    propertyGet s id (.string name) = .ok (.value value) ∧
      readGlobal s name = some (.value value) := by
  have hproperty : propertyGet s id (.string name) = .ok (.value value) := by
    rw [propertyGet_eq hg, hget]
    split
    · rename_i h
      cases h
      exact absurd rfl hv
    · rfl
  refine ⟨hproperty, ?_⟩
  unfold readGlobal
  rw [hg.bound]
  dsimp only
  rw [hproperty]
  split
  · rename_i h
    cases h
    exact absurd rfl hv
  · rename_i h
    cases h
    rfl
  · rename_i h
    cases h

theorem propertyGet_of_undefined (hg : IsGlobalObject s id)
    (hget : s.world.get id (.string name) = .ok (.value .undefined)) :
    propertyGet s id (.string name) =
        .ok (.value ((s.globals.get? name).getD .undefined)) ∧
      readGlobal s name = (s.globals.get? name).map .value := by
  have hproperty : propertyGet s id (.string name) =
      .ok (.value ((s.globals.get? name).getD .undefined)) := by
    rw [propertyGet_eq hg, hget]
    cases s.globals.get? name <;> rfl
  refine ⟨hproperty, ?_⟩
  unfold readGlobal
  rw [hg.bound]
  dsimp only
  rw [hproperty]
  cases hm : s.globals.get? name with
  | none => rfl
  | some w =>
    split
    · rfl
    · rename_i h
      cases h
      rfl
    · rename_i h
      cases h

/-- A property that reads as a value reads as that value or, when it is `undefined`, as nothing. -/
theorem get_of_propertyGet (hg : IsGlobalObject s id)
    (hp : propertyGet s id (.string name) = .ok (.value value)) :
    s.world.get id (.string name) = .ok (.value .undefined) ∨
      value ≠ .undefined ∧ s.world.get id (.string name) = .ok (.value value) := by
  rw [propertyGet_eq hg] at hp
  split at hp
  · rename_i h
    exact .inl h
  · rename_i hne
    refine .inr ⟨?_, hp⟩
    rintro rfl
    exact hne hp

/-- **A bound name.**  All routes read `value` when the map has it and the property is not
another one. -/
theorem coherent_some_iff (hg : IsGlobalObject s id) : Coherent s id name (some value) ↔
      s.globals.get? name = some value ∧ Shows s id name value := by
  constructor
  · rintro ⟨hvariable, hreference, hproperty⟩
    rcases get_of_propertyGet hg hproperty with hget | ⟨hne, hget⟩
    · rw [(propertyGet_of_undefined hg hget).2] at hvariable
      obtain ⟨w, hw, hread⟩ := Option.map_eq_some_iff.1 hvariable
      cases hread
      exact ⟨hw, .inl hget⟩
    · have hm : (s.globals.get? name).getD .undefined = value := Option.some.inj hreference
      cases hmap : s.globals.get? name with
      | none =>
        rw [hmap] at hm
        exact absurd hm.symm hne
      | some w =>
        rw [hmap] at hm
        exact ⟨congrArg some hm, .inr hget⟩
  · rintro ⟨hm, hshows⟩
    have hreference : readReference s (.global name) = some value := by
      show some ((s.globals.get? name).getD .undefined) = _
      rw [hm]
      rfl
    by_cases hv : value = .undefined
    · have hget : s.world.get id (.string name) = .ok (.value .undefined) := by
        rcases hshows with h | h
        · exact h
        · rw [h, hv]
      obtain ⟨hp, hr⟩ := propertyGet_of_undefined hg hget
      rw [hm] at hp hr
      exact ⟨hr, hreference, hp⟩
    · rcases hshows with hget | hget
      · obtain ⟨hp, hr⟩ := propertyGet_of_undefined hg hget
        rw [hm] at hp hr
        exact ⟨hr, hreference, hp⟩
      · obtain ⟨hp, hr⟩ := propertyGet_of_value hg hv hget
        exact ⟨hr, hreference, hp⟩

/-- **A name that is not bound.** -/
theorem coherent_none_iff (hg : IsGlobalObject s id) :
    Coherent s id name none ↔
      s.globals.get? name = none ∧ s.world.get id (.string name) = .ok (.value .undefined) := by
  constructor
  · rintro ⟨hvariable, -, hproperty⟩
    rcases get_of_propertyGet hg hproperty with hget | ⟨hne, -⟩
    · rw [(propertyGet_of_undefined hg hget).2] at hvariable
      exact ⟨Option.map_eq_none_iff.1 hvariable, hget⟩
    · exact absurd rfl hne
  · rintro ⟨hm, hget⟩
    obtain ⟨hp, hr⟩ := propertyGet_of_undefined hg hget
    rw [hm] at hp hr
    refine ⟨hr, ?_, hp⟩
    show some ((s.globals.get? name).getD .undefined) = _
    rw [hm]

/-! ### What a write does to the property -/

/-- What no write to a property changes. -/
structure SameHead (o o' : Object) : Prop where
  kind : o'.kind = o.kind
  internal : o'.internal = o.internal
  prototype : o'.prototype = o.prototype

theorem sameHead_rememberProperty (o : Object) (key : Key) : SameHead o (o.rememberProperty key) := by
  rw [o.rememberProperty_keeps key]
  exact ⟨rfl, rfl, rfl⟩

theorem sameHead_putDefaultProperty (o : Object) (key : Key) (value : Value) :
    SameHead o (o.putDefaultProperty key value) := by
  rw [o.putDefaultProperty_keeps key value]
  exact ⟨rfl, rfl, rfl⟩

theorem sameHead_putProperty (o : Object) (key : Key) (value : Value) :
    SameHead o (o.putProperty key value) := by
  unfold Object.putProperty
  split
  · exact sameHead_putDefaultProperty o key value
  · unfold Object.putPropertyStruct
    split
    · exact sameHead_putDefaultProperty o key _
    · have h := sameHead_rememberProperty o key
      exact ⟨h.kind, h.internal, h.prototype⟩
  · exact sameHead_putDefaultProperty o key value

theorem properties_putPropertyStruct (o : Object) (key : Key) (property : Descriptor) :
    (o.putPropertyStruct key property).properties.get? key =
      some (if property.isDefault then .default property.value else .full property) := by
  unfold Object.putPropertyStruct
  split
  · rw [o.properties_putDefaultProperty]
    exact Assoc.get?_put ..
  · exact Assoc.get?_put ..

variable {h : Heap} {o : Object}

theorem get_of_data (hget : h.objects.get? id = some o) (hkind : o.kind = .ordinary)
    {key value : Value} {stored : Stored}
    (hstored : o.properties.get? (normalizeKey key) = some stored)
    (hgetter : stored.getter = none) (hsetter : stored.setter = none)
    (hvalue : stored.descriptor.value = value) : h.get id key = .ok (.value value) := by
  have hnot : ¬ (o.kind = .array ∧ normalizeKey key = lengthKey) := by
    rw [hkind]
    rintro ⟨h, -⟩
    cases h
  unfold Heap.get Heap.getFrom
  rw [hget]
  dsimp only
  rw [if_neg hnot, hstored]
  cases stored with
  | default v => rw [← hvalue]; rfl
  | full d =>
    change d.getter = none at hgetter
    change d.setter = none at hsetter
    dsimp only
    rw [hgetter, hsetter, ← hvalue]
    rfl

theorem get_put {h h' : Heap} (hget : h.objects.get? id = some o) (hkind : o.kind = .ordinary)
    {key value : Value} (hput : h.put id key value = .ok h') :
    h'.get id key = .ok (.value value) ∧ ∃ o', h' = h.store id o' ∧ SameHead o o' := by
  obtain ⟨o₁, hfetch, hput⟩ := bind_eq_ok hput
  have ho : o₁ = o := by
    have := Heap.fetchObject_ok hfetch
    rw [hget] at this
    exact (Option.some.inj this).symm
  subst ho
  split at hput
  · rename_i harray _
    rw [hkind] at harray
    cases harray
  · unfold Heap.putObject at hput
    split at hput
    · rename_i harray
      rw [hkind] at harray
      cases harray.1
    · obtain ⟨_, hwritable, hput⟩ := bind_eq_ok hput
      obtain ⟨_, -, hput⟩ := bind_eq_ok hput
      cases hput
      have hhead := sameHead_putProperty o₁ (normalizeKey key) value
      refine ⟨?_, _, rfl, hhead⟩
      have hread (stored : Stored)
          (hs : (o₁.putProperty (normalizeKey key) value).properties.get? (normalizeKey key) =
            some stored) (hg : stored.getter = none) (hset : stored.setter = none)
          (hv : stored.descriptor.value = value) :=
        get_of_data (h := h.store id (o₁.putProperty (normalizeKey key) value))
          (Assoc.get?_put ..) (hhead.kind.trans hkind) hs hg hset hv
      unfold Object.putProperty at hread ⊢
      cases hold : o₁.properties.get? (normalizeKey key) with
      | none =>
        rw [hold] at hread
        refine hread (.default value) ?_ rfl rfl rfl
        dsimp only
        rw [o₁.properties_putDefaultProperty]
        exact Assoc.get?_put ..
      | some stored =>
        rw [hold] at hread hwritable
        cases stored with
        | default v =>
          refine hread (.default value) ?_ rfl rfl rfl
          dsimp only
          rw [o₁.properties_putDefaultProperty]
          exact Assoc.get?_put ..
        | full d =>
          obtain ⟨content, enumerable, configurable⟩ := d
          cases content with
          | data v w =>
            refine hread _ (properties_putPropertyStruct ..) ?_ ?_ ?_
            · split <;> rfl
            · split <;> rfl
            · split <;> rfl
          | accessor g st =>
            cases st with
            | none => cases hwritable
            | some st => cases hwritable

theorem prototypeContains_store (h : Heap) (o : Object) (levels : ℕ) (prototype : Option ℕ) :
    (h.store id o).prototypeContains id levels prototype =
      h.prototypeContains id levels prototype := by
  induction levels generalizing prototype with
  | zero => cases prototype <;> rfl
  | succ levels ih =>
    cases prototype with
    | none => rfl
    | some p =>
      unfold Heap.prototypeContains
      by_cases hp : p = id
      · rw [if_pos hp, if_pos hp]
      · have hget : (h.store id o).objects.get? p = h.objects.get? p := Assoc.get?_put_ne _ _ hp
        rw [if_neg hp, if_neg hp, hget]
        cases h.objects.get? p with
        | none => rfl
        | some object => exact ih object.prototype

theorem getFrom_store (o : Object) (key : Key) (receiver : ℕ) {levels p : ℕ}
    (hp : h.prototypeContains id (levels + 1) (some p) = false) :
    (h.store id o).getFrom key receiver levels p = h.getFrom key receiver levels p := by
  induction levels generalizing p with
  | zero => rfl
  | succ levels ih =>
    unfold Heap.prototypeContains at hp
    split at hp
    · cases hp
    · rename_i hne
      have hget : (h.store id o).objects.get? p = h.objects.get? p := Assoc.get?_put_ne _ _ hne
      unfold Heap.getFrom
      rw [hget]
      cases hobject : h.objects.get? p with
      | none => rfl
      | some object =>
        rw [hobject] at hp
        dsimp only at hp ⊢
        split
        · rfl
        · cases object.properties.get? key with
          | some stored => cases stored <;> rfl
          | none =>
            cases hproto : object.prototype with
            | none => rfl
            | some q =>
              rw [hproto] at hp
              exact ih hp

variable {s : State Heap}

theorem get_delete (hg : IsGlobalObject s id) {world : Heap}
    (hdelete : s.world.delete id (.string name) = .ok (true, world)) :
    world.get id (.string name) = inherited s id name ∧
      ∃ o o', s.world.objects.get? id = some o ∧ world = s.world.store id o' ∧ SameHead o o' := by
  obtain ⟨o, hget, hkind, -, hchain⟩ := hg.object
  obtain ⟨o₁, hfetch, hdelete⟩ := bind_eq_ok hdelete
  have ho : o₁ = o := by
    have := Heap.fetchObject_ok hfetch
    rw [hget] at this
    exact (Option.some.inj this).symm
  subst ho
  split at hdelete
  · cases hdelete
  · cases hdelete
    refine ⟨?_, o₁, _, hget, rfl, rfl, rfl, rfl⟩
    have hnot : ¬ (o₁.kind = .array ∧ normalizeKey (.string name) = lengthKey) := by
      rw [hkind]
      rintro ⟨h, -⟩
      cases h
    unfold Heap.get Heap.getFrom inherited
    rw [show (s.world.store id _).objects.get? id = some _ from Assoc.get?_put .., hget]
    dsimp only
    rw [if_neg hnot, Assoc.get?_delete]
    cases hproto : o₁.prototype with
    | none => rfl
    | some p =>
      rw [hproto] at hchain
      exact getFrom_store _ _ _ hchain

/-! ### The global object stays -/

theorem IsGlobalObject.putGlobal (hg : IsGlobalObject s id) (hne : name ≠ globalThis)
    (value : Value) : IsGlobalObject { s with globals := s.globals.put name value } id :=
  ⟨(Assoc.get?_put_ne _ _ hne.symm).trans hg.bound, hg.object⟩

theorem IsGlobalObject.store {s : State Heap} (hg : IsGlobalObject s id) {o o' : Object}
    (hget : s.world.objects.get? id = some o) (hhead : SameHead o o') :
    IsGlobalObject { s with world := s.world.store id o' } id := by
  obtain ⟨o₁, hget₁, hkind, hinternal, hchain⟩ := hg.object
  rw [hget] at hget₁
  cases hget₁
  refine ⟨hg.bound, o', Assoc.get?_put .., hhead.kind.trans hkind,
    hhead.internal.trans hinternal, ?_⟩
  rw [hhead.prototype]
  exact (prototypeContains_store ..).trans hchain

/-! ### One operation -/

theorem writeGlobal_eq (hg : IsGlobalObject s id) (hne : name ≠ globalThis) (value : Value) :
    writeGlobal s name value =
      match s.world.put id (.string name) value with
      | .ok world => { s with globals := s.globals.put name value, world }
      | .error _ => { s with globals := s.globals.put name value } := by
  unfold writeGlobal
  dsimp only
  rw [Assoc.get?_put_ne _ _ hne.symm, hg.bound]
  dsimp only [propertyPut]
  cases s.world.put id (.string name) value <;> rfl

/-- **A variable write** reaches every route unless the global object refuses it and reads as
another value. -/
theorem putVar_iff (hg : IsGlobalObject s id) (hne : name ≠ globalThis) (value : Value) :
    IsGlobalObject (writeGlobal s name value) id ∧
      (Coherent (writeGlobal s name value) id name (some value) ↔
        Lands id name s (.putVar value)) := by
  obtain ⟨o, hget, hkind, -, -⟩ := hg.object
  have hg₁ := hg.putGlobal hne value
  rw [writeGlobal_eq hg hne]
  cases hput : s.world.put id (.string name) value with
  | ok world =>
    obtain ⟨hread, o', rfl, hhead⟩ := get_put hget hkind hput
    have hg₂ := hg₁.store hget hhead
    refine ⟨hg₂, ?_⟩
    dsimp only
    rw [coherent_some_iff hg₂]
    exact ⟨fun _ => .inl ⟨_, hput⟩, fun _ => ⟨Assoc.get?_put .., .inr hread⟩⟩
  | error reason =>
    refine ⟨hg₁, ?_⟩
    dsimp only
    rw [coherent_some_iff hg₁]
    constructor
    · exact fun h => .inr h.2
    · rintro (⟨world, h⟩ | h)
      · rw [hput] at h
        cases h
      · exact ⟨Assoc.get?_put .., h⟩

/-- **A closure write** reaches every route when the property is not another value. -/
theorem writeReference_iff (hg : IsGlobalObject s id) (hne : name ≠ globalThis) (value : Value) :
    IsGlobalObject (writeReference s value (.global name)) id ∧
      (Coherent (writeReference s value (.global name)) id name (some value) ↔
        Lands id name s (.writeReference value)) := by
  have hg₁ := hg.putGlobal hne value
  refine ⟨hg₁, (coherent_some_iff hg₁).trans ?_⟩
  exact ⟨And.right, fun h => ⟨Assoc.get?_put .., h⟩⟩

theorem execute_assign (c : Option Value) (value : Value) :
    execute id name (s, c) (.assign value) =
      match s.world.put id (.string name) value with
      | .ok world => ({ s with world }, some value)
      | .error _ => (s, c) := by
  unfold execute propertyPut
  dsimp only
  cases s.world.put id (.string name) value <;> rfl

theorem execute_delete (c : Option Value) : execute id name (s, c) .delete =
    match s.world.delete id (.string name) with
    | .ok (true, world) => ({ s with world }, none)
    | _ => (s, c) := by
  unfold execute propertyDelete
  dsimp only
  cases s.world.delete id (.string name) with
  | error reason => rfl
  | ok result =>
    obtain ⟨deleted, world⟩ := result
    cases deleted <;> rfl

/-- **One step.**  From a state whose routes agree, they agree again exactly when the operation
lands. -/
theorem execute_iff {c : Option Value} (hg : IsGlobalObject s id) (hne : name ≠ globalThis)
    (hc : Coherent s id name c) (route : Route) :
    IsGlobalObject (execute id name (s, c) route).1 id ∧
      (Coherent (execute id name (s, c) route).1 id name (execute id name (s, c) route).2 ↔
        Lands id name s route) := by
  cases route with
  | putVar value => exact putVar_iff hg hne value
  | writeReference value => exact writeReference_iff hg hne value
  | assign value =>
    obtain ⟨o, hget, hkind, -, -⟩ := hg.object
    rw [execute_assign]
    cases hput : s.world.put id (.string name) value with
    | ok world =>
      obtain ⟨hread, o', rfl, hhead⟩ := get_put hget hkind hput
      have hg₁ := hg.store hget hhead
      refine ⟨hg₁, (coherent_some_iff hg₁).trans ?_⟩
      constructor
      · exact fun h _ _ => h.1
      · exact fun h => ⟨h _ hput, .inr hread⟩
    | error reason =>
      refine ⟨hg, fun _ world h => ?_, fun _ => hc⟩
      rw [hput] at h
      cases h
  | delete =>
    rw [execute_delete]
    cases hdelete : s.world.delete id (.string name) with
    | error reason =>
      refine ⟨hg, fun _ world h => ?_, fun _ => hc⟩
      rw [hdelete] at h
      cases h
    | ok result =>
      obtain ⟨deleted, world⟩ := result
      cases deleted with
      | false =>
        refine ⟨hg, fun _ world h => ?_, fun _ => hc⟩
        rw [hdelete] at h
        cases h
      | true =>
        obtain ⟨hread, o, o', hget, rfl, hhead⟩ := get_delete hg hdelete
        have hg₁ := hg.store hget hhead
        refine ⟨hg₁, (coherent_none_iff hg₁).trans ?_⟩
        constructor
        · exact fun h _ _ => ⟨h.1, hread.symm.trans h.2⟩
        · exact fun h => ⟨(h _ hdelete).1, hread.trans (h _ hdelete).2⟩

/-- **Global bindings.**  In every run whose operations land, all routes read the value written
last; and an operation that does not land leaves them apart. -/
theorem global_coherence (id : ℕ) (name : Binary) (hne : name ≠ globalThis) (s : State Heap)
    (c : Option Value) (hg : IsGlobalObject s id) (hc : Coherent s id name c)
    (routes : List Route) (s' : State Heap) (c' : Option Value)
    (hr : (machine id name).GuardedRun (fun t => Lands id name t.1) (s, c) routes (s', c')) :
    Coherent s' id name c' ∧ ∀ route,
      (Coherent (execute id name (s', c') route).1 id name (execute id name (s', c') route).2 ↔
        Lands id name s' route) := by
  have hinv : IsGlobalObject (s', c').1 id ∧ Coherent (s', c').1 id name (s', c').2 := by
    refine hr.invariant (I := fun t => IsGlobalObject t.1 id ∧ Coherent t.1 id name t.2)
      ?_ ⟨hg, hc⟩
    intro t route t' hI hlands hstep
    cases hstep
    obtain ⟨hg', hiff⟩ := execute_iff hI.1 hne hI.2 route
    exact ⟨hg', hiff.2 hlands⟩
  exact ⟨hinv.2, fun route => (execute_iff hinv.1 hne hinv.2 route).2⟩

def fresh : State Heap where
  atoms := []
  callers := []
  cells := ∅
  nextCellId := 0
  globals := Assoc.put ∅ globalThis (.reference 0)
  coroutines := []
  depth := 1
  maxStackDepth := 1000
  remainingSteps := 100
  stepLimit := 100
  memoryExceeded := false
  syncJobsPending := false
  world := (Heap.empty.allocate .ordinary ⟨none, 0, none, some globalObject⟩).2

theorem isGlobalObject_fresh : IsGlobalObject fresh 0 :=
  ⟨rfl, _, rfl, rfl, rfl, rfl⟩

/-- A variable written twice, the second time with `undefined`. -/
theorem global_coherence_putVar :
    ∃ s', (machine 0 [120]).exec (fresh, none) [.putVar (.int 1), .putVar .undefined] =
        some (s', some .undefined) ∧
      Coherent s' 0 [120] (some .undefined) := by
  have hrun : ∃ s₁ w₁ w₂, fresh.world.put 0 (.string [120]) (.int 1) = .ok w₁ ∧
      s₁ = writeGlobal fresh [120] (.int 1) ∧
      s₁.world.put 0 (.string [120]) .undefined = .ok w₂ :=
    ⟨_, _, _, rfl, rfl, rfl⟩
  obtain ⟨s₁, w₁, w₂, hput₁, rfl, hput₂⟩ := hrun
  have hnone : Coherent fresh 0 [120] none :=
    (coherent_none_iff isGlobalObject_fresh).2 ⟨rfl, rfl⟩
  refine ⟨writeGlobal (writeGlobal fresh [120] (.int 1)) [120] .undefined, rfl, ?_⟩
  exact (global_coherence 0 [120] (by decide) fresh none isGlobalObject_fresh hnone
    [.putVar (.int 1), .putVar .undefined] _ _
    (.cons (.inl ⟨w₁, hput₁⟩) rfl (.cons (.inl ⟨w₂, hput₂⟩) rfl (.nil _)))).1

/-- A variable written and then deleted through `globalThis` is still read; one assigned through
`globalThis` is not read by a closure. -/
theorem routes_diverge :
    (∃ s, (machine 0 [120]).exec (fresh, none) [.putVar (.int 1), .delete] = some (s, none) ∧
      readGlobal s [120] = some (.value (.int 1))) ∧
    ∃ s, (machine 0 [120]).exec (fresh, none) [.assign (.int 1)] = some (s, some (.int 1)) ∧
      readReference s (.global [120]) = some .undefined :=
  ⟨⟨_, rfl, rfl⟩, _, rfl, rfl⟩

end Global

end QuickBeam.Vm.Runtime
