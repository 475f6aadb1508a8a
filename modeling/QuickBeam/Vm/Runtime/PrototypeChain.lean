import QuickBeam.Lib.ParentChain
import QuickBeam.Vm.Runtime.HeapMemory

/-!
# Prototype chains

The prototypes of a heap are a chain of parents.  Every operation that writes a prototype keeps
the chains acyclic, so that `has_property?/3`, whose walk has no bound, comes to an end.
`set_prototype/3`, `get/3` and `put/4` give up after `@max_prototype_depth`: a longer chain counts
as a cycle, as an error and as a read-only property.  On the chains within that depth the three
walks find the property in the same object, but for the `length` of an array, which a write
below the array does not see.
-/

namespace QuickBeam.Vm.Runtime

open QuickBeam.Lib QuickBeam.Lib.ParentChain QuickBeam.Vm.Program

namespace Heap

/-! ### Walks and writers of the source -/

/-- `has_property?/3`, over at most `levels` objects: no answer means that the walk goes on. -/
def hasPropertyFrom (h : Heap) (key : Key) : ℕ → ℕ → Option Bool
  | 0, _ => none
  | levels + 1, id =>
      match h.objects.get? id with
      | none => some false
      | some object =>
          if object.kind = .array ∧ key = lengthKey then some true
          else if object.properties.hasKey key then some true
          else
            match object.prototype with
            | some prototype => hasPropertyFrom h key levels prototype
            | none => some false

def mustSucceed (result : Except HeapError Heap) : Except HeapError Heap :=
  match result with
  | .ok h => .ok h
  | .error _ => .error .matchError

/-- `set_constructor_parent/3`: a refusal is ignored. -/
def setConstructorParent (h : Heap) (constructor : ℕ) : Value → Heap
  | .reference parent =>
      match h.setPrototype constructor (some parent) with
      | .ok h => h
      | .error _ => h
  | _ => h

/-- `define_class/6`, of a constructor, its validated parent and the prototype of that parent. -/
def defineClass (h : Heap) (constructor : ℕ) (parent : Value) (parentPrototype : Option ℕ)
    (name : Value) : Except HeapError Heap := do
  let (prototype, h) := h.allocate .ordinary ⟨some parentPrototype, 0, none, none⟩
  let h ← mustSucceed (h.define prototype (.string (.ofString "constructor"))
    (.reference constructor) ⟨some true, some false, some true⟩)
  let h ← mustSucceed (h.define constructor (.string (.ofString "prototype"))
    (.reference prototype) ⟨some false, some false, some false⟩)
  let h ← mustSucceed (h.updateObject constructor fun object =>
    { object with internal := some (.atom "class_constructor") })
  let h ← mustSucceed (h.define constructor (.string (.ofString "name")) name
    ⟨some false, some false, some true⟩)
  pure (h.setConstructorParent constructor parent)

def adoptFunctions (h : Heap) (prototype : ℕ) : List ℕ → Except HeapError Heap
  | [] => .ok h
  | id :: ids =>
      match h.setPrototype id (some prototype) with
      | .ok h => adoptFunctions h prototype ids
      | .error _ => .error .matchError

def registerDefaultPrototype (h : Heap) (prototype : ℕ) (kind : Kind) : Except HeapError Heap :=
  let h := { h with defaultPrototypes := h.defaultPrototypes.put kind prototype }
  if kind = .function then
    h.adoptFunctions prototype ((h.objects.toList.filter fun e =>
      e.2.kind = .function ∧ e.2.prototype = none).map Prod.fst)
  else .ok h

/-- The writes of a heap, and the operations above it that write prototypes. -/
inductive ChainEvent where
  | write (operation : Operation)
  | defineClass (constructor : ℕ) (parent : Value) (parentPrototype : Option ℕ) (name : Value)
  | registerDefaultPrototype (prototype : ℕ) (kind : Kind)

section Machine

variable [Value.Platform] (callable : Value → Bool)

def applyEvent (h : Heap) : ChainEvent → Except HeapError Heap
  | .write operation => h.apply callable operation
  | .defineClass constructor parent parentPrototype name =>
      h.defineClass constructor parent parentPrototype name
  | .registerDefaultPrototype prototype kind => h.registerDefaultPrototype prototype kind

/-- One event: a refused one leaves the heap as it is, a failed match ends the run. -/
def stepEvent (h : Heap) (event : ChainEvent) : Option Heap :=
  match h.applyEvent callable event with
  | .ok h' => some h'
  | .error .matchError => none
  | .error _ => some h

def chainMachine : Machine Heap ChainEvent := ⟨fun h => h = empty, stepEvent callable⟩

end Machine

/-! ### Chains of a heap -/

def up (h : Heap) (id : ℕ) : Option ℕ := (h.objects.get? id).bind Object.prototype

def Live (h : Heap) (id : ℕ) : Prop := h.objects.hasKey id = true

structure ChainsOk (h : Heap) : Prop where
  acyclic : Acyclic h.up
  live : ∀ id prototype, h.up id = some prototype → h.Live prototype
  defaults : ∀ kind prototype, h.defaultPrototypes.get? kind = some prototype →
    h.Live prototype
  id_lt : ∀ id, h.Live id → id < h.nextObjectId

/-- The chain from `start` on has more objects than the walks with a bound visit. -/
def TooDeep (h : Heap) (start : Option ℕ) : Prop :=
  ∃ id, rest h.up (maxPrototypeDepth + 1) start = some id

theorem chainsOk_empty : ChainsOk empty where
  acyclic id hpath := by
    obtain ⟨b, hstep, -⟩ := Relation.TransGen.head'_iff.1 hpath
    cases hstep
  live id prototype hup := by cases hup
  defaults kind prototype hget := by cases hget
  id_lt id hlive := by cases hlive

variable {h : Heap} {id : ℕ} {o : Object}

theorem up_of_get? (hget : h.objects.get? id = some o) : h.up id = o.prototype := by
  unfold up
  rw [hget]
  rfl

theorem live_of_get? (hget : h.objects.get? id = some o) : h.Live id := Assoc.hasKey_iff.2 ⟨o, hget⟩

theorem ChainsOk.live_of_reaches (hok : ChainsOk h) {a b : ℕ} (ha : h.Live a)
    (hreach : Reaches h.up a b) : h.Live b := by
  induction hreach with
  | refl => exact ha
  | tail _ hstep _ => exact hok.live _ _ hstep

theorem ChainsOk.rest_eq_none (hok : ChainsOk h) {start : Option ℕ}
    (hstart : ∀ id, start = some id → h.Live id) {n : ℕ} (hn : h.nextObjectId ≤ n) :
    rest h.up n start = none := by
  classical
  let nodes := (Finset.range h.nextObjectId).filter h.Live
  have hcard : nodes.card ≤ n := by
    have hle := Finset.card_filter_le (Finset.range h.nextObjectId) h.Live
    rw [Finset.card_range] at hle
    exact hle.trans hn
  have hmem : ∀ {id}, h.Live id → id ∈ nodes := fun {id} hlive =>
    Finset.mem_filter.2 ⟨Finset.mem_range.2 (hok.id_lt id hlive), hlive⟩
  exact ParentChain.rest_eq_none hok.acyclic (fun a _ b hup => hmem (hok.live a b hup))
    (fun id hid => hmem (hstart id hid)) hcard

/-! ### The check of `set_prototype/3` -/

theorem prototypeContains_iff (h : Heap) (id : ℕ) :
    ∀ (levels : ℕ) (start : Option ℕ), h.prototypeContains id levels start = true ↔
      id ∈ climb h.up levels start ∨ ∃ b, rest h.up levels start = some b := by
  intro levels
  induction levels with
  | zero =>
    intro start
    cases start with
    | none => simp [prototypeContains, climb, rest]
    | some prototype => simp [prototypeContains, climb, rest]
  | succ levels ih =>
    intro start
    cases start with
    | none => simp [prototypeContains]
    | some prototype =>
      show (if prototype = id then true else _) = true ↔
        id ∈ prototype :: climb h.up levels (h.up prototype) ∨
          ∃ b, rest h.up levels (h.up prototype) = some b
      split
      · rename_i heq
        exact iff_of_true rfl (.inl (heq ▸ List.mem_cons_self ..))
      · rename_i hne
        rw [List.mem_cons, or_iff_right (Ne.symm hne)]
        cases hget : h.objects.get? prototype with
        | none =>
          have hup : h.up prototype = none := by
            unfold up
            rw [hget]
            rfl
          simp [hup]
        | some object =>
          rw [up_of_get? hget]
          exact ih object.prototype

/-- **The check refuses a prototype that would close a cycle, and a chain that is too deep.** -/
theorem prototypeContains_iff_cyclic (hok : ChainsOk h) (id : ℕ) (prototype : Option ℕ) :
    h.prototypeContains id (maxPrototypeDepth + 1) prototype = true ↔
      ¬ Acyclic (Function.update h.up id prototype) ∨ h.TooDeep prototype := by
  rw [prototypeContains_iff, acyclic_update_iff hok.acyclic]
  unfold TooDeep
  constructor
  · rintro (hmem | hdeep)
    · left
      intro hno
      cases prototype with
      | none => cases hmem
      | some q => exact hno q rfl (reaches_of_mem_climb hmem)
    · exact .inr hdeep
  · rintro (hno | hdeep)
    · by_cases hdeep : ∃ b, rest h.up (maxPrototypeDepth + 1) prototype = some b
      · exact .inr hdeep
      · left
        push Not at hno
        obtain ⟨q, rfl, hreach⟩ := hno
        refine mem_climb_of_reaches hreach ?_
        cases hrest : rest h.up (maxPrototypeDepth + 1) (some q) with
        | none => rfl
        | some b => exact absurd ⟨b, hrest⟩ hdeep
    · exact .inr hdeep

/-! ### Writes that touch no prototype -/

structure SamePrototypes (h h' : Heap) : Prop where
  prototype : ∀ id, (h'.objects.get? id).map Object.prototype =
    (h.objects.get? id).map Object.prototype
  nextObjectId : h'.nextObjectId = h.nextObjectId
  defaultPrototypes : h'.defaultPrototypes = h.defaultPrototypes

theorem SamePrototypes.refl (h : Heap) : h.SamePrototypes h := ⟨fun _ => rfl, rfl, rfl⟩

theorem SamePrototypes.trans {h h₁ h₂ : Heap} (hs : h.SamePrototypes h₁)
    (hs' : h₁.SamePrototypes h₂) : h.SamePrototypes h₂ :=
  ⟨fun id => (hs'.prototype id).trans (hs.prototype id),
    hs'.nextObjectId.trans hs.nextObjectId, hs'.defaultPrototypes.trans hs.defaultPrototypes⟩

theorem SamePrototypes.up_eq {h h' : Heap} (hs : h.SamePrototypes h') : h'.up = h.up := by
  funext id
  have hp := hs.prototype id
  unfold up
  cases hget : h.objects.get? id with
  | none =>
    rw [hget] at hp
    rw [Option.map_eq_none_iff.1 hp]
  | some o =>
    rw [hget] at hp
    obtain ⟨o', hget', heq⟩ := Option.map_eq_some_iff.1 hp
    rw [hget']
    exact heq

theorem SamePrototypes.live_iff {h h' : Heap} (hs : h.SamePrototypes h') (id : ℕ) :
    h'.Live id ↔ h.Live id := by
  have hp := congrArg Option.isSome (hs.prototype id)
  rw [Option.isSome_map, Option.isSome_map] at hp
  unfold Live Assoc.hasKey
  rw [hp]

theorem SamePrototypes.chainsOk {h h' : Heap} (hs : h.SamePrototypes h') (hok : ChainsOk h) :
    ChainsOk h' where
  acyclic := hs.up_eq ▸ hok.acyclic
  live id prototype hup := by
    rw [hs.up_eq] at hup
    exact (hs.live_iff prototype).2 (hok.live id prototype hup)
  defaults kind prototype hget := by
    rw [hs.defaultPrototypes] at hget
    exact (hs.live_iff prototype).2 (hok.defaults kind prototype hget)
  id_lt id hlive := by
    rw [hs.nextObjectId]
    exact hok.id_lt id ((hs.live_iff id).1 hlive)

theorem samePrototypes_store {o o' : Object} (hget : h.objects.get? id = some o)
    (hp : o'.prototype = o.prototype) : h.SamePrototypes (h.store id o') := by
  refine ⟨fun j => ?_, rfl, rfl⟩
  show ((h.objects.put id o').get? j).map Object.prototype = _
  rw [Assoc.get?_put_eq]
  split
  · rename_i hj
    subst hj
    rw [hget, Option.map_some, Option.map_some, hp]
  · rfl

end Heap

namespace Object

theorem prototype_rememberProperty (o : Object) (key : Key) :
    (o.rememberProperty key).prototype = o.prototype := by
  rw [o.rememberProperty_keeps key]

theorem prototype_putDefaultProperty (o : Object) (key : Key) (value : Value) :
    (o.putDefaultProperty key value).prototype = o.prototype := by
  rw [o.putDefaultProperty_keeps key value]

theorem prototype_putPropertyStruct (o : Object) (key : Key) (property : Descriptor) :
    (o.putPropertyStruct key property).prototype = o.prototype := by
  unfold putPropertyStruct
  split
  · exact prototype_putDefaultProperty o key _
  · exact prototype_rememberProperty o key

theorem prototype_putProperty (o : Object) (key : Key) (value : Value) :
    (o.putProperty key value).prototype = o.prototype := by
  unfold putProperty
  split
  · exact prototype_putDefaultProperty o key value
  · exact prototype_putPropertyStruct o key _
  · exact prototype_putDefaultProperty o key value

end Object

namespace Heap

theorem prototype_setLength {o o' : Object} {value : Value} (hs : setLength o value = .ok o') :
    o'.prototype = o.prototype := by
  obtain ⟨_, -, hs⟩ := bind_eq_ok hs
  obtain ⟨length, -, hs⟩ := bind_eq_ok hs
  unfold resizeArray at hs
  split at hs
  · cases hs
    rfl
  · dsimp only at hs
    split at hs
    · cases hs
    · cases hs
      rfl

variable {h h' : Heap} {id : ℕ} {key : Key} {o : Object} {value : Value}

theorem samePrototypes_putObject (hget : h.objects.get? id = some o)
    (hp : h.putObject id o key value = .ok h') : h.SamePrototypes h' := by
  unfold putObject at hp
  split at hp
  · obtain ⟨o', hs, hp⟩ := bind_eq_ok hp
    cases hp
    exact samePrototypes_store hget (prototype_setLength hs)
  · obtain ⟨_, -, hp⟩ := bind_eq_ok hp
    obtain ⟨_, -, hp⟩ := bind_eq_ok hp
    cases hp
    exact samePrototypes_store hget (o.prototype_putProperty key value)

theorem samePrototypes_put {key value : Value} (hp : h.put id key value = .ok h') :
    h.SamePrototypes h' := by
  obtain ⟨o, hfetch, hp⟩ := bind_eq_ok hp
  have hget := fetchObject_ok hfetch
  split at hp
  · split at hp
    · cases hp
      exact samePrototypes_store hget rfl
    · obtain ⟨_, -, hp⟩ := bind_eq_ok hp
      obtain ⟨_, -, hp⟩ := bind_eq_ok hp
      obtain ⟨_, -, hp⟩ := bind_eq_ok hp
      cases hp
      exact samePrototypes_store hget rfl
    · exact samePrototypes_putObject hget hp
  · exact samePrototypes_putObject hget hp

variable {property : Descriptor}

theorem samePrototypes_storeDescriptor (hget : h.objects.get? id = some o)
    (hs : h.storeDescriptor id o key property = .ok h') : h.SamePrototypes h' := by
  obtain ⟨_, -, hs⟩ := bind_eq_ok hs
  cases hs
  exact samePrototypes_store hget (o.prototype_putPropertyStruct key property)

variable {opts : PropertyOptions}

theorem samePrototypes_defineObject (hget : h.objects.get? id = some o)
    (hd : h.defineObject id o key value opts = .ok h') : h.SamePrototypes h' := by
  unfold defineObject at hd
  split at hd
  · obtain ⟨_, -, hd⟩ := bind_eq_ok hd
    obtain ⟨_, -, hd⟩ := bind_eq_ok hd
    obtain ⟨o', hs, hd⟩ := bind_eq_ok hd
    cases hd
    exact samePrototypes_store hget (@prototype_setLength _ o' _ hs)
  · exact samePrototypes_storeDescriptor hget hd

theorem samePrototypes_define {key value : Value} (hd : h.define id key value opts = .ok h') :
    h.SamePrototypes h' := by
  obtain ⟨o, hfetch, hd⟩ := bind_eq_ok hd
  have hget := fetchObject_ok hfetch
  split at hd
  · split at hd
    · cases hd
      exact samePrototypes_store hget rfl
    · obtain ⟨_, -, hd⟩ := bind_eq_ok hd
      obtain ⟨_, -, hd⟩ := bind_eq_ok hd
      cases hd
      exact samePrototypes_store hget rfl
    · exact samePrototypes_defineObject hget hd
  · exact samePrototypes_defineObject hget hd

theorem samePrototypes_defineDescriptor {key : Value}
    (hd : h.defineDescriptor id key property = .ok h') : h.SamePrototypes h' := by
  obtain ⟨o, hfetch, hd⟩ := bind_eq_ok hd
  split at hd
  · cases hd
  · exact samePrototypes_storeDescriptor (fetchObject_ok hfetch) hd

theorem samePrototypes_delete {key : Value} {deleted : Bool × Heap}
    (hd : h.delete id key = .ok deleted) : h.SamePrototypes deleted.2 := by
  obtain ⟨o, hfetch, hd⟩ := bind_eq_ok hd
  split at hd
  · cases hd
    exact .refl h
  · cases hd
    exact samePrototypes_store (fetchObject_ok hfetch) rfl

theorem samePrototypes_updateObject {update : Object → Object}
    (hupdate : ∀ o, (update o).prototype = o.prototype) (hu : h.updateObject id update = .ok h') :
    h.SamePrototypes h' := by
  obtain ⟨o, hfetch, hu⟩ := bind_eq_ok hu
  cases hu
  exact samePrototypes_store (fetchObject_ok hfetch) (hupdate o)

theorem samePrototypes_clearArray (hc : h.clearArray id = .ok h') : h.SamePrototypes h' := by
  obtain ⟨o, hfetch, hc⟩ := bind_eq_ok hc
  obtain ⟨_, -, hc⟩ := bind_eq_ok hc
  cases hc
  exact samePrototypes_store (fetchObject_ok hfetch) rfl

theorem samePrototypes_defineFrom {id first : ℕ} {values : List Value}
    (hd : h.defineFrom id first values = .ok h') : h.SamePrototypes h' := by
  induction values generalizing h first with
  | nil =>
    cases hd
    exact .refl _
  | cons v vs ih =>
    unfold defineFrom at hd
    split at hd
    · rename_i h₁ hdefine
      exact (samePrototypes_define hdefine).trans (ih hd)
    · cases hd

theorem samePrototypes_sort [Value.Platform] (hs : h.sort id = .ok h') : h.SamePrototypes h' := by
  unfold sort at hs
  split at hs
  · cases hs
  · split at hs
    · cases hs
    · obtain ⟨h₁, hc, hs⟩ := bind_eq_ok hs
      exact (samePrototypes_clearArray hc).trans (samePrototypes_defineFrom hs)

theorem samePrototypes_defineProperty {callable : Value → Bool} {key : Value}
    {fields : DescriptorFields} (hd : h.defineProperty callable id key fields = .ok h') :
    h.SamePrototypes h' := by
  obtain ⟨current, -, hd⟩ := bind_eq_ok hd
  obtain ⟨definition, -, hd⟩ := bind_eq_ok hd
  unfold applyPropertyDefinition at hd
  split at hd
  · exact samePrototypes_defineDescriptor hd
  · exact samePrototypes_define hd

theorem samePrototypes_freeze (hf : h.freeze id = .ok h') : h.SamePrototypes h' := by
  obtain ⟨o, hget, rfl⟩ := freeze_ok hf
  exact samePrototypes_store hget rfl

/-! ### Writes of prototypes -/

theorem chainsOk_storeNew (hok : ChainsOk h)
    (hlive : ∀ prototype, o.prototype = some prototype → h.Live prototype) :
    ChainsOk (h.storeNew o).2 := by
  have hfresh : ¬ h.Live h.nextObjectId := fun hl => Nat.lt_irrefl _ (hok.id_lt _ hl)
  have hup : (h.storeNew o).2.up = Function.update h.up h.nextObjectId o.prototype := by
    funext id
    unfold up
    show ((h.objects.put h.nextObjectId o).get? id).bind Object.prototype = _
    rw [Assoc.get?_put_eq, Function.update_apply]
    split <;> rfl
  have hkeep : ∀ id, (h.storeNew o).2.Live id ↔ id = h.nextObjectId ∨ h.Live id :=
    fun id => hasKey_put_iff h.objects h.nextObjectId id o
  constructor
  · rw [hup]
    refine (acyclic_update_iff hok.acyclic).2 fun q hq hreach => ?_
    exact hfresh (hok.live_of_reaches (hlive q hq) hreach)
  · intro id prototype hid
    rw [hup, Function.update_apply] at hid
    refine (hkeep prototype).2 (.inr ?_)
    split at hid
    · exact hlive prototype hid
    · exact hok.live id prototype hid
  · exact fun kind prototype hget => (hkeep prototype).2 (.inr (hok.defaults kind prototype hget))
  · intro id hid
    rcases (hkeep id).1 hid with rfl | hid
    · exact Nat.lt_succ_self _
    · exact Nat.lt_succ_of_lt (hok.id_lt id hid)

variable {prototype : Option ℕ}

/-- **What `set_prototype/3` does**: it refuses what the check refuses and changes one prototype
otherwise. -/
theorem setPrototype_ok (hs : h.setPrototype id prototype = .ok h') :
    ∃ o, h.objects.get? id = some o ∧
      h.prototypeContains id (maxPrototypeDepth + 1) prototype = false ∧
      h' = h.store id { o with prototype } := by
  obtain ⟨o, hfetch, hs⟩ := bind_eq_ok hs
  obtain ⟨_, hcheck, hs⟩ := bind_eq_ok hs
  cases hs
  exact ⟨o, fetchObject_ok hfetch, Bool.not_eq_true' _ ▸ check_eq_ok hcheck, rfl⟩

theorem up_store (o : Object) : (h.store id o).up = Function.update h.up id o.prototype := by
  funext j
  unfold up
  show ((h.objects.put id o).get? j).bind Object.prototype = _
  rw [Assoc.get?_put_eq, Function.update_apply]
  split <;> rfl

theorem live_store_iff (hget : h.objects.get? id = some o) (o' : Object) (j : ℕ) :
    (h.store id o').Live j ↔ h.Live j := by
  refine (hasKey_put_iff h.objects id j o').trans (or_iff_right_of_imp ?_)
  rintro rfl
  exact live_of_get? hget

theorem chainsOk_setPrototype (hok : ChainsOk h) (hlive : ∀ p, prototype = some p → h.Live p)
    (hs : h.setPrototype id prototype = .ok h') : ChainsOk h' := by
  obtain ⟨o, hget, hcheck, rfl⟩ := setPrototype_ok hs
  constructor
  · rw [up_store]
    by_contra hcyclic
    have hrefused := (prototypeContains_iff_cyclic hok id prototype).2 (.inl hcyclic)
    rw [hcheck] at hrefused
    cases hrefused
  · intro j p hup
    rw [up_store, Function.update_apply] at hup
    refine (live_store_iff hget _ p).2 ?_
    split at hup
    · exact hlive p hup
    · exact hok.live j p hup
  · exact fun kind p hp => (live_store_iff hget _ p).2 (hok.defaults kind p hp)
  · exact fun j hj => hok.id_lt j ((live_store_iff hget _ j).1 hj)

theorem live_of_setPrototype (hs : h.setPrototype id prototype = .ok h') {j : ℕ} (hj : h.Live j) :
    h'.Live j := by
  obtain ⟨o, hget, -, rfl⟩ := setPrototype_ok hs
  exact (live_store_iff hget _ j).2 hj

variable {parent : Value}

theorem chainsOk_setConstructorParent (hok : ChainsOk h) (constructor : ℕ)
    (hlive : ∀ p, parent = .reference p → h.Live p) :
    ChainsOk (h.setConstructorParent constructor parent) := by
  cases parent with
  | reference p =>
    unfold setConstructorParent
    dsimp only
    split
    · rename_i h' hs
      exact chainsOk_setPrototype hok (fun q hq => Option.some.inj hq ▸ hlive p rfl) hs
    · exact hok
  | _ => exact hok

theorem mustSucceed_ok {result : Except HeapError Heap} (hm : mustSucceed result = .ok h) :
    result = .ok h := by
  cases result with
  | ok h' => exact hm
  | error reason => cases hm

/-- **A class definition**: a new prototype object, and the parent of the constructor. -/
theorem chainsOk_defineClass (hok : ChainsOk h) {constructor : ℕ} {parentPrototype : Option ℕ}
    {name : Value} (hparent : ∀ p, parent = .reference p → h.Live p)
    (hprototype : ∀ p, parentPrototype = some p → h.Live p)
    (hd : h.defineClass constructor parent parentPrototype name = .ok h') : ChainsOk h' := by
  let object := h.newObject .ordinary ⟨some parentPrototype, 0, none, none⟩
  have hnew : ChainsOk (h.storeNew object).2 := chainsOk_storeNew hok hprototype
  obtain ⟨h₁, hs, hd⟩ := bind_eq_ok hd
  have hsame₁ := samePrototypes_define (mustSucceed_ok hs)
  obtain ⟨h₂, hs, hd⟩ := bind_eq_ok hd
  have hsame₂ := hsame₁.trans (samePrototypes_define (mustSucceed_ok hs))
  obtain ⟨h₃, hs, hd⟩ := bind_eq_ok hd
  have hsame₃ := hsame₂.trans
    (samePrototypes_updateObject (fun _ => by rfl) (mustSucceed_ok hs))
  obtain ⟨h₄, hs, hd⟩ := bind_eq_ok hd
  have hsame := hsame₃.trans (samePrototypes_define (mustSucceed_ok hs))
  cases hd
  refine chainsOk_setConstructorParent (hsame.chainsOk hnew) constructor fun p hp => ?_
  exact (hsame.live_iff p).2
    ((hasKey_put_iff h.objects h.nextObjectId p object).2 (.inr (hparent p hp)))

theorem chainsOk_adoptFunctions (hok : ChainsOk h) {prototype : ℕ} (hlive : h.Live prototype)
    {ids : List ℕ} (ha : h.adoptFunctions prototype ids = .ok h') : ChainsOk h' := by
  induction ids generalizing h with
  | nil =>
    cases ha
    exact hok
  | cons id ids ih =>
    unfold adoptFunctions at ha
    split at ha
    · rename_i h₁ hs
      exact ih (chainsOk_setPrototype hok (fun p hp => Option.some.inj hp ▸ hlive) hs)
        (live_of_setPrototype hs hlive) ha
    · cases ha

theorem chainsOk_registerDefaultPrototype (hok : ChainsOk h) {prototype : ℕ} {kind : Kind}
    (hlive : h.Live prototype) (hr : h.registerDefaultPrototype prototype kind = .ok h') :
    ChainsOk h' := by
  have hreg : ChainsOk { h with
      defaultPrototypes := h.defaultPrototypes.put kind prototype } := by
    refine ⟨hok.acyclic, hok.live, fun k p hp => ?_, hok.id_lt⟩
    obtain ⟨-, rfl⟩ | ⟨-, hp⟩ := Assoc.get?_put_cases hp
    · exact hlive
    · exact hok.defaults k p hp
  unfold registerDefaultPrototype at hr
  dsimp only at hr
  split at hr
  · exact chainsOk_adoptFunctions hreg hlive hr
  · cases hr
    exact hreg

/-! ### Runs -/

section Runs

variable [Value.Platform] (callable : Value → Bool)

/-- The prototypes that an event brings in belong to the heap, as references always do. -/
def LiveEvent (h : Heap) : ChainEvent → Prop
  | .write (.allocate _ opts) => ∀ p, opts.prototype = some (some p) → h.Live p
  | .write (.setPrototype _ prototype) => ∀ p, prototype = some p → h.Live p
  | .write _ => True
  | .defineClass _ parent parentPrototype _ =>
      (∀ p, parent = .reference p → h.Live p) ∧ ∀ p, parentPrototype = some p → h.Live p
  | .registerDefaultPrototype prototype _ => h.Live prototype

theorem chainsOk_apply {h h' : Heap} (hok : ChainsOk h) {operation : Operation}
    (hlive : LiveEvent h (.write operation)) (ha : h.apply callable operation = .ok h') :
    ChainsOk h' := by
  cases operation with
  | allocate kind opts =>
    cases ha
    refine chainsOk_storeNew hok fun prototype hp => ?_
    change opts.prototype.getD (h.defaultPrototypes.get? kind) = some prototype at hp
    cases hopts : opts.prototype with
    | none =>
      rw [hopts] at hp
      exact hok.defaults kind prototype hp
    | some p =>
      rw [hopts] at hp
      exact hlive prototype (hopts.trans (congrArg some hp))
  | allocateArray values =>
    cases ha
    exact chainsOk_storeNew hok fun prototype hp => hok.defaults .array prototype hp
  | put id key value => exact (samePrototypes_put ha).chainsOk hok
  | define id key value opts => exact (samePrototypes_define ha).chainsOk hok
  | defineAccessor id key kind f opts =>
    obtain ⟨o, hfetch, ha⟩ := bind_eq_ok ha
    exact (samePrototypes_storeDescriptor (fetchObject_ok hfetch) ha).chainsOk hok
  | defineDescriptor id key property => exact (samePrototypes_defineDescriptor ha).chainsOk hok
  | delete id key =>
    change (h.delete id key).map Prod.snd = .ok h' at ha
    cases hd : h.delete id key with
    | error reason =>
      rw [hd] at ha
      cases ha
    | ok deleted =>
      rw [hd] at ha
      cases ha
      exact (samePrototypes_delete hd).chainsOk hok
  | setPrototype id prototype => exact chainsOk_setPrototype hok hlive ha
  | clearArray id => exact (samePrototypes_clearArray ha).chainsOk hok
  | freeze id => exact (samePrototypes_freeze ha).chainsOk hok
  | sort id => exact (samePrototypes_sort ha).chainsOk hok
  | defineProperty id key fields => exact (samePrototypes_defineProperty ha).chainsOk hok

/-- **One event keeps the chains acyclic.** -/
theorem chainsOk_step {h h' : Heap} (hok : ChainsOk h) {event : ChainEvent}
    (hlive : LiveEvent h event) (hs : stepEvent callable h event = some h') : ChainsOk h' := by
  unfold stepEvent at hs
  split at hs
  · rename_i h₁ ha
    cases hs
    cases event with
    | write operation => exact chainsOk_apply callable hok hlive ha
    | defineClass constructor parent parentPrototype name =>
      exact chainsOk_defineClass hok hlive.1 hlive.2 ha
    | registerDefaultPrototype prototype kind =>
      exact chainsOk_registerDefaultPrototype hok hlive ha
  · cases hs
  · cases hs
    exact hok

variable {h : Heap}

theorem chainsOk_of_reachable (hr : (chainMachine callable).ReachableIf LiveEvent h) :
    ChainsOk h := by
  refine Machine.ReachableIf.invariant ?_ ?_ hr
  · intro s hs
    rw [hs]
    exact chainsOk_empty
  · exact fun s e s' hok hlive hs => chainsOk_step callable hok hlive hs

end Runs

/-! ### Which object supplies a property -/

def readStored (receiver : ℕ) : Stored → Read
  | .default v => .value v
  | .full property =>
      match property.getter, property.setter with
      | some getter, _ => .accessor getter receiver
      | none, some _ => .value .undefined
      | none, none => .value property.value

def storedAt (h : Heap) (key : Key) (id : ℕ) : Option Stored :=
  (h.objects.get? id).bind fun object => object.properties.get? key

def readAt (h : Heap) (key : Key) (receiver id : ℕ) : Option Read :=
  (h.objects.get? id).bind fun object =>
    if object.kind = .array ∧ key = lengthKey then some (.value (.int object.length))
    else (object.properties.get? key).map (readStored receiver)

def supplies (h : Heap) (key : Key) (id : ℕ) : Bool :=
  match h.objects.get? id with
  | some object => decide (object.kind = .array ∧ key = lengthKey) || object.properties.hasKey key
  | none => false

/-- The first object of a chain that has the property itself. -/
def supplier (h : Heap) (id : ℕ) (key : Key) : Option ℕ :=
  (climb h.up h.nextObjectId (some id)).find? (h.supplies key)

theorem findSome?_eq_find?_bind {α β : Type} {p : α → Bool} {f : α → Option β} {l : List α}
    (h : ∀ a ∈ l, p a = (f a).isSome) : l.findSome? f = (l.find? p).bind f := by
  induction l with
  | nil => rfl
  | cons a l ih =>
    have ha := h a (List.mem_cons_self ..)
    have htail := ih fun b hb => h b (List.mem_cons_of_mem _ hb)
    rw [List.findSome?_cons, List.find?_cons, ha]
    cases hf : f a with
    | none => exact htail
    | some b => exact hf.symm

theorem supplies_eq_readAt (h : Heap) (key : Key) (receiver id : ℕ) :
    h.supplies key id = (h.readAt key receiver id).isSome := by
  unfold supplies readAt
  cases h.objects.get? id with
  | none => rfl
  | some object =>
    show (decide _ || _) = Option.isSome (if _ then _ else _)
    split
    · rename_i hlength
      rw [decide_eq_true hlength]
      rfl
    · rename_i hlength
      rw [decide_eq_false hlength, Option.isSome_map]
      rfl

theorem supplies_eq_storedAt
    (hlength : ∀ o, h.objects.get? id = some o → o.kind = .array → key ≠ lengthKey) :
    h.supplies key id = (h.storedAt key id).isSome := by
  unfold supplies storedAt
  cases hget : h.objects.get? id with
  | none => rfl
  | some object =>
    show (decide _ || _) = Option.isSome (object.properties.get? key)
    rw [decide_eq_false fun hk => hlength object hget hk.1 hk.2]
    rfl

/-! ### The three walks -/

theorem up_of_none (hget : h.objects.get? id = none) : h.up id = none := by
  unfold up
  rw [hget]
  rfl

theorem hasPropertyFrom_eq (h : Heap) (key : Key) (levels id : ℕ) :
    h.hasPropertyFrom key levels id =
      if (climb h.up levels (some id)).any (h.supplies key) then some true
      else if rest h.up levels (some id) = none then some false else none := by
  induction levels generalizing id with
  | zero => rfl
  | succ levels ih =>
    unfold hasPropertyFrom
    show _ = if (h.supplies key id || (climb h.up levels (h.up id)).any (h.supplies key)) then _
      else if rest h.up levels (h.up id) = none then _ else _
    cases hget : h.objects.get? id with
    | none =>
      have hsupplies : h.supplies key id = false := by
        unfold supplies
        rw [hget]
      rw [up_of_none hget, hsupplies]
      simp
    | some object =>
      have hsupplies : h.supplies key id =
          (decide (object.kind = .array ∧ key = lengthKey) || object.properties.hasKey key) := by
        unfold supplies
        rw [hget]
      rw [up_of_get? hget, hsupplies]
      dsimp only
      by_cases hlength : object.kind = .array ∧ key = lengthKey
      · rw [if_pos hlength, decide_eq_true hlength]
        rfl
      · rw [if_neg hlength, decide_eq_false hlength, Bool.false_or]
        cases object.properties.hasKey key with
        | true => rfl
        | false =>
          cases object.prototype with
          | none => simp
          | some prototype => exact ih prototype

theorem getFrom_eq (hok : ChainsOk h) (key : Key) (receiver levels id : ℕ) (hlive : h.Live id) :
    h.getFrom key receiver levels id =
      match (climb h.up levels (some id)).findSome? (h.readAt key receiver) with
      | some read => .ok read
      | none =>
          if rest h.up levels (some id) = none then .ok (.value .undefined)
          else .error .prototypeChainTooDeep := by
  induction levels generalizing id with
  | zero => rfl
  | succ levels ih =>
    obtain ⟨object, hget⟩ := Assoc.hasKey_iff.1 hlive
    have hread : h.readAt key receiver id =
        if object.kind = .array ∧ key = lengthKey then some (.value (.int object.length))
        else (object.properties.get? key).map (readStored receiver) := by
      unfold readAt
      rw [hget]
      rfl
    unfold getFrom
    show _ = match (id :: climb h.up levels (h.up id)).findSome? (h.readAt key receiver) with
      | some read => Except.ok read
      | none => if rest h.up levels (h.up id) = none then _ else _
    rw [List.findSome?_cons, hget, hread, up_of_get? hget]
    dsimp only
    by_cases hlength : object.kind = .array ∧ key = lengthKey
    · rw [if_pos hlength, if_pos hlength]
    · rw [if_neg hlength, if_neg hlength]
      cases hstored : object.properties.get? key with
      | some stored =>
        cases stored with
        | default v => rfl
        | full property =>
          show _ = Except.ok (readStored receiver (.full property))
          unfold readStored
          dsimp only
          cases property.getter with
          | some getter => rfl
          | none => cases property.setter <;> rfl
      | none =>
        cases hp : object.prototype with
        | none => simp
        | some prototype =>
          exact ih prototype (hok.live id prototype ((up_of_get? hget).trans hp))

theorem inheritedProperty_eq (h : Heap) (key : Key) (levels : ℕ) (start : Option ℕ) :
    h.inheritedProperty key levels start =
      match (climb h.up levels start).findSome? (h.storedAt key) with
      | some stored => some stored
      | none =>
          if rest h.up levels start = none then none
          else some (.full ⟨.data .undefined false, true, true⟩) := by
  induction levels generalizing start with
  | zero =>
    cases start with
    | none => rfl
    | some id => rfl
  | succ levels ih =>
    cases start with
    | none => rfl
    | some id =>
      unfold inheritedProperty
      show _ = match (id :: climb h.up levels (h.up id)).findSome? (h.storedAt key) with
        | some stored => some stored
        | none => if rest h.up levels (h.up id) = none then _ else _
      rw [List.findSome?_cons]
      cases hget : h.objects.get? id with
      | none =>
        have hstored : h.storedAt key id = none := by
          unfold storedAt
          rw [hget]
          rfl
        rw [up_of_none hget, hstored]
        simp
      | some object =>
        have hstored : h.storedAt key id = object.properties.get? key := by
          unfold storedAt
          rw [hget]
          rfl
        rw [hstored, up_of_get? hget]
        dsimp only
        cases object.properties.get? key with
        | some stored => rfl
        | none => exact ih object.prototype

variable {start : Option ℕ}

theorem climb_eq_of_ends {up : ℕ → Option ℕ} {m n : ℕ} (hm : rest up m start = none)
    (hn : rest up n start = none) : climb up m start = climb up n start := by
  rcases Nat.le_total m n with hle | hle
  · exact (climb_eq_of_rest_none hle hm).1.symm
  · exact (climb_eq_of_rest_none hle hn).1

theorem rest_of_not_tooDeep (hdeep : ¬ h.TooDeep start) :
    rest h.up (maxPrototypeDepth + 1) start = none := by
  cases hrest : rest h.up (maxPrototypeDepth + 1) start with
  | none => rfl
  | some b => exact absurd ⟨b, hrest⟩ hdeep

/-- **`has_property?/3` comes to an end**: it says whether an object supplies the property. -/
theorem hasProperty_eq_supplier (hok : ChainsOk h) (hlive : h.Live id) (key : Key) {levels : ℕ}
    (hlevels : h.nextObjectId ≤ levels) :
    h.hasPropertyFrom key levels id = some (h.supplier id key).isSome := by
  have hstart : ∀ j, some id = some j → h.Live j := fun j hj => Option.some.inj hj ▸ hlive
  have hend := hok.rest_eq_none hstart hlevels
  have hfind : (climb h.up levels (some id)).any (h.supplies key) =
      (h.supplier id key).isSome := by
    unfold supplier
    rw [climb_eq_of_ends hend (hok.rest_eq_none hstart (Nat.le_refl _)), List.isSome_find?]
  rw [hasPropertyFrom_eq, hfind, if_pos hend]
  cases (h.supplier id key).isSome <;> rfl

/-- **`get/3` reads the property of the supplier.** -/
theorem get_eq_supplier (hok : ChainsOk h) (hlive : h.Live id) (hdeep : ¬ h.TooDeep (some id))
    (key : Value) : h.get id key = .ok (((h.supplier id (normalizeKey key)).bind
      (h.readAt (normalizeKey key) id)).getD (.value .undefined)) := by
  have hstart : ∀ j, some id = some j → h.Live j := fun j hj => Option.some.inj hj ▸ hlive
  have hend := rest_of_not_tooDeep hdeep
  unfold get supplier
  rw [getFrom_eq hok _ _ _ _ hlive, if_pos hend,
    climb_eq_of_ends (hok.rest_eq_none hstart (Nat.le_refl _)) hend,
    ← findSome?_eq_find?_bind fun a _ => h.supplies_eq_readAt (normalizeKey key) id a]
  cases (climb h.up (maxPrototypeDepth + 1) (some id)).findSome?
    (h.readAt (normalizeKey key) id) <;> rfl

/-- No array whose length the key names lies on the chain. -/
def NoLength (h : Heap) (id : ℕ) (key : Key) : Prop :=
  ∀ a o, Reaches h.up id a → h.objects.get? a = some o → o.kind = .array → key ≠ lengthKey

theorem found_eq_supplier (hok : ChainsOk h) (hget : h.objects.get? id = some o)
    (hdeep : ¬ h.TooDeep (some id)) (hlength : h.NoLength id key) :
    ((o.properties.get? key).orElse fun _ =>
      h.inheritedProperty key (maxPrototypeDepth + 1) o.prototype) =
        (h.supplier id key).bind (h.storedAt key) := by
  have hstart : ∀ j, some id = some j → h.Live j := fun j hj =>
    Option.some.inj hj ▸ live_of_get? hget
  have hend : rest h.up (maxPrototypeDepth + 1) (some id) = none := rest_of_not_tooDeep hdeep
  -- the chain behind the object itself
  have hbehind : rest h.up maxPrototypeDepth o.prototype = none := up_of_get? hget ▸ hend
  obtain ⟨hclimb, hbehind'⟩ := climb_eq_of_rest_none (Nat.le_succ maxPrototypeDepth) hbehind
  have hchain : climb h.up (maxPrototypeDepth + 1) (some id) =
      id :: climb h.up maxPrototypeDepth o.prototype := by
    show id :: climb h.up maxPrototypeDepth (h.up id) = _
    rw [up_of_get? hget]
  have hstored : h.storedAt key id = o.properties.get? key := by
    unfold storedAt
    rw [hget]
    rfl
  have hsearch : (h.supplier id key).bind (h.storedAt key) =
      (id :: climb h.up maxPrototypeDepth o.prototype).findSome? (h.storedAt key) := by
    unfold supplier
    rw [climb_eq_of_ends (hok.rest_eq_none hstart (Nat.le_refl _)) hend, hchain]
    refine (findSome?_eq_find?_bind fun a ha => supplies_eq_storedAt fun p hp harray => ?_).symm
    exact hlength a p (reaches_of_mem_climb (hchain ▸ ha)) hp harray
  rw [hsearch, List.findSome?_cons, hstored, inheritedProperty_eq, if_pos hbehind', hclimb]
  cases o.properties.get? key with
  | some stored => rfl
  | none =>
    cases (climb h.up maxPrototypeDepth o.prototype).findSome? (h.storedAt key) <;> rfl

theorem put_eq_putObject (hget : h.objects.get? id = some o) (key value : Value) :
    h.put id key value = h.putObject id o (normalizeKey key) value := by
  have hfetch : h.fetchObject id = .ok o := by
    unfold fetchObject
    rw [hget]
  rw [← Execution.put_heap (fun _ => 8) ⟨h, ⟨0, none, false⟩⟩, Execution.put_eq_generic]
  unfold Execution.putGeneric
  rw [hfetch]
  exact Execution.map_heap _ _

/-- **`put/4` goes by the property of the supplier.** -/
theorem put_eq_supplier (hok : ChainsOk h) (hget : h.objects.get? id = some o)
    (hdeep : ¬ h.TooDeep (some id)) (key value : Value)
    (hlength : h.NoLength id (normalizeKey key)) : h.put id key value = (do
      writableDescriptor ((h.supplier id (normalizeKey key)).bind
        (h.storedAt (normalizeKey key))) (normalizeKey key)
      putNewOrExisting o (normalizeKey key)
      pure (h.store id (o.putProperty (normalizeKey key) value))) := by
  rw [put_eq_putObject hget]
  unfold putObject
  rw [if_neg fun hk => hlength id o .refl hget hk.1 hk.2,
    found_eq_supplier hok hget hdeep hlength]

/-! ### The chains of every heap -/

/-- **Prototype chains stay acyclic**, a prototype is refused exactly where it would close a cycle
or its chain is too deep, and the three walks find the same object. -/
theorem prototypeChains [Value.Platform] (callable : Value → Bool) :
    (∀ (h : Heap) (event : ChainEvent) (h' : Heap), ChainsOk h → LiveEvent h event →
      stepEvent callable h event = some h' → ChainsOk h') ∧
    (∀ (h : Heap) (id : ℕ) (prototype : Option ℕ), ChainsOk h → h.Live id →
      (¬ Acyclic (Function.update h.up id prototype) ∨ h.TooDeep prototype →
        h.setPrototype id prototype = .error .cyclicPrototype ∧
        stepEvent callable h (.write (.setPrototype id prototype)) = some h) ∧
      (Acyclic (Function.update h.up id prototype) → ¬ h.TooDeep prototype →
        ∃ h', h.setPrototype id prototype = .ok h' ∧
          h'.up = Function.update h.up id prototype)) ∧
    ∀ h, (chainMachine callable).ReachableIf LiveEvent h → ∀ id o, h.objects.get? id = some o →
      ∀ key : Value,
        (∃ levels, ∀ m, levels ≤ m → h.hasPropertyFrom (normalizeKey key) m id =
          some (h.supplier id (normalizeKey key)).isSome) ∧
        (¬ h.TooDeep (some id) →
          h.get id key = .ok (((h.supplier id (normalizeKey key)).bind
            (h.readAt (normalizeKey key) id)).getD (.value .undefined)) ∧
          (h.NoLength id (normalizeKey key) → ∀ value, h.put id key value = (do
            writableDescriptor ((h.supplier id (normalizeKey key)).bind
              (h.storedAt (normalizeKey key))) (normalizeKey key)
            putNewOrExisting o (normalizeKey key)
            pure (h.store id (o.putProperty (normalizeKey key) value))))) := by
  refine ⟨fun h event h' hok hlive hs => chainsOk_step callable hok hlive hs,
    fun h id prototype hok hlive => ⟨fun hrefuse => ?_, fun hacyclic hdeep => ?_⟩,
    fun h hr id o hget key => ?_⟩
  · obtain ⟨o, hget⟩ := Assoc.hasKey_iff.1 hlive
    have hcheck := (prototypeContains_iff_cyclic hok id prototype).2 hrefuse
    have hrefused : h.setPrototype id prototype = .error .cyclicPrototype := by
      unfold setPrototype fetchObject
      rw [hget, hcheck]
      rfl
    refine ⟨hrefused, ?_⟩
    unfold stepEvent applyEvent Heap.apply
    dsimp only
    rw [hrefused]
  · obtain ⟨o, hget⟩ := Assoc.hasKey_iff.1 hlive
    have hcheck : h.prototypeContains id (maxPrototypeDepth + 1) prototype = false := by
      refine Bool.eq_false_iff.2 fun hcontains => ?_
      rcases (prototypeContains_iff_cyclic hok id prototype).1 hcontains with hc | hc
      · exact hc hacyclic
      · exact hdeep hc
    refine ⟨h.store id { o with prototype }, ?_, up_store _⟩
    unfold setPrototype fetchObject
    rw [hget, hcheck]
    rfl
  · have hok := chainsOk_of_reachable callable hr
    have hlive := live_of_get? hget
    refine ⟨⟨h.nextObjectId, fun m hm => hasProperty_eq_supplier hok hlive _ hm⟩,
      fun hdeep => ⟨get_eq_supplier hok hlive hdeep key, fun hlength value => ?_⟩⟩
    exact put_eq_supplier hok hget hdeep key value hlength

/-- An object under another one, which is written to and cannot get the first as its own. -/
def samplePair : List ChainEvent :=
  [.write (.allocate .ordinary ⟨none, 0, none, none⟩),
    .write (.allocate .ordinary ⟨some (some 0), 0, none, none⟩),
    .write (.put 0 (.string [120]) (.int 1)), .write (.setPrototype 0 (some 1))]

theorem prototypeChains_samplePair :
    ∃ h, (@chainMachine Value.noNumbers fun _ => false).exec empty samplePair = some h ∧
      h.get 1 (.string [120]) = .ok (((h.supplier 1 (normalizeKey (.string [120]))).bind
        (h.readAt (normalizeKey (.string [120])) 1)).getD (.value .undefined)) ∧
      h.supplier 1 (normalizeKey (.string [120])) = some 0 := by
  have hrun : ∃ h o, (@chainMachine Value.noNumbers fun _ => false).exec empty samplePair =
        some h ∧
      (@chainMachine Value.noNumbers fun _ => false).ReachableIf LiveEvent h ∧
      h.objects.get? 1 = some o ∧ h.supplier 1 (normalizeKey (.string [120])) = some 0 ∧
      rest h.up (maxPrototypeDepth + 1) (some 1) = none := by
    refine ⟨_, _, rfl, ⟨empty, samplePair, rfl, .cons ?_ rfl (.cons ?_ rfl (.cons ?_ rfl
      (.cons ?_ rfl (.nil _))))⟩, rfl, rfl, rfl⟩
    · intro p hp
      cases hp
    · intro p hp
      cases hp
      rfl
    · trivial
    · intro p hp
      cases hp
      rfl
  obtain ⟨h, o, hexec, hreach, hget, hsupplier, hend⟩ := hrun
  refine ⟨h, hexec, ?_, hsupplier⟩
  refine (((@prototypeChains Value.noNumbers fun _ => false).2.2 h hreach 1 o hget _).2 ?_).1
  rintro ⟨b, hb⟩
  rw [hend] at hb
  cases hb

/-! ### Chains that are too deep, references to nothing, and inherited lengths -/

def previous : ℕ → Option ℕ
  | 0 => none
  | n + 1 => some n

/-- Objects in a row, each the prototype of the next. -/
def tower : ℕ → Heap
  | 0 => empty
  | n + 1 => ((tower n).allocate .ordinary ⟨some (previous n), 0, none, none⟩).2

theorem nextObjectId_tower (n : ℕ) : (tower n).nextObjectId = n := by
  induction n with
  | zero => rfl
  | succ n ih => exact congrArg (· + 1) ih

theorem get?_tower {n i : ℕ} (hi : i < n) :
    ∃ o : Object, (tower n).objects.get? i = some o ∧ o.prototype = previous i ∧
      o.kind = .ordinary ∧ o.properties = ∅ := by
  induction n with
  | zero => omega
  | succ n ih =>
    have hlook : (tower (n + 1)).objects.get? i =
        if i = n then some ((tower n).newObject .ordinary ⟨some (previous n), 0, none, none⟩)
        else (tower n).objects.get? i := by
      show ((tower n).objects.put (tower n).nextObjectId _).get? i = _
      rw [nextObjectId_tower, Assoc.get?_put_eq]
      rfl
    rw [hlook]
    split
    · rename_i hin
      subst hin
      exact ⟨_, rfl, rfl, rfl, rfl⟩
    · exact ih (by omega)

theorem chainsOk_tower (n : ℕ) : ChainsOk (tower n) := by
  induction n with
  | zero => exact chainsOk_empty
  | succ n ih =>
    refine chainsOk_storeNew ih fun prototype hp => ?_
    change previous n = some prototype at hp
    cases n with
    | zero => cases hp
    | succ k =>
      cases hp
      obtain ⟨o, hget, -⟩ := get?_tower (Nat.lt_succ_self _)
      exact live_of_get? hget

theorem rest_tower {n : ℕ} (j : ℕ) : ∀ k, k + j < n →
    rest (tower n).up k (some (k + j)) = some j := by
  intro k
  induction k with
  | zero =>
    intro _
    exact congrArg some (Nat.zero_add j)
  | succ k ih =>
    intro hlt
    obtain ⟨o, hget, hp, -⟩ := get?_tower hlt
    have hup : (tower n).up (k + 1 + j) = some (k + j) := by
      rw [up_of_get? hget, hp, show k + 1 + j = k + j + 1 by omega]
      rfl
    show rest (tower n).up k ((tower n).up (k + 1 + j)) = some j
    rw [hup]
    exact ih (by omega)

theorem readAt_tower (n : ℕ) (key : Key) (receiver id : ℕ) :
    (tower n).readAt key receiver id = none := by
  unfold readAt
  by_cases hid : id < n
  · obtain ⟨o, hget, -, hkind, hprops⟩ := get?_tower hid
    rw [hget, Option.bind_some, hkind, hprops, if_neg fun hk => by cases hk.1]
    rfl
  · cases hget : (tower n).objects.get? id with
    | none => rfl
    | some o =>
      have hlt := (chainsOk_tower n).id_lt id (live_of_get? hget)
      rw [nextObjectId_tower] at hlt
      exact absurd hlt hid

def arrayBelow : Heap :=
  ((empty.allocate .array noAllocateOptions).2.allocate .ordinary
    ⟨some (some 0), 0, none, none⟩).2

/-- An object under a prototype that is not there yet. -/
def dangling : Heap := (empty.allocate .ordinary ⟨some (some 1), 0, none, none⟩).2

/-- A reference to nothing lets an allocation close a cycle; a chain that is too deep is refused
as a cycle and cannot be read; a write below an array does not see its length. -/
theorem prototypeChains_limits :
    (¬ ∀ (h : Heap) (kind : Kind) (opts : AllocateOptions), Acyclic h.up →
      Acyclic (h.allocate kind opts).2.up) ∧
    (¬ ∀ (h : Heap) (id : ℕ) (prototype : Option ℕ), ChainsOk h →
      h.setPrototype id prototype = .error .cyclicPrototype →
      ¬ Acyclic (Function.update h.up id prototype)) ∧
    (¬ ∀ (h : Heap) (id : ℕ) (key : Value), ChainsOk h → h.Live id →
      ∃ read, h.get id key = .ok read) ∧
    ¬ ∀ (h : Heap) (id : ℕ) (o : Object) (key : Key), ChainsOk h → h.objects.get? id = some o →
      ((o.properties.get? key).orElse fun _ =>
        h.inheritedProperty key (maxPrototypeDepth + 1) o.prototype).isSome =
          (h.supplier id key).isSome := by
  refine ⟨fun hall => ?_, fun hall => ?_, fun hall => ?_, fun hall => ?_⟩
  · have hdangling : Acyclic dangling.up := by
      intro a hpath
      obtain ⟨b, hstep, hrest⟩ := Relation.TransGen.head'_iff.1 hpath
      have hup : dangling.up = Function.update (fun _ => none) 0 (some 1) := by
        funext id
        unfold up
        show ((Assoc.put ∅ 0 _ : Assoc ℕ Object).get? id).bind Object.prototype = _
        rw [Assoc.get?_put_eq, Function.update_apply]
        split <;> rfl
      rw [hup] at hstep hrest
      rcases step_update_iff.1 hstep with ⟨rfl, hb⟩ | ⟨-, hb⟩
      · cases hb
        rcases Relation.ReflTransGen.cases_head hrest with h | ⟨c, hstep', -⟩
        · cases h
        · rcases step_update_iff.1 hstep' with ⟨h, -⟩ | ⟨-, h⟩
          · cases h
          · cases h
      · cases hb
    refine hall dangling .ordinary ⟨some (some 0), 0, none, none⟩ hdangling 0 ?_
    exact .tail (.single (show _ = some 1 from rfl)) (show _ = some 0 from rfl)
  · obtain ⟨o, hget, hp, -⟩ := get?_tower (show 1002 < 1003 by omega)
    have hup : (tower 1003).up 1002 = some 1001 := (up_of_get? hget).trans hp
    have hdeep : (tower 1003).TooDeep (some 1001) := ⟨0, rest_tower 0 1001 (by omega)⟩
    have hcheck := (prototypeContains_iff_cyclic (chainsOk_tower 1003) 1002 (some 1001)).2
      (.inr hdeep)
    refine hall (tower 1003) 1002 (some 1001) (chainsOk_tower 1003) ?_ ?_
    · unfold setPrototype fetchObject
      rw [hget, hcheck]
      rfl
    · rw [← hup, Function.update_eq_self]
      exact (chainsOk_tower 1003).acyclic
  · obtain ⟨o, hget, -⟩ := get?_tower (show 1002 < 1003 by omega)
    obtain ⟨read, hread⟩ := hall (tower 1003) 1002 .null (chainsOk_tower 1003)
      (live_of_get? hget)
    have hnone : (climb (tower 1003).up (maxPrototypeDepth + 1) (some 1002)).findSome?
        ((tower 1003).readAt (normalizeKey .null) 1002) = none :=
      List.findSome?_eq_none_iff.2 fun a _ => readAt_tower 1003 _ 1002 a
    have hrest : rest (tower 1003).up (maxPrototypeDepth + 1) (some 1002) = some 1 :=
      rest_tower 1 1001 (by omega)
    unfold get at hread
    rw [getFrom_eq (chainsOk_tower 1003) _ _ _ _ (live_of_get? hget), hnone, hrest] at hread
    cases hread
  · have hok : ChainsOk arrayBelow := by
      refine chainsOk_storeNew (chainsOk_storeNew chainsOk_empty fun p hp => (by cases hp))
        fun p hp => ?_
      cases hp
      rfl
    have hbelow : ∃ o : Object, arrayBelow.objects.get? 1 = some o ∧
        ((o.properties.get? lengthKey).orElse fun _ =>
          arrayBelow.inheritedProperty lengthKey (maxPrototypeDepth + 1) o.prototype) = none ∧
        arrayBelow.supplier 1 lengthKey = some 0 := ⟨_, rfl, rfl, rfl⟩
    obtain ⟨o, hget, hfound, hsupplier⟩ := hbelow
    have hsame := hall arrayBelow 1 o lengthKey hok hget
    rw [hfound, hsupplier] at hsame
    cases hsame

end Heap

end QuickBeam.Vm.Runtime
