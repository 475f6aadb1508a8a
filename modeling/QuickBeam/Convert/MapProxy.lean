import QuickBeam.Lib.OrdinaryObject
import QuickBeam.Lib.Transition
import QuickBeam.Text.TextDecoder

/-!
# Lazy map proxies (`beam_proxy.zig`)

A proxy holds a map and, once something has been written, a plain object with the overrides.  Its
exotic methods ask both; the proxy has no properties of its own besides, and its prototype is
`Object.prototype`.  `JS_SetProperty` on the overrides may fail or run a setter, and its result is
ignored.  There is no `delete_property`.  `JS_GetProperty`, `JS_SetProperty`, `JS_DefineProperty`,
`delete_property` and `JS_GetOwnPropertyNames` of QuickJS on a plain object are the operations of
`OrdinaryObject`.

The machine runs the same operations on a proxy and on the ordinary object with the converted
entries, and keeps what each of the two showed.  A key that is an atom stands for the string of its
characters.  Objects made from a term are compared by the term: a proxy makes a new one for each
reading.
-/

namespace QuickBeam.Convert.MapProxy

open QuickBeam.Lib QuickBeam.Lib.Javascript

/-! ### Maps -/

inductive MapKey where
  | binary (bytes : List UInt8)
  | atom (name : List Char)
  deriving DecidableEq

structure BeamMap (T : Type) where
  entries : List (MapKey × T)
  nodup : (entries.map Prod.fst).Nodup

/-- What the proxies take from outside: the text QuickJS reads from bytes, the value made from a term,
what getters return, the object that a value is, and `Object.prototype`. -/
structure Engine (T V : Type) where
  text : List UInt8 → List UInt8
  convertValue : T → Value V
  call : V → Value V
  prototypeOf : Value V → Option (Prototype V)
  objectPrototype : Prototype V

def fromLatin1 (bytes : List UInt8) : List Char := bytes.map fun b => Char.ofNat b.toNat

/-- `enif_get_atom` with `ERL_NIF_LATIN1` gives nothing for another atom. -/
def toLatin1 (name : List Char) : List UInt8 :=
  if name.all (fun c => c.toNat < 256) then name.map fun c => UInt8.ofNat c.toNat else []

/-! ### Proxies -/

variable {T V : Type}

structure BeamProxyData (T V : Type) where
  term : BeamMap T
  overrides : Option (OrdinaryObject V)

namespace BeamProxyData

def lookupKey (data : BeamProxyData T V) (key : List UInt8) : Option T :=
  (data.term.entries.lookup (.binary key)).or (data.term.entries.lookup (.atom (fromLatin1 key)))

/-- `JS_AtomToCStringLen` gives the description of a symbol. -/
def cString : PropertyKey → List UInt8
  | .string utf8 => utf8
  | .symbol _ description => description

def override (engine : Engine T V) (data : BeamProxyData T V) (prop : PropertyKey) : Value V :=
  match data.overrides with
  | some overrides => overrides.get engine.call prop
  | none => .undefined

def getOwnProperty (engine : Engine T V) (data : BeamProxyData T V) (prop : PropertyKey) :
    Option (Property V) :=
  match data.override engine prop with
  | .of value => some (.data (.of value) true true true)
  | .undefined =>
    (data.lookupKey (cString prop)).map fun term =>
      .data (engine.convertValue term) true true true

/-- The bytes that `get_own_property_names` copies of a key. -/
def keyStr : MapKey → List UInt8
  | .binary bytes => bytes.take 256
  | .atom name => toLatin1 name

/-- `get_own_property_names`: the keys of the map, then the enumerable strings among the overrides
that are not in the map. -/
def getOwnPropertyNames (engine : Engine T V) (data : BeamProxyData T V) : List PropertyKey :=
  (((data.term.entries.map fun entry => keyStr entry.1).filter fun key => key ≠ []).map fun key =>
      .string (engine.text key)) ++
    match data.overrides with
    | some overrides =>
      overrides.keys.filter fun name => (data.lookupKey (cString name)).isNone
    | none => []

def ensureOverrides (engine : Engine T V) (data : BeamProxyData T V) : OrdinaryObject V :=
  data.overrides.getD (OrdinaryObject.empty engine.objectPrototype)

/-- `JS_SetProperty` on the overrides, with the result dropped. -/
def writeOverride (engine : Engine T V) (data : BeamProxyData T V) (prop : PropertyKey)
    (value : Value V) : BeamProxyData T V :=
  { data with
    overrides := some ((data.ensureOverrides engine).set engine.prototypeOf prop value).1 }

def setProperty (engine : Engine T V) (data : BeamProxyData T V) (prop : PropertyKey)
    (value : Value V) : BeamProxyData T V × Bool :=
  (data.writeOverride engine prop value, true)

/-- `define_own_property`; an absent value is undefined, and the other fields do not matter. -/
def defineOwnProperty (engine : Engine T V) (data : BeamProxyData T V) (prop : PropertyKey)
    (d : Descriptor V) : BeamProxyData T V × Bool :=
  (data.writeOverride engine prop (d.value.getD .undefined), true)

/-- `has_property`, which ends the search: the prototypes are not asked. -/
def hasProperty (engine : Engine T V) (data : BeamProxyData T V) (prop : PropertyKey) : Bool :=
  match data.override engine prop with
  | .of _ => true
  | .undefined => (data.lookupKey (cString prop)).isSome

def get (engine : Engine T V) (data : BeamProxyData T V) (prop : PropertyKey) : Value V :=
  match data.getOwnProperty engine prop with
  | some property => property.read engine.call
  | none => (engine.objectPrototype.lookup prop).getD .undefined

/-- `JS_GetOwnPropertyNames` with `JS_GPN_ENUM_ONLY`: the names that have a property; all properties of a
proxy are enumerable, and exotic names are not reordered. -/
def keys (engine : Engine T V) (data : BeamProxyData T V) : List PropertyKey :=
  (data.getOwnPropertyNames engine).filter fun name => (data.getOwnProperty engine name).isSome

end BeamProxyData

/-! ### The ordinary object -/

def nameOf (engine : Engine T V) : MapKey → PropertyKey
  | .binary bytes => .string (engine.text bytes)
  | .atom name => .string (name.flatMap String.utf8EncodeChar)

def ordinaryObject (engine : Engine T V) (term : BeamMap T) : OrdinaryObject V :=
  ⟨term.entries.foldl
    (fun written entry =>
      putEntry (nameOf engine entry.1)
        (Property.data (engine.convertValue entry.2) true true true) written) [],
    engine.objectPrototype⟩

/-! ### Operations on both -/

inductive Operation (V : Type) where
  | get (key : PropertyKey)
  | getOwn (key : PropertyKey)
  | set (key : PropertyKey) (value : Value V)
  | define (key : PropertyKey) (d : Descriptor V)
  | delete (key : PropertyKey)
  | has (key : PropertyKey)
  | ownKeys
  /-- Enumeration. -/
  | keys

inductive Observation (V : Type) where
  | value (value : Value V)
  | property (property : Option (Property V))
  | done (ok : Bool)
  | names (names : List PropertyKey)

def Operation.key? : Operation V → Option PropertyKey
  | .get key => some key
  | .getOwn key => some key
  | .set key _ => some key
  | .define key _ => some key
  | .delete key => some key
  | .has key => some key
  | .ownKeys => none
  | .keys => none

def runProxy (engine : Engine T V) (data : BeamProxyData T V) :
    Operation V → BeamProxyData T V × Observation V
  | .get key => (data, .value (data.get engine key))
  | .getOwn key => (data, .property (data.getOwnProperty engine key))
  | .set key value =>
    ((data.setProperty engine key value).1, .done (data.setProperty engine key value).2)
  | .define key d =>
    ((data.defineOwnProperty engine key d).1, .done (data.defineOwnProperty engine key d).2)
  -- without a `delete_property`, `delete` finds nothing in the proxy itself
  | .delete _ => (data, .done true)
  | .has key => (data, .done (data.hasProperty engine key))
  | .ownKeys => (data, .names (data.getOwnPropertyNames engine))
  | .keys => (data, .names (data.keys engine))

def runObject [DecidableEq V] (engine : Engine T V) (object : OrdinaryObject V) :
    Operation V → OrdinaryObject V × Observation V
  | .get key => (object, .value (object.get engine.call key))
  | .getOwn key => (object, .property (object.getOwn key))
  | .set key value =>
    ((object.set engine.prototypeOf key value).1,
      .done (object.set engine.prototypeOf key value).2)
  | .define key d => ((object.define key d).1, .done (object.define key d).2)
  | .delete key => ((object.delete key).1, .done (object.delete key).2)
  | .has key => (object, .done (object.has key))
  | .ownKeys => (object, .names object.ownKeys)
  | .keys => (object, .names object.keys)

/-- One operation: the proxy before and after it, and what the proxy and the ordinary object showed. -/
structure Step (T V : Type) where
  operation : Operation V
  before : BeamProxyData T V
  after : BeamProxyData T V
  shown : Observation V
  expected : Observation V

structure State (T V : Type) where
  proxy : BeamProxyData T V
  object : OrdinaryObject V
  steps : List (Step T V)

def stepBoth [DecidableEq V] (engine : Engine T V) (s : State T V) (operation : Operation V) :
    State T V :=
  { proxy := (runProxy engine s.proxy operation).1
    object := (runObject engine s.object operation).1
    steps := s.steps ++
      [{ operation
         before := s.proxy
         after := (runProxy engine s.proxy operation).1
         shown := (runProxy engine s.proxy operation).2
         expected := (runObject engine s.object operation).2 }] }

def create (engine : Engine T V) (term : BeamMap T) : State T V :=
  ⟨⟨term, none⟩, ordinaryObject engine term, []⟩

def machine [DecidableEq V] (engine : Engine T V) : Machine (State T V) (Operation V) where
  init s := ∃ term, s = create engine term
  step s operation := some (stepBoth engine s operation)

/-! ### What a proxy should do -/

structure BehavesPlainly (engine : Engine T V) (s : State T V) : Prop where
  /-- Every observation is the one an ordinary object gives. -/
  observed : ∀ step ∈ s.steps, step.shown = step.expected
  /-- No property appears or changes but the one that is named. -/
  unnamed : ∀ step ∈ s.steps, ∀ key, step.operation.key? ≠ some key →
    step.after.getOwnProperty engine key = step.before.getOwnProperty engine key ∧
      step.after.hasProperty engine key = step.before.hasProperty engine key

/-! ### When it does -/

def Readable : MapKey → Prop
  | .binary bytes => Text.validateUtf8 bytes = true
  | .atom name => ∀ c ∈ name, c.toNat < 128

instance : DecidablePred Readable := fun
  | .binary _ => inferInstanceAs (Decidable (_ = true))
  | .atom name => inferInstanceAs (Decidable (∀ c ∈ name, c.toNat < 128))

def NamesOneKey (engine : Engine T V) (term : BeamMap T) (name : List UInt8) : Prop :=
  (∀ key ∈ term.entries.map Prod.fst, nameOf engine key = .string name ∨ key = .binary name ∨
      key = .atom (fromLatin1 name) → Readable key) ∧
    ∀ key ∈ term.entries.map Prod.fst, ∀ other ∈ term.entries.map Prod.fst,
      nameOf engine key = .string name → nameOf engine other = .string name → key = other

instance (engine : Engine T V) (term : BeamMap T) (name : List UInt8) :
    Decidable (NamesOneKey engine term name) := inferInstanceAs (Decidable (_ ∧ _))

def written (data : BeamProxyData T V) (key : PropertyKey) : Bool :=
  match data.overrides with
  | some overrides => (overrides.getOwn key).isSome
  | none => false

/-- The proxy finds what belongs to a name: it was written, it names one key of the map at most, or it is
a symbol that no key describes. -/
def FindsOwn (engine : Engine T V) (data : BeamProxyData T V) (key : PropertyKey) : Prop :=
  written data key = true ∨
    match key with
    | .string name => NamesOneKey engine data.term name
    | .symbol _ description => data.lookupKey description = none

/-- The prototypes do not take the write, and at the first write they have no property but this one
that the overrides could inherit. -/
def MayWrite (engine : Engine T V) (data : BeamProxyData T V) (key : PropertyKey) : Prop :=
  engine.objectPrototype.assign key = .create ∧
    (data.overrides = none →
      ∀ other value, engine.objectPrototype.lookup other = some (.of value) → other = key)

/-- A descriptor that does what a write does: it has a value, and the other fields of a property are
true, given or taken over. -/
def DefinesAsWrite (d : Descriptor V) (old : Option (Property V)) : Prop :=
  (∃ value, d.value = some (.of value)) ∧
    if old.isSome then
      d.writable ≠ some false ∧ d.enumerable ≠ some false ∧ d.configurable ≠ some false
    else d.writable = some true ∧ d.enumerable = some true ∧ d.configurable = some true

def mapNames (engine : Engine T V) (term : BeamMap T) : List PropertyKey :=
  term.entries.map fun entry => nameOf engine entry.1

def ListedInFull : MapKey → Prop
  | .binary bytes => Text.validateUtf8 bytes = true ∧ bytes ≠ [] ∧ bytes.length ≤ 256
  | .atom name => (∀ c ∈ name, c.toNat < 128) ∧ name ≠ []

instance : DecidablePred ListedInFull := fun
  | .binary _ => inferInstanceAs (Decidable (_ ∧ _ ∧ _))
  | .atom _ => inferInstanceAs (Decidable (_ ∧ _))

/-- The keys are listed in full under different names, and in the order of properties they come first,
in the order of the map. -/
def MayList (engine : Engine T V) (term : BeamMap T) (object : OrdinaryObject V) : Prop :=
  (∀ key ∈ term.entries.map Prod.fst, ListedInFull key) ∧
    (mapNames engine term).Nodup ∧
    stringOrder object.names = mapNames engine term ++
      stringOrder (object.names.filter fun name => name ∉ mapNames engine term)

instance (engine : Engine T V) (term : BeamMap T) (object : OrdinaryObject V) :
    Decidable (MayList engine term object) := inferInstanceAs (Decidable (_ ∧ _ ∧ _))

def StepCondition (engine : Engine T V) (s : State T V) : Operation V → Prop
  | .get key => FindsOwn engine s.proxy key
  | .getOwn key => FindsOwn engine s.proxy key
  | .set key value => MayWrite engine s.proxy key ∧ value ≠ .undefined
  | .define key d => MayWrite engine s.proxy key ∧ DefinesAsWrite d (s.object.getOwn key)
  | .delete key => s.object.getOwn key = none
  | .has key => FindsOwn engine s.proxy key ∧
      (s.object.getOwn key = none → engine.objectPrototype.lookup key = none)
  | .ownKeys => MayList engine s.proxy.term s.object ∧ ∀ name ∈ s.object.names, name.isSymbol = false
  | .keys => MayList engine s.proxy.term s.object

end QuickBeam.Convert.MapProxy
