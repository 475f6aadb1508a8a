import QuickBeam.Lib.Assoc
import QuickBeam.Lib.KeyClasses
import QuickBeam.Vm.Runtime.Value

/-!
# Maps and sets (`builtin/map.ex`, `builtin/set.ex`)

A Map keeps its entries in a list, a Set its values in a list with an index of normalised keys.
An iterator holds the entries that stood when it was opened, and a position.
-/

namespace QuickBeam.Vm.Builtin

open QuickBeam.Lib QuickBeam.Vm.Program

/-! ### Keys -/

/-- `same_key?/2` of maps, `same_value_zero?/2` of sets. -/
def sameKey (left right : Value) : Bool :=
  match left, right with
  | .nan, .nan => true
  | left, right => Value.strictEqual left right

/-- `{:number, key}`, or the value itself. -/
inductive SetKey where
  | nan
  | int (n : ℤ)
  | float (x : Double)
  | value (v : Value)
deriving DecidableEq

def setKey : Value → SetKey
  | .nan => .nan
  | .int n => .int n
  | .float x =>
      if x.isZero then .int 0
      else if Value.numEq (.int x.trunc) (.float x) then .int x.trunc
      else .float x
  | v => .value v

/-! ### Objects -/

inductive IteratorKind where
  | keys
  | values
  | entries
deriving DecidableEq

/-- What stands in `internal`, of a map, a set, an iterator, or another object. -/
inductive Internal where
  | other
  | map (entries : List (Value × Value))
  | mapIterator (entries : List (Value × Value)) (index : ℕ) (kind : IteratorKind)
  | set (values : List Value) (index : Finset SetKey)
  | setIterator (values : List Value) (index : ℕ)

/-- The part of the heap that the operations read and write. -/
structure Objects where
  internals : Assoc ℕ Internal
  nextObjectId : ℕ

namespace Objects

def empty : Objects := ⟨∅, 0⟩

def fetch (objects : Objects) (id : ℕ) : Option Internal := objects.internals.get? id

/-- `Heap.update_object/3` on an object that is there. -/
def store (objects : Objects) (id : ℕ) (internal : Internal) : Objects :=
  { objects with internals := objects.internals.put id internal }

def allocate (objects : Objects) (internal : Internal) : ℕ × Objects :=
  (objects.nextObjectId,
    ⟨objects.internals.put objects.nextObjectId internal, objects.nextObjectId + 1⟩)

end Objects

/-! ### Answers -/

inductive Reason where
  | incompatibleMapReceiver
  | incompatibleMapIteratorReceiver
  | incompatibleSetReceiver
  | incompatibleSetIteratorReceiver
  | invalidReference (id : ℕ)
deriving DecidableEq

/-- What an iterator gives: nothing, a key, a value, or an array of both. -/
inductive Item (κ : Type) where
  | undefined
  | key (k : κ)
  | value (v : Value)
  | entry (k : κ) (v : Value)

inductive Answer (κ : Type) where
  | value (v : Value)
  | next (item : Item κ) (done : Bool)

def Item.map {κ κ' : Type} (f : κ → κ') : Item κ → Item κ'
  | .undefined => .undefined
  | .key k => .key (f k)
  | .value v => .value v
  | .entry k v => .entry (f k) v

def Answer.map {κ κ' : Type} (f : κ → κ') : Answer κ → Answer κ'
  | .value v => .value v
  | .next item done => .next (item.map f) done

abbrev Outcome := Except Reason (Answer Value) × Objects

structure Call where
  this : Value
  arguments : List Value

def Call.argument (call : Call) (position : ℕ) : Value := call.arguments.getD position .undefined

/-! ### Map -/

namespace Map

def putEntry (entries : List (Value × Value)) (key value : Value) : List (Value × Value) :=
  placeBy sameKey (entries ++ [(key, value)]) entries key value

def putEntryPrepend (entries : List (Value × Value)) (key value : Value) : List (Value × Value) :=
  placeBy sameKey ((key, value) :: entries) entries key value

def findEntry (entries : List (Value × Value)) (key : Value) : Value :=
  match entries.find? fun entry => sameKey entry.1 key with
  | some (_, value) => value
  | none => .undefined

def initializeMap (receiver : ℕ) (entries : List (Value × Value)) (objects : Objects) : Outcome :=
  match objects.fetch receiver with
  | some _ =>
      let prepended := entries.foldl (fun acc entry => putEntryPrepend acc entry.1 entry.2) []
      (.ok (.value (.reference receiver)), objects.store receiver (.map prepended.reverse))
  | none => (.error (.invalidReference receiver), objects)

def withEntries (call : Call) (objects : Objects)
    (method : ℕ → List (Value × Value) → Outcome) : Outcome :=
  match call.this with
  | .reference map =>
      match objects.fetch map with
      | some (.map entries) => method map entries
      | _ => (.error .incompatibleMapReceiver, objects)
  | _ => (.error .incompatibleMapReceiver, objects)

def updateMap (call : Call) (objects : Objects)
    (update : List (Value × Value) → List (Value × Value)) (result : Value) : Outcome :=
  withEntries call objects fun map entries =>
    (.ok (.value result), objects.store map (.map (update entries)))

def clear (call : Call) (objects : Objects) : Outcome :=
  updateMap call objects (fun _ => []) .undefined

def delete (call : Call) (objects : Objects) : Outcome :=
  withEntries call objects fun _ entries =>
    let key := call.argument 0
    let found := entries.any fun entry => sameKey entry.1 key
    let retained := entries.filter fun entry => !sameKey entry.1 key
    updateMap call objects (fun _ => retained) (.bool found)

def get (call : Call) (objects : Objects) : Outcome :=
  withEntries call objects fun _ entries =>
    (.ok (.value (findEntry entries (call.argument 0))), objects)

def has (call : Call) (objects : Objects) : Outcome :=
  withEntries call objects fun _ entries =>
    (.ok (.value (.bool (entries.any fun entry => sameKey entry.1 (call.argument 0)))), objects)

def set (call : Call) (objects : Objects) : Outcome :=
  updateMap call objects (fun entries => putEntry entries (call.argument 0) (call.argument 1))
    call.this

def size (call : Call) (objects : Objects) : Outcome :=
  withEntries call objects fun _ entries => (.ok (.value (.int entries.length)), objects)

/-- `map_iterator/2`, for `entries/1`, `keys/1` and `values/1`. -/
def mapIterator (kind : IteratorKind) (call : Call) (objects : Objects) : Outcome :=
  withEntries call objects fun _ entries =>
    let (iterator, objects) := objects.allocate (.mapIterator entries 0 kind)
    (.ok (.value (.reference iterator)), objects)

def iteratorValue (entries : List (Value × Value)) (index : ℕ) (kind : IteratorKind) : Item Value :=
  match entries[index]?, kind with
  | some (key, _), .keys => .key key
  | some (_, value), .values => .value value
  | some (key, value), .entries => .entry key value
  | none, _ => .undefined

def next (call : Call) (objects : Objects) : Outcome :=
  match call.this with
  | .reference iterator =>
      match objects.fetch iterator with
      | some (.mapIterator entries index kind) =>
          let done : Bool := entries.length ≤ index
          let item := if done then .undefined else iteratorValue entries index kind
          (.ok (.next item done),
            objects.store iterator (.mapIterator entries (if done then index else index + 1) kind))
      | _ => (.error .incompatibleMapIteratorReceiver, objects)
  | _ => (.error .incompatibleMapIteratorReceiver, objects)

end Map

/-! ### Set -/

namespace Set

def initializeSet (receiver : ℕ) (values : List Value) (objects : Objects) : Outcome :=
  match objects.fetch receiver with
  | some _ =>
      let (reversed, index) := values.foldl (fun (acc : List Value × Finset SetKey) value =>
        if setKey value ∈ acc.2 then acc else (value :: acc.1, insert (setKey value) acc.2)) ([], ∅)
      (.ok (.value (.reference receiver)), objects.store receiver (.set reversed.reverse index))
  | none => (.error (.invalidReference receiver), objects)

def withValues (call : Call) (objects : Objects)
    (method : ℕ → List Value → Finset SetKey → Outcome) : Outcome :=
  match call.this with
  | .reference set =>
      match objects.fetch set with
      | some (.set values index) => method set values index
      | _ => (.error .incompatibleSetReceiver, objects)
  | _ => (.error .incompatibleSetReceiver, objects)

def add (call : Call) (objects : Objects) : Outcome :=
  match call.this with
  | .reference set =>
      match objects.fetch set with
      | some (.set values index) =>
          let value := call.argument 0
          let objects := if setKey value ∈ index then objects
            else objects.store set (.set (values ++ [value]) (insert (setKey value) index))
          (.ok (.value (.reference set)), objects)
      | some _ => (.error .incompatibleSetReceiver, objects)
      | none => (.error (.invalidReference set), objects)
  | _ => (.error .incompatibleSetReceiver, objects)

def delete (call : Call) (objects : Objects) : Outcome :=
  withValues call objects fun set values index =>
    let value := call.argument 0
    let key := setKey value
    let found : Bool := key ∈ index
    (.ok (.value (.bool found)),
      objects.store set (.set (values.filter fun v => !sameKey v value) (index.erase key)))

def has (call : Call) (objects : Objects) : Outcome :=
  withValues call objects fun _ _ index =>
    (.ok (.value (.bool (setKey (call.argument 0) ∈ index))), objects)

def size (call : Call) (objects : Objects) : Outcome :=
  withValues call objects fun _ values _ => (.ok (.value (.int values.length)), objects)

def values (call : Call) (objects : Objects) : Outcome :=
  withValues call objects fun _ values _ =>
    let (iterator, objects) := objects.allocate (.setIterator values 0)
    (.ok (.value (.reference iterator)), objects)

def next (call : Call) (objects : Objects) : Outcome :=
  match call.this with
  | .reference iterator =>
      match objects.fetch iterator with
      | some (.setIterator values index) =>
          let done : Bool := values.length ≤ index
          let item := if done then .undefined else .key (values.getD index .null)
          (.ok (.next item done),
            objects.store iterator (.setIterator values (if done then index else index + 1)))
      | _ => (.error .incompatibleSetIteratorReceiver, objects)
  | _ => (.error .incompatibleSetIteratorReceiver, objects)

end Set

/-! ### Operations -/

inductive Method where
  | mapClear
  | mapDelete
  | mapGet
  | mapHas
  | mapSet
  | mapSize
  | mapIterator (kind : IteratorKind)
  | mapNext
  | setAdd
  | setDelete
  | setHas
  | setSize
  | setValues
  | setNext

inductive Operation where
  | allocate
  | initializeMap (receiver : ℕ) (entries : List (Value × Value))
  | initializeSet (receiver : ℕ) (values : List Value)
  | call (method : Method) (call : Call)

def invoke : Method → Call → Objects → Outcome
  | .mapClear => Map.clear
  | .mapDelete => Map.delete
  | .mapGet => Map.get
  | .mapHas => Map.has
  | .mapSet => Map.set
  | .mapSize => Map.size
  | .mapIterator kind => Map.mapIterator kind
  | .mapNext => Map.next
  | .setAdd => Set.add
  | .setDelete => Set.delete
  | .setHas => Set.has
  | .setSize => Set.size
  | .setValues => Set.values
  | .setNext => Set.next

def perform (objects : Objects) : Operation → Outcome
  | .allocate =>
      let (id, objects) := objects.allocate .other
      (.ok (.value (.reference id)), objects)
  | .initializeMap receiver entries => Map.initializeMap receiver entries objects
  | .initializeSet receiver values => Set.initializeSet receiver values objects
  | .call method call => invoke method call objects

def performAll (objects : Objects) : List Operation → List (Except Reason (Answer Value)) × Objects
  | [] => ([], objects)
  | operation :: operations =>
      let (answer, objects) := perform objects operation
      let (answers, objects) := performAll objects operations
      (answer :: answers, objects)

end QuickBeam.Vm.Builtin
