import Mathlib.Data.List.Sort
import QuickBeam.Lib.Entries

/-!
# Ordinary objects of JavaScript

An ordinary object is a list of properties in the order they were created and what its chain of
prototypes does with the names that are not its own.  Functions are not run: `call` says what a
getter returns, and a setter changes nothing of the object.  All objects are extensible.

Array indices come first among the names of an object, in ascending order, then the other strings,
then the symbols.  `stringOrder` is the order of the first two.
-/

namespace QuickBeam.Lib.Javascript

/-! ### Names -/

inductive PropertyKey where
  | string (utf8 : List UInt8)
  | symbol (id : ℕ) (description : List UInt8)
  deriving DecidableEq

namespace PropertyKey

def decimal (digits : List UInt8) : ℕ := digits.foldl (fun n digit => 10 * n + (digit.toNat - 48)) 0

/-- The array index that a name is: a canonical decimal below 2^32 - 1. -/
def arrayIndex : PropertyKey → Option ℕ
  | string utf8 =>
    if utf8 ≠ [] ∧ utf8.all (fun digit => 48 ≤ digit && digit ≤ 57) ∧
        (utf8.head? = some 48 → utf8.length = 1) ∧ decimal utf8 < 2 ^ 32 - 1 then
      some (decimal utf8)
    else none
  | symbol _ _ => none

def isIndex (key : PropertyKey) : Bool := key.arrayIndex.isSome

def isSymbol : PropertyKey → Bool
  | string _ => false
  | symbol _ _ => true

def Before (a b : PropertyKey) : Prop := a.arrayIndex.getD 0 ≤ b.arrayIndex.getD 0

instance : DecidableRel Before := fun a b =>
  inferInstanceAs (Decidable (a.arrayIndex.getD 0 ≤ b.arrayIndex.getD 0))

instance : IsTrans PropertyKey Before := ⟨fun _ _ _ hab hbc => Nat.le_trans hab hbc⟩

instance : Std.Total Before := ⟨fun a b => Nat.le_total (a.arrayIndex.getD 0) (b.arrayIndex.getD 0)⟩

end PropertyKey

/-- The strings among some names: first the array indices in ascending order, then the others as they
come. -/
def stringOrder (names : List PropertyKey) : List PropertyKey :=
  (names.filter PropertyKey.isIndex).insertionSort PropertyKey.Before ++
    names.filter fun name => !name.isIndex && !name.isSymbol

section Order

variable {α : Type*} {r : α → α → Prop} [DecidableRel r] [IsTrans α r]

theorem filter_orderedInsert (p : α → Bool) (a : α) :
    ∀ {l : List α}, l.Pairwise r →
      (l.orderedInsert r a).filter p =
        if p a then (l.filter p).orderedInsert r a else l.filter p
  | [], _ => by
    rw [List.orderedInsert_nil, List.filter_nil, List.orderedInsert_nil, List.filter_cons,
      List.filter_nil]
  | b :: l, hsorted => by
    rw [List.pairwise_cons] at hsorted
    by_cases hab : r a b
    · -- `a` comes before the whole rest, so before what is kept of it
      have hfirst : ∀ c ∈ (b :: l).filter p, r a c := by
        intro c hc
        rcases List.mem_cons.1 (List.mem_filter.1 hc).1 with rfl | hmem
        · exact hab
        · exact IsTrans.trans _ _ _ hab (hsorted.1 c hmem)
      rw [List.orderedInsert_cons_of_le r l hab, List.filter_cons]
      split
      · cases hl : (b :: l).filter p with
        | nil => rfl
        | cons c rest =>
          rw [hl] at hfirst
          rw [List.orderedInsert_cons_of_le r rest (hfirst c (List.mem_cons_self ..))]
      · rfl
    · rw [List.orderedInsert_of_not_le r l hab, List.filter_cons, filter_orderedInsert p a hsorted.2,
        List.filter_cons]
      by_cases ha : p a = true <;> by_cases hb : p b = true
      · rw [if_pos hb, if_pos ha, if_pos ha, if_pos hb, List.orderedInsert_of_not_le r _ hab]
      · rw [if_neg hb, if_pos ha, if_pos ha, if_neg hb]
      · rw [if_pos hb, if_neg ha, if_neg ha, if_pos hb]
      · rw [if_neg hb, if_neg ha, if_neg ha, if_neg hb]

theorem filter_insertionSort [Std.Total r] (p : α → Bool) (l : List α) :
    (l.insertionSort r).filter p = (l.filter p).insertionSort r := by
  induction l with
  | nil => rfl
  | cons a l ih =>
    rw [List.insertionSort_cons, filter_orderedInsert p a (List.pairwise_insertionSort r l), ih,
      List.filter_cons]
    split
    · rw [List.insertionSort_cons]
    · rfl

end Order

theorem stringOrder_filter (p : PropertyKey → Bool) (names : List PropertyKey) :
    (stringOrder names).filter p = stringOrder (names.filter p) := by
  have hcomm : ∀ q : PropertyKey → Bool,
      (names.filter q).filter p = (names.filter p).filter q := by
    intro q
    rw [List.filter_filter, List.filter_filter]
    exact List.filter_congr fun name _ => Bool.and_comm _ _
  rw [stringOrder, stringOrder, List.filter_append, filter_insertionSort, hcomm, hcomm]

theorem mem_stringOrder {name : PropertyKey} {names : List PropertyKey} :
    name ∈ stringOrder names ↔ name ∈ names ∧ name.isSymbol = false := by
  rw [stringOrder, List.mem_append, List.mem_insertionSort, List.mem_filter, List.mem_filter]
  cases name with
  | string utf8 =>
    cases hindex : (PropertyKey.string utf8).isIndex <;> simp [PropertyKey.isSymbol]
  | symbol id description =>
    simp [PropertyKey.isIndex, PropertyKey.arrayIndex, PropertyKey.isSymbol]

/-! ### Properties and descriptors -/

inductive Value (V : Type*) where
  | undefined
  | of (value : V)
  deriving DecidableEq

inductive Property (V : Type*) where
  | data (value : Value V) (writable enumerable configurable : Bool)
  | accessor (getter setter : Option V) (enumerable configurable : Bool)
  deriving DecidableEq

/-- A property descriptor: each field may be absent, and those of an accessor exclude those of a data
property. -/
structure Descriptor (V : Type*) where
  value : Option (Value V)
  writable : Option Bool
  getter : Option (Option V)
  setter : Option (Option V)
  enumerable : Option Bool
  configurable : Option Bool
  exclusive : (getter.isSome || setter.isSome) = true → value = none ∧ writable = none

namespace Descriptor

variable {V : Type*}

def isAccessor (d : Descriptor V) : Bool := d.getter.isSome || d.setter.isSome

def isData (d : Descriptor V) : Bool := d.value.isSome || d.writable.isSome

def created (d : Descriptor V) : Property V :=
  if d.isAccessor then
    .accessor (d.getter.getD none) (d.setter.getD none) (d.enumerable.getD false)
      (d.configurable.getD false)
  else
    .data (d.value.getD .undefined) (d.writable.getD false) (d.enumerable.getD false)
      (d.configurable.getD false)

end Descriptor

namespace Property

variable {V : Type*}

def enumerable : Property V → Bool
  | data _ _ enumerable _ => enumerable
  | accessor _ _ enumerable _ => enumerable

def configurable : Property V → Bool
  | data _ _ _ configurable => configurable
  | accessor _ _ _ configurable => configurable

def updated (d : Descriptor V) : Property V → Property V
  | data value writable enumerable configurable =>
    if d.isAccessor then
      .accessor (d.getter.getD none) (d.setter.getD none) (d.enumerable.getD enumerable)
        (d.configurable.getD configurable)
    else
      .data (d.value.getD value) (d.writable.getD writable) (d.enumerable.getD enumerable)
        (d.configurable.getD configurable)
  | accessor getter setter enumerable configurable =>
    if d.isData then
      .data (d.value.getD .undefined) (d.writable.getD false) (d.enumerable.getD enumerable)
        (d.configurable.getD configurable)
    else
      .accessor (d.getter.getD getter) (d.setter.getD setter) (d.enumerable.getD enumerable)
        (d.configurable.getD configurable)

/-- Whether a descriptor may change the kind and the contents of a property that is not
configurable. -/
def admitsContents [DecidableEq V] (d : Descriptor V) : Property V → Bool
  | data value writable _ _ =>
    !d.isAccessor && (writable ||
      (d.writable != some true && (d.value == none || d.value == some value)))
  | accessor getter setter _ _ =>
    !d.isData && (d.getter == none || d.getter == some getter) &&
      (d.setter == none || d.setter == some setter)

/-- Whether a descriptor may be applied to a property. -/
def admits [DecidableEq V] (d : Descriptor V) (property : Property V) : Bool :=
  property.configurable || (d.configurable != some true &&
    (d.enumerable == none || d.enumerable == some property.enumerable) &&
    property.admitsContents d)

def read (call : V → Value V) : Property V → Value V
  | data value _ _ _ => value
  | accessor (some getter) _ _ _ => call getter
  | accessor none _ _ _ => .undefined

end Property

/-! ### Objects -/

inductive Assignment where
  | create
  | setter
  | refuse
  /-- The setter of `__proto__`. -/
  | setPrototype
  deriving DecidableEq

structure Prototype (V : Type*) where
  lookup : PropertyKey → Option (Value V)
  assign : PropertyKey → Assignment

structure OrdinaryObject (V : Type*) where
  properties : List (PropertyKey × Property V)
  prototype : Prototype V

namespace OrdinaryObject

variable {V : Type*}

def empty (prototype : Prototype V) : OrdinaryObject V := ⟨[], prototype⟩

def names (o : OrdinaryObject V) : List PropertyKey := o.properties.map Prod.fst

def getOwn (o : OrdinaryObject V) (key : PropertyKey) : Option (Property V) :=
  o.properties.lookup key

def get (call : V → Value V) (o : OrdinaryObject V) (key : PropertyKey) : Value V :=
  match o.getOwn key with
  | some property => property.read call
  | none => (o.prototype.lookup key).getD .undefined

def has (o : OrdinaryObject V) (key : PropertyKey) : Bool :=
  (o.getOwn key).isSome || (o.prototype.lookup key).isSome

def put (o : OrdinaryObject V) (key : PropertyKey) (property : Property V) : OrdinaryObject V :=
  { o with properties := putEntry key property o.properties }

/-- Write under a name, and whether it succeeds. -/
def set (prototypeOf : Value V → Option (Prototype V)) (o : OrdinaryObject V) (key : PropertyKey)
    (value : Value V) : OrdinaryObject V × Bool :=
  match o.getOwn key with
  | some (.data _ writable enumerable configurable) =>
    if writable then (o.put key (.data value true enumerable configurable), true) else (o, false)
  | some (.accessor _ setter _ _) => (o, setter.isSome)
  | none =>
    match o.prototype.assign key with
    | .create => (o.put key (.data value true true true), true)
    | .setter => (o, true)
    | .refuse => (o, false)
    | .setPrototype => ({ o with prototype := (prototypeOf value).getD o.prototype }, true)

/-- Apply a descriptor under a name, and whether it succeeds. -/
def define [DecidableEq V] (o : OrdinaryObject V) (key : PropertyKey) (d : Descriptor V) :
    OrdinaryObject V × Bool :=
  match o.getOwn key with
  | some property =>
    if property.admits d then (o.put key (property.updated d), true) else (o, false)
  | none => (o.put key d.created, true)

/-- Remove a property, and whether none is left. -/
def delete (o : OrdinaryObject V) (key : PropertyKey) : OrdinaryObject V × Bool :=
  match o.getOwn key with
  | some property =>
    if property.configurable then
      ({ o with properties := o.properties.filter fun entry => entry.1 ≠ key }, true)
    else (o, false)
  | none => (o, true)

def isEnumerable (o : OrdinaryObject V) (key : PropertyKey) : Bool :=
  match o.getOwn key with
  | some property => property.enumerable
  | none => false

def ownKeys (o : OrdinaryObject V) : List PropertyKey :=
  stringOrder o.names ++ o.names.filter PropertyKey.isSymbol

def keys (o : OrdinaryObject V) : List PropertyKey := (stringOrder o.names).filter o.isEnumerable

/-! ### Small facts -/

@[simp] theorem getOwn_put (o : OrdinaryObject V) (key j : PropertyKey) (property : Property V) :
    (o.put key property).getOwn j = if j = key then some property else o.getOwn j :=
  lookup_putEntry key j property o.properties

@[simp] theorem prototype_put (o : OrdinaryObject V) (key : PropertyKey) (property : Property V) :
    (o.put key property).prototype = o.prototype := rfl

variable {key : PropertyKey} {o : OrdinaryObject V}

theorem isSome_getOwn_iff : (o.getOwn key).isSome ↔ key ∈ o.names := isSome_lookup_iff_mem

theorem names_put_of_mem (property : Property V) (h : key ∈ o.names) :
    (o.put key property).names = o.names :=
  keys_putEntry_of_mem property h

theorem names_put_of_not_mem (property : Property V) (h : key ∉ o.names) :
    (o.put key property).names = o.names ++ [key] := by
  rw [names, put, putEntry_of_not_mem property h, List.map_append]
  rfl

theorem delete_of_not_own (h : o.getOwn key = none) : o.delete key = (o, true) := by
  rw [delete, h]

theorem set_eq_put {prototypeOf : Value V → Option (Prototype V)} (value : Value V)
    (hassign : o.prototype.assign key = .create)
    (hplain : ∀ property, o.getOwn key = some property → ∃ v, property = .data v true true true) :
    o.set prototypeOf key value = (o.put key (.data value true true true), true) := by
  rw [set]
  cases hown : o.getOwn key with
  | none => rw [hassign]
  | some property =>
    obtain ⟨v, rfl⟩ := hplain property hown
    rfl

end OrdinaryObject

end QuickBeam.Lib.Javascript
