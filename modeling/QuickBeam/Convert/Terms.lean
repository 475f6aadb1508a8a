import QuickBeam.Lib.Double
import QuickBeam.Text.TextDecoder

/-!
# Terms to JavaScript and back (`beam_to_js.zig`, `beam_proxy.zig`, `js_to_beam.zig`)

Terms are those with binary keys in their maps.  A term becomes a value that is a tree of fresh
objects; a map with entries becomes a proxy that converts an entry when it is read.  A value becomes a term again within a depth and a node limit.

The recursions of the source go down from a limit: `left` is the number of levels that are left,
and zero means that the depth is exceeded.  Since the values made from terms are trees, the set of
visited objects never holds the object at hand and is left out.  `text` stands for what QuickJS makes
of bytes: the UTF-8 of the string it reads from them.  The entries of a map stand in the order of its
iterator.
-/

namespace QuickBeam.Convert

open QuickBeam.Lib

/-! ### Terms and values -/

inductive Term where
  | nil
  | bool (b : Bool)
  | int (n : ℤ)
  | float (x : Double)
  | binary (bytes : List UInt8)
  | list (terms : List Term)
  | map (entries : List (List UInt8 × Term))

inductive JSValue where
  | undefined
  | null
  | bool (b : Bool)
  | int (n : ℤ)
  | float (x : Double)
  /-- A string, by its UTF-8. -/
  | string (utf8 : List UInt8)
  | array (values : List JSValue)
  /-- An object without properties. -/
  | object
  /-- A `BeamMapProxy` that nothing has been written to. -/
  | proxy (entries : List (List UInt8 × Term))

/-! ### From terms to values -/

/-- `MAX_DEPTH` of `beam_to_js.zig`. -/
def maxDepth : ℕ := 32

def newInt64 (n : ℤ) : JSValue :=
  if -2 ^ 31 ≤ n ∧ n < 2 ^ 31 then .int n
  else
    match Double.ofInt n with
    | some x => .float x
    | none => .null

/-- `convert_recursive` of `beam_to_js.zig`. -/
def toJs (text : List UInt8 → List UInt8) : ℕ → Term → JSValue
  | 0, _ => .null
  | left + 1, term =>
    match term with
    | .nil => .null
    | .bool b => .bool b
    | .int n => if -2 ^ 63 ≤ n ∧ n < 2 ^ 63 then newInt64 n else .null
    | .float x => .float x
    | .binary bytes => .string (text bytes)
    | .list terms => .array (terms.map (toJs text left))
    | .map [] => .object
    | .map (entry :: entries) => .proxy (entry :: entries)

/-- `convert`, and `convertValue` of a proxy. -/
def convert (text : List UInt8 → List UInt8) (term : Term) : JSValue := toJs text (maxDepth + 1) term

/-! ### Proxies -/

def getProperty (text : List UInt8 → List UInt8) (entries : List (List UInt8 × Term))
    (name : List UInt8) : JSValue :=
  match entries.lookup name with
  | some term => convert text term
  | none => .undefined

/-- The names that `get_own_property_names` makes of the keys, cut to its buffer of 256 bytes. -/
def keyNames (text : List UInt8 → List UInt8) (entries : List (List UInt8 × Term)) :
    List (List UInt8) :=
  ((entries.map Prod.fst).filter fun key => key ≠ []).map fun key => text (key.take 256)

/-- `JS_GetOwnPropertyNames` with `JS_GPN_ENUM_ONLY` asks for each name whether it is a property. -/
def ownPropertyNames (text : List UInt8 → List UInt8) (entries : List (List UInt8 × Term)) :
    List (List UInt8) :=
  (keyNames text entries).filter fun name => (entries.lookup name).isSome

/-! ### From values to terms -/

structure ConvertLimits where
  maxDepth : ℕ
  maxNodes : ℕ

def maxSafeInteger : ℤ := 2 ^ 53 - 1

def convertNumber (x : Double) : Term :=
  if x.units % Double.unitsPerOne = 0 ∧ -maxSafeInteger ≤ x.trunc ∧ x.trunc ≤ maxSafeInteger then
    .int x.trunc
  else .float x

def beamType : List UInt8 := [95, 95, 98, 101, 97, 109, 95, 116, 121, 112, 101, 95, 95]

def beamData : List UInt8 := [95, 95, 98, 101, 97, 109, 95, 100, 97, 116, 97, 95, 95]

def JSValue.isUndefined : JSValue → Bool
  | .undefined => true
  | _ => false

/-- `enif_make_map_put`. -/
def mapPut (entries : List (List UInt8 × Term)) (entry : List UInt8 × Term) :
    List (List UInt8 × Term) :=
  if entry.1 ∈ entries.map Prod.fst then
    entries.map fun old => if old.1 = entry.1 then entry else old
  else entries ++ [entry]

/-- The map that `convert_object_to_map` makes; `enif_make_map_from_arrays` fails on a key that comes
twice. -/
def makeMap (entries : List (List UInt8 × Term)) : List (List UInt8 × Term) :=
  if entries.length ≤ 128 then
    if (entries.map Prod.fst).Nodup then entries else []
  else entries.foldl mapPut []

def mapLast {α : Type} (f : α → ℕ → Term × ℕ) : List α → ℕ → List Term × ℕ
  | [], count => ([], count)
  | x :: xs, count =>
    let rest := mapLast f xs count
    let first := f x rest.2
    (first.1 :: rest.1, first.2)

def mapFirst {α : Type} (f : α → ℕ → Term × ℕ) : List α → ℕ → List Term × ℕ
  | [], count => ([], count)
  | x :: xs, count =>
    let first := f x count
    let rest := mapFirst f xs first.2
    (first.1 :: rest.1, rest.2)

/-- `convert_recursive` of `js_to_beam.zig` with the node count before and after. -/
def toBeam (text : List UInt8 → List UInt8) (maxNodes : ℕ) : ℕ → JSValue → ℕ → Term × ℕ
  | 0, _, count => (.nil, count)
  | left + 1, value, count =>
    if maxNodes ≤ count then (.nil, count)
    else
      match value with
      | .undefined => (.nil, count + 1)
      | .null => (.nil, count + 1)
      | .bool b => (.bool b, count + 1)
      | .int n => (.int n, count + 1)
      | .float x => (convertNumber x, count + 1)
      | .string utf8 => (.binary utf8, count + 1)
      | .array values =>
        let terms := mapLast (toBeam text maxNodes left) values (count + 1)
        (.list terms.1, terms.2)
      | .object => (.map [], count + 1)
      | .proxy entries =>
        -- `decode_beam_term` gives nil: no property of a proxy is a typed array
        if (getProperty text entries beamType).isUndefined = false ∧
            (getProperty text entries beamData).isUndefined = false then (.nil, count + 1)
        else
          let names := ownPropertyNames text entries
          let terms := mapFirst (fun name => toBeam text maxNodes left (getProperty text entries name))
            names (count + 1)
          (.map (makeMap (names.zip terms.1)), terms.2)

def roundTrip (text : List UInt8 → List UInt8) (limits : ConvertLimits) (term : Term) : Term :=
  (toBeam text limits.maxNodes (limits.maxDepth + 1) (convert text term) 0).1

/-! ### What a round trip should give -/

namespace Term

def children : Term → List Term
  | .list terms => terms
  | .map entries => entries.map Prod.snd
  | _ => []

theorem sizeOf_child {term child : Term} (h : child ∈ term.children) :
    sizeOf child < sizeOf term := by
  cases term with
  | list terms =>
    have hlt : sizeOf child < sizeOf terms := List.sizeOf_lt_of_mem h
    rw [Term.list.sizeOf_spec]
    omega
  | map entries =>
    obtain ⟨entry, hentry, rfl⟩ := List.mem_map.1 h
    have hlt := List.sizeOf_lt_of_mem hentry
    have hsnd : sizeOf entry.2 < sizeOf entry := by
      rw [Prod.mk.sizeOf_spec]
      omega
    rw [Term.map.sizeOf_spec]
    omega
  | nil => cases h
  | bool b => cases h
  | int n => cases h
  | float x => cases h
  | binary bytes => cases h

/-- The number of terms in a term, keys apart. -/
def nodes (term : Term) : ℕ := 1 + (term.children.attach.map fun child => child.1.nodes).sum
termination_by term
decreasing_by exact sizeOf_child child.2

/-- The number of lists and maps around the innermost term. -/
def depth (term : Term) : ℕ :=
  (term.children.attach.map fun child => child.1.depth + 1).foldr max 0
termination_by term
decreasing_by exact sizeOf_child child.2

inductive All (p : Term → Prop) : Term → Prop
  | intro {term : Term} (self : p term) (children : ∀ child ∈ term.children, All p child) :
      All p term

def Supported : Term → Prop :=
  All fun
    | .int n => -maxSafeInteger ≤ n ∧ n ≤ maxSafeInteger
    | .float x => x.units % Double.unitsPerOne ≠ 0
    | .binary bytes => Text.validateUtf8 bytes = true
    | .map entries => (entries.map Prod.fst).Nodup ∧
        ∀ key ∈ entries.map Prod.fst, Text.validateUtf8 key = true
    | _ => True

/-- Equal terms; with `cut`, equal but for subterms replaced with nil. -/
inductive Agrees (cut : Prop) : Term → Term → Prop
  | cut (h : cut) (term : Term) : Agrees cut term .nil
  | nil : Agrees cut .nil .nil
  | bool (b : Bool) : Agrees cut (.bool b) (.bool b)
  | int (n : ℤ) : Agrees cut (.int n) (.int n)
  | float (x : Double) : Agrees cut (.float x) (.float x)
  | binary (bytes : List UInt8) : Agrees cut (.binary bytes) (.binary bytes)
  | list {terms results : List Term} (h : List.Forall₂ (Agrees cut) terms results) :
      Agrees cut (.list terms) (.list results)
  | map {entries results : List (List UInt8 × Term)}
      (keys : (results.map Prod.fst).Perm (entries.map Prod.fst))
      (values : ∀ key term result, (key, term) ∈ entries → (key, result) ∈ results →
        Agrees cut term result) :
      Agrees cut (.map entries) (.map results)

/-- Nested at most as deep as the limits allow and with at most as many nodes. -/
def Within (limits : ConvertLimits) (term : Term) : Prop :=
  term.depth ≤ Convert.maxDepth ∧ term.depth ≤ limits.maxDepth ∧ term.nodes ≤ limits.maxNodes

end Term

/-- A term comes back as an equal one within the limits, and always but for subterms replaced with
nil. -/
def RoundTrips (text : List UInt8 → List UInt8) (limits : ConvertLimits) (term : Term) : Prop :=
  (term.Within limits → Term.Agrees False term (roundTrip text limits term)) ∧
    Term.Agrees True term (roundTrip text limits term)

end QuickBeam.Convert
